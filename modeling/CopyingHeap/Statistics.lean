import CopyingHeap.Object.Kind
import CopyingHeap.Size

/-!
Statistics of a heap over its whole life. All counters have 64 bits.
-/

namespace CopyingHeap

/-- A counter for each kind of object. -/
abbrev Tally :=
  Vector Nat 7

namespace Kind

def index : Kind → Fin 7
  | array => 0
  | symbol => 1
  | string => 2
  | integer => 3
  | float => 4
  | char => 5
  | listNode => 6

theorem index_inj {k l : Kind} : k.index = l.index ↔ k = l := by
  cases k <;> cases l <;> decide

end Kind

namespace Tally

def zero : Tally :=
  Vector.replicate 7 0

def get (t : Tally) (k : Kind) : Nat :=
  t[k.index.val]

def add (t : Tally) (k : Kind) (n : Nat) : Except Fault Tally := do
  let sum ← Size.add (t.get k) n
  return Vector.set t k.index.val sum k.index.isLt

def total (t : Tally) : Except Fault Nat :=
  Kind.all.foldlM (fun sum k => Size.add sum (t.get k)) 0

theorem get_add {t u : Tally} {k : Kind} {n : Nat} (h : t.add k n = .ok u) (l : Kind) :
    u.get l = if l = k then t.get k + n else t.get l := by
  unfold add at h
  cases hs : Size.add (t.get k) n with
  | error f =>
    rw [hs] at h
    nomatch h
  | ok sum =>
    rw [hs] at h
    injection h with h
    subst h
    rw [Size.add_eq_ok_iff] at hs
    obtain ⟨-, rfl⟩ := hs
    unfold get
    by_cases hl : l = k
    · subst hl
      rw [Vector.getElem_set_self, if_pos rfl]
    · have hi : k.index.val ≠ l.index.val :=
        fun he => hl (Kind.index_inj.mp (Fin.ext he)).symm
      rw [Vector.getElem_set_ne k.index.isLt l.index.isLt hi, if_neg hl]

end Tally

/-- What a heap has done since it was built. -/
structure Statistics where
  /-- Completed collections. -/
  collections : Nat
  growths : Nat
  /-- Bytes handed out, after rounding. -/
  allocated : Nat
  objectsCopied : Tally
  bytesCopied : Tally
  /-- Root slots that held an object, over all collections. -/
  rootsTraced : Nat
  /-- Bytes that the last collection kept. -/
  liveBytes : Nat

namespace Statistics

def initial : Statistics :=
  ⟨0, 0, 0, Tally.zero, Tally.zero, 0, 0⟩

def recordAllocation (s : Statistics) (bytes : Nat) : Except Fault Statistics :=
  return { s with allocated := ← Size.add s.allocated bytes }

def recordCopy (s : Statistics) (k : Kind) (bytes : Nat) : Except Fault Statistics := do
  let objectsCopied ← s.objectsCopied.add k 1
  let bytesCopied ← s.bytesCopied.add k bytes
  return { s with objectsCopied, bytesCopied }

def recordCollection (s : Statistics) (roots liveBytes : Nat) : Except Fault Statistics := do
  let collections ← Size.add s.collections 1
  let rootsTraced ← Size.add s.rootsTraced roots
  return { s with collections, rootsTraced, liveBytes }

def recordGrowth (s : Statistics) : Except Fault Statistics :=
  return { s with growths := ← Size.add s.growths 1 }

/-- The name of a kind, padded to the width of the longest. -/
def paddedName (k : Kind) : String :=
  k.name ++ String.ofList (List.replicate (8 - k.name.length) ' ')

def copiedLine (s : Statistics) (k : Kind) : String :=
  if s.objectsCopied.get k = 0 then ""
  else
    s!"  copied {paddedName k} {s.objectsCopied.get k} objects, {s.bytesCopied.get k} bytes\n"

def text (s : Statistics) : String :=
  s!"collections: {s.collections}, growths: {s.growths}, allocated: {s.allocated} bytes, "
    ++ s!"live: {s.liveBytes} bytes\n" ++ String.join (Kind.all.map s.copiedLine)

end Statistics

end CopyingHeap
