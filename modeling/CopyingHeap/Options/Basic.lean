import CopyingHeap.Options.Text

/-!
Options of a heap. Each has a name, a default and a range; a setting that does not parse or is out of
range changes nothing. Settings come from the environment, in its order, then one by one or from a
text of `key=value` words. `Options.Valid` is what every sequence of settings keeps.
-/

namespace CopyingHeap

structure Options where
  /-- The most bytes of the shadow stack. -/
  stackSize : Nat
  /-- The most pages the memory may grow to. -/
  maxMemoryPages : Nat
  /-- Collect once more than this many bytes were handed out since the last collection. -/
  stressFactor : Nat
  /-- The least that a growth adds to each space. -/
  minGrowthBytes : Nat
  /-- Zero a space when it is released, so that stale references read as null. -/
  zeroOnRelease : Bool
  deriving DecidableEq

namespace Options

def defaults : Options where
  stackSize := 64 * 1024
  maxMemoryPages := Size.maxPages
  stressFactor := Size.highest
  minGrowthBytes := Size.pageBytes
  zeroOnRelease := false

/-- Does the stress factor have an effect? Its highest value stands for "never". -/
def stress (o : Options) : Bool :=
  o.stressFactor != Size.highest

def validStackSize (n : Nat) : Bool :=
  4 ≤ n && n % 4 == 0

def validMaxMemoryPages (n : Nat) : Bool :=
  1 ≤ n && n ≤ Size.maxPages

def validMinGrowthBytes (n : Nat) : Bool :=
  n % 4 == 0

def Valid (o : Options) : Prop :=
  validStackSize o.stackSize = true ∧ validMaxMemoryPages o.maxMemoryPages = true ∧
    validMinGrowthBytes o.minGrowthBytes = true

/-- Sets one option, unless the name is unknown or the value is not one of its range. -/
def set? (o : Options) (name value : String) : Option Options :=
  match name with
  | "stack_size" =>
    ((OptionText.count? value).filter validStackSize).map fun n => { o with stackSize := n }
  | "max_memory_pages" =>
    ((OptionText.count? value).filter validMaxMemoryPages).map fun n => { o with maxMemoryPages := n }
  | "stress_factor" => (OptionText.count? value).map fun n => { o with stressFactor := n }
  | "min_growth_bytes" =>
    ((OptionText.count? value).filter validMinGrowthBytes).map fun n => { o with minGrowthBytes := n }
  | "zero_on_release" => (OptionText.bool? value).map fun b => { o with zeroOnRelease := b }
  | _ => none

/-- Sets one option; the flag says whether it was set. -/
def set (o : Options) (name value : String) : Bool × Options :=
  match o.set? name value with
  | some o => (true, o)
  | none => (false, o)

def setWord (o : Options) (word : List Char) : Bool × Options :=
  match OptionText.keyValue? word with
  | some (name, value) => o.set name value
  | none => (false, o)

/-- Sets the options of all words in turn; the flag says whether every word set one. -/
def setWords (o : Options) : List (List Char) → Bool × Options
  | [] => (true, o)
  | word :: rest =>
    let (ok, o) := o.setWord word
    let (all, o) := o.setWords rest
    (ok && all, o)

/-- Sets options from a text of `key=value` words between blanks. -/
def setAll (o : Options) (text : String) : Bool × Options :=
  o.setWords (OptionText.words text)

/-- What the name of a variable that sets an option starts with. -/
def variableMarker : String :=
  "TAGHEAP_"

/-- Sets an option from a variable of the environment, if its name is that of an option. -/
def setVariable (o : Options) (variableName value : String) : Options :=
  match OptionText.nameAfter? variableMarker variableName with
  | some name => (o.set name value).2
  | none => o

/-- The defaults, overridden by the variables of the environment in their order. -/
def ofEnvironment (environment : List (String × String)) : Options :=
  environment.foldl (fun o v => o.setVariable v.1 v.2) defaults

theorem valid_defaults : defaults.Valid :=
  ⟨by decide, by decide, by decide⟩

theorem valid_set? {o p : Options} {name value : String} (ho : o.Valid)
    (h : o.set? name value = some p) : p.Valid := by
  obtain ⟨hs, hp, hg⟩ := ho
  unfold set? at h
  split at h
  · obtain ⟨n, hn, rfl⟩ := Option.map_eq_some_iff.mp h
    exact ⟨(Option.filter_eq_some_iff.mp hn).2, hp, hg⟩
  · obtain ⟨n, hn, rfl⟩ := Option.map_eq_some_iff.mp h
    exact ⟨hs, (Option.filter_eq_some_iff.mp hn).2, hg⟩
  · obtain ⟨n, hn, rfl⟩ := Option.map_eq_some_iff.mp h
    exact ⟨hs, hp, hg⟩
  · obtain ⟨n, hn, rfl⟩ := Option.map_eq_some_iff.mp h
    exact ⟨hs, hp, (Option.filter_eq_some_iff.mp hn).2⟩
  · obtain ⟨b, hb, rfl⟩ := Option.map_eq_some_iff.mp h
    exact ⟨hs, hp, hg⟩
  · nomatch h

end Options

end CopyingHeap
