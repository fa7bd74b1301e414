import CopyingHeap.Options.Basic
import Mathlib.Data.List.Nodup

/-!
Options after any settings. A setting is a name with a text, wherever it comes from: a variable of the
environment, a call, or a word of a text. Each option reads its own settings only, so it has the value of
the last of them that it takes, in the order in which they were made, and its default if it takes none.
-/

namespace CopyingHeap

namespace Options

/-- An option by its name, its place and the values it takes. -/
structure Field (α : Type) where
  name : String
  get : Options → α
  read? : String → Option α

def stackSizeField : Field Nat where
  name := "stack_size"
  get := stackSize
  read? value := (OptionText.count? value).filter validStackSize

def maxMemoryPagesField : Field Nat where
  name := "max_memory_pages"
  get := maxMemoryPages
  read? value := (OptionText.count? value).filter validMaxMemoryPages

def stressFactorField : Field Nat where
  name := "stress_factor"
  get := stressFactor
  read? := OptionText.count?

def minGrowthBytesField : Field Nat where
  name := "min_growth_bytes"
  get := minGrowthBytes
  read? value := (OptionText.count? value).filter validMinGrowthBytes

def zeroOnReleaseField : Field Bool where
  name := "zero_on_release"
  get := zeroOnRelease
  read? := OptionText.bool?

namespace Field

variable {α : Type} (f : Field α)

/-- Is the setting one of this option, with a text that it takes? -/
def Takes (s : String × String) : Prop :=
  s.1 = f.name ∧ (f.read? s.2).isSome = true

instance (s : String × String) : Decidable (f.Takes s) :=
  inferInstanceAs (Decidable (_ ∧ _))

/-- The value that the option has after a setting. -/
def after (o : Options) (s : String × String) : α :=
  if s.1 = f.name then (f.read? s.2).getD (f.get o) else f.get o

/-- The value of the last setting that the option takes. -/
def last? (settings : List (String × String)) : Option α :=
  (settings.filterMap fun s => if s.1 = f.name then f.read? s.2 else none).getLast?

theorem after_eq_of_not_takes {o : Options} {s : String × String} (h : ¬ f.Takes s) :
    f.after o s = f.get o := by
  unfold after
  split
  · rename_i hname
    cases hread : f.read? s.2 with
    | none => rfl
    | some v => exact absurd ⟨hname, by rw [hread]; rfl⟩ h
  · rfl

theorem last?_cons (s : String × String) (settings : List (String × String)) :
    f.last? (s :: settings) = (f.last? settings).or (if s.1 = f.name then f.read? s.2 else none) := by
  unfold last?
  rw [List.filterMap_cons]
  cases if s.1 = f.name then f.read? s.2 else none with
  | none => rw [Option.or_none]
  | some v => rw [List.getLast?_cons, Option.or_some]

/-- A setting is overridden by the ones behind it. -/
theorem getD_after (o : Options) (s : String × String) (settings : List (String × String)) :
    (f.last? settings).getD (f.after o s) = (f.last? (s :: settings)).getD (f.get o) := by
  rw [f.last?_cons, after]
  cases f.last? settings with
  | some v => rfl
  | none =>
    rw [Option.none_or]
    split <;> rfl

/-- With distinct names, the last setting that an option takes is the only one. -/
theorem last?_eq_some_iff {settings : List (String × String)} (hnames : (settings.map (·.1)).Nodup)
    {v : α} : f.last? settings = some v ↔ ∃ value, (f.name, value) ∈ settings ∧ f.read? value = some v := by
  have hmem (u : α) : u ∈ settings.filterMap (fun s => if s.1 = f.name then f.read? s.2 else none) ↔
      ∃ value, (f.name, value) ∈ settings ∧ f.read? value = some u := by
    rw [List.mem_filterMap]
    constructor
    · rintro ⟨⟨name, value⟩, hs, hread⟩
      obtain ⟨rfl, hread⟩ := (Option.ite_none_right_eq_some ..).mp hread
      exact ⟨value, hs, hread⟩
    · rintro ⟨value, hs, hread⟩
      exact ⟨_, hs, by rw [if_pos rfl, hread]⟩
  constructor
  · exact fun h => (hmem v).mp (List.mem_of_getLast? h)
  · rintro ⟨value, hs, hread⟩
    cases hlast : f.last? settings with
    | none =>
      have hnil := List.getLast?_eq_none_iff.mp hlast
      have hin := (hmem v).mpr ⟨value, hs, hread⟩
      rw [hnil] at hin
      nomatch hin
    | some u =>
      obtain ⟨value', hs', hread'⟩ := (hmem u).mp (List.mem_of_getLast? hlast)
      have hsame := List.inj_on_of_nodup_map hnames hs hs' rfl
      cases hsame
      rw [← hread', hread]

theorem last?_perm {xs ys : List (String × String)} (h : xs.Perm ys) (hnames : (xs.map (·.1)).Nodup) :
    f.last? xs = f.last? ys := by
  have hnames' : (ys.map (·.1)).Nodup := (h.map _).nodup_iff.mp hnames
  apply Option.ext
  intro v
  rw [f.last?_eq_some_iff hnames, f.last?_eq_some_iff hnames']
  simp only [h.mem_iff]

end Field

/-- Is the setting one that some option takes? -/
def Taken (s : String × String) : Prop :=
  stackSizeField.Takes s ∨ maxMemoryPagesField.Takes s ∨ stressFactorField.Takes s ∨
    minGrowthBytesField.Takes s ∨ zeroOnReleaseField.Takes s

instance (s : String × String) : Decidable (Taken s) :=
  inferInstanceAs (Decidable (_ ∨ _))

/-- Each option reads its own settings only, and takes those that it can. -/
theorem set_eq (o : Options) (name value : String) : o.set name value =
    (decide (Taken (name, value)),
      { stackSize := stackSizeField.after o (name, value)
        maxMemoryPages := maxMemoryPagesField.after o (name, value)
        stressFactor := stressFactorField.after o (name, value)
        minGrowthBytes := minGrowthBytesField.after o (name, value)
        zeroOnRelease := zeroOnReleaseField.after o (name, value) }) := by
  unfold set set? Taken Field.Takes Field.after
  split
  · rename_i p hp
    split at hp
    case h_6 => nomatch hp
    all_goals
      obtain ⟨v, hv, rfl⟩ := Option.map_eq_some_iff.mp hp
      simp [stackSizeField, maxMemoryPagesField, stressFactorField, minGrowthBytesField,
        zeroOnReleaseField, hv]
  · rename_i hp
    split at hp
    case h_6 hstack hpages hstress hgrowth hzero =>
      simp [stackSizeField, maxMemoryPagesField, stressFactorField, minGrowthBytesField,
        zeroOnReleaseField, eq_false hstack, eq_false hpages, eq_false hstress, eq_false hgrowth,
        eq_false hzero]
    all_goals
      have hv := Option.map_eq_none_iff.mp hp
      simp [stackSizeField, maxMemoryPagesField, stressFactorField, minGrowthBytesField,
        zeroOnReleaseField, hv]

/-- All settings in turn. -/
def setEach (o : Options) (settings : List (String × String)) : Options :=
  settings.foldl (fun o s => (o.set s.1 s.2).2) o

theorem setEach_cons (o : Options) (s : String × String) (settings : List (String × String)) :
    o.setEach (s :: settings) = (o.set s.1 s.2).2.setEach settings :=
  rfl

theorem setEach_append (o : Options) (xs ys : List (String × String)) :
    o.setEach (xs ++ ys) = (o.setEach xs).setEach ys :=
  List.foldl_append

/-- The options after settings of which each of them has taken the last one that it could. -/
structure Follows (o start : Options) (settings : List (String × String)) : Prop where
  stackSize_eq : o.stackSize = (stackSizeField.last? settings).getD start.stackSize
  maxMemoryPages_eq : o.maxMemoryPages = (maxMemoryPagesField.last? settings).getD start.maxMemoryPages
  stressFactor_eq : o.stressFactor = (stressFactorField.last? settings).getD start.stressFactor
  minGrowthBytes_eq : o.minGrowthBytes = (minGrowthBytesField.last? settings).getD start.minGrowthBytes
  zeroOnRelease_eq : o.zeroOnRelease = (zeroOnReleaseField.last? settings).getD start.zeroOnRelease

/-- What the options are after settings depends on the last setting of each option only. -/
theorem Follows.unique {o p start : Options} {xs ys : List (String × String)}
    (ho : o.Follows start xs) (hp : p.Follows start ys)
    (hlast : ∀ {α : Type} (f : Field α), f.last? xs = f.last? ys) : o = p := by
  obtain ⟨ostack, opages, ostress, ogrowth, ozero⟩ := ho
  obtain ⟨pstack, ppages, pstress, pgrowth, pzero⟩ := hp
  rw [hlast] at ostack opages ostress ogrowth ozero
  rw [← pstack] at ostack
  rw [← ppages] at opages
  rw [← pstress] at ostress
  rw [← pgrowth] at ogrowth
  rw [← pzero] at ozero
  cases o
  congr

theorem follows_setEach (start : Options) (settings : List (String × String)) :
    (start.setEach settings).Follows start settings := by
  induction settings generalizing start with
  | nil => exact ⟨rfl, rfl, rfl, rfl, rfl⟩
  | cons s settings ih =>
    have hrest := ih (start.set s.1 s.2).2
    rw [set_eq] at hrest
    rw [setEach_cons, set_eq]
    exact ⟨hrest.stackSize_eq.trans (stackSizeField.getD_after start s settings),
      hrest.maxMemoryPages_eq.trans (maxMemoryPagesField.getD_after start s settings),
      hrest.stressFactor_eq.trans (stressFactorField.getD_after start s settings),
      hrest.minGrowthBytes_eq.trans (minGrowthBytesField.getD_after start s settings),
      hrest.zeroOnRelease_eq.trans (zeroOnReleaseField.getD_after start s settings)⟩

theorem set_eq_self_of_not_taken {o : Options} {s : String × String} (h : ¬ Taken s) :
    (o.set s.1 s.2).2 = o := by
  rw [set_eq]
  unfold Taken at h
  rw [stackSizeField.after_eq_of_not_takes fun ht => h (.inl ht),
    maxMemoryPagesField.after_eq_of_not_takes fun ht => h (.inr (.inl ht)),
    stressFactorField.after_eq_of_not_takes fun ht => h (.inr (.inr (.inl ht))),
    minGrowthBytesField.after_eq_of_not_takes fun ht => h (.inr (.inr (.inr (.inl ht)))),
    zeroOnReleaseField.after_eq_of_not_takes fun ht => h (.inr (.inr (.inr (.inr ht))))]
  rfl

/-- Settings that no option takes may as well be missing. -/
theorem setEach_filter_taken (o : Options) (settings : List (String × String)) :
    o.setEach (settings.filter fun s => Taken s) = o.setEach settings := by
  induction settings generalizing o with
  | nil => rfl
  | cons s settings ih =>
    rw [setEach_cons, List.filter_cons]
    by_cases hs : Taken s
    · rw [if_pos (decide_eq_true hs), setEach_cons, ih]
    · rw [if_neg (mt of_decide_eq_true hs), ih, set_eq_self_of_not_taken hs]

theorem valid_set {o : Options} (ho : o.Valid) (name value : String) : (o.set name value).2.Valid := by
  unfold set
  cases hset : o.set? name value with
  | none => exact ho
  | some p => exact valid_set? ho hset

theorem valid_setEach {o : Options} (ho : o.Valid) (settings : List (String × String)) :
    (o.setEach settings).Valid := by
  induction settings generalizing o with
  | nil => exact ho
  | cons s settings ih => exact ih (valid_set ho s.1 s.2)

/-- A call that sets options. -/
inductive Call where
  | set (name value : String)
  | setAll (text : String)

namespace Call

def perform (o : Options) : Call → Bool × Options
  | set name value => o.set name value
  | setAll text => o.setAll text

/-- The settings that a call makes, in their order. -/
def settings : Call → List (String × String)
  | set name value => [(name, value)]
  | setAll text => (OptionText.words text).filterMap OptionText.keyValue?

end Call

def performAll (o : Options) (calls : List Call) : Options :=
  calls.foldl (fun o c => (c.perform o).2) o

/-- The settings that an environment makes, in its order. -/
def environmentSettings (environment : List (String × String)) : List (String × String) :=
  environment.filterMap fun v => (OptionText.nameAfter? variableMarker v.1).map (·, v.2)

theorem setWords_eq (o : Options) (words : List (List Char)) : o.setWords words =
    (words.all fun word => (OptionText.keyValue? word).any fun s => Taken s,
      o.setEach (words.filterMap OptionText.keyValue?)) := by
  induction words generalizing o with
  | nil => rfl
  | cons word words ih =>
    rw [setWords, setWord, List.all_cons, List.filterMap_cons]
    cases OptionText.keyValue? word with
    | none =>
      dsimp only
      rw [ih]
      rfl
    | some s =>
      dsimp only
      rw [ih, setEach_cons, set_eq]
      rfl

theorem perform_eq (o : Options) (c : Call) : (c.perform o).2 = o.setEach c.settings := by
  cases c with
  | set name value => rfl
  | setAll text => exact congrArg Prod.snd (setWords_eq o _)

theorem performAll_eq (o : Options) (calls : List Call) :
    o.performAll calls = o.setEach (calls.flatMap Call.settings) := by
  induction calls generalizing o with
  | nil => rfl
  | cons c calls ih =>
    rw [performAll, List.foldl_cons, ← performAll, ih, perform_eq, List.flatMap_cons, setEach_append]

theorem ofEnvironment_eq (environment : List (String × String)) :
    ofEnvironment environment = defaults.setEach (environmentSettings environment) := by
  unfold ofEnvironment
  generalize defaults = o
  induction environment generalizing o with
  | nil => rfl
  | cons v environment ih =>
    rw [List.foldl_cons, ih, setVariable]
    unfold environmentSettings
    rw [List.filterMap_cons]
    cases OptionText.nameAfter? variableMarker v.1 <;> rfl

/-- Options in their ranges, each with its default unless a setting has given it a value. -/
structure Settled (o : Options) (settings : List (String × String)) : Prop where
  stackSize_range : 4 ≤ o.stackSize ∧ o.stackSize % 4 = 0
  maxMemoryPages_range : 1 ≤ o.maxMemoryPages ∧ o.maxMemoryPages ≤ 0xFFFF
  minGrowthBytes_range : o.minGrowthBytes % 4 = 0
  follows : o.Follows defaults settings

theorem settled_setEach (settings : List (String × String)) :
    (defaults.setEach settings).Settled settings := by
  obtain ⟨hstack, hpages, hgrowth⟩ := valid_setEach valid_defaults settings
  unfold validStackSize at hstack
  unfold validMaxMemoryPages Size.maxPages at hpages
  unfold validMinGrowthBytes at hgrowth
  simp only [Bool.and_eq_true, decide_eq_true_eq, beq_iff_eq] at hstack hpages hgrowth
  exact ⟨hstack, hpages, hgrowth, follows_setEach defaults settings⟩

/-- Options that agree but for the one of that name. -/
structure SameBut (name : String) (o p : Options) : Prop where
  stackSize_eq : name ≠ "stack_size" → p.stackSize = o.stackSize
  maxMemoryPages_eq : name ≠ "max_memory_pages" → p.maxMemoryPages = o.maxMemoryPages
  stressFactor_eq : name ≠ "stress_factor" → p.stressFactor = o.stressFactor
  minGrowthBytes_eq : name ≠ "min_growth_bytes" → p.minGrowthBytes = o.minGrowthBytes
  zeroOnRelease_eq : name ≠ "zero_on_release" → p.zeroOnRelease = o.zeroOnRelease

/-- What the answer of a call says about the options behind it. -/
structure Answers (o : Options) : Prop where
  set_iff : ∀ name value, (o.set name value).1 = true ↔ Taken (name, value)
  of_not_set : ∀ name value, (o.set name value).1 = false → (o.set name value).2 = o
  of_set : ∀ name value, (o.set name value).1 = true → SameBut name o (o.set name value).2
  setAll_iff : ∀ text, (o.setAll text).1 = true ↔ ∀ word ∈ OptionText.words text,
    ∃ name value, OptionText.keyValue? word = some (name, value) ∧ Taken (name, value)
  setAll_eq : ∀ text, (o.setAll text).2 =
    o.setEach (((OptionText.words text).filterMap OptionText.keyValue?).filter fun s => Taken s)

theorem answers (o : Options) : o.Answers where
  set_iff name value := by
    rw [set_eq]
    exact decide_eq_true_iff
  of_not_set name value h := by
    rw [set_eq] at h
    exact set_eq_self_of_not_taken (of_decide_eq_false h)
  of_set name value _ := by
    rw [set_eq]
    exact ⟨fun h => if_neg h, fun h => if_neg h, fun h => if_neg h, fun h => if_neg h, fun h => if_neg h⟩
  setAll_iff text := by
    rw [setAll, setWords_eq, List.all_eq_true]
    simp only [Option.any_eq_true, decide_eq_true_eq, Prod.exists]
  setAll_eq text := by
    rw [setAll, setWords_eq, setEach_filter_taken]

/-- The order of an environment is of no importance if its variables set different options. -/
theorem ofEnvironment_perm {environment other : List (String × String)} (h : other.Perm environment)
    (hnames : (environment.filterMap fun v => OptionText.nameAfter? variableMarker v.1).Nodup) :
    ofEnvironment other = ofEnvironment environment := by
  have hmap : (environmentSettings environment).map (·.1) =
      environment.filterMap fun v => OptionText.nameAfter? variableMarker v.1 := by
    rw [environmentSettings, List.map_filterMap]
    congr 1
    funext v
    rw [Option.map_map]
    exact Option.map_id'
  have hperm : (environmentSettings other).Perm (environmentSettings environment) := h.filterMap _
  rw [ofEnvironment_eq, ofEnvironment_eq]
  refine (follows_setEach defaults _).unique (follows_setEach defaults _) fun f => ?_
  exact (f.last?_perm hperm.symm (by rwa [hmap])).symm

/-- After any calls, made on the options of an environment or on the defaults, each option is in its range
and has the value of its last setting that could be taken. A call tells whether its settings were taken,
and the order of the environment matters only if two of its names differ in nothing but case. -/
theorem settled_performAll (environment : List (String × String)) (calls : List Call) :
    ((ofEnvironment environment).performAll calls).Settled
        (environmentSettings environment ++ calls.flatMap Call.settings) ∧
      (defaults.performAll calls).Settled (calls.flatMap Call.settings) ∧
      (∀ o : Options, o.Answers) ∧
      ((environment.filterMap fun v => OptionText.nameAfter? variableMarker v.1).Nodup →
        ∀ other, other.Perm environment → ofEnvironment other = ofEnvironment environment) := by
  refine ⟨?_, ?_, answers, fun hnames other h => ofEnvironment_perm h hnames⟩
  · rw [performAll_eq, ofEnvironment_eq, ← setEach_append]
    exact settled_setEach _
  · rw [performAll_eq]
    exact settled_setEach _

def sampleEnvironment : List (String × String) :=
  [("TAGHEAP_STACK_SIZE", "128"), ("HOME", "/"), ("TAGHEAP_Zero_On_Release", "true"),
    ("TAGHEAP_STRESS_FACTOR", "-1")]

/-- A setting out of range, and a text with a word in its middle that is. -/
def sampleCalls : List Call :=
  [.set "max_memory_pages" "0", .setAll "stress_factor=+4096 stack_size=6 min_growth_bytes=8"]

theorem settled_sampleCalls :
    (sampleEnvironment.filterMap fun v => OptionText.nameAfter? variableMarker v.1).Nodup ∧
      ofEnvironment sampleEnvironment.reverse = ofEnvironment sampleEnvironment ∧
      ((ofEnvironment sampleEnvironment).performAll sampleCalls).Settled
        (environmentSettings sampleEnvironment ++ sampleCalls.flatMap Call.settings) ∧
      (ofEnvironment sampleEnvironment).performAll sampleCalls = ⟨128, 0xFFFF, 4096, 8, true⟩ := by
  have hnames : (sampleEnvironment.filterMap fun v =>
      OptionText.nameAfter? variableMarker v.1).Nodup := by decide +kernel
  obtain ⟨hsettled, -, -, horder⟩ := settled_performAll sampleEnvironment sampleCalls
  exact ⟨hnames, horder hnames _ (List.reverse_perm _), hsettled, by rfl⟩

end Options

end CopyingHeap
