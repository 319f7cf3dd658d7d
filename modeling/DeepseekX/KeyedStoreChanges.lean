import Mathlib.Data.List.Basic

/-!
# Change logs of a keyed store

A store maps keys to optional values. A change log records, for each change, the
values it replaced. A log is a faithful run from one store to another when every
recorded value is the one found at that moment and the last store is reached.
-/

namespace DeepseekX.KeyedStoreChanges

abbrev Store (κ ν : Type*) := κ → Option ν

/-- A change together with the values it replaces. -/
inductive Change (κ ν : Type*) where
  | put (key : κ) (value : ν) (overwritten : Option ν)
  | drop (key : κ) (old : ν)
  | revise (key : κ) (old new : ν)
  | move (source dest : κ) (old : ν) (overwritten : Option ν) (new : ν)

variable {κ ν : Type*} [DecidableEq κ]

namespace Change

def keys : Change κ ν → List κ
  | put key _ _ | drop key _ | revise key _ _ => [key]
  | move source dest _ _ _ => [source, dest]

/-- A move writes its destination before it removes its source. -/
def apply : Change κ ν → Store κ ν → Store κ ν
  | put key value _, s => Function.update s key (some value)
  | drop key _, s => Function.update s key none
  | revise key _ new, s => Function.update s key (some new)
  | move source dest _ _ new, s =>
      Function.update (Function.update s dest (some new)) source none

def Faithful : Change κ ν → Store κ ν → Prop
  | put key _ overwritten, s => s key = overwritten
  | drop key old, s => s key = some old
  | revise key old _, s => s key = some old
  | move source dest old overwritten _, s => s source = some old ∧ s dest = overwritten

def MovesApart : Change κ ν → Prop
  | move source dest _ _ _ => dest ≠ source
  | _ => True

instance (c : Change κ ν) : Decidable c.MovesApart :=
  match c with
  | move source dest _ _ _ => inferInstanceAs (Decidable (dest ≠ source))
  | put _ _ _ | drop _ _ | revise _ _ _ => isTrue trivial

omit [DecidableEq κ] in
theorem mem_keys_move {source dest q : κ} {old new : ν} {overwritten : Option ν} :
    q ∈ (move source dest old overwritten new).keys ↔ q = source ∨ q = dest := by
  simp [keys]

theorem apply_of_notMem (c : Change κ ν) (s : Store κ ν) {q : κ} (h : q ∉ c.keys) :
    c.apply s q = s q := by
  cases c with
  | put | drop | revise => simp_all [keys, apply]
  | move source dest old overwritten new =>
    rw [mem_keys_move, not_or] at h
    simp [apply, h.1, h.2]

end Change

def replay (changes : List (Change κ ν)) (s : Store κ ν) : Store κ ν :=
  changes.foldl (fun s c => c.apply s) s

/-- The log leads from `s` to `t` and every value it records was found there. -/
def FaithfulRun : Store κ ν → List (Change κ ν) → Store κ ν → Prop
  | s, [], t => s = t
  | s, c :: changes, t => c.Faithful s ∧ FaithfulRun (c.apply s) changes t

variable {s t : Store κ ν} {c : Change κ ν} {changes : List (Change κ ν)}

@[simp] theorem faithfulRun_nil : FaithfulRun s [] t ↔ s = t := Iff.rfl

@[simp] theorem faithfulRun_cons :
    FaithfulRun s (c :: changes) t ↔ c.Faithful s ∧ FaithfulRun (c.apply s) changes t :=
  Iff.rfl

theorem faithfulRun_append {xs ys : List (Change κ ν)} :
    FaithfulRun s (xs ++ ys) t ↔ ∃ u, FaithfulRun s xs u ∧ FaithfulRun u ys t := by
  induction xs generalizing s with
  | nil => simp
  | cons c xs ih => simp [ih, and_assoc]

theorem FaithfulRun.snoc (h : FaithfulRun s changes t) (hc : c.Faithful t) :
    FaithfulRun s (changes ++ [c]) (c.apply t) :=
  faithfulRun_append.mpr ⟨t, h, hc, rfl⟩

/-- The replay of a faithful run ends in its last store, and every change finds the values it
records. -/
theorem FaithfulRun.replay_eq (h : FaithfulRun s changes t) :
    replay changes s = t ∧
      ∀ before c after, changes = before ++ c :: after → c.Faithful (replay before s) := by
  induction changes generalizing s with
  | nil => simpa [replay] using h
  | cons d changes ih =>
    obtain ⟨hr, hall⟩ := ih h.2
    refine ⟨hr, fun before c after hsplit => ?_⟩
    cases before with
    | nil =>
      obtain ⟨rfl, rfl⟩ := List.cons.inj hsplit
      exact h.1
    | cons b before =>
      obtain ⟨rfl, htail⟩ := List.cons.inj hsplit
      exact hall before c after htail

end DeepseekX.KeyedStoreChanges
