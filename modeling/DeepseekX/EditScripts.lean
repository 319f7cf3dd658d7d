import DeepseekX.KeyedStoreChanges
import Mathlib.Data.List.Infix

/-!
# Edit scripts: running in order, and previewing each edit on the initial store

An edit writes, removes or reworks the value of a key, a reworked value possibly
under another key. A script can be carried out in order, or previewed: every edit is
evaluated on the initial store, and for each source key the outcome of the last edit
is kept. The two agree for all values the edits may carry if and only if the keys
alone satisfy `Coherent`, provided that the script can be run at all.
-/

namespace DeepseekX.EditScripts
open KeyedStoreChanges List Option Function

/-- The keys of an edit, without the values. -/
inductive Form (κ : Type*) where
  | write (key : κ)
  | erase (key : κ)
  | rework (key : κ) (dest : Option κ)
  deriving DecidableEq

namespace Form
variable {κ : Type*}

def source : Form κ → κ
  | write key | erase key | rework key _ => key

def dest : Form κ → Option κ
  | rework _ dest => dest
  | _ => none

def keys (f : Form κ) : List κ := f.source :: f.dest.toList

/-- The edit leaves nothing under its source. -/
def Removes : Form κ → Prop
  | write _ => False
  | erase _ => True
  | rework _ dest => dest.isSome

/-- The outcome depends on the value found under the source. -/
def Reworks : Form κ → Prop
  | rework _ _ => True
  | _ => False

def Needs : Form κ → Prop
  | write _ => False
  | _ => True

instance (f : Form κ) : Decidable f.Removes := by cases f <;> unfold Removes <;> infer_instance
instance (f : Form κ) : Decidable f.Reworks := by cases f <;> unfold Reworks <;> infer_instance
instance (f : Form κ) : Decidable f.Needs := by cases f <;> unfold Needs <;> infer_instance

theorem source_mem_keys (f : Form κ) : f.source ∈ f.keys := mem_cons_self

theorem mem_keys_iff {f : Form κ} {k : κ} : k ∈ f.keys ↔ k = f.source ∨ f.dest = some k := by
  simp [keys]

theorem of_dest {f : Form κ} {k : κ} (h : f.dest = some k) : f.Removes ∧ f.Reworks := by
  cases f with
  | write | erase => cases h
  | rework => exact ⟨isSome_iff_exists.mpr ⟨k, h⟩, trivial⟩

end Form

section Positions
variable {α : Type*}

/-- Every element satisfies a condition on the elements before it, itself and those after. -/
def AtEach (P : List α → α → List α → Prop) : List α → List α → Prop
  | _, [] => True
  | before, x :: after => P before x after ∧ AtEach P (before ++ [x]) after

instance AtEach.decidable (P : List α → α → List α → Prop) [∀ xs x ys, Decidable (P xs x ys)] :
    ∀ before xs, Decidable (AtEach P before xs)
  | _, [] => isTrue trivial
  | before, x :: after =>
    have := AtEach.decidable P (before ++ [x]) after
    inferInstanceAs (Decidable (P before x after ∧ AtEach P (before ++ [x]) after))

theorem atEach_iff {P : List α → α → List α → Prop} {first xs : List α} :
    AtEach P first xs ↔
      ∀ before x after, xs = before ++ x :: after → P (first ++ before) x after := by
  induction xs generalizing first with
  | nil => simp [AtEach]
  | cons y ys ih =>
    rw [AtEach, ih]
    constructor
    · rintro ⟨hy, hall⟩ before x after hsplit
      cases before with
      | nil =>
        obtain ⟨rfl, rfl⟩ := cons.inj hsplit
        simpa using hy
      | cons b before =>
        obtain ⟨rfl, htail⟩ := cons.inj hsplit
        simpa using hall before x after htail
    · intro hall
      refine ⟨by simpa using hall [] y ys rfl, fun before x after hsplit => ?_⟩
      simpa using hall (y :: before) x after (by rw [hsplit]; rfl)

theorem exists_last_split {p : α → Prop} {xs : List α} (h : ∃ x ∈ xs, p x) :
    ∃ before x after, xs = before ++ x :: after ∧ p x ∧ ∀ y ∈ after, ¬ p y := by
  induction xs with
  | nil => simp at h
  | cons z zs ih =>
    by_cases hz : ∃ x ∈ zs, p x
    · obtain ⟨before, x, after, rfl, hx, hafter⟩ := ih hz
      exact ⟨z :: before, x, after, rfl, hx, hafter⟩
    · refine ⟨[], z, zs, rfl, ?_, fun y hy hp => hz ⟨y, hy, hp⟩⟩
      obtain ⟨x, hx, hp⟩ := h
      rcases mem_cons.mp hx with rfl | hx
      · exact hp
      · exact absurd ⟨x, hx, hp⟩ hz

end Positions

section Keys
variable {κ : Type*} [DecidableEq κ]

/-- The last edit for its source: the one whose outcome a preview keeps. -/
def KeptBefore (f : Form κ) (after : List (Form κ)) : Prop := ∀ g ∈ after, g.source ≠ f.source

instance (f : Form κ) (after : List (Form κ)) : Decidable (KeptBefore f after) :=
  inferInstanceAs (Decidable (∀ g ∈ after, g.source ≠ f.source))

variable (before : List (Form κ))

/-- What coherence asks of one edit among the others. An edit that is the last to touch a key
must be kept. A kept edit must be the last to touch its keys; if it reworks a value, the first
to touch its source; and it must not move a key onto itself. -/
def CoherentAt (f : Form κ) (after : List (Form κ)) : Prop :=
  (∀ k ∈ f.keys, (∀ g ∈ after, k ∉ g.keys) → KeptBefore f after) ∧
    (KeptBefore f after → (∀ k ∈ f.keys, ∀ g ∈ after, k ∉ g.keys) ∧
      (f.Reworks → ∀ g ∈ before, f.source ∉ g.keys) ∧ f.dest ≠ some f.source)

instance (f : Form κ) (after : List (Form κ)) :
    Decidable (CoherentAt before f after) := by
  unfold CoherentAt
  infer_instance

def Coherent (fs : List (Form κ)) : Prop := AtEach CoherentAt [] fs

instance (fs : List (Form κ)) : Decidable (Coherent fs) :=
  AtEach.decidable CoherentAt [] fs

/-- The last edit of the list that touches the key removes it. -/
def RemovedBy (k : κ) : List (Form κ) → Prop
  | [] => False
  | f :: fs => RemovedBy k fs ∨ (∀ g ∈ fs, k ∉ g.keys) ∧ f.source = k ∧ f.Removes

instance RemovedBy.decidable (k : κ) : ∀ fs, Decidable (RemovedBy k fs)
  | [] => isFalse not_false
  | f :: fs =>
    have := RemovedBy.decidable k fs
    inferInstanceAs (Decidable (RemovedBy k fs ∨ (∀ g ∈ fs, k ∉ g.keys) ∧ f.source = k ∧ f.Removes))

/-- No edit needs a value that the edits before it have removed. -/
def FeasibleAt (f : Form κ) (_ : List (Form κ)) : Prop :=
  f.Needs → ¬ RemovedBy f.source before

instance (f : Form κ) (after : List (Form κ)) :
    Decidable (FeasibleAt before f after) :=
  inferInstanceAs (Decidable (f.Needs → ¬ RemovedBy f.source before))

def Feasible (fs : List (Form κ)) : Prop := AtEach FeasibleAt [] fs

instance (fs : List (Form κ)) : Decidable (Feasible fs) :=
  AtEach.decidable FeasibleAt [] fs

end Keys

inductive Edit (κ ν : Type*) where
  | write (key : κ) (value : ν)
  | erase (key : κ)
  | rework (key : κ) (dest : Option κ) (f : ν → Option ν)

section Runs
variable {κ ν : Type*}

def Edit.form : Edit κ ν → Form κ
  | write key _ => .write key
  | erase key => .erase key
  | rework key dest _ => .rework key dest

/-- The store `t` holds what the edit announces when it is evaluated on `s`. -/
def Edit.Achieved (s t : Store κ ν) : Edit κ ν → Prop
  | write key value => t key = some value
  | erase key => t key = none
  | rework key none f => ∃ new, (s key).bind f = some new ∧ t key = some new
  | rework key (some dest) f =>
      t key = none ∧ ∃ new, (s key).bind f = some new ∧ t dest = some new

/-- The edit stands in the script and is the last for its source. -/
def Kept (es : List (Edit κ ν)) (e : Edit κ ν) : Prop :=
  ∃ before after, es = before ++ e :: after ∧ KeptBefore e.form (after.map Edit.form)

/-- What the kept edits announce on `s` holds in `t`, and nothing else has changed. -/
def PreviewAchieved (es : List (Edit κ ν)) (s t : Store κ ν) : Prop :=
  (∀ e, Kept es e → e.Achieved s t) ∧ ∀ k, (∀ e, Kept es e → k ∉ e.form.keys) → t k = s k

variable {e : Edit κ ν} {s t : Store κ ν} {k : κ} {es : List (Edit κ ν)}

def Edit.Leaves (s : Store κ ν) (v : ν) : Edit κ ν → Prop
  | write _ value => v = value
  | erase _ => True
  | rework key _ f => (s key).bind f = some v

theorem Edit.achieved_iff [Nonempty ν] : e.Achieved s t ↔ ∃ v, e.Leaves s v ∧
    t e.form.source = (if e.form.Removes then none else some v) ∧
      ∀ k, e.form.dest = some k → t k = some v := by
  cases e with
  | write | erase => simp [Achieved, Leaves, form, Form.source, Form.Removes, Form.dest]
  | rework key dest f =>
    cases dest <;>
      simp [Achieved, Leaves, form, Form.source, Form.Removes, Form.dest, and_left_comm]

theorem map_form_split {before after : List (Edit κ ν)}
    (h : es = before ++ e :: after) :
    es.map Edit.form = before.map Edit.form ++ e.form :: after.map Edit.form := by
  simp [h]

variable [DecidableEq κ]

/-- Leaves a reworked value under its key or moves it to its destination. -/
def relocate (key : κ) (new : ν) (s : Store κ ν) : Option κ → Store κ ν
  | none => update s key (some new)
  | some dest => update (update s dest (some new)) key none

def Edit.run : Edit κ ν → Store κ ν → Option (Store κ ν)
  | write key value, s => some (update s key (some value))
  | erase key, s => if (s key).isSome then some (update s key none) else none
  | rework key dest f, s => ((s key).bind f).map fun new => relocate key new s dest

def runAll : List (Edit κ ν) → Store κ ν → Option (Store κ ν)
  | [], s => some s
  | e :: es, s => (e.run s).bind (runAll es)

theorem Edit.run_apply (h : e.run s = some t) : ∃ v, e.Leaves s v ∧ ∀ k, t k =
    if k = e.form.source then if e.form.Removes then none else some v
    else if e.form.dest = some k then some v else s k := by
  cases e with
  | write key value =>
    obtain rfl := some.inj h
    exact ⟨value, rfl, fun k => by simp [form, Form.source, Form.Removes, Form.dest, update_apply]⟩
  | erase key =>
    obtain ⟨hs, ht⟩ := ite_none_right_eq_some.mp h
    obtain rfl := some.inj ht
    obtain ⟨v, -⟩ := isSome_iff_exists.mp hs
    exact ⟨v, trivial, fun k => by simp [form, Form.source, Form.Removes, Form.dest, update_apply]⟩
  | rework key dest f =>
    obtain ⟨v, hv, rfl⟩ := map_eq_some_iff.mp h
    refine ⟨v, hv, fun k => ?_⟩
    cases dest <;>
      simp [form, Form.source, Form.Removes, Form.dest, relocate, update_apply, eq_comm]

theorem Edit.run_of_notMem (h : e.run s = some t) (hk : k ∉ e.form.keys) : t k = s k := by
  obtain ⟨v, -, ht⟩ := run_apply h
  rw [Form.mem_keys_iff, not_or] at hk
  rw [ht, if_neg hk.1, if_neg hk.2]

theorem runAll_append {xs ys : List (Edit κ ν)} :
    runAll (xs ++ ys) s = some t ↔ ∃ u, runAll xs s = some u ∧ runAll ys u = some t := by
  induction xs generalizing s with
  | nil => simp [runAll]
  | cons x xs ih =>
    simp only [cons_append, runAll, bind_eq_some_iff, ih]
    constructor
    · rintro ⟨u, hu, w, hw, ht⟩
      exact ⟨w, ⟨u, hu, hw⟩, ht⟩
    · rintro ⟨w, ⟨u, hu, hw⟩, ht⟩
      exact ⟨u, hu, w, hw, ht⟩

/-- A run passes through the store before and the store after each of its edits. -/
theorem runAll_split {before after : List (Edit κ ν)}
    (h : runAll (before ++ e :: after) s = some t) :
    ∃ u w, runAll before s = some u ∧ e.run u = some w ∧ runAll after w = some t := by
  obtain ⟨u, hu, hrest⟩ := runAll_append.mp h
  obtain ⟨w, hw, ht⟩ := bind_eq_some_iff.mp hrest
  exact ⟨u, w, hu, hw, ht⟩

theorem runAll_of_notMem (h : runAll es s = some t) (hk : ∀ e ∈ es, k ∉ e.form.keys) :
    t k = s k := by
  induction es generalizing s with
  | nil =>
    obtain rfl := some.inj h
    rfl
  | cons e es ih =>
    obtain ⟨u, hu, ht⟩ := bind_eq_some_iff.mp h
    rw [ih ht (forall_mem_cons.mp hk).2]
    exact Edit.run_of_notMem hu (hk e mem_cons_self)

/-- An edit does what it announces, if it finds the value that the announcement was made for
and does not move a key onto itself, and if its keys are left alone afterwards. -/
theorem Edit.run_achieved {u w : Store κ ν} (h : e.run u = some w)
    (hs : e.form.Reworks → u e.form.source = s e.form.source)
    (hd : e.form.dest ≠ some e.form.source) (ht : ∀ k ∈ e.form.keys, t k = w k) :
    e.Achieved s t := by
  obtain ⟨v, hv, hw⟩ := run_apply h
  have : Nonempty ν := ⟨v⟩
  refine achieved_iff.mpr ⟨v, ?_, ?_, fun k hk => ?_⟩
  · cases e with
    | write | erase => exact hv
    | rework key dest f =>
      have hkey : u key = s key := hs trivial
      rwa [Leaves, ← hkey]
  · rw [ht _ (Form.source_mem_keys _), hw, if_pos rfl]
  · have hne : k ≠ e.form.source := by
      rintro rfl
      exact hd hk
    rw [ht k (Form.mem_keys_iff.mpr (.inr hk)), hw, if_neg hne, if_pos hk]

/-- A coherent script does what its preview announces. -/
theorem previewAchieved_of_coherent (hc : Coherent (es.map Edit.form)) (h : runAll es s = some t) :
    PreviewAchieved es s t := by
  have hat := atEach_iff.mp hc
  constructor
  · rintro e ⟨before, after, rfl, hkept⟩
    obtain ⟨u, w, hu, hw, ht⟩ := runAll_split h
    obtain ⟨hlast, hfirst, hdest⟩ := (hat _ _ _ (map_form_split rfl)).2 hkept
    have hsource : e.form.Reworks → u e.form.source = s e.form.source := fun hr =>
      runAll_of_notMem hu fun x hx => hfirst hr x.form (by simpa using mem_map_of_mem hx)
    refine Edit.run_achieved hw hsource hdest fun k hk => ?_
    exact runAll_of_notMem ht fun x hx => hlast k hk x.form (mem_map_of_mem hx)
  · intro k hk
    by_cases htouched : ∃ e ∈ es, k ∈ e.form.keys
    · obtain ⟨before, e, after, rfl, hmem, hafter⟩ := exists_last_split htouched
      have hkept := (hat _ _ _ (map_form_split rfl)).1 k hmem (by simpa using hafter)
      exact absurd hmem (hk e ⟨before, after, rfl, hkept⟩)
    · exact runAll_of_notMem h fun e he hmem => htouched ⟨e, he, hmem⟩

theorem Edit.run_eq_none_iff (h : e.run s = some t) :
    t k = none ↔ e.form.source = k ∧ e.form.Removes ∨ k ∉ e.form.keys ∧ s k = none := by
  obtain ⟨v, -, ht⟩ := run_apply h
  rw [ht, Form.mem_keys_iff]
  split_ifs with hk hremoves hdest
  · simp [hk, hremoves]
  · simp [hk, hremoves]
  · simp [Ne.symm hk, hdest]
  · simp [hk, Ne.symm hk, hdest]

theorem runAll_eq_none_iff (h : runAll es s = some t) : t k = none ↔
      RemovedBy k (es.map Edit.form) ∨ (∀ f ∈ es.map Edit.form, k ∉ f.keys) ∧ s k = none := by
  induction es generalizing s with
  | nil =>
    obtain rfl := some.inj h
    simp [RemovedBy]
  | cons e es ih =>
    obtain ⟨u, hu, ht⟩ := bind_eq_some_iff.mp h
    rw [ih ht, Edit.run_eq_none_iff hu, map_cons, RemovedBy, forall_mem_cons]
    tauto

/-- An edit can be run where its source holds a value, unless its function refuses it. -/
theorem Edit.source_isSome_of_run (h : e.run s = some t) (hn : e.form.Needs) :
    s e.form.source ≠ none := by
  cases e with
  | write key value => exact absurd hn not_false
  | erase key =>
    obtain ⟨hs, -⟩ := ite_none_right_eq_some.mp h
    exact isSome_iff_ne_none.mp hs
  | rework key dest f =>
    obtain ⟨new, hnew, -⟩ := map_eq_some_iff.mp h
    obtain ⟨old, hold, -⟩ := bind_eq_some_iff.mp hnew
    intro hnone
    exact some_ne_none old (hold.symm.trans hnone)

theorem feasible_of_runAll (h : runAll es s = some t) : Feasible (es.map Edit.form) := by
  apply atEach_iff.mpr
  intro before f after hsplit hn hremoved
  obtain ⟨bs, rest, rfl, rfl, hrest⟩ := map_eq_append_iff.mp hsplit
  obtain ⟨e, as, rfl, rfl, rfl⟩ := map_eq_cons_iff.mp hrest
  obtain ⟨u, w, hu, hw, -⟩ := runAll_split h
  exact Edit.source_isSome_of_run hw hn ((runAll_eq_none_iff hu).mpr (Or.inl hremoved))

end Runs

/-- Values that remember the number of the last edit made to them. -/
structure Marking (ν : Type*) where
  fresh : ℕ → ν
  tag : ℕ → ν → ν
  mark : ν → ℕ
  mark_fresh : ∀ n, mark (fresh n) = n
  mark_tag : ∀ n x, mark (tag n x) = n
  mark_eq_of_tag_eq : ∀ n x y, tag n x = tag n y → mark x = mark y

section Stamps
variable {κ ν : Type*} (M : Marking ν)

/-- The edit of the given form that marks what it leaves with its number. -/
def Marking.edit (n : ℕ) : Form κ → Edit κ ν
  | .write key => .write key (M.fresh n)
  | .erase key => .erase key
  | .rework key dest => .rework key dest fun old => some (M.tag n old)

/-- The script of the given forms, numbered from `n` on. -/
def Marking.stamp : ℕ → List (Form κ) → List (Edit κ ν)
  | _, [] => []
  | n, f :: fs => M.edit n f :: Marking.stamp (n + 1) fs

/-- The store in which every key holds an unedited value. -/
def Marking.initial : Store κ ν := fun _ => some (M.fresh 0)

variable {M}

@[simp] theorem form_edit (n : ℕ) (f : Form κ) : (M.edit n f).form = f := by cases f <;> rfl

@[simp] theorem map_form_stamp (n : ℕ) (fs : List (Form κ)) :
    (M.stamp n fs).map Edit.form = fs := by
  induction fs generalizing n with
  | nil => rfl
  | cons f fs ih => simp [Marking.stamp, ih]

theorem stamp_append (n : ℕ) (fs gs : List (Form κ)) :
    M.stamp n (fs ++ gs) = M.stamp n fs ++ M.stamp (n + fs.length) gs := by
  induction fs generalizing n with
  | nil => rfl
  | cons f fs ih =>
    simp only [cons_append, Marking.stamp, ih, length_cons]
    congr 3
    omega

theorem stamp_split (n : ℕ) (before after : List (Form κ)) (f : Form κ) :
    M.stamp n (before ++ f :: after) = M.stamp n before ++
      M.edit (n + before.length) f :: M.stamp (n + before.length + 1) after := by
  rw [stamp_append]
  rfl

variable {n : ℕ} {fs : List (Form κ)} {f : Form κ} {s t : Store κ ν} {k : κ}

theorem kept_stamp {e : Edit κ ν} (h : Kept (M.stamp n fs) e) :
    ∃ before f after, fs = before ++ f :: after ∧ KeptBefore f after ∧
      e = M.edit (n + before.length) f := by
  obtain ⟨bs, as, hsplit, hkept⟩ := h
  induction bs generalizing n fs with
  | nil =>
    cases fs with
    | nil => simp [Marking.stamp] at hsplit
    | cons f fs =>
      obtain ⟨rfl, rfl⟩ := cons.inj hsplit
      exact ⟨[], f, fs, rfl, by simpa using hkept, rfl⟩
  | cons b bs ih =>
    cases fs with
    | nil => simp [Marking.stamp] at hsplit
    | cons f fs =>
      obtain ⟨-, htail⟩ := cons.inj hsplit
      obtain ⟨before, g, after, rfl, hg, rfl⟩ := ih htail
      refine ⟨f :: before, g, after, rfl, hg, ?_⟩
      congr 1
      simp only [length_cons]
      omega

theorem mark_of_leaves {v : ν} (h : (M.edit n f).Leaves s v) (hremoves : ¬ f.Removes ∨ f.Reworks) :
    M.mark v = n := by
  cases f with
  | write key =>
    obtain rfl : v = M.fresh n := h
    exact M.mark_fresh n
  | erase key => exact absurd hremoves (by simp [Form.Removes, Form.Reworks])
  | rework key dest =>
    obtain ⟨old, -, hold⟩ := bind_eq_some_iff.mp h
    rw [← some.inj hold, M.mark_tag]

theorem exists_of_achieved (h : (M.edit n f).Achieved s t) : ∃ v, (M.edit n f).Leaves s v ∧
    t f.source = (if f.Removes then none else some v) ∧ ∀ k, f.dest = some k → t k = some v := by
  have : Nonempty ν := ⟨M.fresh n⟩
  simpa using Edit.achieved_iff.mp h

theorem mark_of_achieved (h : (M.edit n f).Achieved s t) (hk : k ∈ f.keys) {x : ν}
    (hx : t k = some x) : M.mark x = n := by
  obtain ⟨v, hv, hsource, hdest⟩ := exists_of_achieved h
  rcases Form.mem_keys_iff.mp hk with rfl | hk
  · rw [hsource] at hx
    split_ifs at hx with hremoves
    exact some.inj hx ▸ mark_of_leaves hv (.inl hremoves)
  · rw [hdest k hk] at hx
    exact some.inj hx ▸ mark_of_leaves hv (.inr (Form.of_dest hk).2)

theorem source_of_achieved_none (h : (M.edit n f).Achieved s t) (hk : k ∈ f.keys)
    (hnone : t k = none) : f.source = k := by
  obtain ⟨v, -, -, hdest⟩ := exists_of_achieved h
  rcases Form.mem_keys_iff.mp hk with rfl | hk
  · rfl
  · exact absurd ((hdest k hk).symm.trans hnone) (some_ne_none v)

theorem dest_ne_source_of_achieved (h : (M.edit n f).Achieved s t) : f.dest ≠ some f.source := by
  intro hd
  obtain ⟨v, -, hsource, hdest⟩ := exists_of_achieved h
  rw [if_pos (Form.of_dest hd).1] at hsource
  exact some_ne_none v ((hdest _ hd).symm.trans hsource)

variable [DecidableEq κ]

/-- A value found under a key of an edit that has just been made has its number. -/
theorem mark_of_run (h : (M.edit n f).run s = some t) (hk : k ∈ f.keys) {x : ν}
    (hx : t k = some x) : M.mark x = n := by
  obtain ⟨v, hv, ht⟩ := Edit.run_apply h
  rw [ht, form_edit] at hx
  split_ifs at hx with hsource hremoves hdest
  · exact some.inj hx ▸ mark_of_leaves hv (.inl hremoves)
  · exact some.inj hx ▸ mark_of_leaves hv (.inr (Form.of_dest hdest).2)
  · exact absurd (Form.mem_keys_iff.mp hk) (not_or.mpr ⟨hsource, hdest⟩)

/-- A marked edit that does what it announces found the mark of the value it was announced
for. -/
theorem mark_source_eq_of_achieved {u w : Store κ ν} (hw : (M.edit n f).run u = some w)
    (ha : (M.edit n f).Achieved s t) (ht : ∀ k ∈ f.keys, t k = w k) (hr : f.Reworks) :
    (u f.source).map M.mark = (s f.source).map M.mark := by
  have hne := dest_ne_source_of_achieved ha
  obtain ⟨v, hv, hrun⟩ := Edit.run_apply hw
  obtain ⟨v', hv', hsource, hdest⟩ := exists_of_achieved ha
  rw [form_edit] at hrun
  cases f with
  | write | erase => exact absurd hr not_false
  | rework key dest =>
    have heq : v = v' := by
      cases dest with
      | none =>
        have hkey := (hrun key).symm.trans ((ht key mem_cons_self).symm.trans hsource)
        simpa [Form.source, Form.Removes] using hkey
      | some dest =>
        have hkey : dest ≠ key := fun heq => hne (by rw [heq]; rfl)
        have hmoved := (ht dest (Form.mem_keys_iff.mpr (.inr rfl))).symm.trans (hdest dest rfl)
        simpa [hrun, Form.source, Form.dest, hkey] using hmoved
    obtain ⟨old, hold, htag⟩ := bind_eq_some_iff.mp hv
    obtain ⟨old', hold', htag'⟩ := bind_eq_some_iff.mp hv'
    have hmark := M.mark_eq_of_tag_eq n old old'
      (some.inj (htag.trans ((congrArg some heq).trans htag'.symm)))
    change (u key).map M.mark = (s key).map M.mark
    rw [hold, hold', map_some, map_some, hmark]

section Necessity
variable {before after : List (Form κ)} {f : Form κ} {t : Store κ ν}
  (h : runAll (M.stamp 1 (before ++ f :: after)) M.initial = some t)
include h

/-- The stores around an edit of a stamped run, and the keys it is the last to touch. -/
theorem stamped_run_around :
    ∃ u w, runAll (M.stamp 1 before) M.initial = some u ∧
      (M.edit (1 + before.length) f).run u = some w ∧
      ∀ k, (∀ g ∈ after, k ∉ g.keys) → t k = w k := by
  rw [stamp_split] at h
  obtain ⟨u, w, hu, hw, ht⟩ := runAll_split h
  refine ⟨u, w, hu, hw, fun k hk => runAll_of_notMem ht fun e he => hk e.form ?_⟩
  simpa using mem_map_of_mem (f := Edit.form) he

/-- The last edit to touch a key leaves its mark there, or has removed its source. -/
theorem stamped_run_last {k : κ} (hk : k ∈ f.keys) (hafter : ∀ g ∈ after, k ∉ g.keys) :
    (∀ x, t k = some x → M.mark x = 1 + before.length) ∧ (t k = none → f.source = k) := by
  obtain ⟨u, w, -, hw, hframe⟩ := stamped_run_around h
  rw [hframe k hafter]
  refine ⟨fun x hx => mark_of_run hw hk hx, fun hnone => ?_⟩
  rcases (Edit.run_eq_none_iff hw).mp hnone with ⟨hsource, -⟩ | ⟨hnot, -⟩
  · simpa using hsource
  · exact absurd hk (by simpa using hnot)

variable (hp : PreviewAchieved (M.stamp 1 (before ++ f :: after)) M.initial t)
include hp

/-- An edit that is the last to touch some key is kept: the preview knows of the mark it has
left there only from a kept edit with that mark. -/
theorem kept_of_last {k : κ} (hk : k ∈ f.keys) (hafter : ∀ g ∈ after, k ∉ g.keys) :
    KeptBefore f after := by
  intro g hg hgsource
  obtain ⟨hmark, hnone⟩ := stamped_run_last h hk hafter
  cases ht : t k with
  | none =>
    have hk' : k = g.source := by rw [hgsource, hnone ht]
    exact hafter g hg (hk' ▸ g.source_mem_keys)
  | some x =>
    by_cases hannounced : ∃ e, Kept (M.stamp 1 (before ++ f :: after)) e ∧ k ∈ e.form.keys
    · obtain ⟨e, he, hke⟩ := hannounced
      obtain ⟨bs, f', as, hsplit, hkept, rfl⟩ := kept_stamp he
      rw [form_edit] at hke
      have hx := mark_of_achieved (hp.1 _ he) hke ht
      rw [hmark x ht] at hx
      have hlen : before.length = bs.length := by omega
      obtain ⟨-, hcons⟩ := append_inj hsplit hlen
      obtain ⟨rfl, rfl⟩ := cons.inj hcons
      exact hkept g hg hgsource
    · have hsame := hp.2 k fun e he hke => hannounced ⟨e, he, hke⟩
      have hx : M.mark x = 0 := by
        rw [← some.inj (hsame.symm.trans ht), M.mark_fresh]
      have := hmark x ht
      omega

variable (hkept : KeptBefore f after)
include hkept

omit [DecidableEq κ] h in
theorem achieved_of_kept : (M.edit (1 + before.length) f).Achieved M.initial t := by
  refine hp.1 _ ⟨M.stamp 1 before, M.stamp (1 + before.length + 1) after, stamp_split .., ?_⟩
  simpa using hkept

theorem last_of_kept {k : κ} (hk : k ∈ f.keys) : ∀ g ∈ after, k ∉ g.keys := by
  intro g hg hkg
  have hach := achieved_of_kept hp hkept
  obtain ⟨bs, l, as, rfl, hkl, has⟩ := exists_last_split (p := fun g : Form κ => k ∈ g.keys)
    ⟨g, hg, hkg⟩
  have hsplit : before ++ f :: (bs ++ l :: as) = (before ++ f :: bs) ++ l :: as := by simp
  rw [hsplit] at h
  obtain ⟨hmark, hnone⟩ := stamped_run_last h hkl has
  cases ht : t k with
  | none =>
    exact hkept l (by simp) ((hnone ht).trans (source_of_achieved_none hach hk ht).symm)
  | some x =>
    have hx := mark_of_achieved hach hk ht
    have hlen := hmark x ht
    simp only [length_append, length_cons] at hlen
    omega

theorem first_of_kept_rework (hr : f.Reworks) : ∀ g ∈ before, f.source ∉ g.keys := by
  intro g hg hgkeys
  have hach := achieved_of_kept hp hkept
  have hlast := fun k hk => last_of_kept h hp hkept (k := k) hk
  obtain ⟨u, w, hu, hw, hframe⟩ := stamped_run_around h
  obtain ⟨bs, l, as, rfl, hkl, has⟩ :=
    exists_last_split (p := fun g : Form κ => f.source ∈ g.keys) ⟨g, hg, hgkeys⟩
  obtain ⟨hmark, -⟩ := stamped_run_last hu hkl has
  have hzero := mark_source_eq_of_achieved hw hach (fun k hk => hframe k (hlast k hk)) hr
  simp only [Marking.initial, map_some, M.mark_fresh, map_eq_some_iff] at hzero
  obtain ⟨x, hx, hx0⟩ := hzero
  have := hmark x hx
  omega

end Necessity

/-- If the preview of a marked script is what running it achieves, the script is coherent. -/
theorem coherent_of_previewAchieved (h : runAll (M.stamp 1 fs) M.initial = some t)
    (hp : PreviewAchieved (M.stamp 1 fs) M.initial t) : Coherent fs := by
  apply atEach_iff.mpr
  rintro before f after rfl
  refine ⟨fun k hk hafter => kept_of_last h hp hk hafter, fun hkept => ⟨?_, ?_, ?_⟩⟩
  · exact fun k hk => last_of_kept h hp hkept hk
  · simpa using first_of_kept_rework h hp hkept
  · exact dest_ne_source_of_achieved (achieved_of_kept hp hkept)

theorem exists_runAll_stamp (hf : Feasible fs) : ∃ t, runAll (M.stamp 1 fs) M.initial = some t := by
  have hat := atEach_iff.mp hf
  induction fs using reverseRecOn with
  | nil => exact ⟨_, rfl⟩
  | append_singleton fs f ih =>
    have hf' : Feasible fs := atEach_iff.mpr fun before g after hsplit =>
      hat before g (after ++ [f]) (by simp [hsplit])
    obtain ⟨u, hu⟩ := ih hf' (atEach_iff.mp hf')
    have hneeds : f.Needs → u f.source ≠ none := by
      intro hn hnone
      rcases (runAll_eq_none_iff hu).mp hnone with hremoved | ⟨-, hinit⟩
      · exact hat fs f [] rfl hn (by simpa using hremoved)
      · simp [Marking.initial] at hinit
    have hrun : ∃ t, (M.edit (1 + fs.length) f).run u = some t := by
      cases f with
      | write key => exact ⟨_, rfl⟩
      | erase key =>
        have hsome : (u key).isSome := isSome_iff_ne_none.mpr (hneeds trivial)
        exact ⟨_, if_pos hsome⟩
      | rework key dest =>
        obtain ⟨old, hold⟩ := ne_none_iff_exists'.mp (hneeds trivial)
        have hold' : u key = some old := hold
        exact ⟨relocate key (M.tag (1 + fs.length) old) u dest, by
          simp [Marking.edit, Edit.run, hold']⟩
    obtain ⟨t, ht⟩ := hrun
    refine ⟨t, ?_⟩
    rw [stamp_append]
    exact runAll_append.mpr ⟨u, hu, by simp [Marking.stamp, runAll, ht]⟩

end Stamps
end DeepseekX.EditScripts
