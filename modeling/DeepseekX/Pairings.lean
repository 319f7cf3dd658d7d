import Mathlib.Data.List.Basic

/-!
# Pairing openings with closings

In a list some elements open a key and some close one. The list is completed by a closing
right behind every opening whose key is never closed, and pruned of the elements that need an
opening there is none of. Both passes together leave a list in which nothing is missing and
nothing is loose, and a second run of them changes nothing.
-/

namespace DeepseekX.Pairings
open List Option

/-- What the elements of a list open, close and need to be opened. -/
structure Pairing (α κ : Type*) where
  opens : α → Option κ
  closes : α → Option κ
  needs : α → Option κ
  filler : κ → α
  opens_filler : ∀ key, opens (filler key) = none
  closes_filler : ∀ key, closes (filler key) = some key
  closes_of_needs : ∀ {a key}, needs a = some key → closes a = some key
  needs_of_opens : ∀ {a key}, opens a = some key → needs a = none

namespace Pairing
variable {α κ : Type*} [DecidableEq κ] (P : Pairing α κ) (items : List α)

def opened (key : κ) : Bool := items.any fun a => P.opens a = some key

def closed (key : κ) : Bool := items.any fun a => P.closes a = some key

def missing (a : α) : Option α :=
  (P.opens a).bind fun key => if P.closed items key then none else some (P.filler key)

def complete : List α := items.flatMap fun a => a :: (P.missing items a).toList

def keeps (a : α) : Bool := (P.needs a).all (P.opened items)

def prune : List α := items.filter (P.keeps items)

variable {P} {items : List α} {a b : α} {key : κ}

theorem opened_iff : P.opened items key = true ↔ ∃ a ∈ items, P.opens a = some key := by
  simp [opened]

theorem closed_iff : P.closed items key = true ↔ ∃ a ∈ items, P.closes a = some key := by
  simp [closed]

theorem missing_eq_some : P.missing items a = some b ↔
    ∃ key, P.opens a = some key ∧ P.closed items key = false ∧ b = P.filler key := by
  rw [missing, bind_eq_some_iff]
  refine exists_congr fun key => and_congr_right fun _ => ?_
  cases P.closed items key <;> simp [eq_comm]

theorem mem_complete : b ∈ P.complete items ↔
    b ∈ items ∨ ∃ a ∈ items, P.missing items a = some b := by
  rw [complete, mem_flatMap]
  constructor
  · rintro ⟨a, ha, hb⟩
    rcases mem_cons.mp hb with rfl | hb
    · exact .inl ha
    · exact .inr ⟨a, ha, mem_toList.mp hb⟩
  · rintro (hb | ⟨a, ha, hb⟩)
    · exact ⟨b, hb, mem_cons_self⟩
    · exact ⟨a, ha, mem_cons_of_mem _ (mem_toList.mpr hb)⟩

theorem opened_complete : P.opened (P.complete items) key = P.opened items key := by
  rw [Bool.eq_iff_iff, opened_iff, opened_iff]
  constructor
  · rintro ⟨b, hb, hopens⟩
    rcases mem_complete.mp hb with hb | ⟨a, -, hmissing⟩
    · exact ⟨b, hb, hopens⟩
    · obtain ⟨other, -, -, rfl⟩ := missing_eq_some.mp hmissing
      rw [P.opens_filler] at hopens
      cases hopens
  · rintro ⟨a, ha, hopens⟩
    exact ⟨a, mem_complete.mpr (.inl ha), hopens⟩

theorem closed_complete_of_opens (ha : a ∈ items) (h : P.opens a = some key) :
    P.closed (P.complete items) key = true := by
  rw [closed_iff]
  by_cases hclosed : P.closed items key = true
  · obtain ⟨b, hb, hcloses⟩ := closed_iff.mp hclosed
    exact ⟨b, mem_complete.mpr (.inl hb), hcloses⟩
  · refine ⟨P.filler key, mem_complete.mpr (.inr ⟨a, ha, ?_⟩), P.closes_filler key⟩
    exact missing_eq_some.mpr ⟨key, h, Bool.eq_false_iff.mpr hclosed, rfl⟩

theorem keeps_iff : P.keeps items a = true ↔
    ∀ key, P.needs a = some key → P.opened items key = true := by
  rw [keeps, Option.all_eq_true]

theorem keeps_of_opens (h : P.opens a = some key) : P.keeps items a = true := by
  rw [keeps, P.needs_of_opens h, all_none]

theorem keeps_complete : P.keeps (P.complete items) a = P.keeps items a := by
  exact congrArg (fun p => Option.all p (P.needs a)) (funext fun _ => opened_complete)

/-- What is inserted behind an opening is kept with it. -/
theorem keeps_of_missing (ha : a ∈ items) (h : P.missing items a = some b) :
    P.keeps items b = true := by
  obtain ⟨key, hopens, -, rfl⟩ := missing_eq_some.mp h
  rw [keeps_iff]
  intro other hneeds
  have hcloses := P.closes_of_needs hneeds
  rw [P.closes_filler] at hcloses
  rw [← some.inj hcloses]
  exact opened_iff.mpr ⟨a, ha, hopens⟩

theorem flatMap_eq_flatMap_filter {β : Type*} {p : α → Bool} {f g : α → List β} {l : List α}
    (hpos : ∀ a ∈ l, p a = true → f a = g a) (hneg : ∀ a ∈ l, p a = false → f a = []) :
    l.flatMap f = (l.filter p).flatMap g := by
  induction l with
  | nil => rfl
  | cons a l ih =>
    rw [forall_mem_cons] at hpos hneg
    rw [flatMap_cons, ih hpos.2 hneg.2]
    cases ha : p a with
    | true => rw [filter_cons_of_pos ha, flatMap_cons, hpos.1 ha]
    | false => rw [filter_cons_of_neg (by rw [ha]; decide), hneg.1 ha, nil_append]

/-- Pruning a completed list keeps what was kept of the list, each element with what was
inserted behind it. -/
theorem prune_complete (items : List α) : P.prune (P.complete items) =
    (items.filter (P.keeps items)).flatMap fun a => a :: (P.missing items a).toList := by
  have hkeeps : P.keeps (P.complete items) = P.keeps items := funext fun _ => keeps_complete
  rw [prune, hkeeps, complete, filter_flatMap]
  refine flatMap_eq_flatMap_filter (fun a ha hkept => ?_) fun a _ hdropped => ?_
  · refine filter_eq_self.mpr fun b hb => ?_
    rcases mem_cons.mp hb with rfl | hb
    · exact hkept
    · exact keeps_of_missing ha (mem_toList.mp hb)
  · have hopens : P.opens a = none := by
      cases hopens : P.opens a with
      | none => rfl
      | some key =>
        rw [keeps_of_opens hopens] at hdropped
        cases hdropped
    rw [missing, hopens, bind_none, toList_none,
      filter_cons_of_neg (by rw [hdropped]; decide), filter_nil]

theorem sublist_prune_complete (items : List α) :
    (items.filter (P.keeps items)).Sublist (P.prune (P.complete items)) := by
  rw [prune_complete]
  generalize items.filter (P.keeps items) = kept
  induction kept with
  | nil => exact .slnil
  | cons a kept ih =>
    exact (ih.trans (sublist_append_right _ _)).cons_cons a

theorem opened_of_needs (ha : a ∈ P.prune (P.complete items)) (h : P.needs a = some key) :
    P.opened (P.prune (P.complete items)) key = true := by
  obtain ⟨-, hkept⟩ := mem_filter.mp ha
  obtain ⟨b, hb, hopens⟩ := opened_iff.mp (keeps_iff.mp hkept key h)
  exact opened_iff.mpr ⟨b, mem_filter.mpr ⟨hb, keeps_of_opens hopens⟩, hopens⟩

theorem closed_of_opens (ha : a ∈ P.prune (P.complete items)) (h : P.opens a = some key) :
    P.closed (P.prune (P.complete items)) key = true := by
  obtain ⟨hmem, -⟩ := mem_filter.mp ha
  have hopened : P.opened (P.complete items) key = true := opened_iff.mpr ⟨a, hmem, h⟩
  have hopener := hopened
  rw [opened_complete, opened_iff] at hopener
  obtain ⟨c, hc, hc'⟩ := hopener
  obtain ⟨b, hb, hcloses⟩ := closed_iff.mp (closed_complete_of_opens hc hc')
  refine closed_iff.mpr ⟨b, mem_filter.mpr ⟨hb, keeps_iff.mpr fun other hneeds => ?_⟩, hcloses⟩
  have hother := P.closes_of_needs hneeds
  rw [hcloses] at hother
  rwa [← some.inj hother]

/-- A list in which nothing is missing and nothing is loose stays as it is. -/
theorem prune_complete_of_paired
    (hclosed : ∀ a ∈ items, ∀ key, P.opens a = some key → P.closed items key = true)
    (hopened : ∀ a ∈ items, ∀ key, P.needs a = some key → P.opened items key = true) :
    P.prune (P.complete items) = items := by
  rw [prune_complete, filter_eq_self.mpr fun a ha => keeps_iff.mpr (hopened a ha)]
  conv_rhs => rw [← flatMap_singleton' items]
  refine flatMap_congr fun a ha => ?_
  cases hmissing : P.missing items a with
  | none => rfl
  | some b =>
    obtain ⟨key, hopens, hnot, -⟩ := missing_eq_some.mp hmissing
    rw [hclosed a ha key hopens] at hnot
    cases hnot

theorem prune_complete_idem (items : List α) :
    P.prune (P.complete (P.prune (P.complete items))) = P.prune (P.complete items) :=
  prune_complete_of_paired (fun _ ha _ h => closed_of_opens ha h) fun _ ha _ h =>
    opened_of_needs ha h

end Pairing

end DeepseekX.Pairings
