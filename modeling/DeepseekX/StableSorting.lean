import Mathlib.Data.List.Sort

/-!
# What a stable sort by a key keeps

Insertion sort leaves elements of one key in the order they came in. A relation on the
sorted list can therefore be checked before the sort: for a pair that stays in order in
the one direction, for a pair that is exchanged in the other.
-/

namespace DeepseekX.StableSorting
open List
variable {α κ : Type*} [LinearOrder κ] {key : α → κ}

/-- `rel` holds between `a` and `b` in the order in which a stable sort leaves them. -/
def SortsInto (key : α → κ) (rel : α → α → Prop) (a b : α) : Prop :=
  (key a ≤ key b → rel a b) ∧ (key b < key a → rel b a)

variable {rel : α → α → Prop} {xs : List α}

theorem pairwise_orderedInsert {a : α} (ha : ∀ b ∈ xs, SortsInto key rel a b)
    (hsorted : xs.Pairwise fun b c => key b ≤ key c) (hxs : xs.Pairwise rel) :
    (xs.orderedInsert (fun b c => key b ≤ key c) a).Pairwise rel := by
  induction xs with
  | nil => simp
  | cons b xs ih =>
    rw [pairwise_cons] at hsorted hxs
    by_cases hab : key a ≤ key b
    · rw [orderedInsert, if_pos hab, pairwise_cons, pairwise_cons]
      refine ⟨?_, hxs⟩
      intro c hc
      refine (ha c hc).1 ?_
      rcases mem_cons.mp hc with rfl | hc
      · exact hab
      · exact hab.trans (hsorted.1 c hc)
    · rw [orderedInsert, if_neg hab, pairwise_cons]
      refine ⟨?_, ih (forall_mem_cons.mp ha).2 hsorted.2 hxs.2⟩
      intro c hc
      rcases (mem_orderedInsert _).mp hc with rfl | hc
      · exact (ha b mem_cons_self).2 (not_le.mp hab)
      · exact hxs.1 c hc

theorem pairwise_insertionSort (h : xs.Pairwise (SortsInto key rel)) :
    (xs.insertionSort fun b c => key b ≤ key c).Pairwise rel := by
  induction xs with
  | nil => simp
  | cons a xs ih =>
    rw [pairwise_cons] at h
    refine pairwise_orderedInsert ?_ (List.pairwise_insertionSort _ xs) (ih h.2)
    intro b hb
    exact h.1 b ((perm_insertionSort _ xs).mem_iff.mp hb)

variable (key) in
theorem filter_insertionSort {xs : List α} (select : α → Bool)
    (h : (xs.filter select).Pairwise fun b c => key b ≤ key c) :
    (xs.insertionSort fun b c => key b ≤ key c).filter select = xs.filter select := by
  have hsub : (xs.filter select).Sublist (xs.insertionSort fun b c => key b ≤ key c) :=
    sublist_insertionSort h filter_sublist
  have hfilter := hsub.filter select
  rw [filter_filter] at hfilter
  simp only [Bool.and_self] at hfilter
  have hperm := (perm_insertionSort (fun b c => key b ≤ key c) xs).filter select
  exact (hfilter.eq_of_length hperm.length_eq.symm).symm

/-- The order of the input does not matter where no two elements have one key. -/
theorem insertionSort_eq_of_perm {ys : List α} (hperm : xs.Perm ys)
    (hkeys : ∀ a ∈ xs, ∀ b ∈ xs, key a = key b → a = b) :
    (xs.insertionSort fun b c => key b ≤ key c) = ys.insertionSort fun b c => key b ≤ key c := by
  have hx := perm_insertionSort (fun b c => key b ≤ key c) xs
  have hy := perm_insertionSort (fun b c => key b ≤ key c) ys
  refine List.Perm.eq_of_pairwise (fun a b ha hb hab hba => ?_) (List.pairwise_insertionSort _ xs)
    (List.pairwise_insertionSort _ ys) (hx.trans (hperm.trans hy.symm))
  refine hkeys a (hx.mem_iff.mp ha) b ?_ (le_antisymm hab hba)
  exact hperm.mem_iff.mpr (hy.mem_iff.mp hb)

end DeepseekX.StableSorting
