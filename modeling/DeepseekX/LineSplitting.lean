import Mathlib.Data.List.DropRight

/-!
# Splitting at a separator

A list is split at the occurrences of a separator. The parts do not contain it; all but
the last are terminated by it. What is dropped at the end of a list may reach back
over a separator or not.
-/

namespace DeepseekX.LineSplitting
open List

section Ends
variable {α : Type*} {p : α → Bool}

theorem rdropWhile_append (p : α → Bool) (xs ys : List α) :
    (xs ++ ys).rdropWhile p =
      if ys.rdropWhile p = [] then xs.rdropWhile p else xs ++ ys.rdropWhile p := by
  unfold rdropWhile
  rw [reverse_append, dropWhile_append]
  simp only [List.isEmpty_iff, reverse_eq_nil_iff]
  split
  · rfl
  · rw [reverse_append, reverse_reverse]

theorem rdropWhile_append_of_forall {ys : List α} (h : ∀ y ∈ ys, p y = true) (xs : List α) :
    (xs ++ ys).rdropWhile p = xs.rdropWhile p := by
  rw [rdropWhile_append, if_pos (rdropWhile_eq_nil_iff.mpr h)]

theorem rdropWhile_append_cons {a : α} (ha : p a = false) (xs ys : List α) :
    (xs ++ a :: ys).rdropWhile p = xs ++ a :: ys.rdropWhile p := by
  rw [append_cons, rdropWhile_append]
  split
  · rename_i h
    rw [h, rdropWhile_concat_neg _ _ _ (by simp [ha])]
  · rw [append_assoc, singleton_append]

end Ends

variable {α : Type*} [BEq α] [LawfulBEq α] {sep : α} {xs ys : List α}

theorem splitOn_terminated {segments : List (List α)} {last : List α}
    (hsegments : ∀ segment ∈ segments, sep ∉ segment) (hlast : sep ∉ last) :
    (segments.flatMap (· ++ [sep]) ++ last).splitOn sep = segments ++ [last] := by
  induction segments with
  | nil => exact splitOn_eq_singleton hlast
  | cons segment segments ih =>
    rw [forall_mem_cons] at hsegments
    rw [flatMap_cons, append_assoc, append_assoc, singleton_append,
      splitOn_append_cons_self_of_not_mem hsegments.1, ih hsegments.2, cons_append]

omit [BEq α] [LawfulBEq α] in
theorem exists_terminated (sep : α) (xs : List α) :
    ∃ (segments : List (List α)) (last : List α), xs = segments.flatMap (· ++ [sep]) ++ last ∧
      (∀ segment ∈ segments, sep ∉ segment) ∧ sep ∉ last := by
  induction xs with
  | nil => exact ⟨[], [], rfl, by simp, by simp⟩
  | cons x xs ih =>
    obtain ⟨segments, last, rfl, hsegments, hlast⟩ := ih
    by_cases hx : x = sep
    · refine ⟨[] :: segments, last, by simp [hx], ?_, hlast⟩
      rw [forall_mem_cons]
      exact ⟨not_mem_nil, hsegments⟩
    · cases segments with
      | nil => exact ⟨[], x :: last, rfl, by simp, by simp [Ne.symm hx, hlast]⟩
      | cons first segments =>
        rw [forall_mem_cons] at hsegments
        refine ⟨(x :: first) :: segments, last, by simp, ?_, hlast⟩
        rw [forall_mem_cons]
        exact ⟨by simp [Ne.symm hx, hsegments.1], hsegments.2⟩

theorem takeWhile_of_splitOn {part : List α} {parts : List (List α)}
    (h : xs.splitOn sep = part :: parts) : xs.takeWhile (· != sep) = part := by
  induction xs generalizing part with
  | nil => cases h; rfl
  | cons x xs ih =>
    rw [splitOn_cons_eq_if_modifyHead] at h
    by_cases hx : x = sep
    · rw [if_pos (by simp [hx])] at h
      cases h
      rw [takeWhile_cons_of_neg (by simp [hx])]
    · rw [if_neg (by simp [hx])] at h
      cases hsplit : xs.splitOn sep with
      | nil => rw [hsplit] at h; cases h
      | cons first rest =>
        rw [hsplit] at h
        cases h
        rw [takeWhile_cons_of_pos (by simp [hx]), ih hsplit]

theorem splitOn_map {f : α → α} (hf : ∀ x, f x = sep ↔ x = sep) (xs : List α) :
    (xs.map f).splitOn sep = (xs.splitOn sep).map (map f) := by
  induction xs with
  | nil => rfl
  | cons x xs ih =>
    rw [map_cons, splitOn_cons_eq_if_modifyHead, splitOn_cons_eq_if_modifyHead, ih]
    by_cases hx : x = sep
    · rw [if_pos (by simp [(hf x).mpr hx]), if_pos (by simp [hx])]
      rfl
    · rw [if_neg (by simp [hf x, hx]), if_neg (by simp [hx])]
      cases xs.splitOn sep <;> rfl

theorem notMem_of_mem_splitOn {part : List α} (h : part ∈ xs.splitOn sep) : sep ∉ part := by
  obtain ⟨segments, last, rfl, hsegments, hlast⟩ := exists_terminated sep xs
  rw [splitOn_terminated hsegments hlast] at h
  rcases mem_append.mp h with h | h
  · exact hsegments part h
  · exact mem_singleton.mp h ▸ hlast

end DeepseekX.LineSplitting
