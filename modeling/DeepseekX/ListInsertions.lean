import Mathlib.Data.List.Basic

/-!
# Insertions into lists by position

Elements that are to stand after others are collected with their positions and inserted
from the back, so that no position is shifted before it is used.
-/

namespace DeepseekX.ListInsertions
open List
variable {α : Type*}

theorem insertIdx_append_length (xs ys : List α) (x : α) :
    (xs ++ ys).insertIdx xs.length x = xs ++ x :: ys := by
  induction xs with
  | nil => simp
  | cons y xs ih => simp [ih]

theorem insertIdx_eq_take_append_drop {xs : List α} {i : ℕ} (x : α) (h : i ≤ xs.length) :
    xs.insertIdx i x = xs.take i ++ x :: xs.drop i := by
  have hinsert := insertIdx_append_length (xs.take i) (xs.drop i) x
  rwa [take_append_drop, length_take_of_le h] at hinsert

def insertions (f : α → Option α) (xs : List α) (start : ℕ) : List (ℕ × α) :=
  (xs.zipIdx start).filterMap fun (x, index) => (f x).map (index, ·)

def insertAll (xs : List α) (insertions : List (ℕ × α)) : List α :=
  insertions.reverse.foldl (fun xs (index, x) => xs.insertIdx (index + 1) x) xs

theorem insertAll_insertions_append (f : α → Option α) (before xs : List α) :
    insertAll (before ++ xs) (insertions f xs before.length) =
      before ++ xs.flatMap fun x => x :: (f x).toList := by
  induction xs generalizing before with
  | nil => simp [insertAll, insertions]
  | cons x xs ih =>
    have hrest := ih (before ++ [x])
    rw [append_assoc, singleton_append, length_append, length_singleton] at hrest
    cases hx : f x with
    | none =>
      have hinsertions : insertions f (x :: xs) before.length =
          insertions f xs (before.length + 1) := by
        simp [insertions, hx]
      rw [hinsertions, hrest]
      simp [hx]
    | some y =>
      have hinsertions : insertions f (x :: xs) before.length =
          (before.length, y) :: insertions f xs (before.length + 1) := by
        simp [insertions, hx]
      rw [hinsertions, insertAll, reverse_cons, foldl_append, ← insertAll, hrest]
      have hlength : before.length + 1 = (before ++ [x]).length := by simp
      simp only [foldl_cons]
      rw [hlength, insertIdx_append_length]
      simp [hx]

theorem insertAll_insertions (f : α → Option α) (xs : List α) :
    insertAll xs (insertions f xs 0) = xs.flatMap fun x => x :: (f x).toList :=
  insertAll_insertions_append f [] xs

end DeepseekX.ListInsertions
