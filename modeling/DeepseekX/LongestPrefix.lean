import Mathlib.Data.List.Infix
import Mathlib.Data.Prod.Lex

/-!
# Decisions by the longest prefix

Rules stand at paths and have a rank. A path is decided by the rules at its longest prefix
that has any, and among the rules at one path by the one of the highest rank.
-/

namespace DeepseekX.LongestPrefix
open List

section MaxByKey

variable {ι κ : Type*} [LinearOrder κ] {key : ι → κ} {xs : List ι} {x : ι}

def maxByKey (key : ι → κ) : List ι → Option ι
  | [] => none
  | x :: xs =>
    match maxByKey key xs with
    | none => some x
    | some y => if key x ≤ key y then some y else some x

theorem maxByKey_eq_none_iff : maxByKey key xs = none ↔ xs = [] := by
  cases xs with
  | nil => exact iff_of_true rfl rfl
  | cons x xs =>
    refine iff_of_false ?_ (cons_ne_nil x xs)
    rw [maxByKey]
    split
    · exact Option.some_ne_none x
    · split <;> exact Option.some_ne_none _

theorem maxByKey_spec (h : maxByKey key xs = some x) : x ∈ xs ∧ ∀ y ∈ xs, key y ≤ key x := by
  induction xs generalizing x with
  | nil => cases h
  | cons first xs ih =>
    rw [maxByKey] at h
    cases hmax : maxByKey key xs with
    | none =>
      rw [hmax] at h
      cases h
      rw [maxByKey_eq_none_iff] at hmax
      subst hmax
      simp
    | some y =>
      obtain ⟨hy, hbound⟩ := ih hmax
      rw [hmax] at h
      dsimp only at h
      rw [forall_mem_cons]
      split at h
      · next hle =>
        cases h
        exact ⟨mem_cons_of_mem _ hy, hle, hbound⟩
      · next hlt =>
        cases h
        exact ⟨mem_cons_self, le_refl _, fun z hz =>
          (hbound z hz).trans (le_of_lt (not_le.mp hlt))⟩

end MaxByKey

section Prefixes

variable {α : Type*} {p q r : List α}

theorem prefix_antisymm (h : p <+: q) (h' : q <+: p) : p = q :=
  h.eq_of_length_le h'.length_le

theorem concat_prefix_of_length_lt {a : α} (hq : q ++ [a] <+: p) (hr : r <+: p)
    (h : q.length < r.length) : q ++ [a] <+: r :=
  prefix_of_prefix_length_le hq hr (by rw [length_append]; exact h)

/-- The path itself, or the part of it that is one longer than a prefix. -/
theorem eq_or_exists_concat_prefix (h : q <+: p) : q = p ∨ ∃ a, q ++ [a] <+: p := by
  obtain ⟨rest, rfl⟩ := h
  cases rest with
  | nil => exact .inl (append_nil q).symm
  | cons a rest => exact .inr ⟨a, rest, by simp⟩

end Prefixes

section Rules

variable {ι α β : Type*} [LinearOrder β] (path : ι → List α) (rank : ι → β)
  {rules rules' : List ι} {p q q' : List α} {a b : β}

/-- The longest prefix at which a rule stands. -/
def Decides (rules : List ι) (q p : List α) : Prop :=
  (∃ rule ∈ rules, path rule = q) ∧ q <+: p ∧ ∀ rule ∈ rules, path rule <+: p → path rule <+: q

/-- The highest rank among the rules at a path. -/
def WinsAt (rules : List ι) (q : List α) (a : β) : Prop :=
  (∃ rule ∈ rules, path rule = q ∧ rank rule = a) ∧ ∀ rule ∈ rules, path rule = q → rank rule ≤ a

variable {path rank}

theorem Decides.unique (h : Decides path rules q p) (h' : Decides path rules q' p) : q = q' := by
  obtain ⟨⟨rule, hmem, rfl⟩, hupper, hlongest⟩ := h
  obtain ⟨⟨rule', hmem', rfl⟩, hupper', hlongest'⟩ := h'
  exact prefix_antisymm (hlongest' rule hmem hupper) (hlongest rule' hmem' hupper')

theorem WinsAt.unique (h : WinsAt path rank rules q a) (h' : WinsAt path rank rules q b) :
    a = b := by
  obtain ⟨⟨rule, hmem, hpath, rfl⟩, hbound⟩ := h
  obtain ⟨⟨rule', hmem', hpath', rfl⟩, hbound'⟩ := h'
  exact le_antisymm (hbound' rule hmem hpath) (hbound rule' hmem' hpath')

/-- Between the deciding prefix and the path, the decision is the same. -/
theorem Decides.between {r : List α} (h : Decides path rules q p) (hqr : q <+: r) (hrp : r <+: p) :
    Decides path rules q r :=
  ⟨h.1, hqr, fun rule hmem hupper => h.2.2 rule hmem (hupper.trans hrp)⟩

theorem decides_self {rule : ι} (hmem : rule ∈ rules) (hpath : path rule = q) :
    Decides path rules q q :=
  ⟨⟨rule, hmem, hpath⟩, prefix_refl q, fun _ _ h => h⟩

/-- The choice of the rule with the longest path, and among those of the highest rank. -/
theorem decides_winsAt_of_max {rule : ι} (hmem : rule ∈ rules) (hupper : path rule <+: p)
    (hmax : ∀ other ∈ rules, path other <+: p →
      toLex ((path other).length, rank other) ≤ toLex ((path rule).length, rank rule)) :
    Decides path rules (path rule) p ∧ WinsAt path rank rules (path rule) (rank rule) := by
  refine ⟨⟨⟨rule, hmem, rfl⟩, hupper, fun other hother hp => ?_⟩,
    ⟨rule, hmem, rfl, rfl⟩, fun other hother hp => ?_⟩
  · refine prefix_of_prefix_length_le hp hupper ?_
    rcases Prod.Lex.le_iff.mp (hmax other hother hp) with h | h
    · exact le_of_lt h
    · exact le_of_eq h.1
  · have hle := hmax other hother (by rw [hp]; exact hupper)
    rw [hp] at hle
    rcases Prod.Lex.le_iff.mp hle with h | h
    · exact absurd h (lt_irrefl _)
    · exact h.2

variable (h : ∀ rule, rule ∈ rules ↔ rule ∈ rules')
include h

theorem decides_congr : Decides path rules q p ↔ Decides path rules' q p := by
  simp only [Decides, h]

theorem winsAt_congr : WinsAt path rank rules q a ↔ WinsAt path rank rules' q a := by
  simp only [WinsAt, h]

end Rules

end DeepseekX.LongestPrefix
