import Mathlib.Computability.Language

/-!
# Wildcard patterns

A wildcard pattern is a list of items: a literal, any single letter, or any word. Its
language is the product of the languages of its items; letters are compared under a given
relation, so that a pattern may ignore case.
-/

namespace DeepseekX.WildcardPatterns
open List

inductive Wildcard (α : Type*) where
  | literal (a : α)
  | any
  | many
  deriving DecidableEq

section Languages
variable {α : Type*} (same : α → α → Bool)

def Wildcard.language : Wildcard α → Language α
  | literal a => {word | ∃ b, same a b = true ∧ word = [b]}
  | any => {word | ∃ b, word = [b]}
  | many => Set.univ

/-- The words that a pattern matches. -/
def language (pattern : List (Wildcard α)) : Language α :=
  (pattern.map (Wildcard.language same)).prod

/-- The matcher reads the pattern from the left and tries every word for `many`. -/
def isMatch : List (Wildcard α) → List α → Bool
  | [], word => word.isEmpty
  | .literal _ :: _, [] => false
  | .literal a :: pattern, b :: word => same a b && isMatch pattern word
  | .any :: _, [] => false
  | .any :: pattern, _ :: word => isMatch pattern word
  | .many :: pattern, word => word.tails.any (isMatch pattern)

variable {same} {pattern rest : List (Wildcard α)} {word : List α} {a : α}

theorem mem_language_nil : word ∈ language same [] ↔ word = [] := Iff.rfl

theorem language_append :
    language same (pattern ++ rest) = language same pattern * language same rest := by
  rw [language, map_append, prod_append]
  rfl

theorem mem_language_append :
    word ∈ language same (pattern ++ rest) ↔
      ∃ u ∈ language same pattern, ∃ v ∈ language same rest, u ++ v = word := by
  rw [language_append]
  exact Language.mem_mul

theorem mem_language_literal :
    word ∈ language same (.literal a :: pattern) ↔
      ∃ b v, same a b = true ∧ v ∈ language same pattern ∧ word = b :: v := by
  constructor
  · rintro ⟨_, ⟨b, hb, rfl⟩, v, hv, rfl⟩
    exact ⟨b, v, hb, hv, rfl⟩
  · rintro ⟨b, v, hb, hv, rfl⟩
    exact ⟨[b], ⟨b, hb, rfl⟩, v, hv, rfl⟩

theorem mem_language_any :
    word ∈ language same (.any :: pattern) ↔ ∃ b v, v ∈ language same pattern ∧ word = b :: v := by
  constructor
  · rintro ⟨_, ⟨b, rfl⟩, v, hv, rfl⟩
    exact ⟨b, v, hv, rfl⟩
  · rintro ⟨b, v, hv, rfl⟩
    exact ⟨[b], ⟨b, rfl⟩, v, hv, rfl⟩

theorem mem_language_many :
    word ∈ language same (.many :: pattern) ↔ ∃ u v, v ∈ language same pattern ∧ word = u ++ v := by
  constructor
  · rintro ⟨u, -, v, hv, rfl⟩
    exact ⟨u, v, hv, rfl⟩
  · rintro ⟨u, v, hv, rfl⟩
    exact ⟨u, trivial, v, hv, rfl⟩

theorem mem_language_any_many :
    word ∈ language same (.any :: .many :: pattern) ↔
      ∃ u v, u ≠ [] ∧ v ∈ language same pattern ∧ word = u ++ v := by
  rw [mem_language_any]
  constructor
  · rintro ⟨b, v, hv, rfl⟩
    obtain ⟨u, w, hw, rfl⟩ := mem_language_many.mp hv
    exact ⟨b :: u, w, cons_ne_nil b u, hw, rfl⟩
  · rintro ⟨u, v, hu, hv, rfl⟩
    obtain ⟨b, u, rfl⟩ := exists_cons_of_ne_nil hu
    exact ⟨b, u ++ v, mem_language_many.mpr ⟨u, v, hv, rfl⟩, rfl⟩

/-- A pattern of literals matches the words that agree with it letter by letter. -/
theorem mem_language_literals {letters : List α} :
    word ∈ language same (letters.map .literal) ↔ List.Forall₂ (same · ·) letters word := by
  induction letters generalizing word with
  | nil => simp [mem_language_nil]
  | cons a letters ih =>
    rw [map_cons, mem_language_literal]
    constructor
    · rintro ⟨b, v, hb, hv, rfl⟩
      exact .cons hb (ih.mp hv)
    · rintro (_ | ⟨hb, hv⟩)
      exact ⟨_, _, hb, ih.mpr hv, rfl⟩

theorem isMatch_iff : isMatch same pattern word = true ↔ word ∈ language same pattern := by
  induction pattern generalizing word with
  | nil => rw [isMatch, List.isEmpty_iff, mem_language_nil]
  | cons item pattern ih =>
    cases item with
    | literal a =>
      rw [mem_language_literal]
      cases word with
      | nil => simp [isMatch]
      | cons b word => simp [isMatch, ih]
    | any =>
      rw [mem_language_any]
      cases word with
      | nil => simp [isMatch]
      | cons b word => simp [isMatch, ih]
    | many =>
      rw [mem_language_many, isMatch, any_eq_true]
      constructor
      · rintro ⟨v, hv, hmatch⟩
        obtain ⟨u, rfl⟩ := (mem_tails v word).mp hv
        exact ⟨u, v, ih.mp hmatch, rfl⟩
      · rintro ⟨u, v, hv, rfl⟩
        exact ⟨v, (mem_tails v (u ++ v)).mpr (suffix_append u v), ih.mpr hv⟩

end Languages

end DeepseekX.WildcardPatterns
