import Mathlib.Data.String.Basic
import DeepseekX.Delimiters

/-!
# Texts sliced at byte offsets

Texts are lists of characters, offsets into them count the bytes of their UTF-8 encoding. A
slice at an offset inside a character or behind the end does not exist.
-/

namespace DeepseekX.ByteSlices
open Delimiters List
open String (utf8Len utf8Len_cons utf8Len_append utf8Len_eq_zero)

def splitAtByte : List Char → ℕ → Option (List Char × List Char)
  | [], offset => if offset = 0 then some ([], []) else none
  | c :: text, offset =>
    if offset = 0 then some ([], c :: text)
    else if offset < c.utf8Size then none
    else (splitAtByte text (offset - c.utf8Size)).map fun slices => (c :: slices.1, slices.2)

def find (needle : List Char) : List Char → Option ℕ
  | [] => if needle = [] then some 0 else none
  | c :: text =>
    if needle.isPrefixOf (c :: text) then some 0
    else (find needle text).map (c.utf8Size + ·)

variable {text needle x y : List Char} {offset : ℕ}

@[simp] theorem splitAtByte_utf8Len (x y : List Char) :
    splitAtByte (x ++ y) (utf8Len x) = some (x, y) := by
  induction x with
  | nil => cases y <;> rfl
  | cons c x ih =>
    have hsize := c.utf8Size_pos
    rw [cons_append, splitAtByte, utf8Len_cons, if_neg (by omega), if_neg (by omega),
      Nat.add_sub_cancel, ih]
    rfl

theorem splitAtByte_eq_some (h : splitAtByte text offset = some (x, y)) :
    text = x ++ y ∧ utf8Len x = offset := by
  induction text generalizing offset x with
  | nil =>
    rw [splitAtByte] at h
    split at h
    · next hzero =>
      cases h
      exact ⟨rfl, hzero.symm⟩
    · cases h
  | cons c text ih =>
    rw [splitAtByte] at h
    split at h
    · next hzero =>
      cases h
      exact ⟨rfl, hzero.symm⟩
    · split at h
      · cases h
      · next hsize =>
        obtain ⟨⟨x, y⟩, hslices, heq⟩ := Option.map_eq_some_iff.mp h
        cases heq
        obtain ⟨rfl, hlen⟩ := ih hslices
        refine ⟨rfl, ?_⟩
        rw [utf8Len_cons, hlen]
        omega

theorem prefix_of_utf8Len_le (hx : x <+: text) (hy : y <+: text) (h : utf8Len x ≤ utf8Len y) :
    x <+: y := by
  rcases prefix_or_prefix_of_prefix hx hy with hxy | ⟨z, rfl⟩
  · exact hxy
  · rw [utf8Len_append] at h
    have hz : z = [] := utf8Len_eq_zero.mp (by omega)
    rw [hz, append_nil]

theorem suffix_of_utf8Len_le (hx : x <:+ text) (hy : y <:+ text) (h : utf8Len x ≤ utf8Len y) :
    x <:+ y := by
  rcases suffix_or_suffix_of_suffix hx hy with hxy | ⟨z, rfl⟩
  · exact hxy
  · rw [utf8Len_append] at h
    have hz : z = [] := utf8Len_eq_zero.mp (by omega)
    rw [hz, nil_append]

theorem occursAt_singleton {i : ℕ} : OccursAt [needle] text x i ↔ i = 0 ∧ x ++ needle <+: text := by
  constructor
  · rintro ⟨found, hfound, hprefix⟩
    cases i with
    | zero =>
      cases hfound
      exact ⟨rfl, hprefix⟩
    | succ i => cases hfound
  · rintro ⟨rfl, hprefix⟩
    exact ⟨needle, rfl, hprefix⟩

theorem earliest_singleton (hoccurs : x ++ needle <+: text)
    (hfirst : ∀ y, y ++ needle <+: text → x <+: y) : Earliest [needle] text x 0 := by
  refine ⟨occursAt_singleton.mpr ⟨rfl, hoccurs⟩, fun y j hj => ?_, fun j a b hj ha hb => ?_,
    fun j _ _ => Nat.zero_le j⟩
  · exact hfirst y (occursAt_singleton.mp hj).2
  · obtain ⟨rfl, -⟩ := occursAt_singleton.mp hj
    rw [ha] at hb
    cases hb
    exact prefix_rfl

theorem find_spec (needle text : List Char) :
    (find needle text = none ∧ Clear [needle] text) ∨
      ∃ x, find needle text = some (utf8Len x) ∧ Earliest [needle] text x 0 := by
  induction text with
  | nil =>
    rw [find]
    by_cases hneedle : needle = []
    · rw [if_pos hneedle]
      refine .inr ⟨[], rfl, earliest_singleton ?_ fun y _ => nil_prefix⟩
      rw [hneedle]
      exact prefix_rfl
    · rw [if_neg hneedle]
      refine .inl ⟨rfl, fun x i hoccurs => hneedle ?_⟩
      obtain ⟨-, hprefix⟩ := occursAt_singleton.mp hoccurs
      exact (append_eq_nil_iff.mp (prefix_nil.mp hprefix)).2
  | cons c text ih =>
    rw [find]
    split
    · next hprefix =>
      refine .inr ⟨[], rfl, earliest_singleton ?_ fun y _ => nil_prefix⟩
      exact isPrefixOf_iff_prefix.mp hprefix
    · next hprefix =>
      replace hprefix := mt isPrefixOf_iff_prefix.mpr hprefix
      -- No occurrence begins at the first character.
      have htail (y : List Char) (hy : y ++ needle <+: c :: text) :
          ∃ z, y = c :: z ∧ z ++ needle <+: text := by
        cases y with
        | nil => exact absurd hy hprefix
        | cons d z =>
          rw [cons_append, cons_prefix_cons] at hy
          exact ⟨z, by rw [hy.1], hy.2⟩
      rcases ih with ⟨hnone, hclear⟩ | ⟨x, hsome, hearliest⟩
      · rw [hnone]
        refine .inl ⟨rfl, fun y i hoccurs => ?_⟩
        obtain ⟨z, -, hz⟩ := htail y (occursAt_singleton.mp hoccurs).2
        exact hclear z 0 (occursAt_singleton.mpr ⟨rfl, hz⟩)
      · rw [hsome]
        refine .inr ⟨c :: x, ?_, earliest_singleton ?_ fun y hy => ?_⟩
        · rw [utf8Len_cons, Nat.add_comm]
          rfl
        · rw [cons_append, cons_prefix_cons]
          exact ⟨rfl, (occursAt_singleton.mp hearliest.occurs).2⟩
        · obtain ⟨z, rfl, hz⟩ := htail y hy
          rw [cons_prefix_cons]
          exact ⟨rfl, hearliest.first z 0 (occursAt_singleton.mpr ⟨rfl, hz⟩)⟩

end DeepseekX.ByteSlices
