import DeepseekX.SeekSequence
import Mathlib.Order.Bounds.Defs

/-!
# What locating pattern lines promises

The comment on `seek_sequence` promises a position at or behind `start`, the first
one at the strictest level of comparison that occurs there at all; for a pattern
marked as standing at the end of the file it promises to try the end first and to
fall back to the search from `start`. The search keeps the promise except for the
fall back: a marked pattern is looked for at the end and nowhere else.
-/

namespace DeepseekX.SeekSequence
open List

variable {lines pattern : List String} {start i : ℕ}

/-- The keys under which lines are compared, strictest first. -/
def levels : List (String → String) := [id, trimEnd, trim, normalise]

def MatchesAtSomeLevel (lines pattern : List String) (i : ℕ) : Prop :=
  ∃ key ∈ levels, matchesAt key lines pattern i = true

instance (lines pattern : List String) (i : ℕ) :
    Decidable (MatchesAtSomeLevel lines pattern i) :=
  inferInstanceAs (Decidable (∃ key ∈ levels, matchesAt key lines pattern i = true))

/-- The position at which the pattern would be the last lines of the file. -/
def endPosition (lines pattern : List String) : ℕ := lines.length - pattern.length

/-- The first position behind `start` at the strictest level that occurs there. -/
def FirstAtStrictestLevel (lines pattern : List String) (start i : ℕ) : Prop :=
  ∃ stricter key laxer, levels = stricter ++ key :: laxer ∧
    (∀ other ∈ stricter, ∀ j, start ≤ j → matchesAt other lines pattern j = false) ∧
    IsLeast {j | start ≤ j ∧ matchesAt key lines pattern j = true} i

/-- The promise of the comment, for a result of the search. -/
structure MeetsContract (lines pattern : List String) (start : ℕ) (eof : Bool)
    (result : Option ℕ) : Prop where
  sound : ∀ i, result = some i → start ≤ i ∧ pattern.length ≤ (lines.drop i).length ∧
    MatchesAtSomeLevel lines pattern i
  endPreferred : eof = true → pattern ≠ [] → start ≤ endPosition lines pattern →
    MatchesAtSomeLevel lines pattern (endPosition lines pattern) →
    result = some (endPosition lines pattern)
  first : ∀ i, result = some i →
    (eof = true → pattern ≠ [] → ¬ MatchesAtSomeLevel lines pattern (endPosition lines pattern)) →
    FirstAtStrictestLevel lines pattern start i
  complete : result = none → ∀ j, start ≤ j → ¬ MatchesAtSomeLevel lines pattern j

variable {key : String → String}

theorem matchesAt_length (h : matchesAt key lines pattern i = true) :
    pattern.length ≤ (lines.drop i).length := by
  have hlen := congrArg length (eq_of_beq h)
  simp only [length_map, length_take] at hlen
  omega

theorem matchesAt_le_endPosition (hp : pattern ≠ []) (h : matchesAt key lines pattern i = true) :
    pattern.length ≤ lines.length ∧ i ≤ endPosition lines pattern := by
  have hlen := matchesAt_length h
  have hpos := length_pos_iff.mpr hp
  rw [length_drop] at hlen
  unfold endPosition
  omega

theorem MatchesAtSomeLevel.length_le (h : MatchesAtSomeLevel lines pattern i) :
    pattern.length ≤ (lines.drop i).length := by
  obtain ⟨key, _, hkey⟩ := h
  exact matchesAt_length hkey

theorem MatchesAtSomeLevel.le_endPosition (h : MatchesAtSomeLevel lines pattern i)
    (hp : pattern ≠ []) : pattern.length ≤ lines.length ∧ i ≤ endPosition lines pattern := by
  obtain ⟨key, _, hkey⟩ := h
  exact matchesAt_le_endPosition hp hkey

/-- The four passes from a first position on, strictest first. -/
def searchFrom (lines pattern : List String) (first : ℕ) : Option ℕ :=
  levels.findSome? fun key =>
    searchPass first (endPosition lines pattern) (matchesAt key lines pattern)

theorem searchPass_eq_none_iff (hp : pattern ≠ []) :
    searchPass start (endPosition lines pattern) (matchesAt key lines pattern) = none ↔
      ∀ j, start ≤ j → matchesAt key lines pattern j = false := by
  unfold searchPass
  rw [find?_range'_eq_none]
  constructor
  · intro h j hj
    by_contra hkey
    rw [Bool.not_eq_false] at hkey
    have hend := (matchesAt_le_endPosition hp hkey).2
    have hnot := h j hj (by omega)
    rw [hkey] at hnot
    exact Bool.false_ne_true hnot
  · intro h j hj _
    rw [h j hj]
    rfl

theorem searchPass_eq_some
    (h : searchPass start (endPosition lines pattern) (matchesAt key lines pattern) = some i) :
    i ≤ endPosition lines pattern ∧
      IsLeast {j | start ≤ j ∧ matchesAt key lines pattern j = true} i := by
  unfold searchPass at h
  rw [find?_range'_eq_some, mem_range'_1] at h
  obtain ⟨hkey, hrange, hbefore⟩ := h
  refine ⟨by omega, ⟨hrange.1, hkey⟩, ?_⟩
  rintro j ⟨hj, hkeyj⟩
  by_contra hlt
  have hnot := hbefore j hj (by omega)
  rw [hkeyj] at hnot
  exact Bool.false_ne_true hnot

theorem searchFrom_eq_none_iff (hp : pattern ≠ []) :
    searchFrom lines pattern start = none ↔
      ∀ j, start ≤ j → ¬ MatchesAtSomeLevel lines pattern j := by
  simp only [searchFrom, findSome?_eq_none_iff, searchPass_eq_none_iff hp,
    MatchesAtSomeLevel, not_exists, not_and, Bool.not_eq_true]
  exact ⟨fun h j hj key hkey => h key hkey j hj, fun h key hkey j hj => h j hj key hkey⟩

theorem searchFrom_eq_some (hp : pattern ≠ []) (h : searchFrom lines pattern start = some i) :
    i ≤ endPosition lines pattern ∧ FirstAtStrictestLevel lines pattern start i := by
  obtain ⟨stricter, key, laxer, hlevels, hkey, hstricter⟩ := findSome?_eq_some_iff.mp h
  obtain ⟨hend, hleast⟩ := searchPass_eq_some hkey
  exact ⟨hend, stricter, key, laxer, hlevels,
    fun other hother => (searchPass_eq_none_iff hp).mp (hstricter other hother), hleast⟩

theorem FirstAtStrictestLevel.matches (h : FirstAtStrictestLevel lines pattern start i) :
    start ≤ i ∧ MatchesAtSomeLevel lines pattern i := by
  obtain ⟨stricter, key, laxer, hlevels, _, hleast⟩ := h
  refine ⟨hleast.1.1, key, ?_, hleast.1.2⟩
  rw [hlevels]
  exact mem_append_right _ mem_cons_self

theorem firstAtStrictestLevel_nil : FirstAtStrictestLevel lines [] start start :=
  ⟨[], id, _, rfl, forall_mem_nil _, ⟨le_refl _, rfl⟩, fun _ h => h.1⟩

theorem seekSequence_nil (eof : Bool) : seekSequence lines [] start eof = some start := rfl

theorem seekSequence_eq_searchFrom (hp : pattern ≠ []) (eof : Bool) :
    seekSequence lines pattern start eof =
      searchFrom lines pattern (if eof then endPosition lines pattern else start) := by
  unfold seekSequence
  rw [if_neg hp]
  by_cases hlen : pattern.length > lines.length
  · rw [if_pos hlen, eq_comm, searchFrom_eq_none_iff hp]
    intro j _ hj
    have := (hj.le_endPosition hp).1
    omega
  · have hle : pattern.length ≤ lines.length := by omega
    rw [if_neg hlen]
    simp only [hle, decide_true, Bool.and_true, searchFrom, levels, findSome?_cons, endPosition]
    generalize (if eof = true then lines.length - pattern.length else start) = first
    cases searchPass first (lines.length - pattern.length) (matchesAt id lines pattern) <;>
      cases searchPass first (lines.length - pattern.length) (matchesAt trimEnd lines pattern) <;>
        cases searchPass first (lines.length - pattern.length) (matchesAt trim lines pattern) <;>
          cases searchPass first (lines.length - pattern.length)
            (matchesAt normalise lines pattern) <;> rfl

theorem seekSequence_eq_some_of_not_eof
    (h : seekSequence lines pattern start false = some i) :
    FirstAtStrictestLevel lines pattern start i := by
  by_cases hp : pattern = []
  · subst hp
    rw [seekSequence_nil, Option.some.injEq] at h
    exact h ▸ firstAtStrictestLevel_nil
  · rw [seekSequence_eq_searchFrom hp] at h
    exact (searchFrom_eq_some hp h).2

theorem seekSequence_of_eof (hp : pattern ≠ []) :
    seekSequence lines pattern start true =
      if MatchesAtSomeLevel lines pattern (endPosition lines pattern) then
        some (endPosition lines pattern)
      else none := by
  rw [seekSequence_eq_searchFrom hp, if_pos rfl]
  cases hfound : searchFrom lines pattern (endPosition lines pattern) with
  | none => rw [if_neg ((searchFrom_eq_none_iff hp).mp hfound _ (le_refl _))]
  | some i =>
    obtain ⟨hend, hfirst⟩ := searchFrom_eq_some hp hfound
    have hi : i = endPosition lines pattern := le_antisymm hend hfirst.matches.1
    subst hi
    rw [if_pos hfirst.matches.2]

theorem meetsContract_of_not_eof :
    MeetsContract lines pattern start false (seekSequence lines pattern start false) where
  sound i h := by
    have hmatch := (seekSequence_eq_some_of_not_eof h).matches
    exact ⟨hmatch.1, hmatch.2.length_le, hmatch.2⟩
  endPreferred h := absurd h Bool.false_ne_true
  first i h _ := seekSequence_eq_some_of_not_eof h
  complete h := by
    have hp : pattern ≠ [] := by
      rintro rfl
      cases h
    rw [seekSequence_eq_searchFrom hp] at h
    exact (searchFrom_eq_none_iff hp).mp h

theorem meetsContract_nil (eof : Bool) :
    MeetsContract lines [] start eof (seekSequence lines [] start eof) where
  sound i h := by
    rw [seekSequence_nil, Option.some.injEq] at h
    subst h
    exact ⟨le_refl _, Nat.zero_le _, firstAtStrictestLevel_nil.matches.2⟩
  endPreferred _ hp := absurd rfl hp
  first i h _ := by
    rw [seekSequence_nil, Option.some.injEq] at h
    exact h ▸ firstAtStrictestLevel_nil
  complete h := by cases h

theorem meetsContract_eof_iff (hp : pattern ≠ []) :
    MeetsContract lines pattern start true (seekSequence lines pattern start true) ↔
      (MatchesAtSomeLevel lines pattern (endPosition lines pattern) ↔
        ∃ j, start ≤ j ∧ MatchesAtSomeLevel lines pattern j) := by
  rw [seekSequence_of_eof hp]
  by_cases hmatch : MatchesAtSomeLevel lines pattern (endPosition lines pattern)
  · rw [if_pos hmatch]
    constructor
    · intro h
      exact iff_of_true hmatch ⟨_, (h.sound _ rfl).1, hmatch⟩
    · intro h
      obtain ⟨j, hj, hjmatch⟩ := h.mp hmatch
      have hstart := hj.trans (hjmatch.le_endPosition hp).2
      exact {
        sound := by
          rintro i ⟨⟩
          exact ⟨hstart, hmatch.length_le, hmatch⟩
        endPreferred := fun _ _ _ _ => rfl
        first := fun _ _ hnot => absurd hmatch (hnot rfl hp)
        complete := fun h => by cases h }
  · rw [if_neg hmatch]
    constructor
    · intro h
      refine iff_of_false hmatch ?_
      rintro ⟨j, hj, hjmatch⟩
      exact h.complete rfl j hj hjmatch
    · intro h
      exact {
        sound := fun i h => by cases h
        endPreferred := fun _ _ _ hend => absurd hend hmatch
        first := fun i h => by cases h
        complete := fun _ j hj hjmatch => hmatch (h.mpr ⟨j, hj, hjmatch⟩) }

/-- The search keeps its promise exactly when it is not asked for the end of the
file, or the pattern stands at the end of the file if it stands anywhere at or
behind `start`, and not at the end alone when the end lies before `start`. -/
theorem seekSequence_meetsContract_iff (lines pattern : List String) (start : ℕ) (eof : Bool) :
    MeetsContract lines pattern start eof (seekSequence lines pattern start eof) ↔
      (eof = true → pattern ≠ [] →
        (MatchesAtSomeLevel lines pattern (endPosition lines pattern) ↔
          ∃ j, start ≤ j ∧ MatchesAtSomeLevel lines pattern j)) := by
  cases eof with
  | false => exact iff_of_true meetsContract_of_not_eof fun h => absurd h Bool.false_ne_true
  | true =>
    by_cases hp : pattern = []
    · subst hp
      exact iff_of_true (meetsContract_nil true) fun _ hp => absurd rfl hp
    · rw [meetsContract_eof_iff hp]
      exact ⟨fun h _ _ => h, fun h => h rfl hp⟩

/-- There is no fall back to the search from `start`, and a match at the end is
taken also when it lies before `start`. -/
theorem no_fallback_from_end :
    ¬ MeetsContract ["a", "b"] ["a"] 0 true (seekSequence ["a", "b"] ["a"] 0 true) ∧
      seekSequence ["a", "b"] ["a"] 0 true = none ∧
      matchesAt id ["a", "b"] ["a"] 0 = true ∧
      ¬ MeetsContract ["a"] ["a"] 1 true (seekSequence ["a"] ["a"] 1 true) ∧
      seekSequence ["a"] ["a"] 1 true = some 0 := by
  refine ⟨?_, by decide, by decide, ?_, by decide⟩
  · intro h
    exact h.complete (by decide) 0 (le_refl _) ⟨id, mem_cons_self, by decide⟩
  · intro h
    have := (h.sound 0 (by decide)).1
    omega

end DeepseekX.SeekSequence
