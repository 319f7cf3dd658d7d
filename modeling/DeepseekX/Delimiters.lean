import Mathlib.Data.Set.Finite.Lemmas

/-!
# Searching a growing text for delimiters

A text is searched for any of some needles. The earliest occurrence counts, of the needles
that begin there the longest, and of equal ones the first. While none is complete, the longest
end of the text that a needle may begin with is held back. An occurrence stays the earliest
one in all continuations if no needle lies inside another one before its last letter.
-/

namespace DeepseekX.Delimiters
open List

variable {α : Type*} {needles : List (List α)} {s t v x y p q : List α} {i j : ℕ}

/-- The needle with this number begins behind `x`. -/
def OccursAt (needles : List (List α)) (s x : List α) (i : ℕ) : Prop :=
  ∃ needle, needles[i]? = some needle ∧ x ++ needle <+: s

def Clear (needles : List (List α)) (s : List α) : Prop := ∀ x i, ¬OccursAt needles s x i

/-- The occurrence that counts. -/
structure Earliest (needles : List (List α)) (s x : List α) (i : ℕ) : Prop where
  occurs : OccursAt needles s x i
  first : ∀ y j, OccursAt needles s y j → x <+: y
  longest : ∀ j a b, OccursAt needles s x j → needles[i]? = some a → needles[j]? = some b → b <+: a
  least : ∀ j, OccursAt needles s x j → needles[j]? = needles[i]? → i ≤ j

/-- A needle may begin with `p`. -/
def Begins (needles : List (List α)) (p : List α) : Prop :=
  ∃ needle ∈ needles, p <+: needle ∧ p ≠ needle

/-- The end of the text that is held back. -/
structure Held (needles : List (List α)) (s p : List α) : Prop where
  isSuffix : p <:+ s
  begins : p ≠ [] → Begins needles p
  longest : ∀ q, q <:+ s → Begins needles q → q <:+ p

/-- No needle lies inside another one before its last letter. -/
def Separable (needles : List (List α)) : Prop :=
  ∀ a ∈ needles, ∀ b ∈ needles, ¬a <:+: b.dropLast

theorem OccursAt.mono (h : OccursAt needles s x i) (hs : s <+: t) : OccursAt needles t x i := by
  obtain ⟨needle, hneedle, hprefix⟩ := h
  exact ⟨needle, hneedle, hprefix.trans hs⟩

theorem prefix_dropLast (h : x <+: y) (hne : x ≠ y) : x <+: y.dropLast := by
  obtain ⟨z, rfl⟩ := h
  have hz : z ≠ [] := fun hz => hne (by rw [hz, append_nil])
  rw [dropLast_append_of_ne_nil hz]
  exact prefix_append x _

/-- An occurrence in a continuation either lies in the text, or the rest of the text behind its
begin is the begin of its needle. -/
theorem OccursAt.cases_append (h : OccursAt needles (s ++ v) x i) :
    OccursAt needles s x i ∨ s <+: x ∨ ∃ q, s = x ++ q ∧ Begins needles q ∧
      ∃ needle, needles[i]? = some needle ∧ q <+: needle ∧ q ≠ needle := by
  obtain ⟨needle, hneedle, hprefix⟩ := h
  rcases prefix_or_prefix_of_prefix hprefix (prefix_append s v) with hinside | hacross
  · exact .inl ⟨needle, hneedle, hinside⟩
  · rcases prefix_or_prefix_of_prefix hacross (prefix_append x needle) with
      hbehind | ⟨q, rfl⟩
    · exact .inr (.inl hbehind)
    · have hq := (prefix_append_right_inj x).mp hacross
      by_cases heq : q = needle
      · rw [heq]
        exact .inl ⟨needle, hneedle, prefix_rfl⟩
      · exact .inr (.inr ⟨q, rfl, ⟨needle, mem_of_getElem? hneedle, hq, heq⟩,
          needle, hneedle, hq, heq⟩)

variable (h : Earliest needles s x i)
include h

theorem Earliest.unique (h' : Earliest needles s y j) : x = y ∧ i = j := by
  have hxy : x = y := by
    have hle := h.first y j h'.occurs
    have hge := h'.first x i h.occurs
    exact hle.eq_of_length_le hge.length_le
  subst hxy
  obtain ⟨a, ha, -⟩ := h.occurs
  obtain ⟨b, hb, -⟩ := h'.occurs
  have hle := h.longest j a b h'.occurs ha hb
  have hge := h'.longest i b a h.occurs hb ha
  have hab : b = a := hle.eq_of_length_le hge.length_le
  have hsame : needles[j]? = needles[i]? := by rw [hb, ha, hab]
  exact ⟨rfl, Nat.le_antisymm (h.least j h'.occurs hsame) (h'.least i h.occurs hsame.symm)⟩

/-- With separable needles the occurrence that counts is decided as soon as it is complete. -/
theorem Earliest.append (hne : ∀ a ∈ needles, a ≠ []) (hsep : Separable needles) (v : List α) :
    Earliest needles (s ++ v) x i := by
  obtain ⟨a, ha, hprefix⟩ := h.occurs
  have hmem := mem_of_getElem? ha
  -- Another occurrence in the continuation is one in the text, or it begins later.
  have hlater (y : List α) (j : ℕ) (hoccurs : OccursAt needles (s ++ v) y j) :
      OccursAt needles s y j ∨ (x <+: y ∧ x ≠ y) := by
    rcases hoccurs.cases_append with hinside | hbehind | ⟨q, rfl, -, b, hb, hq, hqb⟩
    · exact .inl hinside
    · have hxy := hprefix.trans hbehind
      refine .inr ⟨(prefix_append x a).trans hxy, ?_⟩
      rintro rfl
      have hlength := hxy.length_le
      rw [length_append] at hlength
      exact hne a hmem (length_eq_zero_iff.mp (by omega))
    · rcases prefix_or_prefix_of_prefix ((prefix_append x a).trans hprefix)
        (prefix_append y q) with hxy | ⟨d, rfl⟩
      · by_cases heq : x = y
        · subst heq
          have haq := (prefix_append_right_inj x).mp hprefix
          exact absurd (haq.trans (prefix_dropLast hq hqb)).isInfix
            (hsep a hmem b (mem_of_getElem? hb))
        · exact .inr ⟨hxy, heq⟩
      · rw [append_assoc] at hprefix
        have hdq := (prefix_append_right_inj y).mp hprefix
        exact absurd ((suffix_append d a).isInfix.trans
          (hdq.trans (prefix_dropLast hq hqb)).isInfix)
          (hsep a hmem b (mem_of_getElem? hb))
  have hsame (j : ℕ) (hoccurs : OccursAt needles (s ++ v) x j) : OccursAt needles s x j :=
    (hlater x j hoccurs).resolve_right fun hlt => hlt.2 rfl
  refine ⟨h.occurs.mono (prefix_append s v), fun y j hoccurs => ?_, ?_, ?_⟩
  · rcases hlater y j hoccurs with hinside | hlt
    · exact h.first y j hinside
    · exact hlt.1
  · exact fun j a b hoccurs => h.longest j a b (hsame j hoccurs)
  · exact fun j hoccurs => h.least j (hsame j hoccurs)

/-- The occurrence that counts does so in every shorter text that has it. -/
theorem Earliest.of_prefix {needle : List α} (hneedle : needles[i]? = some needle)
    (hx : x ++ needle <+: t) (ht : t <+: s) : Earliest needles t x i :=
  ⟨⟨needle, hneedle, hx⟩, fun y j hoccurs => h.first y j (hoccurs.mono ht),
    fun j a b hoccurs => h.longest j a b (hoccurs.mono ht),
    fun j hoccurs => h.least j (hoccurs.mono ht)⟩

omit h

theorem separable_singleton {a : List α} (h : a ≠ []) : Separable [a] := by
  intro b hb c hc hinfix
  cases mem_singleton.mp hb
  cases mem_singleton.mp hc
  have hlength := hinfix.length_le
  have hpos := length_pos_iff.mpr h
  rw [length_dropLast] at hlength
  omega

/-- Another needle lies inside this one before its last letter. -/
def Nested (needles : List (List α)) (b : List α) : Prop :=
  b ∈ needles ∧ ∃ a ∈ needles, a <:+: b.dropLast

theorem exists_longest_nested (h : ¬Separable needles) :
    ∃ b, Nested needles b ∧ ∀ c, Nested needles c → c.length ≤ b.length := by
  have hfinite : {b | Nested needles b}.Finite :=
    (finite_toSet needles).subset fun b hb => hb.1
  have hnonempty : {b | Nested needles b}.Nonempty := by
    by_contra hempty
    refine h fun a ha b hb hinfix => hempty ⟨b, hb, a, ha, hinfix⟩
  obtain ⟨b, hb, hlongest⟩ := Set.exists_max_image _ length hfinite hnonempty
  exact ⟨b, hb, hlongest⟩

/-- The longest nested needle counts at the begin of a text, whatever letter comes next. -/
theorem exists_earliest_nested {b : List α} (hb : Nested needles b)
    (hlongest : ∀ c, Nested needles c → c.length ≤ b.length) (h : Earliest needles b x i) (z : α) :
    x = [] ∧ needles[i]? = some b ∧ Earliest needles (b ++ [z]) [] i := by
  obtain ⟨k, hk⟩ := mem_iff_getElem?.mp hb.1
  have hself : OccursAt needles b [] k := ⟨b, hk, prefix_rfl⟩
  obtain rfl : x = [] := prefix_nil.mp (h.first [] k hself)
  obtain ⟨needle, hneedle, hprefix⟩ := h.occurs
  obtain rfl : needle = b := by
    have hle := h.longest k needle b hself hneedle hk
    exact hprefix.eq_of_length_le hle.length_le
  -- A needle at the begin of the longer text is one of the text itself.
  have hinside (j : ℕ) (hoccurs : OccursAt needles (needle ++ [z]) [] j) :
      OccursAt needles needle [] j := by
    obtain ⟨c, hc, hcz⟩ := hoccurs
    by_cases heq : c = needle ++ [z]
    · subst heq
      have hnested : Nested needles (needle ++ [z]) := by
        obtain ⟨a, ha, hinfix⟩ := hb.2
        refine ⟨mem_of_getElem? hc, a, ha, ?_⟩
        rw [dropLast_concat]
        have hfront := dropLast_prefix needle
        exact hinfix.trans hfront.isInfix
      have hle := hlongest _ hnested
      rw [length_append, length_singleton] at hle
      omega
    · have hdrop := prefix_dropLast hcz heq
      rw [dropLast_concat] at hdrop
      exact ⟨c, hc, hdrop⟩
  exact ⟨rfl, hneedle, h.occurs.mono (prefix_append _ _), fun _ _ _ => nil_prefix,
    fun j a c hoccurs => h.longest j a c (hinside j hoccurs),
    fun j hoccurs => h.least j (hinside j hoccurs)⟩

section HeldBack

theorem Held.unique (h : Held needles s p) (h' : Held needles s q) : p = q := by
  have hle (p q : List α) (h : Held needles s p) (h' : Held needles s q) : p <:+ q := by
    by_cases hp : p = []
    · rw [hp]
      exact nil_suffix
    · exact h'.longest p h.isSuffix (h.begins hp)
  have hpq := hle p q h h'
  exact hpq.eq_of_length_le (hle q p h' h).length_le

variable (hclear : Clear needles (t ++ p)) (hheld : Held needles (t ++ p) p)
include hclear hheld

/-- What is not held back lies before all occurrences to come. -/
theorem occursAt_append_iff : OccursAt needles (t ++ p ++ v) x i ↔
    ∃ y, x = t ++ y ∧ OccursAt needles (p ++ v) y i := by
  constructor
  · intro hoccurs
    have hafter : t <+: x := by
      rcases hoccurs.cases_append with hinside | hbehind | ⟨q, heq, hbegins, -⟩
      · exact absurd hinside (hclear x i)
      · exact (prefix_append t p).trans hbehind
      · have hqp := hheld.longest q ⟨x, heq.symm⟩ hbegins
        refine prefix_of_prefix_length_le (prefix_append t p) ⟨q, heq.symm⟩ ?_
        have hlength := congrArg length heq
        rw [length_append, length_append] at hlength
        have := hqp.length_le
        omega
    obtain ⟨y, rfl⟩ := hafter
    obtain ⟨needle, hneedle, hprefix⟩ := hoccurs
    rw [append_assoc, append_assoc, prefix_append_right_inj] at hprefix
    exact ⟨y, rfl, needle, hneedle, hprefix⟩
  · rintro ⟨y, rfl, needle, hneedle, hprefix⟩
    refine ⟨needle, hneedle, ?_⟩
    rwa [append_assoc, append_assoc, prefix_append_right_inj]

theorem clear_append (h : Clear needles (p ++ v)) : Clear needles (t ++ p ++ v) := by
  intro x i hoccurs
  obtain ⟨y, -, hoccurs⟩ := (occursAt_append_iff hclear hheld).mp hoccurs
  exact h y i hoccurs

theorem earliest_append (h : Earliest needles (p ++ v) y i) :
    Earliest needles (t ++ p ++ v) (t ++ y) i := by
  have hinside (j : ℕ) (hj : OccursAt needles (t ++ p ++ v) (t ++ y) j) :
      OccursAt needles (p ++ v) y j := by
    obtain ⟨z, hz, hoccurs⟩ := (occursAt_append_iff hclear hheld).mp hj
    rwa [append_cancel_left hz]
  refine ⟨(occursAt_append_iff hclear hheld).mpr ⟨y, rfl, h.occurs⟩, fun z' j hz => ?_,
    fun j a b hj => h.longest j a b (hinside j hj), fun j hj => h.least j (hinside j hj)⟩
  obtain ⟨z, rfl, hoccurs⟩ := (occursAt_append_iff hclear hheld).mp hz
  exact (prefix_append_right_inj t).mpr (h.first z j hoccurs)

omit hclear in
theorem held_append (h : Held needles (p ++ v) q) : Held needles (t ++ p ++ v) q := by
  -- The begins of needles at the end of the continuation do not reach into `t`.
  have hends (q : List α) (hbegins : Begins needles q) (hq : q <:+ t ++ p ++ v) : q <:+ p ++ v := by
    rcases suffix_or_suffix_of_suffix hq (suffix_append (t ++ p) v) with hqv | ⟨r, rfl⟩
    · exact hqv.trans (suffix_append p v)
    · obtain ⟨needle, hneedle, hrv, hne⟩ := hbegins
      have hr : Begins needles r := by
        refine ⟨needle, hneedle, (prefix_append r v).trans hrv, ?_⟩
        rintro rfl
        exact hne (hrv.eq_of_length_le (prefix_append r v).length_le)
      obtain ⟨w, hw⟩ := hq
      rw [← append_assoc] at hw
      obtain ⟨w', hw'⟩ := hheld.longest r ⟨w, append_cancel_right hw⟩ hr
      exact ⟨w', by rw [← hw', append_assoc]⟩
  have htail : p ++ v <:+ t ++ p ++ v := ⟨t, (append_assoc t p v).symm⟩
  exact ⟨h.isSuffix.trans htail, h.begins, fun r hr hbegins =>
    h.longest r (hends r hbegins hr) hbegins⟩

end HeldBack

end DeepseekX.Delimiters
