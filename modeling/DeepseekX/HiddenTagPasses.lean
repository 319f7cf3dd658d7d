import DeepseekX.HiddenTags

/-!
# Passes over growing text

A pass of the parser finds the delimiter that counts, or holds back the end of the text. With
openers that do not lie inside each other, a scan of some text can be taken up with more text
where it stopped.
-/

namespace DeepseekX.HiddenTags
open ByteSlices Delimiters List Option
open String (utf8Len utf8Len_append utf8Len_eq_zero utf8Len_le_of_suffix utf8Len_le_of_prefix)

section Searching

variable {text needle x p s : List Char} {needles : List (List Char)}

theorem find_eq_some (h : Earliest [needle] text x 0) : find needle text = some (utf8Len x) := by
  rcases find_spec needle text with ⟨-, hclear⟩ | ⟨y, hfind, hearliest⟩
  · exact absurd h.occurs (hclear x 0)
  · rw [hfind, (h.unique hearliest).1]

theorem find_eq_none (h : Clear [needle] text) : find needle text = none := by
  rcases find_spec needle text with ⟨hfind, -⟩ | ⟨y, -, hearliest⟩
  · exact hfind
  · exact absurd hearliest.occurs (h y 0)

theorem find?_range'_reverse {test : ℕ → Bool} {n k : ℕ}
    (hk : ((range' 1 n).reverse.find? test).getD 0 = k) :
    k ≤ n ∧ (k = 0 ∨ test k) ∧ ∀ m, k < m → m ≤ n → test m = false := by
  subst hk
  induction n with
  | zero => exact ⟨le_rfl, .inl rfl, fun m hm hle => absurd (hm.trans_le hle) (Nat.not_lt_zero _)⟩
  | succ n ih =>
    rw [range'_concat, reverse_append, reverse_singleton, singleton_append,
      find?_cons, Nat.one_mul, Nat.add_comm 1 n]
    cases htest : test (n + 1) with
    | true =>
      exact ⟨le_rfl, .inr htest, fun m hm hle => absurd (hm.trans_le hle) (lt_irrefl _)⟩
    | false =>
      obtain ⟨hle, hfound, hlarger⟩ := ih
      refine ⟨Nat.le_succ_of_le hle, hfound, fun m hm hmn => ?_⟩
      rcases Nat.le_succ_iff.mp hmn with hmn | rfl
      · exact hlarger m hm hmn
      · exact htest

theorem exists_held_singleton (s needle : List Char) :
    ∃ p, Held [needle] s p ∧ utf8Len p = longestSuffixPrefixLen s needle := by
  unfold longestSuffixPrefixLen
  generalize hk : ((range' 1 (min (utf8Len s) (utf8Len needle - 1))).reverse.find? _).getD 0 = k
  obtain ⟨hle, hfound, hlarger⟩ := find?_range'_reverse hk
  -- Every begin of the needle at the end of the text has been tested.
  have hlongest (q : List Char) (hsuffix : q <:+ s) (hbegins : Begins [needle] q) :
      utf8Len q ≤ k := by
    by_contra hlt
    obtain ⟨_, hmem, ⟨rest, rfl⟩, hne⟩ := hbegins
    cases mem_singleton.mp hmem
    have hrest : 0 < utf8Len rest := Nat.pos_of_ne_zero fun hzero =>
      hne (by rw [utf8Len_eq_zero.mp hzero, append_nil])
    have hs := utf8Len_le_of_suffix hsuffix
    have htest := hlarger (utf8Len q) (Nat.not_le.mp hlt) (by rw [utf8Len_append]; omega)
    rw [splitAtByte_utf8Len] at htest
    exact absurd (isSuffixOf_iff_suffix.mpr hsuffix) (ne_true_of_eq_false htest)
  by_cases hzero : k = 0
  · refine ⟨[], ⟨nil_suffix, nofun, fun q hsuffix hbegins => ?_⟩, hzero.symm⟩
    have hq := hlongest q hsuffix hbegins
    rw [hzero, Nat.le_zero, utf8Len_eq_zero] at hq
    rw [hq]
  · have htest := hfound.resolve_left hzero
    split at htest
    · cases htest
    · next head rest hsplit =>
      obtain ⟨rfl, rfl⟩ := splitAtByte_eq_some hsplit
      have hsuffix := isSuffixOf_iff_suffix.mp htest
      refine ⟨head, ⟨hsuffix, fun _ => ?_, fun q hq hbegins => ?_⟩, rfl⟩
      · refine ⟨_, mem_singleton_self _, prefix_append head rest, fun heq => ?_⟩
        have hlen := congrArg utf8Len heq
        omega
      · exact suffix_of_utf8Len_le hq hsuffix (hlongest q hq hbegins)

variable {T : Type} {parser : InlineHiddenTagParser T} {i : ℕ}

def openers (specs : List (InlineTagSpec T)) : List (List Char) :=
  specs.map InlineTagSpec.opener

theorem begins_openers {specs : List (InlineTagSpec T)} {q : List Char} :
    Begins (openers specs) q ↔ ∃ spec ∈ specs, Begins [spec.opener] q := by
  constructor
  · rintro ⟨_, hmem, hbegins⟩
    obtain ⟨spec, hspec, rfl⟩ := mem_map.mp hmem
    exact ⟨spec, hspec, _, mem_singleton_self _, hbegins⟩
  · rintro ⟨spec, hspec, _, hmem, hbegins⟩
    cases mem_singleton.mp hmem
    exact ⟨_, mem_map_of_mem hspec, hbegins⟩

theorem exists_held_openers (parser : InlineHiddenTagParser T) :
    ∃ p, Held (openers parser.specs) parser.pending p ∧
      utf8Len p = parser.maxOpenPrefixSuffixLen := by
  unfold InlineHiddenTagParser.maxOpenPrefixSuffixLen
  cases hmax : (parser.specs.map fun spec =>
    longestSuffixPrefixLen parser.pending spec.opener).max? with
  | none =>
    rw [max?_eq_none_iff, map_eq_nil_iff] at hmax
    refine ⟨[], ⟨nil_suffix, nofun, fun q _ hbegins => ?_⟩, rfl⟩
    obtain ⟨spec, hspec, -⟩ := begins_openers.mp hbegins
    rw [hmax] at hspec
    cases hspec
  | some longest =>
    rw [max?_eq_some_iff] at hmax
    obtain ⟨hmem, hbound⟩ := hmax
    obtain ⟨spec, hspec, rfl⟩ := mem_map.mp hmem
    obtain ⟨p, hheld, hlen⟩ := exists_held_singleton parser.pending spec.opener
    refine ⟨p, ⟨hheld.isSuffix, fun hp => ?_, fun q hq hbegins => ?_⟩, hlen⟩
    · exact begins_openers.mpr ⟨spec, hspec, hheld.begins hp⟩
    · obtain ⟨other, hother, hbegins⟩ := begins_openers.mp hbegins
      obtain ⟨p', hheld', hlen'⟩ := exists_held_singleton parser.pending other.opener
      have hle := hbound _ (mem_map_of_mem hother)
      have hqp := utf8Len_le_of_suffix (hheld'.longest q hq hbegins)
      exact suffix_of_utf8Len_le hq hheld.isSuffix (by omega)

theorem mem_openCandidates {pos len idx : ℕ} :
    (pos, len, idx) ∈ parser.openCandidates ↔ ∃ spec, parser.specs[idx]? = some spec ∧
      find spec.opener parser.pending = some pos ∧ utf8Len spec.opener = len := by
  rw [InlineHiddenTagParser.openCandidates, mem_filterMap]
  constructor
  · rintro ⟨⟨spec, j⟩, hmem, heq⟩
    obtain ⟨pos', hfind, heq⟩ := map_eq_some_iff.mp heq
    cases heq
    exact ⟨spec, mem_zipIdx_iff_getElem?.mp hmem, hfind, rfl⟩
  · rintro ⟨spec, hspec, hfind, rfl⟩
    refine ⟨(spec, idx), mem_zipIdx_iff_getElem?.mpr hspec, ?_⟩
    dsimp only
    rw [hfind]
    rfl

theorem getElem?_openers {specs : List (InlineTagSpec T)} {needle : List Char}
    (h : (openers specs)[i]? = some needle) : ∃ spec, specs[i]? = some spec ∧
      spec.opener = needle := by
  rw [openers, getElem?_map] at h
  exact map_eq_some_iff.mp h

/-- Every occurrence of an opener gives a candidate, at its first occurrence. -/
theorem exists_candidate (h : OccursAt (openers parser.specs) parser.pending x i) :
    ∃ spec y, parser.specs[i]? = some spec ∧ Earliest [spec.opener] parser.pending y 0 ∧ y <+: x ∧
      (utf8Len y, utf8Len spec.opener, i) ∈ parser.openCandidates := by
  obtain ⟨needle, hneedle, hprefix⟩ := h
  obtain ⟨spec, hspec, rfl⟩ := getElem?_openers hneedle
  have hoccurs := occursAt_singleton.mpr ⟨rfl, hprefix⟩
  rcases find_spec spec.opener parser.pending with ⟨-, hclear⟩ | ⟨y, hfind, hearliest⟩
  · exact absurd hoccurs (hclear x 0)
  · exact ⟨spec, y, hspec, hearliest, hearliest.first x 0 hoccurs,
      mem_openCandidates.mpr ⟨spec, hspec, hfind, rfl⟩⟩

theorem findNextOpen_spec (parser : InlineHiddenTagParser T) :
    (parser.findNextOpen = none ∧ Clear (openers parser.specs) parser.pending) ∨
      ∃ x i, parser.findNextOpen = some (utf8Len x, i) ∧
        Earliest (openers parser.specs) parser.pending x i := by
  unfold InlineHiddenTagParser.findNextOpen
  generalize hmin : argmin (β := Lex (ℕ × Lex (ℕᵒᵈ × ℕ))) _ parser.openCandidates = found
  cases found with
  | none =>
    refine .inl ⟨rfl, fun x i hoccurs => ?_⟩
    obtain ⟨spec, y, -, -, -, hmem⟩ := exists_candidate hoccurs
    rw [argmin_eq_none.mp hmin] at hmem
    cases hmem
  | some candidate =>
    obtain ⟨pos, len, i⟩ := candidate
    obtain ⟨spec, hspec, hfind, rfl⟩ := mem_openCandidates.mp (argmin_mem hmin)
    rcases find_spec spec.opener parser.pending with ⟨hnone, -⟩ | ⟨x, hsome, hearliest⟩
    · rw [hfind] at hnone
      cases hnone
    rw [hfind] at hsome
    cases hsome
    have hxspec := (occursAt_singleton.mp hearliest.occurs).2
    have hneedle : (openers parser.specs)[i]? = some spec.opener := by
      rw [openers, getElem?_map, hspec]
      rfl
    -- Of two candidates the smaller key wins.
    have hkey (pos len j : ℕ) (hmem : (pos, len, j) ∈ parser.openCandidates) :
        utf8Len x < pos ∨ utf8Len x = pos ∧ (len < utf8Len spec.opener ∨
          len = utf8Len spec.opener ∧ i ≤ j) := by
      have hle := le_of_mem_argmin hmem hmin
      rw [Prod.Lex.toLex_le_toLex, Prod.Lex.toLex_le_toLex] at hle
      rcases hle with hlt | ⟨heq, hlt | ⟨hlen, hij⟩⟩
      · exact .inl hlt
      · exact .inr ⟨heq, .inl hlt⟩
      · exact .inr ⟨heq, .inr ⟨(OrderDual.toDual_inj.mp hlen).symm, hij⟩⟩
    have hself (j : ℕ) (hoccurs : OccursAt (openers parser.specs) parser.pending x j) :
        ∃ other, parser.specs[j]? = some other ∧ x ++ other.opener <+: parser.pending ∧
          (utf8Len other.opener < utf8Len spec.opener ∨
            utf8Len other.opener = utf8Len spec.opener ∧ i ≤ j) := by
      obtain ⟨other, y, hother, hy, hyx, hmem⟩ := exists_candidate hoccurs
      have hwins := hkey _ _ _ hmem
      have heq : y = x := hyx.eq_of_length_le
        (prefix_of_utf8Len_le ((prefix_append x _).trans hxspec)
          (hyx.trans ((prefix_append x _).trans hxspec)) (by omega)).length_le
      subst heq
      exact ⟨other, hother, (occursAt_singleton.mp hy.occurs).2, by omega⟩
    refine .inr ⟨x, i, rfl, ⟨spec.opener, hneedle, hxspec⟩, fun y j hoccurs => ?_,
      fun j a b hoccurs ha hb => ?_, fun j hoccurs hsame => ?_⟩
    · obtain ⟨other, z, hother, hz, hzy, hmem⟩ := exists_candidate hoccurs
      have hwins := hkey _ _ _ hmem
      refine (prefix_of_utf8Len_le ((prefix_append x _).trans hxspec) ?_ (by omega)).trans hzy
      exact (prefix_append z _).trans (occursAt_singleton.mp hz.occurs).2
    · obtain ⟨other, hother, hprefix, hlen⟩ := hself j hoccurs
      rw [openers, getElem?_map, hother] at hb
      rw [hneedle] at ha
      cases ha
      cases hb
      have hle := @prefix_of_utf8Len_le parser.pending (x ++ other.opener) (x ++ spec.opener)
        hprefix hxspec (by rw [utf8Len_append, utf8Len_append]; omega)
      exact (prefix_append_right_inj x).mp hle
    · obtain ⟨other, hother, -, hlen⟩ := hself j hoccurs
      rw [hneedle, openers, getElem?_map, hother] at hsame
      have heq : other.opener = spec.opener := some.inj hsame
      rw [heq] at hlen
      omega

theorem findNextOpen_eq_some (h : Earliest (openers parser.specs) parser.pending x i) :
    parser.findNextOpen = some (utf8Len x, i) := by
  rcases findNextOpen_spec parser with ⟨-, hclear⟩ | ⟨y, j, hfind, hearliest⟩
  · exact absurd h.occurs (hclear x i)
  · obtain ⟨rfl, rfl⟩ := h.unique hearliest
    exact hfind

theorem findNextOpen_eq_none (h : Clear (openers parser.specs) parser.pending) :
    parser.findNextOpen = none := by
  rcases findNextOpen_spec parser with ⟨hfind, -⟩ | ⟨y, j, -, hearliest⟩
  · exact hfind
  · exact absurd hearliest.occurs (h y j)

end Searching

section Passes

variable {T : Type} (specs : List (InlineTagSpec T)) (active : Option (ActiveTag T))

/-- What the parser looks for: the closing delimiter of its tag, or the openers. -/
def needles : List (List Char) :=
  match active with
  | some active => [active.close]
  | none => openers specs

/-- Text before the next delimiter belongs to the content of the active tag. -/
def absorb (text : List Char) : Option (ActiveTag T) :=
  active.map fun active => { active with content := active.content ++ text }

/-- Text before the next delimiter is visible where no tag is active. -/
def shown (text : List Char) : InlineTagChunk T :=
  match active with
  | some _ => .empty
  | none => ⟨text, []⟩

/-- The active tag behind the delimiter with this number. -/
def switched (i : ℕ) : Option (ActiveTag T) :=
  match active with
  | some _ => none
  | none => specs[i]?.map fun spec => ⟨spec.tag, spec.close, []⟩

def reported : InlineTagChunk T :=
  match active with
  | some active => ⟨[], [⟨active.tag, active.content⟩]⟩
  | none => .empty

variable {specs active} {x y t p v needle : List Char} {i : ℕ}

theorem needles_absorb (t : List Char) :
    needles specs (absorb active t) = needles specs active := by
  cases active <;> rfl

theorem switched_absorb (t : List Char) :
    switched specs (absorb active t) i = switched specs active i := by
  cases active <;> rfl

theorem shown_append (t u : List Char) :
    (shown active t).append (shown (absorb active t) u) = shown active (t ++ u) := by
  cases active <;> rfl

theorem absorb_absorb (t u : List Char) : absorb (absorb active t) u = absorb active (t ++ u) := by
  cases active with
  | none => rfl
  | some active => simp [absorb]

section
variable (specs active) (pending : List Char)

theorem exists_earliest_or_clear :
    (∃ x i, Earliest (needles specs active) pending x i) ∨
      Clear (needles specs active) pending := by
  cases active with
  | some active =>
    rcases find_spec active.close pending with ⟨-, hclear⟩ | ⟨x, -, hearliest⟩
    · exact .inr hclear
    · exact .inl ⟨x, 0, hearliest⟩
  | none =>
    rcases findNextOpen_spec ⟨specs, pending, none⟩ with ⟨-, hclear⟩ | ⟨x, i, -, hearliest⟩
    · exact .inr hclear
    · exact .inl ⟨x, i, hearliest⟩

theorem exists_held : ∃ p, Held (needles specs active) pending p := by
  cases active with
  | some active =>
    obtain ⟨p, hheld, -⟩ := exists_held_singleton pending active.close
    exact ⟨p, hheld⟩
  | none =>
    obtain ⟨p, hheld, -⟩ := exists_held_openers ⟨specs, pending, none⟩
    exact ⟨p, hheld⟩

end

namespace InlineHiddenTagParser

theorem pass_found (h : Earliest (needles specs active) (x ++ needle ++ y) x i)
    (hneedle : (needles specs active)[i]? = some needle) :
    pass ⟨specs, x ++ needle ++ y, active⟩ = some (.again ⟨specs, y, switched specs active i⟩
      ((shown active x).append (reported (absorb active x)))) := by
  have hhead : splitAtByte (x ++ needle ++ y) (utf8Len x) = some (x, needle ++ y) := by
    rw [append_assoc, splitAtByte_utf8Len]
  have hrest : splitAtByte (x ++ needle ++ y) (utf8Len x + utf8Len needle) =
      some (x ++ needle, y) := by
    rw [← utf8Len_append, splitAtByte_utf8Len]
  rw [pass]
  cases active with
  | some active =>
    obtain ⟨rfl, -⟩ := occursAt_singleton.mp h.occurs
    cases hneedle
    dsimp only
    rw [passActive, find_eq_some h]
    dsimp only
    rw [hhead, hrest]
    rfl
  | none =>
    obtain ⟨spec, hspec, rfl⟩ := getElem?_openers hneedle
    have hfind : findNextOpen ⟨specs, x ++ spec.opener ++ y, none⟩ = some (utf8Len x, i) :=
      findNextOpen_eq_some h
    rw [passInactive, hfind]
    dsimp only
    rw [hspec]
    dsimp only
    rw [hrest, switched, hspec]
    simp [shown, reported, absorb, StreamTextChunk.append, StreamTextChunk.empty]

theorem pass_held (hclear : Clear (needles specs active) (t ++ p))
    (hheld : Held (needles specs active) (t ++ p) p) :
    pass ⟨specs, t ++ p, active⟩ = some (.stop ⟨specs, p, absorb active t⟩ (shown active t)) := by
  have htake : utf8Len (t ++ p) - utf8Len p = utf8Len t := by
    rw [utf8Len_append, Nat.add_sub_cancel]
  rw [pass]
  cases active with
  | some active =>
    obtain ⟨p', hheld', hkeep⟩ := exists_held_singleton (t ++ p) active.close
    rw [← hheld.unique hheld'] at hkeep
    dsimp only
    rw [passActive, find_eq_none hclear]
    dsimp only
    rw [← hkeep, htake]
    split
    · rw [splitAtByte_utf8Len]
      rfl
    · next hzero =>
      have ht : t = [] := utf8Len_eq_zero.mp (by omega)
      subst ht
      simp [absorb, shown]
  | none =>
    obtain ⟨p', hheld', hkeep⟩ := exists_held_openers ⟨specs, t ++ p, none⟩
    rw [← hheld.unique hheld'] at hkeep
    have hfind : findNextOpen ⟨specs, t ++ p, none⟩ = none := findNextOpen_eq_none hclear
    rw [passInactive, hfind]
    rw [drainVisibleToSuffixMatch, ← hkeep]
    dsimp only
    rw [htake]
    split
    · next hzero =>
      have ht : t = [] := utf8Len_eq_zero.mp hzero
      subst ht
      rfl
    · rw [splitAtByte_utf8Len]
      rfl

variable (specs active) in
/-- What one pass does: it finds the delimiter that counts, or holds back the end of the text. -/
theorem pass_cases (pending : List Char) :
    (∃ x needle y i, pending = x ++ needle ++ y ∧ Earliest (needles specs active) pending x i ∧
        (needles specs active)[i]? = some needle ∧
        pass ⟨specs, pending, active⟩ = some (.again ⟨specs, y, switched specs active i⟩
          ((shown active x).append (reported (absorb active x))))) ∨
      ∃ t p, pending = t ++ p ∧ Clear (needles specs active) pending ∧
        Held (needles specs active) pending p ∧
        pass ⟨specs, pending, active⟩ =
          some (.stop ⟨specs, p, absorb active t⟩ (shown active t)) := by
  rcases exists_earliest_or_clear specs active pending with ⟨x, i, hearliest⟩ | hclear
  · obtain ⟨needle, hneedle, y, rfl⟩ := hearliest.occurs
    exact .inl ⟨x, needle, y, i, rfl, hearliest, hneedle, pass_found hearliest hneedle⟩
  · obtain ⟨p, hheld⟩ := exists_held specs active pending
    obtain ⟨t, rfl⟩ := hheld.isSuffix
    exact .inr ⟨t, p, rfl, hclear, hheld, pass_held hclear hheld⟩

section Continuations

variable {pending : List Char} {after : InlineHiddenTagParser T} {out : InlineTagChunk T}

def extend (parser : InlineHiddenTagParser T) (text : List Char) : InlineHiddenTagParser T :=
  { parser with pending := parser.pending ++ text }

/-- Delimiters that `new` accepts. -/
structure Accepted (specs : List (InlineTagSpec T)) (active : Option (ActiveTag T)) : Prop where
  specs : ∀ spec ∈ specs, spec.opener ≠ [] ∧ spec.close ≠ []
  active : ∀ tag, active = some tag → tag.close ≠ []

section
variable (h : Accepted specs active)
include h

theorem Accepted.needles_ne_nil : ∀ a ∈ needles specs active, a ≠ [] := by
  intro a ha
  cases active with
  | some active =>
    cases mem_singleton.mp ha
    exact h.active active rfl
  | none =>
    obtain ⟨spec, hspec, rfl⟩ := mem_map.mp ha
    exact (h.specs spec hspec).1

theorem Accepted.separable (hsep : Separable (openers specs)) :
    Separable (needles specs active) := by
  cases active with
  | some active => exact separable_singleton (h.active active rfl)
  | none => exact hsep

theorem Accepted.switched (i : ℕ) : Accepted specs (switched specs active i) := by
  refine ⟨h.specs, fun tag htag => ?_⟩
  cases active with
  | some active => cases htag
  | none =>
    obtain ⟨spec, hspec, rfl⟩ := map_eq_some_iff.mp htag
    exact (h.specs spec (mem_of_getElem? hspec)).2

theorem Accepted.absorb (t : List Char) : Accepted specs (absorb active t) := by
  refine ⟨h.specs, fun tag htag => ?_⟩
  obtain ⟨old, hold, rfl⟩ := map_eq_some_iff.mp htag
  exact h.active old hold

end

/-- A pass that found a delimiter finds it in every continuation. -/
theorem pass_extend_again (haccepted : Accepted specs active) (hsep : Separable (openers specs))
    (hpass : pass ⟨specs, pending, active⟩ = some (.again after out)) (v : List Char) :
    pass ⟨specs, pending ++ v, active⟩ = some (.again (after.extend v) out) := by
  rcases pass_cases specs active pending with ⟨x, needle, y, i, rfl, hearliest, hneedle, hagain⟩ |
    ⟨t, p, -, -, -, hstop⟩
  · rw [hagain] at hpass
    cases hpass
    have hextended := hearliest.append haccepted.needles_ne_nil (haccepted.separable hsep) v
    rw [append_assoc] at hextended ⊢
    exact pass_found hextended hneedle
  · rw [hstop] at hpass
    cases hpass

/-- Puts earlier output before that of a pass. -/
def Pass.behind (out : InlineTagChunk T) : Pass T → Pass T
  | .again parser next => .again parser (out.append next)
  | .stop parser next => .stop parser (out.append next)

/-- A pass that stopped can be taken up with more text. -/
theorem pass_extend_stop (hpass : pass ⟨specs, pending, active⟩ = some (.stop after out))
    (v : List Char) :
    pass ⟨specs, pending ++ v, active⟩ = (after.extend v).pass.map (Pass.behind out) := by
  rcases pass_cases specs active pending with ⟨x, needle, y, i, -, -, -, hagain⟩ |
    ⟨t, p, rfl, hclear, hheld, hstop⟩
  · rw [hagain] at hpass
    cases hpass
  · rw [hstop] at hpass
    cases hpass
    rw [extend]
    rcases pass_cases specs (HiddenTags.absorb active t) (p ++ v) with
      ⟨x, needle, y, i, hpending, hearliest, hneedle, hagain⟩ |
      ⟨t', p', hpending, hclear', hheld', hstop⟩
    · rw [needles_absorb] at hearliest hneedle
      have hshifted := earliest_append hclear hheld hearliest
      rw [hagain, append_assoc, hpending]
      rw [append_assoc, hpending] at hshifted
      simp only [← append_assoc] at hshifted ⊢
      rw [pass_found hshifted hneedle, switched_absorb, absorb_absorb, map_some, Pass.behind,
        ← StreamTextChunk.append_assoc, shown_append]
    · rw [needles_absorb] at hclear' hheld'
      have hshiftedClear := clear_append hclear hheld hclear'
      have hshiftedHeld := held_append hheld hheld'
      rw [hstop, append_assoc, hpending]
      rw [append_assoc, hpending, ← append_assoc] at hshiftedClear hshiftedHeld
      rw [← append_assoc, pass_held hshiftedClear hshiftedHeld, absorb_absorb,
        map_some, Pass.behind, shown_append]

end Continuations

section Loops

variable {parser after : InlineHiddenTagParser T} {out : InlineTagChunk T}

/-- The loop with as many passes as it may need. -/
def scan (parser : InlineHiddenTagParser T) : Option (InlineHiddenTagParser T × InlineTagChunk T) :=
  pushLoop (parser.pending.length + 1) parser

def behind (out : InlineTagChunk T) (result : InlineHiddenTagParser T × InlineTagChunk T) :
    InlineHiddenTagParser T × InlineTagChunk T :=
  (result.1, out.append result.2)

theorem pass_again_shrinks (haccepted : Accepted specs active) {pending : List Char}
    (hpass : pass ⟨specs, pending, active⟩ = some (.again after out)) :
    after.specs = specs ∧ after.pending.length < pending.length ∧ Accepted specs after.active := by
  rcases pass_cases specs active pending with ⟨x, needle, y, i, rfl, -, hneedle, hagain⟩ |
    ⟨t, p, -, -, -, hstop⟩
  · rw [hagain] at hpass
    cases hpass
    have hpos := length_pos_iff.mpr (haccepted.needles_ne_nil needle (mem_of_getElem? hneedle))
    refine ⟨rfl, ?_, haccepted.switched i⟩
    rw [length_append, length_append]
    dsimp only
    omega
  · rw [hstop] at hpass
    cases hpass

theorem pushLoop_eq_scan {bound : ℕ} (haccepted : Accepted parser.specs parser.active)
    (hbound : parser.pending.length < bound) : pushLoop bound parser = scan parser := by
  have hmore (few many : ℕ) (parser : InlineHiddenTagParser T)
      (haccepted : Accepted parser.specs parser.active) (hfew : parser.pending.length < few)
      (hmany : parser.pending.length < many) : pushLoop few parser = pushLoop many parser := by
    induction few generalizing many parser with
    | zero => exact absurd hfew (Nat.not_lt_zero _)
    | succ few ih =>
      cases many with
      | zero => exact absurd hmany (Nat.not_lt_zero _)
      | succ many =>
        rw [pushLoop, pushLoop]
        cases hpass : parser.pass with
        | none => rfl
        | some result =>
          cases result with
          | stop after out => rfl
          | again after out =>
            obtain ⟨hspecs, hlength, hafter⟩ := pass_again_shrinks haccepted hpass
            rw [← hspecs] at hafter
            dsimp only
            rw [ih many after hafter (by omega) (by omega)]
  exact hmore bound _ parser haccepted hbound (Nat.lt_succ_self _)

theorem scan_eq (haccepted : Accepted parser.specs parser.active) :
    scan parser = match parser.pass with
      | none => none
      | some (.stop after out) => some (after, out)
      | some (.again after out) => (scan after).map (behind out) := by
  rw [scan, pushLoop]
  cases hpass : parser.pass with
  | none => rfl
  | some result =>
    cases result with
    | stop after out => rfl
    | again after out =>
      obtain ⟨hspecs, hlength, hafter⟩ := pass_again_shrinks haccepted hpass
      rw [← hspecs] at hafter
      dsimp only
      rw [pushLoop_eq_scan hafter hlength]
      rfl

theorem exists_scan (parser : InlineHiddenTagParser T)
    (haccepted : Accepted parser.specs parser.active) :
    ∃ after out, scan parser = some (after, out) ∧ after.specs = parser.specs ∧
      Accepted parser.specs after.active := by
  induction hn : parser.pending.length using Nat.strong_induction_on generalizing parser with
  | _ n ih =>
    rw [scan_eq haccepted]
    rcases pass_cases parser.specs parser.active parser.pending with
      ⟨x, needle, y, i, -, -, -, hagain⟩ | ⟨t, p, -, -, -, hstop⟩
    · obtain ⟨-, hlength, hafter⟩ := pass_again_shrinks haccepted hagain
      obtain ⟨after, out, hscan, hspecs, hactive⟩ := ih _ (hn ▸ hlength) _ hafter rfl
      rw [hagain]
      dsimp only
      rw [hscan]
      exact ⟨after, _, rfl, hspecs, hactive⟩
    · rw [hstop]
      exact ⟨_, _, rfl, rfl, haccepted.absorb t⟩

theorem map_behind (out next : InlineTagChunk T)
    (result : Option (InlineHiddenTagParser T × InlineTagChunk T)) :
    result.map (behind (out.append next)) = (result.map (behind next)).map (behind out) := by
  cases result with
  | none => rfl
  | some result => simp [behind, StreamTextChunk.append_assoc]

/-- A scan can be taken up with more text. -/
theorem scan_extend (haccepted : Accepted parser.specs parser.active)
    (hsep : Separable (openers parser.specs)) (hscan : scan parser = some (after, out))
    (v : List Char) : scan (parser.extend v) = (scan (after.extend v)).map (behind out) := by
  induction hn : parser.pending.length using Nat.strong_induction_on generalizing parser out with
  | _ n ih =>
    have hextended : Accepted (parser.extend v).specs (parser.extend v).active := haccepted
    rw [scan_eq haccepted] at hscan
    rw [scan_eq hextended]
    cases hpass : parser.pass with
    | none =>
      rw [hpass] at hscan
      cases hscan
    | some result =>
      rw [hpass] at hscan
      cases result with
      | again next first =>
        obtain ⟨hspecs, hlength, hnext⟩ := pass_again_shrinks haccepted hpass
        obtain ⟨⟨_, rest⟩, hrest, heq⟩ := map_eq_some_iff.mp hscan
        cases heq
        rw [← hspecs] at hnext hsep
        have hpassed : (parser.extend v).pass = some (.again (next.extend v) first) :=
          pass_extend_again haccepted (hspecs ▸ hsep) hpass v
        rw [hpassed]
        dsimp only
        rw [ih _ (hn ▸ hlength) hnext hsep hrest rfl, map_behind]
      | stop next first =>
        cases hscan
        have hafter : Accepted (after.extend v).specs (after.extend v).active := by
          rcases pass_cases parser.specs parser.active parser.pending with
            ⟨x, needle, y, i, -, -, -, hagain⟩ | ⟨t, p, -, -, -, hstop⟩
          · cases hagain.symm.trans hpass
          · cases hstop.symm.trans hpass
            exact haccepted.absorb t
        have hpassed : (parser.extend v).pass = (after.extend v).pass.map (Pass.behind out) :=
          pass_extend_stop hpass v
        rw [hpassed, scan_eq hafter]
        cases (after.extend v).pass with
        | none => rfl
        | some result =>
          cases result with
          | stop last final => rfl
          | again last final => exact map_behind out final (scan last)

end Loops

section Chunks

variable {parser : InlineHiddenTagParser T}
variable (haccepted : Accepted parser.specs parser.active)
include haccepted

theorem pushStr_eq_scan (chunk : List Char) :
    parser.pushStr chunk = scan (parser.extend chunk) := by
  refine pushLoop_eq_scan haccepted ?_
  rw [length_append]
  exact Nat.lt_succ_self _

theorem collectChunks_singleton
    (text : List Char) : parser.collectChunks [text] =
      (scan (parser.extend text)).map fun (after, out) => out.append after.finish.2 := by
  rw [collectChunks, pushStr_eq_scan haccepted]
  cases scan (parser.extend text) <;> rfl

theorem collectChunks_flatten
    (hsep : Separable (openers parser.specs)) (chunk : List Char) (chunks : List (List Char)) :
    parser.collectChunks (chunk :: chunks) = parser.collectChunks [chunk ++ chunks.flatten] := by
  induction chunks generalizing parser chunk with
  | nil => rw [flatten_nil, append_nil]
  | cons next chunks ih =>
    obtain ⟨after, out, hscan, hspecs, hafter⟩ :=
      exists_scan (parser.extend chunk) haccepted
    change after.specs = parser.specs at hspecs
    change Accepted parser.specs after.active at hafter
    rw [collectChunks, pushStr_eq_scan haccepted, hscan]
    dsimp only
    rw [← hspecs] at hafter
    rw [ih hafter (hspecs ▸ hsep), collectChunks_singleton hafter,
      collectChunks_singleton haccepted]
    have hextended : parser.extend (chunk ++ (next :: chunks).flatten) =
        (parser.extend chunk).extend (next ++ chunks.flatten) := by
      rw [extend, extend, extend, append_assoc, flatten_cons]
    rw [hextended, @scan_extend _ (parser.extend chunk) _ _ haccepted hsep hscan]
    cases scan (after.extend (next ++ chunks.flatten)) with
    | none => rfl
    | some result => simp [behind, StreamTextChunk.append_assoc]

end Chunks

end InlineHiddenTagParser

end Passes

end DeepseekX.HiddenTags
