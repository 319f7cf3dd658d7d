import DeepseekX.HiddenTagPasses

/-!
# Hidden tags and the division of the text

The output for a text depends on its division into pieces exactly where an opener lies inside
another one before its last character: it is taken for a tag before the longer one is
complete.
-/

namespace DeepseekX.HiddenTags.InlineHiddenTagParser
open ByteSlices Delimiters InlineHiddenTagParser List

variable {T : Type} {specs : List (InlineTagSpec T)} {parser : InlineHiddenTagParser T}

theorem forM_checkSpec (h : specs.forM checkSpec = .ok ()) :
    ∀ spec ∈ specs, spec.opener ≠ [] ∧ spec.close ≠ [] := by
  induction specs with
  | nil => exact nofun
  | cons first specs ih =>
    rw [forM_eq_forM, forM_cons] at h
    unfold checkSpec at h
    split at h
    · cases h
    · next hopener =>
      split at h
      · cases h
      · next hclose =>
        rw [forall_mem_cons]
        exact ⟨⟨hopener, hclose⟩, ih h⟩

theorem new_eq_ok (h : new specs = .ok parser) :
    parser = ⟨specs, [], none⟩ ∧ Accepted specs none := by
  unfold new at h
  split at h
  · cases h
  · cases hcheck : specs.forM checkSpec with
    | error message =>
      rw [hcheck] at h
      cases h
    | ok _ =>
      rw [hcheck] at h
      cases h
      exact ⟨rfl, forM_checkSpec hcheck, nofun⟩

section Dependence

variable {active : ActiveTag T}

theorem clear_nil {needles : List (List Char)} (hne : ∀ a ∈ needles, a ≠ []) :
    Clear needles [] := by
  rintro x i ⟨needle, hneedle, hprefix⟩
  have hnil := (append_eq_nil_iff.mp (prefix_nil.mp hprefix)).2
  exact hne needle (mem_of_getElem? hneedle) hnil

theorem held_nil (needles : List (List Char)) : Held needles [] [] :=
  ⟨suffix_rfl, nofun, fun _ hq _ => hq⟩

theorem scan_nil {active : Option (ActiveTag T)} (haccepted : Accepted specs active) :
    scan ⟨specs, [], active⟩ = some (⟨specs, [], absorb active []⟩, shown active []) := by
  have hpass := @pass_held _ specs active [] [] (clear_nil haccepted.needles_ne_nil) (held_nil _)
  rw [append_nil] at hpass
  rw [scan_eq haccepted, hpass]

/-- The content of a tag ends at its closing delimiter, or is the whole text. -/
theorem collectChunks_active (haccepted : Accepted specs (some active)) (text : List Char) :
    ∃ content rest out, text = content ++ rest ∧ (rest = [] ∨ active.close <+: rest) ∧
      collectChunks ⟨specs, [], some active⟩ [text] = some out ∧
      out.extracted.head? = some ⟨active.tag, active.content ++ content⟩ ∧
      (rest = [] → out = ⟨[], [⟨active.tag, active.content ++ content⟩]⟩) := by
  have hscan : scan (extend ⟨specs, [], some active⟩ text) = _ := scan_eq haccepted
  rw [collectChunks_singleton haccepted, hscan]
  rcases pass_cases specs (some active) text with ⟨x, needle, y, i, rfl, -, hneedle, hagain⟩ |
    ⟨t, p, rfl, -, -, hstop⟩
  · have hclose : active.close = needle := by
      cases i with
      | zero => exact Option.some.inj hneedle
      | succ i => cases hneedle
    obtain ⟨after, out, hrest, -⟩ := exists_scan ⟨specs, y, switched specs (some active) i⟩
      (haccepted.switched i)
    have hpass : (extend ⟨specs, [], some active⟩ (x ++ needle ++ y)).pass = _ := hagain
    rw [hpass]
    dsimp only
    rw [hrest]
    refine ⟨x, needle ++ y, _, append_assoc .., .inr ?_, rfl, rfl, fun hnil => ?_⟩
    · rw [hclose]
      exact prefix_append needle y
    · exact absurd (hclose.trans (append_eq_nil_iff.mp hnil).1) (haccepted.active active rfl)
  · have hpass : (extend ⟨specs, [], some active⟩ (t ++ p)).pass = _ := hstop
    rw [hpass]
    refine ⟨t ++ p, [], _, (append_nil _).symm, .inl rfl, rfl, ?_, fun _ => ?_⟩
    · simp [StreamTextChunk.append, shown, absorb, finish, StreamTextChunk.empty]
    · simp [StreamTextChunk.append, shown, absorb, finish, StreamTextChunk.empty]

theorem collectChunks_opener (haccepted : Accepted specs none) {x needle y : List Char} {i : ℕ}
    (h : Earliest (openers specs) (x ++ needle ++ y) x i)
    (hneedle : (openers specs)[i]? = some needle) :
    collectChunks ⟨specs, [], none⟩ [x ++ needle ++ y] =
      (collectChunks ⟨specs, [], switched specs none i⟩ [y]).map
        (StreamTextChunk.append ⟨x, []⟩) := by
  have hscan : scan (extend ⟨specs, [], none⟩ (x ++ needle ++ y)) = _ := scan_eq haccepted
  have hpass : pass (extend ⟨specs, [], none⟩ (x ++ needle ++ y)) = _ := pass_found h hneedle
  rw [collectChunks_singleton haccepted, hscan, hpass,
    @collectChunks_singleton _ ⟨specs, [], switched specs none i⟩ (haccepted.switched i)]
  dsimp only [extend, nil_append]
  cases scan ⟨specs, y, switched specs none i⟩ with
  | none => rfl
  | some result => simp [behind, StreamTextChunk.append, shown, reported, absorb,
      StreamTextChunk.empty]

theorem head?_of_begin {start text : List Char} (h : start <+: text) (hne : start ≠ []) :
    start.head? = text.head? := by
  obtain ⟨rest, rfl⟩ := h
  exact (head?_append_of_ne_nil start hne).symm

theorem exists_char_ne (first second : Option Char) : ∃ z, first ≠ some z ∧ second ≠ some z := by
  by_cases ha : first = some 'a' ∨ second = some 'a'
  · by_cases hb : first = some 'b' ∨ second = some 'b'
    · refine ⟨'c', ?_⟩
      rcases ha with rfl | rfl <;> rcases hb with hb | hb <;> simp_all
    · exact ⟨'b', not_or.mp hb⟩
  · exact ⟨'a', not_or.mp ha⟩

theorem switched_openers {i : ℕ} {needle : List Char} (h : (openers specs)[i]? = some needle) :
    ∃ spec ∈ specs, switched specs none i = some ⟨spec.tag, spec.close, []⟩ := by
  obtain ⟨spec, hspec, -⟩ := getElem?_openers h
  refine ⟨spec, mem_of_getElem? hspec, ?_⟩
  rw [switched, hspec]
  rfl

/-- A text whose first piece ends with the inner one of two openers. -/
theorem exists_dependent_chunks (haccepted : Accepted specs none)
    (hnested : ¬Separable (openers specs)) :
    ∃ chunks, collectChunks ⟨specs, [], none⟩ chunks ≠
      collectChunks ⟨specs, [], none⟩ [chunks.flatten] := by
  obtain ⟨b, hb, hlongest⟩ := exists_longest_nested hnested
  -- The outer opener counts in its own text, the inner one in the text without the last character.
  obtain ⟨x, i, hwhole⟩ : ∃ x i, Earliest (openers specs) b x i := by
    refine (exists_earliest_or_clear specs none b).resolve_right fun hclear => ?_
    obtain ⟨k, hk⟩ := mem_iff_getElem?.mp hb.1
    exact hclear [] k ⟨b, hk, prefix_rfl⟩
  obtain ⟨w, j, hinner⟩ : ∃ w j, Earliest (openers specs) b.dropLast w j := by
    refine (exists_earliest_or_clear specs none b.dropLast).resolve_right fun hclear => ?_
    obtain ⟨a, ha, u, v, hab⟩ := hb.2
    obtain ⟨k, hk⟩ := mem_iff_getElem?.mp ha
    exact hclear u k ⟨a, hk, v, hab⟩
  obtain ⟨c, hc, r, hcr⟩ := hinner.occurs
  obtain ⟨spec, hspec, hswitched⟩ := switched_openers hc
  have hb' : b ≠ [] := by
    obtain ⟨spec, hspec, rfl⟩ := mem_map.mp hb.1
    exact (haccepted.specs spec hspec).1
  obtain ⟨last, hlast⟩ : ∃ last, b = w ++ c ++ (r ++ [last]) := by
    refine ⟨b.getLast hb', ?_⟩
    rw [← append_assoc, hcr, dropLast_concat_getLast]
  obtain ⟨-, hi, -⟩ := exists_earliest_nested hb hlongest hwhole 'a'
  obtain ⟨outer, houter, houterSwitched⟩ := switched_openers hi
  obtain ⟨z, hz, hz'⟩ := exists_char_ne outer.close.head? (r ++ [last]).head?
  obtain ⟨rfl, -, hextended⟩ := exists_earliest_nested hb hlongest hwhole z
  refine ⟨[w ++ c, r ++ [last] ++ [z]], fun heq => ?_⟩
  have hflatten : [w ++ c, r ++ [last] ++ [z]].flatten = [] ++ b ++ [z] := by
    rw [hlast]
    simp
  have hwholeOut : collectChunks ⟨specs, [], none⟩ [[] ++ b ++ [z]] =
      some ⟨[], [⟨outer.tag, [z]⟩]⟩ := by
    rw [collectChunks_opener haccepted hextended hi, houterSwitched]
    have hactive := haccepted.switched i
    rw [houterSwitched] at hactive
    obtain ⟨content, rest, out, htext, hrest, hout, -, hall⟩ := collectChunks_active hactive [z]
    have hnil : rest = [] := by
      rcases append_eq_singleton_iff.mp htext.symm with ⟨-, rfl⟩ | ⟨-, hnil⟩
      · refine hrest.resolve_right fun hclose => hz ?_
        exact head?_of_begin hclose (haccepted.specs outer houter).2
      · exact hnil
    subst hnil
    rw [hout, hall rfl, ← append_nil content, ← htext]
    rfl
  have hfirst : pushStr ⟨specs, [], none⟩ (w ++ c) =
      some (⟨specs, [], some ⟨spec.tag, spec.close, []⟩⟩, ⟨w, []⟩) := by
    have hshort := hinner.of_prefix hc prefix_rfl ⟨r, hcr⟩
    have hpass := @pass_found _ specs none w [] c j
    rw [append_nil] at hpass
    have hscan : scan (extend ⟨specs, [], none⟩ (w ++ c)) = _ := scan_eq haccepted
    have hpassed : pass (extend ⟨specs, [], none⟩ (w ++ c)) = _ := hpass hshort hc
    rw [pushStr_eq_scan haccepted, hscan, hpassed]
    dsimp only
    rw [scan_nil (haccepted.switched j), hswitched]
    simp [behind, StreamTextChunk.append, shown, reported, absorb, StreamTextChunk.empty]
  have hactive := haccepted.switched j
  rw [hswitched] at hactive
  obtain ⟨content, rest, out, htext, hrest, hout, hhead, hall⟩ :=
    collectChunks_active hactive (r ++ [last] ++ [z])
  rw [hflatten, hwholeOut, collectChunks, hfirst] at heq
  dsimp only at heq
  rw [hout] at heq
  have hextracted := congrArg StreamTextChunk.extracted (Option.some.inj heq)
  rw [StreamTextChunk.append, nil_append] at hextracted
  rw [hextracted, head?_cons, Option.some.injEq] at hhead
  have hcontent : [z] = content := congrArg ExtractedInlineTag.content hhead
  refine hz' ?_
  have hstart : r ++ [last] <+: content ++ rest := ⟨[z], htext⟩
  rw [head?_of_begin hstart (append_ne_nil_of_right_ne_nil r (cons_ne_nil last [])), ← hcontent]
  rfl

end Dependence

theorem exists_collectChunks (haccepted : Accepted specs none) (hsep : Separable (openers specs))
    (chunks : List (List Char)) : ∃ out, collectChunks ⟨specs, [], none⟩ chunks = some out ∧
      collectChunks ⟨specs, [], none⟩ [chunks.flatten] = some out := by
  obtain ⟨after, out, hscan, -⟩ :=
    exists_scan (extend ⟨specs, [], none⟩ chunks.flatten) haccepted
  have hwhole := @collectChunks_singleton _ ⟨specs, [], none⟩ haccepted chunks.flatten
  rw [hscan] at hwhole
  cases chunks with
  | nil =>
    cases hscan.symm.trans (scan_nil haccepted)
    exact ⟨_, rfl, hwhole⟩
  | cons chunk chunks =>
    refine ⟨_, ?_, hwhole⟩
    rw [collectChunks_flatten haccepted hsep]
    exact hwhole

/-- No division of a text changes its output, and no push panics, exactly where no opener lies
inside another one before its last character. -/
theorem chunking_irrelevant_iff (hnew : new specs = .ok parser) :
    (∀ text chunks, chunks.flatten = text → ∃ out, parser.collectChunks chunks = some out ∧
        parser.collectChunks [text] = some out) ↔ Separable (openers specs) := by
  obtain ⟨rfl, haccepted⟩ := new_eq_ok hnew
  constructor
  · intro h
    by_contra hnested
    obtain ⟨chunks, hne⟩ := exists_dependent_chunks haccepted hnested
    obtain ⟨out, hchunks, hwhole⟩ := h _ chunks rfl
    exact hne (hchunks.trans hwhole.symm)
  · rintro hsep _ chunks rfl
    exact exists_collectChunks haccepted hsep chunks

def separateTags : List (InlineTagSpec ℕ) :=
  [⟨0, ['<', 'a', '>'], ['<', '/', 'a', '>']⟩, ⟨1, ['<', 'a', 'b', '>'], ['<', '/', 'a', 'b', '>']⟩]

theorem separateTags_chunking_irrelevant :
    Separable (openers separateTags) ∧ ∀ text chunks, chunks.flatten = text →
      ∃ out, collectChunks ⟨separateTags, [], none⟩ chunks = some out ∧
        collectChunks ⟨separateTags, [], none⟩ [text] = some out := by
  have hsep : Separable (openers separateTags) := by
    unfold Separable
    decide
  exact ⟨hsep, (@chunking_irrelevant_iff _ _ ⟨separateTags, [], none⟩ rfl).mpr hsep⟩

def nestedTags : List (InlineTagSpec ℕ) :=
  [⟨0, ['<', 'a'], ['>']⟩, ⟨1, ['<', 'a', 'b'], ['>']⟩]

/-- The longer opener is preferred only where it is complete in time. -/
theorem nestedTags_depend_on_chunks :
    new nestedTags = .ok ⟨nestedTags, [], none⟩ ∧
      collectChunks ⟨nestedTags, [], none⟩ [['<', 'a', 'b', 'c', '>']] = some ⟨[], [⟨1, ['c']⟩]⟩ ∧
      collectChunks ⟨nestedTags, [], none⟩ [['<', 'a'], ['b', 'c', '>']] =
        some ⟨[], [⟨0, ['b', 'c']⟩]⟩ := by
  refine ⟨rfl, ?_, ?_⟩ <;> decide +kernel

end DeepseekX.HiddenTags.InlineHiddenTagParser
