import DeepseekX.McpTools
import Mathlib.Data.List.Dedup

/-!
# Uniqueness and stability of the model-visible names

Every step keeps the names made of letters, digits and underscores, the last one keeps them
short and free. What the steps do to a tool depends on the set of the tools only, and the order
in which names are given out is that of the identities.
-/

namespace DeepseekX.McpTools
open String (utf8Len)
open List
open ToolInfo
open StableSorting

def IsNameChar (c : Char) : Prop := c.isAlphanum = true ∨ c = '_'

def IsName (name : List Char) : Prop := ∀ c ∈ name, IsNameChar c

theorem isAlphanum_iff {c : Char} : c.isAlphanum = true ↔
    (65 ≤ c.val ∧ c.val ≤ 90 ∨ 97 ≤ c.val ∧ c.val ≤ 122) ∨ 48 ≤ c.val ∧ c.val ≤ 57 := by
  change (decide (65 ≤ c.val ∧ c.val ≤ 90) || decide (97 ≤ c.val) && decide (c.val ≤ 122) ||
    decide (48 ≤ c.val) && decide (c.val ≤ 57)) = true ↔ _
  simp

theorem utf8Size_of_isNameChar {c : Char} (h : IsNameChar c) : c.utf8Size = 1 := by
  rw [Char.utf8Size_eq_one_iff]
  rcases h with h | rfl
  · rw [isAlphanum_iff] at h
    simp only [UInt32.le_iff_toNat_le, UInt32.reduceToNat] at h ⊢
    omega
  · decide

theorem utf8Len_of_isName {name : List Char} (h : IsName name) : utf8Len name = name.length := by
  induction name with
  | nil => rfl
  | cons c name ih =>
    obtain ⟨hc, hname⟩ := forall_mem_cons.mp h
    rw [String.utf8Len_cons, ih hname, utf8Size_of_isNameChar hc, length_cons]

theorem isName_append {name other : List Char} (h : IsName name) (h' : IsName other) :
    IsName (name ++ other) :=
  fun c hc => (mem_append.mp hc).elim (h c) (h' c)

theorem IsName.take {name : List Char} (h : IsName name) (n : ℕ) : IsName (name.take n) :=
  fun c hc => h c (mem_of_mem_take hc)

theorem isName_sanitize (name : List Char) : IsName (sanitizeResponsesApiToolName name) := by
  unfold sanitizeResponsesApiToolName
  intro c hc
  dsimp only at hc
  split at hc
  · exact .inr (mem_singleton.mp hc)
  · obtain ⟨d, -, rfl⟩ := mem_map.mp hc
    unfold sanitizeChar
    split
    next hd => simpa [IsNameChar] using hd
    next => exact .inr rfl

variable {δ : Type*} {sha1 : Sha1} {used : List (List Char)}

section Suffixes
variable {ns name identity : List Char}

theorem isName_suffix (identity : List Char) : IsName (callableNameHashSuffix sha1 identity) := by
  refine forall_mem_cons.mpr ⟨.inr rfl, fun c hc => ?_⟩
  rcases sha1.hex_digits identity c (mem_of_mem_take hc) with hdigit | ⟨ha, hf⟩
  · exact .inl (by simp [Char.isAlphanum, hdigit])
  · have hz : c.val ≤ 122 := Nat.le_trans (m := 'f'.toNat) hf (by decide)
    exact .inl (isAlphanum_iff.mpr (.inl (.inr ⟨ha, hz⟩)))

theorem length_suffix (identity : List Char) :
    (callableNameHashSuffix sha1 identity).length = 13 := by
  simp [callableNameHashSuffix, callableNameHashLen, sha1.length_hex]

theorem isName_appendHashSuffix (h : IsName name) (identity : List Char) :
    IsName (appendHashSuffix sha1 name identity) :=
  isName_append h (isName_suffix identity)

theorem isName_appendNamespaceHashSuffix (h : IsName ns) (identity : List Char) :
    IsName (appendNamespaceHashSuffix sha1 ns identity) := by
  unfold appendNamespaceHashSuffix
  split
  · refine isName_append (isName_append (h.take _) (isName_suffix identity)) fun c hc => .inr ?_
    simpa [mcpToolNameDelimiter] using hc
  · exact isName_appendHashSuffix h identity

/-- The parts are a piece that only the lengths decide, and the suffix. -/
theorem fit_spec (hns : IsName ns) (hname : IsName name) :
    ∃ stem, IsName stem ∧ stem.length ≤ 51 ∧ ∀ identity,
      let parts := fitCallablePartsWithHash sha1 ns name identity
      parts.1 ++ parts.2 = stem ++ callableNameHashSuffix sha1 identity := by
  have hsuffix (identity : List Char) : utf8Len (callableNameHashSuffix sha1 identity) = 13 :=
    (utf8Len_of_isName (isName_suffix identity)).trans (length_suffix identity)
  by_cases hroom : maxToolNameLength - utf8Len ns ≥ 13
  · refine ⟨ns ++ truncateName name (maxToolNameLength - utf8Len ns - 13),
      isName_append hns (hname.take _), ?_, fun identity => ?_⟩
    · rw [utf8Len_of_isName hns] at hroom ⊢
      simp only [truncateName, maxToolNameLength, length_append, length_take] at hroom ⊢
      omega
    · simp [fitCallablePartsWithHash, hsuffix, if_pos hroom]
  · refine ⟨truncateName ns (maxToolNameLength - 13), hns.take _, ?_, fun identity => ?_⟩
    · simp only [truncateName, maxToolNameLength, length_take]
      omega
    · simp only [fitCallablePartsWithHash, hsuffix, if_neg hroom]

/-- The retry loop reaches an unused suffix as long as fewer than `n` are used. -/
def Sha1.Reaches (sha1 : Sha1) (n : ℕ) : Prop :=
  ∀ identity (used : List (List Char)), used.length < n →
    ∃ attempt < attempts, callableNameHashSuffix sha1 (hashInput identity attempt) ∉ used

variable {left attempt n : ℕ}

def attemptedName (sha1 : Sha1) (ns name identity : List Char) (attempt : ℕ) : List Char :=
  let parts := fitCallablePartsWithHash sha1 ns name (hashInput identity attempt)
  parts.1 ++ parts.2

theorem retry_of_unused
    (h : ∃ a, attempt ≤ a ∧ a < attempt + left ∧ attemptedName sha1 ns name identity a ∉ used) :
    ∃ a, retry sha1 ns name identity used left attempt =
      some (fitCallablePartsWithHash sha1 ns name (hashInput identity a)) := by
  induction left generalizing attempt with
  | zero =>
    omega
  | succ left ih =>
    unfold retry
    by_cases hused : attemptedName sha1 ns name identity attempt ∈ used
    · obtain ⟨a, hle, hlt, hunused⟩ := h
      have hne : attempt ≠ a := fun heq => hunused (heq ▸ hused)
      rw [attemptedName] at hused
      simp only [hused]
      exact ih ⟨a, by omega, by omega, hunused⟩
    · refine ⟨attempt, ?_⟩
      rw [attemptedName] at hused
      simp only [hused, if_false]

theorem exists_unused_attempt (hns : IsName ns) (hname : IsName name) (hreaches : sha1.Reaches n)
    (hused : used.length < n) (identity : List Char) :
    ∃ a, a < attempts ∧ attemptedName sha1 ns name identity a ∉ used := by
  obtain ⟨stem, -, -, hfit⟩ := @fit_spec sha1 ns name hns hname
  obtain ⟨a, ha, hunused⟩ := hreaches identity (used.map fun name => name.drop stem.length)
    (by rwa [length_map])
  refine ⟨a, ha, fun hmem => hunused (mem_map.mpr ⟨_, hmem, ?_⟩)⟩
  rw [attemptedName, hfit, drop_left]

theorem uniqueCallableParts_spec (hns : IsName ns) (hname : IsName name) (hreaches : sha1.Reaches n)
    (hused : used.length < n) (identity : List Char) :
    ∃ parts, uniqueCallableParts sha1 ns name identity used = some parts ∧
      IsName (parts.1 ++ parts.2) ∧ utf8Len (parts.1 ++ parts.2) ≤ maxToolNameLength := by
  unfold uniqueCallableParts
  dsimp only
  split
  next hfree => exact ⟨(ns, name), rfl, isName_append hns hname, hfree.1⟩
  next =>
    obtain ⟨b, hb, hunused⟩ := exists_unused_attempt hns hname hreaches hused identity
    obtain ⟨a, hretry⟩ :=
      retry_of_unused ⟨b, Nat.zero_le b, (Nat.zero_add attempts).symm ▸ hb, hunused⟩
    obtain ⟨stem, hstem, hlength, hfit⟩ := @fit_spec sha1 ns name hns hname
    refine ⟨_, hretry, ?_⟩
    have hparts := isName_append hstem (@isName_suffix sha1 (hashInput identity a))
    rw [hfit, utf8Len_of_isName hparts, length_append, length_suffix]
    exact ⟨hparts, Nat.add_le_add_right hlength 13⟩

theorem notMem_of_uniqueCallableParts {identity : List Char} {parts : List Char × List Char}
    (h : uniqueCallableParts sha1 ns name identity used = some parts) :
    parts.1 ++ parts.2 ∉ used := by
  have hretry (left attempt : ℕ)
      (h : retry sha1 ns name identity used left attempt = some parts) :
      parts.1 ++ parts.2 ∉ used := by
    induction left generalizing attempt with
    | zero => exact nomatch h
    | succ left ih =>
      rw [retry] at h
      split at h
      · exact ih (attempt + 1) h
      · rename_i hfree
        exact Option.some.inj h ▸ hfree
  unfold uniqueCallableParts at h
  dsimp only at h
  split at h
  · rename_i hfree
    exact Option.some.inj h ▸ hfree.2
  · exact hretry _ _ h

end Suffixes

section Assignment
variable {n : ℕ} {candidates : List (CallableToolCandidate δ)}

def ToolInfo.raw (tool : ToolInfo δ) : List Char × List Char × Option (List Char) × δ :=
  (tool.serverName, tool.toolName, tool.connectorId, tool.details)

def ToolInfo.modelName (tool : ToolInfo δ) : List Char :=
  tool.callableNamespace ++ tool.callableName

/-- The names of the candidate are made of the characters of names. -/
structure CallableToolCandidate.Sane (c : CallableToolCandidate δ) : Prop where
  callableNamespace : IsName c.callableNamespace
  callableName : IsName c.callableName

theorem assignNames_spec (hsane : ∀ c ∈ candidates, c.Sane) (hreaches : sha1.Reaches n)
    (hroom : used.length + candidates.length ≤ n) :
    ∃ tools, assignNames sha1 used candidates = some tools ∧
      tools.map raw = candidates.map (·.tool.raw) ∧
      ∀ tool ∈ tools, IsName tool.modelName ∧ utf8Len tool.modelName ≤ maxToolNameLength := by
  induction candidates generalizing used with
  | nil => exact ⟨[], rfl, rfl, forall_mem_nil _⟩
  | cons c candidates ih =>
    rw [forall_mem_cons] at hsane
    rw [length_cons] at hroom
    have hused : used.length < n := by omega
    obtain ⟨parts, hparts, hname⟩ := uniqueCallableParts_spec
      hsane.1.callableNamespace hsane.1.callableName hreaches hused c.rawToolIdentity
    have hlength : ((parts.1 ++ parts.2) :: used).length + candidates.length ≤ n := by
      rw [length_cons]
      omega
    obtain ⟨tools, htools, hraw, hall⟩ := ih hsane.2 hlength
    refine ⟨_, by rw [assignNames, hparts, Option.bind_some, htools, Option.map_some], ?_, ?_⟩
    · rw [map_cons, hraw]
      rfl
    · exact forall_mem_cons.mpr ⟨hname, hall⟩

theorem nodup_of_assignNames {tools : List (ToolInfo δ)}
    (h : assignNames sha1 used candidates = some tools) :
    (tools.map modelName).Nodup ∧ ∀ tool ∈ tools, tool.modelName ∉ used := by
  induction candidates generalizing used tools with
  | nil =>
    cases h
    exact ⟨nodup_nil, forall_mem_nil _⟩
  | cons c candidates ih =>
    obtain ⟨parts, hparts, h⟩ := Option.bind_eq_some_iff.mp h
    obtain ⟨rest, hrest, rfl⟩ := Option.map_eq_some_iff.mp h
    obtain ⟨hnodup, hfree⟩ := ih hrest
    rw [map_cons, nodup_cons]
    refine ⟨⟨fun hmem => ?_, hnodup⟩, forall_mem_cons.mpr
      ⟨notMem_of_uniqueCallableParts hparts, fun tool htool hmem => ?_⟩⟩
    · obtain ⟨tool, htool, heq⟩ := mem_map.mp hmem
      exact hfree tool htool (heq ▸ mem_cons_self)
    · exact hfree tool htool (mem_cons_of_mem _ hmem)

theorem nodup_of_normalizeToolsForModel {tools modelTools : List (ToolInfo δ)}
    (h : normalizeToolsForModel sha1 tools = some modelTools) : (modelTools.map modelName).Nodup :=
  (nodup_of_assignNames h).1

end Assignment

section Identities
variable {tools : List (ToolInfo δ)}

/-- Where a tool comes from: its server, namespace, connector and names. -/
def ToolInfo.identity (tool : ToolInfo δ) : List (List Char) :=
  [tool.serverName, tool.callableNamespace, tool.connectorId.getD [], tool.callableName,
    tool.toolName]

theorem append_cons_inj {x y a b : List Char} {d : Char} (hx : d ∉ x) (hy : d ∉ y)
    (h : x ++ d :: a = y ++ d :: b) : x = y ∧ a = b := by
  have hsplit := congrArg (splitOn d) h
  rw [splitOn_append_cons_self_of_not_mem hx, splitOn_append_cons_self_of_not_mem hy] at hsplit
  obtain rfl := (cons.inj hsplit).1
  exact ⟨rfl, (cons.inj (append_cancel_left h)).2⟩

theorem rawToolIdentity_injective {tool other : ToolInfo δ}
    (htool : ∀ part ∈ tool.identity, nul ∉ part) (hother : ∀ part ∈ other.identity, nul ∉ part)
    (h : tool.rawToolIdentity = other.rawToolIdentity) : tool.identity = other.identity := by
  simp only [identity, forall_mem_cons] at htool hother
  simp only [rawToolIdentity, rawNamespaceIdentity, append_assoc, cons_append] at h
  obtain ⟨hserver, h⟩ := append_cons_inj htool.1 hother.1 h
  obtain ⟨hnamespace, h⟩ := append_cons_inj htool.2.1 hother.2.1 h
  obtain ⟨hconnector, h⟩ := append_cons_inj htool.2.2.1 hother.2.2.1 h
  obtain ⟨hname, htoolName⟩ := append_cons_inj htool.2.2.2.1 hother.2.2.2.1 h
  simp only [identity, hserver, hnamespace, hconnector, hname, htoolName]

theorem nodup_rawToolIdentity (hdistinct : (tools.map identity).Nodup)
    (hnul : ∀ tool ∈ tools, ∀ part ∈ tool.identity, nul ∉ part) :
    (tools.map rawToolIdentity).Nodup := by
  refine List.Nodup.map_on (fun tool htool other hother heq => ?_) (hdistinct.of_map _)
  exact inj_on_of_nodup_map hdistinct htool hother
    (rawToolIdentity_injective (hnul tool htool) (hnul other hother) heq)

theorem collectCandidates_of_nodup {seen : List (List Char)}
    (hnodup : (tools.map rawToolIdentity).Nodup)
    (hseen : ∀ tool ∈ tools, tool.rawToolIdentity ∉ seen) :
    collectCandidates seen tools = tools.map candidate := by
  induction tools generalizing seen with
  | nil => rfl
  | cons tool tools ih =>
    rw [map_cons, nodup_cons] at hnodup
    rw [forall_mem_cons] at hseen
    rw [collectCandidates, if_neg hseen.1, map_cons, ih hnodup.2 fun other hother hmem => ?_]
    rcases mem_cons.mp hmem with heq | hmem
    · exact hnodup.1 (heq ▸ mem_map_of_mem hother)
    · exact hseen.2 other hother hmem

end Identities

section Stability
variable {candidates candidates' : List (CallableToolCandidate δ)}

variable (h : candidates.Perm candidates')
include h

theorem colliding_perm {κ : Type*} [DecidableEq κ] {key : CallableToolCandidate δ → κ}
    {identity : CallableToolCandidate δ → List Char} :
    colliding key identity candidates = colliding key identity candidates' := by
  funext base
  have hidentities := (h.filter fun c => decide (key c = base)).map identity
  rw [colliding, colliding, hidentities.dedup.length_eq]

theorem renameNamespaces_perm :
    (renameNamespaces sha1 candidates).Perm (renameNamespaces sha1 candidates') := by
  unfold renameNamespaces
  rw [colliding_perm h]
  exact h.map _

theorem renameTools_perm : (renameTools sha1 candidates).Perm (renameTools sha1 candidates') := by
  unfold renameTools
  rw [colliding_perm h]
  exact h.map _

omit h

def renamed (sha1 : Sha1) (tools : List (ToolInfo δ)) : List (CallableToolCandidate δ) :=
  renameTools sha1 (renameNamespaces sha1 (collectCandidates [] tools))

theorem sane_renameNamespaces (h : ∀ c ∈ candidates, c.Sane) :
    ∀ c ∈ renameNamespaces sha1 candidates, c.Sane := by
  intro c hc
  obtain ⟨d, hd, rfl⟩ := mem_map.mp hc
  obtain ⟨hns, hname⟩ := h d hd
  split
  · exact ⟨isName_appendNamespaceHashSuffix hns _, hname⟩
  · exact ⟨hns, hname⟩

theorem sane_renameTools (h : ∀ c ∈ candidates, c.Sane) :
    ∀ c ∈ renameTools sha1 candidates, c.Sane := by
  intro c hc
  obtain ⟨d, hd, rfl⟩ := mem_map.mp hc
  obtain ⟨hns, hname⟩ := h d hd
  split
  · exact ⟨hns, isName_appendHashSuffix hname _⟩
  · exact ⟨hns, hname⟩

variable {tools : List (ToolInfo δ)}

theorem map_renamed {β : Type*} (f : CallableToolCandidate δ → β)
    (hns : ∀ c name, f { c with callableNamespace := name } = f c)
    (hname : ∀ c name, f { c with callableName := name } = f c) :
    (renamed sha1 tools).map f = (collectCandidates [] tools).map f := by
  rw [renamed, renameTools, renameNamespaces, map_map, map_map]
  simp only [Function.comp_def, apply_ite f, hns, hname, ite_self]

/-- Every tool is a candidate once, with names of the right characters. -/
theorem renamed_spec (hnodup : (tools.map rawToolIdentity).Nodup) :
    (renamed sha1 tools).map (·.tool) = tools ∧
      (renamed sha1 tools).map (·.rawToolIdentity) = tools.map rawToolIdentity ∧
      ∀ c ∈ renamed sha1 tools, c.Sane := by
  rw [map_renamed _ (fun _ _ => rfl) fun _ _ => rfl, map_renamed _ (fun _ _ => rfl) fun _ _ => rfl,
    renamed, collectCandidates_of_nodup hnodup fun _ _ => not_mem_nil, map_map, map_map]
  refine ⟨map_id _, rfl, sane_renameTools (sane_renameNamespaces fun c hc => ?_)⟩
  obtain ⟨tool, -, rfl⟩ := mem_map.mp hc
  exact ⟨isName_sanitize _, isName_sanitize _⟩

theorem normalizeToolsForModel_perm {tools' : List (ToolInfo δ)} (h : tools'.Perm tools)
    (hnodup : (tools.map rawToolIdentity).Nodup) :
    normalizeToolsForModel sha1 tools' = normalizeToolsForModel sha1 tools := by
  have hnodup' := (h.map rawToolIdentity).nodup_iff.mpr hnodup
  have hperm : (renamed sha1 tools').Perm (renamed sha1 tools) := by
    unfold renamed
    rw [collectCandidates_of_nodup hnodup fun _ _ => not_mem_nil,
      collectCandidates_of_nodup hnodup' fun _ _ => not_mem_nil]
    exact renameTools_perm (renameNamespaces_perm (h.map _))
  have hkeys : ((renamed sha1 tools').map (·.rawToolIdentity)).Nodup := by
    rwa [(renamed_spec hnodup').2.1]
  exact congrArg (assignNames sha1 [])
    (insertionSort_eq_of_perm hperm fun _ ha _ hb => inj_on_of_nodup_map hkeys ha hb)

end Stability

section Names

/-- Tools with different identities come out once each, with what the protocol needs of them
unchanged, under names that are different, short and made of letters, digits and underscores,
and that do not depend on the order of the tools. -/
theorem model_visible_names (sha1 : Sha1) (tools : List (ToolInfo δ))
    (hdistinct : (tools.map identity).Nodup)
    (hnul : ∀ tool ∈ tools, ∀ part ∈ tool.identity, nul ∉ part)
    (hreaches : sha1.Reaches tools.length) :
    ∃ modelTools, normalizeToolsForModel sha1 tools = some modelTools ∧
      (modelTools.map raw).Perm (tools.map raw) ∧
      (modelTools.map modelName).Nodup ∧
      (∀ tool ∈ modelTools, IsName tool.modelName ∧ utf8Len tool.modelName ≤ 64) ∧
      ∀ tools' : List (ToolInfo δ), tools'.Perm tools →
        normalizeToolsForModel sha1 tools' = some modelTools := by
  have hnodup := nodup_rawToolIdentity hdistinct hnul
  obtain ⟨htools, -, hsane⟩ := @renamed_spec δ sha1 tools hnodup
  have hsorted := perm_insertionSort
    (fun left right : CallableToolCandidate δ => left.rawToolIdentity ≤ right.rawToolIdentity)
    (renamed sha1 tools)
  have hlength : ([] : List (List Char)).length + ((renamed sha1 tools).insertionSort
      fun left right => left.rawToolIdentity ≤ right.rawToolIdentity).length ≤ tools.length := by
    rw [hsorted.length_eq, length_nil, Nat.zero_add, ← congrArg length htools, length_map]
  obtain ⟨modelTools, hassign, hraw, hall⟩ :=
    assignNames_spec (fun c hc => hsane c (hsorted.mem_iff.mp hc)) hreaches hlength
  refine ⟨modelTools, hassign, ?_, nodup_of_normalizeToolsForModel hassign, hall,
    fun tools' hperm => (normalizeToolsForModel_perm hperm hnodup).trans hassign⟩
  have hmap : (renamed sha1 tools).map (·.tool.raw) = tools.map raw := by
    rw [← congrArg (map raw) htools, map_map]
    rfl
  rw [hraw, ← hmap]
  exact hsorted.map _

/-- A function in the place of SHA-1 that only sees whether the length of its text is even. -/
def parityHash : Sha1 where
  hex text := replicate 40 (if text.length % 2 = 0 then '0' else '1')
  length_hex _ := length_replicate
  hex_digits text c hc := by
    rw [eq_of_mem_replicate hc]
    split <;> exact .inl rfl

theorem parityHash_reaches : parityHash.Reaches 2 := by
  intro identity used hused
  by_cases hfirst : callableNameHashSuffix parityHash (hashInput identity 0) ∈ used
  · refine ⟨10, by decide, fun hsecond => ?_⟩
    obtain ⟨name, rfl⟩ : ∃ name, used = [name] :=
      length_eq_one_iff.mp (Nat.le_antisymm (Nat.le_of_lt_succ hused) (length_pos_of_mem hfirst))
    have heq := (mem_singleton.mp hfirst).trans (mem_singleton.mp hsecond).symm
    have hlength : (hashInput identity 10).length = identity.length + 3 := by
      simp [hashInput]
      rfl
    have hdigit := congrArg (·[1]?) heq
    simp only [callableNameHashSuffix, parityHash, hashInput, if_pos] at hdigit hlength
    rw [hlength] at hdigit
    split at hdigit <;> split at hdigit <;> first | omega | cases hdigit
  · exact ⟨0, by decide, hfirst⟩

def collidingTools : List (ToolInfo Unit) :=
  [⟨"s".toList, "a.b".toList, "n".toList, "a.b".toList, none, ()⟩,
    ⟨"s".toList, "a-b".toList, "n".toList, "a-b".toList, none, ()⟩]

theorem colliding_tools_named : ∃ modelTools,
    normalizeToolsForModel parityHash collidingTools = some modelTools ∧
      (modelTools.map modelName).Nodup := by
  obtain ⟨modelTools, hsome, -, hnodup, -⟩ := model_visible_names parityHash collidingTools
    (by decide) (by decide) parityHash_reaches
  exact ⟨modelTools, hsome, hnodup⟩

example : (normalizeToolsForModel parityHash collidingTools).map (·.map modelName) =
    some ["na_b_000000000000".toList, "na_b_000000000000_000000000000".toList] := by
  decide

end Names

end DeepseekX.McpTools
