import DeepseekX.LineSplitting
import DeepseekX.ProxyConstraints
import Mathlib.Algebra.Order.BigOperators.Group.List
import Mathlib.Algebra.Order.Ring.Nat

/-!
# The managed allowlist of the network proxy

A configuration is accepted when the entries of its allowlist, read by the host parser, are
allowed by those of the managed list. Hosts are matched by globs, which come from a second
reading of the same entries. What the globs of the configuration match lies within the
managed list when every domain they name is covered there, and the second reading alone
decides that.
-/

namespace DeepseekX.ManagedAllowlist
open DomainPatterns ProxyConstraints WildcardPatterns List

theorem toNat_toLower (c : Char) :
    c.toLower.toNat = if 65 ≤ c.toNat ∧ c.toNat ≤ 90 then c.toNat + 32 else c.toNat := by
  have hupper : (c.val ≥ 'A'.val ∧ c.val ≤ 'Z'.val) ↔ (65 ≤ c.toNat ∧ c.toNat ≤ 90) := Iff.rfl
  unfold Char.toLower
  split
  · rename_i h
    rw [if_pos (hupper.mp h)]
    have hle := (hupper.mp h).2
    change (c.toNat + 32) % 2 ^ 32 = c.toNat + 32
    omega
  · rename_i h
    rw [if_neg fun hc => h (hupper.mpr hc)]

theorem toLower_toLower (c : Char) : c.toLower.toLower = c.toLower := by
  apply Char.toNat_inj.mp
  rw [toNat_toLower, toNat_toLower]
  split
  · rw [if_neg (by omega)]
  · rfl

theorem toLower_eq_iff {c d : Char} (hd : d.toNat < 65 ∨ 90 < d.toNat ∧ d.toNat < 97) :
    c.toLower = d ↔ c = d := by
  rw [← Char.toNat_inj, ← Char.toNat_inj, toNat_toLower]
  split <;> omega

theorem toLower_eq_dot {c : Char} : c.toLower = '.' ↔ c = '.' := toLower_eq_iff (.inl (by decide))

theorem sameLetter_dot {c : Char} : sameLetter '.' c = true ↔ c = '.' := by
  rw [sameLetter, beq_iff_eq, ← toLower_eq_dot, eq_comm]
  rfl

def IsLower (text : Text) : Prop := ∀ c ∈ text, c.toLower = c

theorem isLower_toAsciiLowercase (text : Text) : IsLower (toAsciiLowercase text) := by
  intro c hc
  obtain ⟨b, -, rfl⟩ := mem_map.mp hc
  exact toLower_toLower b

theorem IsLower.eq {text : Text} (h : IsLower text) : toAsciiLowercase text = text := by
  conv_rhs => rw [← map_id text]
  exact map_congr_left h

theorem IsLower.sublist {text other : Text} (h : IsLower text) (hsub : List.Sublist other text) :
    IsLower other :=
  fun c hc => h c (hsub.subset hc)

/-- Labels separated by dots, none of them empty. -/
def IsHostName (host : Text) : Prop := ∀ label ∈ host.splitOn '.', label ≠ []

instance (host : Text) : Decidable (IsHostName host) :=
  inferInstanceAs (Decidable (∀ label ∈ host.splitOn '.', label ≠ []))

theorem isHostName_append_dot {front back : Text} :
    IsHostName (front ++ '.' :: back) ↔ IsHostName front ∧ IsHostName back := by
  rw [IsHostName, splitOn_append_cons_self, forall_mem_append]
  rfl

theorem not_isHostName_nil : ¬ IsHostName [] := fun h => h [] mem_cons_self rfl

theorem isHostName_of_notMem {label : Text} (hne : label ≠ []) (hdot : '.' ∉ label) :
    IsHostName label := by
  intro part hpart
  rw [splitOn_eq_singleton hdot, mem_singleton] at hpart
  rwa [hpart]

theorem isHostName_toAsciiLowercase {host : Text} :
    IsHostName (toAsciiLowercase host) ↔ IsHostName host := by
  rw [IsHostName, toAsciiLowercase, LineSplitting.splitOn_map fun _ => toLower_eq_dot,
    forall_mem_map]
  simp only [ne_eq, map_eq_nil_iff]
  rfl

section GlobForms

/-- The pattern that the globs of an entry come from. -/
def globPattern (entry : Text) : DomainPattern := DomainPattern.parse (normalizePattern entry)

def patternHosts : DomainPattern → List Text
  | .exact domain | .apexAndSubdomains domain => [domain]
  | .subdomainsOnly _ => []

def patternParents : DomainPattern → List Text
  | .subdomainsOnly domain | .apexAndSubdomains domain => [domain]
  | .exact _ => []

/-- The domains that the globs of a list match themselves. -/
def hostDomains (entries : List Text) : List Text :=
  entries.flatMap fun entry => patternHosts (globPattern entry)

/-- The domains whose subdomains the globs of a list match. -/
def parentDomains (entries : List Text) : List Text :=
  entries.flatMap fun entry => patternParents (globPattern entry)

def subdomainGlob (domain : Text) : Text := ['?', '*', '.'] ++ domain

theorem mem_expandDomainPattern {entry candidate : Text} :
    candidate ∈ expandDomainPattern (normalizePattern entry) ↔
      candidate ∈ patternHosts (globPattern entry) ∨
        ∃ domain ∈ patternParents (globPattern entry), candidate = subdomainGlob domain := by
  rw [expandDomainPattern, globPattern]
  cases DomainPattern.parse (normalizePattern entry) <;>
    simp [patternHosts, patternParents, subdomainGlob]

variable (E : GlobEngine)

def Hits (text host : Text) : Prop :=
  ∃ glob, E.build text = some glob ∧ E.globMatches glob host = true

variable {E}

theorem hits_iff {text host : Text} (h : WildcardOnly text) :
    Hits E text host ↔ host ∈ language sameLetter (text.map wildcard) := by
  obtain ⟨glob, hglob, hmatch⟩ := E.build_wildcardOnly text h
  rw [← isMatch_iff, ← hmatch]
  constructor
  · rintro ⟨other, hother, hhit⟩
    rwa [Option.some.inj (hglob.symm.trans hother)]
  · intro hhit
    exact ⟨glob, hglob, hhit⟩

theorem isMatch_allowlist {entries : List Text} {set : E.GlobSet}
    (h : compileAllowlistGlobset E entries = .ok set) (host : Text) :
    E.isMatch set host = true ↔ (∃ domain ∈ hostDomains entries, Hits E domain host) ∨
      ∃ domain ∈ parentDomains entries, Hits E (subdomainGlob domain) host := by
  rw [isMatch_compileGlobset h]
  constructor
  · rintro ⟨entry, hentry, candidate, hcandidate, hhit⟩
    rcases mem_expandDomainPattern.mp hcandidate with hdomain | ⟨domain, hdomain, rfl⟩
    · exact .inl ⟨candidate, mem_flatMap.mpr ⟨entry, hentry, hdomain⟩, hhit⟩
    · exact .inr ⟨domain, mem_flatMap.mpr ⟨entry, hentry, hdomain⟩, hhit⟩
  · rintro (⟨domain, hdomain, hhit⟩ | ⟨domain, hdomain, hhit⟩)
    · obtain ⟨entry, hentry, hdomain⟩ := mem_flatMap.mp hdomain
      exact ⟨entry, hentry, domain, mem_expandDomainPattern.mpr (.inl hdomain), hhit⟩
    · obtain ⟨entry, hentry, hdomain⟩ := mem_flatMap.mp hdomain
      exact ⟨entry, hentry, subdomainGlob domain,
        mem_expandDomainPattern.mpr (.inr ⟨domain, hdomain, rfl⟩), hhit⟩

end GlobForms

section Matching
variable {domain host : Text}

theorem wildcardOnly_subdomainGlob (h : WildcardOnly domain) :
    WildcardOnly (subdomainGlob domain) := by
  refine ⟨?_, ?_⟩
  · rw [subdomainGlob, forall_mem_append]
    exact ⟨by simp, h.1⟩
  · rw [subdomainGlob]
    simp only [cons_append, infix_cons_iff, not_or]
    exact ⟨by simp, by simp, by simp, h.2⟩

theorem wildcardOnly_of_suffix {parent : Text} (h : WildcardOnly domain)
    (hsuffix : parent <:+ domain) : WildcardOnly parent :=
  ⟨fun c hc => h.1 c (hsuffix.subset hc), fun hdouble => h.2 (hdouble.trans hsuffix.isInfix)⟩

theorem mem_language_dot {rest : Text} :
    host ∈ language sameLetter (('.' :: rest).map wildcard) ↔
      ∃ back ∈ language sameLetter (rest.map wildcard), host = '.' :: back := by
  rw [map_cons, show wildcard '.' = .literal '.' from rfl, mem_language_literal]
  constructor
  · rintro ⟨c, back, hc, hback, rfl⟩
    rw [sameLetter_dot] at hc
    exact ⟨back, hback, by rw [hc]⟩
  · rintro ⟨back, hback, rfl⟩
    exact ⟨'.', back, rfl, hback, rfl⟩

theorem mem_language_subdomainGlob :
    host ∈ language sameLetter ((subdomainGlob domain).map wildcard) ↔
      ∃ front back, front ≠ [] ∧ back ∈ language sameLetter (domain.map wildcard) ∧
        host = front ++ '.' :: back := by
  rw [subdomainGlob, show (['?', '*', '.'] ++ domain).map wildcard =
    .any :: .many :: ('.' :: domain).map wildcard from rfl, mem_language_any_many]
  simp only [mem_language_dot]
  constructor
  · rintro ⟨front, _, hfront, ⟨back, hback, rfl⟩, rfl⟩
    exact ⟨front, back, hfront, hback, rfl⟩
  · rintro ⟨front, back, hfront, hback, rfl⟩
    exact ⟨front, '.' :: back, hfront, ⟨back, hback, rfl⟩, rfl⟩

def IsPlain (domain : Text) : Prop :=
  ∀ c ∈ domain, c ∉ ['*', '?', '[', ']', '\x7b', '\x7d', '\\', '/']

instance (domain : Text) : Decidable (IsPlain domain) :=
  decidableBAll _ domain

theorem IsPlain.wildcardOnly (h : IsPlain domain) : WildcardOnly domain := by
  refine ⟨fun c hc hmem => h c hc ?_, fun hdouble => ?_⟩
  · exact mem_cons_of_mem _ (mem_cons_of_mem _ hmem)
  · exact h '*' (hdouble.subset mem_cons_self) mem_cons_self

theorem IsPlain.mem_language (h : IsPlain domain) :
    host ∈ language sameLetter (domain.map wildcard) ↔
      toAsciiLowercase domain = toAsciiLowercase host := by
  have hliteral : domain.map wildcard = domain.map .literal := by
    refine map_congr_left fun c hc => ?_
    have hc := h c hc
    rw [wildcard, if_neg (by rintro rfl; exact hc (by decide)),
      if_neg (by rintro rfl; exact hc (by decide))]
  rw [hliteral, mem_language_literals, toAsciiLowercase, toAsciiLowercase,
    ← forall₂_eq_eq_eq, forall₂_map_left_iff, forall₂_map_right_iff]
  simp [sameLetter]

end Matching

section GlobParts

/-- Where the reading of a glob text stands: within that many alternates, and there behind a
backslash or in a class. The first letter of a class is a member, a `]` as well. -/
inductive GlobPlace where
  | text (depth : ℕ)
  | escaped (depth : ℕ)
  | classStart (depth : ℕ)
  | classFirst (depth : ℕ)
  | inClass (depth : ℕ)
  deriving DecidableEq

/-- A backslash escapes the next letter where it is no path separator. -/
def GlobPlace.read (escapes : Bool) : GlobPlace → Char → GlobPlace
  | text depth, c =>
    if c = '[' then classStart depth
    else if c = '\x7b' then text (depth + 1)
    else if c = '\x7d' then text (depth - 1)
    else if c = '\\' ∧ escapes = true then escaped depth
    else text depth
  | escaped depth, _ => text depth
  | classStart depth, c => if c = '!' ∨ c = '^' then classFirst depth else inClass depth
  | classFirst depth, _ => inClass depth
  | inClass depth, c => if c = ']' then text depth else inClass depth

/-- The text ends outside of classes and alternates. -/
def Closed (escapes : Bool) (text : Text) : Prop :=
  text.foldl (GlobPlace.read escapes) (.text 0) ∈ [GlobPlace.text 0, .escaped 0]

instance (escapes : Bool) (text : Text) : Decidable (Closed escapes text) :=
  inferInstanceAs (Decidable (_ ∈ _))

/-- Globs are matched part by part: a dot behind whole parts stands for itself, and what follows
it matches as it does in any other glob. -/
def MatchesInParts (E : GlobEngine) (escapes : Bool) : Prop :=
  ∀ front rest host, Closed escapes front → Hits E (front ++ '.' :: rest) host →
    ∃ u v, host = u ++ '.' :: v ∧ ∀ w ≠ [], Hits E (subdomainGlob rest) (w ++ '.' :: v)

variable {E : GlobEngine} {escapes : Bool} {domain parent host : Text}

theorem closed_subdomainGlob : Closed escapes (subdomainGlob domain) ↔ Closed escapes domain := by
  simp [Closed, subdomainGlob, GlobPlace.read]

theorem IsPlain.closed (h : IsPlain domain) : Closed escapes domain := by
  have hplace : domain.foldl (GlobPlace.read escapes) (.text 0) = .text 0 := by
    induction domain with
    | nil => rfl
    | cons c domain ih =>
      rw [IsPlain, forall_mem_cons] at h
      have hc : GlobPlace.read escapes (.text 0) c = .text 0 := by
        have hnot := h.1
        simp only [mem_cons, not_or] at hnot
        simp [GlobPlace.read, hnot]
      rw [foldl_cons, hc, ih h.2]
  rw [Closed, hplace]
  exact mem_cons_self

/-- The domain is a closed text, a dot and the parent. -/
def Below (escapes : Bool) (parent domain : Text) : Prop :=
  '.' :: parent <:+ domain ∧ Closed escapes (domain.take (domain.length - (parent.length + 1)))

instance (parent domain : Text) : Decidable (Below escapes parent domain) :=
  inferInstanceAs (Decidable (_ ∧ _))

theorem below_iff : Below escapes parent domain ↔
    ∃ front, front ++ '.' :: parent = domain ∧ Closed escapes front := by
  have htake : ∀ front : Text, (front ++ '.' :: parent).take
      ((front ++ '.' :: parent).length - (parent.length + 1)) = front := by
    intro front
    rw [length_append, length_cons, Nat.add_sub_cancel, take_left]
  constructor
  · rintro ⟨⟨front, rfl⟩, hclosed⟩
    rw [htake] at hclosed
    exact ⟨front, rfl, hclosed⟩
  · rintro ⟨front, rfl, hclosed⟩
    exact ⟨⟨front, rfl⟩, by rwa [htake]⟩

theorem IsPlain.below (h : IsPlain domain) (hsuffix : '.' :: parent <:+ domain) :
    Below escapes parent domain :=
  ⟨hsuffix, IsPlain.closed fun c hc => h c (mem_of_mem_take hc)⟩

theorem hits_of_below (hparts : MatchesInParts E escapes) (hbelow : Below escapes parent domain)
    (hhost : IsHostName host) (h : Hits E domain host) : Hits E (subdomainGlob parent) host := by
  obtain ⟨front, rfl, hclosed⟩ := below_iff.mp hbelow
  obtain ⟨u, v, rfl, hrest⟩ := hparts front parent host hclosed h
  refine hrest u ?_
  rintro rfl
  exact not_isHostName_nil (isHostName_append_dot.mp hhost).1

theorem Below.subdomainGlob (h : Below escapes parent domain) :
    Below escapes parent (subdomainGlob domain) := by
  obtain ⟨front, rfl, hclosed⟩ := below_iff.mp h
  exact below_iff.mpr ⟨ManagedAllowlist.subdomainGlob front, rfl,
    closed_subdomainGlob.mpr hclosed⟩

theorem matchesInParts_wildcardEngine (escapes : Bool) : MatchesInParts wildcardEngine escapes := by
  intro front rest host _ h
  have hwild : WildcardOnly (front ++ '.' :: rest) := by
    obtain ⟨glob, hglob, -⟩ := h
    by_contra hnot
    cases (if_neg hnot).symm.trans hglob
  have hrest : WildcardOnly rest := wildcardOnly_of_suffix hwild ⟨front ++ ['.'], by simp⟩
  rw [hits_iff hwild, map_append] at h
  obtain ⟨u, -, v, hv, rfl⟩ := mem_language_append.mp h
  obtain ⟨back, hback, rfl⟩ := mem_language_dot.mp hv
  refine ⟨u, back, rfl, fun w hw => ?_⟩
  rw [hits_iff (wildcardOnly_subdomainGlob hrest)]
  exact mem_language_subdomainGlob.mpr ⟨w, back, hw, hback, rfl⟩

end GlobParts

variable {E : GlobEngine} {escapes : Bool} {entries managed : List Text}
  {allowed managedSet : E.GlobSet}

section Coverage

def Contained (allowed managed : E.GlobSet) : Prop :=
  ∀ host, IsHostName host → E.isMatch allowed host = true → E.isMatch managed host = true

variable (escapes)

/-- The domain is listed, or lies below a managed parent, or cannot be part of a host name. -/
def DomainCovered (listed parents : List Text) (domain : Text) : Prop :=
  domain ∈ listed ∨ (∃ parent ∈ parents, Below escapes parent domain) ∨
    (IsPlain domain ∧ ¬ IsHostName domain)

instance (listed parents : List Text) (domain : Text) :
    Decidable (DomainCovered escapes listed parents domain) :=
  inferInstanceAs (Decidable (_ ∨ _))

/-- Every domain that the globs of the entries name is covered by those of the managed
list. -/
def Covered (managed entries : List Text) : Prop :=
  (∀ domain ∈ hostDomains entries,
    DomainCovered escapes (hostDomains managed) (parentDomains managed) domain) ∧
  ∀ domain ∈ parentDomains entries,
    DomainCovered escapes (parentDomains managed) (parentDomains managed) domain

instance (managed entries : List Text) : Decidable (Covered escapes managed entries) :=
  inferInstanceAs (Decidable (_ ∧ _))

variable {escapes}

/-- No domain of the globs uses a glob operator. -/
def PlainDomains (entries : List Text) : Prop :=
  (∀ domain ∈ hostDomains entries, IsPlain domain) ∧
    ∀ domain ∈ parentDomains entries, IsPlain domain

theorem IsPlain.isHostName {domain host : Text} (hplain : IsPlain domain)
    (h : host ∈ language sameLetter (domain.map wildcard)) (hhost : IsHostName host) :
    IsHostName domain := by
  rw [hplain.mem_language] at h
  rw [← isHostName_toAsciiLowercase, h, isHostName_toAsciiLowercase]
  exact hhost

theorem Covered.contained (hparts : MatchesInParts E escapes)
    (hcovered : Covered escapes managed entries)
    (hallowed : compileAllowlistGlobset E entries = .ok allowed)
    (hmanaged : compileAllowlistGlobset E managed = .ok managedSet) :
    Contained allowed managedSet := by
  intro host hhost hmatch
  rw [isMatch_allowlist hmanaged]
  rcases (isMatch_allowlist hallowed host).mp hmatch with
    ⟨domain, hdomain, hhit⟩ | ⟨domain, hdomain, hhit⟩
  · rcases hcovered.1 domain hdomain with hlisted | ⟨parent, hparent, hbelow⟩ | ⟨hplain, hname⟩
    · exact .inl ⟨domain, hlisted, hhit⟩
    · exact .inr ⟨parent, hparent, hits_of_below hparts hbelow hhost hhit⟩
    · exact absurd (hplain.isHostName ((hits_iff hplain.wildcardOnly).mp hhit) hhost) hname
  · rcases hcovered.2 domain hdomain with hlisted | ⟨parent, hparent, hbelow⟩ | ⟨hplain, hname⟩
    · exact .inr ⟨domain, hlisted, hhit⟩
    · exact .inr ⟨parent, hparent, hits_of_below hparts hbelow.subdomainGlob hhost hhit⟩
    · rw [hits_iff (wildcardOnly_subdomainGlob hplain.wildcardOnly)] at hhit
      obtain ⟨front, back, -, hback, rfl⟩ := mem_language_subdomainGlob.mp hhit
      exact absurd (hplain.isHostName hback (isHostName_append_dot.mp hhost).2) hname

end Coverage

theorem append_of_splitOnce {delimiter text before after : Text}
    (h : splitOnce delimiter text = some (before, after)) :
    before ++ delimiter ++ after = text := by
  induction text generalizing before with
  | nil =>
    unfold splitOnce at h
    split at h
    · rename_i hnil
      obtain ⟨rfl, rfl⟩ := Prod.mk.inj (Option.some.inj h)
      rw [hnil]
      rfl
    · cases h
  | cons c text ih =>
    unfold splitOnce at h
    split at h
    · rename_i rest hrest
      obtain ⟨rfl, rfl⟩ := Prod.mk.inj (Option.some.inj h)
      obtain ⟨front, htext, hfront⟩ := dropPrefix?_eq_some_iff.mp hrest
      rw [htext, ← eq_of_beq hfront]
      rfl
    · obtain ⟨⟨front, back⟩, hparts, heq⟩ := Option.map_eq_some_iff.mp h
      obtain ⟨rfl, rfl⟩ := Prod.mk.inj heq
      rw [← ih hparts]
      rfl

theorem isLower_normalizeIpLiteral {host literal : Text} (hhost : IsLower host)
    (h : normalizeIpLiteral host = some literal) : IsLower literal := by
  unfold normalizeIpLiteral at h
  split at h
  · rwa [← Option.some.inj h]
  · obtain ⟨delimiter, -, hsome⟩ := exists_of_findSome?_eq_some h
    obtain ⟨⟨ip, scope⟩, hparts, hip⟩ := Option.bind_eq_some_iff.mp hsome
    split at hip
    · obtain rfl := Option.some.inj hip
      have hall := append_of_splitOnce hparts
      intro c hc
      rcases mem_append.mp hc with hc | hc
      · exact hhost c (by rw [← hall]; simp [hc])
      · rcases mem_cons.mp hc with rfl | hc
        · rfl
        · exact hhost c (by rw [← hall]; simp [hc])
    · cases hip

theorem trimEndDots_sublist (text : Text) : (trimEndDots text).Sublist text :=
  IsPrefix.sublist <| rdropWhile_prefix _ _

theorem isLower_normalizeHost (host : Text) : IsLower (normalizeHost host) := by
  have hliteral : ∀ text, IsLower (normalizeDnsHostOrIpLiteral text) := by
    intro text
    have hlower : IsLower (trimEndDots (toAsciiLowercase text)) :=
      (isLower_toAsciiLowercase text).sublist (trimEndDots_sublist _)
    unfold normalizeDnsHostOrIpLiteral
    dsimp only
    cases hip : normalizeIpLiteral (trimEndDots (toAsciiLowercase text)) with
    | none => exact hlower
    | some literal => exact isLower_normalizeIpLiteral hlower hip
  unfold normalizeHost
  dsimp only
  split
  · exact hliteral _
  · split
    · exact hliteral _
    · exact hliteral _

theorem isLower_normalizePattern (pattern : Text) : IsLower (normalizePattern pattern) := by
  have happend : ∀ {front : Text} (text : Text), IsLower front →
      IsLower (front ++ normalizeHost text) :=
    fun text hfront => forall_mem_append.mpr ⟨hfront, isLower_normalizeHost text⟩
  unfold normalizePattern
  dsimp only
  split
  · simp [IsLower]
  · split
    · exact happend _ (by simp [IsLower])
    · split
      · exact happend _ (by simp [IsLower])
      · exact isLower_normalizeHost _

theorem trim_sublist (text : Text) : (trim text).Sublist text :=
  Sublist.trans (IsPrefix.sublist <| rdropWhile_prefix _ _) (dropWhile_sublist _)

theorem dropPrefix?_sublist {text front rest : Text} (h : text.dropPrefix? front = some rest) :
    rest.Sublist text := by
  obtain ⟨_, rfl, -⟩ := dropPrefix?_eq_some_iff.mp h
  exact sublist_append_right _ rest

def patternDomain : DomainPattern → Text
  | .exact domain | .apexAndSubdomains domain | .subdomainsOnly domain => domain

theorem patternDomain_parse_sublist (text : Text) : (patternDomain (.parse text)).Sublist text := by
  have hdomain : ∀ {front rest : Text} {build : Text → DomainPattern},
      (trim text).dropPrefix? front = some rest → (∀ d, patternDomain (build d) = d) →
      (patternDomain (.parseDomain rest build)).Sublist text := by
    intro front rest build hrest hbuild
    unfold DomainPattern.parseDomain
    split
    · exact nil_sublist text
    · rw [hbuild]
      exact (trim_sublist rest).trans ((dropPrefix?_sublist hrest).trans (trim_sublist text))
  unfold DomainPattern.parse
  dsimp only
  split
  · exact nil_sublist text
  · split
    · rename_i hrest
      exact hdomain hrest fun _ => rfl
    · split
      · rename_i hrest
        exact hdomain hrest fun _ => rfl
      · exact trim_sublist text

theorem eq_patternDomain {pattern : DomainPattern} {domain : Text}
    (h : domain ∈ patternHosts pattern ∨ domain ∈ patternParents pattern) :
    domain = patternDomain pattern := by
  cases pattern <;> simpa [patternHosts, patternParents, patternDomain] using h

theorem isLower_of_mem {entries : List Text} {domain : Text}
    (h : domain ∈ hostDomains entries ∨ domain ∈ parentDomains entries) : IsLower domain := by
  simp only [hostDomains, parentDomains, mem_flatMap, ← exists_or, ← and_or_left] at h
  obtain ⟨entry, -, h⟩ := h
  rw [eq_patternDomain h]
  exact (isLower_normalizePattern entry).sublist (patternDomain_parse_sublist _)

section Necessity

theorem hits_plain_iff {domain host : Text} (hplain : IsPlain domain) (hlower : IsLower domain)
    (hhost : IsLower host) : Hits E domain host ↔ domain = host := by
  rw [hits_iff hplain.wildcardOnly, hplain.mem_language, hlower.eq, hhost.eq]

theorem hits_subdomainGlob_iff {domain host : Text} (hplain : IsPlain domain)
    (hlower : IsLower domain) (hhost : IsLower host) :
    Hits E (subdomainGlob domain) host ↔ ∃ front, front ≠ [] ∧ host = front ++ '.' :: domain := by
  rw [hits_iff (wildcardOnly_subdomainGlob hplain.wildcardOnly), mem_language_subdomainGlob]
  constructor
  · rintro ⟨front, back, hfront, hback, rfl⟩
    rw [hplain.mem_language, hlower.eq] at hback
    have hlowerBack : IsLower back := fun c hc => hhost c (by simp [hc])
    rw [hlowerBack.eq] at hback
    exact ⟨front, hfront, by rw [hback]⟩
  · rintro ⟨front, hfront, rfl⟩
    exact ⟨front, domain, hfront, hplain.mem_language.mpr rfl, rfl⟩

def Lists (entries : List Text) (host : Text) : Prop :=
  host ∈ hostDomains entries ∨
    ∃ parent ∈ parentDomains entries, ∃ front, front ≠ [] ∧ host = front ++ '.' :: parent

theorem isMatch_iff_lists {host : Text} (hplain : PlainDomains entries)
    (hallowed : compileAllowlistGlobset E entries = .ok allowed) (hhost : IsLower host) :
    E.isMatch allowed host = true ↔ Lists entries host := by
  rw [isMatch_allowlist hallowed]
  refine or_congr ⟨?_, fun hlisted => ⟨host, hlisted, ?_⟩⟩
    (exists_congr fun parent => and_congr_right fun hparent => ?_)
  · rintro ⟨domain, hdomain, hhit⟩
    rw [hits_plain_iff (hplain.1 domain hdomain) (isLower_of_mem (.inl hdomain)) hhost] at hhit
    rwa [← hhit]
  · exact (hits_plain_iff (hplain.1 host hlisted) hhost hhost).mpr rfl
  · exact hits_subdomainGlob_iff (hplain.2 parent hparent) (isLower_of_mem (.inr hparent)) hhost

/-- A label that is longer than every domain of the list. -/
def freshLabel (domains : List Text) : Text :=
  replicate ((domains.map length).sum + 1) 'x'

theorem length_lt_freshLabel {domains : List Text} {domain : Text} (h : domain ∈ domains) :
    domain.length < (freshLabel domains).length := by
  rw [freshLabel, length_replicate]
  exact Nat.lt_succ_of_le (le_sum_of_mem (mem_map_of_mem h))

theorem mem_freshLabel {domains : List Text} {c : Char} (h : c ∈ freshLabel domains) : c = 'x' :=
  eq_of_mem_replicate h

/-- Two ways to read a host: below `label`, which has no dot, and below `front`. -/
theorem eq_or_suffix_of_append_eq {label front domain parent : Text} (hdot : '.' ∉ label)
    (h : label ++ '.' :: domain = front ++ '.' :: parent) :
    domain = parent ∨ '.' :: parent <:+ domain := by
  rcases append_eq_append_iff.mp h with ⟨rest, -, hrest⟩ | ⟨rest, hlabel, hrest⟩
  · cases rest with
    | nil => exact .inl (tail_eq_of_cons_eq hrest)
    | cons c rest => exact .inr ⟨rest, (tail_eq_of_cons_eq hrest).symm⟩
  · cases rest with
    | nil => exact .inl (tail_eq_of_cons_eq hrest).symm
    | cons c rest =>
      refine absurd ?_ hdot
      rw [hlabel, head_eq_of_cons_eq hrest]
      simp

theorem covered_of_contained (hentries : PlainDomains entries) (hplain : PlainDomains managed)
    (hallowed : compileAllowlistGlobset E entries = .ok allowed)
    (hmanaged : compileAllowlistGlobset E managed = .ok managedSet)
    (h : Contained allowed managedSet) : Covered escapes managed entries := by
  have hlists : ∀ {host}, IsHostName host → IsLower host → Lists entries host →
      Lists managed host := fun hname hlower hhost =>
    (isMatch_iff_lists hplain hmanaged hlower).mp
      (h _ hname ((isMatch_iff_lists hentries hallowed hlower).mpr hhost))
  constructor
  · intro domain hdomain
    by_cases hname : IsHostName domain
    · rcases hlists hname (isLower_of_mem (.inl hdomain)) (.inl hdomain) with
        hlisted | ⟨parent, hparent, front, -, heq⟩
      · exact .inl hlisted
      · exact .inr (.inl ⟨parent, hparent, (hentries.1 domain hdomain).below ⟨front, heq.symm⟩⟩)
    · exact .inr (.inr ⟨hentries.1 domain hdomain, hname⟩)
  · intro domain hdomain
    by_cases hname : IsHostName domain
    · set label := freshLabel (hostDomains managed) with hlabel
      have hdot : '.' ∉ label := fun hmem => absurd (mem_freshLabel hmem) (by decide)
      have hne : label ≠ [] := replicate_succ_ne_nil
      have hhost : IsHostName (label ++ '.' :: domain) :=
        isHostName_append_dot.mpr ⟨isHostName_of_notMem hne hdot, hname⟩
      have hlower : IsLower (label ++ '.' :: domain) := by
        refine forall_mem_append.mpr
          ⟨fun c hc => ?_, forall_mem_cons.mpr ⟨rfl, isLower_of_mem (.inr hdomain)⟩⟩
        rw [mem_freshLabel hc]
        rfl
      rcases hlists hhost hlower (.inr ⟨domain, hdomain, label, hne, rfl⟩) with
        hlisted | ⟨parent, hparent, front, -, heq⟩
      · have hlength := length_lt_freshLabel hlisted
        rw [length_append, ← hlabel] at hlength
        omega
      · rcases eq_or_suffix_of_append_eq hdot heq with rfl | hsuffix
        · exact .inl hparent
        · exact .inr (.inl ⟨parent, hparent, (hentries.2 domain hdomain).below hsuffix⟩)
    · exact .inr (.inr ⟨hentries.2 domain hdomain, hname⟩)

end Necessity

section Acceptance
variable {urlHost : Text → Option Text} {escapes : Bool} {entries managed denied : List Text}

def normalizedPattern : DomainPattern → DomainPattern
  | .apexAndSubdomains domain => .apexAndSubdomains (normalizeDomain domain)
  | .subdomainsOnly domain => .subdomainsOnly (normalizeDomain domain)
  | .exact domain => .exact (normalizeDomain domain)

/-- The constraint check and the globs read the entry as the same pattern. -/
def ReadAlike (urlHost : Text → Option Text) (entry : Text) : Prop :=
  normalizedPattern (.parseForConstraints urlHost entry) = globPattern entry

/-- Where a domain of the entries ends like a managed parent, this cuts no class or alternates. -/
def Uncut (escapes : Bool) (managed entries : List Text) : Prop :=
  ∀ domain ∈ hostDomains entries ++ parentDomains entries, ∀ parent ∈ parentDomains managed,
    '.' :: parent <:+ domain → Below escapes parent domain

theorem allows_of_accepted
    (h : validateAllowedDomains urlHost managed none entries denied = .ok ()) :
    ∀ entry ∈ entries, ∃ other ∈ managed, (DomainPattern.parseForConstraints urlHost other).allows
      (.parseForConstraints urlHost entry) = true := by
  intro entry hentry
  unfold validateAllowedDomains at h
  dsimp only at h
  split at h
  · rename_i hinvalid
    have hvalid := filter_eq_nil_iff.mp hinvalid entry hentry
    simpa using hvalid
  · cases h

/-- What a pattern names is named by another one or lies below a parent of it. -/
def Covers (forms : DomainPattern → List Text) (pattern other : DomainPattern) : Prop :=
  ∀ domain ∈ forms pattern, domain ∈ forms other ∨
    ∃ parent ∈ patternParents other, '.' :: parent <:+ domain

/-- A pattern that allows another covers its domains, both being normalised. -/
theorem covers_of_allows {pattern other : DomainPattern} (h : other.allows pattern = true) :
    Covers patternHosts (normalizedPattern pattern) (normalizedPattern other) ∧
      Covers patternParents (normalizedPattern pattern) (normalizedPattern other) := by
  cases other <;> cases pattern <;>
    simp_all [Covers, DomainPattern.allows, domainEq, isSubdomainOrEqual, isStrictSubdomain,
      patternHosts, patternParents, normalizedPattern]

theorem domainCovered_of_covers {forms : DomainPattern → List Text} {other domain : Text}
    (hother : other ∈ managed) (huncut : ∀ parent ∈ parentDomains managed,
      '.' :: parent <:+ domain → Below escapes parent domain)
    (h : domain ∈ forms (globPattern other) ∨
      ∃ parent ∈ patternParents (globPattern other), '.' :: parent <:+ domain) :
    DomainCovered escapes (managed.flatMap fun entry => forms (globPattern entry))
      (parentDomains managed) domain := by
  rcases h with hlisted | ⟨parent, hparent, hsuffix⟩
  · exact .inl (mem_flatMap.mpr ⟨other, hother, hlisted⟩)
  · have hparent : parent ∈ parentDomains managed := mem_flatMap.mpr ⟨other, hother, hparent⟩
    exact .inr (.inl ⟨parent, hparent, huncut parent hparent hsuffix⟩)

theorem covered_of_accepted (hread : ∀ entry ∈ managed ++ entries, ReadAlike urlHost entry)
    (huncut : Uncut escapes managed entries)
    (h : validateAllowedDomains urlHost managed none entries denied = .ok ()) :
    Covered escapes managed entries := by
  rw [forall_mem_append] at hread
  rw [Uncut, forall_mem_append] at huncut
  have hcovers : ∀ entry ∈ entries, ∃ other ∈ managed,
      Covers patternHosts (globPattern entry) (globPattern other) ∧
        Covers patternParents (globPattern entry) (globPattern other) := by
    intro entry hentry
    obtain ⟨other, hother, hallows⟩ := allows_of_accepted h entry hentry
    have hcovers := covers_of_allows hallows
    rw [hread.2 entry hentry, hread.1 other hother] at hcovers
    exact ⟨other, hother, hcovers⟩
  constructor
  · intro domain hdomain
    obtain ⟨entry, hentry, hnamed⟩ := mem_flatMap.mp hdomain
    obtain ⟨other, hother, hhosts, -⟩ := hcovers entry hentry
    exact domainCovered_of_covers hother (huncut.1 domain hdomain) (hhosts domain hnamed)
  · intro domain hdomain
    obtain ⟨entry, hentry, hnamed⟩ := mem_flatMap.mp hdomain
    obtain ⟨other, hother, -, hparents⟩ := hcovers entry hentry
    exact domainCovered_of_covers hother (huncut.2 domain hdomain) (hparents domain hnamed)

/-- The allowlist of an accepted configuration stays within the managed one when every domain
its globs name is covered there. For lists without glob operators inside the domains nothing
else keeps it within, and entries that both readings understand alike are always covered, unless
a class or alternates are cut. -/
theorem accepted_allowlist_contained_iff (E : GlobEngine) (escapes : Bool)
    (hparts : MatchesInParts E escapes) (urlHost : Text → Option Text)
    (config : NetworkProxyConfig) (constraints : NetworkProxyConstraints) (managed : List Text)
    (allowed managedSet : E.GlobSet)
    (haccepted : validatePolicyAgainstConstraints urlHost config constraints = .ok ())
    (hmanaged : constraints.allowedDomains = some managed)
    (hexpansion : constraints.allowlistExpansionEnabled = none)
    (hallowed : compileAllowlistGlobset E (config.network.allowedDomains.getD []) = .ok allowed)
    (hset : compileAllowlistGlobset E managed = .ok managedSet) :
    let entries := config.network.allowedDomains.getD []
    (Covered escapes managed entries → Contained allowed managedSet) ∧
    (PlainDomains managed ∧ PlainDomains entries →
      (Contained allowed managedSet ↔ Covered escapes managed entries)) ∧
    ((∀ entry ∈ managed ++ entries, ReadAlike urlHost entry) ∧ Uncut escapes managed entries →
      Covered escapes managed entries) := by
  refine ⟨fun hcovered => hcovered.contained hparts hallowed hset, ?_, ?_⟩
  · rintro ⟨hplain, hentries⟩
    exact ⟨covered_of_contained hentries hplain hallowed hset,
      fun hcovered => hcovered.contained hparts hallowed hset⟩
  · rintro ⟨hread, huncut⟩
    have hdomains := (validatePolicy_eq_ok.mp haccepted).allowedDomains
    rw [hmanaged, hexpansion] at hdomains
    exact covered_of_accepted hread huncut (check_bind_eq_ok.mp hdomains).2

theorem example_subdomains_contained :
    validatePolicyAgainstConstraints asciiUrlHost
      (allowOnly ["api.Example.com", "*.cdn.example.com"]) (manageOnly ["**.example.com"]) =
        .ok () ∧
    Contained (E := wildcardEngine) ["api.example.com".toList, "?*.cdn.example.com".toList]
      ["example.com".toList, "?*.example.com".toList] :=
  ⟨by decide +kernel, (accepted_allowlist_contained_iff wildcardEngine true
    (matchesInParts_wildcardEngine true) asciiUrlHost
    (allowOnly ["api.Example.com", "*.cdn.example.com"]) (manageOnly ["**.example.com"])
    ["**.example.com".toList] _ _ (by decide +kernel) rfl rfl (by decide +kernel)
    (by decide +kernel)).1 (by decide +kernel)⟩

/-- The text before a port is another host than the constraint check has seen. -/
theorem port_hides_foreign_host :
    validatePolicyAgainstConstraints asciiUrlHost (allowOnly ["evil.com:*.example.com"])
      (manageOnly ["*.example.com"]) = .ok () ∧
    compileAllowlistGlobset wildcardEngine
      ((allowOnly ["evil.com:*.example.com"]).network.allowedDomains.getD []) =
        .ok ["evil.com".toList] ∧
    compileAllowlistGlobset wildcardEngine ["*.example.com".toList] =
      .ok ["?*.example.com".toList] ∧
    IsHostName "evil.com".toList ∧
    wildcardEngine.isMatch ["evil.com".toList] "evil.com".toList = true ∧
    wildcardEngine.isMatch ["?*.example.com".toList] "evil.com".toList = false := by
  decide +kernel

end Acceptance

end DeepseekX.ManagedAllowlist
