import DeepseekX.SeekSequence
import DeepseekX.Transducers
import DeepseekX.WildcardPatterns

/-!
# Domain patterns of the network proxy

The proxy reads the entries of its domain lists twice. To match hosts, an entry is
normalised, expanded and compiled into globs. To compare it with a managed list, its domain
part is passed through the host parser of `url` instead, and the resulting patterns are
compared as texts. Texts are lists of characters here.
-/

namespace DeepseekX.DomainPatterns
open WildcardPatterns
open List hiding set

abbrev Text := List Char

instance : LawfulBEq Text := inferInstance

variable (text : Text)

def trim : Text :=
  (text.dropWhile SeekSequence.isWhitespace).rdropWhile SeekSequence.isWhitespace

def toAsciiLowercase : Text := text.map Char.toLower

def trimEndDots : Text := text.rdropWhile (· == '.')

/-- `str::split_once` at a text. -/
def splitOnce (delimiter : Text) : Text → Option (Text × Text)
  | [] => if delimiter = [] then some ([], []) else none
  | c :: text =>
    match (c :: text).dropPrefix? delimiter with
    | some rest => some ([], rest)
    | none => (splitOnce delimiter text).map fun parts => (c :: parts.1, parts.2)

def isIpv4Octet (part : Text) : Bool :=
  part.all Char.isDigit && (part.length == 1 ||
    (part.length == 2 || part.length == 3) && part.head? != some '0' &&
      (part.foldl (fun n c => 10 * n + (c.toNat - '0'.toNat)) 0) ≤ 255)

def isIpv4Addr : Bool :=
  (text.splitOn '.').length == 4 && (text.splitOn '.').all isIpv4Octet

def isIpv6Group (part : Text) : Bool :=
  1 ≤ part.length && part.length ≤ 4 && part.all fun c =>
    c.isDigit || ('a' ≤ c && c ≤ 'f') || ('A' ≤ c && c ≤ 'F')

/-- The number of 16-bit groups that a text of groups stands for. The last one may be an
embedded IPv4 address, which stands for two. -/
def ipv6Groups (embedsIpv4 : Bool) (text : Text) : Option ℕ :=
  let parts := text.splitOn ':'
  if text = [] then some 0
  else if parts.all isIpv6Group then some parts.length
  else if embedsIpv4 && parts.dropLast.all isIpv6Group && (parts.getLast?.any isIpv4Addr) then
    some (parts.length + 1)
  else none

def isIpv6Addr : Bool :=
  match splitOnce [':', ':'] text with
  | none => ipv6Groups true text == some 8
  | some (front, back) =>
    match ipv6Groups false front, ipv6Groups true back with
    | some m, some n => m + n ≤ 7
    | _, _ => false

/-- `str::parse::<IpAddr>` succeeds. -/
def isIpAddr : Bool := isIpv4Addr text || isIpv6Addr text

example : isIpAddr "127.0.0.1".toList = true ∧ isIpAddr "fe80::1".toList = true ∧
    isIpAddr "1.2.3".toList = false ∧ isIpAddr "::1::".toList = false := by decide +kernel

variable (host : Text)

def normalizeIpLiteral : Option Text :=
  if isIpAddr host then some host
  else
    [['%', '2', '5'], ['%']].findSome? fun delimiter =>
      (splitOnce delimiter host).bind fun parts =>
        if isIpAddr parts.1 then some (parts.1 ++ '%' :: parts.2) else none

def normalizeDnsHostOrIpLiteral : Text :=
  let host := trimEndDots (toAsciiLowercase host)
  (normalizeIpLiteral host).getD host

def normalizeHost : Text :=
  let host := trim host
  if host.head? = some '[' ∧ ']' ∈ host then
    normalizeDnsHostOrIpLiteral ((host.drop 1).takeWhile (· != ']'))
  else if host.count ':' = 1 then normalizeDnsHostOrIpLiteral (host.takeWhile (· != ':'))
  else normalizeDnsHostOrIpLiteral host

/-- `Host::parse`. -/
def parseHost (input : Text) : Except String Text :=
  if normalizeHost input = [] then .error "host is empty" else .ok (normalizeHost input)

def normalizePattern (pattern : Text) : Text :=
  let pattern := trim pattern
  if pattern = ['*'] then ['*']
  else
    match pattern.dropPrefix? ['*', '*', '.'] with
    | some domain => ['*', '*', '.'] ++ normalizeHost domain
    | none =>
      match pattern.dropPrefix? ['*', '.'] with
      | some domain => ['*', '.'] ++ normalizeHost domain
      | none => normalizeHost pattern

inductive DomainPattern where
  | apexAndSubdomains (domain : Text)
  | subdomainsOnly (domain : Text)
  | exact (domain : Text)
  deriving DecidableEq

namespace DomainPattern

def parseDomain (domain : Text) (build : Text → DomainPattern) : DomainPattern :=
  if trim domain = [] then exact [] else build (trim domain)

def parse (input : Text) : DomainPattern :=
  let input := trim input
  if input = [] then exact []
  else
    match input.dropPrefix? ['*', '*', '.'] with
    | some domain => parseDomain domain apexAndSubdomains
    | none =>
      match input.dropPrefix? ['*', '.'] with
      | some domain => parseDomain domain subdomainsOnly
      | none => exact input

end DomainPattern

/-- `urlHost` stands for `url::Host::parse` followed by its display. -/
def parseDomainForConstraints (urlHost : Text → Option Text) (domain : Text) : Text :=
  let domain := trimEndDots (trim domain)
  if domain = [] then []
  else
    let host :=
      if domain.head? = some '[' ∧ domain.getLast? = some ']' then (domain.drop 1).dropLast
      else domain
    if '*' ∈ host ∨ '?' ∈ host ∨ '%' ∈ host then domain else (urlHost host).getD []

def DomainPattern.parseForConstraints (urlHost : Text → Option Text) (input : Text) :
    DomainPattern :=
  let input := trim input
  if input = [] then exact []
  else
    match input.dropPrefix? ['*', '*', '.'] with
    | some domain => apexAndSubdomains (parseDomainForConstraints urlHost domain)
    | none =>
      match input.dropPrefix? ['*', '.'] with
      | some domain => subdomainsOnly (parseDomainForConstraints urlHost domain)
      | none => exact (parseDomainForConstraints urlHost input)

def normalizeDomain (domain : Text) : Text := toAsciiLowercase (trimEndDots domain)

def domainEq (left right : Text) : Bool := normalizeDomain left == normalizeDomain right

def isSubdomainOrEqual (child parent : Text) : Bool :=
  normalizeDomain child == normalizeDomain parent ||
    ('.' :: normalizeDomain parent).isSuffixOf (normalizeDomain child)

def isStrictSubdomain (child parent : Text) : Bool :=
  normalizeDomain child != normalizeDomain parent &&
    ('.' :: normalizeDomain parent).isSuffixOf (normalizeDomain child)

def DomainPattern.allows : DomainPattern → DomainPattern → Bool
  | exact domain, exact candidate => domainEq candidate domain
  | exact _, _ => false
  | subdomainsOnly domain, exact candidate => isStrictSubdomain candidate domain
  | subdomainsOnly domain, subdomainsOnly candidate => isSubdomainOrEqual candidate domain
  | subdomainsOnly domain, apexAndSubdomains candidate => isStrictSubdomain candidate domain
  | apexAndSubdomains domain, exact candidate => isSubdomainOrEqual candidate domain
  | apexAndSubdomains domain, subdomainsOnly candidate => isSubdomainOrEqual candidate domain
  | apexAndSubdomains domain, apexAndSubdomains candidate => isSubdomainOrEqual candidate domain

def expandDomainPattern (pattern : Text) : List Text :=
  match DomainPattern.parse pattern with
  | .exact domain => [domain]
  | .subdomainsOnly domain => [['?', '*', '.'] ++ domain]
  | .apexAndSubdomains domain => [domain, ['?', '*', '.'] ++ domain]

def isGlobalWildcardDomainPattern (pattern : Text) : Bool :=
  (expandDomainPattern (normalizePattern pattern)).any (· == ['*'])

section Globs

/-- Letters are compared without regard to ASCII case. -/
def sameLetter (a b : Char) : Bool := a.toLower == b.toLower

def wildcard (c : Char) : Wildcard Char :=
  if c = '?' then .any else if c = '*' then .many else .literal c

/-- A glob text whose only operators are `?` and single `*`: it has no class, alternates,
escape, path separator or `**`. -/
def WildcardOnly : Prop :=
  (∀ c ∈ text, c ∉ ['[', ']', '\x7b', '\x7d', '\\', '/']) ∧ ¬ ['*', '*'] <:+: text

instance : Decidable (WildcardOnly text) :=
  @instDecidableAnd _ _ (decidableBAll _ text) inferInstance

/-- The crate `globset`, with case ignored. `build` is `GlobBuilder::build` and `buildSet` is
`GlobSetBuilder::build`. What it documents of `?` and `*`, and of a set, is required; the
other operators are left open. -/
structure GlobEngine where
  Glob : Type
  GlobSet : Type
  build : Text → Option Glob
  buildSet : List Glob → Option GlobSet
  globMatches : Glob → Text → Bool
  isMatch : GlobSet → Text → Bool
  build_wildcardOnly : ∀ text, WildcardOnly text → ∃ glob, build text = some glob ∧
    ∀ host, globMatches glob host = WildcardPatterns.isMatch sameLetter (text.map wildcard) host
  isMatch_buildSet : ∀ globs set, buildSet globs = some set →
    ∀ host, isMatch set host = globs.any (globMatches · host)

inductive GlobalWildcard where
  | allow
  | reject
  deriving DecidableEq

variable (E : GlobEngine)

/-- One candidate of the inner loop; the state holds the texts seen and the globs added. -/
def addCandidate (state : List Text × List E.Glob) (candidate : Text) :
    Except String (List Text × List E.Glob) :=
  if candidate ∈ state.1 then .ok state
  else
    match E.build candidate with
    | none => .error ("invalid glob pattern: " ++ String.ofList candidate)
    | some glob => .ok (candidate :: state.1, state.2 ++ [glob])

/-- One pattern of the outer loop. -/
def addPattern (globalWildcard : GlobalWildcard) (state : List Text × List E.Glob)
    (pattern : Text) : Except String (List Text × List E.Glob) :=
  if globalWildcard = .reject ∧ isGlobalWildcardDomainPattern pattern then
    .error ("unsupported global wildcard domain pattern \"*\"; use exact hosts or scoped " ++
      "wildcards like *.example.com or **.example.com")
  else (expandDomainPattern (normalizePattern pattern)).foldlM (addCandidate E) state

variable (patterns : List Text)

def compileGlobsetWithPolicy (globalWildcard : GlobalWildcard) : Except String E.GlobSet :=
  (patterns.foldlM (addPattern E globalWildcard) ([], [])).bind fun state =>
    match E.buildSet state.2 with
    | none => .error "failed to build the glob set"
    | some set => .ok set

def compileAllowlistGlobset : Except String E.GlobSet :=
  compileGlobsetWithPolicy E patterns .allow

def compileDenylistGlobset : Except String E.GlobSet :=
  compileGlobsetWithPolicy E patterns .reject

end Globs

section CompiledSets
variable {E : GlobEngine} {globalWildcard : GlobalWildcard}
  {state next : List Text × List E.Glob} {candidates : List Text}

structure Added (candidates : List Text) (state : List Text × List E.Glob) : Prop where
  seen : ∀ candidate, candidate ∈ state.1 ↔ candidate ∈ candidates
  globs : ∀ glob, glob ∈ state.2 ↔ ∃ candidate ∈ candidates, E.build candidate = some glob

variable (h : Added candidates state)
include h

theorem Added.afterCandidate {candidate : Text} (hadd : addCandidate E state candidate = .ok next) :
    Added (candidates ++ [candidate]) next := by
  unfold addCandidate at hadd
  split at hadd
  · rename_i hseen
    obtain rfl := Except.ok.inj hadd
    have hold : ∀ c, c ∈ candidates ++ [candidate] ↔ c ∈ candidates := by
      intro c
      rw [mem_append, mem_singleton, or_iff_left_of_imp]
      rintro rfl
      exact (h.seen c).mp hseen
    refine ⟨fun c => ?_, fun glob => ?_⟩
    · rw [hold, h.seen]
    · simp only [hold, h.globs]
  · split at hadd
    · cases hadd
    · rename_i glob hbuild
      obtain rfl := Except.ok.inj hadd
      refine ⟨fun c => ?_, fun other => ?_⟩
      · rw [mem_cons, h.seen, mem_append, mem_singleton, or_comm]
      · rw [mem_append, h.globs, mem_singleton]
        constructor
        · rintro (⟨c, hc, hother⟩ | rfl)
          · exact ⟨c, mem_append_left _ hc, hother⟩
          · exact ⟨candidate, mem_append_right _ mem_cons_self, hbuild⟩
        · rintro ⟨c, hc, hother⟩
          rcases mem_append.mp hc with hc | hc
          · exact .inl ⟨c, hc, hother⟩
          · obtain rfl := mem_singleton.mp hc
            exact .inr (Option.some.inj (hother.symm.trans hbuild))

theorem Added.afterCandidates {more : List Text}
    (hadd : more.foldlM (addCandidate E) state = .ok next) : Added (candidates ++ more) next := by
  induction more generalizing candidates state with
  | nil =>
    obtain rfl := Except.ok.inj hadd
    rwa [append_nil]
  | cons candidate more ih =>
    obtain ⟨middle, hmiddle, hrest⟩ := Transducers.bind_eq_ok.mp hadd
    have hadded := ih (h.afterCandidate hmiddle) hrest
    rwa [append_assoc] at hadded

theorem Added.afterPatterns {patterns : List Text}
    (hadd : patterns.foldlM (addPattern E globalWildcard) state = .ok next) :
    Added (candidates ++ patterns.flatMap fun pattern =>
      expandDomainPattern (normalizePattern pattern)) next := by
  induction patterns generalizing candidates state with
  | nil =>
    obtain rfl := Except.ok.inj hadd
    rwa [flatMap_nil, append_nil]
  | cons pattern patterns ih =>
    obtain ⟨middle, hmiddle, hrest⟩ := Transducers.bind_eq_ok.mp hadd
    unfold addPattern at hmiddle
    split at hmiddle
    · cases hmiddle
    · have hadded := ih (h.afterCandidates hmiddle) hrest
      rw [append_assoc] at hadded
      rwa [flatMap_cons]

omit h

/-- A compiled set matches what a glob of an expanded pattern matches. -/
theorem isMatch_compileGlobset {patterns : List Text} {set : E.GlobSet}
    (h : compileGlobsetWithPolicy E patterns globalWildcard = .ok set) (host : Text) :
    E.isMatch set host = true ↔ ∃ pattern ∈ patterns,
      ∃ candidate ∈ expandDomainPattern (normalizePattern pattern),
        ∃ glob, E.build candidate = some glob ∧ E.globMatches glob host = true := by
  obtain ⟨state, hstate, hset⟩ := Transducers.bind_eq_ok.mp h
  have hempty : Added (E := E) [] ([], []) := ⟨by simp, by simp⟩
  have hadded := hempty.afterPatterns hstate
  split at hset
  · cases hset
  · rename_i built hbuilt
    obtain rfl := Except.ok.inj hset
    rw [E.isMatch_buildSet _ _ hbuilt, any_eq_true]
    constructor
    · rintro ⟨glob, hglob, hmatch⟩
      obtain ⟨candidate, hcandidate, hbuild⟩ := (hadded.globs glob).mp hglob
      obtain ⟨pattern, hpattern, hcandidate⟩ := mem_flatMap.mp hcandidate
      exact ⟨pattern, hpattern, candidate, hcandidate, glob, hbuild, hmatch⟩
    · rintro ⟨pattern, hpattern, candidate, hcandidate, glob, hbuild, hmatch⟩
      refine ⟨glob, (hadded.globs glob).mpr ⟨candidate, ?_, hbuild⟩, hmatch⟩
      exact mem_flatMap.mpr ⟨pattern, hpattern, hcandidate⟩

end CompiledSets

/-- An engine for the globs of `?` and `*`; it refuses the other operators. -/
def wildcardEngine : GlobEngine where
  Glob := Text
  GlobSet := List Text
  build text := if WildcardOnly text then some text else none
  buildSet globs := some globs
  globMatches glob host := WildcardPatterns.isMatch sameLetter (glob.map wildcard) host
  isMatch set host :=
    set.any fun glob => WildcardPatterns.isMatch sameLetter (glob.map wildcard) host
  build_wildcardOnly text h := ⟨text, if_pos h, fun _ => rfl⟩
  isMatch_buildSet globs set h host := by rw [← Option.some.inj h]

instance : DecidableEq wildcardEngine.GlobSet := inferInstanceAs (DecidableEq (List Text))

/-- The host parser of `url` on ASCII names: it refuses other letters and names whose last
label is a number, IPv4 addresses apart. -/
def asciiUrlHost : Option Text :=
  if !host.all fun c => c.isAlphanum || c == '-' || c == '.' then none
  else if ((host.splitOn '.').getLast?.getD []).all Char.isDigit then
    if isIpv4Addr host then some host else none
  else some (toAsciiLowercase host)

end DeepseekX.DomainPatterns
