import Mathlib.Order.MinMax
import DeepseekX.AbsolutePaths

/-!
# Exec policies

A policy holds prefix rules under the first token of their pattern. A command is matched
against the rules under its own first token; only if none of them matches, and if the
caller asks for it, against the rules under the file name of its program. The host
executables of that name, when there is a list of them, restrict this fallback. The
strictest decision of the matching rules counts.
-/

namespace DeepseekX.ExecPolicies
open AbsolutePaths

inductive Decision where
  | allow
  | prompt
  | forbidden
  deriving DecidableEq, Repr

/-- The derived order: later variants are stricter. -/
def Decision.rank : Decision → ℕ
  | allow => 0
  | prompt => 1
  | forbidden => 2

theorem Decision.rank_injective : Function.Injective Decision.rank := by
  intro a b h
  cases a <;> cases b <;> first | rfl | cases h

instance : LinearOrder Decision := LinearOrder.lift' Decision.rank Decision.rank_injective

instance : Std.LawfulOrderMax Decision where
  max_le_iff _ _ _ := max_le_iff
  max_eq_or := max_choice

inductive PatternToken where
  | single (expected : String)
  | alts (alternatives : List String)
  deriving DecidableEq

def PatternToken.matchesToken : PatternToken → String → Bool
  | single expected, token => expected == token
  | alts alternatives, token => alternatives.any (· == token)

structure PrefixPattern where
  first : String
  rest : List PatternToken
  deriving DecidableEq

def PrefixPattern.matchesPrefix (pattern : PrefixPattern) (cmd : List String) :
    Option (List String) :=
  let patternLength := pattern.rest.length + 1
  if cmd.length < patternLength ∨ cmd.head? ≠ some pattern.first then none
  else if (pattern.rest.zip cmd.tail).all fun (token, word) => token.matchesToken word then
    some (cmd.take patternLength)
  else none

inductive RuleMatch where
  | prefixRuleMatch (matchedPrefix : List String) (decision : Decision)
      (resolvedProgram : Option AbsolutePathBuf) (justification : Option String)
  | heuristicsRuleMatch (command : List String) (decision : Decision)
  deriving DecidableEq

namespace RuleMatch

def decision : RuleMatch → Decision
  | prefixRuleMatch _ decision _ _ | heuristicsRuleMatch _ decision => decision

def withResolvedProgram (resolvedProgram : AbsolutePathBuf) : RuleMatch → RuleMatch
  | prefixRuleMatch matchedPrefix decision _ justification =>
    prefixRuleMatch matchedPrefix decision (some resolvedProgram) justification
  | heuristicsRuleMatch command decision => heuristicsRuleMatch command decision

def isPrefixRuleMatch : RuleMatch → Bool
  | prefixRuleMatch .. => true
  | heuristicsRuleMatch .. => false

end RuleMatch

structure PrefixRule where
  pattern : PrefixPattern
  decision : Decision
  justification : Option String
  deriving DecidableEq

def PrefixRule.matchesCommand (rule : PrefixRule) (cmd : List String) : Option RuleMatch :=
  (rule.pattern.matchesPrefix cmd).map fun matchedPrefix =>
    .prefixRuleMatch matchedPrefix rule.decision none rule.justification

inductive NetworkRuleProtocol where
  | http
  | https
  | socks5Tcp
  | socks5Udp
  deriving DecidableEq

structure NetworkRule where
  host : String
  protocol : NetworkRuleProtocol
  decision : Decision
  justification : Option String
  deriving DecidableEq

/-- What the process knows of its surroundings: the home directory, and the current one
unless it cannot be read. -/
structure Host where
  home : Option PathBuf
  currentDir : Option AbsolutePathBuf

def componentOf (name : String) : Component :=
  if name = "." then .curDir else if name = ".." then .parentDir else .normal name

def pathOf (text : String) : PathBuf :=
  ⟨text.toList.head? == some '/',
    (((text.toList.splitOn '/').filter (· ≠ [])).map String.ofList).map componentOf⟩

/-- `AbsolutePathBuf::try_from`. -/
def fromAbsolutePath (host : Host) (text : String) : Option AbsolutePathBuf :=
  let expanded := maybeExpandHomeDirectory host.home (pathOf text)
  if expanded.isAbsolute then some (AbsolutePathBuf.absolutizeFrom expanded ⟨[]⟩)
  else host.currentDir.map (AbsolutePathBuf.absolutizeFrom expanded)

def executablePathLookupKey (program : AbsolutePathBuf) : Option String := program.names.getLast?

def resolveProgram (host : Host) (cmd : List String) : Option (AbsolutePathBuf × String) := do
  let program ← fromAbsolutePath host (← cmd.head?)
  let basename ← executablePathLookupKey program
  return (program, basename)

inductive Error where
  | invalidPattern (message : String)
  | invalidRule (message : String)
  deriving DecidableEq

structure MatchOptions where
  resolveHostExecutables : Bool
  deriving DecidableEq

/-- The rules stand in the order of their insertion, of which only that under one program
counts; of the lists for a name the first one counts. -/
structure Policy where
  rulesByProgram : List (String × PrefixRule)
  networkRules : List NetworkRule
  hostExecutablesByName : List (String × List AbsolutePathBuf)
  deriving DecidableEq

namespace Policy

def empty : Policy := ⟨[], [], []⟩

variable (policy : Policy)

/-- `rules_by_program.get_vec`. -/
def rulesFor (program : String) : List PrefixRule :=
  (policy.rulesByProgram.filter (·.1 == program)).map (·.2)

def addPrefixRule (tokens : List String) (decision : Decision) : Except Error Policy :=
  match tokens with
  | [] => .error (.invalidPattern "prefix cannot be empty")
  | first :: rest =>
    .ok { policy with
      rulesByProgram := policy.rulesByProgram ++
        [(first, ⟨⟨first, rest.map .single⟩, decision, none⟩)] }

def mergeOverlay (policy overlay : Policy) : Policy where
  rulesByProgram := policy.rulesByProgram ++ overlay.rulesByProgram
  networkRules := policy.networkRules ++ overlay.networkRules
  hostExecutablesByName := overlay.hostExecutablesByName ++ policy.hostExecutablesByName

def matchExactRules (cmd : List String) : Option (List RuleMatch) :=
  cmd.head?.map fun first => (policy.rulesFor first).filterMap (·.matchesCommand cmd)

/-- A list of host executables of that name leaves the program out. -/
def excludes (program : AbsolutePathBuf) (basename : String) : Bool :=
  (policy.hostExecutablesByName.lookup basename).any fun paths => !paths.contains program

def matchHostExecutableRules (host : Host) (policy : Policy) (cmd : List String) : List RuleMatch :=
  match resolveProgram host cmd with
  | none => []
  | some (program, basename) =>
    if policy.excludes program basename then []
    else
      ((policy.rulesFor basename).filterMap (·.matchesCommand (basename :: cmd.drop 1))).map
        (·.withResolvedProgram program)

def matchesForCommandWithOptions (host : Host) (policy : Policy) (cmd : List String)
    (heuristicsFallback : Option (List String → Decision)) (options : MatchOptions) :
    List RuleMatch :=
  let matchedRules :=
    (((policy.matchExactRules cmd).filter (!·.isEmpty)).or
      ((if options.resolveHostExecutables then some (policy.matchHostExecutableRules host cmd)
        else none).filter (!·.isEmpty))).getD []
  match matchedRules, heuristicsFallback with
  | [], some heuristicsFallback => [.heuristicsRuleMatch cmd (heuristicsFallback cmd)]
  | matchedRules, _ => matchedRules

end Policy

structure Evaluation where
  decision : Decision
  matchedRules : List RuleMatch
  deriving DecidableEq

namespace Evaluation

def isMatch (evaluation : Evaluation) : Bool :=
  evaluation.matchedRules.any RuleMatch.isPrefixRuleMatch

/-- The decision of no rules is a panic. -/
def fromMatches (matchedRules : List RuleMatch) : Option Evaluation :=
  (matchedRules.map RuleMatch.decision).max?.map fun decision => ⟨decision, matchedRules⟩

end Evaluation

def Policy.checkWithOptions (host : Host) (policy : Policy) (cmd : List String)
    (heuristicsFallback : List String → Decision) (options : MatchOptions) : Option Evaluation :=
  Evaluation.fromMatches
    (policy.matchesForCommandWithOptions host cmd (some heuristicsFallback) options)

end DeepseekX.ExecPolicies
