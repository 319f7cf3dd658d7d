import DeepseekX.DomainPatterns
import DeepseekX.ExecPolicies

/-!
# Network rules of an exec policy

A network rule allows or denies one host. The rules of a policy are compiled in their order
into a list of allowed and one of denied hosts. An approval of the user is appended as a line
to the rules file, unless that very line stands in it already, and is pushed onto the rules of
the policy in memory. A policy is loaded by evaluating the rules file as a Starlark module; the
managed requirements are merged over it.
-/

namespace DeepseekX.ExecPolicies
open DomainPatterns

def isPort (port : Text) : Bool := port ≠ [] && port.all Char.isDigit

/-- The host without the brackets of an IPv6 literal and without a port. -/
def withoutPort (raw : String) (host : Text) : Except Error Text :=
  match host with
  | '[' :: stripped =>
    match splitOnce [']'] stripped with
    | none => .error (.invalidRule "network_rule host has an invalid bracketed IPv6 literal")
    | some (inside, rest) =>
      if rest ≠ [] ∧ ¬(rest.head? = some ':' ∧ isPort rest.tail) then
        .error (.invalidRule ("network_rule host contains an unsupported suffix: " ++ raw))
      else .ok inside
  | host =>
    match host.splitOn ':' with
    | [candidate, port] => if candidate ≠ [] ∧ isPort port then .ok candidate else .ok host
    | _ => .ok host

def normalizeNetworkRuleHost (raw : String) : Except Error String :=
  let host := trim raw.toList
  if host = [] then .error (.invalidRule "network_rule host cannot be empty")
  else if ['/', '?', '#'].any (· ∈ host) then
    .error (.invalidRule
      "network_rule host must be a hostname or IP literal (without scheme or path)")
  else
    (withoutPort raw host).bind fun host =>
      let normalized := toAsciiLowercase (trim (trimEndDots host))
      if normalized = [] then .error (.invalidRule "network_rule host cannot be empty")
      else if '*' ∈ normalized then
        .error (.invalidRule "network_rule host must be a specific host; wildcards are not allowed")
      else if normalized.any SeekSequence.isWhitespace then
        .error (.invalidRule "network_rule host cannot contain whitespace")
      else .ok (String.ofList normalized)

namespace Policy

def addNetworkRule (policy : Policy) (host : String) (protocol : NetworkRuleProtocol)
    (decision : Decision) (justification : Option String) : Except Error Policy :=
  (normalizeNetworkRuleHost host).bind fun host =>
    if justification.any (SeekSequence.trim · = "") then
      .error (.invalidRule "justification cannot be empty")
    else
      .ok { policy with
        networkRules := policy.networkRules ++ [⟨host, protocol, decision, justification⟩] }

def upsertDomain (entries : List String) (host : String) : List String :=
  entries.filter (· ≠ host) ++ [host]

/-- One iteration of `compiled_network_domains`. -/
def compileRule (domains : List String × List String) (rule : NetworkRule) :
    List String × List String :=
  match rule.decision with
  | .allow => (upsertDomain domains.1 rule.host, domains.2.filter (· ≠ rule.host))
  | .forbidden => (domains.1.filter (· ≠ rule.host), upsertDomain domains.2 rule.host)
  | .prompt => domains

def compiledNetworkDomains (policy : Policy) : List String × List String :=
  policy.networkRules.foldl compileRule ([], [])

end Policy

/-- A line of a rules file: one that `blocking_append_network_rule` writes, told by the
arguments it is written from, or any other text. -/
inductive RuleLine where
  | networkRule (host : String) (protocol : NetworkRuleProtocol) (decision : Decision)
      (justification : Option String)
  | other (text : String)
  deriving DecidableEq

/-- What is used of the Starlark evaluation of a rules file. Statements take effect in their
order, so a call of `network_rule` in the last line comes last, as long as the file has not
given that name to something of its own. -/
structure Starlark where
  evaluate : List RuleLine → Option Policy
  KeepsNames : List RuleLine → Prop
  keepsNames_append : ∀ lines host protocol decision justification, KeepsNames lines →
    KeepsNames (lines ++ [.networkRule host protocol decision justification])
  evaluate_append : ∀ lines host protocol decision justification, KeepsNames lines →
    evaluate (lines ++ [.networkRule host protocol decision justification]) =
      (evaluate lines).bind fun policy =>
        (policy.addNetworkRule host protocol decision justification).toOption

def appendLockedLine (lines : List RuleLine) (line : RuleLine) : List RuleLine :=
  if line ∈ lines then lines else lines ++ [line]

def blockingAppendNetworkRule (lines : List RuleLine) (host : String)
    (protocol : NetworkRuleProtocol) (decision : Decision) (justification : Option String) :
    Except Error (List RuleLine) :=
  (normalizeNetworkRuleHost host).bind fun host =>
    if justification.any (SeekSequence.trim · = "") then
      .error (.invalidRule "justification cannot be empty")
    else .ok (appendLockedLine lines (.networkRule host protocol decision justification))

structure ExecPolicyManager where
  rulesFile : List RuleLine
  policy : Policy

/-- An approval or a refusal of a host by the user. -/
structure NetworkAmendment where
  host : String
  protocol : NetworkRuleProtocol
  decision : Decision
  justification : Option String

namespace ExecPolicyManager

/-- `load_exec_policy` with one rules file. -/
def loadExecPolicy (starlark : Starlark) (rulesFile : List RuleLine) (requirements : Policy) :
    Option Policy :=
  (starlark.evaluate rulesFile).map (·.mergeOverlay requirements)

def appendNetworkRuleAndUpdate (manager : ExecPolicyManager) (amendment : NetworkAmendment) :
    Except Error ExecPolicyManager :=
  (blockingAppendNetworkRule manager.rulesFile amendment.host amendment.protocol
    amendment.decision amendment.justification).bind fun rulesFile =>
  (manager.policy.addNetworkRule amendment.host amendment.protocol amendment.decision
    amendment.justification).map fun policy => ⟨rulesFile, policy⟩

/-- A call that fails changes nothing. -/
def step (manager : ExecPolicyManager) (amendment : NetworkAmendment) : ExecPolicyManager :=
  match manager.appendNetworkRuleAndUpdate amendment with
  | .ok updated => updated
  | .error _ => manager

end ExecPolicyManager

end DeepseekX.ExecPolicies
