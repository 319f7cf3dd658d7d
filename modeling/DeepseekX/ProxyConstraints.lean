import DeepseekX.DomainPatterns

/-!
# Network proxy configuration and its managed constraints

A configuration holds the proxy's switches, its domain permissions and its unix sockets.
Constraints from managed configuration bound what a configuration may say;
`validate_policy_against_constraints` compares the two, and `build_config_state` compiles
the domain lists of a configuration.
-/

namespace DeepseekX.ProxyConstraints
open DomainPatterns

inductive NetworkMode where
  | limited
  | full
  deriving DecidableEq

/-- The declaration order is the order of precedence for duplicate patterns. -/
inductive NetworkDomainPermission where
  | none
  | allow
  | deny
  deriving DecidableEq

def NetworkDomainPermission.precedence : NetworkDomainPermission → ℕ
  | none => 0
  | allow => 1
  | deny => 2

structure NetworkDomainPermissionEntry where
  pattern : Text
  permission : NetworkDomainPermission
  deriving DecidableEq

inductive NetworkUnixSocketPermission where
  | allow
  | none
  deriving DecidableEq

/-- `unixSockets` lists the entries of the source's ordered map. -/
structure NetworkProxySettings where
  enabled : Bool := false
  proxyUrl : Text := "http://127.0.0.1:3128".toList
  enableSocks5 : Bool := true
  socksUrl : Text := "http://127.0.0.1:8081".toList
  enableSocks5Udp : Bool := true
  allowUpstreamProxy : Bool := true
  dangerouslyAllowNonLoopbackProxy : Bool := false
  dangerouslyAllowAllUnixSockets : Bool := false
  mode : NetworkMode := .full
  domains : Option (List NetworkDomainPermissionEntry) := none
  unixSockets : Option (List (Text × NetworkUnixSocketPermission)) := none
  allowLocalBinding : Bool := false
  mitm : Bool := false
  deriving DecidableEq

structure NetworkProxyConfig where
  network : NetworkProxySettings
  deriving DecidableEq

/-- One entry of the loop of `effective_entries`: a pattern keeps its first position and
takes the permission of the highest precedence. -/
def noteEntry (effective : List NetworkDomainPermissionEntry)
    (entry : NetworkDomainPermissionEntry) : List NetworkDomainPermissionEntry :=
  if effective.any (·.pattern = entry.pattern) then
    effective.map fun old =>
      if old.pattern = entry.pattern ∧ old.permission.precedence < entry.permission.precedence then
        ⟨old.pattern, entry.permission⟩
      else old
  else effective ++ [entry]

def effectiveEntries (entries : List NetworkDomainPermissionEntry) :
    List NetworkDomainPermissionEntry :=
  entries.foldl noteEntry []

namespace NetworkProxySettings

variable (network : NetworkProxySettings)

def domainEntries (permission : NetworkDomainPermission) : Option (List Text) :=
  (network.domains.map fun entries =>
    ((effectiveEntries entries).filter (·.permission = permission)).map (·.pattern)).filter (· ≠ [])

def allowedDomains : Option (List Text) :=
  network.domainEntries .allow

def deniedDomains : Option (List Text) :=
  network.domainEntries .deny

def allowUnixSockets : List Text :=
  (network.unixSockets.map fun entries =>
    (entries.filter (·.2 = .allow)).map (·.1)).getD []

def upsertDomainPermission (host : Text)
    (permission : NetworkDomainPermission) (normalize : Text → Text) : NetworkProxySettings :=
  let kept := (network.domains.getD []).filter fun entry =>
    normalize entry.pattern ≠ normalize host
  { network with domains := some (kept ++ [⟨host, permission⟩]) }

end NetworkProxySettings

structure NetworkProxyConstraints where
  enabled : Option Bool := none
  mode : Option NetworkMode := none
  allowUpstreamProxy : Option Bool := none
  dangerouslyAllowNonLoopbackProxy : Option Bool := none
  dangerouslyAllowAllUnixSockets : Option Bool := none
  allowedDomains : Option (List Text) := none
  allowlistExpansionEnabled : Option Bool := none
  deniedDomains : Option (List Text) := none
  denylistExpansionEnabled : Option Bool := none
  allowUnixSockets : Option (List Text) := none
  allowLocalBinding : Option Bool := none
  deriving DecidableEq

/-- A value in an error: a text, or a list that the source renders with `{:?}`. -/
inductive Shown where
  | text (text : String)
  | entry (entry : Text)
  | debug (entries : List Text)
  deriving DecidableEq

/-- `NetworkProxyConstraintError::InvalidValue`. -/
structure NetworkProxyConstraintError where
  fieldName : String
  candidate : Shown
  allowed : Shown
  deriving DecidableEq

def validateNonGlobalWildcardDomainPatterns (fieldName : String) (patterns : List Text) :
    Except NetworkProxyConstraintError Unit :=
  match patterns.find? isGlobalWildcardDomainPattern with
  | some pattern => .error ⟨fieldName, .entry (trim pattern),
      .text "exact hosts or scoped wildcards like *.example.com or **.example.com"⟩
  | none => .ok ()

/-- A switch that managed configuration may turn off. -/
def validateSwitch (fieldName : String) (candidate permitted : Bool) :
    Except NetworkProxyConstraintError Unit :=
  if candidate && !permitted then
    .error ⟨fieldName, .text "true", .text "false (disabled by managed config)"⟩
  else .ok ()

def networkModeRank : NetworkMode → ℕ
  | .limited => 0
  | .full => 1

def networkModeName : NetworkMode → String
  | .limited => "Limited"
  | .full => "Full"

def validateMode (candidate maxMode : NetworkMode) : Except NetworkProxyConstraintError Unit :=
  if networkModeRank candidate > networkModeRank maxMode then
    .error ⟨"network.mode", .text (networkModeName candidate),
      .text (networkModeName maxMode ++ " or more restrictive")⟩
  else .ok ()

/-- `if let Some(managed) = constraint`. -/
def whenConstrained {α : Type*} (constraint : Option α)
    (validate : α → Except NetworkProxyConstraintError Unit) :
    Except NetworkProxyConstraintError Unit :=
  match constraint with
  | none => .ok ()
  | some managed => validate managed

/-- The entries as the source's sets hold them. -/
def lowercased (entries : List Text) : List Text := entries.map toAsciiLowercase

def sameSet (left right : List Text) : Bool :=
  left.all (· ∈ right) && right.all (· ∈ left)

variable (urlHost : Text → Option Text)

/-- The order of the missing entries is that of the managed list; the source takes it from a
hash set. -/
def validateAllowedDomains (managed : List Text) (expansionEnabled : Option Bool)
    (candidate denied : List Text) : Except NetworkProxyConstraintError Unit :=
  match expansionEnabled with
  | some true =>
    let missing := (lowercased managed).dedup.filter fun entry =>
      entry ∉ lowercased candidate ∧ entry ∉ lowercased denied
    if missing = [] then .ok ()
    else .error ⟨"network.allowed_domains", .text "missing managed allowed_domains entries",
      .debug missing⟩
  | some false =>
    let expected := (lowercased managed).filter fun entry => entry ∉ lowercased denied
    if sameSet (lowercased candidate) expected then .ok ()
    else .error ⟨"network.allowed_domains", .debug candidate,
      .text "must match managed allowed_domains"⟩
  | none =>
    let managedPatterns := managed.map (DomainPattern.parseForConstraints urlHost)
    let invalid := candidate.filter fun entry =>
      !managedPatterns.any (·.allows (DomainPattern.parseForConstraints urlHost entry))
    if invalid = [] then .ok ()
    else .error ⟨"network.allowed_domains", .debug invalid,
      .text "subset of managed allowed_domains"⟩

def validateDeniedDomains (managed : List Text) (expansionEnabled : Option Bool)
    (candidate : List Text) : Except NetworkProxyConstraintError Unit :=
  match expansionEnabled with
  | some false =>
    if sameSet (lowercased candidate) (lowercased managed) then .ok ()
    else .error ⟨"network.denied_domains", .debug candidate,
      .text "must match managed denied_domains"⟩
  | some true | none =>
    let missing := (lowercased managed).dedup.filter fun entry => entry ∉ lowercased candidate
    if missing = [] then .ok ()
    else .error ⟨"network.denied_domains", .text "missing managed denied_domains entries",
      .debug missing⟩

def validateUnixSockets (managed candidate : List Text) : Except NetworkProxyConstraintError Unit :=
  let invalid := candidate.filter fun entry => toAsciiLowercase entry ∉ lowercased managed
  if invalid = [] then .ok ()
  else .error ⟨"network.allow_unix_sockets", .debug invalid,
    .text "subset of managed allow_unix_sockets"⟩

def validatePolicyAgainstConstraints (config : NetworkProxyConfig)
    (constraints : NetworkProxyConstraints) : Except NetworkProxyConstraintError Unit := do
  let network := config.network
  let configAllowedDomains := network.allowedDomains.getD []
  let configDeniedDomains := network.deniedDomains.getD []
  validateNonGlobalWildcardDomainPatterns "network.denied_domains" configDeniedDomains
  whenConstrained constraints.enabled (validateSwitch "network.enabled" network.enabled)
  whenConstrained constraints.mode (validateMode network.mode)
  validateSwitch "network.allow_upstream_proxy" network.allowUpstreamProxy
    (constraints.allowUpstreamProxy.getD true)
  validateSwitch "network.dangerously_allow_non_loopback_proxy"
    network.dangerouslyAllowNonLoopbackProxy
    (constraints.dangerouslyAllowNonLoopbackProxy.getD true)
  validateSwitch "network.dangerously_allow_all_unix_sockets"
    network.dangerouslyAllowAllUnixSockets
    (constraints.dangerouslyAllowAllUnixSockets.getD constraints.allowUnixSockets.isNone)
  whenConstrained constraints.allowLocalBinding
    (validateSwitch "network.allow_local_binding" network.allowLocalBinding)
  whenConstrained constraints.allowedDomains fun managed => do
    validateNonGlobalWildcardDomainPatterns "network.allowed_domains" managed
    validateAllowedDomains urlHost managed constraints.allowlistExpansionEnabled
      configAllowedDomains configDeniedDomains
  whenConstrained constraints.deniedDomains fun managed => do
    validateNonGlobalWildcardDomainPatterns "network.denied_domains" managed
    validateDeniedDomains managed constraints.denylistExpansionEnabled configDeniedDomains
  whenConstrained constraints.allowUnixSockets fun managed =>
    validateUnixSockets managed network.allowUnixSockets

/-- The managed configuration's bounds, taken one by one. -/
structure Accepts (network : NetworkProxySettings) (constraints : NetworkProxyConstraints) :
    Prop where
  denylist : validateNonGlobalWildcardDomainPatterns "network.denied_domains"
    (network.deniedDomains.getD []) = .ok ()
  enabled : whenConstrained constraints.enabled
    (validateSwitch "network.enabled" network.enabled) = .ok ()
  mode : whenConstrained constraints.mode (validateMode network.mode) = .ok ()
  upstreamProxy : validateSwitch "network.allow_upstream_proxy" network.allowUpstreamProxy
    (constraints.allowUpstreamProxy.getD true) = .ok ()
  nonLoopbackProxy : validateSwitch "network.dangerously_allow_non_loopback_proxy"
    network.dangerouslyAllowNonLoopbackProxy
    (constraints.dangerouslyAllowNonLoopbackProxy.getD true) = .ok ()
  allUnixSockets : validateSwitch "network.dangerously_allow_all_unix_sockets"
    network.dangerouslyAllowAllUnixSockets
    (constraints.dangerouslyAllowAllUnixSockets.getD constraints.allowUnixSockets.isNone) = .ok ()
  localBinding : whenConstrained constraints.allowLocalBinding
    (validateSwitch "network.allow_local_binding" network.allowLocalBinding) = .ok ()
  allowedDomains : (whenConstrained constraints.allowedDomains fun managed => do
    validateNonGlobalWildcardDomainPatterns "network.allowed_domains" managed
    validateAllowedDomains urlHost managed constraints.allowlistExpansionEnabled
      (network.allowedDomains.getD []) (network.deniedDomains.getD [])) = .ok ()
  deniedDomains : (whenConstrained constraints.deniedDomains fun managed => do
    validateNonGlobalWildcardDomainPatterns "network.denied_domains" managed
    validateDeniedDomains managed constraints.denylistExpansionEnabled
      (network.deniedDomains.getD [])) = .ok ()
  unixSockets : (whenConstrained constraints.allowUnixSockets fun managed =>
    validateUnixSockets managed network.allowUnixSockets) = .ok ()

theorem check_bind_eq_ok {ε : Type*} {x y : Except ε Unit} :
    (x >>= fun _ => y) = .ok () ↔ x = .ok () ∧ y = .ok () := by
  cases x with
  | error | ok => simp [bind]

theorem validatePolicy_eq_ok {urlHost : Text → Option Text} {config : NetworkProxyConfig}
    {constraints : NetworkProxyConstraints} :
    validatePolicyAgainstConstraints urlHost config constraints = .ok () ↔
      Accepts urlHost config.network constraints := by
  unfold validatePolicyAgainstConstraints
  iterate 9 rw [check_bind_eq_ok]
  constructor
  · rintro ⟨h1, h2, h3, h4, h5, h6, h7, h8, h9, h10⟩
    exact ⟨h1, h2, h3, h4, h5, h6, h7, h8, h9, h10⟩
  · rintro ⟨h1, h2, h3, h4, h5, h6, h7, h8, h9, h10⟩
    exact ⟨h1, h2, h3, h4, h5, h6, h7, h8, h9, h10⟩

def allowOnly (patterns : List String) : NetworkProxyConfig :=
  { network := { domains := some (patterns.map fun pattern => ⟨pattern.toList, .allow⟩) } }

def manageOnly (patterns : List String) : NetworkProxyConstraints :=
  { allowedDomains := some (patterns.map String.toList) }

end DeepseekX.ProxyConstraints
