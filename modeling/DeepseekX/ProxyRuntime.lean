import DeepseekX.Interleavings
import DeepseekX.ProxyConstraints

/-!
# The live policy of the network proxy

The proxy keeps one `ConfigState` behind a read-write lock. Updates read a snapshot, check
it without the lock, and install the outcome under the lock after a second look at what is
installed by then. A call is a task here; its steps are the lock acquisitions and the calls
of the reloader.
-/

namespace DeepseekX.ProxyRuntime
open DomainPatterns ProxyConstraints Interleavings Transducers

section ConfigStates

structure MitmUpstreamConfig where
  allowUpstreamProxy : Bool
  allowLocalBinding : Bool
  deriving DecidableEq

/-- `Mitm` and `Request` are the interception state and the recorded requests, which no
decision reads. -/
structure ConfigState (E : GlobEngine) (Mitm Request : Type) where
  config : NetworkProxyConfig
  allowSet : E.GlobSet
  denySet : E.GlobSet
  mitm : Option Mitm
  constraints : NetworkProxyConstraints
  blocked : List Request
  blockedTotal : ℕ

inductive BuildError where
  | unixSocket (index : ℕ) (path : Text)
  | constraint (error : NetworkProxyConstraintError)
  | globset (message : String)
  | mitm (message : String)

def validateUnixSocketAllowlistPaths (config : NetworkProxyConfig) : Except BuildError Unit :=
  match config.network.allowUnixSockets.zipIdx.find? (·.1.head? ≠ some '/') with
  | some (path, index) => .error (.unixSocket index path)
  | none => .ok ()

variable (E : GlobEngine) {Mitm : Type} (newMitm : MitmUpstreamConfig → Except String Mitm)

def buildMitm (network : NetworkProxySettings) : Except BuildError (Option Mitm) :=
  if network.mitm then
    ((newMitm ⟨network.allowUpstreamProxy, network.allowLocalBinding⟩).map some).mapError .mitm
  else .ok none

def buildConfigState (Request : Type) (config : NetworkProxyConfig)
    (constraints : NetworkProxyConstraints) :
    Except BuildError (ConfigState E Mitm Request) := do
  validateUnixSocketAllowlistPaths config
  let allowedDomains := config.network.allowedDomains.getD []
  let deniedDomains := config.network.deniedDomains.getD []
  (validateNonGlobalWildcardDomainPatterns "network.denied_domains" deniedDomains).mapError
    .constraint
  let denySet ← (compileDenylistGlobset E deniedDomains).mapError .globset
  let allowSet ← (compileAllowlistGlobset E allowedDomains).mapError .globset
  let mitm ← buildMitm newMitm config.network
  .ok ⟨config, allowSet, denySet, mitm, constraints, [], 0⟩

end ConfigStates

section Operations

inductive DomainListKind where
  | allow
  | deny
  deriving DecidableEq

namespace DomainListKind

def listName : DomainListKind → String
  | allow => "allowlist"
  | deny => "denylist"

def constraintField : DomainListKind → String
  | allow => "network.allowed_domains"
  | deny => "network.denied_domains"

def permission : DomainListKind → NetworkDomainPermission
  | allow => .allow
  | deny => .deny

def entries (target : DomainListKind) (network : NetworkProxySettings) : List Text :=
  match target with
  | allow => network.allowedDomains.getD []
  | deny => network.deniedDomains.getD []

def oppositeEntries (target : DomainListKind) (network : NetworkProxySettings) : List Text :=
  match target with
  | allow => network.deniedDomains.getD []
  | deny => network.allowedDomains.getD []

end DomainListKind

variable (E : GlobEngine) (Mitm Request : Type)

/-- A call after the checks it makes on its arguments. `inspect` stands for the calls that
only read the state. -/
inductive Call where
  | setNetworkMode (mode : NetworkMode)
  | updateDomainList (normalizedHost : Text) (target : DomainListKind)
  | recordBlocked (entry : Request)
  | drainBlocked
  | replaceConfigState (newState : ConfigState E Mitm Request)
  | inspect

inductive Operation where
  | setNetworkMode (mode : NetworkMode)
  | addAllowedDomain (host : Text)
  | addDeniedDomain (host : Text)
  | recordBlocked (entry : Request)
  | drainBlocked
  | replaceConfigState (newState : ConfigState E Mitm Request)
  | forceReload
  | inspect

inductive OperationError where
  | host (context message : String)
  | reload (message : String)
  | constrained (context : String) (error : NetworkProxyConstraintError)
  | build (context : String) (error : BuildError)

/-- What a call is about to do: ask the reloader, take the lock, or nothing more. -/
inductive Task where
  | maybeReload (call : Call E Mitm Request)
  | reloadSnapshot (call : Call E Mitm Request) (newState : ConfigState E Mitm Request)
  | reloadInstall (call : Call E Mitm Request) (newState : ConfigState E Mitm Request)
  | act (call : Call E Mitm Request)
  | modeInstall (mode : NetworkMode) (constraints : NetworkProxyConstraints)
  | domainInstall (normalizedHost : Text) (target : DomainListKind)
      (previousCfg : NetworkProxyConfig) (constraints : NetworkProxyConstraints)
      (newState : ConfigState E Mitm Request)
  | forceSnapshot
  | reloadNow
  | forceInstall (newState : ConfigState E Mitm Request)
  | finished (result : Except OperationError Unit)

/-- What the reloader answers at a step that asks it. -/
structure Reply where
  maybeReload : Except String (Option (ConfigState E Mitm Request))
  reloadNow : Except String (ConfigState E Mitm Request)

variable {E Mitm Request}

def updateDomainList (host : Text) (target : DomainListKind) : Task E Mitm Request :=
  match parseHost host with
  | .error message => .finished (.error (.host "invalid network host" message))
  | .ok normalizedHost => .maybeReload (.updateDomainList normalizedHost target)

def Operation.begin : Operation E Mitm Request → Task E Mitm Request
  | setNetworkMode mode => .maybeReload (.setNetworkMode mode)
  | addAllowedDomain host => updateDomainList host .allow
  | addDeniedDomain host => updateDomainList host .deny
  | recordBlocked entry => .maybeReload (.recordBlocked entry)
  | drainBlocked => .maybeReload .drainBlocked
  | replaceConfigState newState => .maybeReload (.replaceConfigState newState)
  | forceReload => .forceSnapshot
  | inspect => .maybeReload .inspect

def maxBlockedEvents : ℕ := 200

def pushBlocked (blocked : List Request) (entry : Request) : List Request :=
  (blocked ++ [entry]).drop ((blocked ++ [entry]).length - maxBlockedEvents)

def withMode (config : NetworkProxyConfig) (mode : NetworkMode) : NetworkProxyConfig :=
  { config with network := { config.network with mode := mode } }

variable (urlHost : Text → Option Text) (newMitm : MitmUpstreamConfig → Except String Mitm)
variable (shared : ConfigState E Mitm Request)

/-- The read section of `set_network_mode` and the check that follows it. -/
def prepareMode (mode : NetworkMode) : Task E Mitm Request :=
  match validatePolicyAgainstConstraints urlHost (withMode shared.config mode)
      shared.constraints with
  | .error error =>
    .finished (.error (.constrained "network.mode constrained by managed config" error))
  | .ok () => .modeInstall mode shared.constraints

/-- The read section of `update_domain_list` and the checks that follow it. -/
def prepareDomain (normalizedHost : Text) (target : DomainListKind) : Task E Mitm Request :=
  let network := shared.config.network
  let targetContains := (target.entries network).any (normalizeHost · == normalizedHost)
  let oppositeContains := (target.oppositeEntries network).any (normalizeHost · == normalizedHost)
  if targetContains && !oppositeContains then .finished (.ok ())
  else
    let candidate : NetworkProxyConfig :=
      { network := network.upsertDomainPermission normalizedHost target.permission normalizeHost }
    match validatePolicyAgainstConstraints urlHost candidate shared.constraints with
    | .error error =>
      .finished (.error (.constrained (target.constraintField ++ " constrained by managed config")
        error))
    | .ok () =>
      match buildConfigState E newMitm Request candidate shared.constraints with
      | .error error =>
        .finished (.error (.build ("failed to compile updated network " ++ target.listName) error))
      | .ok newState =>
        .domainInstall normalizedHost target shared.config shared.constraints
          { newState with blocked := shared.blocked, blockedTotal := shared.blockedTotal }

def act : Call E Mitm Request → ConfigState E Mitm Request × Task E Mitm Request
  | .setNetworkMode mode => (shared, prepareMode urlHost shared mode)
  | .updateDomainList normalizedHost target =>
    (shared, prepareDomain urlHost newMitm shared normalizedHost target)
  | .recordBlocked entry =>
    ({ shared with
        blocked := pushBlocked shared.blocked entry
        blockedTotal := min (shared.blockedTotal + 1) (2 ^ 64 - 1) }, .finished (.ok ()))
  | .drainBlocked => ({ shared with blocked := [] }, .finished (.ok ()))
  | .replaceConfigState newState =>
    ({ newState with blocked := shared.blocked, blockedTotal := shared.blockedTotal },
      .finished (.ok ()))
  | .inspect => (shared, .finished (.ok ()))

def step (reply : Reply E Mitm Request) (shared : ConfigState E Mitm Request) :
    Task E Mitm Request → ConfigState E Mitm Request × Task E Mitm Request
  | .maybeReload call =>
    match reply.maybeReload with
    | .error message => (shared, .finished (.error (.reload message)))
    | .ok none => (shared, .act call)
    | .ok (some newState) => (shared, .reloadSnapshot call newState)
  | .reloadSnapshot call newState =>
    (shared, .reloadInstall call
      { newState with blocked := shared.blocked, blockedTotal := shared.blockedTotal })
  | .reloadInstall call newState => (newState, .act call)
  | .act call => act urlHost newMitm shared call
  | .modeInstall mode constraints =>
    if shared.constraints ≠ constraints then (shared, .maybeReload (.setNetworkMode mode))
    else ({ shared with config := withMode shared.config mode }, .finished (.ok ()))
  | .domainInstall normalizedHost target previousCfg constraints newState =>
    if shared.constraints ≠ constraints ∨ shared.config ≠ previousCfg then
      (shared, .maybeReload (.updateDomainList normalizedHost target))
    else (newState, .finished (.ok ()))
  | .forceSnapshot => (shared, .reloadNow)
  | .reloadNow =>
    match reply.reloadNow with
    | .error message => (shared, .finished (.error (.reload message)))
    | .ok newState => (shared, .forceInstall newState)
  | .forceInstall newState =>
    ({ newState with blocked := shared.blocked }, .finished (.ok ()))
  | .finished result => (shared, .finished result)

/-- The proxy with its operations under way, along a schedule. -/
def runOperations {ι : Type*} [DecidableEq ι] (initial : ConfigState E Mitm Request)
    (operations : ι → Operation E Mitm Request)
    (schedule : List (ι × Reply E Mitm Request)) :
    System ι (ConfigState E Mitm Request) (Task E Mitm Request) :=
  System.run (step urlHost newMitm) ⟨initial, fun i => (operations i).begin⟩ schedule

end Operations

section Invariant
variable {E : GlobEngine} {Mitm Request : Type} (urlHost : Text → Option Text)

/-- The configuration is accepted by the constraints beside it and the glob sets are those
compiled from it. -/
structure Sound (state : ConfigState E Mitm Request) : Prop where
  accepted : validatePolicyAgainstConstraints urlHost state.config state.constraints = .ok ()
  allowSet : compileAllowlistGlobset E (state.config.network.allowedDomains.getD []) =
    .ok state.allowSet
  denySet : compileDenylistGlobset E (state.config.network.deniedDomains.getD []) =
    .ok state.denySet

/-- The state that a call carries along is sound. -/
def CallSound : Call E Mitm Request → Prop
  | .replaceConfigState newState => Sound urlHost newState
  | _ => True

/-- What a task may rely on when it takes the lock again. -/
def TaskSound : Task E Mitm Request → Prop
  | .maybeReload call | .act call => CallSound urlHost call
  | .reloadSnapshot call newState | .reloadInstall call newState =>
    CallSound urlHost call ∧ Sound urlHost newState
  | .modeInstall mode constraints => whenConstrained constraints.mode (validateMode mode) = .ok ()
  | .domainInstall _ _ _ _ newState | .forceInstall newState => Sound urlHost newState
  | .forceSnapshot | .reloadNow | .finished _ => True

/-- The reloader only hands out sound states. -/
def ReplySound (reply : Reply E Mitm Request) : Prop :=
  (∀ newState, reply.maybeReload = .ok (some newState) → Sound urlHost newState) ∧
    ∀ newState, reply.reloadNow = .ok newState → Sound urlHost newState

def OperationSound : Operation E Mitm Request → Prop
  | .replaceConfigState newState => Sound urlHost newState
  | _ => True

variable {urlHost} {newMitm : MitmUpstreamConfig → Except String Mitm}
  {shared state : ConfigState E Mitm Request}

theorem Sound.withBlocked (h : Sound urlHost state) (blocked : List Request) (total : ℕ) :
    Sound urlHost { state with blocked := blocked, blockedTotal := total } :=
  ⟨h.accepted, h.allowSet, h.denySet⟩

/-- The mode is checked by itself, so it may be set in any accepted configuration. -/
theorem Sound.withMode (h : Sound urlHost state) {mode : NetworkMode}
    (hmode : whenConstrained state.constraints.mode (validateMode mode) = .ok ()) :
    Sound urlHost { state with config := ProxyRuntime.withMode state.config mode } := by
  have haccepts := validatePolicy_eq_ok.mp h.accepted
  exact ⟨validatePolicy_eq_ok.mpr { haccepts with mode := hmode }, h.allowSet, h.denySet⟩

theorem buildConfigState_sound {config : NetworkProxyConfig} {constraints : NetworkProxyConstraints}
    (haccepted : validatePolicyAgainstConstraints urlHost config constraints = .ok ())
    (h : buildConfigState E newMitm Request config constraints = .ok state) :
    Sound urlHost state := by
  obtain ⟨_, -, h⟩ := bind_eq_ok.mp h
  obtain ⟨_, -, h⟩ := bind_eq_ok.mp h
  obtain ⟨denySet, hdeny, h⟩ := bind_eq_ok.mp h
  obtain ⟨allowSet, hallow, h⟩ := bind_eq_ok.mp h
  obtain ⟨mitm, -, h⟩ := bind_eq_ok.mp h
  obtain rfl := Except.ok.inj h
  exact ⟨haccepted, mapError_eq_ok.mp hallow, mapError_eq_ok.mp hdeny⟩

theorem prepareMode_sound (mode : NetworkMode) :
    TaskSound urlHost (prepareMode urlHost shared mode) := by
  unfold prepareMode
  split
  · trivial
  · rename_i hvalid
    exact (validatePolicy_eq_ok.mp hvalid).mode

theorem prepareDomain_sound (normalizedHost : Text) (target : DomainListKind) :
    TaskSound urlHost (prepareDomain urlHost newMitm shared normalizedHost target) := by
  unfold prepareDomain
  dsimp only
  split
  · trivial
  · split
    · trivial
    · rename_i hvalid
      split
      · trivial
      · rename_i hbuild
        exact (buildConfigState_sound hvalid hbuild).withBlocked _ _

theorem act_sound {call : Call E Mitm Request} (hshared : Sound urlHost shared)
    (hcall : CallSound urlHost call) :
    Sound urlHost (act urlHost newMitm shared call).1 ∧
      TaskSound urlHost (act urlHost newMitm shared call).2 := by
  cases call with
  | setNetworkMode mode => exact ⟨hshared, prepareMode_sound mode⟩
  | updateDomainList host target => exact ⟨hshared, prepareDomain_sound host target⟩
  | recordBlocked | drainBlocked => exact ⟨hshared.withBlocked _ _, trivial⟩
  | replaceConfigState newState => exact ⟨Sound.withBlocked hcall _ _, trivial⟩
  | inspect => exact ⟨hshared, trivial⟩

/-- A step keeps the installed state sound, and leaves its task with sound data. -/
theorem step_sound (reply : Reply E Mitm Request) (shared : ConfigState E Mitm Request)
    (task : Task E Mitm Request) (hreply : ReplySound urlHost reply)
    (hshared : Sound urlHost shared) (htask : TaskSound urlHost task) :
    Sound urlHost (step urlHost newMitm reply shared task).1 ∧
      TaskSound urlHost (step urlHost newMitm reply shared task).2 := by
  cases task with
  | maybeReload call =>
    unfold step
    dsimp only
    split
    · exact ⟨hshared, trivial⟩
    · exact ⟨hshared, htask⟩
    · rename_i newState hsome
      exact ⟨hshared, htask, hreply.1 newState hsome⟩
  | reloadSnapshot call newState => exact ⟨hshared, htask.1, htask.2.withBlocked _ _⟩
  | reloadInstall call newState => exact ⟨htask.2, htask.1⟩
  | act call => exact act_sound hshared htask
  | modeInstall mode constraints =>
    unfold step
    dsimp only
    split
    · exact ⟨hshared, trivial⟩
    · rename_i hsame
      rw [not_not] at hsame
      refine ⟨hshared.withMode ?_, trivial⟩
      rw [hsame]
      exact htask
  | domainInstall host target previousCfg constraints newState =>
    unfold step
    dsimp only
    split
    · exact ⟨hshared, trivial⟩
    · exact ⟨htask, trivial⟩
  | forceSnapshot => exact ⟨hshared, trivial⟩
  | reloadNow =>
    unfold step
    dsimp only
    split
    · exact ⟨hshared, trivial⟩
    · rename_i newState hnow
      exact ⟨hshared, hreply.2 newState hnow⟩
  | forceInstall newState => exact ⟨Sound.withBlocked htask _ _, trivial⟩
  | finished result => exact ⟨hshared, trivial⟩

theorem updateDomainList_sound (host : Text) (target : DomainListKind) :
    TaskSound urlHost (updateDomainList host target : Task E Mitm Request) := by
  unfold updateDomainList
  split <;> trivial

theorem begin_sound {operation : Operation E Mitm Request}
    (h : OperationSound urlHost operation) : TaskSound urlHost operation.begin := by
  cases operation with
  | addAllowedDomain host => exact updateDomainList_sound host .allow
  | addDeniedDomain host => exact updateDomainList_sound host .deny
  | replaceConfigState newState => exact h
  | setNetworkMode | recordBlocked | drainBlocked | forceReload | inspect => trivial

/-- Along every interleaving the installed configuration is accepted by its constraints and
its glob sets are the ones compiled from it. -/
theorem live_policy_sound {ι : Type*} [DecidableEq ι] (urlHost : Text → Option Text)
    (newMitm : MitmUpstreamConfig → Except String Mitm) (initial : ConfigState E Mitm Request)
    (operations : ι → Operation E Mitm Request) (schedule : List (ι × Reply E Mitm Request))
    (hinitial : Sound urlHost initial)
    (hoperations : ∀ i, OperationSound urlHost (operations i))
    (hreplies : ∀ event ∈ schedule, ReplySound urlHost event.2) :
    Sound urlHost (runOperations urlHost newMitm initial operations schedule).shared :=
  (System.run_invariant step_sound hreplies hinitial fun i => begin_sound (hoperations i)).1

def sampleState : ConfigState wildcardEngine Unit Unit :=
  ⟨allowOnly ["api.example.com"], ["api.example.com".toList], [], none,
    manageOnly ["**.example.com"], [], 0⟩

def idleReloader : Reply wildcardEngine Unit Unit := ⟨.ok none, .error "no source"⟩

/-- A mode change prepared before another host is added and installed after it. -/
theorem sampleState_stays_sound :
    (runOperations asciiUrlHost (fun _ => .ok ()) sampleState
      (fun i : Bool => if i then .setNetworkMode .limited
        else .addAllowedDomain "cdn.example.com".toList)
      ([true, true, false, false, false, true].map (·, idleReloader))).shared.config =
        withMode (allowOnly ["api.example.com", "cdn.example.com"]) .limited ∧
    Sound asciiUrlHost (runOperations asciiUrlHost (fun _ => .ok ()) sampleState
      (fun i : Bool => if i then .setNetworkMode .limited
        else .addAllowedDomain "cdn.example.com".toList)
      ([true, true, false, false, false, true].map (·, idleReloader))).shared := by
  refine ⟨by decide +kernel, live_policy_sound asciiUrlHost (fun _ => .ok ()) sampleState _ _
    ⟨by decide +kernel, by decide +kernel, by decide +kernel⟩ ?_ ?_⟩
  · rintro (_ | _) <;> trivial
  · intro event hevent
    obtain ⟨i, -, rfl⟩ := List.mem_map.mp hevent
    exact ⟨by simp [idleReloader], by simp [idleReloader]⟩

end Invariant

end DeepseekX.ProxyRuntime
