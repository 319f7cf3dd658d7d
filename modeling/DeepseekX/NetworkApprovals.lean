import DeepseekX.DomainPatterns

/-!
# Approval of network requests

A request that no list of domains settles is put before the hooks and then before the user or
the guardian. The service keeps the hosts that are allowed or denied for the session, and a table
of the approvals that are under way, so that further requests for a host wait for the answer to
the first one. Every lock, every other `await` and every use of a notification is a step of a
call here, between which other calls may move.
-/

namespace DeepseekX.NetworkApprovals
open DomainPatterns

inductive NetworkProtocol where
  | http
  | httpsConnect
  | socks5Tcp
  | socks5Udp

structure NetworkPolicyRequest where
  protocol : NetworkProtocol
  host : Text
  port : BitVec 16

def protocolKeyLabel : NetworkProtocol → String
  | .http => "http"
  | .httpsConnect => "https"
  | .socks5Tcp => "socks5-tcp"
  | .socks5Udp => "socks5-udp"

structure HostApprovalKey where
  host : Text
  protocol : String
  port : BitVec 16
  deriving DecidableEq

def HostApprovalKey.fromRequest (request : NetworkPolicyRequest) : HostApprovalKey :=
  ⟨toAsciiLowercase request.host, protocolKeyLabel request.protocol, request.port⟩

inductive PendingApprovalDecision where
  | allowOnce
  | allowForSession
  | deny
  deriving DecidableEq

inductive PermissionProfile where
  | managed
  | disabled
  | external

inductive AskForApproval where
  | unlessTrusted
  | onFailure
  | onRequest
  | granular
  | never

structure TurnContext where
  permissionProfile : PermissionProfile
  approvalPolicy : AskForApproval

def permissionProfileAllowsNetworkApprovalFlow : PermissionProfile → Bool
  | .managed => true
  | .disabled | .external => false

def allowsNetworkApprovalFlow : AskForApproval → Bool
  | .never => false
  | _ => true

def TurnContext.allowsApproval (context : TurnContext) : Bool :=
  permissionProfileAllowsNetworkApprovalFlow context.permissionProfile &&
    allowsNetworkApprovalFlow context.approvalPolicy

inductive PermissionRequestDecision where
  | allow
  | deny

inductive NetworkPolicyRuleAction where
  | allow
  | deny

inductive ReviewDecision where
  | approved
  | approvedExecpolicyAmendment
  | approvedForSession
  | networkPolicyAmendment (action : NetworkPolicyRuleAction)
  | denied
  | timedOut
  | abort

/-- The decision of the owner of an approval, and whether a denial is for the session. -/
structure Resolution where
  decision : PendingApprovalDecision
  cacheSessionDeny : Bool
  deriving DecidableEq

def ReviewDecision.resolve : ReviewDecision → Resolution
  | approved | approvedExecpolicyAmendment => ⟨.allowOnce, false⟩
  | approvedForSession | networkPolicyAmendment .allow => ⟨.allowForSession, false⟩
  | networkPolicyAmendment .deny => ⟨.deny, true⟩
  | denied | timedOut | abort => ⟨.deny, false⟩

/-- What the owner of an approval does next. -/
inductive Stage where
  | turnContext
  | hooks
  | prompt
  | removeDenied (resolution : Resolution)
  | insertApproved (resolution : Resolution)
  | removeApproved (resolution : Resolution)
  | insertDenied (resolution : Resolution)
  | setDecision (resolution : Resolution)
  | notifyWaiters (resolution : Resolution)
  | removePending (resolution : Resolution)
  deriving DecidableEq

/-- Where the decision that a call returned came from. -/
inductive Outcome (ι : Type*) where
  | sessionDenied
  | sessionApproved
  | waited (owner : ι) (decision : PendingApprovalDecision)
  | owned (decision : PendingApprovalDecision)
  deriving DecidableEq

/-- What a call of `handle_inline_policy_request` does next. An approval is named after the call
that made it, and `seen` counts the notifications before `notified` was made. -/
inductive Call (ι : Type*) where
  | idle
  | checkDenied (key : HostApprovalKey)
  | checkApproved (key : HostApprovalKey)
  | getOrCreate (key : HostApprovalKey)
  | makeNotified (key : HostApprovalKey) (owner : ι)
  | checkDecision (key : HostApprovalKey) (owner : ι) (seen : ℕ)
  | awaitNotified (key : HostApprovalKey) (owner : ι) (seen : ℕ)
  | owning (key : HostApprovalKey) (stage : Stage)
  | returned (outcome : Outcome ι)
  | cancelled
  deriving DecidableEq

/-- A call can be dropped where it waits for a lock or for an answer. -/
def Call.awaits {ι : Type*} : Call ι → Bool
  | idle | makeNotified _ _ | owning _ (.notifyWaiters _) | returned _ | cancelled => false
  | _ => true

/-- What the environment does: it makes or drops the call, or answers it. -/
inductive Reply where
  | start (request : NetworkPolicyRequest)
  | cancel
  | proceed
  | turnContext (context : Option TurnContext)
  | hooks (decision : Option PermissionRequestDecision)
  | review (decision : ReviewDecision)

/-- Behind the fields of the service stands what happened: the keys with a decision for the
session, and the prompts, each with whether such a decision was there when it was shown. -/
structure NetworkApprovalService (ι : Type*) where
  sessionDeniedHosts : Finset HostApprovalKey
  sessionApprovedHosts : Finset HostApprovalKey
  pendingHostApprovals : HostApprovalKey → Option ι
  decision : ι → Option PendingApprovalDecision
  notifications : ι → ℕ
  calls : ι → Call ι
  decided : Finset HostApprovalKey
  prompts : List (HostApprovalKey × Bool)

namespace NetworkApprovalService
variable {ι : Type*}

def new : NetworkApprovalService ι :=
  ⟨∅, ∅, fun _ => none, fun _ => none, fun _ => 0, fun _ => .idle, ∅, []⟩

variable [DecidableEq ι]
variable (service : NetworkApprovalService ι)

def goTo (i : ι) (call : Call ι) : NetworkApprovalService ι :=
  { service with calls := Function.update service.calls i call }

def setPending (key : HostApprovalKey) (owner : Option ι) : NetworkApprovalService ι :=
  { service with pendingHostApprovals := Function.update service.pendingHostApprovals key owner }

/-- The second half of the caching, where a denial for the session is noted. -/
def behindApproved (resolution : Resolution) : Stage :=
  if resolution.cacheSessionDeny then .removeApproved resolution else .setDecision resolution

def behindReview (resolution : Resolution) : Stage :=
  if resolution.decision = .allowForSession then .removeDenied resolution
  else behindApproved resolution

def stepOwner (i : ι) (key : HostApprovalKey) : Stage → Reply → NetworkApprovalService ι
  | .turnContext, .turnContext context =>
    if context.any TurnContext.allowsApproval then service.goTo i (.owning key .hooks)
    else service.goTo i (.owning key (.setDecision ⟨.deny, false⟩))
  | .hooks, .hooks (some .allow) =>
    service.goTo i (.owning key (.setDecision ⟨.allowOnce, false⟩))
  | .hooks, .hooks (some .deny) => service.goTo i (.owning key (.setDecision ⟨.deny, false⟩))
  | .hooks, .hooks none =>
    { service.goTo i (.owning key .prompt) with
      prompts := service.prompts ++ [(key, decide (key ∈ service.decided))] }
  | .prompt, .review decision => service.goTo i (.owning key (behindReview decision.resolve))
  | .removeDenied resolution, _ =>
    { service.goTo i (.owning key (.insertApproved resolution)) with
      sessionDeniedHosts := service.sessionDeniedHosts.erase key }
  | .insertApproved resolution, _ =>
    { service.goTo i (.owning key (behindApproved resolution)) with
      sessionApprovedHosts := insert key service.sessionApprovedHosts
      decided := insert key service.decided }
  | .removeApproved resolution, _ =>
    { service.goTo i (.owning key (.insertDenied resolution)) with
      sessionApprovedHosts := service.sessionApprovedHosts.erase key }
  | .insertDenied resolution, _ =>
    { service.goTo i (.owning key (.setDecision resolution)) with
      sessionDeniedHosts := insert key service.sessionDeniedHosts
      decided := insert key service.decided }
  | .setDecision resolution, _ =>
    { service.goTo i (.owning key (.notifyWaiters resolution)) with
      decision := Function.update service.decision i (some resolution.decision) }
  | .notifyWaiters resolution, _ =>
    { service.goTo i (.owning key (.removePending resolution)) with
      notifications := Function.update service.notifications i (service.notifications i + 1) }
  | .removePending resolution, _ =>
    (service.setPending key none).goTo i (.returned (.owned resolution.decision))
  | _, _ => service

def stepCall (i : ι) (reply : Reply) : NetworkApprovalService ι :=
  match service.calls i with
  | .idle =>
    match reply with
    | .start request => service.goTo i (.checkDenied (.fromRequest request))
    | _ => service
  | .checkDenied key =>
    if key ∈ service.sessionDeniedHosts then service.goTo i (.returned .sessionDenied)
    else service.goTo i (.checkApproved key)
  | .checkApproved key =>
    if key ∈ service.sessionApprovedHosts then service.goTo i (.returned .sessionApproved)
    else service.goTo i (.getOrCreate key)
  | .getOrCreate key =>
    match service.pendingHostApprovals key with
    | some owner => service.goTo i (.makeNotified key owner)
    | none => (service.setPending key (some i)).goTo i (.owning key .turnContext)
  | .makeNotified key owner =>
    service.goTo i (.checkDecision key owner (service.notifications owner))
  | .checkDecision key owner seen =>
    match service.decision owner with
    | some decision => service.goTo i (.returned (.waited owner decision))
    | none => service.goTo i (.awaitNotified key owner seen)
  | .awaitNotified key owner seen =>
    if seen < service.notifications owner then service.goTo i (.makeNotified key owner)
    else service
  | .owning key stage => service.stepOwner i key stage reply
  | .returned _ | .cancelled => service

/-- A call is dropped where it can be, or makes its next step. -/
def step : ι × Reply → NetworkApprovalService ι
  | (i, .cancel) =>
    if (service.calls i).awaits then service.goTo i .cancelled else service.stepCall i .proceed
  | (i, reply) => service.stepCall i reply

end NetworkApprovalService

end DeepseekX.NetworkApprovals
