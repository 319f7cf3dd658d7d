import DeepseekX.GuardedRuns
import DeepseekX.NetworkApprovals

/-!
# One prompt for a host

Only the owner of an approval prompts, and its entry keeps others from becoming owners of the
same key. A call that waits finds the decision when it is notified. This rests on the owner to
publish its decision, and the decision for the session on no call being past its look at the
session's hosts when the entry is removed.
-/

namespace DeepseekX.NetworkApprovals
open GuardedRuns NetworkApprovalService Function

variable {ι : Type*}

def Call.waitsFor : Call ι → Option ι
  | .makeNotified _ owner | .checkDecision _ owner _ | .awaitNotified _ owner _ => some owner
  | _ => none

def Stage.published : Stage → Bool
  | notifyWaiters _ | removePending _ => true
  | _ => false

variable (service : NetworkApprovalService ι)

/-- At most one prompt for a key is outstanding; a call that waited has returned the decision of
the owner; if an owner is gone the calls that wait have its decision before them; no prompt was
shown behind a decision for the session. -/
structure OnePrompt : Prop where
  single : ∀ key i j, service.calls i = .owning key .prompt →
    service.calls j = .owning key .prompt → i = j
  answered : ∀ i owner decision, service.calls i = .returned (.waited owner decision) →
    service.decision owner = some decision ∧
      ∀ owned, service.calls owner = .returned (.owned owned) → owned = decision
  attended : ∀ i owner, (service.calls i).waitsFor = some owner →
    (∃ key stage, service.calls owner = .owning key stage) ∨
      service.decision owner ≠ none ∧ ∀ key seen,
        service.calls i = .awaitNotified key owner seen → seen < service.notifications owner
  final : ∀ prompt ∈ service.prompts, prompt.2 = false

/-- No owner is dropped before it has set its decision. When an owner that has allowed its key for
the session removes its entry, no call is past both looks at the session's hosts and before the
table; when it has denied the key, none is past the first look. -/
def Orderly : ι × Reply → Prop
  | (i, .cancel) => ∀ key stage, service.calls i = .owning key stage → stage.published = true
  | (i, _) => ∀ key resolution, service.calls i = .owning key (.removePending resolution) →
    (resolution.decision = .allowForSession → ∀ j, service.calls j ≠ .getOrCreate key) ∧
    (resolution.cacheSessionDeny = true →
      ∀ j, service.calls j ≠ .checkApproved key ∧ service.calls j ≠ .getOrCreate key)

section Invariant

def Unpublished (i : ι) : Prop :=
  service.decision i = none ∧ service.notifications i = 0

variable (key : HostApprovalKey)

def Pursued (owner : ι) : Prop :=
  service.pendingHostApprovals key = some owner ∨ service.decision owner ≠ none

def Cached (resolution : Resolution) : Prop :=
  key ∈ service.decided →
    (resolution.decision = .allowForSession ∧ key ∈ service.sessionApprovedHosts) ∨
      (resolution.cacheSessionDeny = true ∧ key ∈ service.sessionDeniedHosts)

def StageSound (i : ι) (key : HostApprovalKey) : Stage → Prop
  | .turnContext | .hooks | .prompt => Unpublished service i ∧ key ∉ service.decided
  | .removeDenied resolution | .insertApproved resolution =>
    Unpublished service i ∧ key ∉ service.decided ∧ resolution = ⟨.allowForSession, false⟩
  | .removeApproved resolution | .insertDenied resolution =>
    Unpublished service i ∧ key ∉ service.decided ∧ resolution = ⟨.deny, true⟩
  | .setDecision resolution => Unpublished service i ∧ Cached service key resolution
  | .notifyWaiters resolution =>
    service.decision i = some resolution.decision ∧ service.notifications i = 0 ∧
      Cached service key resolution
  | .removePending resolution =>
    service.decision i = some resolution.decision ∧ service.notifications i = 1 ∧
      Cached service key resolution

def Sound (i : ι) : Call ι → Prop
  | .idle | .checkDenied _ | .checkApproved _ | .getOrCreate _ => Unpublished service i
  | .returned .sessionDenied | .returned .sessionApproved => Unpublished service i
  | .makeNotified key owner => Unpublished service i ∧ Pursued service key owner
  | .checkDecision key owner seen =>
    Unpublished service i ∧ Pursued service key owner ∧ seen ≤ service.notifications owner
  | .awaitNotified key owner seen =>
    Unpublished service i ∧ Pursued service key owner ∧ seen = 0
  | .owning key stage =>
    service.pendingHostApprovals key = some i ∧ StageSound service i key stage
  | .returned (.waited owner decision) =>
    Unpublished service i ∧ service.decision owner = some decision
  | .returned (.owned decision) =>
    service.decision i = some decision ∧ service.notifications i = 1
  | .cancelled =>
    Unpublished service i ∨ service.decision i ≠ none ∧ service.notifications i = 1

/-- A key decided for the session whose entry is gone: no call gets to the table. -/
def Closed : Prop :=
  (key ∈ service.sessionApprovedHosts ∧ ∀ j, service.calls j ≠ .getOrCreate key) ∨
    (key ∈ service.sessionDeniedHosts ∧
      ∀ j, service.calls j ≠ .checkApproved key ∧ service.calls j ≠ .getOrCreate key)

structure Inv : Prop where
  sound : ∀ i, Sound service i (service.calls i)
  entry : ∀ key owner, service.pendingHostApprovals key = some owner →
    (∃ stage, service.calls owner = .owning key stage) ∨ service.decision owner ≠ none
  closed : ∀ key ∈ service.decided, service.pendingHostApprovals key = none → Closed service key
  final : ∀ prompt ∈ service.prompts, prompt.2 = false

/-- What a step of the call `i` does. -/
structure Effect (i : ι) (service service' : NetworkApprovalService ι) : Prop where
  others : ∀ j ≠ i, service'.calls j = service.calls j ∧
    service'.decision j = service.decision j ∧ service'.notifications j = service.notifications j
  pending : ∀ key, service'.pendingHostApprovals key = service.pendingHostApprovals key ∨
    (service.pendingHostApprovals key = none ∧ service'.pendingHostApprovals key = some i) ∨
    (service.pendingHostApprovals key = some i ∧ service'.pendingHostApprovals key = none ∧
      service.decision i ≠ none ∧ (key ∈ service'.decided → Closed service' key))
  decision : service.decision i ≠ none → service'.decision i = service.decision i
  notifications : service.notifications i ≤ service'.notifications i
  caches : ∀ key, service.pendingHostApprovals key ≠ some i →
    (key ∈ service'.sessionApprovedHosts ↔ key ∈ service.sessionApprovedHosts) ∧
    (key ∈ service'.sessionDeniedHosts ↔ key ∈ service.sessionDeniedHosts) ∧
    (key ∈ service'.decided ↔ key ∈ service.decided)
  created : ∀ key, service'.calls i = .getOrCreate key → service.calls i = .getOrCreate key ∨
    (service.calls i = .checkApproved key ∧ key ∉ service.sessionApprovedHosts)
  checked : ∀ key, service'.calls i = .checkApproved key →
    service.calls i = .checkApproved key ∨ key ∉ service.sessionDeniedHosts
  sound : Sound service' i (service'.calls i)
  entry : ∀ key, service'.pendingHostApprovals key = some i →
    (∃ stage, service'.calls i = .owning key stage) ∨ service'.decision i ≠ none
  final : ∀ prompt ∈ service'.prompts, prompt ∈ service.prompts ∨ prompt.2 = false

variable {service service' : NetworkApprovalService ι} {i j owner : ι} {key : HostApprovalKey}

theorem Inv.sound_of {call : Call ι} (h : Inv service) (hcall : service.calls i = call) :
    Sound service i call :=
  hcall ▸ h.sound i

/-- Only an owner is between its decision and its notification. -/
theorem Sound.cases {call : Call ι} (h : Sound service i call) :
    (∃ key stage, call = .owning key stage) ∨ Sound service i .cancelled := by
  cases call with
  | owning key stage => exact .inl ⟨key, stage, rfl⟩
  | cancelled => exact .inr h
  | makeNotified | checkDecision | awaitNotified => exact .inr (.inl h.1)
  | idle | checkDenied | checkApproved | getOrCreate => exact .inr (.inl h)
  | returned outcome =>
    cases outcome with
    | sessionDenied | sessionApproved => exact .inr (.inl h)
    | waited => exact .inr (.inl h.1)
    | owned => exact .inr (.inr ⟨by simp [h.1], h.2⟩)

theorem Inv.notifications_eq_zero (h : Inv service) (hnone : service.decision owner = none) :
    service.notifications owner = 0 := by
  rcases (h.sound owner).cases with ⟨key, stage, hcall⟩ | hsound | hsound
  · have hsound := h.sound_of hcall
    cases stage <;> simp_all [Sound, StageSound, Unpublished]
  · exact hsound.2
  · exact absurd hnone hsound.1

theorem Inv.pending_ne (h : Inv service) (hnone : service.decision i = none)
    (hcall : ∀ stage, service.calls i ≠ .owning key stage) :
    service.pendingHostApprovals key ≠ some i := by
  intro hpending
  rcases h.entry key i hpending with ⟨stage, hstage⟩ | hdecision
  · exact hcall stage hstage
  · exact hdecision hnone

section
variable (h : Effect i service service')
include h

theorem Effect.unpublished (hj : j ≠ i) (hsound : Unpublished service j) : Unpublished service' j :=
  ⟨(h.others j hj).2.1.trans hsound.1, (h.others j hj).2.2.trans hsound.2⟩

theorem Effect.decision_eq {decision : PendingApprovalDecision}
    (hj : service.decision j = some decision) : service'.decision j = some decision := by
  by_cases heq : j = i
  · subst heq
    exact (h.decision (by simp [hj])).trans hj
  · exact (h.others j heq).2.1.trans hj

theorem Effect.decision_ne_none (hj : service.decision j ≠ none) : service'.decision j ≠ none := by
  obtain ⟨decision, hdecision⟩ := Option.ne_none_iff_exists'.mp hj
  simp [h.decision_eq hdecision]

theorem Effect.pursued (hpursued : Pursued service key owner) : Pursued service' key owner := by
  rcases hpursued with hpending | hdecision
  · rcases h.pending key with heq | ⟨hnone, -⟩ | ⟨hsome, -, hdecision, -⟩
    · exact .inl (heq.trans hpending)
    · cases hnone.symm.trans hpending
    · cases hsome.symm.trans hpending
      exact .inr (h.decision_ne_none hdecision)
  · exact .inr (h.decision_ne_none hdecision)

/-- A call enters and removes its own approvals only. -/
theorem Effect.pending_other (hj : j ≠ i) :
    service'.pendingHostApprovals key = some j ↔ service.pendingHostApprovals key = some j := by
  rcases h.pending key with heq | ⟨hnone, hsome⟩ | ⟨hsome, hnone, -⟩
  · rw [heq]
  · simp [hnone, hsome, hj.symm]
  · simp [hnone, hsome, hj.symm]

theorem Effect.notifications_le (owner : ι) :
    service.notifications owner ≤ service'.notifications owner := by
  by_cases heq : owner = i
  · rw [heq]
    exact h.notifications
  · exact (h.others owner heq).2.2.ge

theorem Effect.stageSound {stage : Stage} (hj : j ≠ i)
    (hpending : service.pendingHostApprovals key = some j)
    (hsound : StageSound service j key stage) : StageSound service' j key stage := by
  have hne : service.pendingHostApprovals key ≠ some i := by simp [hpending, hj]
  obtain ⟨happroved, hdenied, hdecided⟩ := h.caches key hne
  obtain ⟨-, hdecision, hnotifications⟩ := h.others j hj
  cases stage <;>
    simpa only [StageSound, Unpublished, Cached, happroved, hdenied, hdecided, hdecision,
      hnotifications] using hsound

theorem Effect.sound_other {call : Call ι} (hj : j ≠ i) (hsound : Sound service j call) :
    Sound service' j call := by
  cases call with
  | idle | checkDenied key | checkApproved key | getOrCreate key => exact h.unpublished hj hsound
  | makeNotified key owner => exact ⟨h.unpublished hj hsound.1, h.pursued hsound.2⟩
  | checkDecision key owner seen =>
    exact ⟨h.unpublished hj hsound.1, h.pursued hsound.2.1,
      hsound.2.2.trans (h.notifications_le owner)⟩
  | awaitNotified key owner seen =>
    exact ⟨h.unpublished hj hsound.1, h.pursued hsound.2.1, hsound.2.2⟩
  | owning key stage =>
    exact ⟨(h.pending_other hj).mpr hsound.1, h.stageSound hj hsound.1 hsound.2⟩
  | returned outcome =>
    cases outcome with
    | sessionDenied | sessionApproved => exact h.unpublished hj hsound
    | waited owner decision => exact ⟨h.unpublished hj hsound.1, h.decision_eq hsound.2⟩
    | owned decision =>
      exact ⟨h.decision_eq hsound.1, (h.others j hj).2.2.trans hsound.2⟩
  | cancelled =>
    exact hsound.imp (h.unpublished hj) fun hsound =>
      ⟨h.decision_ne_none hsound.1, (h.others j hj).2.2.trans hsound.2⟩

theorem Effect.closed (hne : service.pendingHostApprovals key ≠ some i)
    (hclosed : Closed service key) : Closed service' key := by
  obtain ⟨happroved, hdenied, -⟩ := h.caches key hne
  refine hclosed.imp (fun ⟨hmem, hcalls⟩ => ⟨happroved.mpr hmem, fun j hj => ?_⟩)
    fun ⟨hmem, hcalls⟩ => ⟨hdenied.mpr hmem, fun j => ⟨fun hj => ?_, fun hj => ?_⟩⟩
  · by_cases heq : j = i
    · subst heq
      rcases h.created key hj with hbefore | ⟨-, hnot⟩
      · exact hcalls j hbefore
      · exact hnot hmem
    · exact hcalls j ((h.others j heq).1.symm.trans hj)
  · by_cases heq : j = i
    · subst heq
      rcases h.checked key hj with hbefore | hnot
      · exact (hcalls j).1 hbefore
      · exact hnot hmem
    · exact (hcalls j).1 ((h.others j heq).1.symm.trans hj)
  · by_cases heq : j = i
    · subst heq
      rcases h.created key hj with hbefore | ⟨hbefore, -⟩
      · exact (hcalls j).2 hbefore
      · exact (hcalls j).1 hbefore
    · exact (hcalls j).2 ((h.others j heq).1.symm.trans hj)

theorem Effect.inv (hinv : Inv service) : Inv service' where
  sound j := by
    by_cases hj : j = i
    · exact hj ▸ h.sound
    · rw [(h.others j hj).1]
      exact h.sound_other hj (hinv.sound j)
  entry key owner hpending := by
    by_cases howner : owner = i
    · exact howner ▸ h.entry key (howner ▸ hpending)
    · rw [(h.others owner howner).1, (h.others owner howner).2.1]
      exact hinv.entry key owner ((h.pending_other howner).mp hpending)
  closed key hkey hpending := by
    rcases h.pending key with heq | ⟨-, hsome⟩ | ⟨-, -, -, hclosed⟩
    · have hnone := heq.symm.trans hpending
      have hne : service.pendingHostApprovals key ≠ some i := by simp [hnone]
      exact h.closed hne (hinv.closed key ((h.caches key hne).2.2.mp hkey) hnone)
    · cases hsome.symm.trans hpending
    · exact hclosed hkey
  final prompt hprompt := (h.final prompt hprompt).elim (hinv.final prompt) id

end

theorem cached_of_notMem {resolution : Resolution} (hkey : key ∉ service.decided) :
    Cached service key resolution :=
  fun hmem => absurd hmem hkey

theorem stageSound_behindReview (decision : ReviewDecision) (hnone : Unpublished service i)
    (hkey : key ∉ service.decided) : StageSound service i key (behindReview decision.resolve) := by
  rcases decision with _ | _ | _ | ⟨_ | _⟩ | _ | _ | _
  case approvedForSession | networkPolicyAmendment.allow | networkPolicyAmendment.deny =>
    exact ⟨hnone, hkey, rfl⟩
  all_goals exact ⟨hnone, cached_of_notMem hkey⟩

theorem decision_ne_none_of_published {stage : Stage} (h : Inv service)
    (hcall : service.calls i = .owning key stage) (hpublished : stage.published = true) :
    service.decision i ≠ none := by
  have hsound := h.sound_of hcall
  cases stage <;> cases hpublished
  all_goals simp [hsound.2.1]

theorem notifications_eq_one (h : Inv service) (hdecision : service.decision owner ≠ none) :
    (∃ key stage, service.calls owner = .owning key stage) ∨ service.notifications owner = 1 := by
  rcases (h.sound owner).cases with howning | hnone | hsound
  · exact .inl howning
  · exact absurd hnone.1 hdecision
  · exact .inr hsound.2

theorem sound_cancelled (h : Inv service) (hawaits : (service.calls i).awaits = true)
    (horderly : Orderly service (i, .cancel)) : Sound service i .cancelled := by
  rcases (h.sound i).cases with ⟨key, stage, hcall⟩ | hsound
  · have hsound := h.sound_of hcall
    rw [hcall] at hawaits
    cases stage <;> cases horderly key _ hcall
    · cases hawaits
    · exact .inr ⟨by simp [hsound.2.1], hsound.2.2.1⟩
  · exact hsound

end Invariant

section Steps
variable [DecidableEq ι] {service service' : NetworkApprovalService ι} {i : ι}
  {key : HostApprovalKey}

theorem effect_goTo {call : Call ι} (hsound : Sound service i call)
    (hentry : ∀ key, service.pendingHostApprovals key = some i →
      (∃ stage, call = .owning key stage) ∨ service.decision i ≠ none)
    (hcreated : ∀ key, call = .getOrCreate key → service.calls i = .getOrCreate key ∨
      (service.calls i = .checkApproved key ∧ key ∉ service.sessionApprovedHosts))
    (hchecked : ∀ key, call = .checkApproved key →
      service.calls i = .checkApproved key ∨ key ∉ service.sessionDeniedHosts) :
    Effect i service (service.goTo i call) := by
  have hself : (service.goTo i call).calls i = call := update_self ..
  refine ⟨fun j hj => ⟨update_of_ne hj .., rfl, rfl⟩, fun key => .inl rfl, fun _ => rfl,
    le_rfl, fun key _ => ⟨.rfl, .rfl, .rfl⟩, ?_, ?_, ?_, ?_, fun prompt hprompt => .inl hprompt⟩
  · rwa [hself]
  · rwa [hself]
  · rw [hself]
    exact hsound
  · rwa [hself]

theorem effect_refl (h : Inv service) : Effect i service service := by
  have hgoTo : service.goTo i (service.calls i) = service := by
    simp [goTo]
  rw [← hgoTo]
  nth_rewrite 1 [hgoTo]
  exact effect_goTo (h.sound i) (fun key => h.entry key i) (fun key hcall => .inl hcall)
    fun key hcall => .inl hcall

theorem effect_goTo_of_unpublished {call : Call ι} (h : Inv service)
    (hnone : service.decision i = none) (hsound : Sound service i call)
    (howner : ∀ key stage, service.calls i ≠ .owning key stage := by simp [*])
    (hcreated : ∀ key, call = .getOrCreate key → service.calls i = .getOrCreate key ∨
      (service.calls i = .checkApproved key ∧ key ∉ service.sessionApprovedHosts) := by simp)
    (hchecked : ∀ key, call = .checkApproved key →
      service.calls i = .checkApproved key ∨ key ∉ service.sessionDeniedHosts := by simp) :
    Effect i service (service.goTo i call) :=
  effect_goTo hsound (fun key hkey => absurd hkey (h.pending_ne hnone (howner key))) hcreated
    hchecked

/-- An owner moves to its next stage. It touches the caches at its own key only. -/
structure OwnerMoves (i : ι) (key : HostApprovalKey) (service service' : NetworkApprovalService ι)
    (stage : Stage) : Prop where
  calls : service'.calls = update service.calls i (.owning key stage)
  pending : service'.pendingHostApprovals = service.pendingHostApprovals := by rfl
  others : ∀ j ≠ i, service'.decision j = service.decision j ∧
    service'.notifications j = service.notifications j := by exact fun _ _ => ⟨rfl, rfl⟩
  decision : service.decision i ≠ none → service'.decision i = service.decision i := by
    exact fun _ => rfl
  notifications : service.notifications i ≤ service'.notifications i := by exact le_rfl
  caches : ∀ other ≠ key,
    (other ∈ service'.sessionApprovedHosts ↔ other ∈ service.sessionApprovedHosts) ∧
    (other ∈ service'.sessionDeniedHosts ↔ other ∈ service.sessionDeniedHosts) ∧
    (other ∈ service'.decided ↔ other ∈ service.decided) := by
    exact fun _ _ => ⟨.rfl, .rfl, .rfl⟩
  sound : StageSound service' i key stage
  final : ∀ prompt ∈ service'.prompts, prompt ∈ service.prompts ∨ prompt.2 = false := by
    exact fun _ hprompt => .inl hprompt

variable (h : Inv service)
include h

theorem effect_owner {stage stage' : Stage} (hcall : service.calls i = .owning key stage)
    (hmoves : OwnerMoves i key service service' stage') : Effect i service service' := by
  obtain ⟨hcalls, hpending, hothers, hdecision, hnotifications, hcaches, hstage, hfinal⟩ := hmoves
  have hself : service'.calls i = .owning key stage' := by rw [hcalls, update_self]
  have hsound := h.sound_of hcall
  refine ⟨fun j hj => ⟨by rw [hcalls, update_of_ne hj], hothers j hj⟩,
    fun other => .inl (by rw [hpending]), hdecision, hnotifications,
    fun other hother => hcaches other ?_, by simp [hself], by simp [hself], ?_,
    fun other hother => ?_, hfinal⟩
  · rintro rfl
    exact hother hsound.1
  · rw [hself]
    exact ⟨hpending ▸ hsound.1, hstage⟩
  · rw [hpending] at hother
    rcases h.entry other i hother with ⟨stage'', hstage''⟩ | hpublished
    · rw [hcall, Call.owning.injEq] at hstage''
      exact .inl ⟨stage', by rw [hself, hstage''.1]⟩
    · exact .inr (by rwa [hdecision hpublished])

theorem effect_removePending {resolution : Resolution}
    (hcall : service.calls i = .owning key (.removePending resolution))
    (horderly : Orderly service (i, .proceed)) :
    Effect i service
      ((service.setPending key none).goTo i (.returned (.owned resolution.decision))) := by
  obtain ⟨hpending, hdecision, hnotifications, hcached⟩ := h.sound_of hcall
  have hpublished : service.decision i ≠ none := by simp [hdecision]
  obtain ⟨hallow, hdeny⟩ := horderly key resolution hcall
  -- the owner itself has left, and the others are where the condition wants them
  have hne (j : ι) (call : Call ι) (hnot : service.calls j ≠ call)
      (howned : call ≠ .returned (.owned resolution.decision)) :
      update service.calls i (.returned (.owned resolution.decision)) j ≠ call := by
    by_cases hj : j = i
    · rw [hj, update_self]
      exact howned.symm
    · rwa [update_of_ne hj]
  refine ⟨fun j hj => ⟨update_of_ne hj .., rfl, rfl⟩, fun other => ?_, fun _ => rfl,
    le_rfl, fun _ _ => ⟨.rfl, .rfl, .rfl⟩, by simp [goTo],
    by simp [goTo], ?_, fun _ _ => .inr hpublished,
    fun _ hprompt => .inl hprompt⟩
  · by_cases hother : other = key
    · subst hother
      refine .inr (.inr ⟨hpending, update_self .., hpublished, fun hmem => ?_⟩)
      refine (hcached hmem).imp (fun ⟨hallowed, happroved⟩ => ⟨happroved, fun j => ?_⟩)
        fun ⟨hdenied, hhosts⟩ => ⟨hhosts, fun j => ⟨?_, ?_⟩⟩
      · exact hne j _ (hallow hallowed j) nofun
      · exact hne j _ (hdeny hdenied j).1 nofun
      · exact hne j _ (hdeny hdenied j).2 nofun
    · exact .inl (update_of_ne hother ..)
  · simp only [goTo, update_self]
    exact ⟨hdecision, hnotifications⟩

theorem effect_stepOwner {stage : Stage} {reply : Reply}
    (hcall : service.calls i = .owning key stage) (horderly : Orderly service (i, .proceed)) :
    Effect i service (service.stepOwner i key stage reply) := by
  have hstage := (h.sound_of hcall).2
  fun_cases stepOwner service i key stage reply
  case case1 => exact effect_owner h hcall { calls := rfl, sound := hstage }
  case case2 | case3 | case4 =>
    exact effect_owner h hcall { calls := rfl, sound := ⟨hstage.1, cached_of_notMem hstage.2⟩ }
  case case5 =>
    refine effect_owner h hcall { calls := rfl, sound := hstage, final := fun prompt hprompt => ?_ }
    rcases List.mem_append.mp hprompt with hbefore | hnew
    · exact .inl hbefore
    · rw [List.mem_singleton] at hnew
      exact .inr (by rw [hnew]; exact decide_eq_false hstage.2)
  case case6 decision =>
    exact effect_owner h hcall
      { calls := rfl, sound := stageSound_behindReview decision hstage.1 hstage.2 }
  case case7 =>
    exact effect_owner h hcall
      { calls := rfl, sound := hstage, caches := fun _ hne => ⟨.rfl, by simp [hne], .rfl⟩ }
  case case9 =>
    exact effect_owner h hcall
      { calls := rfl, sound := hstage, caches := fun _ hne => ⟨by simp [hne], .rfl, .rfl⟩ }
  case case8 =>
    obtain ⟨hnone, -, rfl⟩ := hstage
    exact effect_owner h hcall
      { calls := rfl
        caches := fun _ hne => ⟨by simp [hne], .rfl, by simp [hne]⟩
        sound := ⟨hnone, fun _ => .inl ⟨rfl, Finset.mem_insert_self ..⟩⟩ }
  case case10 =>
    obtain ⟨hnone, -, rfl⟩ := hstage
    exact effect_owner h hcall
      { calls := rfl
        caches := fun _ hne => ⟨.rfl, by simp [hne], by simp [hne]⟩
        sound := ⟨hnone, fun _ => .inr ⟨rfl, Finset.mem_insert_self ..⟩⟩ }
  case case11 =>
    exact effect_owner h hcall
      { calls := rfl
        others := fun j hj => ⟨update_of_ne hj .., rfl⟩
        decision := fun hsome => absurd hstage.1.1 hsome
        sound := ⟨update_self .., hstage.1.2, hstage.2⟩ }
  case case12 =>
    obtain ⟨hdecision, hzero, hcached⟩ := hstage
    exact effect_owner h hcall
      { calls := rfl
        others := fun j hj => ⟨rfl, update_of_ne hj ..⟩
        notifications := by simp
        sound := ⟨hdecision, by simp [hzero], hcached⟩ }
  case case13 => exact effect_removePending h hcall horderly
  case case14 => exact effect_refl h

theorem effect_stepCall {reply : Reply} (horderly : Orderly service (i, .proceed)) :
    Effect i service (service.stepCall i reply) := by
  have hsound := h.sound i
  unfold stepCall
  cases hcall : service.calls i <;> rw [hcall] at hsound <;> dsimp only
  case idle =>
    cases reply with
    | start request => exact effect_goTo_of_unpublished h hsound.1 hsound
    | _ => exact effect_refl h
  case checkDenied key =>
    split
    · exact effect_goTo_of_unpublished h hsound.1 hsound
    next hdenied =>
      exact effect_goTo_of_unpublished h hsound.1 hsound (by simp [hcall]) (by simp)
        fun other hother => by cases hother; exact .inr hdenied
  case checkApproved key =>
    split
    · exact effect_goTo_of_unpublished h hsound.1 hsound
    next happroved =>
      exact effect_goTo_of_unpublished h hsound.1 hsound (by simp [hcall])
        (fun other hother => by cases hother; exact .inr ⟨hcall, happroved⟩) (by simp)
  case getOrCreate key =>
    split
    next owner hpending =>
      exact effect_goTo_of_unpublished h hsound.1 ⟨hsound, .inl hpending⟩
    next hpending =>
      -- a decision for the session would have kept the call from the table
      have hkey : key ∉ service.decided := by
        intro hmem
        rcases h.closed key hmem hpending with ⟨-, hcalls⟩ | ⟨-, hcalls⟩
        · exact hcalls i hcall
        · exact (hcalls i).2 hcall
      refine ⟨fun j hj => ⟨update_of_ne hj .., rfl, rfl⟩, fun other => ?_, fun _ => rfl,
        le_rfl, fun _ _ => ⟨.rfl, .rfl, .rfl⟩, by simp [goTo],
        by simp [goTo], ?_, fun other hother => ?_,
        fun _ hprompt => .inl hprompt⟩
      · by_cases hother : other = key
        · subst hother
          exact .inr (.inl ⟨hpending, update_self ..⟩)
        · exact .inl (update_of_ne hother ..)
      · simp only [goTo, update_self]
        exact ⟨update_self .., hsound, hkey⟩
      · by_cases heq : other = key
        · subst heq
          exact .inl ⟨.turnContext, update_self ..⟩
        · have hbefore : service.pendingHostApprovals other = some i :=
            (update_of_ne heq ..).symm.trans hother
          exact absurd hbefore (h.pending_ne hsound.1 (by simp [hcall]))
  case makeNotified key owner =>
    exact effect_goTo_of_unpublished h hsound.1.1 ⟨hsound.1, hsound.2, le_rfl⟩
  case checkDecision key owner seen =>
    split
    next decision hdecision =>
      exact effect_goTo_of_unpublished h hsound.1.1 ⟨hsound.1, hdecision⟩
    next hnone =>
      have hzero := h.notifications_eq_zero hnone
      exact effect_goTo_of_unpublished h hsound.1.1
        ⟨hsound.1, hsound.2.1, Nat.le_zero.mp (hzero ▸ hsound.2.2)⟩
  case awaitNotified key owner seen =>
    split
    · exact effect_goTo_of_unpublished h hsound.1.1 ⟨hsound.1, hsound.2.1⟩
    · exact effect_refl h
  case owning key stage => exact effect_stepOwner h hcall horderly
  case returned | cancelled => exact effect_refl h

theorem effect_cancel (hawaits : (service.calls i).awaits = true)
    (horderly : Orderly service (i, .cancel)) : Effect i service (service.goTo i .cancelled) := by
  refine effect_goTo (sound_cancelled h hawaits horderly) (fun key hpending => ?_) (by simp)
    (by simp)
  rcases h.entry key i hpending with ⟨stage, hstage⟩ | hdecision
  · exact .inr (decision_ne_none_of_published h hstage (horderly key stage hstage))
  · exact .inr hdecision

omit h

theorem Inv.step {event : ι × Reply} (h : Inv service) (horderly : Orderly service event) :
    Inv (service.step event) := by
  obtain ⟨i, reply⟩ := event
  cases reply with
  | cancel =>
    rw [NetworkApprovalService.step]
    split
    next hawaits => exact (effect_cancel h hawaits horderly).inv h
    next hawaits =>
      refine (effect_stepCall h fun key resolution hcall => ?_).inv h
      rw [hcall] at hawaits
      exact absurd rfl hawaits
  | _ =>
    rw [NetworkApprovalService.step]
    · exact (effect_stepCall h horderly).inv h
    · nofun

end Steps

section Runs

theorem inv_new : Inv (.new : NetworkApprovalService ι) where
  sound _ := ⟨rfl, rfl⟩
  entry _ _ := (nomatch ·)
  closed key hkey := absurd hkey (Finset.notMem_empty key)
  final _ hprompt := absurd hprompt List.not_mem_nil

theorem Inv.onePrompt {service : NetworkApprovalService ι} (h : Inv service) :
    OnePrompt service where
  single key i j hi hj :=
    Option.some.inj ((h.sound_of hi).1.symm.trans (h.sound_of hj).1)
  answered i owner decision hcall := by
    have hdecision := (h.sound_of hcall).2
    refine ⟨hdecision, fun owned howned => ?_⟩
    exact Option.some.inj ((h.sound_of howned).1.symm.trans hdecision)
  attended i owner hwaits := by
    obtain ⟨key, hpursued, hseen⟩ : ∃ key, Pursued service key owner ∧ ∀ key seen,
        service.calls i = .awaitNotified key owner seen → seen = 0 := by
      have hsound := h.sound i
      cases hcall : service.calls i <;> rw [hcall] at hwaits hsound <;> cases hwaits
      · exact ⟨_, hsound.2, by simp⟩
      · exact ⟨_, hsound.2.1, by simp⟩
      · exact ⟨_, hsound.2.1, fun key seen heq => by cases heq; exact hsound.2.2⟩
    have hgone (hdecision : service.decision owner ≠ none) :
        (∃ key stage, service.calls owner = .owning key stage) ∨
          service.decision owner ≠ none ∧ ∀ key seen,
            service.calls i = .awaitNotified key owner seen →
              seen < service.notifications owner := by
      refine (notifications_eq_one h hdecision).imp id fun hone => ⟨hdecision, ?_⟩
      intro key seen hcall
      rw [hone, hseen key seen hcall]
      exact Nat.one_pos
    rcases hpursued with hpending | hdecision
    · rcases h.entry key owner hpending with ⟨stage, hstage⟩ | hdecision
      · exact .inl ⟨key, stage, hstage⟩
      · exact hgone hdecision
    · exact hgone hdecision
  final := h.final

variable [DecidableEq ι]

/-- If no owner is dropped before it has decided, and no call is past its look at the session's
hosts when an owner that has decided for the session leaves the table, then in every state there
is one prompt for a key at most, calls that wait get its decision, and a decision for the session
is the last one. -/
theorem one_prompt_per_host (schedule : List (ι × Reply))
    (horderly : Along step Orderly .new schedule) : Always step OnePrompt .new schedule :=
  (horderly.always (fun _ _ horderly h => Inv.step h horderly) inv_new).mono fun _ h => h.onePrompt

def request : NetworkPolicyRequest := ⟨.httpsConnect, "a.io".toList, 443⟩

def upToTable (i : Bool) : List (Bool × Reply) :=
  [(i, .start request), (i, .proceed), (i, .proceed)]

/-- The owner prompts and is told to allow the host for the session. -/
def allowForSession (i : Bool) : List (Bool × Reply) :=
  [(i, .proceed), (i, .turnContext (some ⟨.managed, .onRequest⟩)), (i, .hooks none),
    (i, .review .approvedForSession), (i, .proceed), (i, .proceed), (i, .proceed),
    (i, .proceed), (i, .proceed)]

/-- A second call waits for the prompt of the first one. -/
theorem second_call_waits :
    Always step OnePrompt .new
      (upToTable false ++ upToTable true ++ [(false, .proceed), (true, .proceed)] ++
        (allowForSession false).tail) := by
  refine one_prompt_per_host _ ?_
  refine ⟨?_, ?_, ?_, ?_, ?_, ?_, ?_, ?_, ?_, ?_, ?_, ?_, ?_, ?_, ?_, ?_, trivial⟩
  all_goals
    rintro _ _ ⟨⟩
    try decide

/-- If the first call is dropped while it prompts, the second one waits for nothing. If the second
one gets to the table when the first one has allowed the host and left, it prompts again. -/
theorem dropped_owner_and_second_prompt :
    (let service := List.foldl step .new
      (upToTable false ++ upToTable true ++ (allowForSession false).take 3 ++
        [(true, .proceed), (true, .proceed), (true, .proceed), (false, .cancel)])
    service.calls false = .cancelled ∧ service.decision false = none ∧
      service.calls true = .awaitNotified (.fromRequest request) false 0) ∧
    (List.foldl step .new
      (upToTable false ++ upToTable true ++ allowForSession false ++
        [(true, .proceed), (true, .turnContext (some ⟨.managed, .onRequest⟩)),
          (true, .hooks none)])).prompts =
      [(.fromRequest request, false), (.fromRequest request, true)] := by
  decide

end Runs

end DeepseekX.NetworkApprovals
