import Mathlib.Algebra.Order.Group.Multiset
import DeepseekX.GuardedRuns
import DeepseekX.SessionSteps

/-!
# Input for a turn that ends

Input is accepted for the active turn and waits in its turn state, where the task takes it. What
is still there when the task has finished is taken out and recorded, before the active turn is
cleared. Both calls that offer input look at the active turn, and one of them also asks for a
task.
-/

namespace DeepseekX.SessionTurns
open GuardedRuns List Function
open Multiset (zero_le coe_add coe_nil)

variable {ι α : Type*}

/-- Input offered while no task was running was given back. -/
def Outcome.ReturnsInput : Outcome ι α → Prop
  | .steered none result _ => result = .error .emptyInput
  | .steered (some item) result running => running = false → result = .error (.noActiveTurn item)
  | .injected input result running => running = false → result = .error input
  | _ => True

variable (session : Session ι α)

def Session.pendingInput (turnState : ℕ) : List α :=
  (session.turnStates turnState).pendingInput

/-- The input that waits in the active turn, or that the body of its task has taken out. -/
def Session.waiting (turn : ι) : List α :=
  match session.bodies turn with
  | .running | .takingMailbox | .flushing | .removeTask =>
    ((session.activeTurn.map ActiveTurn.turnState).map session.pendingInput).getD []
  | .drain turnState => session.pendingInput turnState
  | .inspect _ items => items
  | _ => []

/-- Every item that was accepted was taken, was recorded or still waits, and none waits when the
turn is complete; no input was left in an active turn that was cleared; input that was offered
while no task was running was given back. -/
structure KeepsInput (turn : ι) (session : Session ι α) : Prop where
  kept : (session.accepted : Multiset α) ≤ session.taken + session.recorded + session.waiting turn
  cleared : session.leftAtClear = []
  returned : ∀ i outcome, session.calls i = .returned outcome → outcome.ReturnsInput

/-- One turn is started, and otherwise input is offered. -/
def OfTurn (turn : ι) : Session.Event ι α → Prop
  | .start i (.spawnTask _) | .start i .maybeStartTurnForPendingWork
  | .start i .maybeStartGoalContinuationTurn => i = turn
  | .start _ (.abortAllTasks _) | .start _ (.abortTurnIfActive _ _) => False
  | _ => True

/-- No input is injected into an active turn without a task, and no hook blocks input that is
taken out at the end. -/
def InputInTime : Session.Event ι α → Prop
  | .call i _ => ∀ input, session.calls i = .injectResponseItems input →
    session.activeTurn = none ∨ session.tasks ≠ []
  | .body i (.inspected false) =>
    ∀ turnState item items, session.bodies i ≠ .inspect turnState (item :: items)
  | _ => True

section Invariant

/-- The call offers input, or has not been made, or has returned. -/
def Call.offersInput : Call ι α → Bool
  | .idle | .steerInput _ _ | .injectResponseItems _ | .returned _ => true
  | _ => false

/-- The call starts a turn without aborting one. -/
def Call.startsTurn : Call ι α → Bool
  | .pendingQueued | .pendingMailbox | .pendingReserve | .goalPermit | .goalActive
  | .goalQueued _ | .goalMailbox _ | .goalReserve _ | .goalCurrent _ _ | .goalPush _ _
  | .goalConfirm _ | .goalClear _ | .takeQueued _ | .takePending _ _ | .takeMailbox _ _
  | .readTurn _ _ | .pushItems _ _ _ | .addTask _ => true
  | _ => false

def Kept (waiting : List α) : Prop :=
  (session.accepted : Multiset α) ≤ session.taken + session.recorded + waiting

/-- What holds while the body of the turn's task is at a point. -/
def Phase (turn : ι) (session : Session ι α) : Body α → Prop
  | .unstarted => session.tasks = [] ∧ session.accepted = []
  | .running | .takingMailbox | .flushing | .removeTask => ∃ kind turnState,
    session.activeTurn = some ⟨[(turn, kind)], turnState⟩ ∧
      Kept session (session.pendingInput turnState)
  | .drain turnState =>
    session.activeTurn = some ⟨[], turnState⟩ ∧ Kept session (session.pendingInput turnState)
  | .inspect turnState items =>
    session.activeTurn = some ⟨[], turnState⟩ ∧ session.pendingInput turnState = [] ∧
      Kept session items
  | .sendComplete turnState => ∃ r, turnState = some r ∧ session.activeTurn = some ⟨[], r⟩ ∧
    session.pendingInput r = [] ∧ Kept session []
  | .clearTurn turnState =>
    session.activeTurn = some ⟨[], turnState⟩ ∧ session.pendingInput turnState = [] ∧
      Kept session []
  | .finished _ => session.activeTurn = none ∧ Kept session []

structure InputInv (turn : ι) (session : Session ι α) : Prop where
  phase : Phase turn session (session.bodies turn)
  others : ∀ i ≠ turn, (session.calls i).offersInput = true ∧ session.bodies i = .unstarted
  own : (session.calls turn).offersInput = true ∨
    (session.calls turn).startsTurn = true ∧ session.bodies turn = .unstarted ∨
    (∃ kind, session.calls turn = .takeActiveTurn (.replace kind)) ∧ session.activeTurn = none ∧
      session.bodies turn = .unstarted
  idle : session.calls turn = .idle → session.activeTurn = none ∧ session.bodies turn = .unstarted
  uncancelled : ∀ i, session.cancelled i = false ∧ session.abortedTasks i = false
  cleared : session.leftAtClear = []
  returned : ∀ i outcome, session.calls i = .returned outcome → outcome.ReturnsInput

variable {turn : ι} {session session' : Session ι α}

theorem inputInv_new (turn : ι) : InputInv turn (.new : Session ι α) :=
  ⟨⟨rfl, rfl⟩, fun _ _ => ⟨rfl, rfl⟩, .inl rfl, fun _ => ⟨rfl, rfl⟩, fun _ => ⟨rfl, rfl⟩, rfl,
    fun _ _ => (nomatch ·)⟩

variable (h : InputInv turn session)
include h

theorem InputInv.keepsInput : KeepsInput turn session := by
  refine ⟨?_, h.cleared, h.returned⟩
  have hphase := h.phase
  rw [Session.waiting]
  cases hbody : session.bodies turn <;> rw [hbody] at hphase
  case unstarted =>
    rw [hphase.2]
    exact zero_le _
  case running | takingMailbox | flushing | removeTask =>
    obtain ⟨kind, turnState, hactive, hkept⟩ := hphase
    rw [hactive]
    exact hkept
  case drain | finished => exact hphase.2
  case inspect | clearTurn => exact hphase.2.2
  case sendComplete =>
    obtain ⟨r, -, -, -, hkept⟩ := hphase
    exact hkept

theorem InputInv.returned_of_started (hstarted : session.bodies turn ≠ .unstarted) :
    (session.calls turn).offersInput = true ∧ session.calls turn ≠ .idle := by
  refine ⟨?_, fun hidle => hstarted (h.idle hidle).2⟩
  rcases h.own with hoffers | ⟨-, hunstarted⟩ | ⟨-, -, hunstarted⟩
  · exact hoffers
  · exact absurd hunstarted hstarted
  · exact absurd hunstarted hstarted

/-- While the active turn has a task, it is the turn's, and input may be added to what waits. -/
theorem InputInv.of_tasks {active : ActiveTurn ι} (hactive : session.activeTurn = some active)
    (htasks : active.tasks ≠ []) :
    Kept session (session.pendingInput active.turnState) ∧ ∀ session' : Session ι α,
      session'.activeTurn = session.activeTurn →
      Kept session' (session'.pendingInput active.turnState) →
        Phase turn session' (session.bodies turn) := by
  have hphase := h.phase
  cases hbody : session.bodies turn <;> rw [hbody] at hphase
  case running | takingMailbox | flushing | removeTask =>
    obtain ⟨kind, turnState, hsome, hkept⟩ := hphase
    rw [hactive] at hsome
    cases hsome
    exact ⟨hkept, fun session' hsame hkept' => ⟨kind, turnState, hsame.trans hactive, hkept'⟩⟩
  case unstarted =>
    have hempty : session.tasks = [] := hphase.1
    rw [Session.tasks, hactive] at hempty
    exact absurd hempty htasks
  case drain | inspect | clearTurn =>
    cases hactive.symm.trans hphase.1
    exact absurd rfl htasks
  case sendComplete =>
    obtain ⟨r, -, hsome, -⟩ := hphase
    cases hactive.symm.trans hsome
    exact absurd rfl htasks
  case finished => cases hactive.symm.trans hphase.1

end Invariant

section Keeping
variable {session session' : Session ι α} {waiting items : List α} {item : α} {turnState : ℕ}

theorem Kept.push (h : Kept session waiting)
    (haccepted : session'.accepted = session.accepted ++ items)
    (htaken : session'.taken = session.taken) (hrecorded : session'.recorded = session.recorded) :
    Kept session' (waiting ++ items) := by
  rw [Kept, haccepted, htaken, hrecorded, ← coe_add, ← coe_add, ← add_assoc]
  exact add_le_add_left h _

theorem Kept.take (h : Kept session waiting) (haccepted : session'.accepted = session.accepted)
    (htaken : session'.taken = session.taken ++ waiting)
    (hrecorded : session'.recorded = session.recorded) : Kept session' [] := by
  rw [Kept, haccepted, htaken, hrecorded, ← coe_add, coe_nil, add_zero,
    add_right_comm]
  exact h

theorem Kept.record (h : Kept session (item :: items))
    (haccepted : session'.accepted = session.accepted) (htaken : session'.taken = session.taken)
    (hrecorded : session'.recorded = session.recorded ++ [item]) : Kept session' items := by
  rw [Kept, haccepted, htaken, hrecorded, ← coe_add, add_assoc, add_assoc,
    ← add_assoc]
  exact h

theorem Kept.mono (h : Kept session waiting) (haccepted : session'.accepted = session.accepted)
    (htaken : ∃ more, session'.taken = session.taken ++ more)
    (hrecorded : session'.recorded = session.recorded) {waiting' : List α}
    (hwaiting : ∃ more, waiting' = more ++ waiting) : Kept session' waiting' := by
  obtain ⟨more, htaken⟩ := htaken
  obtain ⟨before, rfl⟩ := hwaiting
  rw [Kept, haccepted, htaken, hrecorded]
  refine le_trans h ?_
  rw [← coe_add, ← coe_add]
  gcongr
  · exact Multiset.le_add_right _ _
  · exact Multiset.le_add_left _ _

@[simp] theorem pendingInput_setPending :
    (session.setPending turnState items).pendingInput turnState = items := by
  simp [Session.pendingInput, Session.setPending]

end Keeping

section Steps
variable [DecidableEq ι] {turn i : ι} {session session' : Session ι α}

/-- A step of a call leaves the bodies, the tokens and what was left alone. -/
structure CallFrame (i : ι) (session session' : Session ι α) (call : Call ι α) : Prop where
  calls : session'.calls = update session.calls i call
  bodies : session'.bodies = session.bodies := by rfl
  cancelled : session'.cancelled = session.cancelled := by rfl
  abortedTasks : session'.abortedTasks = session.abortedTasks := by rfl
  leftAtClear : session'.leftAtClear = session.leftAtClear := by rfl

variable {call : Call ι α} {outcome : Outcome ι α}

variable (h : InputInv turn session)
include h

/-- A call moves on, as one that offers input or as the one that starts the turn. -/
theorem InputInv.of_call (hframe : CallFrame i session session' call)
    (hpoint : call.offersInput = true ∨ i = turn ∧ session.bodies turn = .unstarted ∧
      (call.startsTurn = true ∨
        (∃ kind, call = .takeActiveTurn (.replace kind)) ∧ session'.activeTurn = none))
    (hidle : call ≠ .idle)
    (hactive : i ≠ turn → session.activeTurn = none → session'.activeTurn = none)
    (hreturned : ∀ outcome, call = .returned outcome → outcome.ReturnsInput)
    (hphase : Phase turn session' (session.bodies turn)) : InputInv turn session' := by
  obtain ⟨hcalls, hbodies, hcancelled, haborted, hleft⟩ := hframe
  cases session'
  subst hcalls hbodies hcancelled haborted hleft
  refine ⟨hphase, fun j hj => ⟨?_, (h.others j hj).2⟩, ?_, fun hturn => ?_, h.uncancelled,
    h.cleared, fun j outcome hj => ?_⟩ <;> dsimp only at *
  · by_cases heq : j = i
    · rw [heq, update_self]
      exact hpoint.resolve_right fun hstart => hj (heq.trans hstart.1)
    · rw [update_of_ne heq]
      exact (h.others j hj).1
  · by_cases heq : turn = i
    · subst heq
      rw [update_self]
      rcases hpoint with hoffers | ⟨-, hunstarted, hstarts | ⟨htakes, hnone⟩⟩
      · exact .inl hoffers
      · exact .inr (.inl ⟨hstarts, hunstarted⟩)
      · exact .inr (.inr ⟨htakes, hnone, hunstarted⟩)
    · rw [update_of_ne heq]
      exact h.own.imp_right (Or.imp_right fun htake =>
        ⟨htake.1, hactive (Ne.symm heq) htake.2.1, htake.2.2⟩)
  · by_cases heq : turn = i
    · rw [heq, update_self] at hturn
      exact absurd hturn hidle
    · rw [update_of_ne heq] at hturn
      exact ⟨hactive (Ne.symm heq) (h.idle hturn).1, (h.idle hturn).2⟩
  · by_cases heq : j = i
    · rw [heq, update_self] at hj
      exact hreturned outcome hj
    · rw [update_of_ne heq] at hj
      exact h.returned j outcome hj

/-- The start of the turn moves on and leaves the active turn without a task. -/
theorem InputInv.of_start (hbody : session.bodies turn = .unstarted)
    (hframe : CallFrame turn session session' call)
    (hpoint : call.startsTurn = true ∨ call = .returned .done) (htasks : session'.tasks = [])
    (haccepted : session'.accepted = session.accepted := by rfl) : InputInv turn session' := by
  have hphase := h.phase
  rw [hbody] at hphase
  refine h.of_call hframe ?_ ?_ (fun hne => absurd rfl hne) (fun outcome houtcome => ?_) ?_
  · exact hpoint.symm.imp (fun heq => by rw [heq]; rfl) fun hstarts =>
      ⟨rfl, hbody, .inl hstarts⟩
  · rintro rfl
    exact hpoint.elim (nomatch ·) (nomatch ·)
  · rcases hpoint with hstarts | rfl
    · rw [houtcome] at hstarts
      cases hstarts
    · cases houtcome
      trivial
  · rw [hbody]
    exact ⟨htasks, haccepted.trans hphase.2⟩

/-- The body of the turn's task moves on, or is made when the start has returned. -/
theorem InputInv.of_body (body : Body α)
    (hcall : (session.calls turn).offersInput = true ∧ session.calls turn ≠ .idle)
    (hbodies : session'.bodies = update session.bodies turn body)
    (hcleared : session'.leftAtClear = []) (hphase : Phase turn session' body)
    (hcalls : session'.calls = session.calls := by rfl)
    (hcancelled : session'.cancelled = session.cancelled := by rfl)
    (haborted : session'.abortedTasks = session.abortedTasks := by rfl) :
    InputInv turn session' := by
  cases session'
  subst hcalls hbodies hcancelled haborted
  refine ⟨?_, fun j hj => ?_, .inl hcall.1, fun hturn => absurd hturn hcall.2, h.uncancelled,
    hcleared, h.returned⟩
  · dsimp only
    rwa [update_self]
  · dsimp only
    rw [update_of_ne hj]
    exact h.others j hj

theorem InputInv.of_return (houtcome : outcome.ReturnsInput) :
    InputInv turn (session.finish i outcome) :=
  h.of_call { calls := rfl } (.inl rfl) nofun (fun _ => id)
    (fun _ heq => by cases heq; exact houtcome) h.phase

/-- Input is pushed to the active turn, which has a task. -/
theorem InputInv.of_accept {active : ActiveTurn ι} {items : List α}
    (hactive : session.activeTurn = some active) (htasks : active.tasks ≠ [])
    (hframe : CallFrame i session session' (.returned outcome))
    (hpending : session'.pendingInput active.turnState =
      session.pendingInput active.turnState ++ items) (houtcome : outcome.ReturnsInput)
    (haccepted : session'.accepted = session.accepted ++ items := by rfl)
    (hactive' : session'.activeTurn = session.activeTurn := by rfl)
    (htaken : session'.taken = session.taken := by rfl)
    (hrecorded : session'.recorded = session.recorded := by rfl) : InputInv turn session' := by
  obtain ⟨hkept, hphase⟩ := h.of_tasks hactive htasks
  refine h.of_call hframe (.inl rfl) nofun (fun _ hnone => hactive'.trans hnone)
    (fun _ heq => by cases heq; exact houtcome) (hphase session' hactive' ?_)
  rw [hpending]
  exact hkept.push haccepted htaken hrecorded

theorem InputInv.stepSteer (input : Option α) (expected : Option ι) :
    InputInv turn (session.stepSteer i input expected) := by
  fun_cases Session.stepSteer session i input expected
  case case5 item active hactive task tasks hexpected htasks =>
    refine h.of_accept hactive (by simp [htasks]) { calls := rfl } ?_
      (by simp [Outcome.ReturnsInput])
    simp [Session.pendingInput, Session.finish, Session.goTo, Session.setPhase,
      Session.pushPending, Session.setPending]
  all_goals exact h.of_return (by simp [Outcome.ReturnsInput])

theorem InputInv.stepInject (input : List α)
    (htime : session.activeTurn = none ∨ session.tasks ≠ []) :
    InputInv turn (session.stepInject i input) := by
  rw [Session.stepInject]
  split
  next active hactive =>
    have htasks : active.tasks ≠ [] := by simpa [Session.tasks, hactive] using htime
    refine h.of_accept hactive htasks { calls := rfl } ?_ ?_
    · simp [Session.pendingInput, Session.finish, Session.goTo, Session.pushPending,
        Session.setPending]
    · intro hrunning
      simp [htasks] at hrunning
  next => exact h.of_return fun _ => rfl

theorem InputInv.stepStart (reply : Session.Reply α) (hbody : session.bodies turn = .unstarted)
    (hstarts : (session.calls turn).startsTurn = true) :
    InputInv turn (session.stepCall turn reply) := by
  have hphase := h.phase
  rw [hbody] at hphase
  obtain ⟨htasks, haccepted⟩ := hphase
  have hreturns : InputInv turn (session.finish turn .done) :=
    h.of_start hbody { calls := rfl } (.inr rfl) htasks
  have hmoves {call : Call ι α} (hcall : call.startsTurn = true) :
      InputInv turn (session.goTo turn call) :=
    h.of_start hbody { calls := rfl } (.inl hcall) htasks
  unfold Session.stepCall
  cases hcall : session.calls turn with
  | takePending kind items =>
    obtain ⟨turnStates, taken, pending, accepts, htaken⟩ := takePendingInput_eq session
    rw [htaken]
    cases accepts <;> exact h.of_start hbody { calls := rfl } (.inl rfl) htasks
  | readTurn kind items =>
    obtain ⟨active, next, hensured, hsame⟩ := ensureActive_eq session
    rw [hensured]
    exact h.of_start hbody { calls := rfl } (.inl rfl) (hsame.trans htasks)
  | addTask kind =>
    obtain ⟨active, next, hensured, hsame⟩ := ensureActive_eq session
    have hempty : active.tasks = [] := hsame.trans htasks
    rw [hensured]
    -- the start returns first, and then its body is there
    have hreturned : InputInv turn
        { session.finish turn .done with activeTurn := some active, nextTurnState := next } :=
      h.of_start hbody { calls := rfl } (.inr rfl) hempty
    have hself : update session.calls turn (.returned .done) turn = .returned .done :=
      update_self ..
    refine hreturned.of_body .running ⟨?_, ?_⟩ rfl h.cleared ⟨kind, active.turnState, ?_, ?_⟩
    · exact congrArg Call.offersInput hself
    · exact fun hidle => nomatch hself.symm.trans hidle
    · exact congrArg (fun tasks => some (ActiveTurn.mk (Session.insertTask turn kind tasks)
        active.turnState)) hempty
    · exact (congrArg _ haccepted).trans_le (zero_le _)
  | idle | takeActiveTurn abort | handleTasks | awaitDone | sendAborted | steerInput
  | injectResponseItems | returned =>
    rw [hcall] at hstarts
    cases hstarts
  | goalPush | takeQueued | takeMailbox | pushItems =>
    exact h.of_start hbody { calls := rfl } (.inl rfl) htasks
  | pendingQueued | goalConfirm =>
    dsimp only
    split <;> exact hmoves rfl
  | pendingMailbox | goalQueued =>
    dsimp only
    split
    · exact hmoves rfl
    · exact hreturns
  | goalMailbox =>
    dsimp only
    split
    · exact hreturns
    · exact hmoves rfl
  | pendingReserve | goalReserve =>
    dsimp only
    split
    · exact hreturns
    · exact h.of_start hbody { calls := rfl } (.inl rfl) rfl
  | goalPermit =>
    dsimp only
    split
    · exact h
    · exact h.of_start hbody { calls := rfl } (.inl rfl) htasks
  | goalActive =>
    dsimp only
    split
    · split
      · exact hreturns
      · exact hmoves rfl
    · exact hreturns
    · exact h
  | goalCurrent =>
    dsimp only
    split
    · exact hmoves rfl
    · exact hmoves rfl
    · exact h
  | goalClear =>
    dsimp only
    split
    · exact h.of_start hbody { calls := rfl } (.inr rfl) rfl
    · exact hreturns

theorem InputInv.stepCall (reply : Session.Reply α)
    (htime : ∀ input, session.calls i = .injectResponseItems input →
      session.activeTurn = none ∨ session.tasks ≠ []) :
    InputInv turn (session.stepCall i reply) := by
  have hoffers (hcall : (session.calls i).offersInput = true) :
      InputInv turn (session.stepCall i reply) := by
    unfold Session.stepCall
    cases heq : session.calls i with
    | idle | returned outcome => exact h
    | steerInput input expected => exact h.stepSteer input expected
    | injectResponseItems input => exact h.stepInject input (htime input heq)
    | _ =>
      rw [heq] at hcall
      cases hcall
  by_cases hi : i = turn
  · subst hi
    rcases h.own with hcall | ⟨hstarts, hbody⟩ | ⟨⟨kind, hcall⟩, hnone, hbody⟩
    · exact hoffers hcall
    · exact h.stepStart reply hbody hstarts
    · have hphase := h.phase
      rw [hbody] at hphase
      have hstep : session.stepCall i reply = session.goTo i (.takeQueued kind) := by
        simp only [Session.stepCall, hcall, Session.stepTake, hnone, Session.finishAbort]
      rw [hstep]
      exact h.of_start hbody { calls := rfl } (.inl rfl) hphase.1
  · exact hoffers (h.others i hi).1

/-- The body of the turn's task while it has not found itself finished. -/
theorem InputInv.stepRunning (hbody : session.bodies turn = .running)
    (reply : Session.BodyReply α) : InputInv turn (session.stepBody turn reply) := by
  have hphase := h.phase
  rw [hbody] at hphase
  obtain ⟨kind, turnState, hactive, hkept⟩ := hphase
  have hcall := h.returned_of_started (by simp [hbody])
  have hsame := bodies_eq_update hbody
  simp only [Session.stepBody, hbody]
  cases reply with
  | getPendingInput =>
    have htaken : Kept { session.setPending turnState [] with
        taken := session.taken ++ session.pendingInput turnState } [] := hkept.take rfl rfl rfl
    have hempty : (session.setPending turnState []).pendingInput turnState = [] := by simp
    rw [← hempty] at htaken
    simp only [Session.takePendingInput, hactive]
    cases decide ((session.turnStates turnState).mailboxDeliveryPhase = .currentTurn) with
    | true => exact h.of_body _ hcall rfl h.cleared ⟨kind, turnState, hactive, htaken⟩
    | false => exact h.of_body _ hcall hsame h.cleared ⟨kind, turnState, hactive, htaken⟩
  | prependPendingInput items =>
    simp only [hactive]
    refine h.of_body _ hcall hsame h.cleared ⟨kind, turnState, hactive, ?_⟩
    rw [pendingInput_setPending]
    exact hkept.mono rfl ⟨[], (append_nil _).symm⟩ rfl ⟨items, rfl⟩
  | setMailboxDelivery phase =>
    simp only [Session.setMailboxDelivery, hactive]
    split
    · refine h.of_body _ hcall hsame h.cleared ⟨kind, turnState, hactive, ?_⟩
      have hpending : (session.setPhase turnState phase).pendingInput turnState =
          session.pendingInput turnState := by
        simp [Session.pendingInput, Session.setPhase]
      rw [hpending]
      exact hkept
    · exact h
  | proceed | inspected accepted =>
    exact h.of_body _ hcall rfl h.cleared ⟨kind, turnState, hactive, hkept⟩

theorem InputInv.stepBody (reply : Session.BodyReply α)
    (htime : reply = .inspected false →
      ∀ turnState item items, session.bodies i ≠ .inspect turnState (item :: items)) :
    InputInv turn (session.stepBody i reply) := by
  by_cases hi : i = turn
  case neg =>
    unfold Session.stepBody
    rw [(h.others i hi).2]
    exact h
  subst hi
  have hphase := h.phase
  have hcall := h.returned_of_started
  cases hbody : session.bodies i <;> rw [hbody] at hphase hcall
  case running => exact h.stepRunning hbody reply
  all_goals simp only [Session.stepBody, hbody]
  case unstarted | finished => exact h
  all_goals replace hcall := hcall (by simp)
  case takingMailbox =>
    obtain ⟨kind, turnState, hactive, hkept⟩ := hphase
    refine h.of_body _ hcall rfl h.cleared ⟨kind, turnState, hactive, ?_⟩
    refine hkept.mono ?_ ?_ ?_ ?_
    exacts [rfl, ⟨_, rfl⟩, rfl, ⟨[], rfl⟩]
  case flushing =>
    rw [if_neg (by simp [h.uncancelled i])]
    exact h.of_body _ hcall rfl h.cleared hphase
  case removeTask =>
    obtain ⟨kind, turnState, hactive, hkept⟩ := hphase
    have hremoved : Session.swapRemove i [(i, kind)] = some [] := by simp [Session.swapRemove]
    simp only [Session.removeTask, hactive, hremoved]
    exact h.of_body _ hcall rfl h.cleared ⟨rfl, hkept⟩
  case drain turnState =>
    exact h.of_body _ hcall rfl h.cleared ⟨hphase.1, pendingInput_setPending, hphase.2⟩
  case inspect turnState items =>
    obtain ⟨hactive, hempty, hkept⟩ := hphase
    cases items with
    | nil =>
      exact h.of_body _ hcall rfl h.cleared ⟨turnState, rfl, hactive, hempty, hkept⟩
    | cons item items =>
      dsimp only
      split
      · exact h.of_body _ hcall rfl h.cleared ⟨hactive, hempty, hkept.record rfl rfl rfl⟩
      · exact absurd hbody (htime rfl turnState item items)
      · exact h
  case sendComplete =>
    obtain ⟨r, rfl, hactive, hempty, hkept⟩ := hphase
    exact h.of_body _ hcall rfl h.cleared ⟨hactive, hempty, hkept⟩
  case clearTurn turnState =>
    obtain ⟨hactive, hempty, hkept⟩ := hphase
    rw [if_pos (by simp [Session.reserved, hactive])]
    refine h.of_body _ hcall rfl ?_ ⟨rfl, hkept⟩
    have hleft : session.leftAtClear ++ session.pendingInput turnState = [] := by
      rw [h.cleared, hempty]
      rfl
    exact hleft

omit h

theorem InputInv.step {event : Session.Event ι α} (h : InputInv turn session)
    (hturn : OfTurn turn event) (htime : InputInTime session event) :
    InputInv turn (session.step event) := by
  cases event with
  | start j operation =>
    rw [Session.step]
    split
    case h_2 => exact h
    case h_1 hidle =>
    cases operation with
    | spawnTask kind =>
      cases hturn
      obtain ⟨hnone, hbody⟩ := h.idle hidle
      exact h.of_call { calls := rfl } (.inr ⟨rfl, hbody, .inr ⟨⟨kind, rfl⟩, hnone⟩⟩) nofun
        (fun _ => id) nofun h.phase
    | maybeStartTurnForPendingWork | maybeStartGoalContinuationTurn =>
      cases hturn
      exact h.of_call { calls := rfl } (.inr ⟨rfl, (h.idle hidle).2, .inl rfl⟩) nofun
        (fun _ => id) nofun h.phase
    | abortAllTasks reason | abortTurnIfActive turn reason => cases hturn
    | steerInput input expected | injectResponseItems input =>
      exact h.of_call { calls := rfl } (.inl rfl) nofun (fun _ => id) nofun h.phase
  | call j reply => exact h.stepCall reply htime
  | body j reply =>
    refine h.stepBody reply fun hreply => ?_
    subst hreply
    exact htime
  | stop j =>
    have hstop : session.stopBody j = session := by
      rw [Session.stopBody]
      split
      · rfl
      · rw [(h.uncancelled j).2]
        rfl
    rw [Session.step, hstop]
    exact h
  | mail | queueResponseItems => exact { h with }

end Steps

section Runs
variable [DecidableEq ι]

/-- If no input is injected into an active turn without a task and no hook blocks the input that is
left at the end, then in every state of a turn that is not aborted what was accepted was taken, was
recorded or waits for one of the two. -/
theorem accepted_input_kept (turn : ι) (events : List (Session.Event ι α))
    (hturn : ∀ event ∈ events, OfTurn turn event)
    (htime : Along Session.step InputInTime .new events) :
    Always Session.step (KeepsInput turn) .new events :=
  (htime.always_of_allowed (fun _ _ hturn htime h => InputInv.step h hturn htime) hturn
    (inputInv_new turn)).mono fun _ h => h.keepsInput

def startUserTurn : List (Session.Event Bool Unit) :=
  .start false (.spawnTask .regular) :: replicate 7 (.call false .proceed)

def inject : List (Session.Event Bool Unit) :=
  [.start true (.injectResponseItems [()]), .call true .proceed]

/-- Input is injected while the task runs, and recorded when it has finished. -/
theorem injected_while_running :
    Always Session.step (KeepsInput false) .new
      (startUserTurn ++ inject ++ replicate 4 (.body false .proceed) ++
        [.body false (.inspected true), .body false .proceed, .body false .proceed,
          .body false .proceed]) := by
  refine accepted_input_kept false _ ?_ ?_
  · simp only [startUserTurn, inject, replicate, cons_append, nil_append, forall_mem_cons]
    refine ⟨rfl, trivial, trivial, trivial, trivial, trivial, trivial, trivial, trivial, trivial,
      trivial, trivial, trivial, trivial, trivial, trivial, trivial, trivial,
      forall_mem_nil _⟩
  · refine ⟨trivial, ?_, ?_, ?_, ?_, ?_, ?_, ?_, trivial, ?_, trivial, trivial, trivial, trivial,
      trivial, trivial, trivial, trivial, trivial⟩
    all_goals
      rintro _ ⟨⟩
      try exact .inr (cons_ne_nil _ _)

/-- Input is injected when what was left has been taken out, and lost when the active turn is
cleared. -/
theorem injected_behind_drain :
    let session := foldl Session.step .new
      (startUserTurn ++ replicate 4 (.body false .proceed) ++ inject ++
        replicate 3 (.body false .proceed))
    session.accepted = [()] ∧ session.taken = [] ∧ session.recorded = [] ∧
      session.leftAtClear = [()] ∧ session.activeTurn.isNone = true := by
  decide

end Runs

end DeepseekX.SessionTurns
