import Mathlib.Data.List.Basic

/-!
# The turns of a session

A session has at most one active turn, which holds tasks and a turn state with the input that
waits for the turn. Turns are started by the user and, while the session is idle, for pending
work and for goals. Every lock and every other `await` is a step here, between which other
calls and tasks may move. A turn is named after the call that starts it, and a turn state
after the number of those made before it.
-/

namespace DeepseekX.SessionTurns

inductive TaskKind where
  | regular
  | review
  | compact
  deriving DecidableEq

inductive TurnAbortReason where
  | interrupted
  | replaced
  | reviewEnded
  | budgetLimited
  deriving DecidableEq

inductive MailboxDeliveryPhase where
  | currentTurn
  | nextTurn
  deriving DecidableEq

structure TurnState (α : Type*) where
  pendingInput : List α
  mailboxDeliveryPhase : MailboxDeliveryPhase

def TurnState.default {α : Type*} : TurnState α := ⟨[], .currentTurn⟩

/-- The tasks are in the order of the index map. -/
structure ActiveTurn (ι : Type*) where
  tasks : List (ι × TaskKind)
  turnState : ℕ

inductive TurnEvent (ι : Type*) where
  | turnComplete (turn : ι)
  | turnAborted (turn : ι)
  deriving DecidableEq

def TurnEvent.turn {ι : Type*} : TurnEvent ι → ι
  | turnComplete turn | turnAborted turn => turn

inductive SteerInputError (ι α : Type*) where
  | noActiveTurn (input : α)
  | expectedTurnMismatch (expected actual : ι)
  | activeTurnNotSteerable (kind : TaskKind)
  | emptyInput

/-- Who aborts: `spawn_task`, `abort_all_tasks` and `abort_turn_if_active`. -/
inductive Abort (ι : Type*) where
  | replace (kind : TaskKind)
  | all (reason : TurnAbortReason)
  | turn (turn : ι) (reason : TurnAbortReason)

/-- What a call has returned; of input that was offered, also the input and whether a task was
running. -/
inductive Outcome (ι α : Type*) where
  | done
  | abortedTurn (aborted : Bool)
  | steered (input : Option α) (result : Except (SteerInputError ι α) ι) (running : Bool)
  | injected (input : List α) (result : Except (List α) Unit) (running : Bool)

inductive Call (ι α : Type*) where
  | idle
  -- aborts
  | takeActiveTurn (abort : Abort ι)
  | handleTasks (abort : Abort ι) (aborted : Bool) (turnState : ℕ) (tasks : List ι)
  | awaitDone (abort : Abort ι) (turnState : ℕ) (task : ι) (rest : List ι)
  | sendAborted (abort : Abort ι) (turnState : ℕ) (task : ι) (rest : List ι)
  -- maybe_start_turn_for_pending_work
  | pendingQueued
  | pendingMailbox
  | pendingReserve
  -- maybe_start_goal_continuation_turn
  | goalPermit
  | goalActive
  | goalQueued (items : List α)
  | goalMailbox (items : List α)
  | goalReserve (items : List α)
  | goalCurrent (items : List α) (turnState : ℕ)
  | goalPush (items : List α) (turnState : ℕ)
  | goalConfirm (turnState : ℕ)
  | goalClear (turnState : ℕ)
  -- start_task
  | takeQueued (kind : TaskKind)
  | takePending (kind : TaskKind) (items : List α)
  | takeMailbox (kind : TaskKind) (items : List α)
  | readTurn (kind : TaskKind) (items : List α)
  | pushItems (kind : TaskKind) (items : List α) (turnState : ℕ)
  | addTask (kind : TaskKind)
  -- input for the active turn
  | steerInput (input : Option α) (expected : Option ι)
  | injectResponseItems (input : List α)
  | returned (outcome : Outcome ι α)

/-- What the spawned body of a task does next. `passed` says whether it found itself not
cancelled. -/
inductive Body (α : Type*) where
  | unstarted
  | running
  | takingMailbox
  | flushing
  | removeTask
  | drain (turnState : ℕ)
  | inspect (turnState : ℕ) (items : List α)
  | sendComplete (turnState : Option ℕ)
  | clearTurn (turnState : ℕ)
  | finished (passed : Bool)

/-- The body has looked at its cancellation token and goes on to finish the turn. -/
def Body.passed {α : Type*} : Body α → Bool
  | unstarted | running | takingMailbox | flushing => false
  | removeTask | drain _ | inspect _ _ | sendComplete _ | clearTurn _ => true
  | finished passed => passed

/-- Behind the fields of the session stands what happened: the input that was taken by
`get_pending_input`, the input that was accepted, the input that was left when an active turn was
cleared, and whether an assertion of `start_task` has failed. -/
structure Session (ι α : Type*) where
  activeTurn : Option (ActiveTurn ι)
  turnStates : ℕ → TurnState α
  nextTurnState : ℕ
  idlePendingInput : List α
  mailbox : List (α × Bool)
  continuationLock : Option ι
  cancelled : ι → Bool
  abortedTasks : ι → Bool
  bodies : ι → Body α
  calls : ι → Call ι α
  events : List (TurnEvent ι)
  recorded : List α
  taken : List α
  accepted : List α
  leftAtClear : List α
  assertionFailed : Bool

namespace Session
variable {ι α : Type*}

def new : Session ι α :=
  ⟨none, fun _ => .default, 0, [], [], none, fun _ => false, fun _ => false, fun _ => .unstarted,
    fun _ => .idle, [], [], [], [], [], false⟩

variable (session : Session ι α)

def tasks : List (ι × TaskKind) :=
  (session.activeTurn.map ActiveTurn.tasks).getD []

variable (turnState : ℕ)

def setPending (items : List α) : Session ι α :=
  { session with
    turnStates := Function.update session.turnStates turnState
      { session.turnStates turnState with pendingInput := items } }

def pushPending (items : List α) : Session ι α :=
  session.setPending turnState ((session.turnStates turnState).pendingInput ++ items)

def setPhase (phase : MailboxDeliveryPhase) : Session ι α :=
  { session with
    turnStates := Function.update session.turnStates turnState
      { session.turnStates turnState with mailboxDeliveryPhase := phase } }

/-- `*active = Some(ActiveTurn::default())`. -/
def reserve : Session ι α :=
  { session with
    activeTurn := some ⟨[], session.nextTurnState⟩
    nextTurnState := session.nextTurnState + 1 }

/-- `get_or_insert_with(ActiveTurn::default)`. -/
def ensureActive : Session ι α :=
  if session.activeTurn.isSome then session else session.reserve

/-- The active turn has no task and is the one with the turn state. -/
def reserved : Bool :=
  session.activeTurn.any fun active => active.tasks.isEmpty && active.turnState == turnState

/-- The first half of `get_pending_input`: the items, and whether mail is accepted. -/
def takePendingInput : Session ι α × List α × Bool :=
  match session.activeTurn with
  | some active =>
    let state := session.turnStates active.turnState
    ({ session.setPending active.turnState [] with taken := session.taken ++ state.pendingInput },
      state.pendingInput, decide (state.mailboxDeliveryPhase = .currentTurn))
  | none => (session, [], true)

/-- The second half of `get_pending_input`. -/
def drainMailbox : Session ι α × List α :=
  ({ session with mailbox := [] }, session.mailbox.map Prod.fst)

variable [DecidableEq ι]

/-- `IndexMap::swap_remove`. -/
def swapRemove (turn : ι) (tasks : List (ι × TaskKind)) : Option (List (ι × TaskKind)) :=
  tasks.getLast?.bind fun last =>
    (tasks.findIdx? fun task => task.1 = turn).map fun at' => (tasks.set at' last).dropLast

/-- `IndexMap::insert`. -/
def insertTask (turn : ι) (kind : TaskKind) (tasks : List (ι × TaskKind)) : List (ι × TaskKind) :=
  if tasks.any fun task => task.1 = turn then
    tasks.map fun task => if task.1 = turn then (turn, kind) else task
  else tasks ++ [(turn, kind)]

variable (session : Session ι α)
variable (i : ι)

def goTo (call : Call ι α) : Session ι α :=
  { session with calls := Function.update session.calls i call }

def bodyTo (body : Body α) : Session ι α :=
  { session with bodies := Function.update session.bodies i body }

/-- A call returns, and gives the continuation lock back if it has it. -/
def finish (outcome : Outcome ι α) : Session ι α :=
  { session.goTo i (.returned outcome) with
    continuationLock :=
      if session.continuationLock = some i then none else session.continuationLock }

variable (abort : Abort ι)

/-- What follows the loop over the aborted tasks. -/
def finishAbort (aborted : Bool) : Session ι α :=
  match abort with
  | .replace kind => session.goTo i (.takeQueued kind)
  | .all reason =>
    if reason = .interrupted ∧ aborted then session.goTo i .pendingQueued
    else session.finish i .done
  | .turn _ reason =>
    if reason = .interrupted then session.goTo i .pendingQueued
    else session.finish i (.abortedTurn true)

/-- The aborts up to the loop over the tasks. -/
def stepTake : Session ι α :=
  match session.activeTurn, abort with
  | some active, .turn turn _ =>
    if active.tasks.any fun task => task.1 = turn then
      { session.goTo i
          (.handleTasks abort true active.turnState (active.tasks.map Prod.fst)) with
        activeTurn := none }
    else session.finish i (.abortedTurn false)
  | none, .turn _ _ => session.finish i (.abortedTurn false)
  | some active, _ =>
    { session.goTo i (.handleTasks abort (!active.tasks.isEmpty) active.turnState
        (active.tasks.map Prod.fst)) with
      activeTurn := none }
  | none, _ => session.finishAbort i abort false

/-- `handle_task_abort` up to the cancellation, and what follows the last task. -/
def stepTasks (aborted : Bool) (turnState : ℕ) : List ι → Session ι α
  | task :: rest =>
    if session.cancelled task then
      -- the handle of the task is dropped, which aborts it
      { session.goTo i (.handleTasks abort aborted turnState rest) with
        abortedTasks := Function.update session.abortedTasks task true }
    else
      { session.goTo i (.awaitDone abort turnState task rest) with
        cancelled := Function.update session.cancelled task true }
  | [] =>
    if aborted then (session.setPending turnState []).finishAbort i abort aborted
    else session.finishAbort i abort aborted

/-- `steer_input`. -/
def stepSteer (input : Option α) (expected : Option ι) : Session ι α :=
  match input with
  | none => session.finish i (.steered none (.error .emptyInput) (!session.tasks.isEmpty))
  | some item =>
    match session.activeTurn with
    | none => session.finish i (.steered input (.error (.noActiveTurn item)) false)
    | some active =>
      match active.tasks with
      | [] => session.finish i (.steered input (.error (.noActiveTurn item)) false)
      | (turn, kind) :: _ =>
        match expected.filter (· ≠ turn) with
        | some expected =>
          session.finish i (.steered input (.error (.expectedTurnMismatch expected turn)) true)
        | none =>
          if kind = .regular then
            { ((session.pushPending active.turnState [item]).setPhase active.turnState
                .currentTurn).finish i (.steered input (.ok turn) true) with
              accepted := session.accepted ++ [item] }
          else
            session.finish i (.steered input (.error (.activeTurnNotSteerable kind)) true)

/-- `inject_response_items`. -/
def stepInject (input : List α) : Session ι α :=
  match session.activeTurn with
  | some active =>
    { (session.pushPending active.turnState input).finish i
        (.injected input (.ok ()) (!active.tasks.isEmpty)) with
      accepted := session.accepted ++ input }
  | none => session.finish i (.injected input (.error input) false)

inductive Reply (α : Type*) where
  | proceed
  | candidate (items : Option (List α))
  | goalIsCurrent (current : Bool)

def stepCall (reply : Reply α) : Session ι α :=
  match session.calls i with
  | .idle | .returned _ => session
  | .takeActiveTurn abort => session.stepTake i abort
  | .handleTasks abort aborted turnState tasks =>
    session.stepTasks i abort aborted turnState tasks
  | .awaitDone abort turnState task rest =>
    -- the task has notified that it is done, or the time is over
    { session.goTo i (.sendAborted abort turnState task rest) with
      abortedTasks := Function.update session.abortedTasks task true }
  | .sendAborted abort turnState task rest =>
    { session.goTo i (.handleTasks abort true turnState rest) with
      events := session.events ++ [.turnAborted task] }
  | .pendingQueued =>
    if session.idlePendingInput = [] then session.goTo i .pendingMailbox
    else session.goTo i .pendingReserve
  | .pendingMailbox =>
    if session.mailbox.any Prod.snd then session.goTo i .pendingReserve
    else session.finish i .done
  | .pendingReserve =>
    if session.activeTurn.isSome then session.finish i .done
    else session.reserve.goTo i (.takeQueued .regular)
  | .goalPermit =>
    if session.continuationLock.isSome then session
    else { session.goTo i .goalActive with continuationLock := some i }
  | .goalActive =>
    match reply with
    | .candidate (some items) =>
      if session.activeTurn.isSome then session.finish i .done
      else session.goTo i (.goalQueued items)
    | .candidate none => session.finish i .done
    | _ => session
  | .goalQueued items =>
    if session.idlePendingInput = [] then session.goTo i (.goalMailbox items)
    else session.finish i .done
  | .goalMailbox items =>
    if session.mailbox.any Prod.snd then session.finish i .done
    else session.goTo i (.goalReserve items)
  | .goalReserve items =>
    if session.activeTurn.isSome then session.finish i .done
    else session.reserve.goTo i (.goalCurrent items session.nextTurnState)
  | .goalCurrent items turnState =>
    match reply with
    | .goalIsCurrent true => session.goTo i (.goalPush items turnState)
    | .goalIsCurrent false => session.goTo i (.goalClear turnState)
    | _ => session
  | .goalPush items turnState =>
    (session.pushPending turnState items).goTo i (.goalConfirm turnState)
  | .goalConfirm turnState =>
    if session.reserved turnState then session.goTo i (.takeQueued .regular)
    else session.goTo i (.goalClear turnState)
  | .goalClear turnState =>
    if session.reserved turnState then { session with activeTurn := none }.finish i .done
    else session.finish i .done
  | .takeQueued kind =>
    { session.goTo i (.takePending kind session.idlePendingInput) with idlePendingInput := [] }
  | .takePending kind items =>
    match session.takePendingInput with
    | (session, pending, true) => session.goTo i (.takeMailbox kind (items ++ pending))
    | (session, pending, false) => session.goTo i (.readTurn kind (items ++ pending))
  | .takeMailbox kind items =>
    session.drainMailbox.1.goTo i (.readTurn kind (items ++ session.drainMailbox.2))
  | .readTurn kind items =>
    let session' := session.ensureActive
    { session'.goTo i (.pushItems kind items
        ((session'.activeTurn.map ActiveTurn.turnState).getD 0)) with
      assertionFailed := session.assertionFailed || !session.tasks.isEmpty }
  | .pushItems kind items turnState =>
    (session.pushPending turnState items).goTo i (.addTask kind)
  | .addTask kind =>
    let session' := session.ensureActive
    { (session'.bodyTo i .running).finish i .done with
      activeTurn := session'.activeTurn.map fun active =>
        { active with tasks := insertTask i kind active.tasks }
      assertionFailed := session.assertionFailed || !session.tasks.isEmpty }
  | .steerInput input expected => session.stepSteer i input expected
  | .injectResponseItems input => session.stepInject i input

/-- What a running task does, and what a hook says of an item. -/
inductive BodyReply (α : Type*) where
  | proceed
  | getPendingInput
  | prependPendingInput (items : List α)
  | setMailboxDelivery (phase : MailboxDeliveryPhase)
  | inspected (accepted : Bool)

/-- `defer_mailbox_delivery_to_next_turn` and `accept_mailbox_delivery_for_current_turn`. -/
def setMailboxDelivery (phase : MailboxDeliveryPhase) : Session ι α :=
  match session.activeTurn with
  | some active =>
    if (active.tasks.any fun task => task.1 = i) ∧
        (phase = .currentTurn ∨ (session.turnStates active.turnState).pendingInput = []) then
      session.setPhase active.turnState phase
    else session
  | none => session

/-- The first lock of `on_task_finished`. -/
def removeTask : Session ι α :=
  match session.activeTurn with
  | some active =>
    match swapRemove i active.tasks with
    | some tasks =>
      { session.bodyTo i
          (if tasks = [] then .drain active.turnState else .sendComplete none) with
        activeTurn := some { active with tasks := tasks } }
    | none => session.bodyTo i (.sendComplete none)
  | none => session.bodyTo i (.sendComplete none)

def stepBody (reply : BodyReply α) : Session ι α :=
  match session.bodies i with
  | .unstarted | .finished _ => session
  | .running =>
    match reply with
    | .getPendingInput =>
      match session.takePendingInput with
      | (session, _, true) => session.bodyTo i .takingMailbox
      | (session, _, false) => session
    | .prependPendingInput items =>
      match session.activeTurn with
      | some active => session.setPending active.turnState
          (items ++ (session.turnStates active.turnState).pendingInput)
      | none => session
    | .setMailboxDelivery phase => session.setMailboxDelivery i phase
    | _ => session.bodyTo i .flushing
  | .takingMailbox =>
    { session.drainMailbox.1.bodyTo i .running with
      taken := session.taken ++ session.drainMailbox.2 }
  | .flushing =>
    if session.cancelled i then session.bodyTo i (.finished false)
    else session.bodyTo i .removeTask
  | .removeTask => session.removeTask i
  | .drain turnState =>
    (session.setPending turnState []).bodyTo i
      (.inspect turnState (session.turnStates turnState).pendingInput)
  | .inspect turnState [] => session.bodyTo i (.sendComplete (some turnState))
  | .inspect turnState (item :: items) =>
    match reply with
    | .inspected true =>
      { session.bodyTo i (.inspect turnState items) with recorded := session.recorded ++ [item] }
    | .inspected false => session.bodyTo i (.inspect turnState items)
    | _ => session
  | .sendComplete turnState =>
    { session.bodyTo i (turnState.elim (.finished true) .clearTurn) with
      events := session.events ++ [.turnComplete i] }
  | .clearTurn turnState =>
    if session.reserved turnState then
      { session.bodyTo i (.finished true) with
        activeTurn := none
        leftAtClear := session.leftAtClear ++ (session.turnStates turnState).pendingInput }
    else session.bodyTo i (.finished true)

/-- The body of a task whose handle was aborted ends at one of its awaits. -/
def stopBody : Session ι α :=
  match session.bodies i with
  | .unstarted => session
  | body => if session.abortedTasks i then session.bodyTo i (.finished body.passed) else session

inductive Operation (ι α : Type*) where
  | spawnTask (kind : TaskKind)
  | maybeStartTurnForPendingWork
  | maybeStartGoalContinuationTurn
  | abortAllTasks (reason : TurnAbortReason)
  | abortTurnIfActive (turn : ι) (reason : TurnAbortReason)
  | steerInput (input : Option α) (expected : Option ι)
  | injectResponseItems (input : List α)

def Operation.first : Operation ι α → Call ι α
  | spawnTask kind => .takeActiveTurn (.replace kind)
  | maybeStartTurnForPendingWork => .pendingQueued
  | maybeStartGoalContinuationTurn => .goalPermit
  | abortAllTasks reason => .takeActiveTurn (.all reason)
  | abortTurnIfActive turn reason => .takeActiveTurn (.turn turn reason)
  | steerInput input expected => .steerInput input expected
  | injectResponseItems input => .injectResponseItems input

inductive Event (ι α : Type*) where
  | start (call : ι) (operation : Operation ι α)
  | call (call : ι) (reply : Reply α)
  | body (turn : ι) (reply : BodyReply α)
  | stop (turn : ι)
  | mail (item : α) (triggerTurn : Bool)
  | queueResponseItems (items : List α)

def step : Event ι α → Session ι α
  | .start i operation =>
    match session.calls i with
    | .idle => session.goTo i operation.first
    | _ => session
  | .call i reply => session.stepCall i reply
  | .body i reply => session.stepBody i reply
  | .stop i => session.stopBody i
  | .mail item triggerTurn =>
    { session with mailbox := session.mailbox ++ [(item, triggerTurn)] }
  | .queueResponseItems items =>
    { session with idlePendingInput := session.idlePendingInput ++ items }

end Session

end DeepseekX.SessionTurns
