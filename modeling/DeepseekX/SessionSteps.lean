import DeepseekX.SessionTurns

/-!
# What a step of a session does

A step of a call cancels a task, sends `TurnAborted`, reads the active turn, adds a task to it or
does none of this. Which of these it does is said once here, with what it does to the tasks of the
active turn and to the starts that are under way.
-/

namespace DeepseekX.SessionTurns
open Session Function

variable {ι α : Type*}

def Call.unreturned : Call ι α → Bool
  | .returned _ => false
  | _ => true

/-- The task for which the call will send `TurnAborted`. -/
def Call.owes : Call ι α → Option ι
  | .awaitDone _ _ task _ | .sendAborted _ _ task _ => some task
  | _ => none

/-- The call starts a turn: it has taken the active turn away or has made or confirmed a
reservation, and has not yet added its task. -/
def Call.starting : Call ι α → Bool
  | .handleTasks (.replace _) _ _ _ | .awaitDone (.replace _) _ _ _
  | .sendAborted (.replace _) _ _ _ => true
  | .takeQueued _ | .takePending _ _ | .takeMailbox _ _ | .readTurn _ _ | .pushItems _ _ _
  | .addTask _ => true
  | _ => false

def BeginsStart (session : Session ι α) (i : ι) : Prop :=
  (∃ kind, session.calls i = .takeActiveTurn (.replace kind)) ∨
  (session.calls i = .pendingReserve ∧ session.activeTurn = none) ∨
  ∃ turnState, session.calls i = .goalConfirm turnState ∧ session.reserved turnState = true

section Cases
variable (session : Session ι α)

theorem ensureActive_eq : ∃ active next,
    session.ensureActive =
      { session with activeTurn := some active, nextTurnState := next } ∧
      active.tasks = session.tasks := by
  cases hactive : session.activeTurn with
  | some active =>
    refine ⟨active, session.nextTurnState, ?_, by rw [tasks, hactive]; rfl⟩
    rw [← hactive, ensureActive, if_pos (by rw [hactive]; rfl)]
  | none =>
    refine ⟨⟨[], session.nextTurnState⟩, session.nextTurnState + 1, ?_, by rw [tasks, hactive]; rfl⟩
    rw [ensureActive, if_neg (by rw [hactive]; exact Bool.false_ne_true)]
    rfl

theorem tasks_of_reserved {session : Session ι α} {turnState : ℕ}
    (h : session.reserved turnState = true) : session.tasks = [] := by
  rw [reserved] at h
  cases hactive : session.activeTurn with
  | none => rw [tasks, hactive]; rfl
  | some active =>
    rw [hactive, Option.any_some, Bool.and_eq_true, List.isEmpty_iff] at h
    rw [tasks, hactive]
    exact h.1

theorem takePendingInput_eq : ∃ turnStates taken pending accepts, session.takePendingInput =
    ({ session with turnStates := turnStates, taken := taken }, pending, accepts) := by
  rw [takePendingInput]
  split
  · exact ⟨_, _, _, _, rfl⟩
  · exact ⟨session.turnStates, session.taken, [], true, rfl⟩

variable [DecidableEq ι]

/-- Tokens, bodies and events stay as they are; the tasks of the active turn stay or go. -/
structure Plain (i : ι) (session session' : Session ι α) (call : Call ι α) : Prop where
  calls : session'.calls = update session.calls i call
  cancelled : session'.cancelled = session.cancelled := by rfl
  bodies : session'.bodies = session.bodies := by rfl
  events : session'.events = session.events := by rfl
  assertionFailed : session'.assertionFailed = session.assertionFailed := by rfl
  tasks : session'.tasks = session.tasks ∨ session'.tasks = [] := by exact .inl rfl
  owes : call.owes = none := by rfl
  starting : call.starting = true → (session.calls i).starting = true ∨
    (BeginsStart session i ∧ session'.tasks = [])

/-- What a step of a call does. -/
inductive CallStep (i : ι) (session : Session ι α) : Session ι α → Prop where
  | stays : CallStep i session session
  | plain (session' : Session ι α) (call : Call ι α)
    (unreturned : (session.calls i).unreturned = true) (plain : Plain i session session' call) :
    CallStep i session session'
  | cancel (abort : Abort ι) (aborted : Bool) (turnState : ℕ) (task : ι) (rest : List ι)
    (at_ : session.calls i = .handleTasks abort aborted turnState (task :: rest))
    (fresh : session.cancelled task = false) :
    CallStep i session
      { session.goTo i (.awaitDone abort turnState task rest) with
        cancelled := update session.cancelled task true }
  | abortHandle (abort : Abort ι) (turnState : ℕ) (task : ι) (rest : List ι)
    (at_ : session.calls i = .awaitDone abort turnState task rest) :
    CallStep i session
      { session.goTo i (.sendAborted abort turnState task rest) with
        abortedTasks := update session.abortedTasks task true }
  | sendAborted (abort : Abort ι) (turnState : ℕ) (task : ι) (rest : List ι)
    (at_ : session.calls i = .sendAborted abort turnState task rest) :
    CallStep i session
      { session.goTo i (.handleTasks abort true turnState rest) with
        events := session.events ++ [.turnAborted task] }
  | readTurn (session' : Session ι α) (kind : TaskKind) (items : List α) (turnState : ℕ)
    (at_ : session.calls i = .readTurn kind items)
    (calls : session'.calls = update session.calls i (.pushItems kind items turnState))
    (cancelled : session'.cancelled = session.cancelled)
    (bodies : session'.bodies = session.bodies) (events : session'.events = session.events)
    (assertionFailed : session'.assertionFailed =
      (session.assertionFailed || !session.tasks.isEmpty))
    (tasks : session'.tasks = session.tasks) :
    CallStep i session session'
  | addTask (session' : Session ι α) (kind : TaskKind) (at_ : session.calls i = .addTask kind)
    (calls : session'.calls = update session.calls i (.returned .done))
    (cancelled : session'.cancelled = session.cancelled)
    (bodies : session'.bodies = update session.bodies i .running)
    (events : session'.events = session.events)
    (assertionFailed : session'.assertionFailed =
      (session.assertionFailed || !session.tasks.isEmpty))
    (tasks : session'.tasks = insertTask i kind session.tasks) :
    CallStep i session session'

namespace CallStep
variable {session session' : Session ι α} {i : ι}

/-- Nothing that the call steps are told by is changed. -/
structure Same (session moved : Session ι α) : Prop where
  calls : moved.calls = session.calls := by rfl
  cancelled : moved.cancelled = session.cancelled := by rfl
  bodies : moved.bodies = session.bodies := by rfl
  events : moved.events = session.events := by rfl
  assertionFailed : moved.assertionFailed = session.assertionFailed := by rfl
  tasks : moved.tasks = session.tasks := by rfl

/-- Most steps only move the call, and are told by where it moves. -/
theorem moved {before call : Call ι α} (hcall : session.calls i = before)
    (hplain : Plain i session session' call := by exact { calls := rfl, starting := nofun })
    (hunreturned : before.unreturned = true := by rfl) : CallStep i session session' :=
  plain session' call (hcall ▸ hunreturned) hplain

theorem of_finishAbort {moved : Session ι α} (abort : Abort ι) (aborted : Bool)
    (hcall : (session.calls i).unreturned = true) (hsame : Same session moved)
    (hstarting : ∀ kind, abort = .replace kind → (session.calls i).starting = true ∨
      (BeginsStart session i ∧ session.tasks = [])) :
    CallStep i session (moved.finishAbort i abort aborted) := by
  obtain ⟨hcalls, hcancelled, hbodies, hevents, hfailed, htasks⟩ := hsame
  cases abort with
  | replace kind =>
    rw [← htasks] at hstarting
    exact plain _ (.takeQueued kind) hcall ⟨congrArg (update · i _) hcalls, hcancelled,
      hbodies, hevents, hfailed, .inl htasks, rfl, fun _ => hstarting kind rfl⟩
  | all reason | turn turn reason =>
    rw [finishAbort]
    split <;> exact plain _ _ hcall ⟨congrArg (update · i _) hcalls, hcancelled,
      hbodies, hevents, hfailed, .inl htasks, rfl, nofun⟩

theorem of_stepTake {abort : Abort ι} (hcall : session.calls i = .takeActiveTurn abort) :
    CallStep i session (session.stepTake i abort) := by
  have hunreturned : (session.calls i).unreturned = true := by rw [hcall]; rfl
  have hbegins (kind : TaskKind) (habort : abort = .replace kind) : BeginsStart session i :=
    .inl ⟨kind, by rw [hcall, habort]⟩
  cases hactive : session.activeTurn with
  | none =>
    have htasks : session.tasks = [] := by rw [tasks, hactive]; rfl
    cases abort <;> simp only [stepTake, hactive]
    case turn => exact moved hcall
    all_goals
      exact of_finishAbort _ false hunreturned {}
        (fun kind habort => .inr ⟨hbegins kind habort, htasks⟩)
  | some active =>
    cases abort <;> simp only [stepTake, hactive]
    case turn =>
      split
      · exact moved hcall { calls := rfl, tasks := .inr rfl, starting := nofun }
      · exact moved hcall
    case all => exact moved hcall { calls := rfl, tasks := .inr rfl, starting := nofun }
    case replace kind =>
      exact moved hcall
        { calls := rfl, tasks := .inr rfl, starting := fun _ => .inr ⟨hbegins kind rfl, rfl⟩ }

theorem of_stepTasks {abort : Abort ι} {aborted : Bool} {turnState : ℕ} {tasks : List ι}
    (hcall : session.calls i = .handleTasks abort aborted turnState tasks) :
    CallStep i session (session.stepTasks i abort aborted turnState tasks) := by
  have hunreturned : (session.calls i).unreturned = true := by rw [hcall]; rfl
  cases tasks with
  | nil =>
    rw [stepTasks]
    split <;> exact of_finishAbort abort _ hunreturned {}
      (fun kind habort => .inl (by rw [hcall, habort]; rfl))
  | cons task rest =>
    rw [stepTasks]
    split
    · refine moved hcall { calls := rfl, starting := fun h => .inl ?_ }
      rw [hcall]
      cases abort with
      | replace kind => rfl
      | _ => cases h
    next hfresh => exact cancel abort aborted turnState task rest hcall (by simpa using hfresh)

end CallStep

/-- What a step of a call can do. -/
theorem callStep (i : ι) (reply : Session.Reply α) :
    CallStep i session (session.stepCall i reply) := by
  unfold stepCall
  cases hcall : session.calls i with
  | idle | returned outcome => exact .stays
  | takeActiveTurn abort => exact .of_stepTake hcall
  | handleTasks abort aborted turnState tasks => exact .of_stepTasks hcall
  | awaitDone abort turnState task rest => exact .abortHandle abort turnState task rest hcall
  | sendAborted abort turnState task rest => exact .sendAborted abort turnState task rest hcall
  | steerInput input expected =>
    dsimp only
    fun_cases stepSteer session i input expected
    all_goals exact .moved hcall
  | injectResponseItems input =>
    dsimp only [stepInject]
    split <;> exact .moved hcall
  | goalPush items turnState =>
    exact .moved hcall
  | pendingQueued | pendingMailbox | goalQueued items | goalMailbox items =>
    dsimp only
    split <;> exact .moved hcall
  | goalPermit =>
    dsimp only
    split
    · exact .stays
    · exact .moved hcall
  | goalActive =>
    dsimp only
    split
    · split <;> exact .moved hcall
    · exact .moved hcall
    · exact .stays
  | goalCurrent items turnState =>
    dsimp only
    split
    · exact .moved hcall
    · exact .moved hcall
    · exact .stays
  | goalReserve items =>
    dsimp only
    split
    · exact .moved hcall
    · exact .moved hcall { calls := rfl, tasks := .inr rfl, starting := nofun }
  | goalClear turnState =>
    dsimp only
    split
    · exact .moved hcall { calls := rfl, tasks := .inr rfl, starting := nofun }
    · exact .moved hcall
  | pendingReserve =>
    dsimp only
    split
    · exact .moved hcall
    next hnone =>
      have hactive : session.activeTurn = none := by simpa using hnone
      exact .moved hcall
        { calls := rfl
          tasks := .inr rfl
          starting := fun _ => .inr ⟨.inr (.inl ⟨hcall, hactive⟩), rfl⟩ }
  | goalConfirm turnState =>
    dsimp only
    split
    next hreserved =>
      exact .moved hcall
        { calls := rfl
          starting := fun _ =>
            .inr ⟨.inr (.inr ⟨turnState, hcall, hreserved⟩), tasks_of_reserved hreserved⟩ }
    · exact .moved hcall
  | takeQueued kind | takeMailbox kind items | pushItems kind items turnState =>
    exact .moved hcall { calls := rfl, starting := by rw [hcall]; exact .inl }
  | takePending kind items =>
    obtain ⟨turnStates, taken, pending, accepts, htaken⟩ := takePendingInput_eq session
    rw [htaken]
    cases accepts <;> exact .moved hcall
      { calls := rfl, starting := by rw [hcall]; exact .inl }
  | readTurn kind items =>
    obtain ⟨active, next, hensured, htasks⟩ := ensureActive_eq session
    rw [hensured]
    exact .readTurn _ kind items _ hcall rfl rfl rfl rfl rfl htasks
  | addTask kind =>
    obtain ⟨active, next, hensured, htasks⟩ := ensureActive_eq session
    rw [hensured]
    exact .addTask _ kind hcall rfl rfl rfl rfl rfl (congrArg (insertTask i kind) htasks)

end Cases

section Bodies

/-- `TurnComplete` may have been sent. -/
def Body.completed : Body α → Bool
  | .clearTurn _ => true
  | .finished passed => passed
  | _ => false

theorem Body.passed_of_completed {body : Body α} (h : body.completed = true) :
    body.passed = true := by
  cases body with
  | clearTurn turnState => rfl
  | finished passed => exact h
  | _ => cases h

variable [DecidableEq ι]

/-- What a step of a body that sends no event does. -/
structure BodyMoves (i : ι) (session session' : Session ι α) (body : Body α) : Prop where
  started : session.bodies i ≠ .unstarted := by simp_all
  bodies : session'.bodies = update session.bodies i body
  calls : session'.calls = session.calls := by rfl
  cancelled : session'.cancelled = session.cancelled := by rfl
  events : session'.events = session.events := by rfl
  assertionFailed : session'.assertionFailed = session.assertionFailed := by rfl
  tasks : session'.tasks = session.tasks ∨ session'.tasks = [] ∨
    swapRemove i session.tasks = some session'.tasks := by exact .inl rfl
  passed : body.passed = true → (session.bodies i).passed = true ∨ session.cancelled i = false := by
    simp_all [Body.passed]
  completed : (session.bodies i).completed = true → body.completed = true := by
    simp_all [Body.completed]

/-- What a step of a body does. -/
inductive BodyStep (i : ι) (session : Session ι α) : Session ι α → Prop where
  | stays : BodyStep i session session
  | moves (session' : Session ι α) (body : Body α) (moves : BodyMoves i session session' body) :
    BodyStep i session session'
  | complete (turnState : Option ℕ) (at_ : session.bodies i = .sendComplete turnState) :
    BodyStep i session
      { session.bodyTo i (turnState.elim (.finished true) .clearTurn) with
        events := session.events ++ [.turnComplete i] }

variable {session session' : Session ι α} {i : ι}

theorem length_swapRemove {tasks tasks' : List (ι × TaskKind)}
    (h : swapRemove i tasks = some tasks') : tasks'.length + 1 = tasks.length := by
  rw [swapRemove, Option.bind_eq_some_iff] at h
  obtain ⟨last, hlast, h⟩ := h
  rw [Option.map_eq_some_iff] at h
  obtain ⟨position, -, rfl⟩ := h
  have hne : tasks ≠ [] := by
    rintro rfl
    cases hlast
  rw [List.length_dropLast, List.length_set]
  exact Nat.sub_add_cancel (List.length_pos_of_ne_nil hne)

theorem bodyStep_removeTask (hbody : session.bodies i = .removeTask) :
    BodyStep i session (session.removeTask i) := by
  rw [Session.removeTask]
  split
  next active hactive =>
    split
    next tasks htasks =>
      refine .moves _ _ { bodies := rfl, tasks := .inr (.inr ?_) }
      rw [Session.tasks, hactive]
      exact htasks
    · exact .moves _ _ { bodies := rfl }
  · exact .moves _ _ { bodies := rfl }

theorem bodies_eq_update {body : Body α} (hbody : session.bodies i = body) :
    session.bodies = update session.bodies i body := by
  rw [← hbody, update_eq_self]

/-- A task that stays running touches the state of the active turn only. -/
theorem bodyStep_running (hbody : session.bodies i = .running) (reply : Session.BodyReply α) :
    BodyStep i session (session.stepBody i reply) := by
  simp only [stepBody, hbody]
  cases reply with
  | getPendingInput =>
    obtain ⟨turnStates, taken, pending, accepts, htaken⟩ := takePendingInput_eq session
    rw [htaken]
    cases accepts with
    | true => exact .moves _ _ { bodies := rfl }
    | false => exact .moves _ _ { bodies := bodies_eq_update hbody }
  | prependPendingInput items =>
    dsimp only
    split
    · exact .moves _ _ { bodies := bodies_eq_update hbody }
    · exact .stays
  | setMailboxDelivery phase =>
    dsimp only [setMailboxDelivery]
    split
    · split
      · exact .moves _ _ { bodies := bodies_eq_update hbody }
      · exact .stays
    · exact .stays
  | proceed | inspected accepted => exact .moves _ _ { bodies := rfl }

theorem bodyStep (session : Session ι α) (i : ι) (reply : Session.BodyReply α) :
    BodyStep i session (session.stepBody i reply) := by
  cases hbody : session.bodies i with
  | running => exact bodyStep_running hbody reply
  | removeTask => simpa only [stepBody, hbody] using bodyStep_removeTask hbody
  | unstarted | finished passed =>
    simp only [stepBody, hbody]
    exact .stays
  | takingMailbox | drain turnState =>
    simp only [stepBody, hbody]
    exact .moves _ _ { bodies := rfl }
  | flushing =>
    simp only [stepBody, hbody]
    split
    · exact .moves _ _ { bodies := rfl }
    · exact .moves _ _ { bodies := rfl }
  | inspect turnState items =>
    simp only [stepBody, hbody]
    cases items with
    | nil => exact .moves _ _ { bodies := rfl }
    | cons item items =>
      dsimp only
      split
      · exact .moves _ _ { bodies := rfl }
      · exact .moves _ _ { bodies := rfl }
      · exact .stays
  | sendComplete turnState =>
    simp only [stepBody, hbody]
    exact .complete turnState hbody
  | clearTurn turnState =>
    simp only [stepBody, hbody]
    split
    · exact .moves _ _ { bodies := rfl, tasks := .inr (.inl rfl) }
    · exact .moves _ _ { bodies := rfl }

theorem bodyStep_stopBody (session : Session ι α) (i : ι) :
    BodyStep i session (session.stopBody i) := by
  rw [stopBody]
  split
  · exact .stays
  next hstarted =>
    split
    · exact .moves _ _ ⟨hstarted, rfl, rfl, rfl, rfl, rfl, .inl rfl, .inl, Body.passed_of_completed⟩
    · exact .stays

end Bodies

end DeepseekX.SessionTurns
