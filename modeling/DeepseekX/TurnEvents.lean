import Mathlib.Data.Finset.Card
import DeepseekX.GuardedRuns
import DeepseekX.SessionSteps

/-!
# The last event of a turn

A task that finds itself not cancelled sends `TurnComplete`, and an abort that cancels a task
sends `TurnAborted` for it. The token is cancelled once, so each of the two is sent once at most.
Both are sent if the token is cancelled behind the task's look at it.
-/

namespace DeepseekX.SessionTurns
open GuardedRuns List Function

variable {ι α : Type*}

/-- Of `TurnComplete` and `TurnAborted` at most one was sent for a turn, and once. -/
def OneLastEvent [DecidableEq ι] (session : Session ι α) : Prop :=
  ∀ turn, (session.events.filter fun event => event.turn = turn).length ≤ 1

/-- A task that is cancelled has not yet looked at its token. -/
def CancelsInTime (session : Session ι α) : Session.Event ι α → Prop
  | .call i _ => ∀ abort aborted turnState task rest,
    session.calls i = .handleTasks abort aborted turnState (task :: rest) →
      session.cancelled task = false → (session.bodies task).passed = false
  | _ => True

section Invariant

structure EventInv (session : Session ι α) : Prop where
  unstarted : ∀ i, (session.calls i).unreturned = true → session.bodies i = .unstarted
  exclusive : ∀ turn, session.cancelled turn = true → (session.bodies turn).passed = false
  owed : ∀ i turn, (session.calls i).owes = some turn → session.cancelled turn = true
  single : ∀ i j turn, (session.calls i).owes = some turn → (session.calls j).owes = some turn →
    i = j
  complete : ∀ turn, .turnComplete turn ∈ session.events → (session.bodies turn).completed = true
  aborted : ∀ turn, .turnAborted turn ∈ session.events →
    session.cancelled turn = true ∧ ∀ i, (session.calls i).owes ≠ some turn
  nodup : session.events.Nodup

theorem eventInv_new : EventInv (.new : Session ι α) :=
  ⟨fun _ _ => rfl, fun _ _ => rfl, fun _ _ => (nomatch ·), fun _ _ _ => (nomatch ·),
    fun _ h => absurd h not_mem_nil, fun _ h => absurd h not_mem_nil, nodup_nil⟩

variable {session session' : Session ι α} {i : ι}

theorem EventInv.nodup_concat {event : TurnEvent ι} (h : EventInv session)
    (hnew : event ∉ session.events) : (session.events ++ [event]).Nodup :=
  concat_eq_append ▸ h.nodup.concat hnew

variable [DecidableEq ι]
variable {call : Call ι α}

theorem owes_update {calls : ι → Call ι α} {j turn : ι}
    (h : (update calls i call j).owes = some turn) :
    (j = i ∧ call.owes = some turn) ∨ (j ≠ i ∧ (calls j).owes = some turn) := by
  by_cases heq : j = i
  · rw [heq, update_self] at h
    exact .inl ⟨heq, h⟩
  · rw [update_of_ne heq] at h
    exact .inr ⟨heq, h⟩

section
variable {task : ι} (h : EventInv session) (hcall : (session.calls i).unreturned = true)
include h hcall

theorem EventInv.unstarted_update {j : ι} (hj : (update session.calls i call j).unreturned = true) :
    session.bodies j = .unstarted := by
  by_cases heq : j = i
  · rw [heq]
    exact h.unstarted i hcall
  · rw [update_of_ne heq] at hj
    exact h.unstarted j hj

variable (hcalls : session'.calls = update session.calls i call)
include hcalls

/-- A call that owes no event afterwards moves, and tokens, bodies and events stay. -/
theorem EventInv.of_calls (hcancelled : session'.cancelled = session.cancelled)
    (hbodies : session'.bodies = session.bodies) (hevents : session'.events = session.events)
    (howes : call.owes = none ∨ call.owes = (session.calls i).owes) : EventInv session' := by
  cases session'
  subst hcalls hcancelled hbodies hevents
  have howesOf (j turn : ι) (hj : (update session.calls i call j).owes = some turn) :
      (session.calls j).owes = some turn := by
    rcases owes_update hj with ⟨rfl, hself⟩ | ⟨-, hj⟩
    · rcases howes with hnone | hsame
      · cases hnone.symm.trans hself
      · exact hsame.symm.trans hself
    · exact hj
  exact
    { h with
      unstarted := fun j hj => h.unstarted_update hcall hj
      owed := fun j turn hj => h.owed j turn (howesOf j turn hj)
      single := fun j k turn hj hk => h.single j k turn (howesOf j turn hj) (howesOf k turn hk)
      aborted := fun turn hturn => ⟨(h.aborted turn hturn).1, fun j hj =>
        (h.aborted turn hturn).2 j (howesOf j turn hj)⟩ }

theorem EventInv.cancel (hcancelled : session'.cancelled = update session.cancelled task true)
    (hbodies : session'.bodies = session.bodies) (hevents : session'.events = session.events)
    (howes : call.owes = some task) (hfresh : session.cancelled task = false)
    (hbody : (session.bodies task).passed = false) : EventInv session' := by
  cases session'
  subst hcalls hcancelled hbodies hevents
  -- no one owed the event of a task that was not cancelled
  have hunowed (j : ι) (hj : (session.calls j).owes = some task) : False :=
    absurd (h.owed j task hj) (by simp [hfresh])
  have howesOf (j turn : ι) (hj : (update session.calls i call j).owes = some turn) :
      (j = i ∧ turn = task) ∨ (session.calls j).owes = some turn :=
    (owes_update hj).imp (fun hj => ⟨hj.1, Option.some.inj (hj.2.symm.trans howes)⟩) And.right
  have hkept (turn : ι) (hturn : session.cancelled turn = true) :
      update session.cancelled task true turn = true := by
    simp [update_apply, hturn]
  refine ⟨fun j hj => h.unstarted_update hcall hj, fun turn hturn => ?_, fun j turn hj => ?_,
    fun j k turn hj hk => ?_, h.complete, fun turn hturn => ?_, h.nodup⟩
  · by_cases heq : turn = task
    · rw [heq]
      exact hbody
    · exact h.exclusive turn ((update_of_ne heq ..).symm.trans hturn)
  · rcases howesOf j turn hj with ⟨-, rfl⟩ | hj
    · exact update_self ..
    · exact hkept turn (h.owed j turn hj)
  · rcases howesOf j turn hj with ⟨hji, hjtask⟩ | hj <;>
      rcases howesOf k turn hk with ⟨hki, hktask⟩ | hk
    · rw [hji, hki]
    · exact (hunowed k (hjtask ▸ hk)).elim
    · exact (hunowed j (hktask ▸ hj)).elim
    · exact h.single j k turn hj hk
  · obtain ⟨hbefore, hnone⟩ := h.aborted turn hturn
    refine ⟨hkept turn hbefore, fun j hj => ?_⟩
    rcases howesOf j turn hj with ⟨-, rfl⟩ | hj
    · cases hfresh.symm.trans hbefore
    · exact hnone j hj

theorem EventInv.sendAborted (hcancelled : session'.cancelled = session.cancelled)
    (hbodies : session'.bodies = session.bodies)
    (hevents : session'.events = session.events ++ [.turnAborted task])
    (howner : (session.calls i).owes = some task) (howes : call.owes = none) :
    EventInv session' := by
  have hquiet : EventInv { session' with events := session.events } :=
    h.of_calls hcall hcalls hcancelled hbodies rfl (.inl howes)
  -- the event is new, since only one call owed it and it owed it still
  have hnew : TurnEvent.turnAborted task ∉ session.events :=
    fun hmem => (h.aborted task hmem).2 i howner
  refine ⟨hquiet.unstarted, hquiet.exclusive, hquiet.owed, hquiet.single,
    fun turn hturn => hquiet.complete turn (by simpa [hevents] using hturn), fun turn hturn => ?_,
    hevents ▸ h.nodup_concat hnew⟩
  rw [hevents, mem_append] at hturn
  rcases hturn with hbefore | hlast
  · exact hquiet.aborted turn hbefore
  · cases mem_singleton.mp hlast
    rw [hcancelled, hcalls]
    refine ⟨h.owed i task howner, fun j hj => ?_⟩
    rcases owes_update hj with ⟨-, hj⟩ | ⟨hne, hj⟩
    · cases howes.symm.trans hj
    · exact hne (h.single j i task hj howner)

end

variable (h : EventInv session)
include h

theorem EventInv.addTask (hcall : (session.calls i).unreturned = true)
    (hcalls : session'.calls = update session.calls i (.returned .done))
    (hcancelled : session'.cancelled = session.cancelled)
    (hbodies : session'.bodies = update session.bodies i .running)
    (hevents : session'.events = session.events) : EventInv session' := by
  have hquiet : EventInv { session' with bodies := session.bodies } :=
    h.of_calls hcall hcalls hcancelled rfl hevents (.inl rfl)
  refine ⟨fun j hj => ?_, fun turn hturn => ?_, hquiet.owed, hquiet.single,
    fun turn hturn => ?_, hquiet.aborted, hquiet.nodup⟩ <;> rw [hbodies]
  · by_cases heq : j = i
    · rw [hcalls, heq, update_self] at hj
      cases hj
    · rw [update_of_ne heq]
      exact hquiet.unstarted j hj
  · by_cases heq : turn = i
    · rw [heq, update_self]
      rfl
    · rw [update_of_ne heq]
      exact hquiet.exclusive turn hturn
  · have hbefore := hquiet.complete turn hturn
    by_cases heq : turn = i
    · rw [heq, show session.bodies i = .unstarted from h.unstarted i hcall] at hbefore
      cases hbefore
    · rwa [update_of_ne heq]

theorem EventInv.bodyMoves {body : Body α} (hmoves : BodyMoves i session session' body) :
    EventInv session' := by
  obtain ⟨hstarted, hbodies, hcalls, hcancelled, hevents, -, -, hpassed, hcompleted⟩ := hmoves
  cases session'
  subst hcalls hcancelled hbodies hevents
  refine ⟨fun j hj => ?_, fun turn hturn => ?_, h.owed, h.single, fun turn hturn => ?_, h.aborted,
    h.nodup⟩ <;> dsimp only
  · have hne : j ≠ i := by
      rintro rfl
      exact hstarted (h.unstarted j hj)
    rw [update_of_ne hne]
    exact h.unstarted j hj
  · by_cases heq : turn = i
    · subst heq
      rw [update_self, Bool.eq_false_iff]
      intro hyes
      rcases hpassed hyes with hbefore | hfresh
      · cases (h.exclusive turn hturn).symm.trans hbefore
      · cases hfresh.symm.trans hturn
    · rw [update_of_ne heq]
      exact h.exclusive turn hturn
  · by_cases heq : turn = i
    · subst heq
      rw [update_self]
      exact hcompleted (h.complete turn hturn)
    · rw [update_of_ne heq]
      exact h.complete turn hturn

theorem EventInv.sendComplete {turnState : Option ℕ}
    (hbody : session.bodies i = .sendComplete turnState) :
    EventInv { session.bodyTo i (turnState.elim (.finished true) .clearTurn) with
      events := session.events ++ [.turnComplete i] } := by
  have hcompleted : (turnState.elim (.finished true) .clearTurn : Body α).completed = true := by
    cases turnState <;> rfl
  have hmoves : EventInv (session.bodyTo i (turnState.elim (.finished true) .clearTurn)) :=
    h.bodyMoves { bodies := rfl, completed := fun _ => hcompleted }
  -- the body had not completed, so the event is new
  have hnew : TurnEvent.turnComplete i ∉ session.events := fun hmem => by
    have hsent := h.complete i hmem
    rw [hbody] at hsent
    cases hsent
  refine { hmoves with
    complete := fun turn hturn => ?_
    aborted := fun turn hturn => ?_
    nodup := h.nodup_concat hnew }
  all_goals rcases mem_append.mp hturn with hbefore | hlast
  · exact hmoves.complete turn hbefore
  · cases mem_singleton.mp hlast
    exact (congrArg Body.completed (update_self i _ session.bodies)).trans hcompleted
  · exact hmoves.aborted turn hbefore
  · cases mem_singleton.mp hlast

theorem EventInv.callStep (hstep : CallStep i session session')
    (htime : ∀ abort aborted turnState task rest,
      session.calls i = .handleTasks abort aborted turnState (task :: rest) →
        session.cancelled task = false → (session.bodies task).passed = false) :
    EventInv session' := by
  cases hstep with
  | stays => exact h
  | plain _ call hcall hplain =>
    exact h.of_calls hcall hplain.calls hplain.cancelled hplain.bodies hplain.events
      (.inl hplain.owes)
  | cancel abort aborted turnState task rest hcall hfresh =>
    exact h.cancel (by rw [hcall]; rfl) rfl rfl rfl rfl rfl hfresh
      (htime abort aborted turnState task rest hcall hfresh)
  | abortHandle abort turnState task rest hcall =>
    exact h.of_calls (by rw [hcall]; rfl) rfl rfl rfl rfl (.inr (by rw [hcall]; rfl))
  | sendAborted abort turnState task rest hcall =>
    exact h.sendAborted (by rw [hcall]; rfl) rfl rfl rfl rfl (by rw [hcall]; rfl) rfl
  | readTurn _ kind items turnState hcall hcalls hcancelled hbodies hevents =>
    exact h.of_calls (by rw [hcall]; rfl) hcalls hcancelled hbodies hevents (.inl rfl)
  | addTask _ kind hcall hcalls hcancelled hbodies hevents =>
    exact h.addTask (by rw [hcall]; rfl) hcalls hcancelled hbodies hevents

theorem EventInv.bodyStep (hstep : BodyStep i session session') : EventInv session' := by
  cases hstep with
  | stays => exact h
  | moves _ body hmoves => exact h.bodyMoves hmoves
  | complete turnState hbody => exact h.sendComplete hbody

omit h

theorem EventInv.step {event : Session.Event ι α} (h : EventInv session)
    (htime : CancelsInTime session event) : EventInv (session.step event) := by
  cases event with
  | start j operation =>
    rw [Session.step]
    split
    next hidle =>
      exact h.of_calls (by rw [hidle]; rfl) rfl rfl rfl rfl (.inl (by cases operation <;> rfl))
    next => exact h
  | call j reply => exact h.callStep (SessionTurns.callStep session j reply) htime
  | body j reply => exact h.bodyStep (SessionTurns.bodyStep session j reply)
  | stop j => exact h.bodyStep (bodyStep_stopBody session j)
  | mail | queueResponseItems => exact { h with }

end Invariant

section Runs
variable [DecidableEq ι]

theorem EventInv.oneLastEvent {session : Session ι α} (h : EventInv session) :
    OneLastEvent session := by
  intro turn
  -- a completed task was not cancelled, so the events of the turn are of one kind
  have hnot (turn : ι) (hcomplete : .turnComplete turn ∈ session.events)
      (haborted : .turnAborted turn ∈ session.events) : False := by
    have hpassed := Body.passed_of_completed (h.complete turn hcomplete)
    rw [h.exclusive turn (h.aborted turn haborted).1] at hpassed
    cases hpassed
  have hsame (event other : TurnEvent ι) (hevent : event ∈ session.events)
      (hother : other ∈ session.events) (hturns : event.turn = other.turn) : event = other := by
    cases event <;> cases other <;> cases hturns
    · rfl
    · exact (hnot _ hevent hother).elim
    · exact (hnot _ hother hevent).elim
    · rfl
  rw [← toFinset_card_of_nodup (h.nodup.filter _), Finset.card_le_one]
  intro event hevent other hother
  simp only [mem_toFinset, mem_filter, decide_eq_true_eq] at hevent hother
  exact hsame event other hevent.1 hother.1 (hevent.2.trans hother.2.symm)

/-- If tasks are only cancelled before they look at their token, then in every state at most one
of `TurnComplete` and `TurnAborted` was sent for each turn, and at most once. -/
theorem one_last_event (events : List (Session.Event ι α))
    (htime : Along Session.step CancelsInTime .new events) :
    Always Session.step OneLastEvent .new events :=
  (htime.always (fun _ _ htime h => EventInv.step h htime) eventInv_new).mono
    fun _ h => h.oneLastEvent

def startTurn : List (Session.Event Bool Unit) :=
  .start false (.spawnTask .regular) :: replicate 7 (.call false .proceed)

/-- The other call aborts it and has cancelled its task. -/
def cancelTurn : List (Session.Event Bool Unit) :=
  [.start true (.abortAllTasks .replaced), .call true .proceed, .call true .proceed]

theorem aborted_while_running :
    Always Session.step OneLastEvent .new
      (startTurn ++ cancelTurn ++ [.body false .proceed, .body false .proceed, .call true .proceed,
        .call true .proceed]) := by
  refine one_last_event _ ?_
  refine ⟨trivial, ?_, ?_, ?_, ?_, ?_, ?_, ?_, trivial, ?_, ?_, trivial, trivial, ?_, ?_, trivial⟩
  all_goals
    rintro _ _ _ _ _ ⟨⟩
    try exact fun _ => rfl

/-- The task looks at its token before it is cancelled. -/
theorem completed_and_aborted :
    (foldl Session.step .new
      (startTurn ++ [.body false .proceed, .body false .proceed] ++ cancelTurn ++
        [.body false .proceed, .body false .proceed, .call true .proceed,
          .call true .proceed])).events = [.turnComplete false, .turnAborted false] := by
  decide

end Runs

end DeepseekX.SessionTurns
