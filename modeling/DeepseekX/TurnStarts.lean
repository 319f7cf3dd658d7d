import DeepseekX.GuardedRuns
import DeepseekX.SessionSteps

/-!
# One task in the active turn

A start finds no task in the active turn: a user turn has taken the active turn away, and an idle
start has made its reservation while there was none or has confirmed that it still stands. Nothing
but another start adds a task before the start does.
-/

namespace DeepseekX.SessionTurns
open GuardedRuns

variable {ι α : Type*} (session : Session ι α)

/-- The active turn holds at most one task, and the assertions of `start_task` have held. -/
def OneTask : Prop :=
  session.tasks.length ≤ 1 ∧ session.assertionFailed = false

/-- A start begins only when no other start is under way. -/
def StartsAlone : Session.Event ι α → Prop
  | .call i _ => BeginsStart session i → ∀ j, (session.calls j).starting = false
  | _ => True

structure StartInv : Prop where
  single : ∀ i j, (session.calls i).starting = true → (session.calls j).starting = true → i = j
  empty : ∀ i, (session.calls i).starting = true → session.tasks = []
  oneTask : OneTask session

theorem startInv_new : StartInv (.new : Session ι α) :=
  ⟨fun _ _ => (nomatch ·), fun _ => (nomatch ·), Nat.zero_le 1, rfl⟩

section Steps
variable [DecidableEq ι] {session session' : Session ι α} {i : ι}

variable (h : StartInv session)
include h

/-- A call moves, and the tasks of the active turn stay or go. -/
theorem StartInv.of_calls (call : Call ι α)
    (halone : BeginsStart session i → ∀ j, (session.calls j).starting = false)
    (hcalls : session'.calls = Function.update session.calls i call)
    (hasserted : session'.assertionFailed = session.assertionFailed)
    (htasks : session'.tasks = session.tasks ∨ session'.tasks = [])
    (hstarting : call.starting = true → (session.calls i).starting = true ∨
      (BeginsStart session i ∧ session'.tasks = [])) : StartInv session' := by
  have hbefore (j : ι) (hj : (session'.calls j).starting = true) :
      (session.calls j).starting = true ∨
        (j = i ∧ BeginsStart session i ∧ session'.tasks = []) := by
    rw [hcalls, Function.update_apply] at hj
    split at hj
    next heq =>
      subst heq
      exact (hstarting hj).imp_right fun hbegins => ⟨rfl, hbegins⟩
    next => exact .inl hj
  refine ⟨fun j k hj hk => ?_, fun j hj => ?_, ?_, hasserted.trans h.oneTask.2⟩
  · rcases hbefore j hj with hj | ⟨rfl, hbegins, -⟩ <;>
      rcases hbefore k hk with hk | ⟨hki, hkbegins, -⟩
    · exact h.single j k hj hk
    · exact absurd hj (by simp [halone hkbegins j])
    · exact absurd hk (by simp [halone hbegins k])
    · exact hki.symm
  · rcases hbefore j hj with hj | ⟨-, -, hempty⟩
    · exact htasks.elim (fun hsame => hsame.trans (h.empty j hj)) id
    · exact hempty
  · rcases htasks with hsame | hempty
    · rw [hsame]
      exact h.oneTask.1
    · rw [hempty]
      exact Nat.zero_le 1

theorem StartInv.callStep (hstep : CallStep i session session')
    (halone : BeginsStart session i → ∀ j, (session.calls j).starting = false) :
    StartInv session' := by
  cases hstep with
  | stays => exact h
  | plain _ call hcall hplain =>
    exact h.of_calls _ halone hplain.calls hplain.assertionFailed hplain.tasks hplain.starting
  | cancel abort _ _ _ _ hcall | abortHandle abort _ _ _ hcall | sendAborted abort _ _ _ hcall =>
    exact h.of_calls _ halone rfl rfl (.inl rfl) fun hstarting => .inl (by
      rw [hcall]
      cases abort <;> exact hstarting)
  | readTurn _ kind items turnState hcall hcalls hcancelled hbodies hevents hasserted htasks =>
    have hstarting : (session.calls i).starting = true := by rw [hcall]; rfl
    refine h.of_calls _ halone hcalls ?_ (.inl htasks) fun _ => .inl hstarting
    rw [hasserted, h.empty i hstarting]
    exact Bool.or_false _
  | addTask _ kind hcall hcalls hcancelled hbodies hevents hasserted htasks =>
    have hstarting : (session.calls i).starting = true := by rw [hcall]; rfl
    have hempty := h.empty i hstarting
    -- the start was the only one, so none is under way now
    have hnone (j : ι) (hj : (session'.calls j).starting = true) : False := by
      rw [hcalls, Function.update_apply] at hj
      split at hj
      · cases hj
      next heq => exact heq (h.single j i hj hstarting)
    refine ⟨fun j k hj => (hnone j hj).elim, fun j hj => (hnone j hj).elim, ?_, ?_⟩
    · rw [htasks, hempty]
      exact Nat.le_refl 1
    · rw [hasserted, h.oneTask.2, hempty]
      rfl

theorem StartInv.bodyStep (hstep : BodyStep i session session') : StartInv session' := by
  cases hstep with
  | stays => exact h
  | moves _ body hmoves =>
    refine ⟨hmoves.calls ▸ h.single, fun j hj => ?_, ?_, hmoves.assertionFailed.trans h.oneTask.2⟩
    · have hempty := h.empty j (hmoves.calls ▸ hj)
      rcases hmoves.tasks with hsame | hgone | hremoved
      · exact hsame.trans hempty
      · exact hgone
      · have hlength := length_swapRemove hremoved
        rw [hempty] at hlength
        cases hlength
    · have hlength := h.oneTask.1
      rcases hmoves.tasks with hsame | hgone | hremoved
      · rwa [hsame]
      · rw [hgone]
        exact Nat.zero_le 1
      · have := length_swapRemove hremoved
        omega
  | complete turnState hbody => exact ⟨h.single, h.empty, h.oneTask⟩

omit h

theorem StartInv.step {event : Session.Event ι α} (h : StartInv session)
    (halone : StartsAlone session event) : StartInv (session.step event) := by
  cases event with
  | start j operation =>
    rw [Session.step]
    split
    next hidle =>
      refine h.of_calls operation.first (i := j) (fun hbegins => ?_) rfl rfl (.inl rfl)
        fun hstarting => ?_
      · rcases hbegins with ⟨kind, hcall⟩ | ⟨hcall, -⟩ | ⟨turnState, hcall, -⟩
        all_goals
          rw [hidle] at hcall
          cases hcall
      · cases operation <;> cases hstarting
    next => exact h
  | call j reply => exact h.callStep (SessionTurns.callStep session j reply) halone
  | body j reply => exact h.bodyStep (SessionTurns.bodyStep session j reply)
  | stop j => exact h.bodyStep (bodyStep_stopBody session j)
  | mail | queueResponseItems => exact ⟨h.single, h.empty, h.oneTask⟩

/-- If no start begins while another one is under way, then in every state the active turn holds
one task at most, and no assertion of `start_task` has failed. -/
theorem one_task_in_turn (events : List (Session.Event ι α))
    (halone : Along Session.step StartsAlone .new events) :
    Always Session.step OneTask .new events :=
  (halone.always (fun _ _ halone h => StartInv.step h halone) startInv_new).mono
    fun _ h => h.oneTask

end Steps

/-- Mail that wants a turn makes an idle start reserve the active turn. -/
def reserveForMail : List (Session.Event Bool Unit) :=
  [.mail () true, .start true .maybeStartTurnForPendingWork, .call true .proceed,
    .call true .proceed, .call true .proceed]

def userTurn : List (Session.Event Bool Unit) :=
  .start false (.spawnTask .regular) :: List.replicate 8 (.call false .proceed)

theorem user_turn_alone : Always Session.step OneTask (.new : Session Bool Unit) userTurn := by
  refine one_task_in_turn _ ?_
  refine ⟨trivial, ?_, ?_, ?_, ?_, ?_, ?_, ?_, ?_, trivial⟩
  · rintro - ⟨⟩ <;> rfl
  all_goals
    rintro (⟨_, ⟨⟩⟩ | ⟨⟨⟩, _⟩ | ⟨_, ⟨⟩, _⟩)

/-- The user turn takes the reservation away and adds its task; the idle start adds its own. -/
theorem two_tasks_in_turn :
    let session := List.foldl Session.step .new
      (reserveForMail ++ userTurn ++ List.replicate 6 (.call true .proceed))
    session.tasks = [(false, .regular), (true, .regular)] ∧ session.assertionFailed = true := by
  decide

end DeepseekX.SessionTurns
