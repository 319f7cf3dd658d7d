import Mathlib.Data.BitVec
import DeepseekX.GuardedRuns
import DeepseekX.Interleavings

/-!
# Readiness flags

A flag becomes ready once and stays so. It is marked by a call that holds a token, or by the
first look at it while no tokens are out. Calls that wait subscribe to a watch channel. Every
atomic access, every lock and every operation on the channel is a step of its own here, between
which other calls may move.
-/

namespace DeepseekX.ReadinessFlags
open GuardedRuns Interleavings

/-- A signed 32-bit number, of which only equality counts. -/
abbrev Token := BitVec 32

/-- The fields of the flag. Of the watch channel: the value, how often it was set, and the
number of live receivers. -/
structure ReadinessFlag where
  ready : Bool
  nextId : Token
  tokens : Finset Token
  locked : Bool
  value : Bool
  version : ℕ
  receivers : ℕ

namespace ReadinessFlag

/-- The first receiver of the channel is dropped at once. -/
def new : ReadinessFlag := ⟨false, 1, ∅, false, false, 0, 0⟩

/-- `watch::Sender::send(true)`. Without a receiver it fails and changes nothing. -/
def send (flag : ReadinessFlag) : ReadinessFlag :=
  if flag.receivers = 0 then flag
  else { flag with value := true, version := flag.version + 1 }

end ReadinessFlag

inductive ReadinessError where
  | tokenLockFailed
  | flagAlreadyReady
  deriving DecidableEq

inductive Operation where
  | isReady
  | subscribe
  | markReady (token : Token)
  | waitReady

/-- What a call has returned, if it was not dropped. -/
inductive Outcome where
  | dropped
  | isReady (ready : Bool)
  | subscribe (result : Except ReadinessError Token)
  | markReady (result : Except ReadinessError Bool)
  | waitReady
  deriving DecidableEq

/-- `is_ready` is called on its own or as the first part of `wait_ready`. -/
inductive Caller where
  | isReady
  | waitReady
  deriving DecidableEq

instance : Fintype Caller := ⟨{.isReady, .waitReady}, fun caller => by cases caller <;> decide⟩

inductive Call where
  | returned (outcome : Outcome)
  -- is_ready
  | firstLoad (caller : Caller)
  | tryLock (caller : Caller)
  | inspectTokens (caller : Caller)
  | swapReady (caller : Caller)
  | dropTokens (caller : Caller) (wasReady : Bool)
  | sendReady (caller : Caller)
  | lastLoad (caller : Caller)
  -- subscribe
  | subscribeLoad
  | subscribeLock
  | subscribeRecheck
  | nextToken
  | insertToken (token : Token)
  | subscribeUnlock (token : Option Token)
  -- mark_ready
  | markLoad (token : Token)
  | markLock (token : Token)
  | removeToken (token : Token)
  | storeReady
  | clearTokens
  | markUnlock (marked : Bool)
  | sendMarked
  -- the rest of wait_ready
  | subscribeWatch
  | borrow (seen : ℕ)
  | changed (seen : ℕ)
  | dropReceiver
  deriving DecidableEq

def Operation.entry : Operation → Call
  | isReady => .firstLoad .isReady
  | subscribe => .subscribeLoad
  | markReady token => .markLoad token
  | waitReady => .firstLoad .waitReady

/-- Where `is_ready` goes on when it returns. -/
def Caller.resume : Caller → Bool → Call
  | isReady, ready => .returned (.isReady ready)
  | waitReady, true => .returned .waitReady
  | waitReady, false => .subscribeWatch

/-- What the surroundings have in store for the call that moves. -/
inductive Reply where
  | proceed
  | start (operation : Operation)
  | timeout
  | cancel

/-- One step of a call. A call may time out or be dropped only where it waits. -/
def step (reply : Reply) (flag : ReadinessFlag) : Call → ReadinessFlag × Call
  | .returned outcome =>
    match reply with
    | .start operation => (flag, operation.entry)
    | _ => (flag, .returned outcome)
  | .firstLoad caller =>
    if flag.ready then (flag, caller.resume true) else (flag, .tryLock caller)
  | .tryLock caller =>
    if flag.locked then (flag, .lastLoad caller)
    else ({ flag with locked := true }, .inspectTokens caller)
  | .inspectTokens caller =>
    if flag.tokens = ∅ then (flag, .swapReady caller)
    else ({ flag with locked := false }, .lastLoad caller)
  | .swapReady caller => ({ flag with ready := true }, .dropTokens caller flag.ready)
  | .dropTokens caller wasReady =>
    if wasReady then ({ flag with locked := false }, caller.resume true)
    else ({ flag with locked := false }, .sendReady caller)
  | .sendReady caller => (flag.send, caller.resume true)
  | .lastLoad caller =>
    if flag.ready then (flag, caller.resume true) else (flag, caller.resume false)
  | .subscribeLoad =>
    if flag.ready then (flag, .returned (.subscribe (.error .flagAlreadyReady)))
    else (flag, .subscribeLock)
  | .subscribeLock =>
    match reply with
    | .timeout => (flag, .returned (.subscribe (.error .tokenLockFailed)))
    | .cancel => (flag, .returned .dropped)
    | _ =>
      if flag.locked then (flag, .subscribeLock)
      else ({ flag with locked := true }, .subscribeRecheck)
  | .subscribeRecheck =>
    if flag.ready then (flag, .subscribeUnlock none) else (flag, .nextToken)
  | .nextToken => ({ flag with nextId := flag.nextId + 1 }, .insertToken flag.nextId)
  | .insertToken token =>
    if token ≠ 0 ∧ token ∉ flag.tokens then
      ({ flag with tokens := insert token flag.tokens }, .subscribeUnlock (some token))
    else (flag, .nextToken)
  | .subscribeUnlock none =>
    ({ flag with locked := false }, .returned (.subscribe (.error .flagAlreadyReady)))
  | .subscribeUnlock (some token) =>
    ({ flag with locked := false }, .returned (.subscribe (.ok token)))
  | .markLoad token =>
    if flag.ready ∨ token = 0 then (flag, .returned (.markReady (.ok false)))
    else (flag, .markLock token)
  | .markLock token =>
    match reply with
    | .timeout => (flag, .returned (.markReady (.error .tokenLockFailed)))
    | .cancel => (flag, .returned .dropped)
    | _ =>
      if flag.locked then (flag, .markLock token)
      else ({ flag with locked := true }, .removeToken token)
  | .removeToken token =>
    if token ∈ flag.tokens then ({ flag with tokens := flag.tokens.erase token }, .storeReady)
    else (flag, .markUnlock false)
  | .storeReady => ({ flag with ready := true }, .clearTokens)
  | .clearTokens => ({ flag with tokens := ∅ }, .markUnlock true)
  | .markUnlock marked =>
    if marked then ({ flag with locked := false }, .sendMarked)
    else ({ flag with locked := false }, .returned (.markReady (.ok false)))
  | .sendMarked => (flag.send, .returned (.markReady (.ok true)))
  | .subscribeWatch =>
    ({ flag with receivers := flag.receivers + 1 }, .borrow flag.version)
  | .borrow seen => if flag.value then (flag, .dropReceiver) else (flag, .changed seen)
  | .changed seen =>
    match reply with
    | .cancel => ({ flag with receivers := flag.receivers - 1 }, .returned .dropped)
    | _ => if flag.version = seen then (flag, .changed seen) else (flag, .borrow flag.version)
  | .dropReceiver => ({ flag with receivers := flag.receivers - 1 }, .returned .waitReady)

abbrev Callers (ι : Type*) := System ι ReadinessFlag Call

def start (ι : Type*) : Callers ι := ⟨.new, fun _ => .returned .dropped⟩

variable (call : Call)

/-- The call has set the flag and has not yet sent the notification. -/
def Call.Notifies : Prop :=
  (∃ caller, call = dropTokens caller false ∨ call = sendReady caller) ∨
    call = clearTokens ∨ call = markUnlock true ∨ call = sendMarked

def Call.Sends : Prop := (∃ caller, call = sendReady caller) ∨ call = sendMarked

instance : DecidablePred Call.Notifies := fun _ => inferInstanceAs (Decidable (_ ∨ _))

instance : DecidablePred Call.Sends := fun _ => inferInstanceAs (Decidable (_ ∨ _))

def Call.HoldsReceiver : Prop :=
  (∃ seen, call = borrow seen ∨ call = changed seen) ∨ call = dropReceiver

/-- The call has found the flag not ready and has not seen the value set. -/
def Call.Listens : Prop :=
  call = subscribeWatch ∨ ∃ seen, call = borrow seen ∨ call = changed seen

section Steps
variable (flag : ReadinessFlag)

@[simp] theorem send_ready : flag.send.ready = flag.ready := by
  unfold ReadinessFlag.send
  split <;> rfl

@[simp] theorem send_receivers : flag.send.receivers = flag.receivers := by
  unfold ReadinessFlag.send
  split <;> rfl

@[simp] theorem send_value : flag.send.value = false ↔ flag.value = false ∧ flag.receivers = 0 := by
  unfold ReadinessFlag.send
  split <;> simp_all

/-- What a step may do to the flag and to the call that makes it. -/
structure Effect (flag flag' : ReadinessFlag) (call call' : Call) : Prop where
  /-- A call starts to listen only if it has just found the flag not ready. -/
  listens : call'.Listens → call.Listens ∨ flag.ready = false
  /-- Who sets the flag is going to notify. -/
  ready : flag'.ready = true → flag.ready = true ∨ call'.Notifies
  /-- A notification is not given up before it is sent. -/
  notifies : call.Notifies → call'.Notifies ∨ call.Sends
  /-- The value stays unset only where nothing is sent, or to nobody. -/
  value : flag'.value = false → flag.value = false ∧ (call.Sends → flag.receivers = 0)
  /-- The channel counts the calls that hold a receiver. -/
  receivers : (call'.HoldsReceiver ↔ call.HoldsReceiver) ∧ flag'.receivers = flag.receivers ∨
    ¬ call.HoldsReceiver ∧ call'.HoldsReceiver ∧ flag'.receivers = flag.receivers + 1 ∨
    call.HoldsReceiver ∧ ¬ call'.HoldsReceiver ∧ flag'.receivers = flag.receivers - 1

theorem step_effect (reply : Reply) (flag : ReadinessFlag) (call : Call) :
    Effect flag (step reply flag call).1 call (step reply flag call).2 := by
  fun_cases step reply flag call
  -- where the next point depends on who called or what is called, that is told apart first
  all_goals try cases ‹Caller›
  all_goals try cases ‹Operation›
  all_goals constructor
  all_goals simp_all [Call.Listens, Call.Notifies, Call.Sends, Call.HoldsReceiver,
    Caller.resume, Operation.entry]

end Steps

section Wakeups
variable {ι : Type*} (callers : Callers ι)

/-- The flag is ready, nobody is about to say so, and a call waits for a change of a value that
is still unset. -/
def LostWakeup : Prop :=
  callers.shared.ready = true ∧ (∀ i, ¬ (callers.tasks i).Notifies) ∧
    callers.shared.value = false ∧ ∃ i seen, callers.tasks i = .changed seen

/-- A notification is sent to a live receiver, or while no call stands between its look at the
flag and its subscription to the channel. -/
def Heard (event : ι × Reply) : Prop :=
  (callers.tasks event.1).Sends →
    callers.shared.receivers ≠ 0 ∨ ∀ i, callers.tasks i ≠ .subscribeWatch

/-- Once the notification is sent and the value is still unset, nobody listens. -/
structure Informed : Prop where
  counted : Counted Call.HoldsReceiver callers.tasks callers.shared.receivers
  quiet : callers.shared.ready = true → callers.shared.value = false →
    (∀ i, ¬ (callers.tasks i).Notifies) → ∀ i, ¬ (callers.tasks i).Listens

variable {callers : Callers ι}

theorem Informed.not_lostWakeup (h : Informed callers) : ¬ LostWakeup callers := by
  rintro ⟨hready, hnobody, hvalue, i, seen, hi⟩
  refine h.quiet hready hvalue hnobody i ?_
  rw [hi]
  exact .inr ⟨seen, .inr rfl⟩

theorem informed_start : Informed (start ι) := by
  refine ⟨counted_zero fun i => ?_, fun hready => ?_⟩
  · simp [start, Call.HoldsReceiver]
  · cases hready

/-- Nobody listens when a notification reaches nobody. -/
theorem not_listens_of_unheard {event : ι × Reply} (h : Informed callers)
    (hheard : Heard callers event) (hsends : (callers.tasks event.1).Sends)
    (hnone : callers.shared.receivers = 0) (i : ι) : ¬ (callers.tasks i).Listens := by
  have hsubscribing := (hheard hsends).resolve_left (not_not.mpr hnone)
  have hcounted := h.counted
  rw [hnone] at hcounted
  rintro (hi | hi)
  · exact hsubscribing i hi
  · exact hcounted.none_of_zero i (.inl hi)

variable [DecidableEq ι]

theorem counted_move (event : ι × Reply)
    (h : Counted Call.HoldsReceiver callers.tasks callers.shared.receivers) :
    Counted Call.HoldsReceiver (callers.move step event).tasks
      (callers.move step event).shared.receivers := by
  have heffect := step_effect event.2 callers.shared (callers.tasks event.1)
  rw [System.move]
  rcases heffect.receivers with ⟨hiff, hcount⟩ | ⟨hold, hnew, hcount⟩ | ⟨hold, hnew, hcount⟩
  · rw [hcount]
    exact h.update_of_iff hiff
  · rw [hcount]
    exact h.update_gain hold hnew
  · rw [hcount]
    exact h.update_lose hold hnew

theorem Informed.move (event : ι × Reply) (hheard : Heard callers event) (h : Informed callers) :
    Informed (callers.move step event) := by
  refine ⟨counted_move event h.counted, fun hready hvalue hnobody => ?_⟩
  have heffect := step_effect event.2 callers.shared (callers.tasks event.1)
  have hmover : (callers.move step event).tasks event.1 =
      (step event.2 callers.shared (callers.tasks event.1)).2 := Function.update_self ..
  have hothers : ∀ i, i ≠ event.1 → (callers.move step event).tasks i = callers.tasks i :=
    fun i hi => Function.update_of_ne hi ..
  have hready' : callers.shared.ready = true :=
    (heffect.ready hready).resolve_right (hmover ▸ hnobody event.1)
  obtain ⟨hvalue', hunheard⟩ := heffect.value hvalue
  have hlistens : ∀ i, ¬ (callers.tasks i).Listens := by
    by_cases hsends : (callers.tasks event.1).Sends
    · exact not_listens_of_unheard h hheard hsends (hunheard hsends)
    · refine h.quiet hready' hvalue' fun i hi => ?_
      by_cases hmoved : i = event.1
      · subst hmoved
        exact hnobody _ (hmover ▸ (heffect.notifies hi).resolve_right hsends)
      · exact hnobody i (hothers i hmoved ▸ hi)
  intro i hi
  by_cases hmoved : i = event.1
  · subst hmoved
    rw [hmover] at hi
    rcases heffect.listens hi with hbefore | hunready
    · exact hlistens _ hbefore
    · rw [hready'] at hunready
      cases hunready
  · exact hlistens i (hothers i hmoved ▸ hi)

/-- No wake-up is lost in a run all of whose notifications are heard. -/
theorem no_lost_wakeup (schedule : List (ι × Reply))
    (hheard : Along (System.move step) Heard (start ι) schedule) :
    Always (System.move step) (fun callers => ¬ LostWakeup callers) (start ι) schedule :=
  (hheard.always (fun _ event hheard h => h.move event hheard) informed_start).mono
    fun _ h => h.not_lostWakeup

instance [Fintype ι] : DecidableRel (@Heard ι) := fun _ _ =>
  inferInstanceAs (Decidable (_ → _))

/-- The caller `i` begins the operation and goes on for some steps. -/
def calls {κ : Type} (i : κ) (operation : Operation) (steps : ℕ) : List (κ × Reply) :=
  (i, .start operation) :: List.replicate steps (i, .proceed)

/-- A call that waits before the flag is marked is woken. -/
theorem waiting_call_woken :
    Always (System.move step) (fun callers => ¬ LostWakeup callers) (start Bool)
      (calls false .subscribe 6 ++ calls true .waitReady 6 ++ calls false (.markReady 1) 7 ++
        List.replicate 3 (true, .proceed)) :=
  no_lost_wakeup _ (by decide)

/-- The flag is marked while a call stands between its look at the flag and its subscription:
the notification reaches nobody, and the call waits for another. -/
theorem marked_flag_leaves_call_waiting :
    LostWakeup ((start Bool).run step (calls false .subscribe 6 ++ calls true .waitReady 4 ++
      calls false (.markReady 1) 7 ++ List.replicate 2 (true, .proceed))) :=
  ⟨rfl, by decide, rfl, true, 0, rfl⟩

end Wakeups

end DeepseekX.ReadinessFlags
