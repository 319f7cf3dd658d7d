import DeepseekX.Resequencers

/-!
# Process events on the client

The exec server numbers the events of a process and sends a notification for each. The client
has a session for every process: notifications are routed to it, put back in the order of
their numbers and published to the session's event log. The route goes when `Closed` has been
published, and when the transport fails. The log is kept here in full, without the bound of
its replay history.
-/

namespace DeepseekX.ExecProcesses
open Resequencers

inductive ExecOutputStream where
  | stdout
  | stderr
  | pty
  deriving DecidableEq

structure ProcessOutputChunk where
  seq : ℕ
  stream : ExecOutputStream
  chunk : List UInt8
  deriving DecidableEq

inductive ExecProcessEvent where
  | output (chunk : ProcessOutputChunk)
  | exited (seq : ℕ) (exitCode : ℤ)
  | closed (seq : ℕ)
  | failed (message : String)
  deriving DecidableEq

namespace ExecProcessEvent

def seq : ExecProcessEvent → Option ℕ
  | output chunk => some chunk.seq
  | exited seq _ | closed seq => some seq
  | failed _ => none

def isExited : ExecProcessEvent → Bool
  | exited _ _ => true
  | _ => false

def isClosed : ExecProcessEvent → Bool
  | closed _ => true
  | _ => false

def isFailed : ExecProcessEvent → Bool
  | failed _ => true
  | _ => false

end ExecProcessEvent

/-- A notification by its method. A message whose parameters do not have the form of its
method is `undecodable`. -/
inductive ServerNotification (P : Type*) where
  | outputDelta (processId : P) (seq : ℕ) (stream : ExecOutputStream) (chunk : List UInt8)
  | exited (processId : P) (seq : ℕ) (exitCode : ℤ)
  | closed (processId : P) (seq : ℕ)
  | httpBodyDelta
  | unknown (method : String)
  | undecodable (error : String)
  deriving DecidableEq

structure SessionState where
  wake : ℕ
  events : List ExecProcessEvent
  orderedEvents : Resequencer ExecProcessEvent
  failure : Option String

namespace SessionState

def new : SessionState := ⟨0, [], .empty, none⟩

variable (session : SessionState)

def noteChange (seq : ℕ) : SessionState :=
  { session with wake := max session.wake seq }

/-- The flag says that this call has published `Closed`. -/
def publishOrderedEvent (event : ExecProcessEvent) : SessionState × Bool :=
  match event.seq with
  | none => ({ session with events := session.events ++ [event] }, false)
  | some seq =>
    let accepted := session.orderedEvents.accept seq event
    ({ session with orderedEvents := accepted.1, events := session.events ++ accepted.2 },
      accepted.2.any ExecProcessEvent.isClosed)

/-- The first part of `set_failure`, under the lock: whether the failure is to be published. -/
def recordFailure (message : String) : SessionState × Bool :=
  match session.failure with
  | some _ => (session, false)
  | none => ({ session with failure := some message }, true)

/-- The second part of `set_failure`, behind the lock. -/
def announceFailure (message : String) (shouldPublish : Bool) : SessionState :=
  let session := { session with wake := session.wake + 1 }
  if shouldPublish then (session.publishOrderedEvent (.failed message)).1 else session

end SessionState

/-- The client's sessions, whether or not they have a route, and the latch for the message of
the first disconnect that was observed. -/
structure Inner (P : Type*) where
  sessions : P → SessionState
  routed : P → Bool
  disconnected : Option String

section Notifications
variable {P : Type*} [DecidableEq P]
variable (inner : Inner P)

/-- What the three process notifications have in common: the session publishes the event, and
its route is to be removed if that has published `Closed`. -/
def Inner.publish (processId : P) (seq : ℕ) (event : ExecProcessEvent) : Inner P × Option P :=
  if inner.routed processId then
    let published := ((inner.sessions processId).noteChange seq).publishOrderedEvent event
    ({ inner with sessions := Function.update inner.sessions processId published.1 },
      if published.2 then some processId else none)
  else (inner, none)

def Inner.removeSession (processId : P) : Inner P :=
  { inner with routed := Function.update inner.routed processId false }

/-- Everything up to the removal of a route, which has to wait for a lock. -/
def publishNotification : ServerNotification P → Except String (Inner P × Option P)
  | .outputDelta processId seq stream chunk =>
    .ok (inner.publish processId seq (.output ⟨seq, stream, chunk⟩))
  | .exited processId seq exitCode => .ok (inner.publish processId seq (.exited seq exitCode))
  | .closed processId seq => .ok (inner.publish processId seq (.closed seq))
  | .httpBodyDelta => .ok (inner, none)
  | .unknown _ => .ok (inner, none)
  | .undecodable error => .error error

def Inner.finish (published : Inner P × Option P) : Inner P :=
  published.2.elim published.1 published.1.removeSession

def handleServerNotification (notification : ServerNotification P) : Except String (Inner P) :=
  (publishNotification inner notification).map Inner.finish

def handleServerNotifications (arrivals : List (ServerNotification P)) : Except String (Inner P) :=
  arrivals.foldlM handleServerNotification inner

end Notifications

namespace ServerNotification
variable {P : Type*}

def decodes : ServerNotification P → Bool
  | undecodable _ => false
  | _ => true

def event? : ServerNotification P → Option (P × ExecProcessEvent)
  | outputDelta processId seq stream chunk => some (processId, .output ⟨seq, stream, chunk⟩)
  | exited processId seq exitCode => some (processId, .exited seq exitCode)
  | closed processId seq => some (processId, .closed seq)
  | _ => none

theorem seq_of_event? {n : ServerNotification P} {p : P} {event : ExecProcessEvent}
    (h : n.event? = some (p, event)) : ∃ seq, event.seq = some seq := by
  cases n <;> cases h <;> exact ⟨_, rfl⟩

end ServerNotification

section Routes
variable {P : Type*} [DecidableEq P] {inner : Inner P} {n : ServerNotification P} {p q : P}
  {seq : ℕ} {event : ExecProcessEvent}

theorem publishNotification_of_event (h : n.event? = some (p, event))
    (hseq : event.seq = some seq) :
    publishNotification inner n = .ok (inner.publish p seq event) := by
  cases n <;> cases h <;> cases hseq <;> rfl

theorem publishNotification_of_no_event (h : n.event? = none) (hdecodes : n.decodes = true) :
    publishNotification inner n = .ok (inner, none) := by
  cases n with
  | httpBodyDelta | unknown => rfl
  | undecodable => cases hdecodes
  | _ => cases h

theorem publish_sessions_of_ne (hne : q ≠ p) :
    (inner.publish p seq event).1.sessions q = inner.sessions q := by
  unfold Inner.publish
  split
  · exact Function.update_of_ne hne _ _
  · rfl

@[simp] theorem publish_routed : (inner.publish p seq event).1.routed = inner.routed := by
  unfold Inner.publish
  split <;> rfl

theorem publish_of_unrouted (h : inner.routed p = false) :
    inner.publish p seq event = (inner, none) := by
  rw [Inner.publish, h]
  rfl

theorem publish_of_routed (h : inner.routed p = true) :
    (inner.publish p seq event).1.sessions p =
        (((inner.sessions p).noteChange seq).publishOrderedEvent event).1 ∧
      (inner.publish p seq event).2 =
        if (((inner.sessions p).noteChange seq).publishOrderedEvent event).2 then some p
        else none := by
  rw [Inner.publish, h]
  exact ⟨Function.update_self .., rfl⟩

theorem publish_removes (h : (inner.publish p seq event).2 = some q) : q = p := by
  unfold Inner.publish at h
  split at h
  · dsimp only at h
    split at h
    · exact (Option.some.inj h).symm
    · cases h
  · cases h

theorem removeSession_routed_self : (inner.removeSession p).routed p = false :=
  Function.update_self ..

theorem removeSession_routed_of_ne (hne : q ≠ p) :
    (inner.removeSession p).routed q = inner.routed q :=
  Function.update_of_ne hne ..

@[simp] theorem finish_sessions {published : Inner P × Option P} :
    (Inner.finish published).sessions = published.1.sessions := by
  obtain ⟨inner, _ | p⟩ := published <;> rfl

theorem finish_publish_routed :
    (Inner.finish (inner.publish p seq event)).routed q =
      (inner.routed q && !decide ((inner.publish p seq event).2 = some q)) := by
  unfold Inner.finish
  cases hremoved : (inner.publish p seq event).2 with
  | none => simp
  | some q' =>
    by_cases hq : q' = q
    · simp [hq, removeSession_routed_self]
    · simp [hq, removeSession_routed_of_ne (Ne.symm hq)]

end Routes

end DeepseekX.ExecProcesses
