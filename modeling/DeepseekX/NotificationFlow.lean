import DeepseekX.ExecServerClients

/-!
# Notifications on their way through the client

Notifications pass from the transport over the reader task to the notification task, and the
end of the transport passes behind them.
-/

namespace DeepseekX.ExecProcesses
open List

section Flow
variable {P ι : Type*}

/-- The notifications before the event at which the reader task stops. -/
def beforeEnd : List (JsonRpcConnectionEvent P ι) → List (ServerNotification P)
  | [] => []
  | event :: incoming =>
    if event.ends then [] else event.notification?.toList ++ beforeEnd incoming

def ReaderTask.reads : ReaderTask P → Bool
  | receive | forward _ => true
  | _ => false

def ReaderTask.finished : ReaderTask P → Bool
  | drainPending | done => true
  | _ => false

/-- The notifications that the reader task will still queue. -/
def ReaderTask.upcoming (incoming : List (JsonRpcConnectionEvent P ι)) :
    ReaderTask P → List (ServerNotification P)
  | receive => beforeEnd incoming
  | forward notification => notification :: beforeEnd incoming
  | _ => []

def RpcClientEvent.notification? : RpcClientEvent P → Option (ServerNotification P)
  | notification n => some n
  | disconnected _ => none

def NotificationTask.receives : NotificationTask P → Bool
  | receive | removeSession _ => true
  | _ => false

def NotificationTask.taken : NotificationTask P → Bool
  | setFailure _ _ | announceFailure _ _ _ _ => true
  | _ => false

/-- What was received has been handled or is on the way, and the end comes behind it. -/
structure Flow (client : ExecServerClient P ι) (handled : List (ServerNotification P)) :
    Prop where
  received : client.received = handled ++ (client.events.filterMap RpcClientEvent.notification? ++
    client.reader.upcoming client.incoming)
  reading : client.reader.reads = true →
    (client.ended = true ↔ ∃ event ∈ client.incoming, event.ends = true)
  ended : client.reader.reads = false → client.ended = true
  receives : client.reader.finished = false → client.notifier.receives = true ∧
    ∀ event ∈ client.events, event.notification?.isSome
  finished : client.reader.finished = true → client.notifier.receives = true →
    ∃ earlier reason, client.events = earlier ++ [.disconnected reason] ∧
      ∀ event ∈ earlier, event.notification?.isSome
  emptied : client.notifier.receives = false → client.events = []

variable {incoming : List (JsonRpcConnectionEvent P ι)} {event : JsonRpcConnectionEvent P ι}
  {reader : ReaderTask P} {reason : Option String}

theorem JsonRpcConnectionEvent.notification?_of_ends (h : event.ends = true) :
    event.notification? = none := by
  cases event with
  | message message => cases message <;> first | rfl | cases h
  | _ => rfl

theorem beforeEnd_append {ended : Bool}
    (h : ended = true ↔ ∃ event ∈ incoming, event.ends = true) :
    beforeEnd (incoming ++ [event]) =
      beforeEnd incoming ++ if ended then [] else event.notification?.toList := by
  induction incoming with
  | nil =>
    have hopen : ended = false := by simpa using h
    by_cases hends : event.ends = true
    · simp [beforeEnd, hends, JsonRpcConnectionEvent.notification?_of_ends hends]
    · simp [beforeEnd, hends, hopen]
  | cons first incoming ih =>
    rw [cons_append, beforeEnd, beforeEnd]
    by_cases hfirst : first.ends = true
    · simp [hfirst, h.mpr ⟨first, mem_cons_self, hfirst⟩]
    · rw [if_neg hfirst, if_neg hfirst, ih (by simpa [hfirst] using h), append_assoc]

theorem ReaderTask.upcoming_append {ended : Bool}
    (h : reader.reads = true → (ended = true ↔ ∃ event ∈ incoming, event.ends = true))
    (hended : reader.reads = false → ended = true) :
    reader.upcoming (incoming ++ [event]) =
      reader.upcoming incoming ++ if ended then [] else event.notification?.toList := by
  cases reader with
  | receive => exact beforeEnd_append (h rfl)
  | forward notification => exact congrArg (notification :: ·) (beforeEnd_append (h rfl))
  | _ => rw [hended rfl]; rfl

variable {client client' : ExecServerClient P ι} {handled : List (ServerNotification P)}
  {n : ServerNotification P} {events : List (RpcClientEvent P)}

theorem Flow.queue (h : Flow client handled) (event : JsonRpcConnectionEvent P ι) :
    Flow (client.queue event) handled := by
  unfold ExecServerClient.queue
  split
  next =>
    refine ⟨?_, fun hreads => ?_, fun hreads => ?_, h.receives, h.finished, h.emptied⟩
    · rw [ReaderTask.upcoming_append h.reading h.ended, h.received]
      cases client.ended <;> simp
    · simp [h.reading hreads]
    · simp [h.ended hreads]
  next => exact h

/-- What neither the transport nor the reader task touches. -/
structure SameSessions (client client' : ExecServerClient P ι) : Prop where
  inner : client'.inner = client.inner
  notifier : client'.notifier = client.notifier
  calls : client'.calls = client.calls

theorem sameSessions_stepReader [DecidableEq ι] (client : ExecServerClient P ι) :
    SameSessions client client.stepReader ∧ client.stepReader.received = client.received ∧
      client.stepReader.ended = client.ended := by
  fun_cases ExecServerClient.stepReader client
  case case2 message incoming hincoming =>
    cases message with
    | response | error =>
      rw [ExecServerClient.handleServerMessage, ExecServerClient.answer]
      split <;> exact ⟨⟨rfl, rfl, rfl⟩, rfl, rfl⟩
    | notification | request => exact ⟨⟨rfl, rfl, rfl⟩, rfl, rfl⟩
  all_goals exact ⟨⟨rfl, rfl, rfl⟩, rfl, rfl⟩

variable (h : Flow client handled)
include h

theorem Flow.take {pending : ι → Bool} {results : ι → Option (Except RpcCallError Unit)}
    (hreader : client.reader = .receive)
    (hincoming : client.incoming = event :: incoming) (hends : event.ends = false)
    (hreads : reader.reads = true) (hfinished : reader.finished = false)
    (hupcoming : reader.upcoming incoming = event.notification?.toList ++ beforeEnd incoming) :
    Flow { client with incoming, reader, pending, results } handled := by
  obtain ⟨hreceived, hreading, hended, hreceives, -, hemptied⟩ := h
  rw [hreader, hincoming] at hreceived hreading
  rw [hreader] at hreceives
  refine ⟨?_, fun _ => ?_, fun hnot => ?_, fun _ => hreceives rfl, fun hyes => ?_, hemptied⟩
  · rw [hreceived, hupcoming, ReaderTask.upcoming, beforeEnd, hends]
    rfl
  · simpa [hends] using hreading rfl
  · exact absurd (hreads.symm.trans hnot) (by decide)
  · exact absurd (hfinished.symm.trans hyes) (by decide)

theorem Flow.stop (hreader : client.reader = .receive)
    (hincoming : client.incoming = event :: incoming) (hends : event.ends = true) :
    Flow { client with incoming, reader := .disconnect reason } handled := by
  obtain ⟨hreceived, hreading, hended, hreceives, -, hemptied⟩ := h
  rw [hreader, hincoming] at hreceived hreading
  rw [hreader] at hreceives
  refine ⟨?_, nofun, fun _ => ?_, fun _ => hreceives rfl, nofun, hemptied⟩
  · rw [hreceived, ReaderTask.upcoming, beforeEnd, hends]
    rfl
  · exact (hreading rfl).mpr ⟨event, mem_cons_self, hends⟩

theorem Flow.stepReader [DecidableEq ι] :
    Flow client.stepReader handled := by
  fun_cases ExecServerClient.stepReader client
  case case2 hreader message incoming hincoming =>
    -- an answer changes nothing but the table of the calls that wait
    have hanswer (call : ι) (result : Except RpcCallError Unit)
        (hends : (JsonRpcConnectionEvent.message message).ends = false)
        (hnone : (JsonRpcConnectionEvent.message message).notification? = none) :
        Flow (ExecServerClient.answer { client with incoming } call result) handled := by
      rw [ExecServerClient.answer]
      split <;>
        exact h.take hreader hincoming hends (by rw [hreader]; rfl) (by rw [hreader]; rfl)
          (by rw [hreader, hnone]; rfl)
    cases message with
    | response id => exact hanswer id _ rfl rfl
    | error id code message => exact hanswer id _ rfl rfl
    | notification notification => exact h.take hreader hincoming rfl rfl rfl rfl
    | request method => exact h.stop hreader hincoming rfl
  case case3 | case4 | case5 => exact h.stop ‹_› ‹_› rfl
  case case6 notification hreader _ =>
    obtain ⟨hreceived, hreading, -, hreceives, -, hemptied⟩ := h
    rw [hreader] at hreceived hreading hreceives
    obtain ⟨hnotifier, hevents⟩ := hreceives rfl
    refine ⟨?_, fun _ => hreading rfl, nofun, fun _ => ⟨hnotifier, ?_⟩, nofun, fun hnot => ?_⟩
    · rw [hreceived, filterMap_append, append_assoc]
      rfl
    · simpa [or_imp, forall_and, RpcClientEvent.notification?] using hevents
    · exact absurd (hnotifier.symm.trans hnot) (by decide)
  case case8 reason hreader _ =>
    obtain ⟨hreceived, -, hended, hreceives, -, -⟩ := h
    rw [hreader] at hreceived hended hreceives
    obtain ⟨hnotifier, hevents⟩ := hreceives rfl
    refine ⟨?_, nofun, fun _ => hended rfl, nofun, fun _ _ => ⟨_, _, rfl, hevents⟩, fun hnot => ?_⟩
    · rw [hreceived]
      simp [ReaderTask.upcoming, RpcClientEvent.notification?]
    · exact absurd (hnotifier.symm.trans hnot) (by decide)
  case case10 hreader =>
    obtain ⟨hreceived, -, hended, -, hfinished, hemptied⟩ := h
    rw [hreader] at hreceived hended hfinished
    exact ⟨hreceived, nofun, fun _ => hended rfl, nofun, fun _ => hfinished rfl, hemptied⟩
  all_goals exact h

theorem Flow.congr
    (hreceives : client'.notifier.receives = client.notifier.receives := by rfl)
    (hreceived : client'.received = client.received := by rfl)
    (hended : client'.ended = client.ended := by rfl)
    (hincoming : client'.incoming = client.incoming := by rfl)
    (hevents : client'.events = client.events := by rfl)
    (hreader : client'.reader = client.reader := by rfl) : Flow client' handled := by
  obtain ⟨h1, h2, h3, h4, h5, h6⟩ := h
  rw [← hreceived, ← hevents, ← hreader, ← hincoming] at h1
  rw [← hreader, ← hended, ← hincoming] at h2
  rw [← hreader, ← hended] at h3
  rw [← hreader, ← hreceives, ← hevents] at h4 h5
  rw [← hreceives, ← hevents] at h6
  exact ⟨h1, h2, h3, h4, h5, h6⟩

theorem Flow.handle {inner : Inner P} {notifier : NotificationTask P}
    (hreceive : client.notifier = .receive) (hevents : client.events = .notification n :: events)
    (hnotifier : notifier.receives = true) :
    Flow { client with events, inner, notifier } (handled ++ [n]) := by
  obtain ⟨hreceived, hreading, hended, hreceives, hfinished, -⟩ := h
  rw [hevents] at hreceived hreceives hfinished
  rw [hreceive] at hfinished
  refine ⟨?_, hreading, hended, fun hno => ⟨hnotifier, ?_⟩, fun hyes _ => ?_, fun hno => ?_⟩
  · simp [hreceived, RpcClientEvent.notification?]
  · exact (forall_mem_cons.mp (hreceives hno).2).2
  · obtain ⟨earlier, reason, hsplit, hearlier⟩ := hfinished hyes rfl
    cases earlier with
    | nil => cases hsplit
    | cons first earlier =>
      rw [cons_append, cons.injEq] at hsplit
      exact ⟨earlier, reason, hsplit.2, (forall_mem_cons.mp hearlier).2⟩
  · simp [hnotifier] at hno

/-- The notification task takes the end of the transport: nothing is left behind it. -/
theorem Flow.disconnect {inner : Inner P} {message : String}
    (hreceive : client.notifier = .receive)
    (hevents : client.events = .disconnected reason :: events) :
    Flow { client with events, inner, notifier := .takeAllSessions message } handled := by
  obtain ⟨hreceived, hreading, hended, hreceives, hfinished, -⟩ := h
  rw [hevents] at hreceived hreceives hfinished
  rw [hreceive] at hfinished
  have hyes : client.reader.finished = true := by
    by_contra hno
    have hall := (hreceives (Bool.eq_false_of_not_eq_true hno)).2 _ mem_cons_self
    cases hall
  have hempty : events = [] := by
    obtain ⟨_ | ⟨first, earlier⟩, reason, hsplit, hearlier⟩ := hfinished hyes rfl
    · exact (cons.inj hsplit).2
    · rw [cons_append, cons.injEq] at hsplit
      have hfirst := (forall_mem_cons.mp hearlier).1
      rw [← hsplit.1] at hfirst
      cases hfirst
  exact ⟨hreceived, hreading, hended, fun hno => by simp [hyes] at hno, fun _ => nofun,
    fun _ => hempty⟩

theorem Flow.handled_eq (htaken : client.notifier.taken = true) :
    client.received = handled ∧ client.ended = true := by
  have hreceives : client.notifier.receives = false := by
    cases hnotifier : client.notifier <;>
      simp_all [NotificationTask.taken, NotificationTask.receives]
  have hfinished : client.reader.finished = true := by
    by_contra hfinished
    have hyes := (h.receives (Bool.eq_false_of_not_eq_true hfinished)).1
    exact absurd (hyes.symm.trans hreceives) (by decide)
  have hreads : client.reader.reads = false ∧ client.reader.upcoming client.incoming = [] := by
    cases hreader : client.reader <;>
      simp_all [ReaderTask.finished, ReaderTask.reads, ReaderTask.upcoming]
  refine ⟨?_, h.ended hreads.1⟩
  rw [h.received, h.emptied hreceives, hreads.2]
  simp

end Flow

end DeepseekX.ExecProcesses
