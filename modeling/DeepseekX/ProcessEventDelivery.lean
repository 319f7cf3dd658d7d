import DeepseekX.LocalProcesses

/-!
# Delivery of process events

A session publishes the events of its process in the order of their numbers and each once,
whatever the order in which the notifications arrive and however often they are repeated. What
it has published is always a first part of the events, the one up to the first gap.
-/

namespace DeepseekX.ExecProcesses
open Interleavings Resequencers List

/-- Events numbered from one on, of which only the last one may be `Closed`. -/
structure Sequenced (events : List ExecProcessEvent) : Prop where
  numbered : events.map ExecProcessEvent.seq = (range' 1 events.length).map some
  closed_last : ∀ i event, events[i]? = some event → event.isClosed = true → i + 1 = events.length

theorem closed_last_of_split {events earlier : List ExecProcessEvent} {seq : ℕ}
    (hevents : events = earlier ++ [.closed seq])
    (hearlier : ∀ event ∈ earlier, event.isClosed = false) (i : ℕ) (event : ExecProcessEvent)
    (hevent : events[i]? = some event) (hclosed : event.isClosed = true) :
    i + 1 = events.length := by
  subst hevents
  rw [length_append, length_singleton]
  rcases Nat.lt_trichotomy i earlier.length with hlt | heq | hgt
  · rw [getElem?_append_left hlt] at hevent
    rw [hearlier event (mem_of_getElem? hevent)] at hclosed
    cases hclosed
  · rw [heq]
  · rw [getElem?_eq_none (by simp; omega)] at hevent
    cases hevent

theorem CompleteEvents.sequenced {events : List ExecProcessEvent} (h : CompleteEvents events) :
    Sequenced events := by
  obtain ⟨earlier, seq, hevents, hearlier⟩ := h.closed
  exact ⟨h.numbered, closed_last_of_split hevents hearlier⟩

theorem Logged.sequenced {P : Type*} {processId : P} {process : RunningProcess P}
    (h : Logged processId process) : Sequenced process.events := by
  refine ⟨h.numbered, fun i event hevent hclosed => ?_⟩
  cases hprocess : process.closed with
  | false =>
    rw [h.unclosed hprocess event (mem_of_getElem? hevent)] at hclosed
    cases hclosed
  | true =>
    obtain ⟨-, -, earlier, seq, hevents, hearlier⟩ := h.closed hprocess
    exact closed_last_of_split hevents hearlier i event hevent hclosed

variable {events : List ExecProcessEvent}

section Items
variable {event : ExecProcessEvent} {i last count seq : ℕ}

theorem Sequenced.seq_getElem? (h : Sequenced events) (hevent : events[i]? = some event) :
    event.seq = some (i + 1) := by
  have hseq := congrArg (·[i]?) h.numbered
  have hlt := (List.getElem?_eq_some_iff.mp hevent).1
  simp only [List.getElem?_map, hevent, List.getElem?_range' hlt] at hseq
  rw [Option.some.inj hseq, Nat.add_comm, Nat.one_mul]

theorem Sequenced.getElem?_of_mem (h : Sequenced events) (hmem : event ∈ events)
    (hseq : event.seq = some seq) : events[seq - 1]? = some event ∧ 1 ≤ seq := by
  obtain ⟨i, hi⟩ := mem_iff_getElem?.mp hmem
  have hnumber := h.seq_getElem? hi
  rw [hseq] at hnumber
  obtain rfl := Option.some.inj hnumber
  exact ⟨hi, Nat.succ_pos i⟩

/-- The event with a number, for the numbers that the events have. -/
def itemAt (events : List ExecProcessEvent) (seq : ℕ) : ExecProcessEvent :=
  events[seq - 1]?.getD (.closed seq)

theorem take_append_items (hle : last + count ≤ events.length) :
    events.take last ++ (range' (last + 1) count).map (itemAt events) =
      events.take (last + count) := by
  induction count with
  | zero => simp
  | succ count ih =>
    have hlt : last + count < events.length := by omega
    rw [range'_1_concat, map_append, ← append_assoc, ih (by omega), ← Nat.add_assoc]
    simp [itemAt, getElem?_eq_getElem hlt]

end Items

/-- The session has published what has arrived of the events, up to the first gap. -/
structure Follows (events : List ExecProcessEvent) (arrived : ℕ → Prop)
    (session : SessionState) : Prop where
  holds : session.orderedEvents.Holds (itemAt events) arrived
  range : ∀ k, arrived k → 1 ≤ k ∧ k ≤ events.length
  published : session.events = events.take session.orderedEvents.last

def SessionState.closed (session : SessionState) : Bool :=
  session.events.any ExecProcessEvent.isClosed

section Steps
variable {arrived arrived' : ℕ → Prop} {session : SessionState} {event : ExecProcessEvent} {seq : ℕ}

theorem follows_new (events : List ExecProcessEvent) : Follows events (fun _ => False) .new where
  holds := Resequencer.holds_empty fun _ => id
  range _ := False.elim
  published := rfl

variable (h : Follows events arrived session)
include h

theorem Follows.congr (hiff : ∀ k, arrived' k ↔ arrived k) : Follows events arrived' session := by
  rwa [funext fun k => propext (hiff k)]

theorem Follows.last_le : session.orderedEvents.last ≤ events.length := by
  rcases Nat.eq_zero_or_pos session.orderedEvents.last with hzero | hpos
  · omega
  · exact (h.range _ (h.holds.passed _ hpos (Nat.le_refl _))).2

variable (hevents : Sequenced events)
include hevents

theorem Follows.complete_of_closed (hclosed : session.closed = true) :
    session.orderedEvents.last = events.length ∧ session.events = events := by
  obtain ⟨event, hmem, hclosed⟩ := List.any_eq_true.mp hclosed
  rw [h.published] at hmem
  obtain ⟨i, hi⟩ := List.mem_iff_getElem?.mp hmem
  have hlt := (List.getElem?_eq_some_iff.mp hi).1
  rw [List.length_take] at hlt
  rw [List.getElem?_take_of_lt (by omega)] at hi
  have hlast := hevents.closed_last i event hi hclosed
  have hle := h.last_le
  have heq : session.orderedEvents.last = events.length := by omega
  exact ⟨heq, by rw [h.published, heq, List.take_length]⟩

/-- Everything is published when the numbers that have arrived have no gap. -/
theorem Follows.published_of_gapless {n : ℕ} (hgapless : ∀ k, arrived k ↔ 1 ≤ k ∧ k ≤ n)
    (hmem : event ∈ events) (hseq : event.seq = some seq) (harrived : arrived seq) :
    event ∈ session.events := by
  obtain ⟨hevent, hpos⟩ := hevents.getElem?_of_mem hmem hseq
  have hle := ((hgapless seq).mp harrived).2
  rw [h.published, h.holds.last_eq hgapless]
  refine mem_of_getElem? (i := seq - 1) ?_
  rw [getElem?_take_of_lt (by omega), hevent]

/-- A notification that arrives when `Closed` has been published is a repetition. -/
theorem Follows.repeated (hclosed : session.closed = true) (hmem : event ∈ events)
    (hseq : event.seq = some seq) : Follows events (fun k => k = seq ∨ arrived k) session := by
  obtain ⟨hevent, hpos⟩ := hevents.getElem?_of_mem hmem hseq
  have hlt := (List.getElem?_eq_some_iff.mp hevent).1
  have hlast := (h.complete_of_closed hevents hclosed).1
  exact h.congr fun k => or_iff_right_of_imp fun heq =>
    heq ▸ h.holds.passed seq hpos (by omega)

theorem Follows.publish (hmem : event ∈ events) (hseq : event.seq = some seq) :
    Follows events (fun k => k = seq ∨ arrived k)
        ((session.noteChange seq).publishOrderedEvent event).1 ∧
      ((session.noteChange seq).publishOrderedEvent event).1.closed =
        (session.closed || ((session.noteChange seq).publishOrderedEvent event).2) := by
  obtain ⟨hevent, hpos⟩ := hevents.getElem?_of_mem hmem hseq
  have hitem : itemAt events seq = event := by rw [itemAt, hevent, Option.getD_some]
  have hrange (k : ℕ) (hk : k = seq ∨ arrived k) : 1 ≤ k ∧ k ≤ events.length := by
    rcases hk with rfl | hk
    · have hlt := (List.getElem?_eq_some_iff.mp hevent).1
      omega
    · exact h.range k hk
  have haccept := h.holds.accept hpos
  rw [hitem] at haccept
  obtain ⟨hholds, count, hcount, hitems⟩ := haccept
  have hbound : session.orderedEvents.last + count ≤ events.length := by
    rw [← hcount]
    rcases Nat.eq_zero_or_pos (session.orderedEvents.accept seq event).1.last with hzero | hlast
    · omega
    · exact (hrange _ (hholds.passed _ hlast (Nat.le_refl _))).2
  unfold SessionState.publishOrderedEvent SessionState.noteChange
  rw [hseq]
  refine ⟨⟨hholds, hrange, ?_⟩, any_append ..⟩
  dsimp only
  rw [hcount, hitems, h.published, take_append_items hbound]

end Steps

section Runs
variable {P : Type*} {arrived : ℕ → Prop} {inner : Inner P} {p : P}
  {arrivals : List (ServerNotification P)}

/-- A notification of the event with this number is among the arrivals. -/
def ArrivedIn (p : P) (arrivals : List (ServerNotification P)) (seq : ℕ) : Prop :=
  ∃ n ∈ arrivals, ∃ event, n.event? = some (p, event) ∧ event.seq = some seq

theorem arrivedIn_cons {n : ServerNotification P} {seq : ℕ} :
    ArrivedIn p (n :: arrivals) seq ↔
      (∃ event, n.event? = some (p, event) ∧ event.seq = some seq) ∨ ArrivedIn p arrivals seq := by
  simp [ArrivedIn]

/-- The notifications of a process for one of the events, in any order. -/
def Genuine (p : P) (events : List ExecProcessEvent) (n : ServerNotification P) : Prop :=
  n.decodes = true ∧ ∀ event, n.event? = some (p, event) → event ∈ events

/-- The session follows the events, and it has a route until `Closed` has been published. -/
structure Delivers (p : P) (events : List ExecProcessEvent) (arrived : ℕ → Prop)
    (inner : Inner P) : Prop where
  follows : Follows events arrived (inner.sessions p)
  route : inner.routed p = !(inner.sessions p).closed

theorem Delivers.congr {arrived' : ℕ → Prop} (h : Delivers p events arrived inner)
    (hiff : ∀ k, arrived' k ↔ arrived k) : Delivers p events arrived' inner :=
  ⟨h.follows.congr hiff, h.route⟩

variable [DecidableEq P]
variable (hevents : Sequenced events)
include hevents

variable (h : Delivers p events arrived inner)
include h

theorem Delivers.publish {event : ExecProcessEvent} {seq : ℕ} (hmem : event ∈ events)
    (hseq : event.seq = some seq) :
    Delivers p events (fun k => k = seq ∨ arrived k)
      (Inner.finish (inner.publish p seq event)) := by
  have hclosed : (inner.sessions p).closed = !inner.routed p := by simp [h.route]
  cases hrouted : inner.routed p with
  | false =>
    rw [hrouted] at hclosed
    rw [publish_of_unrouted hrouted]
    exact ⟨h.follows.repeated hevents hclosed hmem hseq, h.route⟩
  | true =>
    obtain ⟨hsession, hremoved⟩ := publish_of_routed hrouted
    obtain ⟨hfollows, hafter⟩ := h.follows.publish hevents hmem hseq
    rw [hclosed, hrouted] at hafter
    refine ⟨?_, ?_⟩
    · rw [finish_sessions, hsession]
      exact hfollows
    · rw [finish_publish_routed, finish_sessions, hrouted, hsession, hafter, hremoved]
      simp

theorem Delivers.handle {n : ServerNotification P} (hn : Genuine p events n) :
    ∃ inner', handleServerNotification inner n = .ok inner' ∧
      Delivers p events
        (fun k => (∃ event, n.event? = some (p, event) ∧ event.seq = some k) ∨ arrived k)
        inner' := by
  unfold handleServerNotification
  cases hevent : n.event? with
  | none =>
    rw [publishNotification_of_no_event hevent hn.1]
    exact ⟨inner, rfl, h.congr fun k => by simp⟩
  | some found =>
    obtain ⟨q, event⟩ := found
    obtain ⟨seq, hseq⟩ := ServerNotification.seq_of_event? hevent
    rw [publishNotification_of_event hevent hseq]
    refine ⟨_, rfl, ?_⟩
    by_cases hq : p = q
    · subst hq
      exact (h.publish hevents (hn.2 event hevent) hseq).congr fun k => by simp [hseq, eq_comm]
    · have hkept : Delivers p events arrived (Inner.finish (inner.publish q seq event)) := by
        refine ⟨by rw [finish_sessions, publish_sessions_of_ne hq]; exact h.follows, ?_⟩
        rw [finish_publish_routed, finish_sessions, publish_sessions_of_ne hq, h.route,
          decide_eq_false fun hremoved => hq (publish_removes hremoved), Bool.not_false,
          Bool.and_true]
      exact hkept.congr fun k => by simp [Ne.symm hq]

theorem Delivers.handleAll (harrivals : ∀ n ∈ arrivals, Genuine p events n) :
    ∃ inner', handleServerNotifications inner arrivals = .ok inner' ∧
      Delivers p events (fun k => ArrivedIn p arrivals k ∨ arrived k) inner' := by
  induction arrivals generalizing inner arrived with
  | nil => exact ⟨inner, rfl, h.congr fun k => by simp [ArrivedIn]⟩
  | cons n arrivals ih =>
    rw [forall_mem_cons] at harrivals
    obtain ⟨next, hnext, hdelivers⟩ := h.handle hevents harrivals.1
    obtain ⟨final, hfinal, hdelivers⟩ := ih hdelivers harrivals.2
    refine ⟨final, ?_, hdelivers.congr fun k => ?_⟩
    · rw [handleServerNotifications, foldlM_cons, hnext]
      exact hfinal
    · rw [arrivedIn_cons, or_assoc, or_left_comm]

omit h

/-- Everything is published when every event has arrived. -/
theorem Follows.complete {session : SessionState} (h : Follows events arrived session)
    (hall : ∀ event ∈ events, ∃ seq, event.seq = some seq ∧ arrived seq) :
    session.events = events := by
  have hlast : session.orderedEvents.last = events.length := by
    refine h.holds.last_eq fun k => ⟨h.range k, fun hk => ?_⟩
    have hlt : k - 1 < events.length := by omega
    obtain ⟨seq, hseq, harrived⟩ := hall _ (getElem_mem hlt)
    rw [hevents.seq_getElem? (getElem?_eq_getElem hlt), Option.some.injEq] at hseq
    rwa [← hseq, Nat.sub_add_cancel hk.1] at harrived
  rw [h.published, hlast, take_length]

end Runs

section Delivery
variable {P : Type*}

/-- The process as it is when its tasks have moved by the schedule. -/
def processAfter (processId : P) (tty : Bool) (schedule : List (Worker × Input)) :
    System Worker (RunningProcess P) WorkerState :=
  (startProcess tty).run (workerStep processId) schedule

variable {processId : P} {tty : Bool} {schedule : List (Worker × Input)}

theorem processAfter_logged :
    Logged processId (processAfter processId tty schedule).shared ∧
      Attended (processAfter processId tty schedule).shared
        (processAfter processId tty schedule).tasks :=
  run_logged (logged_start processId) (attended_start tty) schedule

theorem Logged.notification_iff {process : RunningProcess P} (h : Logged processId process)
    {event : ExecProcessEvent} :
    (∃ n ∈ process.notifications, n.event? = some (processId, event)) ↔ event ∈ process.events := by
  have hmem : some (processId, event) ∈ process.notifications.map ServerNotification.event? ↔
      some (processId, event) ∈ process.events.map fun event => some (processId, event) := by
    rw [h.notifications]
  simpa using hmem

variable [DecidableEq P]

/-- The events of a process are numbered from one on, with one `Exited` and `Closed` at the
end. Whatever the order in which their notifications arrive, with repetitions and among those
of other processes, the session publishes the events in this order and each once; its route is
there until `Closed` has been published, and a notification that finds no route repeats one
whose event has been published. -/
theorem process_events_delivered (processId : P) (tty : Bool) (schedule : List (Worker × Input))
    (hdone : ∀ worker, (processAfter processId tty schedule).tasks worker = .done)
    (client : Inner P) (hrouted : client.routed processId = true)
    (hnew : client.sessions processId = .new) (arrivals : List (ServerNotification P))
    (hdecodes : ∀ n ∈ arrivals, n.decodes = true)
    (hgenuine : ∀ n ∈ arrivals, n.event?.map Prod.fst = some processId →
      n ∈ (processAfter processId tty schedule).shared.notifications)
    (hall : ∀ n ∈ (processAfter processId tty schedule).shared.notifications, n ∈ arrivals) :
    CompleteEvents (processAfter processId tty schedule).shared.events ∧
    (∃ final, handleServerNotifications client arrivals = .ok final ∧
      (final.sessions processId).events = (processAfter processId tty schedule).shared.events) ∧
    ∀ before n after, arrivals = before ++ n :: after →
      ∃ inner, handleServerNotifications client before = .ok inner ∧
        (inner.sessions processId).events <+: (processAfter processId tty schedule).shared.events ∧
        (inner.routed processId = false →
          (∃ seq, .closed seq ∈ (inner.sessions processId).events) ∧
          ∀ event, n.event? = some (processId, event) →
            event ∈ (inner.sessions processId).events) := by
  obtain ⟨hlogged, hattended⟩ := @processAfter_logged P processId tty schedule
  have hcomplete := completeEvents_of_done hlogged hattended hdone
  have hevents := hcomplete.sequenced
  have hdelivers : Delivers processId (processAfter processId tty schedule).shared.events
      (fun _ => False) client := by
    refine ⟨?_, ?_⟩
    · rw [hnew]
      exact follows_new _
    · rw [hrouted, hnew]
      rfl
  have hgenuine (n : ServerNotification P) (hn : n ∈ arrivals) :
      Genuine processId (processAfter processId tty schedule).shared.events n :=
    ⟨hdecodes n hn, fun event hevent =>
      hlogged.notification_iff.mp ⟨n, hgenuine n hn (congrArg _ hevent), hevent⟩⟩
  refine ⟨hcomplete, ?_, ?_⟩
  · obtain ⟨final, hfinal, hdelivers⟩ := hdelivers.handleAll hevents hgenuine
    refine ⟨final, hfinal, hdelivers.follows.complete hevents fun event hevent => ?_⟩
    obtain ⟨n, hn, hevent⟩ := hlogged.notification_iff.mpr hevent
    obtain ⟨seq, hseq⟩ := ServerNotification.seq_of_event? hevent
    exact ⟨seq, hseq, .inl ⟨n, hall n hn, event, hevent, hseq⟩⟩
  · rintro before n after rfl
    obtain ⟨inner, hinner, hdelivers⟩ := hdelivers.handleAll hevents fun other hother =>
      hgenuine other (mem_append_left _ hother)
    refine ⟨inner, hinner, hdelivers.follows.published ▸ take_prefix .., fun hunrouted => ?_⟩
    have hclosed := hdelivers.route
    rw [hunrouted, eq_comm, Bool.not_eq_false_eq_eq_true] at hclosed
    rw [(hdelivers.follows.complete_of_closed hevents hclosed).2]
    obtain ⟨earlier, seq, hclosed, -⟩ := hcomplete.closed
    refine ⟨⟨seq, hclosed ▸ mem_append_right _ (mem_singleton_self _)⟩, fun event => ?_⟩
    exact (hgenuine n (mem_append_right _ mem_cons_self)).2 event

def shortSchedule : List (Worker × Input) :=
  [(.stdout, .chunk [104]), (.exit, .exit 0), (.stdout, .endOfStream), (.stdout, .endOfStream),
    (.stdout, .endOfStream), (.exit, .exit 0), (.stderr, .endOfStream), (.stderr, .endOfStream),
    (.stderr, .endOfStream)]

def newClient : Inner ℕ := ⟨fun _ => .new, fun _ => true, none⟩

theorem short_process_delivered :
    ∃ final, handleServerNotifications newClient
        [.closed 7 3, .outputDelta 7 1 .stdout [104], .closed 8 1, .outputDelta 7 1 .stdout [104],
          .exited 7 2 0, .closed 7 3] = .ok final ∧
      (final.sessions 7).events = [.output ⟨1, .stdout, [104]⟩, .exited 2 0, .closed 3] :=
  (process_events_delivered 7 false shortSchedule (fun worker => by cases worker <;> rfl)
    newClient rfl rfl _ (by decide) (by decide) (by decide)).2.1

/-- A repetition that arrives when `Closed` has been published finds no route. -/
theorem repeated_closed_unrouted :
    (∀ worker, (processAfter 7 false shortSchedule).tasks worker = .done) ∧
    (processAfter 7 false shortSchedule).shared.notifications =
      [.outputDelta 7 1 .stdout [104], .exited 7 2 0, .closed 7 3] ∧
    ∃ inner, handleServerNotifications newClient
        [.outputDelta 7 1 .stdout [104], .exited 7 2 0, .closed 7 3] = .ok inner ∧
      inner.routed 7 = false ∧
      handleServerNotification inner (.closed 7 3) = .ok inner :=
  ⟨fun worker => by cases worker <;> rfl, rfl, _, rfl, rfl, rfl⟩

end Delivery

end DeepseekX.ExecProcesses
