import DeepseekX.NotificationFlow
import DeepseekX.ProcessEventDelivery

/-!
# Sessions and their failures

What holds of a session while its client runs: before its failure it follows the events of its
process, and its route goes only with `Closed` or when all routes are taken. A failure is
recorded by one task, which then publishes it.
-/

namespace DeepseekX.ExecProcesses
open SessionState

section Sessions
variable {P ι : Type*}

/-- The session whose failure the task is about to publish. -/
def NotificationTask.announces : NotificationTask P → Option P
  | announceFailure _ _ processId true => some processId
  | _ => none

def CallTask.announces : CallTask P → Option P
  | announceFailure processId true => some processId
  | _ => none

def ExecServerClient.announcing (client : ExecServerClient P ι) : Option ι → Option P
  | none => client.notifier.announces
  | some call => (client.calls call).announces

def NotificationTask.removes : NotificationTask P → Option P
  | removeSession processId => some processId
  | _ => none

def SessionState.failed (session : SessionState) : Bool :=
  session.events.any ExecProcessEvent.isFailed

/-- An event of the process is among the notifications that were received. -/
def ReceivedFor (received : List (ServerNotification P)) (p : P) (event : ExecProcessEvent) :
    Prop :=
  ∃ n ∈ received, n.event? = some (p, event)

/-- `Failed` comes last and behind everything received. -/
def FailedLast (received : List (ServerNotification P)) (p : P) (ended : Bool)
    (events : List ExecProcessEvent) (session : SessionState) : Prop :=
  ∃ published message, session.events = published ++ [.failed message] ∧
    published.any ExecProcessEvent.isFailed = false ∧
    (∀ event, ReceivedFor received p event → event ∈ published) ∧
    (ended = true ∨ ∀ event ∈ events, event ∈ published)

/-- What holds of a session: before its failure it follows the events of its process, and its
route goes only with `Closed` or when all routes are taken. -/
structure SessionInv (events : List ExecProcessEvent) (client : ExecServerClient P ι)
    (handled : List (ServerNotification P)) (p : P) : Prop where
  follows : (client.inner.sessions p).failed = false →
    Follows events (ArrivedIn p handled) (client.inner.sessions p)
  failed : (client.inner.sessions p).failed = true → client.inner.routed p = false ∧
    FailedLast client.received p client.ended events (client.inner.sessions p)
  unrouted : client.inner.routed p = false →
    (client.inner.sessions p).closed = true ∨ client.notifier.taken = true
  routed : client.inner.routed p = true →
    (client.inner.sessions p).closed = false ∨ client.notifier.removes = some p
  removed : client.notifier.removes = some p → (client.inner.sessions p).closed = true
  unset : (client.inner.sessions p).failure = none → (client.inner.sessions p).failed = false

/-- A failure is published by one task only, when the session has no route any more. -/
structure Announcing (client : ExecServerClient P ι) : Prop where
  announced : ∀ task p, client.announcing task = some p → client.inner.routed p = false ∧
    (client.inner.sessions p).failure ≠ none ∧ (client.inner.sessions p).failed = false
  sole : ∀ task task' p, client.announcing task = some p → client.announcing task' = some p →
    task = task'

/-- The notification decodes, and its event is one that the process has. -/
def FromServer (sent : P → List ExecProcessEvent) (n : ServerNotification P) : Prop :=
  n.decodes = true ∧ ∀ p event, n.event? = some (p, event) → event ∈ sent p

/-- What holds along the runs in which reads do not overtake the notification task. -/
structure Inv (sent : P → List ExecProcessEvent) (client : ExecServerClient P ι) : Prop where
  flow : ∃ handled, Flow client handled ∧ ∀ p, SessionInv (sent p) client handled p
  announcing : Announcing client
  taken : client.notifier.taken = true → ∀ p, client.inner.routed p = false
  genuine : ∀ n ∈ client.received, FromServer sent n
  gapless : client.ended = true → ∀ p, ∃ m, ∀ k, ArrivedIn p client.received k ↔ 1 ≤ k ∧ k ≤ m

variable {sent : P → List ExecProcessEvent} {client : ExecServerClient P ι}
  {handled : List (ServerNotification P)} {p : P} {n : ServerNotification P}
  {events : List (RpcClientEvent P)}

/-- A session without a route has published everything that was received for it. -/
theorem Inv.published_of_unrouted (h : Inv sent client) (hsent : ∀ p, Sequenced (sent p))
    (hflow : Flow client handled) (hsession : SessionInv (sent p) client handled p)
    (hrouted : client.inner.routed p = false) (hfailed : (client.inner.sessions p).failed = false) :
    (∀ event, ReceivedFor client.received p event → event ∈ (client.inner.sessions p).events) ∧
      (client.ended = true ∨ ∀ event ∈ sent p, event ∈ (client.inner.sessions p).events) := by
  have hfollows := hsession.follows hfailed
  rcases hsession.unrouted hrouted with hclosed | htaken
  · rw [(hfollows.complete_of_closed (hsent p) hclosed).2]
    refine ⟨fun event hevent => ?_, .inr fun event => id⟩
    obtain ⟨n, hn, hevent⟩ := hevent
    exact (h.genuine n hn).2 p event hevent
  · obtain ⟨hreceived, hended⟩ := hflow.handled_eq htaken
    refine ⟨fun event hevent => ?_, .inl hended⟩
    obtain ⟨n, hn, hevent⟩ := hevent
    obtain ⟨m, hgapless⟩ := h.gapless hended p
    obtain ⟨seq, hseq⟩ := ServerNotification.seq_of_event? hevent
    rw [hreceived] at hgapless
    exact hfollows.published_of_gapless (hsent p) hgapless ((h.genuine n hn).2 p event hevent) hseq
      ⟨n, hreceived ▸ hn, event, hevent, hseq⟩

/-- The transport queues an event, or the reader task moves. -/
theorem Inv.of_sameSessions {client' : ExecServerClient P ι}
    {news : List (ServerNotification P)} (h : Inv sent client)
    (hsame : SameSessions client client')
    (hflow : ∀ handled, Flow client handled → Flow client' handled)
    (hreceived : client'.received = client.received ++ news)
    (hnews : ∀ n ∈ news, client.ended = false ∧ FromServer sent n)
    (hended : client.ended = true → client'.ended = true)
    (hgapless : client'.ended = true →
      ∀ p, ∃ m, ∀ k, ArrivedIn p client'.received k ↔ 1 ≤ k ∧ k ≤ m) :
    Inv sent client' := by
  obtain ⟨⟨handled, hhandled, hsessions⟩, hannouncing, htaken, hgenuine, -⟩ := h
  obtain ⟨hinner, hnotifier, hcalls⟩ := hsame
  have hsame : client'.announcing = client.announcing := by
    funext task
    cases task <;> simp only [ExecServerClient.announcing, hnotifier, hcalls]
  refine ⟨⟨handled, hflow handled hhandled, fun p => ?_⟩, ?_, ?_, fun n hn => ?_, hgapless⟩
  · obtain ⟨hfollows, hfailed, hunrouted, hrouted, hremoved, hunset⟩ := hsessions p
    rw [← hinner] at hfollows hfailed hunrouted hrouted hremoved hunset
    rw [← hnotifier] at hunrouted hrouted hremoved
    refine ⟨hfollows, fun hyes => ?_, hunrouted, hrouted, hremoved, hunset⟩
    obtain ⟨hroute, published, message, hevents, hnone, hall, hend⟩ := hfailed hyes
    refine ⟨hroute, published, message, hevents, hnone, fun event hevent => ?_,
      hend.imp_left hended⟩
    obtain ⟨n, hn, hevent⟩ := hevent
    rw [hreceived, List.mem_append] at hn
    rcases hn with hn | hn
    · exact hall event ⟨n, hn, hevent⟩
    · -- news come only before the end, when the whole process has been published
      obtain ⟨hopen, hn⟩ := hnews n hn
      exact hend.resolve_left (by simp [hopen]) event (hn.2 p event hevent)
  · exact ⟨by simpa only [hsame, hinner] using hannouncing.announced,
      by simpa only [hsame] using hannouncing.sole⟩
  · rw [hnotifier, hinner]
    exact htaken
  · rw [hreceived, List.mem_append] at hn
    exact hn.elim (hgenuine n) fun hn => (hnews n hn).2

variable {client' : ExecServerClient P ι} {task : Option ι} {session session' : SessionState}
  {announces : Option P}

/-- The two sessions differ in what they have to do with neither events nor failures. -/
structure SameLog (session session' : SessionState) : Prop where
  events : session'.events = session.events
  orderedEvents : session'.orderedEvents = session.orderedEvents
  failure : session'.failure = none → session.failure = none

theorem SameLog.refl (session : SessionState) : SameLog session session := ⟨rfl, rfl, id⟩

theorem SameLog.failed (h : SameLog session session') : session'.failed = session.failed := by
  rw [SessionState.failed, h.events, SessionState.failed]

theorem SameLog.closed (h : SameLog session session') : session'.closed = session.closed := by
  rw [SessionState.closed, h.events, SessionState.closed]

theorem SessionInv.congr {events : List ExecProcessEvent} (h : SessionInv events client handled p)
    (hsession : SameLog (client.inner.sessions p) (client'.inner.sessions p))
    (hrouted : client'.inner.routed p = client.inner.routed p)
    (hreceived : client'.received = client.received) (hended : client'.ended = client.ended)
    (htaken : client'.notifier.taken = client.notifier.taken)
    (hremoves : client'.notifier.removes = client.notifier.removes) :
    SessionInv events client' handled p := by
  obtain ⟨hfollows, hfailed, hunrouted, hroutedp, hremoved, hunset⟩ := h
  rw [← hsession.failed] at hfollows hfailed hunset
  rw [← hsession.closed] at hunrouted hroutedp hremoved
  rw [← hrouted] at hfailed hunrouted hroutedp
  rw [← hremoves] at hroutedp hremoved
  rw [← hreceived, ← hended, FailedLast, ← hsession.events] at hfailed
  refine ⟨fun hno => ?_, hfailed, htaken ▸ hunrouted, hroutedp, hremoved,
    fun hnone => hunset (hsession.failure hnone)⟩
  obtain ⟨hholds, hrange, hpublished⟩ := hfollows hno
  rw [← hsession.orderedEvents] at hholds
  exact ⟨hholds, hrange, by rw [hsession.events, hsession.orderedEvents, hpublished]⟩

theorem sameLog_recordFailure (session : SessionState) (message : String) :
    SameLog session (session.recordFailure message).1 := by
  unfold recordFailure
  split
  · exact .refl session
  next hnone => exact ⟨rfl, rfl, fun _ => hnone⟩

theorem recordFailure_spec (session : SessionState) (message : String) :
    (session.recordFailure message).1.failure ≠ none ∧
      ((session.recordFailure message).2 = true → session.failure = none) := by
  unfold recordFailure
  split
  next hsome => exact ⟨by simp [hsome], (nomatch ·)⟩
  next hnone => exact ⟨by simp, fun _ => hnone⟩

theorem announceFailure_true (session : SessionState) (message : String) :
    (session.announceFailure message true).events = session.events ++ [.failed message] ∧
      (session.announceFailure message true).failed = true ∧
      (session.announceFailure message true).closed = session.closed ∧
      (session.announceFailure message true).failure = session.failure :=
  ⟨rfl, by simp [announceFailure, publishOrderedEvent,
      failed, ExecProcessEvent.seq, ExecProcessEvent.isFailed],
    by simp [announceFailure, publishOrderedEvent, closed,
      ExecProcessEvent.seq, ExecProcessEvent.isClosed], rfl⟩

variable {seq : ℕ} {pevents : List ExecProcessEvent} {event : ExecProcessEvent} {message : String}

theorem arrivedIn_append :
    ArrivedIn p (handled ++ [n]) seq ↔
      (∃ event, n.event? = some (p, event) ∧ event.seq = some seq) ∨ ArrivedIn p handled seq := by
  simp [ArrivedIn, or_comm]

theorem Follows.unfailed {events : List ExecProcessEvent} {arrived : ℕ → Prop}
    {session : SessionState} (h : Follows events arrived session) (hevents : Sequenced events) :
    session.failed = false := by
  refine List.any_eq_false.mpr fun event hevent hfailed => ?_
  rw [h.published] at hevent
  obtain ⟨i, hi⟩ := List.mem_iff_getElem?.mp (List.mem_of_mem_take hevent)
  have hseq := hevents.seq_getElem? hi
  cases event with
  | failed message => cases hseq
  | _ => cases hfailed

theorem SessionInv.handled_congr {events : List ExecProcessEvent}
    {handled' : List (ServerNotification P)} (h : SessionInv events client handled p)
    (hiff : ∀ k, ArrivedIn p handled' k ↔ ArrivedIn p handled k) :
    SessionInv events client handled' p :=
  ⟨fun hno => (h.follows hno).congr hiff, h.failed, h.unrouted, h.routed, h.removed, h.unset⟩

variable [DecidableEq P]

theorem SessionInv.publish (h : SessionInv pevents client handled p) (hevents : Sequenced pevents)
    (hreceive : client.notifier = .receive) (hn : n.event? = some (p, event))
    (hmem : event ∈ pevents) (hseq : event.seq = some seq) :
    SessionInv pevents
      { client with
        events
        inner := (client.inner.publish p seq event).1
        notifier := (client.inner.publish p seq event).2.elim .receive .removeSession }
      (handled ++ [n]) p := by
  have harrived (k : ℕ) : ArrivedIn p (handled ++ [n]) k ↔ k = seq ∨ ArrivedIn p handled k := by
    rw [arrivedIn_append]
    simp [hn, hseq, eq_comm]
  obtain ⟨hfollows, hfailed, hunrouted, hroutedp, hremoved, hunset⟩ := h
  rw [hreceive] at hunrouted hroutedp hremoved
  cases hrouted : client.inner.routed p with
  | false =>
    rw [publish_of_unrouted hrouted]
    have hclosed := (hunrouted hrouted).resolve_right Bool.false_ne_true
    exact ⟨fun hno => ((hfollows hno).repeated hevents hclosed hmem hseq).congr harrived, hfailed,
      hunrouted, hroutedp, hremoved, hunset⟩
  | true =>
    have hunfailed : (client.inner.sessions p).failed = false := by
      by_contra hyes
      rw [(hfailed (Bool.not_eq_false _ ▸ hyes)).1] at hrouted
      cases hrouted
    have hunclosed := (hroutedp hrouted).resolve_right (nomatch ·)
    obtain ⟨hsession, hremoves⟩ := @publish_of_routed P _ client.inner p seq event hrouted
    obtain ⟨hfollows, hclosed⟩ := (hfollows hunfailed).publish hevents hmem hseq
    rw [hunclosed] at hclosed
    rw [← hsession] at hfollows hclosed
    have hunfailed := hfollows.unfailed hevents
    refine ⟨fun _ => hfollows.congr harrived, fun hyes => ?_, fun hno => ?_, fun _ => ?_,
      fun hyes => ?_, fun _ => hunfailed⟩
    · exact absurd (hunfailed.symm.trans hyes) (by decide)
    · rw [publish_routed, hrouted] at hno
      cases hno
    · rw [hclosed, hremoves]
      split
      next => exact .inr rfl
      next hflag => exact .inl (Bool.eq_false_of_not_eq_true hflag)
    · rw [hremoves] at hyes
      rw [hclosed]
      split at hyes
      next hflag => exact hflag
      next => cases hyes

theorem SessionInv.publish_of_ne {q : P} (h : SessionInv pevents client handled q)
    (hreceive : client.notifier = .receive) (hn : n.event? = some (p, event)) (hne : q ≠ p) :
    SessionInv pevents
      { client with
        events
        inner := (client.inner.publish p seq event).1
        notifier := (client.inner.publish p seq event).2.elim .receive .removeSession }
      (handled ++ [n]) q := by
  have hsession := @publish_sessions_of_ne P _ client.inner p q seq event hne
  have hremoves : ((client.inner.publish p seq event).2.elim
      NotificationTask.receive NotificationTask.removeSession).removes ≠ some q ∧
      ((client.inner.publish p seq event).2.elim
        NotificationTask.receive NotificationTask.removeSession).taken = false := by
    cases hremoved : (client.inner.publish p seq event).2 with
    | none => exact ⟨(nomatch ·), rfl⟩
    | some removed =>
      refine ⟨fun heq => hne ?_, rfl⟩
      rw [← publish_removes hremoved]
      exact (Option.some.inj heq).symm
  obtain ⟨hfollows, hfailed, hunrouted, hrouted, hremoved, hunset⟩ := h
  rw [hreceive] at hunrouted hrouted hremoved
  rw [← hsession] at hfollows hfailed hunrouted hrouted hunset
  rw [← @publish_routed P _ client.inner p seq event] at hfailed hunrouted hrouted
  refine ⟨fun hno => (hfollows hno).congr fun k => ?_, hfailed, fun hno => ?_, fun hyes => ?_,
    fun heq => absurd heq hremoves.1, hunset⟩
  · rw [arrivedIn_append]
    simp [hn, Ne.symm hne]
  · exact .inl ((hunrouted hno).resolve_right Bool.false_ne_true)
  · exact .inl ((hrouted hyes).resolve_right (nomatch ·))

variable [DecidableEq ι]

/-- One task moves and changes one session, but no route. -/
structure Touches (client client' : ExecServerClient P ι) (task : Option ι) (p : P)
    (session : SessionState) (announces : Option P) : Prop where
  sessions : client'.inner.sessions = Function.update client.inner.sessions p session
  routed : client'.inner.routed = client.inner.routed
  received : client'.received = client.received
  ended : client'.ended = client.ended
  taken : client'.notifier.taken = client.notifier.taken
  removes : client'.notifier.removes = client.notifier.removes
  announcing : client'.announcing = Function.update client.announcing task announces

section
variable (h : Touches client client' task p session announces)
include h

theorem Touches.session_of_ne {q : P} (hne : q ≠ p) :
    client'.inner.sessions q = client.inner.sessions q := by
  rw [h.sessions, Function.update_of_ne hne]

theorem Touches.session_self : client'.inner.sessions p = session := by
  rw [h.sessions, Function.update_self]

theorem Touches.announcing_self : client'.announcing task = announces := by
  rw [h.announcing, Function.update_self]

theorem Touches.announcing_of_ne {other : Option ι} (hne : other ≠ task) :
    client'.announcing other = client.announcing other := by
  rw [h.announcing, Function.update_of_ne hne]

variable (hinv : Inv sent client)
include hinv

theorem Touches.inv (hflow : Flow client' handled) (hannouncing : Announcing client')
    (hsession : SessionInv (sent p) client' handled p)
    (hsessions : ∀ p, SessionInv (sent p) client handled p) : Inv sent client' := by
  refine ⟨⟨handled, hflow, fun q => ?_⟩, hannouncing, ?_, ?_, ?_⟩
  · by_cases hq : q = p
    · exact hq ▸ hsession
    · refine (hsessions q).congr ?_ (congrFun h.routed q) h.received h.ended h.taken h.removes
      rw [h.session_of_ne hq]
      exact .refl _
  · rw [h.taken, h.routed]
    exact hinv.taken
  · rw [h.received]
    exact hinv.genuine
  · rw [h.ended, h.received]
    exact hinv.gapless

/-- The log of the session stays, and the task may be about to publish a failure that it has
just recorded. -/
theorem Touches.keep (hflow : ∀ handled, Flow client handled → Flow client' handled)
    (hlog : SameLog (client.inner.sessions p) session)
    (hself : ∀ q, announces = some q → q = p ∧ client.inner.routed p = false ∧
      session.failure ≠ none ∧ (client.inner.sessions p).failure = none) :
    Inv sent client' := by
  obtain ⟨handled, hhandled, hsessions⟩ := hinv.flow
  have hannounced := hinv.announcing.announced
  rw [← h.announcing_self] at hself
  have hother (other : Option ι) (q : P) (hne : other ≠ task)
      (hq : client'.announcing other = some q) := h.announcing_of_ne hne ▸ hq
  refine h.inv hinv (hflow handled hhandled) ⟨fun other q hq => ?_, fun one two q hone htwo => ?_⟩
    ?_ hsessions
  · by_cases hne : other = task
    · obtain ⟨rfl, hrouted, hset, hnone⟩ := hself q (hne ▸ hq)
      rw [h.routed, h.session_self]
      exact ⟨hrouted, hset, hlog.failed.trans ((hsessions q).unset hnone)⟩
    · obtain ⟨hroute, hset, hfailed⟩ := hannounced other q (hother other q hne hq)
      rw [h.routed]
      by_cases hp : q = p
      · subst hp
        rw [h.session_self]
        exact ⟨hroute, mt hlog.failure hset, hlog.failed.trans hfailed⟩
      · rw [h.session_of_ne hp]
        exact ⟨hroute, hset, hfailed⟩
  · -- two tasks of which one has just recorded the failure
    have hclash (other : Option ι) (hne : other ≠ task) (hq : client'.announcing task = some q)
        (hq' : client'.announcing other = some q) : False := by
      obtain ⟨rfl, -, -, hnone⟩ := hself q hq
      exact (hannounced other q (hother other q hne hq')).2.1 hnone
    by_cases hone' : one = task <;> by_cases htwo' : two = task
    · rw [hone', htwo']
    · exact (hclash two htwo' (hone' ▸ hone) htwo).elim
    · exact (hclash one hone' (htwo' ▸ htwo) hone).elim
    · exact hinv.announcing.sole one two q (hother one q hone' hone) (hother two q htwo' htwo)
  · refine (hsessions p).congr ?_ (congrFun h.routed p) h.received h.ended h.taken h.removes
    rw [h.session_self]
    exact hlog

end

variable (hinv : Inv sent client) (hflow : ∀ handled, Flow client handled → Flow client' handled)
include hinv hflow

/-- A task records the failure of a session that has no route. -/
theorem Touches.record (h : Touches client client' task p
      ((client.inner.sessions p).recordFailure message).1
      (if ((client.inner.sessions p).recordFailure message).2 then some p else none))
    (hrouted : client.inner.routed p = false) : Inv sent client' := by
  obtain ⟨hset, hfirst⟩ := recordFailure_spec (client.inner.sessions p) message
  refine h.keep hinv hflow (sameLog_recordFailure _ message) fun q hq => ?_
  split at hq
  next hyes => exact ⟨(Option.some.inj hq).symm, hrouted, hset, hfirst hyes⟩
  next => cases hq

/-- A task publishes the failure of a session, if it has recorded it. -/
theorem Touches.announce {shouldPublish : Bool} (h : Touches client client' task p
      ((client.inner.sessions p).announceFailure message shouldPublish) none)
    (htask : client.announcing task = if shouldPublish then some p else none)
    (hsent : ∀ p, Sequenced (sent p)) : Inv sent client' := by
  cases shouldPublish with
  | false => exact h.keep hinv hflow ⟨rfl, rfl, id⟩ nofun
  | true =>
    obtain ⟨handled, hhandled, hsessions⟩ := hinv.flow
    have hannouncing := hinv.announcing
    have hother (other : Option ι) (q : P) (hq : client'.announcing other = some q) :
        client.announcing other = some q ∧ other ≠ task := by
      have hne : other ≠ task := by
        rintro rfl
        cases h.announcing_self.symm.trans hq
      exact ⟨h.announcing_of_ne hne ▸ hq, hne⟩
    obtain ⟨hroute, hsome, hunfailed⟩ := hannouncing.announced task p htask
    have hpublished := hinv.published_of_unrouted hsent hhandled (hsessions p) hroute hunfailed
    refine h.inv hinv (hflow handled hhandled)
      ⟨fun other q hq => ?_, fun one two q hone htwo => ?_⟩ ?_ hsessions
    · obtain ⟨hq, hne⟩ := hother other q hq
      have hp : q ≠ p := fun heq => hne (hannouncing.sole other task p (heq ▸ hq) htask)
      rw [h.routed, h.session_of_ne hp]
      exact hannouncing.announced other q hq
    · exact hannouncing.sole one two q (hother one q hone).1 (hother two q htwo).1
    · obtain ⟨hevents, hfailed, hclosed, hfailure⟩ :=
        announceFailure_true (client.inner.sessions p) message
      rw [← h.session_self] at hevents hfailed hclosed hfailure
      rw [← h.received, ← h.ended] at hpublished
      have hp := hsessions p
      refine ⟨fun hno => ?_, fun _ => ⟨?_, _, _, hevents, hunfailed, hpublished⟩, ?_, ?_, ?_, ?_⟩
      · simp [hfailed] at hno
      · rw [h.routed, hroute]
      · rw [h.routed, hclosed, h.taken]
        exact hp.unrouted
      · simp [h.routed, hroute]
      · rw [hclosed, h.removes]
        exact hp.removed
      · simp [hfailure, hsome]

end Sessions

end DeepseekX.ExecProcesses
