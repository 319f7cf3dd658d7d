import DeepseekX.GuardedRuns
import DeepseekX.SessionFailures

/-!
# A transport failure is reported after everything received

A session that is failed by the notification task has published what was received for it. A
read that fails the session by itself, as soon as it finds the transport closed, overtakes the
notifications on the way.
-/

namespace DeepseekX.ExecProcesses
open GuardedRuns ExecServerClient List Function

variable {P ι : Type*} {sent : P → List ExecProcessEvent} {client : ExecServerClient P ι}

section Notifier
variable {handled : List (ServerNotification P)} {n : ServerNotification P} {p : P}
  {events : List (RpcClientEvent P)}
variable {inner : Inner P} {notifier : NotificationTask P} {message : String}

theorem announcing_notifier [DecidableEq ι] :
    announcing { client with inner, notifier } =
      update client.announcing none notifier.announces := by
  funext task
  cases task with
  | none => exact (update_self none notifier.announces client.announcing).symm
  | some call => exact (update_of_ne (Option.some_ne_none call) _ _).symm

theorem NotificationTask.announces_announceFailure {left : P → Bool} {shouldPublish : Bool} :
    (NotificationTask.announceFailure message left p shouldPublish).announces =
      if shouldPublish then some p else none := by
  cases shouldPublish <;> rfl

theorem Announcing.keep (h : Announcing client) (hbefore : client.notifier.announces = none)
    (hafter : notifier.announces = none) (hinner : ∀ q, client.inner.routed q = false →
      inner.routed q = false ∧ inner.sessions q = client.inner.sessions q) :
    Announcing { client with events, inner, notifier } := by
  have hsame : announcing { client with events, inner, notifier } = client.announcing := by
    funext task
    cases task with
    | none => exact hafter.trans hbefore.symm
    | some call => rfl
  refine ⟨fun task q hq => ?_, fun one two q hone htwo => ?_⟩
  · rw [hsame] at hq
    obtain ⟨hroute, hrest⟩ := h.announced task q hq
    exact ⟨(hinner q hroute).1, (hinner q hroute).2.symm ▸ hrest⟩
  · rw [hsame] at hone htwo
    exact h.sole one two q hone htwo

theorem Inv.notified (h : Inv sent client) (hevents : client.events = .notification n :: events) :
    FromServer sent n := by
  obtain ⟨handled, hflow, -⟩ := h.flow
  apply h.genuine
  rw [hflow.received, hevents]
  simp [RpcClientEvent.notification?]

theorem Inv.disconnect {reason : Option String} {disconnected : Option String} (h : Inv sent client)
    (hreceive : client.notifier = .receive)
    (hevents : client.events = .disconnected reason :: events) :
    Inv sent { client with
      events
      inner := { client.inner with disconnected }
      notifier := .takeAllSessions message } := by
  obtain ⟨⟨handled, hflow, hsessions⟩, hannouncing, -, hgenuine, hgapless⟩ := h
  refine ⟨⟨handled, hflow.disconnect hreceive hevents, fun q => ?_⟩,
    hannouncing.keep (by rw [hreceive]; rfl) rfl fun _ hno => ⟨hno, rfl⟩, (nomatch ·), hgenuine,
    hgapless⟩
  exact (hsessions q).congr (.refl _) rfl rfl rfl (by rw [hreceive]; rfl) (by rw [hreceive]; rfl)

theorem Inv.takeAllSessions (h : Inv sent client)
    (hnotifier : client.notifier = .takeAllSessions message) :
    Inv sent { client with
      inner := { client.inner with routed := fun _ => false }
      notifier := .setFailure message client.inner.routed } := by
  obtain ⟨⟨handled, hflow, hsessions⟩, hannouncing, -, hgenuine, hgapless⟩ := h
  refine ⟨⟨handled, hflow.congr (by rw [hnotifier]; rfl), fun q => ?_⟩,
    hannouncing.keep (by rw [hnotifier]; rfl) rfl fun _ _ => ⟨rfl, rfl⟩, fun _ _ => rfl, hgenuine,
    hgapless⟩
  obtain ⟨hfollows, hfailed, -, -, -, hunset⟩ := hsessions q
  exact ⟨hfollows, fun hyes => ⟨rfl, (hfailed hyes).2⟩, fun _ => .inr rfl, (nomatch ·), (nomatch ·),
    hunset⟩

variable [DecidableEq P]

theorem announcing_setSession (session : SessionState) :
    (client.setSession p session).announcing = client.announcing := by
  funext task
  cases task <;> rfl

theorem publishNotification_cases (inner : Inner P) (hdecodes : n.decodes = true) :
    (n.event? = none ∧ publishNotification inner n = .ok (inner, none)) ∨
      ∃ p event seq, n.event? = some (p, event) ∧ event.seq = some seq ∧
        publishNotification inner n = .ok (inner.publish p seq event) := by
  cases hn : n.event? with
  | none => exact .inl ⟨rfl, publishNotification_of_no_event hn hdecodes⟩
  | some found =>
    obtain ⟨p, event⟩ := found
    obtain ⟨seq, hseq⟩ := ServerNotification.seq_of_event? hn
    exact .inr ⟨p, event, seq, rfl, hseq, publishNotification_of_event hn hseq⟩

/-- A publication leaves alone the sessions without a route. -/
theorem publish_sessions_of_unrouted {event : ExecProcessEvent} {seq : ℕ} {q : P}
    (h : inner.routed q = false) : (inner.publish p seq event).1.sessions q = inner.sessions q := by
  by_cases hq : q = p
  · rw [← hq, publish_of_unrouted h]
  · exact publish_sessions_of_ne hq

theorem Inv.publish {result : Inner P × Option P} (h : Inv sent client)
    (hsent : ∀ p, Sequenced (sent p)) (hreceive : client.notifier = .receive)
    (hevents : client.events = .notification n :: events)
    (hpublish : publishNotification client.inner n = .ok result) :
    Inv sent { client with
      events, inner := result.1, notifier := result.2.elim .receive .removeSession } := by
  obtain ⟨hdecodes, hmem⟩ := h.notified hevents
  obtain ⟨⟨handled, hflow, hsessions⟩, hannouncing, -, hgenuine, hgapless⟩ := h
  have hnotifier : (result.2.elim NotificationTask.receive .removeSession).receives = true ∧
      (result.2.elim NotificationTask.receive .removeSession).announces = none ∧
      ((result.2.elim NotificationTask.receive .removeSession).taken = true →
        ∀ p, result.1.routed p = false) := by
    cases result.2 <;> exact ⟨rfl, rfl, (nomatch ·)⟩
  obtain ⟨hreceives, hannounces, htaken⟩ := hnotifier
  have hflow' := @Flow.handle _ _ _ _ _ _ hflow result.1 _ hreceive hevents hreceives
  rcases publishNotification_cases client.inner hdecodes with
    ⟨hnone, heq⟩ | ⟨p, event, seq, hsome, hseq, heq⟩
  · obtain rfl := Except.ok.inj (heq.symm.trans hpublish)
    refine ⟨⟨_, hflow', fun q => ?_⟩, hannouncing.keep (by rw [hreceive]; rfl) rfl
      fun _ hno => ⟨hno, rfl⟩, htaken, hgenuine, hgapless⟩
    refine ((hsessions q).handled_congr fun k => ?_).congr (.refl _) rfl rfl rfl ?_ ?_
    · rw [arrivedIn_append]
      simp [hnone]
    · rw [hreceive]; rfl
    · rw [hreceive]; rfl
  · obtain rfl := Except.ok.inj (heq.symm.trans hpublish)
    refine ⟨⟨_, hflow', fun q => ?_⟩, hannouncing.keep (by rw [hreceive]; rfl) hannounces
      fun q hno => ⟨by rw [publish_routed, hno], publish_sessions_of_unrouted hno⟩, htaken,
      hgenuine, hgapless⟩
    by_cases hq : q = p
    · subst hq
      exact (hsessions q).publish (hsent q) hreceive hsome (hmem q event hsome) hseq
    · exact (hsessions q).publish_of_ne hreceive hsome hq

/-- The notification task removes the route of a session that has published `Closed`. -/
theorem Inv.removeSession (h : Inv sent client) (hnotifier : client.notifier = .removeSession p) :
    Inv sent { client with
      inner := client.inner.removeSession p, notifier := .receive } := by
  obtain ⟨⟨handled, hflow, hsessions⟩, hannouncing, -, hgenuine, hgapless⟩ := h
  have hkeep (q : P) (hno : client.inner.routed q = false) :
      (client.inner.removeSession p).routed q = false := by
    by_cases hq : q = p
    · rw [hq, removeSession_routed_self]
    · rwa [removeSession_routed_of_ne hq]
  refine ⟨⟨handled, hflow.congr (by rw [hnotifier]; rfl), fun q => ?_⟩,
    hannouncing.keep (by rw [hnotifier]; rfl) rfl fun q hno => ⟨hkeep q hno, rfl⟩, (nomatch ·),
    hgenuine, hgapless⟩
  obtain ⟨hfollows, hfailed, hunrouted, hrouted, hremoved, hunset⟩ := hsessions q
  rw [hnotifier] at hunrouted hrouted hremoved
  refine ⟨hfollows, fun hyes => ⟨hkeep q (hfailed hyes).1, (hfailed hyes).2⟩, fun hno => .inl ?_,
    fun hyes => .inl ?_, (nomatch ·), hunset⟩
  · by_cases hq : q = p
    · exact hremoved (congrArg some hq.symm)
    · rw [removeSession_routed_of_ne hq] at hno
      exact (hunrouted hno).resolve_right Bool.false_ne_true
  · have hq : q ≠ p := fun hq => by
      rw [hq, removeSession_routed_self] at hyes
      cases hyes
    rw [removeSession_routed_of_ne hq] at hyes
    exact (hrouted hyes).resolve_right fun heq => hq (Option.some.inj heq).symm

variable [DecidableEq ι]

theorem Inv.stepNotifier (h : Inv sent client) (hsent : ∀ p, Sequenced (sent p))
    (next : Option P) : Inv sent (client.stepNotifier next) := by
  fun_cases ExecServerClient.stepNotifier client next
  case case2 hreceive n events hevents inner hpublish =>
    have hinv := h.publish hsent hreceive hevents hpublish
    rw [← hreceive] at hinv
    exact hinv
  case case3 hreceive n events hevents inner processId hpublish =>
    exact h.publish hsent hreceive hevents hpublish
  case case4 hreceive n events hevents error hpublish message inner =>
    -- notifications from the server decode
    rcases publishNotification_cases client.inner (h.notified hevents).1 with
      ⟨-, hok⟩ | ⟨_, _, _, -, -, hok⟩
    · cases hok.symm.trans hpublish
    · cases hok.symm.trans hpublish
  case case5 hreceive reason events hevents message inner => exact h.disconnect hreceive hevents
  case case6 processId hnotifier => exact h.removeSession hnotifier
  case case7 message hnotifier => exact h.takeAllSessions hnotifier
  case case9 message left hnotifier processId _ recorded _ =>
    have htouches : Touches client
        { client.setSession processId recorded.1 with
          notifier := .announceFailure message (update left processId false) processId
            recorded.2 } none processId recorded.1 (if recorded.2 then some processId else none) :=
      ⟨rfl, rfl, rfl, rfl, by rw [hnotifier]; rfl, by rw [hnotifier]; rfl,
        announcing_notifier.trans (by
          rw [NotificationTask.announces_announceFailure, announcing_setSession])⟩
    exact htouches.record h (fun _ hflow => hflow.congr (by rw [hnotifier]; rfl))
      (h.taken (by rw [hnotifier]; rfl) processId)
  case case11 message left processId shouldPublish hnotifier _ =>
    have htouches : Touches client
        { client.setSession processId ((client.inner.sessions processId).announceFailure message
            shouldPublish) with
          notifier := .setFailure message left } none processId
        ((client.inner.sessions processId).announceFailure message shouldPublish) none :=
      ⟨rfl, rfl, rfl, rfl, by rw [hnotifier]; rfl, by rw [hnotifier]; rfl, announcing_notifier⟩
    have htask : client.announcing none = if shouldPublish then some processId else none := by
      rw [ExecServerClient.announcing, hnotifier, NotificationTask.announces_announceFailure]
    exact htouches.announce h (fun _ hflow => hflow.congr (by rw [hnotifier]; rfl)) htask hsent
  all_goals exact h

end Notifier

section Calls
variable [DecidableEq ι] {call : ι}

theorem announcing_setCall (task : CallTask P) :
    (client.setCall call task).announcing =
      update client.announcing (some call) task.announces := by
  funext other
  cases other with
  | none => exact (update_of_ne (Option.some_ne_none call).symm _ _).symm
  | some other =>
    by_cases hother : other = call
    · simp [announcing, setCall, hother]
    · simp [announcing, setCall, hother]

theorem CallTask.announces_announceFailure {p : P} {shouldPublish : Bool} :
    (CallTask.announceFailure p shouldPublish).announces =
      if shouldPublish then some p else none := by
  cases shouldPublish <;> rfl

/-- A step of a call that neither records nor publishes a failure. -/
def Quiet (client client' : ExecServerClient P ι) (call : ι) : Prop :=
  ∃ pending disconnected task, task.announces = none ∧ (client.calls call).announces = none ∧
    client' = { client with
      pending, inner := { client.inner with disconnected } }.setCall call task

theorem Inv.quiet {client' : ExecServerClient P ι} (h : Inv sent client)
    (hquiet : Quiet client client' call) : Inv sent client' := by
  obtain ⟨pending, disconnected, task, htask, hcall, rfl⟩ := hquiet
  obtain ⟨⟨handled, hflow, hsessions⟩, hannouncing, htaken, hgenuine, hgapless⟩ := h
  have hsame : ({ client with pending, inner := { client.inner with disconnected } }.setCall call
      task).announcing = client.announcing := by
    have hnone : client.announcing (some call) = none := hcall
    rw [announcing_setCall, htask, ← hnone]
    exact update_eq_self (some call) client.announcing
  refine ⟨⟨handled, hflow.congr, fun q =>
    (hsessions q).congr (.refl _) rfl rfl rfl rfl rfl⟩, ⟨?_, ?_⟩, htaken, hgenuine, hgapless⟩
  · rw [hsame]
    exact hannouncing.announced
  · rw [hsame]
    exact hannouncing.sole

variable [DecidableEq P]

/-- What a call can do: move on, record the failure of its session, or publish it. -/
theorem stepCall_cases (client : ExecServerClient P ι) (call : ι) (sent : Bool) :
    Quiet client (client.stepCall call sent) call ∨
    (∃ processId, client.calls call = .setFailure processId ∧
      client.stepCall call sent =
        (client.setSession processId ((client.inner.sessions processId).recordFailure
          (disconnectedMessage none)).1).setCall call (.announceFailure processId
          ((client.inner.sessions processId).recordFailure (disconnectedMessage none)).2)) ∨
    ∃ processId shouldPublish, client.calls call = .announceFailure processId shouldPublish ∧
      client.stepCall call sent =
        (client.setSession processId ((client.inner.sessions processId).announceFailure
          (disconnectedMessage none) shouldPublish)).setCall call .returned := by
  have hsame (h : (client.calls call).announces = none) : Quiet client client call := by
    refine ⟨client.pending, client.inner.disconnected, client.calls call, h, h, ?_⟩
    rw [setCall, update_eq_self]
  have hquiet (h : (client.calls call).announces = none) (pending : ι → Bool)
      (disconnected : Option String) (task : CallTask P) (htask : task.announces = none) :
      Quiet client ({ client with
        pending, inner := { client.inner with disconnected } }.setCall call task) call :=
    ⟨pending, disconnected, task, htask, h, rfl⟩
  have hend (session : Option P) :
      (session.elim CallTask.returned .setFailure).announces = none := by
    cases session <;> rfl
  fun_cases stepCall client call sent
  case case15 processId hcall recorded => exact .inr (.inl ⟨processId, hcall, rfl⟩)
  case case16 processId shouldPublish hcall =>
    exact .inr (.inr ⟨processId, shouldPublish, hcall, rfl⟩)
  all_goals
    have hnone : (client.calls call).announces = none := by rw [‹client.calls call = _›]; rfl
    first
    | exact .inl (hsame hnone)
    | exact .inl (hquiet hnone _ _ _ rfl)
    | exact .inl (hquiet hnone _ _ _ (hend _))

theorem Inv.stepCall (h : Inv sent client) (hsent : ∀ p, Sequenced (sent p)) (accepted : Bool)
    (hread : ∀ p, client.calls call = .setFailure p → client.inner.routed p = false) :
    Inv sent (client.stepCall call accepted) := by
  rcases stepCall_cases client call accepted with
    hquiet | ⟨p, hcall, heq⟩ | ⟨p, shouldPublish, hcall, heq⟩
  · exact h.quiet hquiet
  · rw [heq]
    refine Touches.record h (fun _ hflow => hflow.congr) ⟨rfl, rfl, rfl, rfl, rfl, rfl,
      (?_ : _ = update client.announcing (some call) _)⟩ (hread p hcall)
    rw [announcing_setCall, announcing_setSession, CallTask.announces_announceFailure]
  · rw [heq]
    refine Touches.announce h (fun _ hflow => hflow.congr)
      ⟨rfl, rfl, rfl, rfl, rfl, rfl, announcing_setCall .returned⟩ ?_ hsent
    rw [ExecServerClient.announcing, hcall, CallTask.announces_announceFailure]

end Calls

section Failures

/-- The numbers of the process that have been received have no gap. -/
def Gapless (received : List (ServerNotification P)) (p : P) : Prop :=
  ∃ m, ∀ k, ArrivedIn p received k ↔ 1 ≤ k ∧ k ≤ m

/-- The transport delivers only what the server has sent. -/
def Served (sent : P → List ExecProcessEvent) : ClientEvent P ι → Prop
  | .queue (.message (.notification n)) => ∀ p event, n.event? = some (p, event) → event ∈ sent p
  | _ => True

/-- A notification that is received before the end decodes; when the transport ends, what was
received has no gaps; and a read fails its session only when the session has no route. -/
def Orderly (client : ExecServerClient P ι) : ClientEvent P ι → Prop
  | .queue event => client.ended = false →
    (∀ n, event.notification? = some n → n.decodes = true) ∧
      (event.ends = true → ∀ p, Gapless client.received p)
  | .call call _ => ∀ p, client.calls call = .setFailure p → client.inner.routed p = false
  | _ => True

/-- Nothing is published behind `Failed`, and everything received is published before it. -/
def FailureLast (client : ExecServerClient P ι) (p : P) : Prop :=
  ∀ published message later,
    (client.inner.sessions p).events = published ++ .failed message :: later →
      later = [] ∧ ∀ n ∈ client.received, ∀ event, n.event? = some (p, event) → event ∈ published

theorem Inv.queue {event : JsonRpcConnectionEvent P ι} (h : Inv sent client)
    (hserved : Served sent (ClientEvent.queue event))
    (horderly : Orderly client (.queue event)) : Inv sent (client.queue event) := by
  by_cases hroom : client.incoming.length < channelCapacity
  · have hqueue : client.queue event = { client with
        incoming := client.incoming ++ [event]
        received := if client.ended then client.received
          else client.received ++ event.notification?.toList
        ended := client.ended || event.ends } := if_pos hroom
    have hreceived : (client.queue event).received = client.received ++
        if client.ended then [] else event.notification?.toList := by
      rw [hqueue]
      cases client.ended <;> simp
    refine h.of_sameSessions (by rw [hqueue]; exact ⟨rfl, rfl, rfl⟩)
      (fun handled hflow => hflow.queue event) hreceived (fun n hn => ?_) (fun hyes => ?_)
      fun hyes => ?_
    · cases hended : client.ended with
      | true => simp [hended] at hn
      | false =>
        simp only [hended, Bool.false_eq_true, if_false, Option.mem_toList] at hn
        refine ⟨rfl, (horderly hended).1 n hn, ?_⟩
        cases event with
        | message message =>
          cases message with
          | notification m => cases hn; exact hserved
          | _ => cases hn
        | _ => cases hn
    · simp [hqueue, hyes]
    · cases hended : client.ended with
      | true =>
        rw [hreceived, hended, if_pos rfl, append_nil]
        exact h.gapless hended
      | false =>
        rw [hqueue, hended] at hyes
        rw [hreceived, JsonRpcConnectionEvent.notification?_of_ends hyes, Option.toList_none,
          ite_self, append_nil]
        exact (horderly hended).2 hyes
  · rw [ExecServerClient.queue, if_neg hroom]
    exact h

theorem Inv.failureLast (h : Inv sent client) (p : P) : FailureLast client p := by
  intro published message later hevents
  obtain ⟨handled, -, hsessions⟩ := h.flow
  have hfailed : (client.inner.sessions p).failed = true := by
    rw [SessionState.failed, hevents]
    simp [ExecProcessEvent.isFailed]
  obtain ⟨-, earlier, _, hlast, hnone, hall, -⟩ := (hsessions p).failed hfailed
  rw [hlast] at hevents
  rcases eq_nil_or_concat later with rfl | ⟨later, final, rfl⟩
  · obtain ⟨rfl, -⟩ := append_inj' hevents rfl
    exact ⟨rfl, fun n hn event hevent => hall event ⟨n, hn, hevent⟩⟩
  · -- `Failed` would stand before the last event
    rw [concat_eq_append, ← cons_append, ← append_assoc] at hevents
    obtain ⟨rfl, -⟩ := append_inj' hevents rfl
    simp [ExecProcessEvent.isFailed] at hnone

theorem inv_new (sent : P → List ExecProcessEvent) : Inv sent (new : ExecServerClient P ι) where
  flow := by
    refine ⟨[], ⟨rfl, fun _ => by simp [new], (nomatch ·),
      fun _ => ⟨rfl, forall_mem_nil _⟩, (nomatch ·),
      fun _ => rfl⟩, fun p => ⟨fun _ => ?_, (nomatch ·), (nomatch ·), fun _ => .inl rfl,
      (nomatch ·), fun _ => rfl⟩⟩
    exact (follows_new (sent p)).congr fun k => by simp [ArrivedIn]
  announcing := by
    refine ⟨fun task p hp => ?_, fun task task' p hp => ?_⟩ <;> cases task <;> cases hp
  taken := (nomatch ·)
  genuine n hn := absurd hn not_mem_nil
  gapless := (nomatch ·)

variable [DecidableEq P] [DecidableEq ι]

theorem Inv.step {event : ClientEvent P ι} (h : Inv sent client)
    (hsent : ∀ p, Sequenced (sent p)) (hserved : Served sent event)
    (horderly : Orderly client event) : Inv sent (client.step event) := by
  cases event with
  | queue event => exact h.queue hserved horderly
  | raiseDisconnected =>
    exact h.of_sameSessions ⟨rfl, rfl, rfl⟩
      (fun handled hflow => hflow.congr) (append_nil _).symm
      (forall_mem_nil _) id h.gapless
  | reader =>
    obtain ⟨hsame, hreceived, hended⟩ := sameSessions_stepReader client
    refine h.of_sameSessions hsame (fun handled hflow => hflow.stepReader)
      (hreceived.trans (append_nil _).symm) (forall_mem_nil _)
      (fun hyes => hended.trans hyes) ?_
    rw [ExecServerClient.step, hreceived, hended]
    exact h.gapless
  | notifier next => exact h.stepNotifier hsent next
  | start call session =>
    rw [ExecServerClient.step]
    split
    next hidle =>
      refine h.quiet ⟨client.pending, client.inner.disconnected, _, ?_, by rw [hidle]; rfl, rfl⟩
      cases session <;> rfl
    next => exact h
  | call call accepted => exact h.stepCall hsent accepted horderly

/-- If every notification decodes, what was received has no gaps when the transport ends, and
no read fails its session while the session has a route, then every session publishes what was
received for it before `Failed`, and nothing behind it. -/
theorem failure_reported_last (tty : P → Bool) (schedule : P → List (Worker × Input))
    (events : List (ClientEvent P ι))
    (hserved : ∀ event ∈ events,
      Served (fun p => (processAfter p (tty p) (schedule p)).shared.events) event)
    (horderly : Along step Orderly .new events) :
    Always step (fun client => ∀ p, FailureLast client p) .new events := by
  have hsent (p : P) : Sequenced (processAfter p (tty p) (schedule p)).shared.events :=
    processAfter_logged.1.sequenced
  have halways := horderly.always_of_allowed
    (fun client event hserved horderly h => Inv.step h hsent hserved horderly) hserved
    (inv_new _)
  exact halways.mono fun client h => h.failureLast

/-- A read waits, an output is received and the transport ends, which fails the read. -/
def readInProgress : List (ClientEvent Unit Unit) :=
  [.start () (some ()), .call () true, .call () true, .call () true, .call () true,
    .queue (.message (.notification (.outputDelta () 1 .stdout [104]))), .reader, .reader,
    .raiseDisconnected, .queue (.disconnected none), .reader, .reader, .reader]

def readFails : List (ClientEvent Unit Unit) :=
  [.call () true, .call () true, .call () true, .call () true]

theorem gapless_output (p : Unit) : Gapless [.outputDelta () 1 .stdout [104]] p := by
  refine ⟨1, fun k => ?_⟩
  simp only [ArrivedIn, mem_singleton, exists_eq_left, ServerNotification.event?,
    Option.some.injEq, Prod.mk.injEq, true_and, exists_eq_left', ExecProcessEvent.seq]
  omega

/-- The notification task first handles the output and takes the routes. -/
theorem read_behind_notifications :
    Always step (fun client => ∀ p, FailureLast client p) .new
      (readInProgress ++ [.notifier none, .notifier none, .notifier none] ++ readFails) := by
  refine failure_reported_last (fun _ => false) (fun _ => [(.stdout, .chunk [104])]) _ ?_ ?_
  · simp only [readInProgress, readFails, cons_append, nil_append, forall_mem_cons]
    refine ⟨trivial, trivial, trivial, trivial, trivial, ?_, trivial, trivial, trivial, trivial,
      trivial, trivial, trivial, trivial, trivial, trivial, trivial, trivial, trivial, trivial,
      forall_mem_nil _⟩
    intro p event hevent
    cases hevent
    exact mem_singleton_self _
  · refine ⟨trivial, ?_, ?_, ?_, ?_, fun _ => ⟨fun n hn => by cases hn; rfl, (nomatch ·)⟩, trivial,
      trivial, trivial, fun _ => ⟨fun n hn => (nomatch hn), fun _ => gapless_output⟩, trivial,
      trivial, trivial, trivial, trivial, trivial, ?_, ?_, ?_, ?_, trivial⟩
    all_goals
      rintro ⟨⟩
      decide

/-- The read fails its session while the output is on the way. -/
theorem read_overtakes_notifications :
    ((foldl step .new
      (readInProgress ++ readFails ++ [.notifier none])).inner.sessions ()).events =
        [.failed "exec-server transport disconnected", .output ⟨1, .stdout, [104]⟩] := by
  decide

end Failures

end DeepseekX.ExecProcesses
