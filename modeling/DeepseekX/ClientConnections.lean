import DeepseekX.ConnectionTables

/-!
# Remote connections are closed for their own reasons

Whatever happens to a tracker is made of moves on its table of connections, so every
connection has an orderly life. A task returns its key when it completes, and not its
connection: it closes the connection of another task where that one holds the key by then.
-/

namespace DeepseekX.RemoteControl
open BoundedStores FallibleActions Relation ClientTracker List Function

variable {M : Type} {startsConnection : M → Bool} {tracker : ClientTracker M}

def connectionsOf (clients : Store ClientKey ClientState) (clientKey : ClientKey) : Option ℕ :=
  (clients.lookup clientKey).map ClientState.connectionId

def ClientTracker.table (tracker : ClientTracker M) : ConnectionTable M :=
  ⟨connectionsOf tracker.clients, tracker.nextConnectionId, tracker.transportEvents⟩

section Refinement

variable {clients : Store ClientKey ClientState} {clientKey : ClientKey} {client : ClientState}
  {reason : ℕ → Prop}

theorem connectionsOf_eq (h : clients.lookup clientKey = some client) :
    connectionsOf clients clientKey = some client.connectionId :=
  Option.map_eq_some_iff.mpr ⟨client, h, rfl⟩

theorem connectionsOf_erase :
    connectionsOf (clients.erase clientKey) = update (connectionsOf clients) clientKey none := by
  funext other
  by_cases heq : other = clientKey
  · rw [heq, update_self, connectionsOf, AList.lookup_erase]
    rfl
  · rw [update_of_ne heq, connectionsOf, AList.lookup_erase_ne heq, connectionsOf]

theorem connectionsOf_insert :
    connectionsOf (clients.insert clientKey client) =
      update (connectionsOf clients) clientKey (some client.connectionId) := by
  funext other
  by_cases heq : other = clientKey
  · rw [heq, update_self, connectionsOf, AList.lookup_insert]
    rfl
  · rw [update_of_ne heq, connectionsOf, AList.lookup_insert_ne heq, connectionsOf]

theorem table_insert_held {old : ClientState} (hold : tracker.clients.lookup clientKey = some old)
    (hsame : client.connectionId = old.connectionId) :
    ({ tracker with clients := tracker.clients.insert clientKey client } :
      ClientTracker M).table = tracker.table := by
  have hheld : connectionsOf (tracker.clients.insert clientKey client) =
      connectionsOf tracker.clients := by
    rw [connectionsOf_insert, update_eq_self_iff, connectionsOf_eq hold, hsame]
  unfold table
  rw [hheld]

theorem sendTransportEvent_cases (event : TransportEvent M) (tracker : ClientTracker M) :
    (tracker.receives = some 0 ∧ sendTransportEvent event tracker = (tracker, .error .stopped)) ∨
      (tracker.receives ≠ some 0 ∧ ∃ receives, sendTransportEvent event tracker =
        ({ tracker with
            receives := receives
            transportEvents := tracker.transportEvents ++ [event] }, .ok ())) := by
  unfold sendTransportEvent
  split
  · next hnone => exact .inr ⟨by rw [hnone]; nofun, tracker.receives, rfl⟩
  · next hgone => exact .inl ⟨hgone, rfl⟩
  · next receives hsome => exact .inr ⟨by rw [hsome]; nofun, some receives, rfl⟩

theorem sendIncoming_moves {connectionId : ℕ} (message : M)
    (hheld : tracker.table.held clientKey = some connectionId) :
    Moves reason tracker.table
      (sendTransportEvent (.incomingMessage connectionId message) tracker).1.table := by
  rcases sendTransportEvent_cases (.incomingMessage connectionId message) tracker with
    ⟨-, hsend⟩ | ⟨-, receives, hsend⟩
  · rw [hsend]
  · rw [hsend]
    exact .single (.forwarded _ _ _ clientKey connectionId message hheld)

theorem closeClient_moves (clientKey : ClientKey) (tracker : ClientTracker M) :
    Moves (fun connectionId => tracker.table.held clientKey = some connectionId ∧
      tracker.receives ≠ some 0) tracker.table (closeClient clientKey tracker).1.table := by
  unfold closeClient
  cases hlookup : tracker.clients.lookup clientKey with
  | none => exact .refl
  | some client =>
    have hheld : tracker.table.held clientKey = some client.connectionId :=
      connectionsOf_eq hlookup
    dsimp only
    rcases sendTransportEvent_cases (.connectionClosed client.connectionId) _ with
      ⟨-, hsend⟩ | ⟨hreceives, receives, hsend⟩
    · rw [hsend]
      refine .single ?_
      unfold table
      rw [connectionsOf_erase]
      exact .givenUp _ _ _ clientKey
    · rw [hsend]
      refine .single ?_
      unfold table
      rw [connectionsOf_erase]
      exact .closed _ _ _ clientKey _ hheld ⟨hheld, hreceives⟩

theorem transportEvents_send (event : TransportEvent M) (hreceives : tracker.receives ≠ some 0) :
    (sendTransportEvent event tracker).1.transportEvents = tracker.transportEvents ++ [event] := by
  rcases sendTransportEvent_cases event tracker with ⟨hgone, -⟩ | ⟨-, receives, hsend⟩
  · exact absurd hgone hreceives
  · rw [hsend]

theorem held_of_held_closeClient {other : ClientKey} {connectionId : ℕ}
    (h : (closeClient clientKey tracker).1.table.held other = some connectionId) :
    tracker.table.held other = some connectionId := by
  unfold closeClient at h
  cases hlookup : tracker.clients.lookup clientKey with
  | none =>
    rw [hlookup] at h
    exact h
  | some client =>
    rw [hlookup] at h
    have hheld : connectionsOf (tracker.clients.erase clientKey) other = some connectionId := by
      dsimp only at h
      rcases sendTransportEvent_cases (.connectionClosed client.connectionId) _ with
        ⟨-, hsend⟩ | ⟨-, receives, hsend⟩
      · rw [hsend] at h
        exact h
      · rw [hsend] at h
        exact h
    rw [connectionsOf_erase] at hheld
    by_cases heq : other = clientKey
    · rw [heq, update_self] at hheld
      cases hheld
    · rwa [update_of_ne heq] at hheld

theorem closeClients_moves (clientKeys : List ClientKey) (tracker : ClientTracker M) :
    Moves (fun connectionId => ∃ clientKey ∈ clientKeys,
      tracker.table.held clientKey = some connectionId)
      tracker.table (closeClients clientKeys tracker).1.table := by
  induction clientKeys generalizing tracker with
  | nil => exact .refl
  | cons clientKey clientKeys ih =>
    have hfirst : Moves (fun connectionId => ∃ key ∈ clientKey :: clientKeys,
        tracker.table.held key = some connectionId)
        tracker.table (closeClient clientKey tracker).1.table :=
      (closeClient_moves clientKey tracker).mono
        fun connectionId hclosed => ⟨clientKey, mem_cons_self, hclosed.1⟩
    rcases andThen_cases (closeClient clientKey) (closeClients clientKeys) tracker with
      ⟨error, hresult⟩ | ⟨-, hresult⟩
    · rw [closeClients, hresult]
      exact hfirst
    · rw [closeClients, hresult]
      refine hfirst.trans ((ih _).mono ?_)
      rintro connectionId ⟨key, hkey, hheld⟩
      exact ⟨key, mem_cons_of_mem _ hkey, held_of_held_closeClient hheld⟩

section Handling
variable (now : ℕ) (clientKey : ClientKey) (isLegacyStreamId : Bool) (seqId : Option ℕ)
  (message : M) (tracker : ClientTracker M)

theorem openConnection_moves :
    Moves reason tracker.table
      (openConnection now clientKey isLegacyStreamId seqId message tracker).1.table := by
  unfold openConnection
  rcases sendTransportEvent_cases (.connectionOpened tracker.nextConnectionId)
    { tracker with nextConnectionId := tracker.nextConnectionId + 1 } with
    ⟨-, hsend⟩ | ⟨-, receives, hsend⟩
  · rw [andThen, hsend]
    exact .single (.idTaken ..)
  · rw [andThen, hsend]
    refine .trans (.single ?_)
      (sendIncoming_moves message (connectionsOf_eq (AList.lookup_insert _)))
    unfold table
    rw [connectionsOf_insert]
    exact .opened ..

theorem deliver_moves :
    Moves reason tracker.table
      (deliver startsConnection now clientKey isLegacyStreamId seqId message tracker).1.table := by
  unfold deliver
  cases hlookup : tracker.clients.lookup clientKey with
  | none =>
    dsimp only
    split
    · exact openConnection_moves ..
    · exact .refl
  | some client =>
    refine .trans (Moves.of_eq (table_insert_held hlookup ?_))
      (@sendIncoming_moves _ _ clientKey _ _ message ?_)
    · rfl
    · refine (congrFun connectionsOf_insert clientKey).trans ?_
      rw [update_self]

/-- A message closes the connection of its key only where it is an initialize. -/
theorem handleClientMessage_moves :
    Moves (fun connectionId => startsConnection message ∧
        tracker.table.held clientKey = some connectionId) tracker.table
      (handleClientMessage startsConnection now clientKey isLegacyStreamId seqId message
        tracker).1.table := by
  unfold handleClientMessage
  split
  · exact .refl
  · split
    · next hstarts =>
      have hclose : Moves (fun connectionId => startsConnection message ∧
          tracker.table.held clientKey = some connectionId)
          tracker.table (closeClient clientKey tracker).1.table :=
        (closeClient_moves clientKey tracker).mono fun connectionId hclosed =>
          ⟨hstarts.1, hclosed.1⟩
      rcases andThen_cases (closeClient clientKey)
        (deliver startsConnection now clientKey isLegacyStreamId seqId message) tracker with
        ⟨error, hresult⟩ | ⟨-, hresult⟩
      · rw [hresult]
        exact hclose
      · rw [hresult]
        exact hclose.trans (deliver_moves ..)
    · exact deliver_moves ..

theorem table_handlePing : (handlePing now clientKey tracker).table = tracker.table := by
  unfold handlePing
  cases hlookup : tracker.clients.lookup clientKey with
  | none => rfl
  | some client => exact table_insert_held hlookup rfl

end Handling

theorem table_takeLegacyStreamId (envelope : ClientEnvelope M) (tracker : ClientTracker M) :
    (takeLegacyStreamId startsConnection envelope tracker).table = tracker.table := by
  unfold takeLegacyStreamId
  split <;> rfl

/-- The envelope closes its key: the client says so, or initializes it again. -/
def closesKey (startsConnection : M → Bool) (envelope : ClientEnvelope M) : Prop :=
  envelope.event = .clientClosed ∨ isInitialize startsConnection envelope.event

theorem handleMessage_moves (now : ℕ) (fresh : StreamId) (envelope : ClientEnvelope M)
    (tracker : ClientTracker M) :
    Moves (fun connectionId => closesKey startsConnection envelope ∧ tracker.table.held
        (envelope.clientId, streamIdOf startsConnection fresh envelope tracker) = some connectionId)
      tracker.table (handleMessage startsConnection now fresh envelope tracker).1.table := by
  unfold handleMessage
  dsimp only
  have htable := @table_takeLegacyStreamId _ startsConnection envelope tracker
  split
  · exact Moves.of_eq htable
  · split
    · next message hevent =>
      have hmoves := @handleClientMessage_moves _ startsConnection now
        (envelope.clientId, streamIdOf startsConnection fresh envelope tracker)
        envelope.streamId.isNone envelope.seqId message
        (takeLegacyStreamId startsConnection envelope tracker)
      rw [htable] at hmoves
      refine hmoves.mono fun connectionId hclosed => ⟨.inr ?_, hclosed.2⟩
      rw [hevent]
      exact hclosed.1
    · exact Moves.of_eq htable
    · exact Moves.of_eq htable
    · exact Moves.of_eq ((table_handlePing ..).trans htable)
    · next hevent =>
      have hmoves := closeClient_moves
        (envelope.clientId, streamIdOf startsConnection fresh envelope tracker)
        (takeLegacyStreamId startsConnection envelope tracker)
      rw [htable] at hmoves
      exact hmoves.mono fun connectionId hclosed => ⟨.inl hevent, hclosed.1⟩

theorem mem_expiredClientIds {order : IterationOrder ClientKey ClientState} {now : ℕ}
    (h : clientKey ∈ expiredClientIds order now tracker) :
    ∃ client, tracker.clients.lookup clientKey = some client ∧
      remoteControlClientIsAlive client now = false := by
  obtain ⟨⟨key, client⟩, hentry, rfl⟩ := mem_map.mp h
  obtain ⟨hentry, hexpired⟩ := mem_filter.mp hentry
  refine ⟨client, AList.mem_lookup_iff.mpr ((order.perm _).mem_iff.mp hentry), ?_⟩
  simpa using hexpired

theorem closeAllClients_moves (order : IterationOrder ClientKey ClientState) (bound : ℕ)
    (tracker : ClientTracker M) :
    Moves (fun _ => True) tracker.table (closeAllClients order bound tracker).table := by
  induction bound generalizing tracker with
  | zero => exact .refl
  | succ bound ih =>
    rw [closeAllClients]
    split
    · exact .refl
    · next entry _ =>
      exact ((closeClient_moves entry.1 tracker).mono fun _ _ => trivial).trans (ih _)

end Refinement

theorem completeTask_moves (connectionId : ℕ) (tracker : ClientTracker M) :
    Moves (fun closed => ∃ task, finishedTask connectionId tracker = some task ∧
        tracker.table.held task.clientKey = some closed ∧ tracker.receives ≠ some 0)
      tracker.table (completeTask connectionId tracker).table := by
  unfold completeTask
  split
  · exact .refl
  · next task htask =>
    have hmoves := closeClient_moves task.clientKey
      { tracker with joinSet := tracker.joinSet.erase task }
    exact hmoves.mono fun closed hclosed => ⟨task, htask, hclosed⟩

/-- Why an event may close a connection: the client closes its key or initializes it again, the
client is expired at a sweep, the task of the connection completes, or the tracker is shut
down. -/
def OwnReason (startsConnection : M → Bool) (tracker : ClientTracker M) : TrackerEvent M → ℕ → Prop
  | .message _ fresh envelope, connectionId =>
    closesKey startsConnection envelope ∧ ∃ client, tracker.clients.lookup
      (envelope.clientId, streamIdOf startsConnection fresh envelope tracker) = some client ∧
        client.connectionId = connectionId
  | .sweep _ now, connectionId =>
    ∃ clientKey client, tracker.clients.lookup clientKey = some client ∧
      client.connectionId = connectionId ∧ remoteControlClientIsAlive client now = false
  | .completed completed, connectionId =>
    ∃ task, finishedTask completed tracker = some task ∧ task.connectionId = connectionId
  | .shutdown _, _ => True
  | .released _, _ => False
  | .panicked _, _ => False
  | .connectionIdTaken, _ => False

/-- No other connection than that of the completing task is held under the key of the task, or
the transport is gone. -/
def OwnKey (tracker : ClientTracker M) : TrackerEvent M → Prop
  | .completed connectionId =>
    ∀ task client, finishedTask connectionId tracker = some task →
      tracker.clients.lookup task.clientKey = some client →
      client.connectionId = task.connectionId ∨ tracker.receives = some 0
  | _ => True

/-- Whether the reason is one of its own or not, the connection that a step closes was held. -/
theorem step_moves (startsConnection : M → Bool) (tracker : ClientTracker M)
    (event : TrackerEvent M) :
    Moves (fun connectionId => OwnKey tracker event →
        OwnReason startsConnection tracker event connectionId)
      tracker.table (tracker.step startsConnection event).table := by
  cases event with
  | message now fresh envelope =>
    refine (handleMessage_moves now fresh envelope tracker).mono ?_
    rintro connectionId ⟨hcloses, hheld⟩ -
    obtain ⟨client, hclient, hconnection⟩ := Option.map_eq_some_iff.mp hheld
    exact ⟨hcloses, client, hclient, hconnection⟩
  | sweep order now =>
    refine (closeClients_moves (expiredClientIds order now tracker) tracker).mono ?_
    rintro connectionId ⟨clientKey, hexpired, hheld⟩ -
    obtain ⟨client, hclient, hdead⟩ := mem_expiredClientIds hexpired
    have hconnection := (connectionsOf_eq hclient).symm.trans hheld
    exact ⟨clientKey, client, hclient, Option.some.inj hconnection, hdead⟩
  | completed completed =>
    refine (completeTask_moves completed tracker).mono ?_
    rintro connectionId ⟨task, htask, hheld, hreceives⟩ hown
    obtain ⟨client, hclient, rfl⟩ := Option.map_eq_some_iff.mp hheld
    refine ⟨task, htask, ?_⟩
    exact ((hown task client htask hclient).resolve_right hreceives).symm
  | shutdown order =>
    exact (closeAllClients_moves order _
      { tracker with
        shutdownToken := true
        joinSet := tracker.joinSet.map fun task => { task with released := true } }).mono
      fun _ _ _ => trivial
  | released | panicked => exact .refl
  | connectionIdTaken => exact .single (.idTaken ..)

def reportsOf (startsConnection : M → Bool) (tracker : ClientTracker M) (event : TrackerEvent M) :
    List (TransportEvent M) :=
  (tracker.step startsConnection event).transportEvents.drop tracker.transportEvents.length

theorem ownReason_of_ownKey {event : TrackerEvent M} (hown : OwnKey tracker event)
    {connectionId : ℕ}
    (hclosed : .connectionClosed connectionId ∈ reportsOf startsConnection tracker event) :
    OwnReason startsConnection tracker event connectionId := by
  obtain ⟨reports, hreports, hreasons⟩ := (step_moves startsConnection tracker event).reports
  refine hreasons connectionId ?_ hown
  change (tracker.step startsConnection event).transportEvents =
    tracker.transportEvents ++ reports at hreports
  rwa [reportsOf, hreports, drop_left] at hclosed

/-- A task whose key is held by another connection closes that one. -/
theorem reportsOf_completed {connectionId : ℕ} {task : OutboundTask} {client : ClientState}
    (htask : finishedTask connectionId tracker = some task)
    (hclient : tracker.clients.lookup task.clientKey = some client)
    (hreceives : tracker.receives ≠ some 0) :
    reportsOf startsConnection tracker (.completed connectionId) =
      [.connectionClosed client.connectionId] := by
  have hevents : (tracker.step startsConnection (.completed connectionId)).transportEvents =
      tracker.transportEvents ++ [.connectionClosed client.connectionId] := by
    rw [step, completeTask, htask]
    simp only [closeClient, hclient]
    exact transportEvents_send _ hreceives
  rw [reportsOf, hevents, drop_left]

theorem ownKey_iff (startsConnection : M → Bool) (tracker : ClientTracker M)
    (event : TrackerEvent M) :
    (∀ connectionId, .connectionClosed connectionId ∈ reportsOf startsConnection tracker event →
        OwnReason startsConnection tracker event connectionId) ↔ OwnKey tracker event := by
  refine ⟨fun hreasons => ?_, fun hown connectionId => ownReason_of_ownKey hown⟩
  cases event with
  | completed connectionId =>
    intro task client htask hclient
    by_cases hreceives : tracker.receives = some 0
    · exact .inr hreceives
    · have hreports : reportsOf startsConnection tracker _ = _ :=
        reportsOf_completed htask hclient hreceives
      obtain ⟨own, hown, hconnection⟩ := hreasons client.connectionId (by simp [hreports])
      rw [htask] at hown
      cases hown
      exact .inl hconnection.symm
  | _ => trivial

theorem coherent_new (nextConnectionId : ℕ) (receives : Option ℕ) :
    Coherent (new nextConnectionId receives : ClientTracker M).table := by
  have hheld (clientKey : ClientKey) :
      connectionsOf (∅ : Store ClientKey ClientState) clientKey = none := by
    rfl
  refine ⟨fun clientKey _ h => ?_, fun clientKey _ _ h => ?_, fun _ _ => rfl, fun _ => nofun⟩
  · exact absurd ((hheld clientKey).symm.trans h) nofun
  · exact absurd ((hheld clientKey).symm.trans h) nofun

theorem coherent_run (startsConnection : M → Bool) (history : List (TrackerEvent M))
    (h : Coherent tracker.table) : Coherent (tracker.run startsConnection history).table := by
  induction history generalizing tracker with
  | nil => exact h
  | cons event history ih => exact ih (h.moves (step_moves startsConnection tracker event))

/-- Every connection that a step of the run closes is closed for a reason of its own. -/
def ClosesForOwnReasons (startsConnection : M → Bool) (tracker : ClientTracker M)
    (history : List (TrackerEvent M)) : Prop :=
  ∀ before event after, history = before ++ event :: after → ∀ connectionId,
    .connectionClosed connectionId ∈
        reportsOf startsConnection (tracker.run startsConnection before) event →
      OwnReason startsConnection (tracker.run startsConnection before) event connectionId

/-- The connections of every run are opened, receive messages and are closed at most once. They
are closed for their own reasons exactly where each task that completes finds its own connection
under its key, or none. -/
theorem connections_closed_for_own_reasons_iff (startsConnection : M → Bool)
    (nextConnectionId : ℕ) (receives : Option ℕ) (history : List (TrackerEvent M)) :
    let start : ClientTracker M := .new nextConnectionId receives
    ((∀ connectionId, Orderly connectionId (start.run startsConnection history).transportEvents) ∧
        ClosesForOwnReasons startsConnection start history) ↔
      ∀ before event after, history = before ++ event :: after →
        OwnKey (start.run startsConnection before) event := by
  intro start
  have hcoherent := coherent_run startsConnection history (coherent_new nextConnectionId receives)
  constructor
  · rintro ⟨-, hreasons⟩ before event after hhistory
    exact (ownKey_iff startsConnection _ event).mp (hreasons before event after hhistory)
  · intro hown
    refine ⟨fun connectionId => orderly_of_phase (hcoherent.orderly connectionId), ?_⟩
    intro before event after hhistory
    exact (ownKey_iff startsConnection _ event).mpr (hown before event after hhistory)

def initializedTwice : List (TrackerEvent Bool) :=
  let envelope : ClientEnvelope Bool :=
    ⟨.clientMessage true, ⟨"client"⟩, some ⟨"stream"⟩, none, none⟩
  [.message 0 ⟨"fresh"⟩ envelope, .message 1 ⟨"fresh"⟩ envelope, .completed 0]

/-- The task of the first connection completes after the second one has been opened, and the
second connection is closed. -/
theorem completed_task_closes_later_connection :
    ((new 0 none).run id initializedTwice).transportEvents =
        [.connectionOpened 0, .incomingMessage 0 true, .connectionClosed 0,
          .connectionOpened 1, .incomingMessage 1 true, .connectionClosed 1] ∧
      ¬ClosesForOwnReasons id (new 0 none) initializedTwice := by
  refine ⟨rfl, fun hreasons => ?_⟩
  obtain ⟨task, htask, hconnection⟩ := hreasons (initializedTwice.take 2) (.completed 0) [] rfl 1
    (mem_singleton_self _)
  cases htask
  cases hconnection

end DeepseekX.RemoteControl
