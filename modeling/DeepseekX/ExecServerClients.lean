import DeepseekX.ExecProcessEvents

/-!
# The tasks of an exec server client

The transport queues what it reads for the reader task, which forwards notifications to the
notification task and answers the calls that wait. When the transport ends, the reader queues
that behind the notifications and fails the calls; the notification task then fails the
sessions. A call that finds the transport closed records it, and a read in addition fails its
session. The tasks interleave at locks and channels.
-/

namespace DeepseekX.ExecProcesses

inductive RpcCallError where
  | closed
  | server (code : ℤ) (message : String)
  deriving DecidableEq

inductive JsonRpcMessage (P ι : Type*) where
  | response (id : ι)
  | error (id : ι) (code : ℤ) (message : String)
  | notification (notification : ServerNotification P)
  | request (method : String)

/-- What the transport queues. The end of the queue is an event of its own. -/
inductive JsonRpcConnectionEvent (P ι : Type*) where
  | message (message : JsonRpcMessage P ι)
  | malformedMessage (reason : String)
  | disconnected (reason : Option String)
  | endOfQueue

inductive RpcClientEvent (P : Type*) where
  | notification (notification : ServerNotification P)
  | disconnected (reason : Option String)

def channelCapacity : ℕ := 128

def disconnectedMessage : Option String → String
  | some reason => "exec-server transport disconnected: " ++ reason
  | none => "exec-server transport disconnected"

def isTransportClosedError : RpcCallError → Bool
  | .closed => true
  | .server code message => code == -32000 && message == "JSON-RPC transport closed"

/-- What the task that reads from the transport does next. -/
inductive ReaderTask (P : Type*) where
  | receive
  | forward (notification : ServerNotification P)
  | disconnect (reason : Option String)
  | drainPending
  | done

/-- What the task that handles the notifications does next. Of the sessions that it has taken,
those in `left` are still to be failed. -/
inductive NotificationTask (P : Type*) where
  | receive
  | removeSession (processId : P)
  | takeAllSessions (message : String)
  | setFailure (message : String) (left : P → Bool)
  | announceFailure (message : String) (left : P → Bool) (processId : P) (shouldPublish : Bool)

/-- What a call does next: a read from a session, or another call if there is none. -/
inductive CallTask (P : Type*) where
  | idle
  | failedResponse (processId : P)
  | disconnectedError (session : Option P)
  | register (session : Option P)
  | send (session : Option P)
  | await (session : Option P)
  | recordDisconnected (session : Option P)
  | setFailure (processId : P)
  | announceFailure (processId : P) (shouldPublish : Bool)
  | returned
  deriving DecidableEq

/-- The client and its tasks, with a history: the notifications that the transport has queued
before its end. -/
structure ExecServerClient (P ι : Type*) where
  received : List (ServerNotification P)
  ended : Bool
  incoming : List (JsonRpcConnectionEvent P ι)
  disconnectedRx : Bool
  events : List (RpcClientEvent P)
  pending : ι → Bool
  results : ι → Option (Except RpcCallError Unit)
  inner : Inner P
  reader : ReaderTask P
  notifier : NotificationTask P
  calls : ι → CallTask P

inductive ClientEvent (P ι : Type*) where
  | queue (event : JsonRpcConnectionEvent P ι)
  | raiseDisconnected
  | reader
  | notifier (next : Option P)
  | start (call : ι) (session : Option P)
  | call (call : ι) (sent : Bool)

namespace JsonRpcConnectionEvent
variable {P ι : Type*}

def ends : JsonRpcConnectionEvent P ι → Bool
  | message (.request _) => true
  | message _ => false
  | _ => true

def notification? : JsonRpcConnectionEvent P ι → Option (ServerNotification P)
  | message (.notification notification) => some notification
  | _ => none

end JsonRpcConnectionEvent

def Inner.recordDisconnected {P : Type*} (inner : Inner P) (message : String) : Inner P :=
  { inner with disconnected := some (inner.disconnected.getD message) }

namespace ExecServerClient
variable {P ι : Type*} [DecidableEq P] [DecidableEq ι]

def new : ExecServerClient P ι where
  received := []
  ended := false
  incoming := []
  disconnectedRx := false
  events := []
  pending := fun _ => false
  results := fun _ => none
  inner := ⟨fun _ => .new, fun _ => true, none⟩
  reader := .receive
  notifier := .receive
  calls := fun _ => .idle

variable (client : ExecServerClient P ι)

def setSession (processId : P) (session : SessionState) : ExecServerClient P ι :=
  { client with
    inner := { client.inner with
      sessions := Function.update client.inner.sessions processId session } }

def queue (event : JsonRpcConnectionEvent P ι) : ExecServerClient P ι :=
  if client.incoming.length < channelCapacity then
    { client with
      incoming := client.incoming ++ [event]
      received := if client.ended then client.received
        else client.received ++ event.notification?.toList
      ended := client.ended || event.ends }
  else client

def answer (call : ι) (result : Except RpcCallError Unit) : ExecServerClient P ι :=
  if client.pending call then
    { client with
      pending := Function.update client.pending call false
      results := Function.update client.results call (some result) }
  else client

def handleServerMessage : JsonRpcMessage P ι → ExecServerClient P ι
  | .response id => client.answer id (.ok ())
  | .error id code message => client.answer id (.error (.server code message))
  | .notification notification => { client with reader := .forward notification }
  | .request _ => { client with reader := .disconnect none }

def stepReader : ExecServerClient P ι :=
  match client.reader with
  | .receive =>
    match client.incoming with
    | [] => client
    | .message message :: incoming => handleServerMessage { client with incoming } message
    | .malformedMessage _ :: incoming => { client with incoming, reader := .disconnect none }
    | .disconnected reason :: incoming => { client with incoming, reader := .disconnect reason }
    | .endOfQueue :: incoming => { client with incoming, reader := .disconnect none }
  | .forward notification =>
    if client.events.length < channelCapacity then
      { client with events := client.events ++ [.notification notification], reader := .receive }
    else client
  | .disconnect reason =>
    if client.events.length < channelCapacity then
      { client with events := client.events ++ [.disconnected reason], reader := .drainPending }
    else client
  | .drainPending =>
    { client with
      pending := fun _ => false
      results := fun call =>
        if client.pending call then some (.error .closed) else client.results call
      reader := .done }
  | .done => client

def stepNotifier (next : Option P) : ExecServerClient P ι :=
  match client.notifier with
  | .receive =>
    match client.events with
    | [] => client
    | .notification notification :: events =>
      match publishNotification client.inner notification with
      | .ok (inner, none) => { client with events, inner }
      | .ok (inner, some processId) =>
        { client with events, inner, notifier := .removeSession processId }
      | .error error =>
        let message := "exec-server notification handling failed: " ++ error
        let inner := client.inner.recordDisconnected message
        { client with
          events, inner, notifier := .takeAllSessions (inner.disconnected.getD message) }
    | .disconnected reason :: events =>
      let message := disconnectedMessage reason
      let inner := client.inner.recordDisconnected message
      { client with
        events, inner, notifier := .takeAllSessions (inner.disconnected.getD message) }
  | .removeSession processId =>
    { client with inner := client.inner.removeSession processId, notifier := .receive }
  | .takeAllSessions message =>
    { client with
      inner := { client.inner with routed := fun _ => false }
      notifier := .setFailure message client.inner.routed }
  | .setFailure message left =>
    -- the sessions are visited in any order
    match next with
    | none => client
    | some processId =>
      if left processId then
        let recorded := (client.inner.sessions processId).recordFailure message
        { client.setSession processId recorded.1 with
          notifier := .announceFailure message (Function.update left processId false) processId
            recorded.2 }
      else client
  | .announceFailure message left processId shouldPublish =>
    { client.setSession processId
        ((client.inner.sessions processId).announceFailure message shouldPublish) with
      notifier := .setFailure message left }

def setCall (call : ι) (task : CallTask P) : ExecServerClient P ι :=
  { client with calls := Function.update client.calls call task }

/-- The request may be refused by the transport: it is `sent` or not. -/
def stepCall (call : ι) (sent : Bool) : ExecServerClient P ι :=
  match client.calls call with
  | .idle => client
  | .failedResponse processId =>
    if (client.inner.sessions processId).failure.isSome then client.setCall call .returned
    else client.setCall call (.disconnectedError (some processId))
  | .disconnectedError session =>
    if client.inner.disconnected.isSome then
      client.setCall call (session.elim .returned .setFailure)
    else client.setCall call (.register session)
  | .register session =>
    if client.disconnectedRx then client.setCall call (.recordDisconnected session)
    else
      { client with pending := Function.update client.pending call true }.setCall call
        (.send session)
  | .send session =>
    if sent then client.setCall call (.await session)
    else
      { client with pending := Function.update client.pending call false }.setCall call
        (.recordDisconnected session)
  | .await session =>
    match client.results call with
    | none => client
    | some (.ok _) => client.setCall call .returned
    | some (.error error) =>
      if isTransportClosedError error then client.setCall call (.recordDisconnected session)
      else client.setCall call .returned
  | .recordDisconnected session =>
    { client with
      inner := client.inner.recordDisconnected (disconnectedMessage none) }.setCall call
      (session.elim .returned .setFailure)
  | .setFailure processId =>
    let recorded := (client.inner.sessions processId).recordFailure (disconnectedMessage none)
    (client.setSession processId recorded.1).setCall call (.announceFailure processId recorded.2)
  | .announceFailure processId shouldPublish =>
    (client.setSession processId ((client.inner.sessions processId).announceFailure
      (disconnectedMessage none) shouldPublish)).setCall call .returned
  | .returned => client

def step : ClientEvent P ι → ExecServerClient P ι
  | .queue event => client.queue event
  | .raiseDisconnected => { client with disconnectedRx := true }
  | .reader => client.stepReader
  | .notifier next => client.stepNotifier next
  | .start call session =>
    match client.calls call with
    | .idle => client.setCall call (session.elim (.disconnectedError none) .failedResponse)
    | _ => client
  | .call call sent => client.stepCall call sent

end ExecServerClient

end DeepseekX.ExecProcesses
