import DeepseekX.BoundedStores
import DeepseekX.FallibleActions
import DeepseekX.RemoteControlProtocol

/-!
# Tracking remote control clients

The tracker holds one connection for each client and stream, opened by an initialize message.
Each connection has a task that forwards what the server sends. The task ends when its
disconnect token is cancelled or one of its channels closes, and the key it returns is then
closed. The tracker reports to the transport, whose receiver may go away.
-/

namespace DeepseekX.RemoteControl
open BoundedStores FallibleActions

abbrev ClientKey := ClientId × StreamId

inductive PongStatus where
  | active
  | unknown
  deriving DecidableEq

inductive TransportEvent (M : Type) where
  | connectionOpened (connectionId : ℕ)
  | incomingMessage (connectionId : ℕ) (message : M)
  | connectionClosed (connectionId : ℕ)
  deriving DecidableEq

def TransportEvent.connectionId {M : Type} : TransportEvent M → ℕ
  | .connectionOpened connectionId => connectionId
  | .incomingMessage connectionId _ => connectionId
  | .connectionClosed connectionId => connectionId

inductive Stopped where
  | stopped
  deriving DecidableEq

/-- Times are in milliseconds. -/
structure ClientState where
  connectionId : ℕ
  lastActivityAt : ℕ
  lastInboundSeqId : Option ℕ
  deriving DecidableEq

/-- A task of `run_client_outbound`. It is released once its disconnect token is cancelled or
one of its channels is closed. -/
structure OutboundTask where
  clientKey : ClientKey
  connectionId : ℕ
  released : Bool
  deriving DecidableEq

/-- The tracker with the counter of connection ids, which other transports use as well.
`receives` bounds the events the receiver still takes, where it goes away at some time. `pongs`
are the answers to pings. -/
structure ClientTracker (M : Type) where
  clients : Store ClientKey ClientState
  legacyStreamIds : Store ClientId StreamId
  joinSet : List OutboundTask
  shutdownToken : Bool
  nextConnectionId : ℕ
  receives : Option ℕ
  transportEvents : List (TransportEvent M)
  pongs : List (ClientKey × PongStatus)

variable {M : Type}

def ClientTracker.new (nextConnectionId : ℕ) (receives : Option ℕ) : ClientTracker M :=
  ⟨∅, ∅, [], false, nextConnectionId, receives, [], []⟩

def sendTransportEvent (event : TransportEvent M) : Action (ClientTracker M) Stopped :=
  fun tracker =>
    match tracker.receives with
    | none => ({ tracker with transportEvents := tracker.transportEvents ++ [event] }, .ok ())
    | some 0 => (tracker, .error .stopped)
    | some (receives + 1) =>
      ({ tracker with
          receives := some receives
          transportEvents := tracker.transportEvents ++ [event] }, .ok ())

variable (connectionId : ℕ)

def OutboundTask.release (task : OutboundTask) : OutboundTask :=
  if task.connectionId = connectionId then { task with released := true } else task

def closeClient (clientKey : ClientKey) : Action (ClientTracker M) Stopped := fun tracker =>
  match tracker.clients.lookup clientKey with
  | none => (tracker, .ok ())
  | some client =>
    sendTransportEvent (.connectionClosed client.connectionId)
      { tracker with
        clients := tracker.clients.erase clientKey
        legacyStreamIds :=
          if tracker.legacyStreamIds.lookup clientKey.1 = some clientKey.2 then
            tracker.legacyStreamIds.erase clientKey.1
          else tracker.legacyStreamIds
        joinSet := tracker.joinSet.map (OutboundTask.release client.connectionId) }

def closeClients : List ClientKey → Action (ClientTracker M) Stopped
  | [] => fun tracker => (tracker, .ok ())
  | clientKey :: clientKeys => andThen (closeClient clientKey) (closeClients clientKeys)

def remoteControlClientIdleTimeout : ℕ := 10 * 60 * 1000

def remoteControlClientIsAlive (client : ClientState) (now : ℕ) : Bool :=
  now - client.lastActivityAt < remoteControlClientIdleTimeout

variable (order : IterationOrder ClientKey ClientState)

def expiredClientIds (now : ℕ) (tracker : ClientTracker M) : List ClientKey :=
  ((order.visit tracker.clients.entries).filter fun entry =>
    !remoteControlClientIsAlive entry.2 now).map Sigma.fst

/-- Closes the expired clients, in the order of the hash map, until the transport is gone. -/
def closeExpiredClients (now : ℕ) : Action (ClientTracker M) Stopped := fun tracker =>
  closeClients (expiredClientIds order now tracker) tracker

section Messages
variable (startsConnection : M → Bool)

def isInitialize : ClientEvent M → Bool
  | .clientMessage message => startsConnection message
  | _ => false

/-- The stream of an envelope. Without a stream id it is the legacy stream of the client; the
random id `fresh` stands in for it at an initialize and at a ping, otherwise the empty id. -/
def streamIdOf (fresh : StreamId) (envelope : ClientEnvelope M) (tracker : ClientTracker M) :
    StreamId :=
  match envelope.streamId with
  | some streamId => streamId
  | none =>
    match tracker.legacyStreamIds.lookup envelope.clientId with
    | some streamId => streamId
    | none =>
      if isInitialize startsConnection envelope.event then fresh
      else
        match envelope.event with
        | .ping => fresh
        | _ => ⟨""⟩

/-- A legacy initialize takes the legacy stream id out of the map. -/
def takeLegacyStreamId (envelope : ClientEnvelope M) (tracker : ClientTracker M) :
    ClientTracker M :=
  if envelope.streamId.isNone ∧ isInitialize startsConnection envelope.event then
    { tracker with legacyStreamIds := tracker.legacyStreamIds.erase envelope.clientId }
  else tracker

def isStale (clientKey : ClientKey) (seqId : Option ℕ) (tracker : ClientTracker M) : Bool :=
  match seqId, tracker.clients.lookup clientKey with
  | some seqId, some client => client.lastInboundSeqId.any fun lastSeqId => seqId ≤ lastSeqId
  | _, _ => false

variable (now : ℕ)

def openConnection (clientKey : ClientKey) (isLegacyStreamId : Bool) (seqId : Option ℕ)
    (message : M) : Action (ClientTracker M) Stopped := fun tracker =>
  let connectionId := tracker.nextConnectionId
  andThen (sendTransportEvent (.connectionOpened connectionId))
    (fun tracker =>
      sendTransportEvent (.incomingMessage connectionId message)
        { tracker with
          joinSet := tracker.joinSet ++ [⟨clientKey, connectionId, tracker.shutdownToken⟩]
          clients := tracker.clients.insert clientKey
            ⟨connectionId, now, if isLegacyStreamId then none else seqId⟩
          legacyStreamIds :=
            if isLegacyStreamId then tracker.legacyStreamIds.insert clientKey.1 clientKey.2
            else tracker.legacyStreamIds })
    { tracker with nextConnectionId := connectionId + 1 }

/-- Forwards a message to the connection of its key, which an initialize opens. -/
def deliver (clientKey : ClientKey) (isLegacyStreamId : Bool) (seqId : Option ℕ) (message : M) :
    Action (ClientTracker M) Stopped := fun tracker =>
  match tracker.clients.lookup clientKey with
  | some client =>
    sendTransportEvent (.incomingMessage client.connectionId message)
      { tracker with
        clients := tracker.clients.insert clientKey
          { client with
            lastActivityAt := now
            lastInboundSeqId := seqId.or client.lastInboundSeqId } }
  | none =>
    if startsConnection message then
      openConnection now clientKey isLegacyStreamId seqId message tracker
    else (tracker, .ok ())

def handleClientMessage (clientKey : ClientKey) (isLegacyStreamId : Bool) (seqId : Option ℕ)
    (message : M) : Action (ClientTracker M) Stopped := fun tracker =>
  if isStale clientKey seqId tracker ∧ ¬startsConnection message then (tracker, .ok ())
  else if startsConnection message ∧ clientKey ∈ tracker.clients then
    andThen (closeClient clientKey)
      (deliver startsConnection now clientKey isLegacyStreamId seqId message) tracker
  else deliver startsConnection now clientKey isLegacyStreamId seqId message tracker

def handlePing (clientKey : ClientKey) (tracker : ClientTracker M) : ClientTracker M :=
  match tracker.clients.lookup clientKey with
  | some client =>
    { tracker with
      clients := tracker.clients.insert clientKey { client with lastActivityAt := now }
      pongs := tracker.pongs ++ [(clientKey, .active)] }
  | none => { tracker with pongs := tracker.pongs ++ [(clientKey, .unknown)] }

def handleMessage (fresh : StreamId) (envelope : ClientEnvelope M) :
    Action (ClientTracker M) Stopped := fun tracker =>
  let streamId := streamIdOf startsConnection fresh envelope tracker
  let clientKey := (envelope.clientId, streamId)
  let tracker := takeLegacyStreamId startsConnection envelope tracker
  if streamId.value = "" then (tracker, .ok ())
  else
    match envelope.event with
    | .clientMessage message =>
      handleClientMessage startsConnection now clientKey envelope.streamId.isNone envelope.seqId
        message tracker
    | .clientMessageChunk .. => (tracker, .ok ())
    | .ack _ => (tracker, .ok ())
    | .ping => (handlePing now clientKey tracker, .ok ())
    | .clientClosed => closeClient clientKey tracker

end Messages

variable (tracker : ClientTracker M)

/-- The task of the connection, if it is in the join set and may complete. -/
def finishedTask : Option OutboundTask :=
  tracker.joinSet.find? fun task => task.connectionId = connectionId ∧ task.released

/-- `bookkeep_join_set` returns the key of a completed task, and the reader closes that key. -/
def completeTask : ClientTracker M :=
  match finishedTask connectionId tracker with
  | none => tracker
  | some task =>
    (closeClient task.clientKey { tracker with joinSet := tracker.joinSet.erase task }).1

/-- The loop of `shutdown`, with a bound on its iterations: each takes a client away. -/
def closeAllClients (order : IterationOrder ClientKey ClientState) :
    ℕ → ClientTracker M → ClientTracker M
  | 0, tracker => tracker
  | bound + 1, tracker =>
    match (order.visit tracker.clients.entries).head? with
    | none => tracker
    | some entry => closeAllClients order bound (closeClient entry.1 tracker).1

def shutdown : ClientTracker M :=
  let cancelled :=
    { tracker with
      shutdownToken := true
      joinSet := tracker.joinSet.map fun task => { task with released := true } }
  let closed := closeAllClients order cancelled.clients.entries.length cancelled
  { closed with joinSet := [] }

/-- What happens to a tracker: an envelope arrives, the idle clients are swept, the token or a
channel of a task is closed from outside, a task completes or panics, another transport takes
a connection id, the tracker is shut down. -/
inductive TrackerEvent (M : Type) where
  | message (now : ℕ) (fresh : StreamId) (envelope : ClientEnvelope M)
  | sweep (order : IterationOrder ClientKey ClientState) (now : ℕ)
  | released (connectionId : ℕ)
  | completed (connectionId : ℕ)
  | panicked (connectionId : ℕ)
  | connectionIdTaken
  | shutdown (order : IterationOrder ClientKey ClientState)

def ClientTracker.step (startsConnection : M → Bool) (tracker : ClientTracker M) :
    TrackerEvent M → ClientTracker M
  | .message now fresh envelope =>
    (handleMessage startsConnection now fresh envelope tracker).1
  | .sweep order now => (closeExpiredClients order now tracker).1
  | .released connectionId =>
    { tracker with joinSet := tracker.joinSet.map (OutboundTask.release connectionId) }
  | .completed connectionId => completeTask connectionId tracker
  | .panicked connectionId =>
    { tracker with
      joinSet := tracker.joinSet.filter fun task => task.connectionId ≠ connectionId }
  | .connectionIdTaken => { tracker with nextConnectionId := tracker.nextConnectionId + 1 }
  | .shutdown order => RemoteControl.shutdown order tracker

def ClientTracker.run (startsConnection : M → Bool) (tracker : ClientTracker M)
    (history : List (TrackerEvent M)) : ClientTracker M :=
  history.foldl (ClientTracker.step startsConnection) tracker

end DeepseekX.RemoteControl
