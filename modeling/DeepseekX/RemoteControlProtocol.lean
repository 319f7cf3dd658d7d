import Mathlib.Data.Nat.Notation

/-!
# Envelopes of remote control clients

Clients reach the app server through one websocket. Every envelope names its client and,
except for older clients, a stream of it. The JSON-RPC messages are of any type `M`.
-/

namespace DeepseekX.RemoteControl

structure ClientId where
  value : String
  deriving DecidableEq, Repr

structure StreamId where
  value : String
  deriving DecidableEq, Repr

inductive ClientEvent (M : Type) where
  | clientMessage (message : M)
  | clientMessageChunk (segmentId segmentCount messageSizeBytes : ℕ) (messageChunkBase64 : String)
  | ack (segmentId : Option ℕ)
  | ping
  | clientClosed
  deriving DecidableEq

structure ClientEnvelope (M : Type) where
  event : ClientEvent M
  clientId : ClientId
  streamId : Option StreamId
  seqId : Option ℕ
  cursor : Option String
  deriving DecidableEq

end DeepseekX.RemoteControl
