import DeepseekX.BoundedStores
import DeepseekX.RemoteControlProtocol

/-!
# Reassembling segmented client messages

A message that is too large for one envelope comes in chunks. `ClientSegmentReassembler`
keeps one assembly for each client: a chunk with another stream starts a new one, stale
chunks are ignored, and a chunk that does not continue the assembly drops it. The number
of assemblies is bounded; the one that has waited longest goes first.
-/

namespace DeepseekX.RemoteControl
open BoundedStores

abbrev Bytes := List UInt8

/-- Base64 and JSON, as far as they are used here. -/
structure WireCodec (M : Type) where
  encodeBase64 : Bytes → String
  decodeBase64 : String → Option Bytes
  decodedLenEstimate : ℕ → ℕ
  toVec : M → Bytes
  fromSlice : Bytes → Option M
  decode_encode : ∀ bytes, decodeBase64 (encodeBase64 bytes) = some bytes
  encode_ne_empty : ∀ bytes, bytes ≠ [] → encodeBase64 bytes ≠ ""
  length_le_estimate : ∀ text bytes, decodeBase64 text = some bytes →
    bytes.length ≤ decodedLenEstimate text.utf8ByteSize
  fromSlice_toVec : ∀ message, fromSlice (toVec message) = some message

def segmentCountMax : ℕ := 1024

def reassembledMaxBytes : ℕ := 100 * 1024 * 1024

def segmentAssemblyMaxCount : ℕ := 128

structure ClientSegmentMetadata where
  seqId : ℕ
  segmentCount : ℕ
  messageSizeBytes : ℕ
  deriving DecidableEq

structure ClientSegmentAssembly where
  streamId : StreamId
  metadata : ClientSegmentMetadata
  raw : Bytes
  nextSegmentId : ℕ
  lastChunkSeenAt : ℕ
  deriving DecidableEq

abbrev Assemblies := Store ClientId ClientSegmentAssembly

inductive ClientSegmentObservation (M : Type) where
  | forward (envelope : ClientEnvelope M)
  | pending
  | dropped
  deriving DecidableEq

inductive AssemblyUpdate (M : Type) where
  | pending
  | ignore
  | drop
  | complete (message : M)
  deriving DecidableEq

section Chunks

variable {M : Type}

inductive DecodeSliceError where
  | decodeError
  | outputSliceTooSmall
  deriving DecidableEq

variable (codec : WireCodec M)

/-- `decode_slice` into an output of the given length. -/
def WireCodec.decodeSlice (text : String) (output : ℕ) : Except DecodeSliceError Bytes :=
  match codec.decodeBase64 text with
  | none => .error .decodeError
  | some bytes => if bytes.length ≤ output then .ok bytes else .error .outputSliceTooSmall

/-- A chunk that continues the assembly. -/
def acceptChunk (now : ℕ) (assembly : ClientSegmentAssembly) (segmentCount messageSizeBytes : ℕ)
    (messageChunkBase64 : String) : ClientSegmentAssembly × AssemblyUpdate M :=
  let chunkStart := assembly.raw.length
  let decodedChunkLen := codec.decodedLenEstimate messageChunkBase64.utf8ByteSize
  let chunkEnd := min messageSizeBytes (chunkStart + decodedChunkLen)
  match codec.decodeSlice messageChunkBase64 (chunkEnd - chunkStart) with
  | .error _ => ({ assembly with lastChunkSeenAt := now }, .drop)
  | .ok bytes =>
    let assembly := { assembly with
      lastChunkSeenAt := now
      raw := assembly.raw ++ bytes
      nextSegmentId := assembly.nextSegmentId + 1 }
    if assembly.nextSegmentId < segmentCount then (assembly, .pending)
    else if assembly.raw.length ≠ messageSizeBytes then (assembly, .drop)
    else
      match codec.fromSlice assembly.raw with
      | some message => (assembly, .complete message)
      | none => (assembly, .drop)

def updateAssembly (now : ℕ) (assembly : ClientSegmentAssembly) (metadata : ClientSegmentMetadata)
    (segmentId : ℕ) (messageChunkBase64 : String) : ClientSegmentAssembly × AssemblyUpdate M :=
  if metadata.seqId < assembly.metadata.seqId then (assembly, .ignore)
  else if assembly.metadata ≠ metadata then (assembly, .drop)
  else if segmentId < assembly.nextSegmentId then (assembly, .pending)
  else if segmentId ≠ assembly.nextSegmentId then (assembly, .drop)
  else
    acceptChunk codec now assembly metadata.segmentCount metadata.messageSizeBytes
      messageChunkBase64

end Chunks

namespace Assemblies

variable (assemblies : Assemblies) (clientId : ClientId) (streamId : StreamId)

def shouldIgnoreChunk (seqId segmentId : ℕ) : Bool :=
  (assemblies.lookup clientId).any fun assembly =>
    assembly.streamId == streamId &&
      (decide (seqId < assembly.metadata.seqId) ||
        (seqId == assembly.metadata.seqId && decide (segmentId < assembly.nextSegmentId)))

def removeAssembly : Assemblies :=
  if (assemblies.lookup clientId).any (·.streamId == streamId) then assemblies.erase clientId
  else assemblies

def invalidateStream : Assemblies := assemblies.removeAssembly clientId streamId

def invalidateClient : Assemblies :=
  assemblies.erase clientId

variable (order : IterationOrder ClientId ClientSegmentAssembly)

def evictAssembliesIfFull (assemblies : Assemblies) : Assemblies :=
  evictIfFull order ClientSegmentAssembly.lastChunkSeenAt segmentAssemblyMaxCount assemblies

/-- The client gets an assembly for the stream, unless it has one. -/
def openAssembly (now : ℕ) (assemblies : Assemblies) (clientId : ClientId) (streamId : StreamId)
    (metadata : ClientSegmentMetadata) : Assemblies :=
  match assemblies.lookup clientId with
  | some assembly =>
    if assembly.streamId ≠ streamId then
      assemblies.insert clientId ⟨streamId, metadata, [], 0, now⟩
    else assemblies
  | none =>
    (assemblies.evictAssembliesIfFull order).insert clientId ⟨streamId, metadata, [], 0, now⟩

def isInvalidChunk (segmentId segmentCount messageSizeBytes : ℕ) (messageChunkBase64 : String) :
    Bool :=
  segmentCount == 0 || decide (segmentCount > segmentCountMax) ||
    decide (segmentId ≥ segmentCount) || messageSizeBytes == 0 ||
    decide (messageSizeBytes > reassembledMaxBytes) || messageChunkBase64 == ""

variable {M : Type} (codec : WireCodec M)

/-- A chunk of a stream with its sequence id. -/
def observeChunk (now : ℕ) (assemblies : Assemblies) (envelope : ClientEnvelope M)
    (streamId : StreamId) (metadata : ClientSegmentMetadata) (segmentId : ℕ)
    (messageChunkBase64 : String) : Assemblies × ClientSegmentObservation M :=
  if assemblies.shouldIgnoreChunk envelope.clientId streamId metadata.seqId segmentId then
    (assemblies, .dropped)
  else if isInvalidChunk segmentId metadata.segmentCount metadata.messageSizeBytes
      messageChunkBase64 then
    (assemblies.removeAssembly envelope.clientId streamId, .dropped)
  else
    let assemblies := assemblies.openAssembly order now envelope.clientId streamId metadata
    match assemblies.lookup envelope.clientId with
    | none => (assemblies, .dropped)
    | some assembly =>
      let (assembly, update) :=
        updateAssembly codec now assembly metadata segmentId messageChunkBase64
      let assemblies : Assemblies := assemblies.insert envelope.clientId assembly
      match update with
      | .pending => (assemblies, .pending)
      | .ignore => (assemblies, .dropped)
      | .drop => (assemblies.removeAssembly envelope.clientId streamId, .dropped)
      | .complete message =>
        (assemblies.removeAssembly envelope.clientId streamId,
          .forward { envelope with event := .clientMessage message })

def observe (now : ℕ) (assemblies : Assemblies) (envelope : ClientEnvelope M) :
    Assemblies × ClientSegmentObservation M :=
  match envelope.event with
  | .clientMessageChunk segmentId segmentCount messageSizeBytes messageChunkBase64 =>
    match envelope.seqId, envelope.streamId with
    | some seqId, some streamId =>
      observeChunk order codec now assemblies envelope streamId
        ⟨seqId, segmentCount, messageSizeBytes⟩ segmentId messageChunkBase64
    | _, _ => (assemblies, .dropped)
  | _ => (assemblies, .forward envelope)

end Assemblies

end DeepseekX.RemoteControl
