import Mathlib.Data.List.GetD
import DeepseekX.SegmentReassembly

/-!
# Segmented messages arrive as they were sent

The chunks of a message, sent in order and mixed with envelopes of other clients and with
stale chunks, are put together again, and the message is forwarded at its last chunk.
-/

namespace DeepseekX.RemoteControl
open BoundedStores Assemblies List

variable {M : Type} {codec : WireCodec M} {order : IterationOrder ClientId ClientSegmentAssembly}

section Effects
variable {now : ℕ} {assemblies : Assemblies} {envelope : ClientEnvelope M} {clientId : ClientId}
  {streamId : StreamId} {metadata : ClientSegmentMetadata} {segmentId : ℕ} {text : String}
  {assembly : ClientSegmentAssembly}
variable {other : ClientId}

theorem lookup_removeAssembly_ne (h : other ≠ clientId) :
    (assemblies.removeAssembly clientId streamId).lookup other = assemblies.lookup other := by
  rw [removeAssembly]
  split
  · exact AList.lookup_erase_ne h
  · rfl

theorem lookup_of_lookup_removeAssembly
    (h : (assemblies.removeAssembly clientId streamId).lookup other = some assembly) :
    assemblies.lookup other = some assembly := by
  rw [removeAssembly] at h
  split at h
  · exact (lookup_of_lookup_erase h).2
  · exact h

theorem lookup_openAssembly :
    ∃ assembly, (assemblies.openAssembly order now clientId streamId metadata).lookup clientId =
        some assembly ∧ assembly.streamId = streamId ∧
      ((assembly = ⟨streamId, metadata, [], 0, now⟩ ∧
          ∀ old, assemblies.lookup clientId = some old → old.streamId ≠ streamId) ∨
        assemblies.lookup clientId = some assembly) := by
  unfold openAssembly
  cases hlookup : assemblies.lookup clientId with
  | none => exact ⟨_, AList.lookup_insert _, rfl, .inl ⟨rfl, fun old hold => by cases hold⟩⟩
  | some old =>
    dsimp only
    by_cases hstream : old.streamId ≠ streamId
    · rw [if_pos hstream]
      refine ⟨_, AList.lookup_insert _, rfl, .inl ⟨rfl, ?_⟩⟩
      rintro _ ⟨⟩
      exact hstream
    · rw [if_neg hstream]
      exact ⟨old, hlookup, not_not.mp hstream, .inr rfl⟩

theorem openAssembly_others :
    ∃ base : Assemblies, (base = assemblies ∨ base = assemblies.evictAssembliesIfFull order) ∧
      ∀ other, other ≠ clientId →
        (assemblies.openAssembly order now clientId streamId metadata).lookup other =
          base.lookup other := by
  unfold openAssembly
  cases assemblies.lookup clientId with
  | none => exact ⟨_, .inr rfl, fun other hother => AList.lookup_insert_ne hother⟩
  | some old =>
    refine ⟨assemblies, .inl rfl, fun other hother => ?_⟩
    dsimp only
    split
    · exact AList.lookup_insert_ne hother
    · rfl

theorem lookup_of_lookup_openAssembly (hother : other ≠ clientId)
    (h : (assemblies.openAssembly order now clientId streamId metadata).lookup other =
      some assembly) : assemblies.lookup other = some assembly := by
  obtain ⟨base, hbase, hothers⟩ := @openAssembly_others order now assemblies clientId streamId
    metadata
  rw [hothers other hother] at h
  rcases hbase with rfl | rfl
  · exact h
  · exact lookup_of_lookup_evictIfFull h

/-- The assembly of the sender behind a chunk, and what is said of the chunk. -/
def settle (envelope : ClientEnvelope M) (streamId : StreamId) (assemblies : Assemblies) :
    ClientSegmentAssembly × AssemblyUpdate M → Assemblies × ClientSegmentObservation M
  | (assembly, .pending) => (assemblies.insert envelope.clientId assembly, .pending)
  | (assembly, .ignore) => (assemblies.insert envelope.clientId assembly, .dropped)
  | (assembly, .drop) =>
    (removeAssembly (assemblies.insert envelope.clientId assembly) envelope.clientId
      streamId, .dropped)
  | (assembly, .complete message) =>
    (removeAssembly (assemblies.insert envelope.clientId assembly) envelope.clientId
      streamId, .forward { envelope with event := .clientMessage message })

theorem settle_others (envelope : ClientEnvelope M)
    (result : ClientSegmentAssembly × AssemblyUpdate M) (h : other ≠ envelope.clientId) :
    (settle envelope streamId assemblies result).1.lookup other = assemblies.lookup other := by
  obtain ⟨assembly, update⟩ := result
  have hinsert : (assemblies.insert envelope.clientId assembly).lookup other =
      assemblies.lookup other := AList.lookup_insert_ne h
  cases update with
  | pending | ignore => exact hinsert
  | drop | complete => exact (lookup_removeAssembly_ne h).trans hinsert

/-- What happens to a chunk with a stream and a sequence id. -/
theorem observeChunk_cases (now : ℕ) (assemblies : Assemblies) (envelope : ClientEnvelope M)
    (streamId : StreamId) (metadata : ClientSegmentMetadata) (segmentId : ℕ) (text : String) :
    (assemblies.shouldIgnoreChunk envelope.clientId streamId metadata.seqId segmentId = true ∧
      assemblies.observeChunk order codec now envelope streamId metadata segmentId text =
        (assemblies, .dropped)) ∨
    (isInvalidChunk segmentId metadata.segmentCount metadata.messageSizeBytes text = true ∧
      assemblies.observeChunk order codec now envelope streamId metadata segmentId text =
        (assemblies.removeAssembly envelope.clientId streamId, .dropped)) ∨
    ∃ assembly,
      isInvalidChunk segmentId metadata.segmentCount metadata.messageSizeBytes text = false ∧
      assembly.streamId = streamId ∧
      ((assembly = ⟨streamId, metadata, [], 0, now⟩ ∧
          ∀ old, assemblies.lookup envelope.clientId = some old → old.streamId ≠ streamId) ∨
        assemblies.lookup envelope.clientId = some assembly) ∧
      assemblies.observeChunk order codec now envelope streamId metadata segmentId text =
        settle envelope streamId
          (assemblies.openAssembly order now envelope.clientId streamId metadata)
          (updateAssembly codec now assembly metadata segmentId text) := by
  unfold observeChunk
  cases assemblies.shouldIgnoreChunk envelope.clientId streamId metadata.seqId segmentId with
  | true => exact .inl ⟨rfl, rfl⟩
  | false =>
    cases isInvalidChunk segmentId metadata.segmentCount metadata.messageSizeBytes text with
    | true => exact .inr (.inl ⟨rfl, rfl⟩)
    | false =>
      obtain ⟨assembly, hlookup, hstream, hold⟩ := @lookup_openAssembly order now assemblies
        envelope.clientId streamId metadata
      refine .inr (.inr ⟨assembly, rfl, hstream, hold, ?_⟩)
      simp only [hlookup]
      obtain ⟨assembly', update⟩ := updateAssembly codec now assembly metadata segmentId text
      cases update <;> rfl

def ClientEvent.isChunk : ClientEvent M → Bool
  | clientMessageChunk .. => true
  | _ => false

/-- An envelope is a chunk with a stream and a sequence id, or it does not touch the
assemblies. -/
theorem observe_cases (now : ℕ) (assemblies : Assemblies) (envelope : ClientEnvelope M) :
    (∃ seqId streamId segmentId segmentCount messageSizeBytes text,
      envelope.event = .clientMessageChunk segmentId segmentCount messageSizeBytes text ∧
      envelope.seqId = some seqId ∧ envelope.streamId = some streamId ∧
      assemblies.observe order codec now envelope =
        assemblies.observeChunk order codec now envelope streamId
          ⟨seqId, segmentCount, messageSizeBytes⟩ segmentId text) ∨
    (assemblies.observe order codec now envelope).1 = assemblies ∧
      ((assemblies.observe order codec now envelope).2 = .dropped ∨
        envelope.event.isChunk = false ∧
        (assemblies.observe order codec now envelope).2 = .forward envelope) := by
  obtain ⟨event, clientId, streamId, seqId, cursor⟩ := envelope
  cases event with
  | clientMessageChunk segmentId segmentCount messageSizeBytes text =>
    cases seqId with
    | none => exact .inr ⟨rfl, .inl rfl⟩
    | some seqId =>
      cases streamId with
      | none => exact .inr ⟨rfl, .inl rfl⟩
      | some streamId =>
        exact .inl ⟨seqId, streamId, segmentId, segmentCount, messageSizeBytes, text, rfl, rfl,
          rfl, rfl⟩
  | clientMessage | ack | ping | clientClosed => exact .inr ⟨rfl, .inr ⟨rfl, rfl⟩⟩

/-- Room may be made first; else only the assembly of the sender changes. -/
theorem observe_others (now : ℕ) (assemblies : Assemblies) (envelope : ClientEnvelope M) :
    ∃ base : Assemblies, (base = assemblies ∨ base = assemblies.evictAssembliesIfFull order) ∧
      ∀ other, other ≠ envelope.clientId →
        (assemblies.observe order codec now envelope).1.lookup other = base.lookup other := by
  rcases @observe_cases M codec order now assemblies envelope with
    ⟨seqId, streamId, segmentId, segmentCount, messageSizeBytes, text, -, -, -, heq⟩ | ⟨hsame, -⟩
  · rw [heq]
    rcases @observeChunk_cases M codec order now assemblies envelope streamId
        ⟨seqId, segmentCount, messageSizeBytes⟩ segmentId text with
      ⟨-, heq⟩ | ⟨-, heq⟩ | ⟨assembly, -, -, -, heq⟩
    · exact ⟨assemblies, .inl rfl, fun other _ => by rw [heq]⟩
    · exact ⟨assemblies, .inl rfl, fun other hother => by
        rw [heq]; exact lookup_removeAssembly_ne hother⟩
    · obtain ⟨base, hbase, hothers⟩ := @openAssembly_others order now assemblies
        envelope.clientId streamId ⟨seqId, segmentCount, messageSizeBytes⟩
      refine ⟨base, hbase, fun other hother => ?_⟩
      rw [heq, settle_others envelope _ hother, hothers other hother]
  · exact ⟨assemblies, .inl rfl, fun other _ => by rw [hsame]⟩

theorem lookup_of_lookup_observe (hother : other ≠ envelope.clientId)
    (h : (assemblies.observe order codec now envelope).1.lookup other = some assembly) :
    assemblies.lookup other = some assembly := by
  obtain ⟨base, hbase, hothers⟩ := @observe_others M codec order now assemblies envelope
  rw [hothers other hother] at h
  rcases hbase with rfl | rfl
  · exact h
  · exact lookup_of_lookup_evictIfFull h

end Effects

structure SegmentedMessage (codec : WireCodec M) where
  clientId : ClientId
  streamId : StreamId
  seqId : ℕ
  message : M
  pieces : List Bytes
  flatten : pieces.flatten = codec.toVec message
  nonempty : pieces ≠ []
  piece_ne_nil : ∀ piece ∈ pieces, piece ≠ []
  length_le : pieces.length ≤ segmentCountMax

namespace SegmentedMessage

variable (sent : SegmentedMessage codec)

def metadata : ClientSegmentMetadata :=
  ⟨sent.seqId, sent.pieces.length, (codec.toVec sent.message).length⟩

def envelope (event : ClientEvent M) (cursor : Option String) : ClientEnvelope M :=
  ⟨event, sent.clientId, some sent.streamId, some sent.seqId, cursor⟩

def chunkText (segmentId : ℕ) : String := codec.encodeBase64 (sent.pieces.getD segmentId [])

def chunk (segmentId : ℕ) (cursor : Option String) : ClientEnvelope M :=
  sent.envelope (.clientMessageChunk segmentId sent.pieces.length
    (codec.toVec sent.message).length (sent.chunkText segmentId)) cursor

/-- A chunk of an older message of the stream, or one of the first chunks again. -/
def Stale (count : ℕ) (envelope : ClientEnvelope M) : Prop :=
  envelope.clientId = sent.clientId ∧ envelope.streamId = some sent.streamId ∧
    ∃ segmentId segmentCount messageSizeBytes text seqId,
      envelope.event = .clientMessageChunk segmentId segmentCount messageSizeBytes text ∧
      envelope.seqId = some seqId ∧
      (seqId < sent.seqId ∨ seqId = sent.seqId ∧ segmentId < count)

/-- The envelopes that come in, with the time, from the moment when `count` chunks of the
message have been sent until its last chunk. -/
inductive Sends : ℕ → List (ℕ × ClientEnvelope M) → Prop
  | last {count now : ℕ} {cursor : Option String} (h : count + 1 = sent.pieces.length) :
      Sends count [(now, sent.chunk count cursor)]
  | chunk {count now : ℕ} {cursor : Option String} {rest : List (ℕ × ClientEnvelope M)}
      (h : count + 1 < sent.pieces.length) (hrest : Sends (count + 1) rest) :
      Sends count ((now, sent.chunk count cursor) :: rest)
  | other {count now : ℕ} {envelope : ClientEnvelope M} {rest : List (ℕ × ClientEnvelope M)}
      (h : envelope.clientId ≠ sent.clientId) (hrest : Sends count rest) :
      Sends count ((now, envelope) :: rest)
  | stale {count now : ℕ} {envelope : ClientEnvelope M} {rest : List (ℕ × ClientEnvelope M)}
      (hcount : 0 < count) (h : sent.Stale count envelope) (hrest : Sends count rest) :
      Sends count ((now, envelope) :: rest)

end SegmentedMessage

def observations (order : IterationOrder ClientId ClientSegmentAssembly) (codec : WireCodec M) :
    Assemblies → List (ℕ × ClientEnvelope M) → List (ClientSegmentObservation M)
  | _, [] => []
  | assemblies, (now, envelope) :: rest =>
    let (assemblies, observation) := assemblies.observe order codec now envelope
    observation :: observations order codec assemblies rest

theorem observations_cons (assemblies : Assemblies) (now : ℕ) (envelope : ClientEnvelope M)
    (rest : List (ℕ × ClientEnvelope M)) :
    observations order codec assemblies ((now, envelope) :: rest) =
      (assemblies.observe order codec now envelope).2 ::
        observations order codec (assemblies.observe order codec now envelope).1 rest := rfl

section Receiving
variable {sent : SegmentedMessage codec} {now count : ℕ} {cursor : Option String}

theorem acceptChunk_eq {assembly : ClientSegmentAssembly} {segmentCount messageSizeBytes : ℕ}
    {text : String} {bytes : Bytes} {update : AssemblyUpdate M}
    (hdecode : codec.decodeSlice text (min messageSizeBytes (assembly.raw.length +
      codec.decodedLenEstimate text.utf8ByteSize) - assembly.raw.length) = .ok bytes)
    (hupdate : assembly.nextSegmentId + 1 < segmentCount ∧ update = .pending ∨
      ¬ assembly.nextSegmentId + 1 < segmentCount ∧
        (assembly.raw ++ bytes).length = messageSizeBytes ∧
        ∃ message, codec.fromSlice (assembly.raw ++ bytes) = some message ∧
          update = .complete message) :
    acceptChunk codec now assembly segmentCount messageSizeBytes text =
      ({ assembly with
          lastChunkSeenAt := now
          raw := assembly.raw ++ bytes
          nextSegmentId := assembly.nextSegmentId + 1 }, update) := by
  rw [acceptChunk, hdecode]
  dsimp only
  rcases hupdate with ⟨hmore, rfl⟩ | ⟨hlast, hsize, message, hmessage, rfl⟩
  · rw [if_pos hmore]
  · rw [if_neg hlast, if_neg (not_not.mpr hsize), hmessage]

namespace SegmentedMessage

def assembly (sent : SegmentedMessage codec) (count seenAt : ℕ) : ClientSegmentAssembly :=
  ⟨sent.streamId, sent.metadata, (sent.pieces.take count).flatten, count, seenAt⟩

section
variable (sent) (hcount : count < sent.pieces.length)
include hcount

theorem length_flatten_take :
    (sent.pieces.take count).flatten.length + (sent.pieces.getD count []).length ≤
      (codec.toVec sent.message).length := by
  rw [← sent.flatten]
  have hsplit : sent.pieces = sent.pieces.take count ++ sent.pieces.getD count [] ::
      sent.pieces.drop (count + 1) := by
    rw [getD_eq_getElem _ _ hcount, getElem_cons_drop hcount, take_append_drop]
  conv_rhs => rw [hsplit]
  rw [flatten_append, flatten_cons, length_append, length_append]
  omega

theorem flatten_take_succ :
    (sent.pieces.take count).flatten ++ sent.pieces.getD count [] =
      (sent.pieces.take (count + 1)).flatten := by
  rw [take_succ_eq_append_getElem hcount, flatten_append, flatten_singleton,
    getD_eq_getElem _ _ hcount]

theorem piece_length_pos :
    sent.pieces.getD count [] ≠ [] := by
  rw [getD_eq_getElem _ _ hcount]
  exact sent.piece_ne_nil _ (getElem_mem hcount)

theorem decodeSlice_chunk :
    codec.decodeSlice (sent.chunkText count)
      (min (codec.toVec sent.message).length ((sent.pieces.take count).flatten.length +
        codec.decodedLenEstimate (sent.chunkText count).utf8ByteSize) -
          (sent.pieces.take count).flatten.length) = .ok (sent.pieces.getD count []) := by
  have hlength := sent.length_flatten_take hcount
  have hestimate := codec.length_le_estimate (sent.chunkText count) _ (codec.decode_encode _)
  rw [WireCodec.decodeSlice, chunkText, codec.decode_encode]
  dsimp only
  rw [chunkText] at hestimate
  rw [if_pos (by omega)]

theorem updateAssembly_chunk (now seenAt : ℕ) :
    updateAssembly codec now (sent.assembly count seenAt) sent.metadata count
        (sent.chunkText count) =
      (sent.assembly (count + 1) now,
        if count + 1 < sent.pieces.length then .pending else .complete sent.message) := by
  have hnext : (sent.assembly count seenAt).nextSegmentId = count := rfl
  have hmetadata : (sent.assembly count seenAt).metadata = sent.metadata := rfl
  have hraw : { sent.assembly count seenAt with
      lastChunkSeenAt := now
      raw := (sent.assembly count seenAt).raw ++ sent.pieces.getD count []
      nextSegmentId := (sent.assembly count seenAt).nextSegmentId + 1 } =
        sent.assembly (count + 1) now := by
    rw [assembly, assembly, ← sent.flatten_take_succ hcount]
  rw [updateAssembly, hmetadata, hnext, if_neg (lt_irrefl _), if_neg (not_not.mpr rfl),
    if_neg (lt_irrefl _), if_neg (not_not.mpr rfl)]
  by_cases hmore : count + 1 < sent.pieces.length
  · refine (acceptChunk_eq (sent.decodeSlice_chunk hcount) (.inl ⟨hmore, rfl⟩)).trans ?_
    rw [if_pos hmore, ← hraw]
  · have hall : (sent.pieces.take (count + 1)).flatten = codec.toVec sent.message := by
      rw [take_of_length_le (Nat.not_lt.mp hmore), sent.flatten]
    have hbytes : (sent.assembly count seenAt).raw ++ sent.pieces.getD count [] =
        codec.toVec sent.message := (sent.flatten_take_succ hcount).trans hall
    refine (acceptChunk_eq (sent.decodeSlice_chunk hcount) (.inr ⟨hmore, congrArg length hbytes,
      sent.message, by rw [hbytes, codec.fromSlice_toVec], rfl⟩)).trans ?_
    rw [if_neg hmore, ← hraw]

theorem isInvalidChunk_eq_false
    (hsize : (codec.toVec sent.message).length ≤ reassembledMaxBytes) :
    isInvalidChunk count sent.metadata.segmentCount sent.metadata.messageSizeBytes
      (sent.chunkText count) = false := by
  have hlength := sent.length_flatten_take hcount
  have hpiece := length_pos_iff.mpr (sent.piece_length_pos hcount)
  have htext := codec.encode_ne_empty _ (sent.piece_length_pos hcount)
  have hmax := sent.length_le
  simp only [isInvalidChunk, metadata, Bool.or_eq_false_iff, beq_eq_false_iff_ne]
  refine ⟨⟨⟨⟨⟨?_, decide_eq_false ?_⟩, decide_eq_false ?_⟩, ?_⟩, decide_eq_false ?_⟩, htext⟩ <;>
    omega

end

/-- What is known of the assemblies when `count` chunks have come in: those of clients that
do not take part are older than every chunk to come. -/
structure Receives (sent : SegmentedMessage codec) (others : Finset ClientId) (count : ℕ)
    (events : List (ℕ × ClientEnvelope M)) (assemblies : Assemblies) : Prop where
  before : count = 0 → ∀ assembly, assemblies.lookup sent.clientId = some assembly →
    assembly.streamId ≠ sent.streamId
  during : 0 < count → ∃ seenAt, Young ClientSegmentAssembly.lastChunkSeenAt
    segmentAssemblyMaxCount (insert sent.clientId others) sent.clientId
    (sent.assembly count seenAt) assemblies
  older : ∀ clientId assembly, assemblies.lookup clientId = some assembly →
    clientId ≠ sent.clientId → clientId ∉ others → ∀ event ∈ events,
      event.2.clientId = sent.clientId → assembly.lastChunkSeenAt < event.1
  card : (insert sent.clientId others).card < segmentAssemblyMaxCount

variable {others : Finset ClientId} {events : List (ℕ × ClientEnvelope M)}
  {assemblies : Assemblies} {envelope : ClientEnvelope M}

theorem Receives.other (h : sent.Receives others count ((now, envelope) :: events) assemblies)
    (hne : envelope.clientId ≠ sent.clientId) (hmem : envelope.clientId ∈ others) :
    sent.Receives others count events (assemblies.observe order codec now envelope).1 := by
  refine ⟨fun hzero assembly hlookup => ?_, fun hpos => ?_, fun clientId assembly hlookup hclient
    hothers event hevent => ?_, h.card⟩
  · exact h.before hzero assembly (lookup_of_lookup_observe hne.symm hlookup)
  · obtain ⟨seenAt, hyoung⟩ := h.during hpos
    refine ⟨seenAt, hyoung.card, hyoung.mem, ?_, fun clientId assembly hlookup hnot => ?_⟩
    · obtain ⟨base, hbase, hsame⟩ := @observe_others M codec order now assemblies envelope
      rw [hsame _ hne.symm]
      rcases hbase with rfl | rfl
      · exact hyoung.lookup
      · exact hyoung.evictIfFull.lookup
    · have hclient : clientId ≠ envelope.clientId := by
        rintro rfl
        exact hnot (Finset.mem_insert_of_mem hmem)
      exact hyoung.older clientId assembly (lookup_of_lookup_observe hclient hlookup) hnot
  · have hne' : clientId ≠ envelope.clientId := by
      rintro rfl
      exact hothers hmem
    exact h.older clientId assembly (lookup_of_lookup_observe hne' hlookup) hclient hothers event
      (mem_cons_of_mem _ hevent)

theorem Receives.shouldIgnore (h : sent.Receives others count events assemblies)
    {seqId segmentId : ℕ} (hpos : 0 < count) :
    assemblies.shouldIgnoreChunk sent.clientId sent.streamId seqId segmentId = true ↔
      seqId < sent.seqId ∨ seqId = sent.seqId ∧ segmentId < count := by
  obtain ⟨seenAt, hyoung⟩ := h.during hpos
  simp [shouldIgnoreChunk, hyoung.lookup, assembly, metadata]

theorem Receives.stale (h : sent.Receives others count ((now, envelope) :: events) assemblies)
    (hpos : 0 < count) (hstale : sent.Stale count envelope) :
    assemblies.observe order codec now envelope = (assemblies, .dropped) := by
  obtain ⟨hclient, hstream, segmentId, segmentCount, messageSizeBytes, text, seqId, hevent, hseq,
    hold⟩ := hstale
  have hignore := (h.shouldIgnore hpos).mpr hold
  rw [← hclient] at hignore
  rw [observe, hevent, hseq, hstream]
  dsimp only
  rw [observeChunk, if_pos hignore]

theorem observe_chunk (sent : SegmentedMessage codec) (assemblies : Assemblies) :
    assemblies.observe order codec now (sent.chunk count cursor) =
      assemblies.observeChunk order codec now (sent.chunk count cursor) sent.streamId
        sent.metadata count (sent.chunkText count) := rfl

/-- The next chunk continues the assembly, or starts one where the client has none on the
stream. -/
theorem observe_chunk_eq (hsize : (codec.toVec sent.message).length ≤ reassembledMaxBytes)
    (hcount : count < sent.pieces.length)
    (hbefore : count = 0 → ∀ assembly, assemblies.lookup sent.clientId = some assembly →
      assembly.streamId ≠ sent.streamId)
    (hduring : 0 < count → ∃ seenAt,
      assemblies.lookup sent.clientId = some (sent.assembly count seenAt)) :
    ∃ opened : Assemblies,
      (∀ clientId assembly, clientId ≠ sent.clientId → opened.lookup clientId = some assembly →
        assemblies.lookup clientId = some assembly) ∧
      assemblies.observe order codec now (sent.chunk count cursor) =
        settle (sent.chunk count cursor) sent.streamId opened
          (sent.assembly (count + 1) now,
            if count + 1 < sent.pieces.length then .pending else .complete sent.message) := by
  have hvalid := sent.isInvalidChunk_eq_false hcount hsize
  rcases @observeChunk_cases M codec order now assemblies (sent.chunk count cursor) sent.streamId
      sent.metadata count (sent.chunkText count) with
    ⟨hignore, -⟩ | ⟨hinvalid, -⟩ | ⟨assembly, -, hstream, hassembly, heq⟩
  · exfalso
    obtain ⟨assembly, hlookup, hold⟩ := (Option.any_eq_true _ _).mp hignore
    rw [Bool.and_eq_true, beq_iff_eq] at hold
    rcases Nat.eq_zero_or_pos count with hzero | hpos
    · exact hbefore hzero assembly hlookup hold.1
    · obtain ⟨seenAt, hseen⟩ := hduring hpos
      obtain rfl := Option.some.inj (hseen.symm.trans hlookup)
      simp [SegmentedMessage.assembly] at hold
  · rw [hvalid] at hinvalid
    cases hinvalid
  · have hform : ∃ seenAt, assembly = sent.assembly count seenAt := by
      rcases Nat.eq_zero_or_pos count with rfl | hpos
      · rcases hassembly with ⟨rfl, -⟩ | hlookup
        · exact ⟨now, rfl⟩
        · exact absurd hstream (hbefore rfl assembly hlookup)
      · obtain ⟨seenAt, hseen⟩ := hduring hpos
        rcases hassembly with ⟨-, hnone⟩ | hlookup
        · exact absurd rfl (hnone _ hseen)
        · exact ⟨seenAt, Option.some.inj (hlookup.symm.trans hseen)⟩
    obtain ⟨seenAt, rfl⟩ := hform
    rw [sent.updateAssembly_chunk hcount] at heq
    exact ⟨_, fun clientId other hclient hlookup =>
      lookup_of_lookup_openAssembly hclient hlookup, heq⟩

theorem Receives.lookup (h : sent.Receives others count events assemblies) (hpos : 0 < count) :
    ∃ seenAt, assemblies.lookup sent.clientId = some (sent.assembly count seenAt) :=
  (h.during hpos).imp fun _ hyoung => hyoung.lookup

section
variable (h : sent.Receives others count ((now, sent.chunk count cursor) :: events) assemblies)
include h

variable (hsize : (codec.toVec sent.message).length ≤ reassembledMaxBytes)
include hsize

theorem Receives.chunk
    (hcount : count + 1 < sent.pieces.length) :
    (assemblies.observe order codec now (sent.chunk count cursor)).2 = .pending ∧
      sent.Receives others (count + 1) events
        (assemblies.observe order codec now (sent.chunk count cursor)).1 := by
  obtain ⟨opened, hopened, heq⟩ :=
    observe_chunk_eq hsize (Nat.lt_of_succ_lt hcount) h.before h.lookup
  rw [if_pos hcount] at heq
  rw [heq]
  have hothers : ∀ clientId assembly, clientId ≠ sent.clientId →
      (opened.insert sent.clientId (sent.assembly (count + 1) now)).lookup clientId =
        some assembly → assemblies.lookup clientId = some assembly := by
    intro clientId assembly hclient hlookup
    rw [AList.lookup_insert_ne hclient] at hlookup
    exact hopened clientId assembly hclient hlookup
  refine ⟨rfl, fun hzero => absurd hzero (Nat.succ_ne_zero count), fun _ => ⟨now, h.card,
    Finset.mem_insert_self _ _, AList.lookup_insert _, fun clientId assembly hlookup hnot => ?_⟩,
    fun clientId assembly hlookup hclient hmem event hevent => ?_, h.card⟩
  · rw [Finset.mem_insert, not_or] at hnot
    exact h.older clientId assembly (hothers clientId assembly hnot.1 hlookup) hnot.1 hnot.2 _
      mem_cons_self rfl
  · exact h.older clientId assembly (hothers clientId assembly hclient hlookup) hclient hmem event
      (mem_cons_of_mem _ hevent)

theorem Receives.last
    (hcount : count + 1 = sent.pieces.length) :
    (assemblies.observe order codec now (sent.chunk count cursor)).2 =
      .forward (sent.envelope (.clientMessage sent.message) cursor) := by
  obtain ⟨opened, -, heq⟩ := observe_chunk_eq hsize (by omega) h.before h.lookup
  rw [heq, if_neg (by omega)]
  rfl

end

theorem Sends.ne_nil (h : sent.Sends count events) : events ≠ [] := by
  cases h <;> exact cons_ne_nil _ _

/-- The message is forwarded at the last of the envelopes, and nothing of its sender before. -/
def ForwardedAtLast (order : IterationOrder ClientId ClientSegmentAssembly)
    (sent : SegmentedMessage codec) (assemblies : Assemblies)
    (events : List (ℕ × ClientEnvelope M)) : Prop :=
  ∃ cursor, (observations order codec assemblies events).getLast? =
      some (.forward (sent.envelope (.clientMessage sent.message) cursor)) ∧
    ∀ pair ∈ (events.zip (observations order codec assemblies events)).dropLast,
      pair.1.2.clientId = sent.clientId → pair.2 = .pending ∨ pair.2 = .dropped

theorem ForwardedAtLast.cons
    (hrest : ForwardedAtLast order sent (assemblies.observe order codec now envelope).1 events)
    (hne : events ≠ [])
    (hquiet : envelope.clientId = sent.clientId →
      (assemblies.observe order codec now envelope).2 = .pending ∨
        (assemblies.observe order codec now envelope).2 = .dropped) :
    ForwardedAtLast order sent assemblies ((now, envelope) :: events) := by
  obtain ⟨cursor, hlast, hpairs⟩ := hrest
  rw [ForwardedAtLast, observations_cons]
  obtain ⟨⟨now', envelope'⟩, events, rfl⟩ := exists_cons_of_ne_nil hne
  rw [observations_cons] at hlast hpairs ⊢
  refine ⟨cursor, ?_, fun pair hpair => ?_⟩
  · rw [getLast?_cons_cons, hlast]
  · rcases mem_cons.mp hpair with rfl | hpair
    · exact hquiet
    · exact hpairs pair (by rwa [zip_cons_cons])

theorem Receives.run (h : sent.Receives others count events assemblies)
    (hsize : (codec.toVec sent.message).length ≤ reassembledMaxBytes)
    (hsends : sent.Sends count events)
    (hothers : ∀ event ∈ events, event.2.clientId ≠ sent.clientId → event.2.clientId ∈ others) :
    ForwardedAtLast order sent assemblies events := by
  induction hsends generalizing assemblies with
  | last hcount =>
    have hlast := @Receives.last M codec order _ _ _ _ _ _ _ h hsize hcount
    refine ⟨_, congrArg some hlast, ?_⟩
    rintro pair ⟨⟩
  | chunk hcount hrest ih =>
    have hchunk := @Receives.chunk M codec order _ _ _ _ _ _ _ h hsize hcount
    exact (ih hchunk.2 (forall_mem_cons.mp hothers).2).cons hrest.ne_nil fun _ => .inl hchunk.1
  | other hne hrest ih =>
    have hstep := @Receives.other M codec order _ _ _ _ _ _ _ h hne (hothers _ mem_cons_self hne)
    exact (ih hstep (forall_mem_cons.mp hothers).2).cons hrest.ne_nil
      fun hclient => absurd hclient hne
  | stale hpos hstale hrest ih =>
    have hstep := @Receives.stale M codec order _ _ _ _ _ _ _ h hpos hstale
    refine .cons ?_ hrest.ne_nil fun _ => .inr (by rw [hstep])
    rw [hstep]
    refine ih ⟨h.before, h.during, fun clientId assembly hlookup hclient hmem event hevent => ?_,
      h.card⟩ (forall_mem_cons.mp hothers).2
    exact h.older clientId assembly hlookup hclient hmem event (mem_cons_of_mem _ hevent)

end SegmentedMessage

end Receiving

end DeepseekX.RemoteControl
