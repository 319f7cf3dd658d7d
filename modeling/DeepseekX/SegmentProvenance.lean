import Mathlib.Data.String.Basic
import DeepseekX.SegmentedMessages

/-!
# Where a reassembled message comes from

Whatever comes in, a message is forwarded from chunks only if they are the pieces of one
sender, stream and sequence id, in order and complete.
-/

namespace DeepseekX.RemoteControl
open BoundedStores List

variable {M : Type} {codec : WireCodec M} {order : IterationOrder ClientId ClientSegmentAssembly}

section Provenance

/-- The chunks of one sender, stream and message, in order, and the bytes they carry. -/
inductive Assembles (codec : WireCodec M) (clientId : ClientId) (streamId : StreamId)
    (metadata : ClientSegmentMetadata) : List (ClientEnvelope M) → Bytes → Prop
  | nil : Assembles codec clientId streamId metadata [] []
  | concat {chunks : List (ClientEnvelope M)} {raw bytes : Bytes} {envelope : ClientEnvelope M}
      {text : String} (hchunks : Assembles codec clientId streamId metadata chunks raw)
      (hclient : envelope.clientId = clientId) (hstream : envelope.streamId = some streamId)
      (hseq : envelope.seqId = some metadata.seqId)
      (hevent : envelope.event = .clientMessageChunk chunks.length metadata.segmentCount
        metadata.messageSizeBytes text)
      (hbytes : codec.decodeBase64 text = some bytes) :
      Assembles codec clientId streamId metadata (chunks ++ [envelope]) (raw ++ bytes)

inductive Action (M : Type) where
  | observe (now : ℕ) (envelope : ClientEnvelope M)
  | invalidateStream (clientId : ClientId) (streamId : StreamId)
  | invalidateClient (clientId : ClientId)

def perform (order : IterationOrder ClientId ClientSegmentAssembly) (codec : WireCodec M)
    (assemblies : Assemblies) : Action M → Assemblies
  | .observe now envelope => (assemblies.observe order codec now envelope).1
  | .invalidateStream clientId streamId => assemblies.invalidateStream clientId streamId
  | .invalidateClient clientId => assemblies.invalidateClient clientId

def received (actions : List (Action M)) : List (ClientEnvelope M) :=
  actions.filterMap fun
    | .observe _ envelope => some envelope
    | _ => none

/-- Every assembly is built of chunks that have come in. -/
def Built (codec : WireCodec M) (history : List (ClientEnvelope M)) (assemblies : Assemblies) :
    Prop :=
  ∀ clientId assembly, assemblies.lookup clientId = some assembly →
    ∃ chunks, chunks.Sublist history ∧ chunks.length = assembly.nextSegmentId ∧
      Assembles codec clientId assembly.streamId assembly.metadata chunks assembly.raw

variable {history : List (ClientEnvelope M)} {assemblies : Assemblies} {now : ℕ}
  {envelope forwarded : ClientEnvelope M} {streamId : StreamId} {metadata : ClientSegmentMetadata}
  {segmentId : ℕ} {text : String} {assembly : ClientSegmentAssembly}

variable (h : Built codec history assemblies)
include h

theorem Built.mono (envelope : ClientEnvelope M) :
    Built codec (history ++ [envelope]) assemblies := by
  intro clientId assembly hlookup
  obtain ⟨chunks, hchunks, hlength, hassembles⟩ := h clientId assembly hlookup
  exact ⟨chunks, hchunks.trans (sublist_append_left _ _), hlength, hassembles⟩

theorem Built.of_lookup {assemblies' : Assemblies}
    (hlookup : ∀ clientId assembly, assemblies'.lookup clientId = some assembly →
      assemblies.lookup clientId = some assembly) : Built codec history assemblies' :=
  fun clientId assembly hassembly => h clientId assembly (hlookup clientId assembly hassembly)

theorem Built.removeAssembly (clientId : ClientId) (streamId : StreamId) :
    Built codec history (assemblies.removeAssembly clientId streamId) :=
  h.of_lookup fun _ _ hassembly => lookup_of_lookup_removeAssembly hassembly

omit h

/-- A chunk is taken up with its bytes. -/
structure TakesUp (codec : WireCodec M) (now : ℕ) (assembly : ClientSegmentAssembly)
    (metadata : ClientSegmentMetadata) (segmentId : ℕ) (text : String) (bytes : Bytes)
    (outcome : ClientSegmentAssembly × AssemblyUpdate M) : Prop where
  same : assembly.metadata = metadata
  next : segmentId = assembly.nextSegmentId
  decode : codec.decodeBase64 text = some bytes
  result : outcome.1 = { assembly with
    lastChunkSeenAt := now
    raw := assembly.raw ++ bytes
    nextSegmentId := assembly.nextSegmentId + 1 }
  update : outcome.2 = .pending ∨ ∃ message, outcome.2 = .complete message ∧
    metadata.segmentCount ≤ assembly.nextSegmentId + 1 ∧
    (assembly.raw ++ bytes).length = metadata.messageSizeBytes ∧
    codec.fromSlice (assembly.raw ++ bytes) = some message

variable {result : ClientSegmentAssembly × AssemblyUpdate M}

theorem acceptChunk_cases (h : acceptChunk codec now assembly assembly.metadata.segmentCount
      assembly.metadata.messageSizeBytes text = result) :
    (result.1.streamId = assembly.streamId ∧ result.2 = .drop) ∨
    ∃ bytes, TakesUp codec now assembly assembly.metadata assembly.nextSegmentId text bytes
      result := by
  subst h
  unfold acceptChunk WireCodec.decodeSlice
  cases hdecode : codec.decodeBase64 text with
  | none => exact .inl ⟨rfl, rfl⟩
  | some bytes =>
    dsimp only
    split
    · next hslice =>
      split at hslice
      · cases hslice
      · exact .inl ⟨rfl, rfl⟩
    · next decoded hslice =>
      split at hslice
      · cases hslice
        split
        · exact .inr ⟨_, rfl, rfl, hdecode, rfl, .inl rfl⟩
        · next hlast =>
          split
          · exact .inl ⟨rfl, rfl⟩
          · next hsize =>
            split
            · next message hmessage =>
              exact .inr ⟨_, rfl, rfl, hdecode, rfl, .inr ⟨message, rfl, Nat.not_lt.mp hlast,
                not_not.mp hsize, hmessage⟩⟩
            · exact .inl ⟨rfl, rfl⟩
      · cases hslice

theorem updateAssembly_cases
    (h : updateAssembly codec now assembly metadata segmentId text = result) :
    (result.1.streamId = assembly.streamId ∧ result.2 = .drop) ∨
    (result.1 = assembly ∧ (result.2 = .ignore ∨ result.2 = .pending)) ∨
    ∃ bytes, TakesUp codec now assembly metadata segmentId text bytes result := by
  subst h
  unfold updateAssembly
  split
  · exact .inr (.inl ⟨rfl, .inl rfl⟩)
  · split
    · exact .inl ⟨rfl, rfl⟩
    · next hmetadata =>
      split
      · exact .inr (.inl ⟨rfl, .inr rfl⟩)
      · split
        · exact .inl ⟨rfl, rfl⟩
        · next hsegment =>
          rw [not_not] at hmetadata hsegment
          subst hmetadata hsegment
          exact (acceptChunk_cases rfl).imp_right .inr

theorem settle_drop (hstream : assembly.streamId = streamId) :
    Assemblies.removeAssembly (assemblies.insert envelope.clientId assembly) envelope.clientId
      streamId = (assemblies.insert envelope.clientId assembly).erase envelope.clientId := by
  rw [Assemblies.removeAssembly, AList.lookup_insert, if_pos]
  rw [Option.any_some, hstream, beq_self_eq_true]

variable {clientId : ClientId} {chunks : List (ClientEnvelope M)}

theorem Built.insert (h : Built codec history assemblies) (hchunks : chunks.Sublist history)
    (hlength : chunks.length = assembly.nextSegmentId)
    (hassembles : Assembles codec clientId assembly.streamId assembly.metadata chunks
      assembly.raw) : Built codec history (assemblies.insert clientId assembly) := by
  intro other found hlookup
  by_cases heq : other = clientId
  · subst heq
    rw [AList.lookup_insert] at hlookup
    cases hlookup
    exact ⟨chunks, hchunks, hlength, hassembles⟩
  · rw [AList.lookup_insert_ne heq] at hlookup
    exact h other found hlookup

/-- A message that is forwarded from chunks is what they carry. -/
def FromPieces (codec : WireCodec M) (history : List (ClientEnvelope M))
    (envelope forwarded : ClientEnvelope M) : Prop :=
  ∃ streamId metadata chunks raw message, (chunks ++ [envelope]).Sublist history ∧
    Assembles codec envelope.clientId streamId metadata (chunks ++ [envelope]) raw ∧
    (chunks ++ [envelope]).length = metadata.segmentCount ∧
    raw.length = metadata.messageSizeBytes ∧ codec.fromSlice raw = some message ∧
    forwarded = { envelope with event := .clientMessage message }

theorem settle_built {opened : Assemblies} (hopened : Built codec history opened)
    (hchunks : chunks.Sublist history) (hlength : chunks.length = assembly.nextSegmentId)
    (hassembles : Assembles codec envelope.clientId assembly.streamId assembly.metadata chunks
      assembly.raw) (hstream : assembly.streamId = streamId)
    (hstreamId : envelope.streamId = some streamId) (hseq : envelope.seqId = some metadata.seqId)
    (hevent : envelope.event = .clientMessageChunk segmentId metadata.segmentCount
      metadata.messageSizeBytes text) (hsegment : segmentId < metadata.segmentCount) :
    Built codec (history ++ [envelope]) (settle envelope streamId opened
        (updateAssembly codec now assembly metadata segmentId text)).1 ∧
      ∀ forwarded, (settle envelope streamId opened
          (updateAssembly codec now assembly metadata segmentId text)).2 = .forward forwarded →
        FromPieces codec (history ++ [envelope]) envelope forwarded := by
  have hopened' := hopened.mono envelope
  have hchunks' := hchunks.trans (sublist_append_left history [envelope])
  generalize houtcome : updateAssembly codec now assembly metadata segmentId text = result
  obtain ⟨assembly', update⟩ := result
  rcases updateAssembly_cases houtcome with ⟨hsame, hdrop⟩ | ⟨hsame, hquiet⟩ | ⟨bytes, htakes⟩
  · cases hdrop
    refine ⟨?_, fun forwarded hforward => by cases hforward⟩
    rw [settle, settle_drop (hsame.trans hstream)]
    refine hopened'.of_lookup fun other found hlookup => ?_
    obtain ⟨hne, hlookup⟩ := lookup_of_lookup_erase hlookup
    rwa [AList.lookup_insert_ne hne] at hlookup
  · cases hsame
    have hinsert := hopened'.insert hchunks' hlength hassembles
    rcases hquiet with hquiet | hquiet <;> cases hquiet <;>
      exact ⟨hinsert, fun forwarded hforward => by cases hforward⟩
  · obtain ⟨rfl, rfl, hdecode, hresult, hupdate⟩ := htakes
    subst hresult
    rw [← hlength] at hevent
    have hassembles' := Assembles.concat hassembles rfl (hstream ▸ hstreamId) hseq hevent hdecode
    have hsublist : (chunks ++ [envelope]).Sublist (history ++ [envelope]) :=
      hchunks.append (List.Sublist.refl _)
    have hlength' : (chunks ++ [envelope]).length = assembly.nextSegmentId + 1 := by
      rw [length_append, hlength, length_singleton]
    have hinsert := @Built.insert M codec _ _ { assembly with
      lastChunkSeenAt := now
      raw := assembly.raw ++ bytes
      nextSegmentId := assembly.nextSegmentId + 1 } _ _ hopened' hsublist hlength' hassembles'
    rcases hupdate with rfl | ⟨message, rfl, hcount, hsize, hmessage⟩
    · exact ⟨hinsert, fun forwarded hforward => by cases hforward⟩
    · refine ⟨hinsert.removeAssembly _ _, fun forwarded hforward => ?_⟩
      cases hforward
      exact ⟨_, _, chunks, _, message, hsublist, hassembles', by omega, hsize, hmessage, rfl⟩

variable (h : Built codec history assemblies)
include h

theorem Built.exists_chunks
    (hassembly : assembly = ⟨streamId, metadata, [], 0, now⟩ ∨
      assemblies.lookup clientId = some assembly) :
    ∃ chunks, chunks.Sublist history ∧ chunks.length = assembly.nextSegmentId ∧
      Assembles codec clientId assembly.streamId assembly.metadata chunks assembly.raw := by
  rcases hassembly with rfl | hlookup
  · exact ⟨[], nil_sublist _, rfl, .nil⟩
  · exact h clientId assembly hlookup

theorem Built.openAssembly (now : ℕ) (clientId : ClientId) (streamId : StreamId)
    (metadata : ClientSegmentMetadata) :
    Built codec history (assemblies.openAssembly order now clientId streamId metadata) := by
  intro other found hfound
  by_cases heq : other = clientId
  · subst heq
    obtain ⟨assembly, hlookup, -, hassembly⟩ := @lookup_openAssembly order now assemblies other
      streamId metadata
    rw [hlookup] at hfound
    cases hfound
    exact h.exists_chunks (hassembly.imp_left And.left)
  · exact h other found (lookup_of_lookup_openAssembly heq hfound)

/-- One envelope: the assemblies stay built, and a message comes from its pieces. -/
theorem observe_built (now : ℕ) (envelope : ClientEnvelope M) :
    Built codec (history ++ [envelope]) (assemblies.observe order codec now envelope).1 ∧
      ∀ forwarded, (assemblies.observe order codec now envelope).2 = .forward forwarded →
        envelope.event.isChunk = false ∧ forwarded = envelope ∨
          FromPieces codec (history ++ [envelope]) envelope forwarded := by
  rcases @observe_cases M codec order now assemblies envelope with
    ⟨seqId, streamId, segmentId, segmentCount, messageSizeBytes, text, hevent, hseq, hstreamId,
      heq⟩ | ⟨hsame, hquiet⟩
  · rw [heq]
    rcases @observeChunk_cases M codec order now assemblies envelope streamId
        ⟨seqId, segmentCount, messageSizeBytes⟩ segmentId text with
      ⟨-, heq⟩ | ⟨-, heq⟩ | ⟨assembly, hvalid, hstream, hassembly, heq⟩
    · rw [heq]
      exact ⟨h.mono envelope, fun forwarded hforward => by cases hforward⟩
    · rw [heq]
      exact ⟨(h.mono envelope).removeAssembly _ _, fun forwarded hforward => by cases hforward⟩
    · obtain ⟨chunks, hchunks, hlength, hassembles⟩ := h.exists_chunks (hassembly.imp_left And.left)
      have hsegment : segmentId <
          (ClientSegmentMetadata.mk seqId segmentCount messageSizeBytes).segmentCount := by
        simp only [Assemblies.isInvalidChunk, Bool.or_eq_false_iff] at hvalid
        exact Nat.not_le.mp (of_decide_eq_false hvalid.1.1.1.2)
      obtain ⟨hbuilt, hforward⟩ := settle_built (h.openAssembly _ _ _ _) hchunks hlength
        hassembles hstream hstreamId hseq hevent hsegment
      rw [heq]
      exact ⟨hbuilt, fun forwarded hforwarded => .inr (hforward forwarded hforwarded)⟩
  · rw [hsame]
    refine ⟨h.mono envelope, fun forwarded hforward => .inl ?_⟩
    rcases hquiet with hdropped | ⟨hchunk, hforwarded⟩
    · rw [hdropped] at hforward
      cases hforward
    · rw [hforwarded] at hforward
      cases hforward
      exact ⟨hchunk, rfl⟩

theorem perform_built (action : Action M) :
    Built codec (history ++ received [action]) (perform order codec assemblies action) := by
  cases action with
  | observe now envelope => exact (observe_built h now envelope).1
  | invalidateStream clientId streamId =>
    rw [show received [.invalidateStream clientId streamId] = ([] : List (ClientEnvelope M))
      from rfl, append_nil]
    exact h.removeAssembly clientId streamId
  | invalidateClient clientId =>
    rw [show received [Action.invalidateClient clientId] = ([] : List (ClientEnvelope M)) from rfl,
      append_nil]
    exact h.of_lookup fun _ _ hlookup => (lookup_of_lookup_erase hlookup).2

omit h

theorem run_built (order : IterationOrder ClientId ClientSegmentAssembly) (codec : WireCodec M)
    (actions : List (Action M)) :
    Built codec (received actions) (actions.foldl (perform order codec) ∅) := by
  induction actions using reverseRecOn with
  | nil => exact fun clientId assembly hlookup => by cases hlookup
  | append_singleton actions action ih =>
    rw [foldl_append, received, filterMap_append]
    exact perform_built ih action

end Provenance

/-- A segmented message of at most the largest size is forwarded at its last chunk, as it
was sent and not before; and no message is forwarded that is not made of the pieces of one
sender, stream and sequence id. -/
theorem segmented_message_forwarded (order : IterationOrder ClientId ClientSegmentAssembly)
    (codec : WireCodec M) :
    (∀ (sent : SegmentedMessage codec) (assemblies : Assemblies) (others : Finset ClientId)
        (events : List (ℕ × ClientEnvelope M)),
      (codec.toVec sent.message).length ≤ reassembledMaxBytes →
      (∀ assembly, assemblies.lookup sent.clientId = some assembly →
        assembly.streamId ≠ sent.streamId) →
      sent.Sends 0 events → others.card < 127 →
      (∀ event ∈ events, event.2.clientId ≠ sent.clientId → event.2.clientId ∈ others) →
      (∀ clientId assembly, assemblies.lookup clientId = some assembly →
        clientId ≠ sent.clientId → clientId ∉ others → ∀ event ∈ events,
          event.2.clientId = sent.clientId → assembly.lastChunkSeenAt < event.1) →
      ∃ cursor, (observations order codec assemblies events).getLast? =
          some (.forward (sent.envelope (.clientMessage sent.message) cursor)) ∧
        ∀ pair ∈ (events.zip (observations order codec assemblies events)).dropLast,
          pair.1.2.clientId = sent.clientId → pair.2 = .pending ∨ pair.2 = .dropped) ∧
    ∀ (actions : List (Action M)) (now : ℕ) (envelope forwarded : ClientEnvelope M),
      ((actions.foldl (perform order codec) ∅ : Assemblies).observe order codec now envelope).2 =
          .forward forwarded →
        envelope.event.isChunk = false ∧ forwarded = envelope ∨
          FromPieces codec (received actions ++ [envelope]) envelope forwarded := by
  constructor
  · intro sent assemblies others events hsize hstream hsends hcard hothers holder
    have hreceives : sent.Receives others 0 events assemblies := by
      refine ⟨fun _ => hstream, fun hpos => absurd hpos (lt_irrefl 0), holder, ?_⟩
      have hinsert := Finset.card_insert_le sent.clientId others
      rw [segmentAssemblyMaxCount]
      omega
    exact hreceives.run hsize hsends hothers
  · intro actions now envelope forwarded hforward
    exact (observe_built (run_built order codec actions) now envelope).2 forwarded hforward

/-- One character for each byte, and bytes as messages. -/
def plainCodec : WireCodec Bytes where
  encodeBase64 bytes := String.ofList (bytes.map fun byte => Char.ofNat byte.toNat)
  decodeBase64 text := text.toList.mapM fun c =>
    if c.toNat < 256 then some (UInt8.ofNat c.toNat) else none
  decodedLenEstimate length := length
  toVec bytes := bytes
  fromSlice bytes := some bytes
  decode_encode bytes := by
    rw [String.toList_ofList]
    induction bytes with
    | nil => rfl
    | cons byte bytes ih =>
      have hchars : ∀ n < 256, (Char.ofNat n).toNat = n := by
        decide +kernel
      have hbyte : (Char.ofNat byte.toNat).toNat = byte.toNat := hchars _ byte.toNat_lt
      rw [map_cons, mapM_cons, ih, hbyte, if_pos byte.toNat_lt, UInt8.ofNat_toNat]
      rfl
  encode_ne_empty bytes hne heq := by
    rw [← String.toList_inj, String.toList_ofList] at heq
    exact hne (map_eq_nil_iff.mp heq)
  length_le_estimate text bytes hdecode := by
    have hsize (chars : List Char) (bytes : Bytes) (h : (chars.mapM fun c =>
        if c.toNat < 256 then some (UInt8.ofNat c.toNat) else none) = some bytes) :
        bytes.length ≤ (String.ofList chars).utf8ByteSize := by
      rw [String.utf8ByteSize_ofList]
      induction chars generalizing bytes with
      | nil =>
        cases h
        exact Nat.zero_le _
      | cons c chars ih =>
        rw [mapM_cons] at h
        obtain ⟨byte, -, hrest⟩ := Option.bind_eq_some_iff.mp h
        obtain ⟨rest, hmore, hbytes⟩ := Option.bind_eq_some_iff.mp hrest
        cases hbytes
        have hle := ih rest hmore
        have hpos := Char.utf8Size_pos c
        rw [String.utf8Len_cons, length_cons]
        omega
    rw [← String.ofList_toList (s := text)]
    exact hsize text.toList bytes hdecode
  fromSlice_toVec _ := rfl

def wholeMessage (message : Bytes) (h : message ≠ []) : SegmentedMessage plainCodec where
  clientId := ⟨"client-1"⟩
  streamId := ⟨"stream-1"⟩
  seqId := 7
  message := message
  pieces := [message]
  flatten := flatten_singleton
  nonempty := cons_ne_nil _ _
  piece_ne_nil piece hpiece := by
    rw [mem_singleton.mp hpiece]
    exact h
  length_le := Nat.le_add_left 1 1023

def twoPieces : SegmentedMessage plainCodec where
  clientId := ⟨"client-1"⟩
  streamId := ⟨"stream-1"⟩
  seqId := 7
  message := [1, 2, 3]
  pieces := [[1], [2, 3]]
  flatten := rfl
  nonempty := cons_ne_nil _ _
  piece_ne_nil := by decide
  length_le := by decide

def strayPing : ClientEnvelope Bytes := ⟨.ping, ⟨"client-2"⟩, none, none, none⟩

/-- Two pieces, the first one twice, and an envelope of another client between them. -/
theorem twoPieces_forwarded :
    ∃ cursor, (observations (.listed _ _) plainCodec ∅ [(1, twoPieces.chunk 0 none),
        (2, strayPing), (2, twoPieces.chunk 0 none), (3, twoPieces.chunk 1 none)]).getLast? =
      some (.forward (twoPieces.envelope (.clientMessage [1, 2, 3]) cursor)) := by
  obtain ⟨hforwards, -⟩ := segmented_message_forwarded (.listed _ _) plainCodec
  have hstale : twoPieces.Stale 1 (twoPieces.chunk 0 none) :=
    ⟨rfl, rfl, 0, 2, 3, _, 7, rfl, rfl, .inr ⟨rfl, Nat.one_pos⟩⟩
  have hsends : twoPieces.Sends 0 [(1, twoPieces.chunk 0 none), (2, strayPing),
      (2, twoPieces.chunk 0 none), (3, twoPieces.chunk 1 none)] :=
    .chunk (by decide) (.other (by decide) (.stale Nat.one_pos hstale (.last rfl)))
  obtain ⟨cursor, hlast, -⟩ := hforwards twoPieces ∅ {⟨"client-2"⟩} _ (by decide)
    (fun assembly hlookup => by cases hlookup) hsends (by decide) (by decide)
    (fun clientId assembly hlookup => by cases hlookup)
  exact ⟨cursor, hlast⟩

theorem observe_oversized {sent : SegmentedMessage codec} {assemblies : Assemblies}
    {now segmentId : ℕ} {cursor : Option String}
    (hsize : reassembledMaxBytes < (codec.toVec sent.message).length) :
    (assemblies.observe order codec now (sent.chunk segmentId cursor)).2 = .dropped := by
  rw [SegmentedMessage.observe_chunk]
  rcases @observeChunk_cases M codec order now assemblies (sent.chunk segmentId cursor)
      sent.streamId sent.metadata segmentId (sent.chunkText segmentId) with
    ⟨-, heq⟩ | ⟨-, heq⟩ | ⟨assembly, hvalid, -⟩
  · rw [heq]
  · rw [heq]
  · simp only [Assemblies.isInvalidChunk, Bool.or_eq_false_iff] at hvalid
    exact absurd hsize (of_decide_eq_false hvalid.1.2)

/-- As many clients as there is room for besides two have sent one piece each, all at the
same instant. -/
def leftBehind : Assemblies where
  entries := (range 127).map fun n => ⟨⟨String.ofList (replicate n 'c')⟩, twoPieces.assembly 1 1⟩
  nodupKeys := by
    rw [NodupKeys, keys, map_map]
    refine nodup_range.map fun m n h => ?_
    have heq : replicate m 'c' = replicate n 'c' :=
      String.ofList_injective (congrArg ClientId.value h)
    exact replicate_left_injective 'c' heq

/-- The pieces of one client, and between them the first one of another client. -/
def interruptedPieces : List (ℕ × ClientEnvelope Bytes) :=
  [(1, twoPieces.chunk 0 none), (2, { twoPieces.chunk 0 none with clientId := ⟨"client-2"⟩ }),
    (3, twoPieces.chunk 1 none)]

/-- A message above the largest size is dropped, a chunk that is repeated behind the last
one brings its message again, and of assemblies that were touched at the same instant any
one goes when there is no room. -/
theorem oversized_dropped_and_repeated_forwarded_twice :
    (∃ (message : Bytes) (h : message ≠ []),
      (wholeMessage message h).Sends 0 [(1, (wholeMessage message h).chunk 0 none)] ∧
        observations (.listed _ _) plainCodec ∅ [(1, (wholeMessage message h).chunk 0 none)] =
          [.dropped]) ∧
      observations (.listed _ _) plainCodec ∅
          [(1, (wholeMessage [5] (by decide)).chunk 0 none),
            (2, (wholeMessage [5] (by decide)).chunk 0 none)] =
        [.forward ((wholeMessage [5] (by decide)).envelope (.clientMessage [5]) none),
          .forward ((wholeMessage [5] (by decide)).envelope (.clientMessage [5]) none)] ∧
      twoPieces.Sends 0 interruptedPieces ∧
      observations (.listed _ _) plainCodec leftBehind interruptedPieces =
        [.pending, .pending, .dropped] := by
  obtain ⟨message, hlength⟩ : ∃ message : Bytes, message.length = reassembledMaxBytes + 1 :=
    ⟨replicate _ 0, length_replicate⟩
  have hne : message ≠ [] := by
    rintro rfl
    cases hlength
  refine ⟨⟨message, hne, .last rfl, ?_⟩, by decide +kernel,
    .chunk (by decide) (.other (by decide) (.last rfl)), by decide +kernel⟩
  have hsize : reassembledMaxBytes < (plainCodec.toVec (wholeMessage message hne).message).length :=
    lt_of_lt_of_eq (Nat.lt_succ_self _) hlength.symm
  rw [observations_cons, observe_oversized hsize]
  rfl

end DeepseekX.RemoteControl
