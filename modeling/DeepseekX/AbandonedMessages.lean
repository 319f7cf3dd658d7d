import DeepseekX.SegmentProvenance

/-!
# Messages behind an abandoned one

A client gives up a segmented message and sends a newer one. The first chunk of the newer message
meets the assembly of the older one and drops it, and itself with it.
-/

namespace DeepseekX.RemoteControl.SegmentedMessage
open BoundedStores Assemblies List

variable {M : Type} {codec : WireCodec M} {order : IterationOrder ClientId ClientSegmentAssembly}

def arrivals (sent : SegmentedMessage codec) (times : ℕ → ℕ) (cursors : ℕ → Option String)
    (first count : ℕ) : List (ℕ × ClientEnvelope M) :=
  (range' first count).map fun i => (times i, sent.chunk i (cursors i))

variable {sent : SegmentedMessage codec} {assemblies : Assemblies} {times : ℕ → ℕ}
  {cursors : ℕ → Option String} {first : ℕ}

theorem arrivals_succ (first count : ℕ) :
    sent.arrivals times cursors first (count + 1) =
      (times first, sent.chunk first (cursors first)) ::
        sent.arrivals times cursors (first + 1) count := rfl

theorem getLast?_arrivals {more : ℕ} (hmore : first + more + 1 = sent.pieces.length)
    (hsize : (codec.toVec sent.message).length ≤ reassembledMaxBytes)
    (hbefore : first = 0 → ∀ assembly, assemblies.lookup sent.clientId = some assembly →
      assembly.streamId ≠ sent.streamId)
    (hduring : 0 < first → ∃ seenAt,
      assemblies.lookup sent.clientId = some (sent.assembly first seenAt)) :
    (observations order codec assemblies (sent.arrivals times cursors first (more + 1))).getLast? =
      some (.forward (sent.envelope (.clientMessage sent.message) (cursors (first + more)))) := by
  induction more generalizing first assemblies with
  | zero =>
    obtain ⟨opened, -, heq⟩ := @observe_chunk_eq M codec order sent (times first) first
      (cursors first) assemblies hsize (by omega) hbefore hduring
    rw [if_neg (by omega)] at heq
    rw [arrivals_succ, observations_cons, heq]
    rfl
  | succ more ih =>
    obtain ⟨opened, -, heq⟩ := @observe_chunk_eq M codec order sent (times first) first
      (cursors first) assemblies hsize (by omega) hbefore hduring
    rw [if_pos (by omega)] at heq
    have hrest := @ih (opened.insert sent.clientId (sent.assembly (first + 1) (times first)))
      (first + 1) (by omega) nofun fun _ => ⟨times first, AList.lookup_insert _⟩
    rw [arrivals_succ, observations_cons, getLast?_cons, heq, settle]
    dsimp only
    rw [show (sent.chunk first (cursors first)).clientId = sent.clientId from rfl, hrest,
      Option.getD_some, Nat.add_right_comm, Nat.add_assoc]

theorem lookup_removeAssembly_self {clientId : ClientId} {streamId : StreamId}
    (h : ∀ assembly, assemblies.lookup clientId = some assembly → assembly.streamId = streamId) :
    (assemblies.removeAssembly clientId streamId).lookup clientId = none := by
  rw [removeAssembly]
  cases hlookup : assemblies.lookup clientId with
  | none => exact hlookup
  | some assembly =>
    rw [Option.any_some, h assembly hlookup, beq_self_eq_true, if_pos rfl, AList.lookup_erase]

/-- Where the client has an older assembly on the stream, or none and the chunk is not the first
one, the chunk is dropped and no assembly is left. -/
theorem observe_lost {now segmentId : ℕ} {cursor : Option String}
    (hold : ∀ assembly, assemblies.lookup sent.clientId = some assembly →
      assembly.streamId = sent.streamId ∧ assembly.metadata.seqId < sent.metadata.seqId)
    (hnone : assemblies.lookup sent.clientId = none → 0 < segmentId) :
    (assemblies.observe order codec now (sent.chunk segmentId cursor)).2 = .dropped ∧
      (assemblies.observe order codec now (sent.chunk segmentId cursor)).1.lookup
        sent.clientId = none := by
  rw [observe_chunk]
  rcases @observeChunk_cases M codec order now assemblies (sent.chunk segmentId cursor)
      sent.streamId sent.metadata segmentId (sent.chunkText segmentId) with
    ⟨hignore, -⟩ | ⟨-, heq⟩ | ⟨assembly, -, hstream, hassembly, heq⟩
  · obtain ⟨assembly, hlookup, hstale⟩ := (Option.any_eq_true _ _).mp hignore
    have hseq := (hold assembly hlookup).2
    rw [Bool.and_eq_true, Bool.or_eq_true, Bool.and_eq_true, decide_eq_true_eq,
      beq_iff_eq (b := assembly.metadata.seqId)] at hstale
    omega
  · rw [heq]
    exact ⟨rfl, lookup_removeAssembly_self fun assembly h => (hold assembly h).1⟩
  · have hdrop : updateAssembly codec now assembly sent.metadata segmentId
        (sent.chunkText segmentId) = (assembly, .drop) := by
      rcases hassembly with ⟨rfl, hother⟩ | hlookup
      · have hempty : assemblies.lookup sent.clientId = none := by
          rw [Option.eq_none_iff_forall_ne_some]
          exact fun old hlookup => hother old hlookup (hold old hlookup).1
        have hpos := hnone hempty
        rw [updateAssembly, if_neg (lt_irrefl _), if_neg (not_not.mpr rfl),
          if_neg (Nat.not_lt_zero _), if_pos hpos.ne']
      · have hseq := (hold assembly hlookup).2
        have hne : assembly.metadata ≠ sent.metadata := by
          intro hsame
          rw [hsame] at hseq
          exact lt_irrefl _ hseq
        rw [updateAssembly, if_neg hseq.not_gt, if_pos hne]
    rw [heq, hdrop]
    refine ⟨rfl, lookup_removeAssembly_self fun other hlookup => ?_⟩
    obtain rfl := Option.some.inj ((AList.lookup_insert _).symm.trans hlookup)
    exact hstream

theorem dropped_of_mem_observations (kept : ℕ → Assemblies → Prop)
    (hstep : ∀ i assemblies, kept i assemblies →
      (assemblies.observe order codec (times i) (sent.chunk i (cursors i))).2 = .dropped ∧
        kept (i + 1) (assemblies.observe order codec (times i) (sent.chunk i (cursors i))).1)
    {count : ℕ} (h : kept first assemblies) {observation : ClientSegmentObservation M}
    (hmem : observation ∈
      observations order codec assemblies (sent.arrivals times cursors first count)) :
    observation = .dropped := by
  induction count generalizing first assemblies with
  | zero => cases hmem
  | succ count ih =>
    obtain ⟨hdropped, hnext⟩ := hstep first assemblies h
    rw [arrivals_succ, observations_cons, mem_cons, hdropped] at hmem
    exact hmem.elim id (ih hnext)

/-- A message behind an abandoned older one is forwarded at its last chunk exactly if the older
one is of another stream, and the message is not too large. -/
theorem newer_message_forwarded_iff (order : IterationOrder ClientId ClientSegmentAssembly)
    (sent : SegmentedMessage codec) (assemblies : Assemblies) (stale : ClientSegmentAssembly)
    (times : ℕ → ℕ) (cursors : ℕ → Option String)
    (hstale : assemblies.lookup sent.clientId = some stale)
    (hseq : stale.metadata.seqId < sent.seqId) :
    (observations order codec assemblies
        (sent.arrivals times cursors 0 sent.pieces.length)).getLast? =
      some (.forward (sent.envelope (.clientMessage sent.message)
        (cursors (sent.pieces.length - 1)))) ↔
    stale.streamId ≠ sent.streamId ∧ (codec.toVec sent.message).length ≤ reassembledMaxBytes := by
  constructor
  · intro hlast
    have hforward := mem_of_getLast? hlast
    constructor
    · intro hstream
      have hdropped := dropped_of_mem_observations (fun i assemblies =>
        (∀ assembly, assemblies.lookup sent.clientId = some assembly →
          assembly.streamId = sent.streamId ∧ assembly.metadata.seqId < sent.metadata.seqId) ∧
        (assemblies.lookup sent.clientId = none → 0 < i)) ?_ ?_ hforward
      · cases hdropped
      · intro i assemblies hkept
        obtain ⟨hdropped, hnone⟩ := @observe_lost M codec order sent assemblies (times i) i
          (cursors i) hkept.1 hkept.2
        refine ⟨hdropped, fun assembly hlookup => ?_, fun _ => Nat.succ_pos i⟩
        rw [hnone] at hlookup
        cases hlookup
      · refine ⟨fun assembly hlookup => ?_, fun hnone => ?_⟩
        · rw [hstale] at hlookup
          cases hlookup
          exact ⟨hstream, hseq⟩
        · rw [hstale] at hnone
          cases hnone
    · by_contra hsize
      have hdropped := dropped_of_mem_observations (fun _ _ => True)
        (fun i assemblies _ => ⟨observe_oversized (Nat.not_le.mp hsize), trivial⟩) trivial hforward
      cases hdropped
  · rintro ⟨hstream, hsize⟩
    have hpos := length_pos_iff.mpr sent.nonempty
    have hlast := @getLast?_arrivals M codec order sent assemblies times cursors 0
      (sent.pieces.length - 1) (by omega) hsize ?_ nofun
    · rwa [Nat.sub_add_cancel hpos, Nat.zero_add] at hlast
    · intro _ assembly hlookup
      rw [hstale] at hlookup
      cases hlookup
      exact hstream

theorem newer_message_on_other_stream :
    (observations (.listed _ _) plainCodec
        (AList.insert ⟨"client-1"⟩ ⟨⟨"stream-2"⟩, ⟨6, 2, 3⟩, [1], 1, 0⟩ ∅)
        (twoPieces.arrivals id (fun _ => none) 0 2)).getLast? =
      some (.forward (twoPieces.envelope (.clientMessage [1, 2, 3]) none)) :=
  (newer_message_forwarded_iff (.listed _ _) twoPieces _ _ id (fun _ => none)
    (AList.lookup_insert _) (by decide)).mpr ⟨by decide, by decide⟩

/-- Behind the first chunk of an older message on its stream, a message is lost. -/
theorem newer_message_lost :
    observations (.listed _ _) plainCodec ∅ ((1, { twoPieces with seqId := 6 }.chunk 0 none) ::
        twoPieces.arrivals (· + 2) (fun _ => none) 0 2) = [.pending, .dropped, .dropped] := by
  decide +kernel

end DeepseekX.RemoteControl.SegmentedMessage
