import DeepseekX.SurvivingTurns

/-!
# The scan of a thread's rollout

A scan that has found no replacement history goes on. Over a whole turn it either takes one
turn off the pending rollbacks or finalises the turn's segment; it is settled as soon as a
turn that survives replaces the history. Where the rollback markers from there on cut at turns,
what is replayed are the pieces of the log.
-/

namespace DeepseekX.RolloutReplays
open ContextHistory GuardedRuns ResponseItems UndoLogs List Option

variable {reading : TextReading} {scan : Scan} {newer : List RolloutItem}

section ScanSteps

theorem scanItems_append (front back : List RolloutItem) :
    scanItems reading scan newer (front ++ back) =
      scanItems reading (scanItems reading scan newer back) (back ++ newer) front := by
  induction front with
  | nil => rfl
  | cons item front ih => rw [cons_append, scanItems, scanItems, ih, append_assoc]

theorem scanItems_of_settled (h : scan.settled = true) (items : List RolloutItem) :
    scanItems reading scan newer items = scan := by
  induction items with
  | nil => rfl
  | cons item items ih => rw [scanItems, ih, if_pos h]

theorem settled_eq_false (h : scan.baseReplacementHistory = none) : scan.settled = false := by
  rw [Scan.settled, h]
  rfl

theorem scanItems_cons {item : RolloutItem} {items : List RolloutItem} {reached : Scan}
    (h : scanItems reading scan newer items = reached)
    (hbase : reached.baseReplacementHistory = none) :
    scanItems reading scan newer (item :: items) =
      scanItem reading reached item (items ++ newer) := by
  rw [scanItems, h]
  exact if_neg (by rw [settled_eq_false hbase]; decide)

theorem turnIdsAreCompatible_self (turnId : String) :
    turnIdsAreCompatible (some turnId) (some turnId) = true := by
  rw [turnIdsAreCompatible, all_some, all_some, beq_self_eq_true]

end ScanSteps

section ScanOfTurn
variable {turnId : String}

/-- What the segment of a turn holds after the scan of some of the turn's items. -/
structure SegmentOf (turnId : String) (items : List TurnItem) (segment : ActiveReplaySegment) :
    Prop where
  turnId_eq : segment.turnId = some turnId
  base_eq : segment.baseReplacementHistory = (newestCompaction items).map Prod.fst
  counts : .userMessage ∈ items → segment.countsAsUserTurn = true
  settings : items.any TurnItem.isTurnContext = true → segment.previousTurnSettings.isSome = true ∧
    segment.referenceContextItem ≠ .neverSet

def suffixAfter (turnId : String) (items : List TurnItem) (newer unmoved : List RolloutItem) :
    List RolloutItem :=
  match newestCompaction items with
  | none => unmoved
  | some (_, rest) => rest.map (TurnItem.toRollout turnId) ++ newer

variable {items : List TurnItem} {segment : ActiveReplaySegment} {suffix : List RolloutItem}

theorem newestCompaction_cons {item : TurnItem} (h : item.replacementHistory = none) :
    newestCompaction (item :: items) = newestCompaction items := by
  rw [newestCompaction, h, map_none, or_none]

def Scan.inTurn (scan : Scan) (segment : ActiveReplaySegment) (suffix : List RolloutItem) : Scan :=
  { scan with rolloutSuffix := suffix, activeSegment := some segment }

def Scan.betweenTurns (scan : Scan) (suffix : List RolloutItem) : Scan :=
  { scan with rolloutSuffix := suffix, activeSegment := none }

theorem SegmentOf.noteTurnContext (h : SegmentOf turnId items segment) (model : String)
    (realtimeActive : Option Bool) :
    SegmentOf turnId (.turnContext model realtimeActive :: items)
      (noteTurnContext ⟨some turnId, model, realtimeActive⟩ segment) := by
  have hor : segment.turnId.or (some turnId) = some turnId := by rw [h.turnId_eq]; rfl
  rw [RolloutReplays.noteTurnContext]
  rw [hor, if_pos (turnIdsAreCompatible_self turnId)]
  refine ⟨rfl, ?_, fun hmem => h.counts (by simpa using hmem), fun _ => ⟨rfl, ?_⟩⟩
  · exact h.base_eq.trans (by rw [newestCompaction_cons rfl])
  · split
    · exact TurnReferenceContextItem.noConfusion
    · assumption

theorem SegmentOf.noteCompaction (h : SegmentOf turnId items segment) (message : String)
    (replacementHistory : List ResponseItem) {referenceContextItem : TurnReferenceContextItem}
    (hreference : referenceContextItem ≠ .neverSet) :
    SegmentOf turnId (.compacted message replacementHistory :: items)
      { segment with
        referenceContextItem := referenceContextItem
        baseReplacementHistory :=
          segment.baseReplacementHistory.or (some replacementHistory) } := by
  refine ⟨h.turnId_eq, ?_, fun hmem => h.counts (by simpa using hmem),
    fun hany => ⟨(h.settings (by simpa [TurnItem.isTurnContext] using hany)).1, hreference⟩⟩
  rw [newestCompaction, h.base_eq]
  cases newestCompaction items <;> rfl

theorem noteCompacted_inTurn (replacementHistory : List ResponseItem) :
    noteCompacted (scan.inTurn segment suffix) (some replacementHistory) newer =
      scan.inTurn
        { segment with
          referenceContextItem :=
            if segment.referenceContextItem = .neverSet then .cleared
            else segment.referenceContextItem
          baseReplacementHistory := segment.baseReplacementHistory.or (some replacementHistory) }
        (if segment.baseReplacementHistory.isNone then newer else suffix) := by
  obtain ⟨turnId, counts, settings, reference, base⟩ := segment
  by_cases hreference : reference = .neverSet
  · cases base <;> simp [noteCompacted, Scan.inTurn, hreference]
  · cases base <;> simp [noteCompacted, Scan.inTurn, hreference]

theorem scanItem_toRollout {unmoved : List RolloutItem} (item : TurnItem)
    (h : SegmentOf turnId items segment) :
    ∃ grown, SegmentOf turnId (item :: items) grown ∧
      scanItem reading (scan.inTurn segment (suffixAfter turnId items newer unmoved))
          (item.toRollout turnId) (items.map (TurnItem.toRollout turnId) ++ newer) =
        scan.inTurn grown (suffixAfter turnId (item :: items) newer unmoved) := by
  cases item with
  | turnContext model realtimeActive =>
    refine ⟨_, h.noteTurnContext model realtimeActive, ?_⟩
    rw [suffixAfter, suffixAfter, newestCompaction_cons rfl]
    rfl
  | userMessage =>
    refine ⟨{ segment with countsAsUserTurn := true },
      ⟨h.turnId_eq, h.base_eq.trans (by rw [newestCompaction_cons rfl]), fun _ => rfl, fun hany =>
        h.settings (by simpa [TurnItem.isTurnContext] using hany)⟩, ?_⟩
    rw [suffixAfter, suffixAfter, newestCompaction_cons rfl]
    rfl
  | responseItem item =>
    refine ⟨{ segment with
        countsAsUserTurn := segment.countsAsUserTurn || isUserTurnBoundary reading item },
      ⟨h.turnId_eq, h.base_eq.trans (by rw [newestCompaction_cons rfl]), fun hmem => ?_, fun hany =>
        h.settings (by simpa [TurnItem.isTurnContext] using hany)⟩, ?_⟩
    · rw [h.counts (by simpa using hmem), Bool.true_or]
    · rw [suffixAfter, suffixAfter, newestCompaction_cons rfl]
      rfl
  | compacted message replacementHistory =>
    have hreference : (if segment.referenceContextItem = .neverSet then .cleared
        else segment.referenceContextItem) ≠ TurnReferenceContextItem.neverSet := by
      split
      · exact TurnReferenceContextItem.noConfusion
      · assumption
    refine ⟨_, h.noteCompaction message replacementHistory hreference, ?_⟩
    refine (noteCompacted_inTurn replacementHistory).trans (congrArg _ ?_)
    rw [h.base_eq, suffixAfter, suffixAfter, newestCompaction]
    cases newestCompaction items <;> rfl

theorem scanItems_body (items : List TurnItem) (h : SegmentOf turnId [] segment)
    (hbase : scan.baseReplacementHistory = none) :
    ∃ grown, SegmentOf turnId items grown ∧
      scanItems reading (scan.inTurn segment suffix) newer (items.map (TurnItem.toRollout turnId)) =
        scan.inTurn grown (suffixAfter turnId items newer suffix) := by
  induction items with
  | nil => exact ⟨segment, h, rfl⟩
  | cons item items ih =>
    obtain ⟨grown, hgrown, hscan⟩ := ih
    obtain ⟨larger, hlarger, hitem⟩ := @scanItem_toRollout reading scan newer turnId _ _ suffix
      item hgrown
    exact ⟨larger, hlarger, (scanItems_cons hscan hbase).trans hitem⟩

theorem scanItems_turn (turn : Turn reading) (hbase : scan.baseReplacementHistory = none) :
    ∃ segment, SegmentOf turn.id turn.body segment ∧
      scanItems reading (scan.betweenTurns suffix) newer turn.items =
        finalizeActiveSegment segment (scan.betweenTurns (suffixAfter turn.id turn.body
          (.eventMsg (.turnComplete turn.id) :: newer) suffix)) := by
  have hcomplete : scanItems reading (scan.betweenTurns suffix) newer
      [.eventMsg (.turnComplete turn.id)] = scan.inTurn { turnId := some turn.id } suffix :=
    scanItems_cons rfl hbase
  obtain ⟨segment, hsegment, hbody⟩ := @scanItems_body reading scan
    (.eventMsg (.turnComplete turn.id) :: newer) turn.id { turnId := some turn.id } suffix turn.body
    ⟨rfl, rfl, nofun, nofun⟩ hbase
  refine ⟨segment, hsegment, ?_⟩
  have hitems : scanItems reading (scan.betweenTurns suffix) newer
      (turn.body.map (TurnItem.toRollout turn.id) ++ [.eventMsg (.turnComplete turn.id)]) =
        scan.inTurn segment (suffixAfter turn.id turn.body
          (.eventMsg (.turnComplete turn.id) :: newer) suffix) := by
    rw [scanItems_append, hcomplete]
    exact hbody
  rw [Turn.items, scanItems_cons hitems hbase]
  change (if turnIdsAreCompatible segment.turnId (some turn.id) then _ else _) = _
  rw [hsegment.turnId_eq, turnIdsAreCompatible_self]
  rfl

end ScanOfTurn

variable {log : List (Entry (Turn reading))}

section ScanOfLog
variable {segment : ActiveReplaySegment} {unmoved : List RolloutItem}

/-- The log from the newest turn that survives and replaces the history, or all of it. -/
def fromCheckpoint : List (Entry (Turn reading)) → List (Entry (Turn reading))
  | [] => []
  | entry :: log =>
    if ∀ later ∈ survivors log, later.compacts = false then entry :: log else fromCheckpoint log

/-- The rollback markers from there on cut at turns. -/
def CutsAtTurns (log : List (Entry (Turn reading))) : Prop :=
  Along Entry.applyTo CutsAtTurn [] (fromCheckpoint log)

instance (log : List (Entry (Turn reading))) : Decidable (CutsAtTurns log) :=
  inferInstanceAs (Decidable (Along ..))

theorem exists_fromCheckpoint_append (entry : Entry (Turn reading))
    (h : ∀ later ∈ survivors log, later.compacts = false) (front : List (Entry (Turn reading))) :
    ∃ between, fromCheckpoint (front ++ entry :: log) = between ++ entry :: log := by
  induction front with
  | nil => exact ⟨[], if_pos h⟩
  | cons older front ih =>
    rw [cons_append, fromCheckpoint]
    split
    · exact ⟨older :: front, rfl⟩
    · exact ih

theorem fromCheckpoint_of_none (h : ∀ turn ∈ survivors log, turn.compacts = false) :
    fromCheckpoint log = log := by
  cases log with
  | nil => rfl
  | cons entry log =>
    refine if_pos fun later hlater => h later ?_
    cases entry with
    | action turn =>
      rw [survivors_cons_action]
      split
      · exact mem_cons_of_mem _ hlater
      · exact hlater
    | undo n => rwa [survivors_cons_undo]

theorem CutsAtTurns.compacts_eq_false {older : List (Entry (Turn reading))} {turn : Turn reading}
    (h : CutsAtTurns (older ++ .action turn :: log)) (hpending : pending log ≠ 0)
    (hlater : ∀ later ∈ survivors log, later.compacts = false) : turn.compacts = false := by
  obtain ⟨between, hbetween⟩ := exists_fromCheckpoint_append (.action turn) hlater older
  rw [CutsAtTurns, hbetween] at h
  refine forall_removed (P := fun turn => turn.compacts = false) (fun _ _ hcuts => hcuts.1)
    h.of_append.2 turn ?_
  rw [Entry.applyTo, length_append, length_singleton, drop_append_of_le_length (by omega)]
  exact mem_append_right _ mem_cons_self

structure Searching (unmoved : List RolloutItem) (log : List (Entry (Turn reading))) (scan : Scan) :
    Prop where
  base : scan.baseReplacementHistory = none
  pending_eq : scan.pendingRollbackTurns = pending log
  suffix : scan.rolloutSuffix = unmoved
  active : scan.activeSegment = none
  uncompacted : ∀ turn ∈ survivors log, turn.compacts = false

/-- The newest turn that survives and replaces the history. -/
structure Checkpoint (log : List (Entry (Turn reading))) where
  before : List (Entry (Turn reading))
  turn : Turn reading
  after : List (Entry (Turn reading))
  replacementHistory : List ResponseItem
  rest : List TurnItem
  log_eq : log = before ++ .action turn :: after
  pending_eq : pending after = 0
  uncompacted : ∀ turn ∈ survivors after, turn.compacts = false
  newest : newestCompaction turn.body = some (replacementHistory, rest)

structure SettledAt {log : List (Entry (Turn reading))} (checkpoint : Checkpoint log)
    (scan : Scan) : Prop where
  base : scan.baseReplacementHistory = some checkpoint.replacementHistory
  settled : scan.settled = true
  suffix : scan.rolloutSuffix =
    checkpoint.rest.map (TurnItem.toRollout checkpoint.turn.id) ++
      .eventMsg (.turnComplete checkpoint.turn.id) :: rollout checkpoint.after
  active : scan.activeSegment = none

def Checkpoint.cons (entry : Entry (Turn reading)) (checkpoint : Checkpoint log) :
    Checkpoint (entry :: log) :=
  { checkpoint with
    before := entry :: checkpoint.before
    log_eq := congrArg (entry :: ·) checkpoint.log_eq }

/-- What a scan has come to. -/
def ScannedTo (unmoved : List RolloutItem) (log : List (Entry (Turn reading))) (scan : Scan) :
    Prop :=
  Searching unmoved log scan ∨ ∃ checkpoint : Checkpoint log, SettledAt checkpoint scan

theorem scannedTo_of_settledAt {checkpoint : Checkpoint log} (h : SettledAt checkpoint scan)
    (entry : Entry (Turn reading)) (newer items : List RolloutItem) :
    ScannedTo unmoved (entry :: log) (scanItems reading scan newer items) := by
  rw [scanItems_of_settled h.settled]
  exact .inr ⟨checkpoint.cons entry, h.base, h.settled, h.suffix, h.active⟩

theorem finalizeActiveSegment_rolledBack (hpending : scan.pendingRollbackTurns ≠ 0)
    (hcounts : segment.countsAsUserTurn = true) :
    finalizeActiveSegment segment scan =
      { scan with pendingRollbackTurns := scan.pendingRollbackTurns - 1 } := by
  rw [finalizeActiveSegment, if_pos (Nat.pos_of_ne_zero hpending), if_pos hcounts]

theorem settled_finalizeActiveSegment (hpending : scan.pendingRollbackTurns = 0)
    (hcounts : segment.countsAsUserTurn = true)
    (hsettings : segment.previousTurnSettings.isSome = true)
    (hreference : segment.referenceContextItem ≠ .neverSet)
    (hbase : segment.baseReplacementHistory.isSome = true) :
    (finalizeActiveSegment segment scan).settled = true := by
  rw [finalizeActiveSegment, if_neg (by omega), Scan.settled]
  simp only [hcounts, true_or, and_true, isSome_or, hbase, Bool.or_true,
    Bool.true_and, Bool.and_eq_true, decide_eq_true_eq]
  refine ⟨?_, ?_⟩
  · cases hsome : scan.previousTurnSettings with
    | none => exact hsettings
    | some settings => rfl
  · split
    · exact hreference
    · assumption

theorem finalizeActiveSegment_same :
    (finalizeActiveSegment segment scan).rolloutSuffix = scan.rolloutSuffix ∧
      (finalizeActiveSegment segment scan).activeSegment = scan.activeSegment := by
  rw [finalizeActiveSegment]
  split
  · split <;> exact ⟨rfl, rfl⟩
  · exact ⟨rfl, rfl⟩

theorem finalizeActiveSegment_kept (hpending : scan.pendingRollbackTurns = 0)
    (hbase : scan.baseReplacementHistory = none) :
    (finalizeActiveSegment segment scan).baseReplacementHistory = segment.baseReplacementHistory ∧
      (finalizeActiveSegment segment scan).pendingRollbackTurns = 0 := by
  rw [finalizeActiveSegment, if_neg (by omega)]
  exact ⟨by rw [hbase, none_or], hpending⟩

theorem scannedTo_cons_undo {n : ℕ} {newer : List RolloutItem} (h : ScannedTo unmoved log scan) :
    ScannedTo unmoved (.undo n :: log)
      (scanItems reading scan newer [.eventMsg (.threadRolledBack n)]) := by
  rcases h with h | ⟨checkpoint, h⟩
  · have hscan : scanItems reading scan newer [.eventMsg (.threadRolledBack n)] =
        { scan with pendingRollbackTurns := scan.pendingRollbackTurns + n } :=
      scanItems_cons rfl h.base
    rw [hscan]
    refine .inl ⟨h.base, ?_, h.suffix, h.active, ?_⟩
    · rw [pending, ← h.pending_eq]
    · rw [survivors_cons_undo]
      exact h.uncompacted
  · exact scannedTo_of_settledAt h _ _ _

theorem Turn.userMessage_mem (turn : Turn reading) : .userMessage ∈ turn.body :=
  count_pos_iff.mp (by rw [turn.oneUserMessageEvent]; exact Nat.one_pos)

theorem scannedTo_cons_action (turn : Turn reading) (h : ScannedTo unmoved log scan)
    (herased : pending log ≠ 0 → (∀ later ∈ survivors log, later.compacts = false) →
      turn.compacts = false) :
    ScannedTo unmoved (.action turn :: log) (scanItems reading scan (rollout log) turn.items) := by
  rcases h with h | ⟨checkpoint, h⟩
  · obtain ⟨segment, hsegment, hscan⟩ :=
      @scanItems_turn reading scan (rollout log) unmoved turn h.base
    have hbetween : scan.betweenTurns unmoved = scan := by
      rw [Scan.betweenTurns, ← h.suffix, ← h.active]
    have hcounts := hsegment.counts turn.userMessage_mem
    have hsettings := hsegment.settings turn.hasContext
    have hbase := hsegment.base_eq
    rw [hbetween] at hscan
    rw [hscan]
    by_cases hpending : pending log = 0
    · obtain ⟨hkept, hzero⟩ := @finalizeActiveSegment_kept (scan.betweenTurns (suffixAfter turn.id
        turn.body (.eventMsg (.turnComplete turn.id) :: rollout log) unmoved)) segment
        (h.pending_eq.trans hpending) h.base
      cases hnewest : newestCompaction turn.body with
      | none =>
        rw [hnewest] at hbase
        refine .inl ⟨hkept.trans hbase, ?_, ?_, finalizeActiveSegment_same.2, ?_⟩
        · rw [hzero, pending, hpending]
        · rw [finalizeActiveSegment_same.1, suffixAfter, hnewest]
          rfl
        · rw [survivors_cons_action, if_pos hpending]
          refine forall_mem_cons.mpr ⟨?_, h.uncompacted⟩
          rw [Turn.compacts, hnewest]
          rfl
      | some found =>
        rw [hnewest] at hbase
        refine .inr ⟨⟨[], turn, log, found.1, found.2, rfl, hpending, h.uncompacted, hnewest⟩,
          hkept.trans hbase, ?_, ?_, finalizeActiveSegment_same.2⟩
        · exact settled_finalizeActiveSegment (h.pending_eq.trans hpending) hcounts hsettings.1
            hsettings.2 (by rw [hbase]; rfl)
        · rw [finalizeActiveSegment_same.1, suffixAfter, hnewest]
          rfl
    · have huncompacted : newestCompaction turn.body = none := by
        simpa [Turn.compacts] using herased hpending h.uncompacted
      rw [finalizeActiveSegment_rolledBack (by exact h.pending_eq ▸ hpending) hcounts, suffixAfter,
        huncompacted]
      refine .inl ⟨h.base, ?_, rfl, rfl, ?_⟩
      · rw [pending, ← h.pending_eq]
        rfl
      · rw [survivors_cons_action, if_neg hpending]
        exact h.uncompacted
  · exact scannedTo_of_settledAt h _ _ _

theorem scannedTo_append (older : List (Entry (Turn reading))) (h : ScannedTo unmoved log scan)
    (holder : ∀ front turn back, older = front ++ .action turn :: back →
      pending (back ++ log) ≠ 0 →
        (∀ later ∈ survivors (back ++ log), later.compacts = false) → turn.compacts = false) :
    ScannedTo unmoved (older ++ log) (scanItems reading scan (rollout log) (rollout older)) := by
  induction older with
  | nil => exact h
  | cons entry older ih =>
    have hscanned := ih fun front turn back hsplit =>
      holder (entry :: front) turn back (congrArg (entry :: ·) hsplit)
    rw [rollout_cons, scanItems_append, ← rollout_append]
    cases entry with
    | action turn => exact scannedTo_cons_action turn hscanned (holder [] turn older rfl)
    | undo n => exact scannedTo_cons_undo hscanned

theorem scannedTo_rollout (h : CutsAtTurns log) :
    ScannedTo unmoved log
      (scanItems reading ⟨none, none, .neverSet, 0, unmoved, none⟩ [] (rollout log)) := by
  have hstart : ScannedTo unmoved ([] : List (Entry (Turn reading)))
      ⟨none, none, .neverSet, 0, unmoved, none⟩ := .inl ⟨rfl, rfl, rfl, rfl, nofun⟩
  have hscanned := scannedTo_append log hstart fun front turn back hsplit => by
    rw [append_nil]
    exact (hsplit ▸ h).compacts_eq_false
  rwa [append_nil] at hscanned

end ScanOfLog

section Reconstruction
variable (checkpoint : Checkpoint log)

theorem Checkpoint.pieces_eq :
    pieces log = pieces checkpoint.before ++ .kept checkpoint.turn :: pieces checkpoint.after :=
  (congrArg pieces checkpoint.log_eq).trans (pieces_append_action _ checkpoint.pending_eq)

theorem Checkpoint.survivors_eq :
    survivors log = survivors checkpoint.before ++ checkpoint.turn :: survivors checkpoint.after :=
  (congrArg survivors checkpoint.log_eq).trans (survivors_append_action checkpoint.pending_eq)

variable {items rest : List TurnItem} {replacementHistory : List ResponseItem} {turn : Turn reading}

theorem newestCompaction_rest (h : newestCompaction items = some (replacementHistory, rest)) :
    newestCompaction rest = none := by
  induction items with
  | nil => cases h
  | cons item items ih =>
    rw [newestCompaction, or_eq_some_iff] at h
    rcases h with h | ⟨hnone, hitem⟩
    · exact ih h
    · obtain ⟨_, -, hpair⟩ := map_eq_some_iff.mp hitem
      rw [← (Prod.mk.inj hpair).2]
      exact hnone

theorem Checkpoint.fromCheckpoint_eq :
    fromCheckpoint log = .action checkpoint.turn :: checkpoint.after := by
  refine (congrArg fromCheckpoint checkpoint.log_eq).trans ?_
  induction checkpoint.before with
  | nil => exact if_pos checkpoint.uncompacted
  | cons entry before ih =>
    refine (if_neg fun hnone => ?_).trans ih
    have hmem : checkpoint.turn ∈
        survivors (before ++ .action checkpoint.turn :: checkpoint.after) := by
      simp [survivors_append_action checkpoint.pending_eq]
    have hturn := hnone checkpoint.turn hmem
    rw [Turn.compacts, checkpoint.newest] at hturn
    cases hturn

theorem Checkpoint.replay_turn (history : List ResponseItem) :
    checkpoint.turn.replay history =
      checkpoint.replacementHistory ++ recordedItems reading checkpoint.rest := by
  rw [Turn.replay, foldl_replay, checkpoint.newest]

/-- If the rollback markers cut at turns, reconstruction returns the replay of the pieces. Up to
context updates this is the replay of the turns that survive exactly if, of turns that are rolled
back together, the oldest records nothing but context updates before its first instruction. -/
theorem reconstruction_replays_survivors_iff (h : CutsAtTurns log) :
    (reconstructHistoryFromRollout reading (rollout log)).history =
        (pieces log).foldl replayPiece [] ∧
      (withoutContextUpdates reading (reconstructHistoryFromRollout reading (rollout log)).history =
          withoutContextUpdates reading (replayTurns (survivors log)) ↔
        ∀ turn, .erased turn ∈ pieces (fromCheckpoint log) →
          ∀ item ∈ turn.preamble, isContextUpdate reading item = true) := by
  rw [reconstructHistoryFromRollout, scanRollout]
  generalize hscan : scanItems reading ⟨none, none, .neverSet, 0, rollout log, none⟩ []
    (rollout log) = scan
  have hscanned : ScannedTo (rollout log) log scan := hscan ▸ scannedTo_rollout h
  rw [CutsAtTurns] at h
  rcases hscanned with hsearching | ⟨checkpoint, hsettled⟩
  · rw [fromCheckpoint_of_none hsearching.uncompacted] at h ⊢
    rw [hsearching.active]
    rw [hsearching.base, hsearching.suffix]
    have hreplay := foldl_replayItem_rollout [] h
    have hkept : ∀ turn ∈ keptOf (pieces log), turn.compacts = false :=
      keptOf_pieces log ▸ hsearching.uncompacted
    refine ⟨hreplay, ?_⟩
    rw [← replay_pieces_iff [] hkept, keptOf_pieces]
    exact Eq.congr_left (congrArg _ hreplay)
  · rw [checkpoint.fromCheckpoint_eq] at h ⊢
    rw [hsettled.active]
    rw [hsettled.base, hsettled.suffix, foldl_append, foldl_replayItem_map,
      foldl_replay, newestCompaction_rest checkpoint.newest]
    dsimp only [foldl_cons, replayItem, getD_some]
    have hpieces : pieces (.action checkpoint.turn :: checkpoint.after) =
        .kept checkpoint.turn :: pieces checkpoint.after :=
      pieces_append_action [] checkpoint.pending_eq
    have hreplay := foldl_replayItem_rollout [.kept checkpoint.turn] h.2
    change _ = (pieces (.action checkpoint.turn :: checkpoint.after)).foldl replayPiece []
      at hreplay
    rw [hpieces, foldl_cons, foldl_cons, foldl_nil, replayPiece, checkpoint.replay_turn] at hreplay
    have hkept : ∀ turn ∈ keptOf (pieces checkpoint.after), turn.compacts = false :=
      keptOf_pieces checkpoint.after ▸ checkpoint.uncompacted
    rw [hreplay, checkpoint.pieces_eq, replayTurns, checkpoint.survivors_eq, foldl_append,
      foldl_append, foldl_cons, foldl_cons, replayPiece, checkpoint.replay_turn,
      checkpoint.replay_turn, ← keptOf_pieces checkpoint.after, replay_pieces_iff _ hkept, hpieces]
    simp

theorem countP_withoutContextUpdates (history : List ResponseItem) :
    (withoutContextUpdates reading history).countP (isUserTurnBoundary reading) =
      history.countP (isUserTurnBoundary reading) := by
  rw [withoutContextUpdates, countP_filter]
  refine countP_congr fun item _ => ?_
  rw [Bool.and_eq_true]
  refine ⟨And.left, fun hboundary => ⟨hboundary, ?_⟩⟩
  rw [isContextUpdate_of_boundary hboundary]
  rfl

/-- The scan of a last turn that is rolled back: its replacement history moves the suffix. -/
theorem scannedTo_undone_turn {unmoved : List RolloutItem} :
    ScannedTo (suffixAfter turn.id turn.body
        [.eventMsg (.turnComplete turn.id), .eventMsg (.threadRolledBack 1)] unmoved)
      [.action turn, .undo 1]
      (scanItems reading ⟨none, none, .neverSet, 0, unmoved, none⟩ []
        (rollout [.action turn, .undo 1])) := by
  obtain ⟨segment, hsegment, hscan⟩ := @scanItems_turn reading
    ⟨none, none, .neverSet, 1, unmoved, none⟩ [.eventMsg (.threadRolledBack 1)] unmoved turn rfl
  rw [finalizeActiveSegment_rolledBack (by exact Nat.one_ne_zero)
    (hsegment.counts turn.userMessage_mem)] at hscan
  rw [rollout_cons, scanItems_append]
  refine Eq.subst (motive := ScannedTo _ _) hscan.symm (.inl ⟨rfl, rfl, rfl, rfl, ?_⟩)
  intro later hlater
  cases hlater

/-- A turn that compacts and is rolled back hides every turn before it: if it is the only one
that compacts, it has at most one instruction behind the compaction and a turn before it survives,
what survives is not replayed. -/
theorem compaction_rolled_back_loses_survivors {older : List (Entry (Turn reading))}
    (holder : ∀ other, .action other ∈ older → other.compacts = false)
    (hsurvivors : survivors older ≠ [])
    (hnewest : newestCompaction turn.body = some (replacementHistory, rest))
    (hone : (recordedItems reading rest).countP (isUserTurnBoundary reading) ≤ 1) :
    withoutContextUpdates reading (reconstructHistoryFromRollout reading
        (rollout (older ++ [.action turn, .undo 1]))).history ≠
      withoutContextUpdates reading
        (replayTurns (survivors (older ++ [.action turn, .undo 1]))) := by
  intro hreplays
  have hcounts := congrArg (countP (isUserTurnBoundary reading)) hreplays
  rw [countP_withoutContextUpdates, countP_withoutContextUpdates] at hcounts
  have hkept : ∀ other ∈ survivors (older ++ [.action turn, .undo 1]), other.compacts = false := by
    rw [survivors_append_undone]
    exact fun other hmem => holder other (action_mem_of_mem_survivors hmem)
  rw [← survivors_append_undone older turn] at hsurvivors
  obtain ⟨front, last, hlast⟩ := (eq_nil_or_concat' _).resolve_left hsurvivors
  have hpos : 0 < (replayTurns (front ++ [last])).countP (isUserTurnBoundary reading) := by
    rw [replayTurns, foldl_append, foldl_cons, foldl_nil,
      Turn.replay_of_compacts_eq_false (hkept last (by simp [hlast])), countP_append]
    exact Nat.add_pos_right _ last.instructions_pos
  rw [← hlast, ← hcounts, reconstructHistoryFromRollout, scanRollout, rollout_append,
    scanItems_append, append_nil] at hpos
  have hscanned := scannedTo_append older
    (@scannedTo_undone_turn reading turn (rollout older ++ rollout [.action turn, .undo 1]))
    fun front other back hsplit _ _ => holder other (by simp [hsplit])
  rcases hscanned with hsearching | ⟨checkpoint, hsettled⟩
  · rw [hsearching.active] at hpos
    rw [hsearching.base, hsearching.suffix, suffixAfter, hnewest] at hpos
    rw [foldl_append, foldl_replayItem_map, foldl_replay, newestCompaction_rest hnewest] at hpos
    change 0 < (dropLastNUserTurns reading (recordedItems reading rest) 1).countP _ at hpos
    rw [countP_eq_length_filter, filter_dropLastNUserTurns, length_take,
      ← countP_eq_length_filter] at hpos
    omega
  · have hcompacts := hkept checkpoint.turn (by simp [checkpoint.survivors_eq])
    rw [Turn.compacts, checkpoint.newest] at hcompacts
    cases hcompacts

/-- Texts that open with `<` are contextual, no text is an inter-agent communication. -/
def sampleReading : TextReading where
  isContextualUserText text := text.toList.head? = some '<'
  isInterAgentText _ := false
  truncateOutput output := output
  truncateText text _ := text

def assistantText (text : String) : ResponseItem :=
  .message none "assistant" [.outputText text] none

def plainTurn : Turn sampleReading where
  id := "plain"
  body := [.turnContext "model" none, .responseItem (userText "<context>"),
    .responseItem (userText "question"), .userMessage, .responseItem (assistantText "answer")]
  hasContext := by decide
  oneUserMessage := by decide
  oneUserMessageEvent := by decide

def notedTurn : Turn sampleReading where
  id := "noted"
  body := [.turnContext "model" none, .responseItem (assistantText "note"),
    .responseItem (userText "other question"), .userMessage]
  hasContext := by decide
  oneUserMessage := by decide
  oneUserMessageEvent := by decide

def compactingTurn : Turn sampleReading where
  id := "compacting"
  body := [.turnContext "model" none, .responseItem (userText "long question"), .userMessage,
    .compacted "" [userText "summary"], .responseItem (assistantText "short answer")]
  hasContext := by decide
  oneUserMessage := by decide
  oneUserMessageEvent := by decide

/-- A turn may compact and be rolled back where a later turn that survives compacts again, and one
with a note before its instruction together with an older turn. -/
def recompactedLog : List (Entry (Turn sampleReading)) :=
  [.action plainTurn, .action compactingTurn, .undo 1, .action compactingTurn, .action plainTurn,
    .action notedTurn, .undo 2]

theorem recompacted_log_replays_survivors :
    (reconstructHistoryFromRollout sampleReading (rollout recompactedLog)).history =
        [userText "summary", assistantText "short answer"] ∧
      withoutContextUpdates sampleReading
          (reconstructHistoryFromRollout sampleReading (rollout recompactedLog)).history =
        withoutContextUpdates sampleReading (replayTurns (survivors recompactedLog)) := by
  obtain ⟨hhistory, hiff⟩ :=
    @reconstruction_replays_survivors_iff sampleReading recompactedLog (by decide)
  refine ⟨hhistory, hiff.mpr fun turn hturn => ?_⟩
  change Piece.erased turn ∈ [Piece.kept compactingTurn, .erased plainTurn] at hturn
  obtain rfl : turn = plainTurn := by simpa using hturn
  decide

theorem undone_compaction_loses_plain_turn :
    withoutContextUpdates sampleReading (reconstructHistoryFromRollout sampleReading
        (rollout ([.action plainTurn] ++ [.action compactingTurn, .undo 1]))).history ≠
      withoutContextUpdates sampleReading
        (replayTurns (survivors ([.action plainTurn] ++ [.action compactingTurn, .undo 1]))) := by
  refine compaction_rolled_back_loses_survivors (fun other hother => ?_) (by decide) rfl (by decide)
  cases mem_singleton.mp hother
  decide

/-- A compaction in a turn that is rolled back hides the turns before it. -/
theorem rolled_back_compaction_hides_turns :
    withoutContextUpdates sampleReading (reconstructHistoryFromRollout sampleReading
        (rollout [.action plainTurn, .action compactingTurn, .undo 1])).history =
        [assistantText "short answer"] ∧
      withoutContextUpdates sampleReading
          (replayTurns (survivors [.action plainTurn, .action compactingTurn, .undo 1])) =
        [userText "question", assistantText "answer"] := by
  decide +kernel

end Reconstruction

end DeepseekX.RolloutReplays
