import DeepseekX.ContextHistory

/-!
# Reconstructing a thread from its rollout

`reconstruct_history_from_rollout` first scans the rollout from its newest item to its
oldest. The scan collects the items of a turn in a segment, skips the segments that rollback
markers remove, and stops when it knows the newest replacement history and the settings of
the newest turn. Then the items behind the replacement history are replayed forward.
-/

namespace DeepseekX.RolloutReplays
open ContextHistory ResponseItems

structure TurnContextItem where
  turnId : Option String
  model : String
  realtimeActive : Option Bool
  deriving DecidableEq

structure PreviousTurnSettings where
  model : String
  realtimeActive : Option Bool
  deriving DecidableEq

inductive EventMsg where
  | turnStarted (turnId : String)
  | turnComplete (turnId : String)
  | turnAborted (turnId : Option String)
  | userMessage
  | threadRolledBack (numTurns : ℕ)
  | other
  deriving DecidableEq

inductive RolloutItem where
  | sessionMeta
  | responseItem (item : ResponseItem)
  | compacted (message : String) (replacementHistory : Option (List ResponseItem))
  | turnContext (context : TurnContextItem)
  | eventMsg (event : EventMsg)
  deriving DecidableEq

inductive TurnReferenceContextItem where
  | neverSet
  | cleared
  | latest (context : TurnContextItem)
  deriving DecidableEq

structure ActiveReplaySegment where
  turnId : Option String := none
  countsAsUserTurn : Bool := false
  previousTurnSettings : Option PreviousTurnSettings := none
  referenceContextItem : TurnReferenceContextItem := .neverSet
  baseReplacementHistory : Option (List ResponseItem) := none
  deriving DecidableEq

structure Scan where
  baseReplacementHistory : Option (List ResponseItem)
  previousTurnSettings : Option PreviousTurnSettings
  referenceContextItem : TurnReferenceContextItem
  pendingRollbackTurns : ℕ
  rolloutSuffix : List RolloutItem
  activeSegment : Option ActiveReplaySegment
  deriving DecidableEq

def turnIdsAreCompatible (activeTurnId itemTurnId : Option String) : Bool :=
  activeTurnId.all fun turnId => itemTurnId.all (· == turnId)

def finalizeActiveSegment (segment : ActiveReplaySegment) (scan : Scan) : Scan :=
  if scan.pendingRollbackTurns > 0 then
    if segment.countsAsUserTurn then
      { scan with pendingRollbackTurns := scan.pendingRollbackTurns - 1 }
    else scan
  else
    { scan with
      baseReplacementHistory := scan.baseReplacementHistory.or segment.baseReplacementHistory
      previousTurnSettings :=
        if scan.previousTurnSettings.isNone && segment.countsAsUserTurn then
          segment.previousTurnSettings
        else scan.previousTurnSettings
      referenceContextItem :=
        if scan.referenceContextItem = .neverSet ∧
            (segment.countsAsUserTurn ∨ segment.referenceContextItem = .cleared) then
          segment.referenceContextItem
        else scan.referenceContextItem }

/-- `get_or_insert_with(ActiveReplaySegment::default)`, then an update of the segment. -/
def Scan.updateSegment (scan : Scan) (update : ActiveReplaySegment → ActiveReplaySegment) : Scan :=
  { scan with activeSegment := some (update (scan.activeSegment.getD {})) }

def noteTurnContext (context : TurnContextItem) (segment : ActiveReplaySegment) :
    ActiveReplaySegment :=
  let segment := { segment with turnId := segment.turnId.or context.turnId }
  if turnIdsAreCompatible segment.turnId context.turnId then
    { segment with
      previousTurnSettings := some ⟨context.model, context.realtimeActive⟩
      referenceContextItem :=
        if segment.referenceContextItem = .neverSet then .latest context
        else segment.referenceContextItem }
  else segment

/-- A compaction clears an older baseline; the newest replacement history of a segment moves
the suffix that is replayed. -/
def noteCompacted (scan : Scan) (replacementHistory : Option (List ResponseItem))
    (newer : List RolloutItem) : Scan :=
  let segment := scan.activeSegment.getD {}
  let segment :=
    if segment.referenceContextItem = .neverSet then
      { segment with referenceContextItem := .cleared }
    else segment
  match segment.baseReplacementHistory, replacementHistory with
  | none, some history =>
    { scan with
      activeSegment := some { segment with baseReplacementHistory := some history }
      rolloutSuffix := newer }
  | _, _ => { scan with activeSegment := some segment }

def scanItem (reading : TextReading) (scan : Scan) (item : RolloutItem)
    (newer : List RolloutItem) : Scan :=
  match item with
  | .compacted _ replacementHistory => noteCompacted scan replacementHistory newer
  | .eventMsg (.threadRolledBack numTurns) =>
    { scan with pendingRollbackTurns := scan.pendingRollbackTurns + numTurns }
  | .eventMsg (.turnComplete turnId) =>
    scan.updateSegment fun segment => { segment with turnId := segment.turnId.or (some turnId) }
  | .eventMsg (.turnAborted turnId) =>
    match scan.activeSegment, turnId with
    | some segment, _ =>
      { scan with activeSegment := some { segment with turnId := segment.turnId.or turnId } }
    | none, some turnId => { scan with activeSegment := some { turnId := some turnId } }
    | none, none => scan
  | .eventMsg .userMessage =>
    scan.updateSegment fun segment => { segment with countsAsUserTurn := true }
  | .turnContext context => scan.updateSegment (noteTurnContext context)
  | .eventMsg (.turnStarted turnId) =>
    match scan.activeSegment with
    | some segment =>
      if turnIdsAreCompatible segment.turnId (some turnId) then
        finalizeActiveSegment segment { scan with activeSegment := none }
      else scan
    | none => scan
  | .responseItem item =>
    scan.updateSegment fun segment =>
      { segment with
        countsAsUserTurn := segment.countsAsUserTurn || isUserTurnBoundary reading item }
  | .eventMsg .other | .sessionMeta => scan

/-- The loop is left. -/
def Scan.settled (scan : Scan) : Bool :=
  scan.baseReplacementHistory.isSome && scan.previousTurnSettings.isSome &&
    scan.referenceContextItem ≠ .neverSet

/-- The loop over `items`, from the last one to the first; `newer` is behind them. -/
def scanItems (reading : TextReading) (scan : Scan) (newer : List RolloutItem) :
    List RolloutItem → Scan
  | [] => scan
  | item :: items =>
    let scan := scanItems reading scan newer items
    if scan.settled then scan else scanItem reading scan item (items ++ newer)

def scanRollout (reading : TextReading) (rolloutItems : List RolloutItem) : Scan :=
  let scan := scanItems reading ⟨none, none, .neverSet, 0, rolloutItems, none⟩ [] rolloutItems
  match scan.activeSegment with
  | some segment => finalizeActiveSegment segment { scan with activeSegment := none }
  | none => scan

section Replay
variable (reading : TextReading)

def replayItem (history : List ResponseItem) : RolloutItem → List ResponseItem
  | .responseItem item => recordItem reading history item
  | .compacted _ (some replacementHistory) => replacementHistory
  | .compacted message none =>
    buildCompactedHistory reading (collectUserMessages reading history) message
  | .eventMsg (.threadRolledBack numTurns) => dropLastNUserTurns reading history numTurns
  | _ => history

def isLegacyCompaction : RolloutItem → Bool
  | .compacted _ none => true
  | _ => false

structure RolloutReconstruction where
  history : List ResponseItem
  previousTurnSettings : Option PreviousTurnSettings
  referenceContextItem : Option TurnContextItem
  deriving DecidableEq

def reconstructHistoryFromRollout (rolloutItems : List RolloutItem) : RolloutReconstruction :=
  let scan := scanRollout reading rolloutItems
  { history := scan.rolloutSuffix.foldl (replayItem reading) (scan.baseReplacementHistory.getD [])
    previousTurnSettings := scan.previousTurnSettings
    referenceContextItem :=
      match scan.referenceContextItem with
      | .latest context =>
        if scan.rolloutSuffix.any isLegacyCompaction then none else some context
      | .neverSet | .cleared => none }

end Replay

end DeepseekX.RolloutReplays
