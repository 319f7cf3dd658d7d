import DeepseekX.ResponseItems
import DeepseekX.SeekSequence
import Mathlib.Algebra.GroupWithZero.Nat

/-!
# The turns shown for a thread

`ThreadHistoryBuilder` reduces the rollout of a thread to the turns that are shown. A turn is
opened by its start event, or by the first item that belongs to none. Items of tools are added
or replaced by their id. A rollback marker removes turns, whatever they hold. How hook prompts
are recognised is left open.
-/

namespace DeepseekX.ThreadHistory
open ResponseItems

section Items

structure TextElement where
  start : ℕ
  stop : ℕ
  placeholder : Option String
  deriving DecidableEq

inductive UserInput where
  | text (text : String) (textElements : List TextElement)
  | image (url : String)
  | localImage (path : String)
  deriving DecidableEq

structure UserMessageEvent where
  message : String
  images : Option (List String)
  localImages : List String
  textElements : List TextElement
  deriving DecidableEq

def buildUserInputs (payload : UserMessageEvent) : List UserInput :=
  (if SeekSequence.trim payload.message = "" then []
    else [.text payload.message payload.textElements]) ++
  (payload.images.getD []).map .image ++ payload.localImages.map .localImage

variable (Tool : Type)

/-- `tool` stands for the items that come from tools and plans; they carry an id of their own. -/
inductive ThreadItem where
  | userMessage (id : String) (content : List UserInput)
  | hookPrompt (id : String) (fragments : List String)
  | agentMessage (id text : String) (phase : Option MessagePhase)
  | reasoning (id : String) (summary content : List String)
  | contextCompaction (id : String)
  | enteredReviewMode (id review : String)
  | exitedReviewMode (id review : String)
  | tool (id : String) (contents : Tool)
  deriving DecidableEq

/-- `toolItem` stands for the events that add or replace an item by its id, in the turn they
name or in the current one. -/
inductive EventMsg where
  | userMessage (payload : UserMessageEvent)
  | agentMessage (message : String) (phase : Option MessagePhase)
  | agentReasoning (text : String)
  | agentReasoningRawContent (text : String)
  | toolItem (turnId : Option String) (id : String) (contents : Tool)
  | contextCompacted
  | enteredReviewMode (userFacingHint : Option String)
  | exitedReviewMode (explanation : Option String)
  | error (message : String) (affectsTurnStatus : Bool)
  | turnAborted (turnId : Option String)
  | turnStarted (turnId : String)
  | turnComplete (turnId : String)
  | threadRolledBack (numTurns : ℕ)
  | other
  deriving DecidableEq

inductive RolloutItem where
  | eventMsg (event : EventMsg Tool)
  | compacted
  | responseItem (item : ResponseItem)
  | turnContext
  | sessionMeta
  deriving DecidableEq

inductive TurnStatus where
  | completed | interrupted | failed | inProgress
  deriving DecidableEq

structure Turn where
  id : String
  items : List (ThreadItem Tool)
  error : Option String
  status : TurnStatus
  deriving DecidableEq

structure PendingTurn extends Turn Tool where
  openedExplicitly : Bool
  sawCompaction : Bool
  deriving DecidableEq

structure ThreadHistoryBuilder where
  turns : List (Turn Tool) := []
  currentTurn : Option (PendingTurn Tool) := none
  nextItemIndex : ℕ := 1
  currentRolloutIndex : ℕ := 0
  nextRolloutIndex : ℕ := 0
  deriving DecidableEq

end Items

variable {Tool : Type}

def ThreadItem.id : ThreadItem Tool → String
  | userMessage id _ | hookPrompt id _ | agentMessage id _ _ | reasoning id _ _
  | contextCompaction id | enteredReviewMode id _ | exitedReviewMode id _ | tool id _ => id

def updateFirst {α : Type} (p : α → Bool) (update : α → α) : List α → List α
  | [] => []
  | a :: l => if p a then update a :: l else a :: updateFirst p update l

def upsertTurnItem (items : List (ThreadItem Tool)) (item : ThreadItem Tool) :
    List (ThreadItem Tool) :=
  if items.any (·.id = item.id) then updateFirst (·.id = item.id) (fun _ => item) items
  else items ++ [item]

namespace ThreadHistoryBuilder

variable (builder : ThreadHistoryBuilder Tool)

/-- Within a rollout, a turn without an id is named after the item that opens it. -/
def newTurn (id : Option String) : PendingTurn Tool where
  id := id.getD ("rollout-" ++ toString builder.currentRolloutIndex)
  items := []
  error := none
  status := .completed
  openedExplicitly := false
  sawCompaction := false

def finishCurrentTurn : ThreadHistoryBuilder Tool :=
  match builder.currentTurn with
  | none => builder
  | some turn =>
    if turn.items.isEmpty && !turn.openedExplicitly && !turn.sawCompaction then
      { builder with currentTurn := none }
    else { builder with turns := builder.turns ++ [turn.toTurn], currentTurn := none }

def ensureTurn : PendingTurn Tool :=
  builder.currentTurn.getD (builder.newTurn none)

def updateTurn (update : PendingTurn Tool → PendingTurn Tool) : ThreadHistoryBuilder Tool :=
  { builder with currentTurn := some (update builder.ensureTurn) }

/-- `next_item_id`, then a push to the items of the current turn. -/
def pushItem (item : String → ThreadItem Tool) : ThreadHistoryBuilder Tool :=
  { builder.updateTurn fun turn =>
      { turn with items := turn.items ++ [item ("item-" ++ toString builder.nextItemIndex)] } with
    nextItemIndex := builder.nextItemIndex + 1 }

def handleUserMessage (payload : UserMessageEvent) : ThreadHistoryBuilder Tool :=
  let builder :=
    match builder.currentTurn with
    | some turn =>
      if !turn.openedExplicitly && !(turn.sawCompaction && turn.items.isEmpty) then
        builder.finishCurrentTurn
      else builder
    | none => builder
  builder.pushItem (.userMessage · (buildUserInputs payload))

def handleAgentMessage (text : String) (phase : Option MessagePhase) : ThreadHistoryBuilder Tool :=
  if text = "" then builder else builder.pushItem (.agentMessage · text phase)

/-- A text goes to the last item if that is a reasoning item, else to a new one. -/
def handleReasoning (summary content : List String) : ThreadHistoryBuilder Tool :=
  match builder.ensureTurn.items.getLast? with
  | some (.reasoning id oldSummary oldContent) =>
    builder.updateTurn fun turn =>
      { turn with
        items := turn.items.dropLast ++
          [.reasoning id (oldSummary ++ summary) (oldContent ++ content)] }
  | _ => builder.pushItem (.reasoning · summary content)

def handleAgentReasoning (text : String) : ThreadHistoryBuilder Tool :=
  if text = "" then builder else builder.handleReasoning [text] []

def handleAgentReasoningRawContent (text : String) : ThreadHistoryBuilder Tool :=
  if text = "" then builder else builder.handleReasoning [] [text]

def upsertItemInCurrentTurn (item : ThreadItem Tool) : ThreadHistoryBuilder Tool :=
  builder.updateTurn fun turn => { turn with items := upsertTurnItem turn.items item }

variable (turnId : String)

def updateFinishedTurn (update : Turn Tool → Turn Tool) : ThreadHistoryBuilder Tool :=
  { builder with turns := updateFirst (·.id = turnId) update builder.turns }

def upsertItemInTurnId (item : ThreadItem Tool) : ThreadHistoryBuilder Tool :=
  if builder.currentTurn.any (·.id = turnId) then builder.upsertItemInCurrentTurn item
  else builder.updateFinishedTurn turnId fun turn =>
    { turn with items := upsertTurnItem turn.items item }

def handleToolItem (turnId : Option String) (item : ThreadItem Tool) : ThreadHistoryBuilder Tool :=
  match turnId with
  | some turnId => builder.upsertItemInTurnId turnId item
  | none => builder.upsertItemInCurrentTurn item

def reviewFallbackMessage : String := "Reviewer failed to output a response."

def renderReviewOutputText (explanation : String) : String :=
  if SeekSequence.trim explanation = "" then reviewFallbackMessage
  else SeekSequence.trim explanation

def mapCurrent (update : Turn Tool → Turn Tool) : ThreadHistoryBuilder Tool :=
  { builder with
    currentTurn := builder.currentTurn.map fun turn => { turn with toTurn := update turn.toTurn } }

def handleError (message : String) (affectsTurnStatus : Bool) : ThreadHistoryBuilder Tool :=
  if affectsTurnStatus then
    builder.mapCurrent fun turn => { turn with status := .failed, error := some message }
  else builder

def applyAbort (turn : Turn Tool) : Turn Tool := { turn with status := .interrupted }

def handleTurnAborted (turnId : Option String) : ThreadHistoryBuilder Tool :=
  match turnId with
  | some turnId =>
    if builder.currentTurn.any (·.id = turnId) then builder.mapCurrent applyAbort
    else if builder.turns.any (·.id = turnId) then builder.updateFinishedTurn turnId applyAbort
    else builder.mapCurrent applyAbort
  | none => builder.mapCurrent applyAbort

def handleTurnStarted : ThreadHistoryBuilder Tool :=
  let builder := builder.finishCurrentTurn
  { builder with
    currentTurn := some { builder.newTurn (some turnId) with
      status := .inProgress, openedExplicitly := true } }

def markCompleted (turn : Turn Tool) : Turn Tool :=
  if turn.status = .completed ∨ turn.status = .inProgress then { turn with status := .completed }
  else turn

def handleTurnComplete : ThreadHistoryBuilder Tool :=
  if builder.currentTurn.any (·.id = turnId) then
    (builder.mapCurrent markCompleted).finishCurrentTurn
  else if builder.turns.any (·.id = turnId) then builder.updateFinishedTurn turnId markCompleted
  else (builder.mapCurrent markCompleted).finishCurrentTurn

def handleCompacted : ThreadHistoryBuilder Tool :=
  builder.updateTurn fun turn => { turn with sawCompaction := true }

def handleThreadRollback (numTurns : ℕ) : ThreadHistoryBuilder Tool :=
  let builder := builder.finishCurrentTurn
  let turns :=
    if numTurns ≥ builder.turns.length then []
    else builder.turns.take (builder.turns.length - numTurns)
  { builder with turns := turns, nextItemIndex := (turns.map (·.items.length)).sum + 1 }

def handleEvent : EventMsg Tool → ThreadHistoryBuilder Tool
  | .userMessage payload => builder.handleUserMessage payload
  | .agentMessage message phase => builder.handleAgentMessage message phase
  | .agentReasoning text => builder.handleAgentReasoning text
  | .agentReasoningRawContent text => builder.handleAgentReasoningRawContent text
  | .toolItem turnId id contents => builder.handleToolItem turnId (.tool id contents)
  | .contextCompacted => builder.pushItem .contextCompaction
  | .enteredReviewMode userFacingHint =>
    builder.pushItem (.enteredReviewMode · (userFacingHint.getD "Review requested."))
  | .exitedReviewMode explanation =>
    builder.pushItem (.exitedReviewMode ·
      ((explanation.map renderReviewOutputText).getD reviewFallbackMessage))
  | .error message affectsTurnStatus => builder.handleError message affectsTurnStatus
  | .turnAborted turnId => builder.handleTurnAborted turnId
  | .turnStarted turnId => builder.handleTurnStarted turnId
  | .turnComplete turnId => builder.handleTurnComplete turnId
  | .threadRolledBack numTurns => builder.handleThreadRollback numTurns
  | .other => builder

variable (parseHookPrompt : Option String → List ContentItem → Option (String × List String))

def handleResponseItem (builder : ThreadHistoryBuilder Tool) (item : ResponseItem) :
    ThreadHistoryBuilder Tool :=
  match item with
  | .message id role content _ =>
    if role ≠ "user" then builder
    else
      match parseHookPrompt id content with
      | some (id, fragments) =>
        builder.updateTurn fun turn =>
          { turn with items := turn.items ++ [.hookPrompt id fragments] }
      | none => builder
  | _ => builder

def advance : ThreadHistoryBuilder Tool :=
  { builder with
    currentRolloutIndex := builder.nextRolloutIndex
    nextRolloutIndex := builder.nextRolloutIndex + 1 }

def handleRolloutItem (builder : ThreadHistoryBuilder Tool) : RolloutItem Tool →
    ThreadHistoryBuilder Tool
  | .eventMsg event => builder.advance.handleEvent event
  | .compacted => builder.advance.handleCompacted
  | .responseItem item => builder.advance.handleResponseItem parseHookPrompt item
  | .turnContext | .sessionMeta => builder.advance

end ThreadHistoryBuilder

def buildTurnsFromRolloutItems
    (parseHookPrompt : Option String → List ContentItem → Option (String × List String))
    (items : List (RolloutItem Tool)) : List (Turn Tool) :=
  (items.foldl (ThreadHistoryBuilder.handleRolloutItem parseHookPrompt) {}).finishCurrentTurn.turns

end DeepseekX.ThreadHistory
