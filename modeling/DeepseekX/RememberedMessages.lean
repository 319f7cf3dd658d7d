import DeepseekX.ThreadRollbacks
import DeepseekX.UndoLogs

/-!
# Agreement of the thread shown with the model's history

A rollout is a log of turns and rollback markers. At every point of the log the user messages
shown are those the model remembers exactly if every marker so far took as many user messages
from the turns shown as from the history, and no tool item took the place of a user message.
-/

namespace DeepseekX.ThreadHistory
open ContextHistory ResponseItems UndoLogs ThreadHistoryBuilder List

section Rollouts
variable (reading : TextReading) {Tool : Type}

namespace RolloutItem

def events : RolloutItem Tool → List UserMessageEvent
  | eventMsg (.userMessage payload) => [payload]
  | _ => []

def realItems : RolloutItem Tool → List ResponseItem
  | responseItem item => if isRealUserMessage reading item then [item] else []
  | _ => []

end RolloutItem

/-- A message of the user, recorded as a response item and as an event. -/
structure UserMessage where
  item : ResponseItem
  event : UserMessageEvent
  deriving DecidableEq

/-- A turn between its start and its completion: its user messages are recorded twice, in the
same order. -/
structure ThreadTurn (Tool : Type) where
  id : String
  body : List (RolloutItem Tool)
  messages : List UserMessage
  plain : ∀ item ∈ body, item.isDelimiter = false
  items_eq : body.flatMap (RolloutItem.realItems reading) = messages.map UserMessage.item
  events_eq : body.flatMap RolloutItem.events = messages.map UserMessage.event

variable {reading}

def entryItems : Entry (ThreadTurn reading Tool) → List (RolloutItem Tool)
  | .action turn =>
    .eventMsg (.turnStarted turn.id) :: (turn.body ++ [.eventMsg (.turnComplete turn.id)])
  | .undo numTurns => [.eventMsg (.threadRolledBack numTurns)]

def rolloutItems (log : List (Entry (ThreadTurn reading Tool))) : List (RolloutItem Tool) :=
  log.flatMap entryItems

def entryMessages : Entry (ThreadTurn reading Tool) → List UserMessage
  | .action turn => turn.messages
  | .undo _ => []

variable (reading)

/-- Response items are recorded, markers applied to the history. -/
def remember (history : List ResponseItem) : RolloutItem Tool → List ResponseItem
  | .responseItem item => recordItem reading history item
  | .eventMsg (.threadRolledBack numTurns) => dropLastNUserTurns reading history numTurns
  | _ => history

variable (parseHookPrompt : Option String → List ContentItem → Option (String × List String))
  {reading}

/-- At every point the user messages shown are, in order, those remembered. -/
def ShownAsRemembered (log : List (Entry (ThreadTurn reading Tool))) : Prop :=
  ∃ kept : List UserMessage, kept.Sublist (log.flatMap entryMessages) ∧
    shownMessages (buildTurnsFromRolloutItems parseHookPrompt (rolloutItems log)) =
      kept.map (fun message => buildUserInputs message.event) ∧
    ((rolloutItems log).foldl (remember reading) []).filter (isRealUserMessage reading) =
      kept.map UserMessage.item

variable (reading)

/-- A marker takes as many user messages from the turns as from the history, and a tool item
takes the place of none. -/
def alignedAt (builder : ThreadHistoryBuilder Tool) (history : List ResponseItem) :
    RolloutItem Tool → Bool
  | .eventMsg (.threadRolledBack numTurns) =>
    let instructions := history.filter (isUserTurnBoundary reading)
    (shownMessages (builder.turns.drop (builder.turns.length - numTurns))).length =
      (instructions.drop (instructions.length - numTurns)).countP (isRealUserMessage reading)
  | item => !item.replaces builder

/-- Every item of a rollout is aligned where it is reached. -/
def aligned (builder : ThreadHistoryBuilder Tool) (history : List ResponseItem) :
    List (RolloutItem Tool) → Bool
  | [] => true
  | item :: items =>
    alignedAt reading builder history item &&
      aligned (builder.handleRolloutItem parseHookPrompt item) (remember reading history item) items

end Rollouts

section Agreement
variable {reading : TextReading} {Tool : Type}
  {parseHookPrompt : Option String → List ContentItem → Option (String × List String)}
  {builder : ThreadHistoryBuilder Tool} {history : List ResponseItem}

theorem aligned_append (items later : List (RolloutItem Tool)) :
    aligned reading parseHookPrompt builder history (items ++ later) =
      (aligned reading parseHookPrompt builder history items &&
        aligned reading parseHookPrompt
          (items.foldl (handleRolloutItem parseHookPrompt) builder)
          (items.foldl (remember reading) history) later) := by
  induction items generalizing builder history with
  | nil => rfl
  | cons item items ih => rw [cons_append, aligned, aligned, ih, Bool.and_assoc]; rfl

variable {item : RolloutItem Tool} {items : List (RolloutItem Tool)} {kept : List UserMessage}
  {shown : List (List UserInput)} {remembered : List ResponseItem}

/-- Within a turn the history remembers the user messages one by one. -/
theorem filter_real_remember (hitem : item.isDelimiter = false) (history : List ResponseItem) :
    (remember reading history item).filter (isRealUserMessage reading) =
      history.filter (isRealUserMessage reading) ++ item.realItems reading := by
  cases item with
  | responseItem item => exact filter_recordItem history item
  | eventMsg event =>
    cases event with
    | threadRolledBack numTurns => cases hitem
    | _ => exact (append_nil _).symm
  | _ => exact (append_nil _).symm

theorem filter_real_foldl_remember (hitems : ∀ item ∈ items, item.isDelimiter = false)
    (history : List ResponseItem) :
    (items.foldl (remember reading) history).filter (isRealUserMessage reading) =
      history.filter (isRealUserMessage reading) ++
        items.flatMap (RolloutItem.realItems reading) := by
  induction items generalizing history with
  | nil => exact (append_nil _).symm
  | cons item items ih =>
    rw [forall_mem_cons] at hitems
    rw [foldl_cons, ih hitems.2, filter_real_remember hitems.1, flatMap_cons, append_assoc]

theorem alignedAt_of_not_delimiter (hitem : item.isDelimiter = false) :
    alignedAt reading builder history item = !item.replaces builder := by
  cases item with
  | eventMsg event =>
    cases event with
    | threadRolledBack numTurns => cases hitem
    | _ => rfl
  | _ => rfl

/-- The items within a turn: what is shown grows by the user messages if all are aligned, and
stays behind them otherwise. -/
theorem foldl_handleRolloutItem_within {turnId : String}
    (hitems : ∀ item ∈ items, item.isDelimiter = false) (h : IsOpen turnId builder) :
    let after := items.foldl (handleRolloutItem parseHookPrompt) builder
    IsOpen turnId after ∧
      (aligned reading parseHookPrompt builder history items = true →
        after.shown = builder.shown ++ items.flatMap RolloutItem.userContents) ∧
      (aligned reading parseHookPrompt builder history items = false →
        after.shown.length <
          builder.shown.length + (items.flatMap RolloutItem.userContents).length) := by
  induction items generalizing builder history with
  | nil => exact ⟨h, fun _ => (append_nil _).symm, nofun⟩
  | cons item items ih =>
    rw [forall_mem_cons] at hitems
    have hstep := @handleRolloutItem_within _ builder turnId parseHookPrompt item hitems.1 h
    obtain ⟨hopen, haligned, hbehind⟩ := @ih (builder.handleRolloutItem parseHookPrompt item)
      (remember reading history item) hitems.2 hstep.isOpen
    rw [foldl_cons, aligned, alignedAt_of_not_delimiter hitems.1, flatMap_cons, length_append]
    refine ⟨hopen, fun hall => ?_, fun hnot => ?_⟩
    · rw [Bool.and_eq_true, Bool.not_eq_true'] at hall
      rw [haligned hall.2, hstep.shown_eq hall.1, append_assoc]
    · cases hreplaces : item.replaces builder with
      | false =>
        rw [hreplaces] at hnot
        have hlength := congrArg length (hstep.shown_eq hreplaces)
        have hrest := hbehind hnot
        rw [length_append] at hlength
        omega
      | true =>
        have hlength := hstep.length_shown hreplaces
        cases hrest : aligned reading parseHookPrompt
            (builder.handleRolloutItem parseHookPrompt item) (remember reading history item)
            items with
        | false =>
          have hlt := hbehind hrest
          omega
        | true =>
          have heq := congrArg length (haligned hrest)
          rw [length_append] at heq
          omega

theorem finishCurrentTurn_advance (h : builder.currentTurn = none) :
    builder.advance.finishCurrentTurn = builder.advance := by
  rw [finishCurrentTurn, show builder.advance.currentTurn = none from h]

theorem handleTurnStarted_of_none (h : builder.currentTurn = none) (turnId : String) :
    let after := builder.handleRolloutItem parseHookPrompt (.eventMsg (.turnStarted turnId))
    IsOpen turnId after ∧ after.shown = builder.shown := by
  intro after
  have hstarted : after = { builder.advance with
      currentTurn := some { builder.advance.newTurn (some turnId) with
        status := .inProgress, openedExplicitly := true } } := by
    change builder.advance.handleTurnStarted turnId = _
    rw [handleTurnStarted, finishCurrentTurn_advance h]
  rw [hstarted]
  refine ⟨⟨_, rfl, rfl, rfl⟩, ?_⟩
  rw [shown, shown, ensureTurn, ensureTurn, h]
  rfl

theorem currentTurn_finishCurrentTurn (builder : ThreadHistoryBuilder Tool) :
    builder.finishCurrentTurn.currentTurn = none := by
  rw [finishCurrentTurn]
  cases hcurrent : builder.currentTurn with
  | none => exact hcurrent
  | some turn =>
    dsimp only
    split <;> rfl

theorem shown_of_none (h : builder.currentTurn = none) :
    builder.shown = shownMessages builder.turns := by
  rw [shown, ensureTurn, h]
  exact append_nil _

theorem handleTurnComplete_of_isOpen {turnId : String} (h : IsOpen turnId builder) :
    let after := builder.handleRolloutItem parseHookPrompt (.eventMsg (.turnComplete turnId))
    after.currentTurn = none ∧ after.shown = builder.shown := by
  intro after
  obtain ⟨turn, hturn, -, hid⟩ := h
  have hcomplete : after = (builder.advance.mapCurrent markCompleted).finishCurrentTurn := by
    change builder.advance.handleTurnComplete turnId = _
    rw [handleTurnComplete, if_pos]
    rw [show builder.advance.currentTurn = some turn from hturn, Option.any_some,
      decide_eq_true hid]
  have hitems : ∀ turn : Turn Tool, (markCompleted turn).items = turn.items := by
    intro turn
    rw [markCompleted]
    split <;> rfl
  rw [hcomplete, shown_of_none (currentTurn_finishCurrentTurn _), shownMessages_finishCurrentTurn,
    shown_mapCurrent hitems, shown_advance]
  exact ⟨currentTurn_finishCurrentTurn _, rfl⟩

theorem flatMap_userContents (items : List (RolloutItem Tool)) :
    items.flatMap RolloutItem.userContents =
      (items.flatMap RolloutItem.events).map buildUserInputs := by
  rw [map_flatMap]
  refine flatMap_congr fun item _ => ?_
  cases item with
  | eventMsg event => cases event <;> rfl
  | _ => rfl

theorem turn_entry (turn : ThreadTurn reading Tool) (h : builder.currentTurn = none) :
    let after := (entryItems (.action turn)).foldl (handleRolloutItem parseHookPrompt) builder
    after.currentTurn = none ∧
      ((entryItems (.action turn)).foldl (remember reading) history).filter
          (isRealUserMessage reading) =
        history.filter (isRealUserMessage reading) ++ turn.messages.map UserMessage.item ∧
      (aligned reading parseHookPrompt builder history (entryItems (.action turn)) = true →
        after.shown =
          builder.shown ++ turn.messages.map fun message => buildUserInputs message.event) ∧
      (aligned reading parseHookPrompt builder history (entryItems (.action turn)) = false →
        after.shown.length < builder.shown.length + turn.messages.length) := by
  intro after
  obtain ⟨hopen, hstarted⟩ := @handleTurnStarted_of_none _ parseHookPrompt builder h turn.id
  obtain ⟨hbody, haligned, hbehind⟩ := @foldl_handleRolloutItem_within reading _ parseHookPrompt _
    history turn.body turn.id turn.plain hopen
  obtain ⟨hnone, hcompleted⟩ := @handleTurnComplete_of_isOpen _ parseHookPrompt _ turn.id hbody
  have hafter : after = handleRolloutItem parseHookPrompt
      (turn.body.foldl (handleRolloutItem parseHookPrompt)
        (builder.handleRolloutItem parseHookPrompt (.eventMsg (.turnStarted turn.id))))
      (.eventMsg (.turnComplete turn.id)) := by
    change foldl _ _ (_ :: (_ ++ _)) = _
    rw [foldl_cons, foldl_append]
    rfl
  have hall : aligned reading parseHookPrompt builder history (entryItems (.action turn)) =
      aligned reading parseHookPrompt
        (builder.handleRolloutItem parseHookPrompt (.eventMsg (.turnStarted turn.id))) history
        turn.body := by
    rw [entryItems, aligned, aligned_append]
    exact (Bool.true_and _).trans (Bool.and_true _)
  have hcontents : turn.body.flatMap RolloutItem.userContents =
      turn.messages.map fun message => buildUserInputs message.event := by
    rw [flatMap_userContents, turn.events_eq, map_map]
    rfl
  rw [hall, hafter, hcompleted]
  rw [hcontents, hstarted] at haligned hbehind
  refine ⟨hnone, ?_, haligned, fun hnot => ?_⟩
  · rw [entryItems, foldl_cons, foldl_append, ← turn.items_eq]
    exact filter_real_foldl_remember turn.plain history
  · simpa only [length_map] using hbehind hnot

/-- A marker takes from the history the user messages among its newest instructions. -/
theorem real_dropLastNUserTurns (history : List ResponseItem) (n : ℕ) :
    (dropLastNUserTurns reading history n).filter (isRealUserMessage reading) ++
        ((history.filter (isUserTurnBoundary reading)).drop
          ((history.filter (isUserTurnBoundary reading)).length - n)).filter
            (isRealUserMessage reading) =
      history.filter (isRealUserMessage reading) := by
  rw [← filter_filter_boundary (dropLastNUserTurns reading history n),
    filter_dropLastNUserTurns, ← filter_append, take_append_drop,
    filter_filter_boundary]

theorem shown_threadRolledBack (n : ℕ) (h : builder.currentTurn = none) :
    let after := builder.handleRolloutItem parseHookPrompt (.eventMsg (.threadRolledBack n))
    after.currentTurn = none ∧
      after.shown ++ shownMessages (builder.turns.drop (builder.turns.length - n)) =
        builder.shown := by
  intro after
  have hnone : after.currentTurn = none := by
    change (builder.advance.handleThreadRollback n).currentTurn = none
    rw [handleThreadRollback, finishCurrentTurn_advance h]
    exact h
  have hturns : after.turns = builder.turns.take (builder.turns.length - n) := by
    change (builder.advance.handleThreadRollback n).turns = _
    rw [handleThreadRollback, finishCurrentTurn_advance h]
    change (if n ≥ builder.turns.length then [] else builder.turns.take _) = _
    split
    · rename_i hall
      rw [Nat.sub_eq_zero_of_le hall, take_zero]
    · rfl
  refine ⟨hnone, ?_⟩
  rw [shown_of_none hnone, shown_of_none h, hturns, ← shownMessages_append, take_append_drop]

theorem aligned_threadRolledBack {n : ℕ} :
    aligned reading parseHookPrompt builder history [.eventMsg (.threadRolledBack n)] = true ↔
      (shownMessages (builder.turns.drop (builder.turns.length - n))).length =
        (((history.filter (isUserTurnBoundary reading)).drop
          ((history.filter (isUserTurnBoundary reading)).length - n)).filter
            (isRealUserMessage reading)).length := by
  rw [aligned, aligned, Bool.and_true, ← countP_eq_length_filter]
  exact decide_eq_true_iff

def SameMessages (kept : List UserMessage) (shown : List (List UserInput))
    (remembered : List ResponseItem) : Prop :=
  shown = kept.map (fun message => buildUserInputs message.event) ∧
    remembered = kept.map UserMessage.item

theorem SameMessages.length_eq (h : SameMessages kept shown remembered) :
    shown.length = remembered.length := by
  rw [h.1, h.2, length_map, length_map]

theorem SameMessages.dropped {left : List (List UserInput)} {dropped : List (List UserInput)}
    {rest forgotten : List ResponseItem} (h : SameMessages kept shown remembered)
    (hshown : left ++ dropped = shown) (hremembered : rest ++ forgotten = remembered)
    (hlength : dropped.length = forgotten.length) :
    SameMessages (kept.take left.length) left rest := by
  have hboth : left.length = rest.length := by
    have htotal := h.length_eq
    rw [← hshown, ← hremembered, length_append, length_append] at htotal
    omega
  refine ⟨?_, ?_⟩
  · rw [map_take, ← h.1, ← hshown, take_left]
  · rw [hboth, map_take, ← h.2, ← hremembered, take_left]

variable {log : List (Entry (ThreadTurn reading Tool))}

def builderAfter
    (parseHookPrompt : Option String → List ContentItem → Option (String × List String))
    (log : List (Entry (ThreadTurn reading Tool))) : ThreadHistoryBuilder Tool :=
  (rolloutItems log).foldl (handleRolloutItem parseHookPrompt) {}

def historyAfter (log : List (Entry (ThreadTurn reading Tool))) : List ResponseItem :=
  (rolloutItems log).foldl (remember reading) []

theorem rolloutItems_concat (log : List (Entry (ThreadTurn reading Tool)))
    (entry : Entry (ThreadTurn reading Tool)) :
    rolloutItems (log ++ [entry]) = rolloutItems log ++ entryItems entry := by
  rw [rolloutItems, flatMap_append]
  exact congrArg _ (append_nil _)

theorem shownAsRemembered_iff : ShownAsRemembered parseHookPrompt log ↔
    ∃ kept : List UserMessage, kept.Sublist (log.flatMap entryMessages) ∧
      SameMessages kept (builderAfter parseHookPrompt log).shown
        ((historyAfter log).filter (isRealUserMessage reading)) := by
  rw [ShownAsRemembered, buildTurnsFromRolloutItems, shownMessages_finishCurrentTurn]
  rfl

theorem currentTurn_builderAfter (log : List (Entry (ThreadTurn reading Tool))) :
    (builderAfter parseHookPrompt log).currentTurn = none := by
  induction log using reverseRecOn with
  | nil => rfl
  | append_singleton log entry ih =>
    rw [builderAfter, rolloutItems_concat, foldl_append]
    cases entry with
    | action turn => exact (@turn_entry reading _ parseHookPrompt _ [] turn ih).1
    | undo n => exact (@shown_threadRolledBack _ parseHookPrompt _ n ih).1

/-- One entry of the log keeps the agreement exactly if its items are aligned. -/
theorem shownAsRemembered_concat (entry : Entry (ThreadTurn reading Tool))
    (h : ShownAsRemembered parseHookPrompt log) :
    ShownAsRemembered parseHookPrompt (log ++ [entry]) ↔
      aligned reading parseHookPrompt (builderAfter parseHookPrompt log) (historyAfter log)
        (entryItems entry) = true := by
  obtain ⟨kept, hsublist, hsame⟩ := shownAsRemembered_iff.mp h
  have hnone := @currentTurn_builderAfter reading _ parseHookPrompt log
  rw [shownAsRemembered_iff, builderAfter, historyAfter, rolloutItems_concat, foldl_append,
    foldl_append, flatMap_append]
  change (∃ kept : List UserMessage, _ ∧ SameMessages kept (foldl _
    (builderAfter parseHookPrompt log) _).shown ((foldl _ (historyAfter log) _).filter _)) ↔ _
  cases entry with
  | action turn =>
    obtain ⟨-, hremembered, haligned, hbehind⟩ :=
      @turn_entry reading _ parseHookPrompt _ (historyAfter log) turn hnone
    rw [hremembered]
    constructor
    · rintro ⟨now, -, hnow⟩
      by_contra hnot
      have hless := hbehind (Bool.eq_false_iff.mpr hnot)
      have hequal := hnow.length_eq
      have hbefore := hsame.length_eq
      rw [length_append, length_map] at hequal
      omega
    · intro hall
      refine ⟨kept ++ turn.messages, ?_, ?_, ?_⟩
      · rw [flatMap_singleton]
        exact hsublist.append (.refl _)
      · rw [haligned hall, hsame.1, map_append]
      · rw [hsame.2, map_append]
  | undo n =>
    obtain ⟨-, hshown⟩ := @shown_threadRolledBack _ parseHookPrompt _ n hnone
    have hremembered := @real_dropLastNUserTurns reading (historyAfter log) n
    rw [entryItems, aligned_threadRolledBack]
    constructor
    · rintro ⟨now, -, hnow⟩
      have hequal := hnow.length_eq
      have hbefore := hsame.length_eq
      rw [← hshown, ← hremembered, length_append, length_append] at hbefore
      simp only [foldl_cons, foldl_nil, remember] at hequal
      omega
    · intro hlength
      refine ⟨_, ?_, hsame.dropped hshown hremembered hlength⟩
      exact ((take_sublist _ _).trans hsublist).trans (sublist_append_left _ _)

/-- At every point of the log the user messages shown are those remembered, exactly if every
marker takes as many from the turns as from the history and no tool item replaces one. -/
theorem shown_messages_remembered_iff (parseHookPrompt :
      Option String → List ContentItem → Option (String × List String))
    (log : List (Entry (ThreadTurn reading Tool))) :
    (∀ front, front <+: log → ShownAsRemembered parseHookPrompt front) ↔
      aligned reading parseHookPrompt {} [] (rolloutItems log) = true := by
  induction log using reverseRecOn with
  | nil =>
    refine ⟨fun _ => rfl, fun _ front hfront => ?_⟩
    rw [prefix_nil.mp hfront]
    exact ⟨[], .slnil, rfl, rfl⟩
  | append_singleton log entry ih =>
    have hstep : (∀ front, front <+: log ++ [entry] → ShownAsRemembered parseHookPrompt front) ↔
        (∀ front, front <+: log → ShownAsRemembered parseHookPrompt front) ∧
          ShownAsRemembered parseHookPrompt (log ++ [entry]) := by
      constructor
      · intro h
        exact ⟨fun front hfront => h front (hfront.trans (prefix_append _ _)), h _ prefix_rfl⟩
      · rintro ⟨hlog, hall⟩ front hfront
        rcases prefix_concat_iff.mp hfront with rfl | hfront
        · exact hall
        · exact hlog front hfront
    rw [hstep, rolloutItems_concat, aligned_append, Bool.and_eq_true, ← ih]
    refine and_congr_right fun hlog => ?_
    exact shownAsRemembered_concat entry (hlog log prefix_rfl)

end Agreement

/-- No text is contextual or an inter-agent communication. -/
def plainReading : TextReading where
  isContextualUserText _ := false
  isInterAgentText _ := false
  truncateOutput output := output
  truncateText text _ := text

def typed (text : String) : UserMessage :=
  ⟨.message none "user" [.inputText text] none, ⟨text, none, [], []⟩⟩

def typedItems (messages : List UserMessage) : List (RolloutItem Unit) :=
  messages.flatMap fun message =>
    [.responseItem message.item, .eventMsg (.userMessage message.event)]

def firstTurn : ThreadTurn plainReading Unit where
  id := "first"
  body := .turnContext :: typedItems [typed "question"]
  messages := [typed "question"]
  plain := by decide
  items_eq := by decide
  events_eq := by decide

def steeredTurn : ThreadTurn plainReading Unit where
  id := "steered"
  body := .turnContext :: typedItems [typed "task", typed "correction"]
  messages := [typed "task", typed "correction"]
  plain := by decide
  items_eq := by decide
  events_eq := by decide

def compactionTurn : ThreadTurn plainReading Unit where
  id := "compaction"
  body := [.turnContext, .compacted]
  messages := []
  plain := by decide
  items_eq := by decide
  events_eq := by decide

/-- Rolling back a steered turn leaves its first message remembered and not shown; rolling back
a turn without user messages leaves a message shown that is no longer remembered. -/
theorem rollback_counts_differ :
    (shownMessages (buildTurnsFromRolloutItems (fun _ _ => none)
          (rolloutItems [.action firstTurn, .action steeredTurn, .undo 1])) =
        [[.text "question" []]] ∧
      (historyAfter [.action firstTurn, .action steeredTurn, .undo 1]).filter
          (isRealUserMessage plainReading) =
        [(typed "question").item, (typed "task").item]) ∧
    shownMessages (buildTurnsFromRolloutItems (fun _ _ => none)
          (rolloutItems [.action firstTurn, .action compactionTurn, .undo 1])) =
        [[.text "question" []]] ∧
      (historyAfter [.action firstTurn, .action compactionTurn, .undo 1]).filter
          (isRealUserMessage plainReading) = [] := by
  decide +kernel

end DeepseekX.ThreadHistory
