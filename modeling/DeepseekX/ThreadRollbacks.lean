import DeepseekX.ContextHistory
import DeepseekX.ThreadHistory

/-!
# User messages shown and remembered

The same rollout is read twice: the builder shows turns, and the model's history keeps the
recorded items. A rollback marker takes turns from the one and instructions from the other.
-/

namespace DeepseekX.ThreadHistory
open ContextHistory ResponseItems ThreadHistoryBuilder List Option

section UpdateFirst
variable {α β : Type} {p : α → Bool} {update : α → α} {g : α → List β}

theorem flatMap_updateFirst (l : List α) (h : ∀ a, l.find? p = some a → g (update a) = g a) :
    (updateFirst p update l).flatMap g = l.flatMap g := by
  induction l with
  | nil => rfl
  | cons a l ih =>
    rw [updateFirst]
    split
    · rename_i ha
      rw [flatMap_cons, flatMap_cons, h a (find?_cons_of_pos ha)]
    · rename_i ha
      rw [flatMap_cons, flatMap_cons, ih fun b hb => h b ?_]
      rw [find?_cons_of_neg ha, hb]

theorem length_flatMap_updateFirst {l : List α} {a : α} (h : l.find? p = some a) :
    ((updateFirst p update l).flatMap g).length + (g a).length =
      (l.flatMap g).length + (g (update a)).length := by
  induction l with
  | nil => cases h
  | cons b l ih =>
    rw [updateFirst]
    split
    · rename_i hb
      rw [find?_cons_of_pos hb] at h
      obtain rfl := some.inj h
      rw [flatMap_cons, flatMap_cons, length_append, length_append]
      omega
    · rename_i hb
      rw [find?_cons_of_neg hb] at h
      have hrest := ih h
      rw [flatMap_cons, flatMap_cons, length_append, length_append]
      omega

end UpdateFirst

variable {Tool : Type}

section Shown

def ThreadItem.userContents : ThreadItem Tool → List (List UserInput)
  | userMessage _ content => [content]
  | _ => []

def userMessages (items : List (ThreadItem Tool)) : List (List UserInput) :=
  items.flatMap ThreadItem.userContents

def shownMessages (turns : List (Turn Tool)) : List (List UserInput) :=
  turns.flatMap fun turn => userMessages turn.items

variable (builder : ThreadHistoryBuilder Tool)

def targetItems : Option String → List (ThreadItem Tool)
  | none => builder.ensureTurn.items
  | some turnId =>
    if builder.currentTurn.any (·.id = turnId) then builder.ensureTurn.items
    else ((builder.turns.find? (·.id = turnId)).map (·.items)).getD []

/-- A tool item with this id takes the place of a user message. -/
def replacesUserMessage (turnId : Option String) (id : String) : Bool :=
  ((targetItems builder turnId).find? (·.id = id)).any fun item => !item.userContents.isEmpty

def ThreadHistoryBuilder.shown : List (List UserInput) :=
  shownMessages builder.turns ++ userMessages builder.ensureTurn.items

variable {builder : ThreadHistoryBuilder Tool} {turnId : String}

theorem userMessages_append (items others : List (ThreadItem Tool)) :
    userMessages (items ++ others) = userMessages items ++ userMessages others :=
  flatMap_append

theorem shownMessages_append (turns others : List (Turn Tool)) :
    shownMessages (turns ++ others) = shownMessages turns ++ shownMessages others :=
  flatMap_append

theorem shownMessages_finishCurrentTurn (builder : ThreadHistoryBuilder Tool) :
    shownMessages builder.finishCurrentTurn.turns = builder.shown := by
  rw [finishCurrentTurn, shown, ensureTurn]
  cases builder.currentTurn with
  | none => exact (append_nil _).symm
  | some turn =>
    dsimp only
    split
    · rename_i hdropped
      have hempty : turn.items = [] := by
        rw [Bool.and_eq_true, Bool.and_eq_true, List.isEmpty_iff] at hdropped
        exact hdropped.1.1
      rw [getD_some, hempty]
      exact (append_nil _).symm
    · rw [shownMessages_append]
      exact congrArg _ (append_nil _)

theorem shown_updateTurn (update : PendingTurn Tool → PendingTurn Tool) :
    (builder.updateTurn update).shown =
      shownMessages builder.turns ++ userMessages (update builder.ensureTurn).items := rfl

theorem shown_pushItem (item : String → ThreadItem Tool) :
    ∃ id, (builder.pushItem item).shown = builder.shown ++ (item id).userContents := by
  refine ⟨"item-" ++ toString builder.nextItemIndex, ?_⟩
  change shownMessages builder.turns ++ userMessages (builder.ensureTurn.items ++ [item _]) = _
  rw [userMessages_append, ← append_assoc]
  exact congrArg _ (append_nil _)

variable {items : List (ThreadItem Tool)} {id : String} {target : Option String}
variable (contents : Tool)

theorem userMessages_upsertTurnItem
    (h : ((items.find? (·.id = id)).any fun item => !item.userContents.isEmpty) = false) :
    userMessages (upsertTurnItem items (.tool id contents)) = userMessages items := by
  rw [upsertTurnItem]
  split
  · refine flatMap_updateFirst items fun item hitem => ?_
    change find? (fun item => decide (item.id = id)) items = some item at hitem
    rw [hitem, any_some, Bool.not_eq_false', List.isEmpty_iff] at h
    exact h.symm
  · rw [userMessages_append]
    exact append_nil _

theorem length_userMessages_upsertTurnItem
    (h : ((items.find? (·.id = id)).any fun item => !item.userContents.isEmpty) = true) :
    (userMessages (upsertTurnItem items (.tool id contents))).length + 1 =
      (userMessages items).length := by
  obtain ⟨item, hitem, hcontents⟩ := (any_eq_true _ _).mp h
  have hid := find?_some hitem
  have hsome : items.any (·.id = id) = true :=
    any_eq_true.mpr ⟨item, mem_of_find?_eq_some hitem, hid⟩
  have hlength : item.userContents.length = 1 := by
    cases item with
    | userMessage id content => rfl
    | _ => cases hcontents
  have hcount := @length_flatMap_updateFirst _ _
    (fun item : ThreadItem Tool => decide (item.id = id)) (fun _ => ThreadItem.tool id contents)
    ThreadItem.userContents items item hitem
  rw [hlength] at hcount
  change (userMessages (if items.any (·.id = id) = true then _ else _)).length + 1 = _
  rw [if_pos hsome]
  exact hcount

/-- Where the item goes, it replaces what is found there or is added. -/
theorem shown_handleToolItem_cases (target : Option String) (item : ThreadItem Tool) :
    (targetItems builder target = builder.ensureTurn.items ∧
      (builder.handleToolItem target item).shown = shownMessages builder.turns ++
        userMessages (upsertTurnItem builder.ensureTurn.items item)) ∨
    ∃ turnId, targetItems builder target =
        ((builder.turns.find? (·.id = turnId)).map (·.items)).getD [] ∧
      (builder.handleToolItem target item).shown = shownMessages (updateFirst (·.id = turnId)
        (fun turn => { turn with items := upsertTurnItem turn.items item }) builder.turns) ++
          userMessages builder.ensureTurn.items := by
  cases target with
  | none => exact .inl ⟨rfl, rfl⟩
  | some turnId =>
    rw [targetItems, handleToolItem, upsertItemInTurnId]
    split
    · exact .inl ⟨rfl, rfl⟩
    · exact .inr ⟨turnId, rfl, rfl⟩

theorem shown_handleToolItem (h : replacesUserMessage builder target id = false) :
    (builder.handleToolItem target (.tool id contents)).shown = builder.shown := by
  rw [replacesUserMessage] at h
  rcases @shown_handleToolItem_cases _ builder target (.tool id contents) with
    ⟨htarget, hshown⟩ | ⟨turnId, htarget, hshown⟩
  · rw [htarget] at h
    rw [hshown, userMessages_upsertTurnItem contents h]
    rfl
  · rw [hshown]
    refine congrArg (· ++ _) (flatMap_updateFirst _ fun turn hturn => ?_)
    rw [htarget, hturn] at h
    exact userMessages_upsertTurnItem contents h

theorem length_shown_handleToolItem (h : replacesUserMessage builder target id = true) :
    (builder.handleToolItem target (.tool id contents)).shown.length + 1 =
      builder.shown.length := by
  rw [replacesUserMessage] at h
  rcases @shown_handleToolItem_cases _ builder target (.tool id contents) with
    ⟨htarget, hshown⟩ | ⟨turnId, htarget, hshown⟩
  · rw [htarget] at h
    have hcount := length_userMessages_upsertTurnItem contents h
    rw [hshown, shown, length_append, length_append]
    omega
  · cases hturn : builder.turns.find? (·.id = turnId) with
    | none =>
      rw [htarget, hturn] at h
      cases h
    | some turn =>
      rw [htarget, hturn, map_some, getD_some] at h
      have hcount := length_userMessages_upsertTurnItem contents h
      have hturns := @length_flatMap_updateFirst _ _
        (fun turn : Turn Tool => decide (turn.id = turnId))
        (fun turn => { turn with items := upsertTurnItem turn.items (.tool id contents) })
        (fun turn => userMessages turn.items) builder.turns turn hturn
      rw [hshown, shown, length_append, length_append]
      change (shownMessages _).length + _ = (shownMessages _).length + _ at hturns
      dsimp only at hturns
      omega

end Shown

section Steps
variable {builder : ThreadHistoryBuilder Tool} {turnId : String}
  {parseHookPrompt : Option String → List ContentItem → Option (String × List String)}

namespace RolloutItem

def userContents : RolloutItem Tool → List (List UserInput)
  | eventMsg (.userMessage payload) => [buildUserInputs payload]
  | _ => []

def isDelimiter : RolloutItem Tool → Bool
  | eventMsg (.turnStarted _) | eventMsg (.turnComplete _) | eventMsg (.threadRolledBack _) => true
  | _ => false

/-- A tool item that takes the place of a user message. -/
def replaces (builder : ThreadHistoryBuilder Tool) : RolloutItem Tool → Bool
  | eventMsg (.toolItem turnId id _) => replacesUserMessage builder turnId id
  | _ => false

end RolloutItem

def IsOpen (turnId : String) (builder : ThreadHistoryBuilder Tool) : Prop :=
  ∃ turn, builder.currentTurn = some turn ∧ turn.openedExplicitly = true ∧ turn.id = turnId

variable (h : IsOpen turnId builder)
include h

theorem IsOpen.updateTurn {update : PendingTurn Tool → PendingTurn Tool}
    (hupdate : ∀ turn, (update turn).openedExplicitly = turn.openedExplicitly ∧
      (update turn).id = turn.id) :
    IsOpen turnId (builder.updateTurn update) := by
  obtain ⟨turn, hturn, hexplicit, hid⟩ := h
  refine ⟨update turn, ?_, (hupdate turn).1.trans hexplicit, (hupdate turn).2.trans hid⟩
  rw [ThreadHistoryBuilder.updateTurn, ThreadHistoryBuilder.ensureTurn, hturn, getD_some]

theorem IsOpen.pushItem (item : String → ThreadItem Tool) :
    IsOpen turnId (builder.pushItem item) := by
  have hpushed : IsOpen turnId (builder.updateTurn fun turn => { turn with
    items := turn.items ++ [item ("item-" ++ toString builder.nextItemIndex)] }) :=
      h.updateTurn fun _ => ⟨rfl, rfl⟩
  exact hpushed

theorem IsOpen.handleReasoning (summary content : List String) :
    IsOpen turnId (builder.handleReasoning summary content) := by
  rw [ThreadHistoryBuilder.handleReasoning]
  split
  · exact h.updateTurn fun _ => ⟨rfl, rfl⟩
  · exact h.pushItem _

omit h

variable {update : Turn Tool → Turn Tool} {after : ThreadHistoryBuilder Tool}
  {item : RolloutItem Tool}

theorem IsOpen.mapCurrent
    (hupdate : ∀ turn, (update turn).id = turn.id) (h : IsOpen turnId builder) :
    IsOpen turnId (builder.mapCurrent update) := by
  obtain ⟨turn, hturn, hexplicit, hid⟩ := h
  refine ⟨_, congrArg (Option.map _) hturn, hexplicit, (hupdate turn.toTurn).trans hid⟩

theorem shown_handleReasoning (summary content : List String) :
    (builder.handleReasoning summary content).shown = builder.shown := by
  rw [handleReasoning]
  split
  · rename_i id oldSummary oldContent hlast
    have hitems : builder.ensureTurn.items =
        builder.ensureTurn.items.dropLast ++ [.reasoning id oldSummary oldContent] :=
      (dropLast_append_getLast? _ hlast).symm
    rw [shown_updateTurn, shown]
    conv_rhs => rw [hitems]
    rw [userMessages_append, userMessages_append]
    rfl
  · obtain ⟨id, hshown⟩ := @shown_pushItem _ builder (.reasoning · summary content)
    exact hshown.trans (append_nil _)

theorem shown_mapCurrent (hupdate : ∀ turn, (update turn).items = turn.items) :
    (builder.mapCurrent update).shown = builder.shown := by
  rw [shown, shown, ensureTurn, ensureTurn, mapCurrent]
  cases builder.currentTurn with
  | none => rfl
  | some turn =>
    simp [hupdate]

theorem shown_updateFinishedTurn (hupdate : ∀ turn, (update turn).items = turn.items)
    (target : String) : (builder.updateFinishedTurn target update).shown = builder.shown := by
  refine congrArg (· ++ _) (flatMap_updateFirst _ fun turn _ => ?_)
  rw [hupdate]

theorem handleTurnAborted_within (h : IsOpen turnId builder) (target : Option String) :
    IsOpen turnId (builder.handleTurnAborted target) ∧
      (builder.handleTurnAborted target).shown = builder.shown := by
  have hitems (turn : Turn Tool) : (applyAbort turn).items = turn.items := rfl
  have habort : IsOpen turnId (builder.mapCurrent applyAbort) ∧
      (builder.mapCurrent applyAbort).shown = builder.shown :=
    ⟨h.mapCurrent fun _ => rfl, shown_mapCurrent hitems⟩
  cases target with
  | none => exact habort
  | some target =>
    rw [handleTurnAborted]
    split
    · exact habort
    · split
      · exact ⟨h, shown_updateFinishedTurn hitems target⟩
      · exact habort

theorem IsOpen.handleToolItem (h : IsOpen turnId builder) (target : Option String)
    (item : ThreadItem Tool) : IsOpen turnId (builder.handleToolItem target item) := by
  have hcurrent : IsOpen turnId (builder.upsertItemInCurrentTurn item) :=
    h.updateTurn fun _ => ⟨rfl, rfl⟩
  cases target with
  | none => exact hcurrent
  | some target =>
    rw [ThreadHistoryBuilder.handleToolItem, ThreadHistoryBuilder.upsertItemInTurnId]
    split
    · exact hcurrent
    · exact h

/-- In a turn opened by its start event a user message goes to that turn. -/
theorem handleUserMessage_of_isOpen (h : IsOpen turnId builder) (payload : UserMessageEvent) :
    builder.handleUserMessage payload =
      builder.pushItem (.userMessage · (buildUserInputs payload)) := by
  obtain ⟨turn, hturn, hexplicit, -⟩ := h
  rw [handleUserMessage, hturn]
  simp only [hexplicit, Bool.not_true, Bool.false_and, Bool.false_eq_true, if_false]

/-- One item within a turn: a user message is shown behind the others, and nothing else changes
what is shown, unless a tool item takes the place of a user message. -/
structure WithinTurn (turnId : String) (before after : ThreadHistoryBuilder Tool)
    (item : RolloutItem Tool) : Prop where
  isOpen : IsOpen turnId after
  shown_eq : item.replaces before = false → after.shown = before.shown ++ item.userContents
  length_shown : item.replaces before = true → after.shown.length + 1 = before.shown.length

theorem WithinTurn.of_shown_eq (hopen : IsOpen turnId after)
    (hreplaces : item.replaces builder = false)
    (hshown : after.shown = builder.shown ++ item.userContents) :
    WithinTurn turnId builder after item :=
  ⟨hopen, fun _ => hshown, fun h => by rw [hreplaces] at h; cases h⟩

theorem WithinTurn.pushItem {event : EventMsg Tool} (h : IsOpen turnId builder)
    (item : String → ThreadItem Tool)
    (hreplaces : RolloutItem.replaces builder (.eventMsg event) = false)
    (hitem : ∀ id, (item id).userContents = RolloutItem.userContents (.eventMsg event)) :
    WithinTurn turnId builder (builder.pushItem item) (.eventMsg event) := by
  obtain ⟨id, hshown⟩ := @shown_pushItem _ builder item
  exact .of_shown_eq (h.pushItem item) hreplaces (by rw [hshown, hitem])

theorem WithinTurn.unchanged (hopen : IsOpen turnId after)
    (hreplaces : item.replaces builder = false) (hshown : after.shown = builder.shown)
    (hitem : item.userContents = []) : WithinTurn turnId builder after item :=
  .of_shown_eq hopen hreplaces (by rw [hshown, hitem, append_nil])

theorem handleEvent_within (event : EventMsg Tool)
    (hevent : RolloutItem.isDelimiter (.eventMsg event) = false) (h : IsOpen turnId builder) :
    WithinTurn turnId builder (builder.handleEvent event) (.eventMsg event) := by
  cases event with
  | userMessage payload =>
    rw [handleEvent, handleUserMessage_of_isOpen h]
    exact .pushItem h _ rfl fun _ => rfl
  | agentMessage message phase =>
    rw [handleEvent, handleAgentMessage]
    split
    · exact .unchanged h rfl rfl rfl
    · exact .pushItem h _ rfl fun _ => rfl
  | agentReasoning text =>
    rw [handleEvent, handleAgentReasoning]
    split
    · exact .unchanged h rfl rfl rfl
    · exact .unchanged (h.handleReasoning _ _) rfl (shown_handleReasoning _ _) rfl
  | agentReasoningRawContent text =>
    rw [handleEvent, handleAgentReasoningRawContent]
    split
    · exact .unchanged h rfl rfl rfl
    · exact .unchanged (h.handleReasoning _ _) rfl (shown_handleReasoning _ _) rfl
  | toolItem target id contents =>
    refine ⟨h.handleToolItem target _, fun hreplaces => ?_, fun hreplaces => ?_⟩
    · exact (shown_handleToolItem contents hreplaces).trans (append_nil _).symm
    · exact length_shown_handleToolItem contents hreplaces
  | contextCompacted => exact .pushItem h _ rfl fun _ => rfl
  | enteredReviewMode | exitedReviewMode =>
    rw [handleEvent]
    exact .pushItem h _ rfl fun _ => rfl
  | error message affectsTurnStatus =>
    rw [handleEvent, handleError]
    split
    · exact .unchanged (h.mapCurrent fun _ => rfl) rfl (shown_mapCurrent fun _ => rfl) rfl
    · exact .unchanged h rfl rfl rfl
  | turnAborted target =>
    obtain ⟨hopen, hshown⟩ := handleTurnAborted_within h target
    exact .unchanged hopen rfl hshown rfl
  | turnStarted | turnComplete | threadRolledBack => cases hevent
  | other => exact .unchanged h rfl rfl rfl

theorem items_ensureTurn_advance :
    builder.advance.ensureTurn.items = builder.ensureTurn.items := by
  rw [ensureTurn, ensureTurn]
  change (builder.currentTurn.getD _).items = _
  cases builder.currentTurn <;> rfl

theorem shown_advance : builder.advance.shown = builder.shown := by
  rw [shown, shown, items_ensureTurn_advance]
  rfl

theorem targetItems_advance (target : Option String) :
    targetItems builder.advance target = targetItems builder target := by
  cases target with
  | none => exact items_ensureTurn_advance
  | some target => rw [targetItems, items_ensureTurn_advance]; rfl

theorem handleResponseItem_within (item : ResponseItem) (h : IsOpen turnId builder) :
    IsOpen turnId (builder.handleResponseItem parseHookPrompt item) ∧
      (builder.handleResponseItem parseHookPrompt item).shown = builder.shown := by
  cases item with
  | message id role content phase =>
    rw [handleResponseItem]
    split
    · exact ⟨h, rfl⟩
    · split
      · refine ⟨h.updateTurn fun _ => ⟨rfl, rfl⟩, ?_⟩
        rw [shown_updateTurn, userMessages_append]
        exact congrArg _ (append_nil _)
      · exact ⟨h, rfl⟩
  | _ => exact ⟨h, rfl⟩

theorem handleRolloutItem_within (item : RolloutItem Tool) (hitem : item.isDelimiter = false)
    (h : IsOpen turnId builder) :
    WithinTurn turnId builder (builder.handleRolloutItem parseHookPrompt item) item := by
  have hadvanced : IsOpen turnId builder.advance := h
  cases item with
  | eventMsg event =>
    obtain ⟨hopen, hshown, hlength⟩ := handleEvent_within event hitem hadvanced
    have hreplaces : RolloutItem.replaces builder.advance (.eventMsg event) =
        RolloutItem.replaces builder (.eventMsg event) := by
      cases event with
      | toolItem target id contents =>
        rw [RolloutItem.replaces, RolloutItem.replaces, replacesUserMessage, replacesUserMessage,
          targetItems_advance]
      | _ => rfl
    rw [hreplaces, shown_advance] at hshown hlength
    exact ⟨hopen, hshown, hlength⟩
  | compacted =>
    have hshown : builder.advance.handleCompacted.shown = builder.advance.shown := rfl
    exact .unchanged (hadvanced.updateTurn fun _ => ⟨rfl, rfl⟩) rfl (hshown.trans shown_advance) rfl
  | responseItem item =>
    obtain ⟨hopen, hshown⟩ := @handleResponseItem_within _ builder.advance turnId parseHookPrompt
      item hadvanced
    exact .unchanged hopen rfl (hshown.trans shown_advance) rfl
  | turnContext | sessionMeta => exact .unchanged hadvanced rfl shown_advance rfl

end Steps

end DeepseekX.ThreadHistory
