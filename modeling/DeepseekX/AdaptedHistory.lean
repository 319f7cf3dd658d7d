import DeepseekX.ChatMessagePieces

/-!
# The history in the messages

Every supported item stands in the messages of a request once and in its place: flattened,
the messages are the translations of the items, and the adapter fails exactly on the
histories with an unsupported item.
-/

namespace DeepseekX.ChatMessages
open ResponseItems Transducers List

inductive Entry where
  | system (text : String)
  | user (text : String)
  | assistant (text : String)
  | call (toolCall : ChatToolCall)
  | output (callId text : String)
  deriving DecidableEq, Repr

def ChatMessage.flatten : ChatMessage → List Entry
  | .system content => [.system content]
  | .user content => [.user content]
  | .assistant content _ toolCalls =>
    (content.map .assistant).toList ++ (toolCalls.getD []).map .call
  | .tool content toolCallId => [.output toolCallId content]

def plain : ContentItem → Option String
  | .inputText text | .outputText text => some text
  | .inputImage _ => none

variable (output : FunctionCallOutputPayload)

def isStructured : Bool :=
  match output.body with
  | .text _ => false
  | .contentItems _ => true

def supportedRoles : List String := ["system", "developer", "user", "assistant"]

/-- An item of an unsupported kind, with an unsupported role, with an image or with a
structured output. -/
def unsupported : ResponseItem → Bool
  | .message _ role content _ =>
    !supportedRoles.contains role || content.any (plain · |>.isNone)
  | .functionCallOutput _ output | .customToolCallOutput _ _ output => isStructured output
  | .customToolCall _ _ _ name _ => name != applyPatchToolName
  | .localShellCall _ | .toolSearchCall _ | .toolSearchOutput .. | .webSearchCall
  | .imageGenerationCall => true
  | .reasoning .. | .functionCall .. | .compaction | .contextCompaction | .other => false

def messageText (content : List ContentItem) : String :=
  "\n".intercalate (content.filterMap plain)

def outputText : String :=
  match output.body with
  | .text text => text
  | .contentItems _ => ""

def translate (codec : JsonCodec) : ResponseItem → List Entry
  | .message _ role content _ =>
    if role = "user" then [.user (messageText content)]
    else if role = "assistant" then [.assistant (messageText content)]
    else [.system (messageText content)]
  | .functionCall _ name _ arguments callId => [.call ⟨callId, name, arguments⟩]
  | .customToolCall _ _ callId name input =>
    [.call ⟨callId, name, applyPatchChatArguments codec input⟩]
  | .functionCallOutput callId output | .customToolCallOutput callId _ output =>
    [.output callId (outputText output)]
  | _ => []

section Yields
variable {ε α β : Type*} {x : Except ε α} {fails fails' : Bool} {P : α → Prop} {Q : β → Prop}

/-- The computation fails in just this case, and has such a result otherwise. -/
def Yields (x : Except ε α) (fails : Bool) (P : α → Prop) : Prop :=
  match x with
  | .error _ => fails = true
  | .ok a => fails = false ∧ P a

theorem yields_map {f : α → β} : Yields (x.map f) fails Q ↔ Yields x fails fun a => Q (f a) := by
  cases x <;> rfl

theorem Yields.mono (h : Yields x fails P) {P' : α → Prop} (hP : ∀ a, P a → P' a) :
    Yields x fails P' := by
  cases x with
  | error e => exact h
  | ok a => exact ⟨h.1, hP a h.2⟩

theorem Yields.map (h : Yields x fails P) {f : α → β} (hf : ∀ a, P a → Q (f a)) :
    Yields (x.map f) fails Q :=
  yields_map.mpr (h.mono hf)

theorem Yields.bind (h : Yields x fails P) {f : α → Except ε β}
    (hf : ∀ a, P a → Yields (f a) fails' Q) : Yields (x.bind f) (fails || fails') Q := by
  cases x with
  | error e =>
    obtain rfl : fails = true := h
    rfl
  | ok a =>
    obtain ⟨rfl, ha⟩ := h
    exact hf a ha

end Yields

section Items
variable (codec : JsonCodec)

/-- The entries of tool calls for the message before and of the messages after it. -/
def flat (r : List ChatToolCall × List ChatMessage) : List Entry :=
  r.1.map .call ++ r.2.flatMap ChatMessage.flatten

theorem mapM_contentItemText (content : List ContentItem) :
    Yields (content.mapM contentItemText) (content.any (plain · |>.isNone))
      (· = content.filterMap plain) := by
  induction content with
  | nil => exact ⟨rfl, rfl⟩
  | cons item content ih =>
    rw [mapM_cons]
    cases item with
    | inputImage url => rfl
    | inputText text | outputText text =>
      exact ih.map fun texts htexts => congrArg (text :: ·) htexts

theorem contentText_yields (content : List ContentItem) :
    Yields (contentText content) (content.any (plain · |>.isNone)) (· = messageText content) :=
  (mapM_contentItemText content).map fun _ htexts => congrArg ("\n".intercalate ·) htexts

theorem functionOutputText_yields :
    Yields (functionOutputText output) (isStructured output) (· = outputText output) := by
  unfold isStructured functionOutputText outputText
  cases output.body with
  | text text => exact ⟨rfl, rfl⟩
  | contentItems items => rfl

variable {content : List ContentItem} {item : ResponseItem}

theorem chatMessageFromContent_yields {role : String} (hrole : role ≠ "assistant")
    (ident : Option String) (phase : Option MessagePhase) :
    Yields (chatMessageFromContent role content none)
      (unsupported (.message ident role content phase))
      (·.flatten = translate codec (.message ident role content phase)) := by
  rw [unsupported, Bool.or_comm]
  refine (contentText_yields content).bind fun text htext => ?_
  subst htext
  split_ifs with hsystem huser
  · rcases hsystem with rfl | rfl <;> exact ⟨rfl, rfl⟩
  · subst huser
    exact ⟨rfl, rfl⟩
  · simp_all [Yields, supportedRoles]

theorem flatten_withToolCalls (content reasoningContent : Option String)
    (toolCalls : List ChatToolCall) :
    (ChatMessage.withToolCalls toolCalls (.assistant content reasoningContent none)).flatten =
      (content.map Entry.assistant).toList ++ toolCalls.map .call := by
  cases toolCalls <;> simp [ChatMessage.withToolCalls, ChatMessage.flatten]

/-- An item adds its translation to what comes after it; it hands no tool calls on unless the
message before it takes them. -/
def Adds (gathering nextGathering : Bool) (entries : List Entry)
    (pieces : List (Piece ResponseItem)) : Prop :=
  ∀ r : List ChatToolCall × List ChatMessage, (nextGathering = false → r.1 = []) →
    flat (pieces.foldr Piece.attach r) = entries ++ flat r ∧
      (gathering = false → (pieces.foldr Piece.attach r).1 = [])

theorem adds_nothing (gathering : Bool) : Adds gathering false [] [] :=
  fun _ hr => ⟨rfl, fun _ => hr rfl⟩

theorem adds_message (gathering : Bool) (source : ResponseItem) (account : Option ResponseItem)
    (message : ChatMessage) :
    Adds gathering false message.flatten [.message source account message] := by
  intro _ hr
  simp [Piece.attach, flat, hr rfl]

theorem adds_assistant (gathering : Bool) (source : ResponseItem) (account : Option ResponseItem)
    (text : String) (reasoningContent : Option String) :
    Adds gathering true [.assistant text]
      [.message source account (.assistant (some text) reasoningContent none)] := by
  intro _ _
  simp [Piece.attach, flat, flatten_withToolCalls]

variable (source : ResponseItem) (account : Option ResponseItem)

theorem adds_call (toolCall : ChatToolCall) :
    Adds true true [.call toolCall] [.call source toolCall] := by
  intro _ _
  simp [Piece.attach, flat]

theorem adds_first_call (reasoningContent : Option String) (toolCall : ChatToolCall) :
    Adds false true [.call toolCall]
      [.message source account (.assistant none reasoningContent none), .call source toolCall] := by
  intro _ _
  simp [Piece.attach, flat, flatten_withToolCalls]

variable (codec : JsonCodec) (hasToolCall : Bool) (draft : Draft ResponseItem)

theorem step_adds_call {toolCall : ChatToolCall}
    (h : chatToolCallFromItem codec item = .ok (some toolCall)) :
    Yields (step codec id hasToolCall draft item) false
      fun r => Adds draft.gathering r.1.gathering [.call toolCall] r.2 := by
  rw [step_call h]
  rcases draft with ⟨pending, _ | _⟩
  · exact ⟨rfl, adds_first_call item _ _ toolCall⟩
  · exact ⟨rfl, adds_call item toolCall⟩

theorem step_yields (item : ResponseItem) :
    Yields (step codec id hasToolCall draft item) (unsupported item)
      fun r => Adds draft.gathering r.1.gathering (translate codec item) r.2 := by
  cases item with
  | message ident role content phase =>
    rw [step]
    dsimp only [id]
    by_cases hrole : role = "assistant"
    · subst hrole
      rw [if_pos rfl]
      exact (contentText_yields content).map fun text htext => htext ▸ adds_assistant _ _ _ _ _
    · rw [if_neg hrole]
      exact (chatMessageFromContent_yields codec hrole ident phase).map fun message hmessage =>
        hmessage ▸ adds_message _ _ _ message
  | functionCall => exact step_adds_call codec hasToolCall draft rfl
  | customToolCall ident status callId name input =>
    by_cases hname : name = applyPatchToolName
    · subst hname
      exact step_adds_call codec hasToolCall draft (by rw [chatToolCallFromItem, if_pos rfl])
    · simp [step, chatToolCallFromItem, hname, Yields, unsupported]
  | functionCallOutput callId output | customToolCallOutput callId name output =>
    exact (functionOutputText_yields output).map fun text htext => htext ▸ adds_message _ _ _ _
  | reasoning | compaction | contextCompaction | other => exact ⟨rfl, adds_nothing _⟩
  | _ => rfl

/-- The translation of the items, or a failure if one is unsupported. -/
theorem gatherLoop_adapts (items : List ResponseItem) :
    Yields (gatherLoop codec hasToolCall draft.gathering (draft.pending.map (·.2)) items)
      (items.any unsupported) fun r =>
        flat r = items.flatMap (translate codec) ∧ (draft.gathering = false → r.1 = []) := by
  induction items generalizing draft with
  | nil => cases draft.gathering <;> exact ⟨rfl, rfl, fun _ => rfl⟩
  | cons item items ih =>
    have hcons := @gatherLoop_cons codec _ id hasToolCall draft item items
    rw [id] at hcons
    rw [hcons, any_cons]
    refine (step_yields codec hasToolCall draft item).bind fun next hadds =>
      (ih next.1).map fun r hr => ?_
    obtain ⟨hadded, hnone⟩ := hadds r hr.2
    exact ⟨by rw [hadded, hr.1, flatMap_cons], hnone⟩

end Items

variable (codec : JsonCodec)

theorem segment_adapts (items : List ResponseItem) (messages : List ChatMessage) :
    Yields (appendChatMessagesFromSegment codec items messages) (items.any unsupported)
      (·.flatMap ChatMessage.flatten =
        messages.flatMap ChatMessage.flatten ++ items.flatMap (translate codec)) := by
  have hloop := gatherLoop_adapts codec (items.any isSupportedChatToolCall) ⟨none, false⟩ items
  refine (yields_map.mp hloop).map fun out hout => ?_
  rw [flatMap_append, ← hout.1]
  rfl

variable {item : ResponseItem}

theorem user_adapts {content : List ContentItem} (h : userContent item = some content) :
    Yields (chatMessageFromContent "user" content none) (unsupported item)
      (·.flatten = translate codec item) := by
  cases item with
  | message ident role content' phase =>
    obtain ⟨rfl, rfl⟩ : role = "user" ∧ content' = content := by simpa [userContent] using h
    exact chatMessageFromContent_yields codec (by decide) ident phase
  | _ => cases h

theorem messagesLoop_adapts (segment items : List ResponseItem) (messages : List ChatMessage) :
    Yields (messagesLoop codec segment messages items) ((segment ++ items).any unsupported)
      (·.flatMap ChatMessage.flatten =
        messages.flatMap ChatMessage.flatten ++ (segment ++ items).flatMap (translate codec)) := by
  induction items generalizing segment messages with
  | nil => simpa [messagesLoop] using segment_adapts codec segment messages
  | cons item items ih =>
    rw [messagesLoop]
    cases huser : userContent item with
    | none =>
      have hrest := ih (segment ++ [item]) messages
      rwa [append_assoc] at hrest
    | some content =>
      rw [any_append, any_cons]
      refine (segment_adapts codec segment messages).bind fun before hflat =>
        (user_adapts codec huser).bind fun message hflatten => ?_
      simpa [hflat, hflatten] using ih [] (before ++ [message])

theorem collectToolCalls_advances {items : List ResponseItem} {r : Option (List ChatToolCall) × ℕ}
    (hitem : chatToolCallFromItem codec item ≠ .ok none)
    (h : collectToolCalls codec (item :: items) = .ok r) : 0 < r.2 := by
  obtain ⟨toolCalls, hcalls, rfl⟩ := map_eq_ok.mp h
  obtain ⟨toolCall, htool, hrest⟩ := bind_eq_ok.mp hcalls
  cases toolCall with
  | none => exact absurd htool hitem
  | some toolCall =>
    obtain ⟨rest, -, rfl⟩ := map_eq_ok.mp hrest
    exact Nat.succ_pos _

/-- The items that the loop of a segment hands to `collect_tool_calls` with their own index. -/
def isToolCall : ResponseItem → Bool
  | .functionCall .. | .customToolCall .. => true
  | _ => false

/-- The adapter neither loses, duplicates nor reorders the history, the patch of an item can be
read back from the arguments it is sent as, the adapter fails exactly on the unsupported
histories, and its loop advances. -/
theorem adapted_history (codec : JsonCodec) (items : List ResponseItem) :
    (∀ messages, chatMessagesFromItems codec items = .ok messages →
      messages.flatMap ChatMessage.flatten = items.flatMap (translate codec)) ∧
    (∀ input, (codec.fromStr (applyPatchChatArguments codec input)).bind
      (codec.textField applyPatchInputField) = some input) ∧
    ((∃ e, chatMessagesFromItems codec items = .error e) ↔ ∃ item ∈ items, unsupported item) ∧
    ∀ item rest r, isToolCall item → collectToolCalls codec (item :: rest) = .ok r → 0 < r.2 := by
  have hloop := messagesLoop_adapts codec [] items []
  rw [chatMessagesFromItems, ← any_eq_true]
  refine ⟨fun messages hmessages => ?_, fun input => ?_, ?_, fun item rest r hitem hr => ?_⟩
  · rw [hmessages] at hloop
    exact hloop.2
  · rw [applyPatchChatArguments, codec.fromStr_toText]
    exact codec.textField_textObject _ _
  · cases hresult : messagesLoop codec [] [] items <;> rw [hresult] at hloop
    · exact iff_of_true ⟨_, rfl⟩ hloop
    · exact iff_of_false (by simp) (by simpa using hloop.1)
  · refine collectToolCalls_advances codec ?_ hr
    cases item with
    | functionCall => simp [chatToolCallFromItem]
    | customToolCall ident status callId name input =>
      rw [chatToolCallFromItem]
      split_ifs <;> simp
    | _ => cases hitem

end DeepseekX.ChatMessages
