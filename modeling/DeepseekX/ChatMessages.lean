import DeepseekX.ResponseItems

/-!
# Chat messages from the history

The request adapter turns the items of the history into the messages of a chat
completions request. The history is cut into segments at the user messages. Within a
segment, tool calls are gathered into assistant messages and reasoning is kept pending
for the next of them.
-/

namespace DeepseekX.ChatMessages
open ResponseItems

inductive CodexErr where
  | unsupportedOperation (message : String)
  deriving DecidableEq, Repr

/-- A tool call of type `function`, the only one there is. -/
structure ChatToolCall where
  id : String
  name : String
  arguments : String
  deriving DecidableEq, Repr

inductive ChatMessage where
  | system (content : String)
  | user (content : String)
  | assistant (content reasoningContent : Option String) (toolCalls : Option (List ChatToolCall))
  | tool (content toolCallId : String)
  deriving DecidableEq, Repr

def unsupportedItem (item : ResponseItem) : CodexErr :=
  let name := match item with
    | .localShellCall _ => "local shell call"
    | .toolSearchCall _ => "tool search call"
    | .customToolCall .. => "custom tool call"
    | .customToolCallOutput .. => "custom tool call output"
    | .toolSearchOutput .. => "tool search output"
    | .webSearchCall => "web search call"
    | .imageGenerationCall => "image generation call"
    | .message .. | .reasoning .. | .functionCall .. | .functionCallOutput .. | .compaction
    | .contextCompaction | .other => "unknown item"
  .unsupportedOperation ("Chat Completions request adapter does not support " ++ name)

def contentItemText : ContentItem → Except CodexErr String
  | .inputText text | .outputText text => .ok text
  | .inputImage _ =>
    .error (.unsupportedOperation "Chat Completions request adapter does not support images")

def contentText (content : List ContentItem) : Except CodexErr String :=
  (content.mapM contentItemText).map fun parts => "\n".intercalate parts

def reasoningItemText : ReasoningItemContent → String
  | .reasoningText text | .text text => text

def reasoningContentText (content : Option (List ReasoningItemContent)) : Option String :=
  content.bind fun parts =>
    if parts = [] then none else some ("\n".intercalate (parts.map reasoningItemText))

def functionOutputText (output : FunctionCallOutputPayload) : Except CodexErr String :=
  match output.body with
  | .text text => .ok text
  | .contentItems _ => .error (.unsupportedOperation
      "Chat Completions request adapter does not support structured tool output")

def chatMessageFromContent (role : String) (content : List ContentItem)
    (reasoningContent : Option String) : Except CodexErr ChatMessage :=
  (contentText content).bind fun text =>
    if role = "system" ∨ role = "developer" then .ok (.system text)
    else if role = "user" then .ok (.user text)
    else if role = "assistant" then .ok (.assistant (some text) reasoningContent none)
    else .error (.unsupportedOperation
      ("Chat Completions does not support message role `" ++ role ++ "`"))

def isSupportedChatToolCall : ResponseItem → Bool
  | .functionCall .. => true
  | .customToolCall _ _ _ name _ => name = applyPatchToolName
  | _ => false

section Adapter
variable (codec : JsonCodec)

/-- Writing an object with one text field does not fail. -/
def applyPatchChatArguments (input : String) : String :=
  codec.toText (codec.textObject applyPatchInputField input)

def chatToolCallFromItem (item : ResponseItem) : Except CodexErr (Option ChatToolCall) :=
  match item with
  | .functionCall _ name _ arguments callId => .ok (some ⟨callId, name, arguments⟩)
  | .customToolCall _ _ callId name input =>
    if name = applyPatchToolName then
      .ok (some ⟨callId, name, applyPatchChatArguments codec input⟩)
    else .error (unsupportedItem item)
  | _ => .ok none

def leadingToolCalls : List ResponseItem → Except CodexErr (List ChatToolCall)
  | [] => .ok []
  | item :: items =>
    (chatToolCallFromItem codec item).bind fun
      | none => .ok []
      | some toolCall => (leadingToolCalls items).map (toolCall :: ·)

variable (items : List ResponseItem)

def collectToolCalls : Except CodexErr (Option (List ChatToolCall) × ℕ) :=
  (leadingToolCalls codec items).map fun toolCalls =>
    (if toolCalls = [] then none else some toolCalls, toolCalls.length)

/-- The loop over a segment. Items that `collect_tool_calls` has passed are skipped. -/
def segmentLoop (hasToolCall : Bool) :
    ℕ → Option String → List ResponseItem → Except CodexErr (List ChatMessage)
  | _, _, [] => .ok []
  | skip + 1, pending, _ :: items => segmentLoop hasToolCall skip pending items
  | 0, pending, item :: items =>
    match item with
    | .reasoning _ _ content _ => segmentLoop hasToolCall 0 (reasoningContentText content) items
    | .message _ role content _ =>
      if role = "assistant" then
        (contentText content).bind fun text =>
          (collectToolCalls codec items).bind fun (toolCalls, count) =>
            let reasoningContent := if hasToolCall then pending else none
            let pending := if hasToolCall then none else pending
            (segmentLoop hasToolCall count pending items).map
              (.assistant (some text) reasoningContent toolCalls :: ·)
      else
        (chatMessageFromContent role content none).bind fun message =>
          (segmentLoop hasToolCall 0 none items).map (message :: ·)
    | .functionCall .. | .customToolCall .. =>
      (collectToolCalls codec (item :: items)).bind fun (toolCalls, count) =>
        (segmentLoop hasToolCall (count - 1) none items).map
          (.assistant none pending toolCalls :: ·)
    | .functionCallOutput callId output | .customToolCallOutput callId _ output =>
      (functionOutputText output).bind fun text =>
        (segmentLoop hasToolCall 0 pending items).map (.tool text callId :: ·)
    | .localShellCall _ | .toolSearchCall _ | .toolSearchOutput .. | .webSearchCall
    | .imageGenerationCall => .error (unsupportedItem item)
    | .compaction | .contextCompaction | .other => segmentLoop hasToolCall 0 pending items

def appendChatMessagesFromSegment (messages : List ChatMessage) :
    Except CodexErr (List ChatMessage) :=
  let hasToolCall := items.any isSupportedChatToolCall
  (segmentLoop codec hasToolCall 0 none items).map (messages ++ ·)

def userContent : ResponseItem → Option (List ContentItem)
  | .message _ role content _ => if role = "user" then some content else none
  | _ => none

/-- The loop over the history, with the items since the last user message. -/
def messagesLoop (segment : List ResponseItem) (messages : List ChatMessage) :
    List ResponseItem → Except CodexErr (List ChatMessage)
  | [] => appendChatMessagesFromSegment codec segment messages
  | item :: items =>
    match userContent item with
    | some content =>
      (appendChatMessagesFromSegment codec segment messages).bind fun messages =>
        (chatMessageFromContent "user" content none).bind fun message =>
          messagesLoop [] (messages ++ [message]) items
    | none => messagesLoop (segment ++ [item]) messages items

def chatMessagesFromItems : Except CodexErr (List ChatMessage) :=
  messagesLoop codec [] [] items

end Adapter
end DeepseekX.ChatMessages
