import Mathlib.Data.Int.Notation
import Mathlib.Data.List.Basic

/-!
# Items and events of a conversation

The history of a conversation is a list of response items. A sampling request
answers with a stream of events that add items, stream their text and complete them.
Fields that no function of this development reads are left out.
-/

namespace DeepseekX.ResponseItems

inductive ContentItem where
  | inputText (text : String)
  | inputImage (imageUrl : String)
  | outputText (text : String)
  deriving DecidableEq, Repr

inductive MessagePhase where
  | commentary | finalAnswer
  deriving DecidableEq, Repr

inductive ReasoningItemContent where
  | reasoningText (text : String)
  | text (text : String)
  deriving DecidableEq, Repr

inductive FunctionCallOutputContentItem where
  | inputText (text : String)
  | inputImage (imageUrl : String)
  deriving DecidableEq, Repr

inductive FunctionCallOutputBody where
  | text (text : String)
  | contentItems (items : List FunctionCallOutputContentItem)
  deriving DecidableEq, Repr

structure FunctionCallOutputPayload where
  body : FunctionCallOutputBody
  success : Option Bool
  deriving DecidableEq, Repr

def FunctionCallOutputPayload.fromText (content : String) : FunctionCallOutputPayload :=
  ⟨.text content, none⟩

inductive ResponseItem where
  | message (id : Option String) (role : String) (content : List ContentItem)
      (phase : Option MessagePhase)
  | reasoning (id : String) (summary : List String) (content : Option (List ReasoningItemContent))
      (encryptedContent : Option String)
  | localShellCall (callId : Option String)
  | functionCall (id : Option String) (name : String) (callNamespace : Option String)
      (arguments callId : String)
  | toolSearchCall (callId : Option String)
  | functionCallOutput (callId : String) (output : FunctionCallOutputPayload)
  | customToolCall (id status : Option String) (callId name input : String)
  | customToolCallOutput (callId : String) (name : Option String)
      (output : FunctionCallOutputPayload)
  | toolSearchOutput (callId : Option String) (status execution : String)
  | webSearchCall
  | imageGenerationCall
  | compaction
  | contextCompaction
  | other
  deriving DecidableEq, Repr

def applyPatchToolName : String := "apply_patch"

def applyPatchInputField : String := "input"

structure TokenUsage where
  inputTokens : ℤ
  cachedInputTokens : ℤ
  outputTokens : ℤ
  reasoningOutputTokens : ℤ
  totalTokens : ℤ
  deriving DecidableEq, Repr

inductive ResponseEvent where
  | outputItemDone (item : ResponseItem)
  | outputItemAdded (item : ResponseItem)
  | completed (responseId : String) (tokenUsage : Option TokenUsage) (endTurn : Option Bool)
  | outputTextDelta (delta : String)
  | toolCallInputDelta (itemId : String) (callId : Option String) (delta : String)
  | reasoningContentDelta (delta : String) (contentIndex : ℤ)
  deriving DecidableEq, Repr

/-- The operations of `serde_json` in use, with the promises relied on: an object with one text
field can be written, read back and inspected, and a text that is an object with a text field
has no continuation but white space, which does not change its value. -/
structure JsonCodec where
  Value : Type
  /-- `from_str` -/
  fromStr : String → Option Value
  /-- `value.get(field).and_then(Value::as_str)` -/
  textField : String → Value → Option String
  /-- `json!` with one text field -/
  textObject : String → String → Value
  /-- `to_string` -/
  toText : Value → String
  textField_textObject : ∀ field text, textField field (textObject field text) = some text
  fromStr_toText : ∀ field text,
    fromStr (toText (textObject field text)) = some (textObject field text)
  fromStr_append : ∀ written later value value' field, fromStr written = some value →
    (textField field value).isSome → fromStr (written ++ later) = some value' → value' = value

end DeepseekX.ResponseItems
