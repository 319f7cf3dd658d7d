import DeepseekX.ResponseItems
import DeepseekX.Transducers
import DeepseekX.OrderedMaps
import Mathlib.Algebra.Group.Nat.Defs

/-!
# The chat completions stream

The server streams a completion as chunks of reasoning text, content and tool call
fragments. `process_chunk` turns a chunk into events and `process_done` ends the
stream. A chunk consists of parts, each of which is one step of a transducer.
-/

namespace DeepseekX.ChatCompletionsStream
open ResponseItems Transducers OrderedMaps

structure ChatUsage where
  completionTokens : Option ℕ
  promptTokens : Option ℕ
  promptCacheHitTokens : Option ℕ
  totalTokens : Option ℕ
  /-- `completion_tokens_details.reasoning_tokens` -/
  reasoningTokens : Option ℕ
  deriving DecidableEq, Repr

structure ChatFunctionCallDelta where
  name : Option String
  arguments : Option String
  deriving DecidableEq, Repr

structure ChatToolCallDelta where
  index : Option ℕ
  id : Option String
  function : Option ChatFunctionCallDelta
  deriving DecidableEq, Repr

structure ChatCompletionDelta where
  content : Option String
  reasoningContent : Option String
  toolCalls : Option (List ChatToolCallDelta)
  deriving DecidableEq, Repr

structure ChatCompletionChunkChoice where
  delta : ChatCompletionDelta
  index : ℕ
  deriving DecidableEq, Repr

structure ChatCompletionChunk where
  id : String
  choices : List ChatCompletionChunkChoice
  usage : Option ChatUsage
  deriving DecidableEq, Repr

/-- `as i64` on an unsigned 64-bit number. -/
def toI64 (value : Option ℕ) : ℤ := Int.bmod (value.getD 0) (2 ^ 64)

def ChatUsage.toTokenUsage (usage : ChatUsage) : TokenUsage where
  inputTokens := toI64 usage.promptTokens
  cachedInputTokens := toI64 usage.promptCacheHitTokens
  outputTokens := toI64 usage.completionTokens
  reasoningOutputTokens := toI64 usage.reasoningTokens
  totalTokens := toI64 usage.totalTokens

structure ToolCallState where
  id : Option String
  name : Option String
  arguments : String
  added : Bool
  streamedInputLen : ℕ
  deriving DecidableEq, Repr

def ToolCallState.default : ToolCallState := ⟨none, none, "", false, 0⟩

structure ChatCompletionsStreamState where
  responseId : Option String
  content : String
  reasoningContent : String
  toolCalls : OrderedMap ℕ ToolCallState
  usage : Option TokenUsage
  messageStarted : Bool
  messageDone : Bool
  reasoningStarted : Bool
  reasoningDone : Bool
  completed : Bool

def ChatCompletionsStreamState.default : ChatCompletionsStreamState :=
  ⟨none, "", "", .empty, none, false, false, false, false, false⟩

/-- Why a chunk is not accepted: an error, or a slice off a character boundary. -/
inductive ChunkFailure where
  | stream (message : String)
  | panicked
  deriving DecidableEq, Repr

def byteSlice : ℕ → List Char → Option (List Char)
  | 0, chars => some chars
  | _ + 1, [] => none
  | n + 1, c :: chars => if c.utf8Size ≤ n + 1 then byteSlice (n + 1 - c.utf8Size) chars else none

section ToolCalls
variable (codec : JsonCodec)

def applyPatchInput (arguments : String) : Option String :=
  (codec.fromStr arguments).bind (codec.textField applyPatchInputField)

/-- The part of the patch input that has not been streamed, and the length streamed now. -/
def applyPatchDelta (arguments : String) (streamedInputLen : ℕ) :
    Except ChunkFailure (String × ℕ) :=
  match applyPatchInput codec arguments with
  | none => .ok ("", streamedInputLen)
  | some input =>
    if input.utf8ByteSize ≤ streamedInputLen then .ok ("", streamedInputLen)
    else match byteSlice streamedInputLen input.toList with
      | some delta => .ok (String.ofList delta, input.utf8ByteSize)
      | none => .error .panicked

/-- The item announced for an `apply_patch` call, once. -/
def ToolCallState.announce (index : ℕ) (state : ToolCallState) :
    ToolCallState × List ResponseEvent :=
  if state.name = some applyPatchToolName ∧ state.added = false then
    ({ state with added := true },
      [.outputItemAdded (.customToolCall none none (state.id.getD (toString index))
        applyPatchToolName "")])
  else (state, [])

/-- The fragment of the arguments and what is streamed of it. -/
def ToolCallState.appendArguments (index : ℕ) (arguments : String) (state : ToolCallState) :
    Except ChunkFailure (ToolCallState × List ResponseEvent) :=
  let state := { state with arguments := state.arguments ++ arguments }
  let streamed := if state.name = some applyPatchToolName then
      applyPatchDelta codec state.arguments state.streamedInputLen
    else .ok (arguments, state.streamedInputLen)
  match streamed with
  | .error e => .error e
  | .ok (delta, streamedInputLen) =>
    .ok ({ state with streamedInputLen := streamedInputLen },
      if delta = "" then []
      else [.toolCallInputDelta (state.id.getD (toString index)) state.id delta])

def ToolCallState.applyDelta (index : ℕ) (delta : ChatToolCallDelta) (state : ToolCallState) :
    Except ChunkFailure (ToolCallState × List ResponseEvent) :=
  let state := { state with id := delta.id.or state.id }
  match delta.function with
  | none => .ok (state, [])
  | some function =>
    let (state, added) := { state with name := function.name.or state.name }.announce index
    match function.arguments with
    | none => .ok (state, added)
    | some arguments =>
      match state.appendArguments codec index arguments with
      | .error e => .error e
      | .ok (state, streamed) => .ok (state, added ++ streamed)

namespace ChatCompletionsStreamState

variable (s : ChatCompletionsStreamState)

def processToolCallDelta (delta : ChatToolCallDelta) :
    Except ChunkFailure (ChatCompletionsStreamState × List ResponseEvent) :=
  match delta.index with
  | none => .error (.stream "chat completion tool call delta missing index")
  | some index =>
    match ((s.toolCalls.lookup index).getD .default).applyDelta codec index delta with
    | .error e => .error e
    | .ok (state, events) => .ok ({ s with toolCalls := s.toolCalls.insert index state }, events)

def ensureMessageStarted : ChatCompletionsStreamState × List ResponseEvent :=
  if s.messageStarted then (s, [])
  else ({ s with messageStarted := true },
    [.outputItemAdded (.message none "assistant" [] (some .finalAnswer))])

def ensureReasoningStarted : ChatCompletionsStreamState × List ResponseEvent :=
  if s.reasoningStarted then (s, [])
  else ({ s with reasoningStarted := true },
    [.outputItemAdded (.reasoning "deepseek_reasoning" [] none none)])

def finishMessage : ChatCompletionsStreamState × List ResponseEvent :=
  if s.messageDone ∨ s.content = "" then (s, [])
  else ({ s with messageDone := true },
    [.outputItemDone (.message none "assistant" [.outputText s.content] (some .finalAnswer))])

def finishReasoning : ChatCompletionsStreamState × List ResponseEvent :=
  if s.reasoningDone ∨ s.reasoningContent = "" then (s, [])
  else ({ s with reasoningDone := true },
    [.outputItemDone (.reasoning "deepseek_reasoning" []
      (some [.reasoningText s.reasoningContent]) none)])

def processReasoning (reasoning : String) : ChatCompletionsStreamState × List ResponseEvent :=
  let (s, started) := s.ensureReasoningStarted
  ({ s with reasoningContent := s.reasoningContent ++ reasoning },
    started ++ [.reasoningContentDelta reasoning 0])

def processContent (content : String) : ChatCompletionsStreamState × List ResponseEvent :=
  let (s, finished) := s.finishReasoning
  let (s, started) := s.ensureMessageStarted
  ({ s with content := s.content ++ content }, finished ++ started ++ [.outputTextDelta content])

def processToolCalls (toolCalls : List ChatToolCallDelta) :
    Except ChunkFailure (ChatCompletionsStreamState × List ResponseEvent) :=
  let (s, finished) := s.finishReasoning
  match run (processToolCallDelta codec) s toolCalls with
  | .error e => .error e
  | .ok (s, events) => .ok (s, finished ++ events)

/-- Absent and empty texts are passed over. -/
def processText (process : String → ChatCompletionsStreamState × List ResponseEvent)
    (s : ChatCompletionsStreamState) :
    Option String → ChatCompletionsStreamState × List ResponseEvent
  | some text => if text = "" then (s, []) else process text
  | none => (s, [])

def processChoice (choice : ChatCompletionChunkChoice) :
    Except ChunkFailure (ChatCompletionsStreamState × List ResponseEvent) :=
  if choice.index ≠ 0 then .ok (s, [])
  else
    let (s, reasoned) := processText s.processReasoning s choice.delta.reasoningContent
    let (s, answered) := processText s.processContent s choice.delta.content
    match choice.delta.toolCalls with
    | none => .ok (s, reasoned ++ answered)
    | some toolCalls =>
      match s.processToolCalls codec toolCalls with
      | .error e => .error e
      | .ok (s, called) => .ok (s, reasoned ++ answered ++ called)

def noteChunk (chunk : ChatCompletionChunk) : ChatCompletionsStreamState :=
  { s with
    responseId := s.responseId.or (some chunk.id)
    usage := (chunk.usage.map ChatUsage.toTokenUsage).or s.usage }

def processChunk (chunk : ChatCompletionChunk) :
    Except ChunkFailure (ChatCompletionsStreamState × List ResponseEvent) :=
  run (processChoice codec) (s.noteChunk chunk) chunk.choices

def doneItem (toolCall : ToolCallState) : ResponseItem :=
  let callId := toolCall.id.getD ""
  let name := toolCall.name.getD ""
  if name = applyPatchToolName then
    .customToolCall none none callId name
      ((applyPatchInput codec toolCall.arguments).getD toolCall.arguments)
  else .functionCall none name none toolCall.arguments callId

def processDone : ChatCompletionsStreamState × List ResponseEvent :=
  let (s, message) := s.finishMessage
  let (s, reasoning) := s.finishReasoning
  ({ s with completed := true },
    message ++ reasoning ++
      s.toolCalls.values.map (fun toolCall => .outputItemDone (doneItem codec toolCall)) ++
      [.completed (s.responseId.getD "chatcmpl-deepseek") s.usage (some true)])

def streamEvents (chunks : List ChatCompletionChunk) : Except ChunkFailure (List ResponseEvent) :=
  match run (processChunk codec) .default chunks with
  | .error e => .error e
  | .ok (s, events) => .ok (events ++ (s.processDone codec).2)

end ChatCompletionsStreamState
end ToolCalls
end DeepseekX.ChatCompletionsStream
