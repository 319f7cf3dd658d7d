import DeepseekX.ChatStreamDelivery
import DeepseekX.ChatToolCallFragments
import DeepseekX.ToolBatchPieces

/-!
# The round trip of a completion

A completion is streamed in fragments, turned into items of the history, and sent back
to the server as messages. The stream and the request adapter are written
independently of each other. A completion with content or tool calls comes back as one
assistant message and one message for each output.
-/

namespace DeepseekX.ChatRoundTrip
open ResponseItems Transducers OrderedMaps ChatCompletionsStream ChatMessages ToolBatches
  ChatCompletionsStreamState List
open ChatCompletionsStreamState (streamEvents)

/-- A completion, with its tool calls in the order of their indices. The arguments of a patch are
an object with the input as its only field. -/
structure Completion (codec : JsonCodec) where
  reasoning : Option String
  content : Option String
  calls : List CompletionCall
  reasoning_nonempty : reasoning ≠ some ""
  content_nonempty : content ≠ some ""
  increasing : calls.Pairwise fun a b => a.index < b.index
  patches : ∀ call ∈ calls, call.name = applyPatchToolName →
    ∃ input, codec.fromStr call.arguments = some (codec.textObject applyPatchInputField input)

def carriesCalls (part : Part) : Bool := !part.deltas.isEmpty

variable {codec : JsonCodec}

/-- The parts deliver the completion: reasoning first, then content, then tool call fragments. -/
structure Completion.StreamedAs (completion : Completion codec) (parts : List Part) : Prop where
  reasoning_before_content : ¬HasPattern [Part.answers, Part.reasons] parts
  reasoning_before_calls : ¬HasPattern [carriesCalls, Part.reasons] parts
  content_before_calls : ¬HasPattern [carriesCalls, Part.answers] parts
  reasoning : reasoningText parts = completion.reasoning.getD ""
  content : ChatCompletionsStream.contentText parts = completion.content.getD ""
  calls : ∃ fragments, List.Forall₂ CompletionCall.FragmentedAs completion.calls fragments ∧
    parts.flatMap Part.deltas = fragments.flatten

def outputItem (call : CompletionCall) (output : RecordedOutput) : ResponseItem :=
  if call.name = applyPatchToolName then
    .customToolCallOutput call.id output.name ⟨.text output.text, output.success⟩
  else .functionCallOutput call.id ⟨.text output.text, output.success⟩

def outputItems (calls : List CompletionCall) (outputs : List RecordedOutput) : List ResponseItem :=
  (calls.zip outputs).map fun (call, output) => outputItem call output

/-- A tool call of the wire that is the call of the completion, up to the way the arguments of a
patch are written. -/
structure SentAs (codec : JsonCodec) (call : CompletionCall) (toolCall : ChatToolCall) : Prop where
  id : toolCall.id = call.id
  name : toolCall.name = call.name
  arguments : if call.name = applyPatchToolName then
    codec.fromStr toolCall.arguments = codec.fromStr call.arguments
    else toolCall.arguments = call.arguments

section Items
variable {parts : List Part}

theorem hasPattern_answers_of_contentText (h : ChatCompletionsStream.contentText parts ≠ "") :
    HasPattern [Part.answers] parts := by
  induction parts using reverseRecOn with
  | nil => exact absurd rfl h
  | append_singleton parts part ih =>
    rw [hasPattern_one_append]
    rw [contentText_append] at h
    cases part with
    | content text nonempty => exact Or.inr rfl
    | reasoning | toolCalls => exact Or.inl (ih h)

theorem closingItems_append_of_closes {part : Part} (h : part.closes = true) :
    closingItems (parts ++ [part]) = [] := by
  have htext : reasoningText (parts ++ [part]) = reasoningText parts := by
    rw [reasoningText_append]
    cases part with
    | reasoning text nonempty => cases h
    | content | toolCalls => rfl
  have hended : endedText (parts ++ [part]) = endedTextAfter parts := by
    rw [endedText_append, if_pos h]
  have hafter : endedTextAfter (parts ++ [part]) = endedTextAfter parts := by
    rw [endedTextAfter, hended, htext, endedTextAfter]
    cases endedText parts <;> simp
  rw [closingItems, hended, hafter]
  cases endedTextAfter parts <;> rfl

variable (hordered : ¬HasPattern [Part.answers, Part.reasons] parts)
include hordered

/-- Content closes the reasoning before it for good. -/
theorem closingItems_of_content (h : ChatCompletionsStream.contentText parts ≠ "") :
    closingItems parts = [] := by
  have hanswers := hasPattern_answers_of_contentText h
  rcases eq_nil_or_concat' parts with rfl | ⟨parts, part, rfl⟩
  · exact absurd rfl h
  · cases part with
    | reasoning text nonempty =>
      rw [hasPattern_one_append] at hanswers
      rw [hasPattern_two_append] at hordered
      rcases hanswers with hanswers | hanswers
      · exact absurd (Or.inr ⟨hanswers, rfl⟩) hordered
      · cases hanswers
    | content | toolCalls => exact closingItems_append_of_closes rfl

theorem items_ordered (hwhole : ¬LateReasoning parts) :
    endedItems parts ++ (messageItems parts ++ closingItems parts) =
      (if reasoningText parts = "" then [] else [reasoningItem (reasoningText parts)]) ++
        messageItems parts := by
  have hreasoning : endedItems parts ++ closingItems parts =
      if reasoningText parts = "" then [] else [reasoningItem (reasoningText parts)] := by
    rw [endedItems_append_closingItems, (endedTextAfter_eq_iff parts).mpr hwhole]
    split_ifs <;> rfl
  by_cases hcontent : ChatCompletionsStream.contentText parts = ""
  · rw [← hreasoning, messageItems, if_pos hcontent, nil_append, append_nil]
  · rw [← hreasoning, closingItems_of_content hordered hcontent, append_nil, append_nil]

end Items

def modelCall (codec : JsonCodec) (call : CompletionCall) : ModelCall :=
  if call.name = applyPatchToolName then
    .applyPatch none none call.id ((applyPatchInput codec call.arguments).getD call.arguments)
  else .function none call.name none call.arguments call.id

variable (call : CompletionCall)

theorem callId_modelCall : (modelCall codec call).callId = call.id := by
  unfold modelCall
  split_ifs <;> rfl

theorem output_modelCall (output : RecordedOutput) :
    (modelCall codec call).output output = outputItem call output := by
  unfold modelCall outputItem
  split_ifs <;> rfl

theorem doneItem_of_received {call : CompletionCall} {state : ToolCallState}
    (h : state.Received codec (some call.id) (some call.name) call.arguments) :
    doneItem codec state = (modelCall codec call).item := by
  unfold doneItem modelCall
  rw [h.id_eq, h.name_eq, h.arguments_eq]
  dsimp only [Option.getD_some]
  split_ifs with hname
  · rw [hname]
    rfl
  · rfl

theorem map_doneItem_of_received {calls : List CompletionCall} {states : List ToolCallState}
    (h : List.Forall₂ (fun call state =>
      ToolCallState.Received codec (some call.id) (some call.name) call.arguments state)
        calls states) :
    states.map (doneItem codec) = calls.map fun call => (modelCall codec call).item := by
  induction h with
  | nil => rfl
  | cons hstate _ ih => rw [map_cons, map_cons, doneItem_of_received hstate, ih]

theorem sentAs_modelCall {call : CompletionCall} (hpatch : call.name = applyPatchToolName →
      ∃ input, codec.fromStr call.arguments = some (codec.textObject applyPatchInputField input)) :
    SentAs codec call ((modelCall codec call).toolCall codec) := by
  by_cases hname : call.name = applyPatchToolName
  · obtain ⟨input, hinput⟩ := hpatch hname
    have hread : applyPatchInput codec call.arguments = some input := by
      rw [applyPatchInput, hinput, Option.bind_some, codec.textField_textObject]
    rw [modelCall, if_pos hname, hread]
    refine ⟨rfl, hname.symm, ?_⟩
    rw [if_pos hname, hinput]
    exact codec.fromStr_toText _ _
  · rw [modelCall, if_neg hname]
    exact ⟨rfl, rfl, by rw [if_neg hname]; rfl⟩

namespace Completion
variable (completion : Completion codec) (outputs : List RecordedOutput)

def response (h : outputs.length = completion.calls.length) : ModelResponse where
  reasoning := completion.reasoning.map fun text =>
    ⟨"deepseek_reasoning", [], [.reasoningText text], none, cons_ne_nil _ _⟩
  message := completion.content.map fun text =>
    ⟨none, [.outputText text], some .finalAnswer, text, rfl⟩
  calls := completion.calls.map (modelCall codec)
  outputs := outputs
  outputs_le := by simp [h]

variable {completion outputs}

theorem toList_map_of_getD {item : String → ResponseItem} {text : Option String} {streamed : String}
    (hne : text ≠ some "") (h : streamed = text.getD "") :
    (if streamed = "" then [] else [item streamed]) = (text.map item).toList := by
  subst h
  cases text with
  | none => rfl
  | some text =>
    have htext : text ≠ "" := fun h => hne (congrArg some h)
    simp [htext]

variable (h : outputs.length = completion.calls.length)
include h

theorem lead_response {parts : List Part} (hstream : completion.StreamedAs parts)
    (hwhole : ¬LateReasoning parts) :
    endedItems parts ++ (messageItems parts ++ closingItems parts) =
      (completion.response outputs h).lead := by
  rw [items_ordered hstream.reasoning_before_content hwhole, messageItems,
    toList_map_of_getD completion.reasoning_nonempty hstream.reasoning,
    toList_map_of_getD completion.content_nonempty hstream.content, ModelResponse.lead, response,
    Option.map_map, Option.map_map]
  rfl

theorem texts_response :
    (completion.response outputs h).message.map (·.text) = completion.content ∧
      (completion.response outputs h).reasoning.map (·.text) = completion.reasoning := by
  constructor
  · rw [response]
    cases completion.content <;> rfl
  · rw [response]
    cases completion.reasoning with
    | none => rfl
    | some text => simp [ModelReasoning.text, reasoningItemText]

theorem zip_response :
    (completion.response outputs h).calls.zip (completion.response outputs h).outputs =
      (completion.calls.zip outputs).map (Prod.map (modelCall codec) id) :=
  zip_map_left

theorem outputItems_response :
    outputItems completion.calls outputs = (completion.response outputs h).outputItems := by
  rw [ModelResponse.outputItems, zip_response, List.map_map]
  exact List.map_congr_left fun pair _ => (output_modelCall pair.1 pair.2).symm

theorem unanswered_response : (completion.response outputs h).unanswered = [] := by
  rw [ModelResponse.unanswered]
  simp [response, h]

/-- A completion is accepted, and the history holds its response. -/
theorem doneItems_of_stream {chunks : List ChatCompletionChunk}
    (hstream : completion.StreamedAs (streamParts chunks))
    (hwhole : ¬LateReasoning (streamParts chunks)) :
    ∃ events, streamEvents codec chunks = .ok events ∧
      doneItems events ++ outputItems completion.calls outputs =
        (completion.response outputs h).items := by
  obtain ⟨fragments, hfragments, hdeltas⟩ := hstream.calls
  obtain ⟨collected, announced, states, hcollect, hvalues, hstates⟩ :=
    run_allFragments codec hfragments completion.increasing
      (show ∀ e ∈ OrderedMap.empty.entries, _ from forall_mem_nil _)
  rw [← hdeltas] at hcollect
  obtain ⟨s, out, hrun, rfl⟩ := run_processChunk_of_collect
    (show run _ default.toolCalls _ = _ from hcollect)
  have htexts := run_processChunk_invariant
    (I := ChatCompletionsStreamState.Texts)
    (fun _ _ _ _ _ _ hI hp => texts_processPart hI hp)
    (fun _ _ _ chunk hI => texts_noteChunk hI chunk)
    texts_default hrun
  refine ⟨out ++ (s.processDone codec).2, by rw [streamEvents, hrun], ?_⟩
  have hcalls : s.toolCalls.values.map (doneItem codec) =
      (completion.response outputs h).calls.map ModelCall.item := by
    rw [hvalues, response, List.map_map]
    exact map_doneItem_of_received hstates
  rw [doneItems_append, htexts.doneItems, (projections_processDone codec htexts).2.2, hcalls,
    outputItems_response h, ← append_assoc, lead_response h hstream hwhole,
    ModelResponse.items]

end Completion

/-- A completion with content or tool calls comes back as it was sent: as one assistant message
with the same content and tool calls, with the reasoning if there are tool calls, and then the
outputs. -/
theorem completion_round_trip (codec : JsonCodec) (completion : Completion codec)
    (chunks : List ChatCompletionChunk) (outputs : List RecordedOutput)
    (hstream : completion.StreamedAs (streamParts chunks))
    (hwhole : ¬LateReasoning (streamParts chunks))
    (hpresent : completion.content.isSome ∨ completion.calls ≠ [])
    (houtputs : outputs.length = completion.calls.length) :
    ∃ events toolCalls, streamEvents codec chunks = .ok events ∧
      List.Forall₂ (SentAs codec) completion.calls toolCalls ∧
      chatMessagesFromItems codec (doneItems events ++ outputItems completion.calls outputs) =
        .ok (.assistant completion.content
            (if completion.calls = [] then none else completion.reasoning)
            (if completion.calls = [] then none else some toolCalls) ::
          (completion.calls.zip outputs).map fun (call, output) => .tool output.text call.id) := by
  obtain ⟨events, hevents, hitems⟩ := Completion.doneItems_of_stream houtputs hstream hwhole
  refine ⟨events, completion.calls.map fun call => (modelCall codec call).toolCall codec, hevents,
    ?_, ?_⟩
  · rw [forall₂_map_right_iff, forall₂_same]
    exact fun call hcall => sentAs_modelCall (completion.patches call hcall)
  · have hall := Completion.unanswered_response houtputs
    have hmessages := chatMessagesFromItems_response codec hall
      (by simpa [Completion.response] using hpresent)
    obtain ⟨hcontent, hreasoning⟩ := Completion.texts_response houtputs
    rw [hitems, ← normalizedItems_of_answered hall, hmessages, Completion.zip_response, hreasoning]
    simp [Completion.response, Function.comp_def, callId_modelCall]

def wholeDelta (call : CompletionCall) : ChatToolCallDelta :=
  ⟨some call.index, some call.id, some ⟨some call.name, some call.arguments⟩⟩

theorem fragmentedAs_wholeDelta : call.FragmentedAs [wholeDelta call] where
  index := by simp [wholeDelta]
  first := ⟨some call.arguments, [], rfl⟩
  id := by simp [wholeDelta]
  name := by simp [wholeDelta, ChatToolCallDelta.name]
  arguments := by simp [wholeDelta, ChatToolCallDelta.argumentText]

def callChunk (reasoning : Option String) (deltas : List ChatToolCallDelta) : ChatCompletionChunk :=
  ⟨"response", [⟨⟨none, reasoning, some deltas⟩, 0⟩], none⟩

def lookupCall : CompletionCall := ⟨0, "call-1", "lookup", "x"⟩

def patchCall : CompletionCall :=
  ⟨1, "call-2", applyPatchToolName, applyPatchChatArguments OneFieldJson.codec "patch"⟩

def twoCalls : Completion OneFieldJson.codec where
  reasoning := some "think"
  content := some "done"
  calls := [lookupCall, patchCall]
  reasoning_nonempty := by decide
  content_nonempty := by decide
  increasing := by simp [lookupCall, patchCall]
  patches := by
    intro call hcall hname
    rcases mem_pair.mp hcall with rfl | rfl
    · exact absurd hname (by decide)
    · exact ⟨"patch", OneFieldJson.codec.fromStr_toText _ _⟩

def twoCallsChunks : List ChatCompletionChunk :=
  [deltaChunk (some "th") none, deltaChunk (some "ink") none, deltaChunk none (some "done"),
    callChunk none [wholeDelta lookupCall], callChunk none [wholeDelta patchCall]]

theorem two_calls_round_trip :
    twoCalls.StreamedAs (streamParts twoCallsChunks) ∧
      ∃ events toolCalls, streamEvents OneFieldJson.codec twoCallsChunks = .ok events ∧
        List.Forall₂ (SentAs OneFieldJson.codec) [lookupCall, patchCall] toolCalls ∧
        chatMessagesFromItems OneFieldJson.codec (doneItems events ++
            outputItems [lookupCall, patchCall] [⟨none, "1", none⟩, ⟨none, "2", none⟩]) =
          .ok [.assistant (some "done") (some "think") (some toolCalls), .tool "1" "call-1",
            .tool "2" "call-2"] := by
  have hstream : twoCalls.StreamedAs (streamParts twoCallsChunks) :=
    ⟨by decide, by decide, by decide, by decide +kernel, by decide +kernel,
      [[wholeDelta lookupCall], [wholeDelta patchCall]],
      .cons (fragmentedAs_wholeDelta _) (.cons (fragmentedAs_wholeDelta _) .nil), rfl⟩
  exact ⟨hstream, completion_round_trip OneFieldJson.codec twoCalls twoCallsChunks
    [⟨none, "1", none⟩, ⟨none, "2", none⟩] hstream (by decide) (Or.inl rfl) rfl⟩

def onlyReasoning : Completion OneFieldJson.codec where
  reasoning := some "ab"
  content := none
  calls := []
  reasoning_nonempty := by decide
  content_nonempty := by decide
  increasing := .nil
  patches := forall_mem_nil _

def reasonedLookup : Completion OneFieldJson.codec where
  reasoning := some "ab"
  content := none
  calls := [lookupCall]
  reasoning_nonempty := by decide
  content_nonempty := by decide
  increasing := pairwise_singleton _ _
  patches := forall_mem_singleton.mpr fun hname => absurd hname (by decide)

/-- Mere reasoning gives no message, an empty list of tool calls between the reasoning cuts it
short, and structured output is not sent at all. -/
theorem round_trip_exceptions :
    (onlyReasoning.StreamedAs (streamParts [deltaChunk (some "ab") none]) ∧
      ∃ events, streamEvents OneFieldJson.codec [deltaChunk (some "ab") none] = .ok events ∧
        chatMessagesFromItems OneFieldJson.codec (doneItems events ++ outputItems [] []) = .ok []) ∧
    (reasonedLookup.StreamedAs (streamParts
        [callChunk (some "a") [], callChunk (some "b") [wholeDelta lookupCall]]) ∧
      ∃ events, streamEvents OneFieldJson.codec
          [callChunk (some "a") [], callChunk (some "b") [wholeDelta lookupCall]] = .ok events ∧
        chatMessagesFromItems OneFieldJson.codec
            (doneItems events ++ outputItems [lookupCall] [⟨none, "1", none⟩]) =
          .ok [.assistant none (some "a") (some [⟨"call-1", "lookup", "x"⟩]), .tool "1" "call-1"]) ∧
    (reasonedLookup.StreamedAs (streamParts [callChunk (some "ab") [wholeDelta lookupCall]]) ∧
      ∃ events, streamEvents OneFieldJson.codec [callChunk (some "ab") [wholeDelta lookupCall]] =
          .ok events ∧
        chatMessagesFromItems OneFieldJson.codec (doneItems events ++
            [.functionCallOutput "call-1" ⟨.contentItems [.inputText "1"], none⟩]) =
          .error (.unsupportedOperation
            "Chat Completions request adapter does not support structured tool output")) := by
  have hlookup : List.Forall₂ CompletionCall.FragmentedAs [lookupCall] [[wholeDelta lookupCall]] :=
    .cons (fragmentedAs_wholeDelta _) .nil
  refine ⟨⟨?_, _, rfl, by decide +kernel⟩, ⟨?_, _, rfl, by decide +kernel⟩, ?_, _, rfl,
    by decide +kernel⟩
  · exact ⟨by decide, by decide, by decide, by decide +kernel, by decide +kernel, [], .nil, rfl⟩
  · exact ⟨by decide, by decide, by decide, by decide +kernel, by decide +kernel, _, hlookup, rfl⟩
  · exact ⟨by decide, by decide, by decide, by decide +kernel, by decide +kernel, _, hlookup, rfl⟩

end DeepseekX.ChatRoundTrip
