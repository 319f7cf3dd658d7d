import DeepseekX.ChatMessages
import DeepseekX.HistoryNormalization
import Mathlib.Data.List.Perm.Basic

/-!
# Histories with batches of tool calls

A history consists of user messages and responses of the model. A response may have been
aborted when only the first of its tool calls were answered. The normalisation inserts an
output right after every call without one, and removes nothing.
-/

namespace DeepseekX.ToolBatches
open ResponseItems ChatMessages HistoryNormalization List

/-- A tool call the chat completions stream can end with. -/
inductive ModelCall where
  | function (id : Option String) (name : String) (callNamespace : Option String)
      (arguments callId : String)
  | applyPatch (id status : Option String) (callId input : String)

structure RecordedOutput where
  name : Option String
  text : String
  success : Option Bool

namespace ModelCall

def callId : ModelCall → String
  | function _ _ _ _ callId => callId
  | applyPatch _ _ callId _ => callId

def item : ModelCall → ResponseItem
  | function id name callNamespace arguments callId =>
    .functionCall id name callNamespace arguments callId
  | applyPatch id status callId input => .customToolCall id status callId applyPatchToolName input

def output (output : RecordedOutput) : ModelCall → ResponseItem
  | function _ _ _ _ callId => .functionCallOutput callId ⟨.text output.text, output.success⟩
  | applyPatch _ _ callId _ =>
    .customToolCallOutput callId output.name ⟨.text output.text, output.success⟩

def aborted (call : ModelCall) : ResponseItem := call.output ⟨none, "aborted", none⟩

end ModelCall

structure ModelReasoning where
  id : String
  summary : List String
  content : List ReasoningItemContent
  encryptedContent : Option String
  nonempty : content ≠ []

def ModelReasoning.item (reasoning : ModelReasoning) : ResponseItem :=
  .reasoning reasoning.id reasoning.summary (some reasoning.content) reasoning.encryptedContent

def ModelReasoning.text (reasoning : ModelReasoning) : String :=
  "\n".intercalate (reasoning.content.map reasoningItemText)

structure TextMessage where
  id : Option String
  content : List ContentItem
  phase : Option MessagePhase
  text : String
  text_eq : contentText content = .ok text

def TextMessage.item (role : String) (message : TextMessage) : ResponseItem :=
  .message message.id role message.content message.phase

/-- A response of the model and the outputs that were recorded for the first of its calls. -/
structure ModelResponse where
  reasoning : Option ModelReasoning
  message : Option TextMessage
  calls : List ModelCall
  outputs : List RecordedOutput
  outputs_le : outputs.length ≤ calls.length

namespace ModelResponse
variable (response : ModelResponse)

def lead : List ResponseItem :=
  (response.reasoning.map ModelReasoning.item).toList ++
    (response.message.map (TextMessage.item "assistant")).toList

def outputItems : List ResponseItem :=
  (response.calls.zip response.outputs).map fun (call, output) => call.output output

def items : List ResponseItem :=
  response.lead ++ response.calls.map ModelCall.item ++ response.outputItems

def callIds : List String := response.calls.map ModelCall.callId

def answered : List ModelCall := response.calls.take response.outputs.length

def unanswered : List ModelCall := response.calls.drop response.outputs.length

def normalizedItems : List ResponseItem :=
  response.lead ++ response.answered.map ModelCall.item ++
    response.unanswered.flatMap (fun call => [call.item, call.aborted]) ++ response.outputItems

end ModelResponse

inductive Entry where
  | user (message : TextMessage)
  | response (response : ModelResponse)

namespace Entry

def items : Entry → List ResponseItem
  | user message => [message.item "user"]
  | response r => r.items

def normalizedItems : Entry → List ResponseItem
  | user message => [message.item "user"]
  | response r => r.normalizedItems

def answered : Entry → List ModelCall
  | user _ => []
  | response r => r.answered

def unanswered : Entry → List ModelCall
  | user _ => []
  | response r => r.unanswered

def callIds : Entry → List String
  | user _ => []
  | response r => r.callIds

end Entry

def historyItems (entries : List Entry) : List ResponseItem := entries.flatMap Entry.items

section Outputs
variable {entries : List Entry}

def ModelCall.isOutputOf (call : ModelCall) : ResponseItem → Bool :=
  match call with
  | .function _ _ _ _ callId => isFunctionCallOutput callId
  | .applyPatch _ _ callId _ => isCustomToolCallOutput callId

theorem missingOutput_item (items : List ResponseItem) (call : ModelCall) :
    missingOutput items call.item =
      if items.any call.isOutputOf then none else some call.aborted := by
  cases call <;> rfl

theorem isOutputOf_output (call : ModelCall) (output : RecordedOutput) :
    call.isOutputOf (call.output output) = true := by
  cases call <;> simp [ModelCall.isOutputOf, ModelCall.output, isFunctionCallOutput,
    isCustomToolCallOutput]

variable {call : ModelCall} {r : ModelResponse} {item : ResponseItem} {items : List ResponseItem}

theorem callId_of_isOutputOf {other : ModelCall} {output : RecordedOutput}
    (h : call.isOutputOf (other.output output) = true) : other.callId = call.callId := by
  cases call <;> cases other <;> simp_all [ModelCall.isOutputOf, ModelCall.output,
    isFunctionCallOutput, isCustomToolCallOutput, ModelCall.callId]

def isPlain : ResponseItem → Bool
  | .message .. | .reasoning .. => true
  | _ => false

theorem isPlain_lead (r : ModelResponse) : ∀ item ∈ r.lead, isPlain item = true := by
  refine forall_mem_append.mpr ⟨fun item hitem => ?_, fun item hitem => ?_⟩
  · obtain ⟨reasoning, -, rfl⟩ := Option.map_eq_some_iff.mp (Option.mem_toList.mp hitem)
    rfl
  · obtain ⟨message, -, rfl⟩ := Option.map_eq_some_iff.mp (Option.mem_toList.mp hitem)
    rfl

theorem map_fst_zip_take {β γ : Type*} (xs : List β) (ys : List γ) :
    (xs.zip ys).map Prod.fst = xs.take ys.length := by
  induction xs generalizing ys with
  | nil => simp
  | cons x xs ih => cases ys with
    | nil => rfl
    | cons y ys => simp [ih]

theorem mem_answered : call ∈ r.answered ↔ ∃ output, (call, output) ∈ r.calls.zip r.outputs := by
  rw [ModelResponse.answered, ← map_fst_zip_take]
  simp

/-- The calls of a history are those with and those without output. -/
theorem disjoint_answered_unanswered (hfresh : (entries.flatMap Entry.callIds).Nodup) :
    ∀ call ∈ entries.flatMap Entry.answered, ∀ other ∈ entries.flatMap Entry.unanswered,
      call.callId ≠ other.callId := by
  have hids : ∀ entry : Entry,
      entry.callIds = (entry.answered ++ entry.unanswered).map ModelCall.callId := by
    intro entry
    cases entry with
    | user message => rfl
    | response r => simp [Entry.callIds, Entry.answered, Entry.unanswered, ModelResponse.callIds,
        ModelResponse.answered, ModelResponse.unanswered]
  have hperm : (entries.flatMap Entry.callIds).Perm
      ((entries.flatMap Entry.answered ++ entries.flatMap Entry.unanswered).map
        ModelCall.callId) := by
    have heq : entries.flatMap Entry.callIds =
        (entries.flatMap fun entry => entry.answered ++ entry.unanswered).map ModelCall.callId := by
      rw [map_flatMap]
      exact congrArg (entries.flatMap ·) (funext hids)
    rw [heq]
    exact ((flatMap_append_perm entries Entry.answered Entry.unanswered).map _).symm
  have hnodup := hperm.nodup_iff.mp hfresh
  rw [map_append, nodup_append] at hnodup
  intro call hcall other hother
  exact hnodup.2.2 _ (mem_map_of_mem hcall) _ (mem_map_of_mem hother)

theorem exists_output_of_mem (hitem : item ∈ historyItems entries)
    (h : call.isOutputOf item = true) :
    ∃ answered ∈ entries.flatMap Entry.answered, answered.callId = call.callId := by
  obtain ⟨entry, hentry, hitem⟩ := mem_flatMap.mp hitem
  have hplain : ∀ item, isPlain item = true → call.isOutputOf item = false := by
    intro item hitem
    cases call <;> cases item <;> first | rfl | cases hitem
  cases entry with
  | user message =>
    rw [mem_singleton.mp hitem, hplain _ rfl] at h
    cases h
  | response r =>
    rcases mem_append.mp hitem with hitem | hitem
    · rcases mem_append.mp hitem with hitem | hitem
      · rw [hplain _ (isPlain_lead r item hitem)] at h
        cases h
      · obtain ⟨other, -, rfl⟩ := mem_map.mp hitem
        cases call <;> cases other <;> cases h
    · obtain ⟨⟨other, output⟩, hpair, rfl⟩ := mem_map.mp hitem
      exact ⟨other, mem_flatMap.mpr ⟨_, hentry, mem_answered.mpr ⟨output, hpair⟩⟩,
        callId_of_isOutputOf h⟩

theorem any_isOutputOf_iff (hfresh : (entries.flatMap Entry.callIds).Nodup)
    (hr : .response r ∈ entries) :
    (∀ call ∈ r.answered, (historyItems entries).any call.isOutputOf = true) ∧
      ∀ call ∈ r.unanswered, (historyItems entries).any call.isOutputOf = false := by
  constructor
  · intro call hcall
    obtain ⟨output, hpair⟩ := mem_answered.mp hcall
    refine any_eq_true.mpr ⟨call.output output, ?_, isOutputOf_output call output⟩
    exact mem_flatMap.mpr ⟨_, hr, mem_append_right _ (mem_map.mpr ⟨_, hpair, rfl⟩)⟩
  · intro call hcall
    rw [Bool.eq_false_iff]
    intro hany
    obtain ⟨item, hitem, h⟩ := any_eq_true.mp hany
    obtain ⟨answered, hanswered, hid⟩ := exists_output_of_mem hitem h
    exact disjoint_answered_unanswered hfresh answered hanswered call
      (mem_flatMap.mpr ⟨_, hr, hcall⟩) hid

theorem flatMap_of_missing_none {xs : List ResponseItem}
    (h : ∀ x ∈ xs, missingOutput items x = none) :
    (xs.flatMap fun x => x :: (missingOutput items x).toList) = xs := by
  induction xs with
  | nil => rfl
  | cons x xs ih =>
    obtain ⟨hx, hxs⟩ := forall_mem_cons.mp h
    simp [hx, ih hxs]

theorem missingOutput_of_isPlain (h : isPlain item = true) : missingOutput items item = none := by
  cases item <;> first | rfl | cases h

theorem ensureCallOutputsPresent_historyItems
    (hfresh : (entries.flatMap Entry.callIds).Nodup) :
    ensureCallOutputsPresent (historyItems entries) = entries.flatMap Entry.normalizedItems := by
  rw [ensureCallOutputsPresent_eq]
  nth_rewrite 2 [historyItems]
  rw [flatMap_assoc]
  refine flatMap_congr fun entry hentry => ?_
  cases entry with
  | user message =>
    exact flatMap_of_missing_none (by simp [Entry.items, TextMessage.item, missingOutput])
  | response r =>
    obtain ⟨hanswered, hunanswered⟩ := any_isOutputOf_iff hfresh hentry
    have hcalls : r.calls = r.answered ++ r.unanswered := (take_append_drop _ _).symm
    have hlead : (r.lead.flatMap fun item =>
        item :: (missingOutput (historyItems entries) item).toList) = r.lead :=
      flatMap_of_missing_none fun item hitem => missingOutput_of_isPlain (isPlain_lead r item hitem)
    have hwith : ((r.answered.map ModelCall.item).flatMap fun item =>
        item :: (missingOutput (historyItems entries) item).toList) =
          r.answered.map ModelCall.item := by
      refine flatMap_of_missing_none (forall_mem_map.mpr fun call hcall => ?_)
      rw [missingOutput_item, hanswered call hcall, if_pos rfl]
    have hwithout : ((r.unanswered.map ModelCall.item).flatMap fun item =>
        item :: (missingOutput (historyItems entries) item).toList) =
          r.unanswered.flatMap fun call => [call.item, call.aborted] := by
      rw [flatMap_map]
      refine flatMap_congr fun call hcall => ?_
      rw [missingOutput_item, hunanswered call hcall]
      rfl
    have houtputs : (r.outputItems.flatMap fun item =>
        item :: (missingOutput (historyItems entries) item).toList) = r.outputItems :=
      flatMap_of_missing_none
        (forall_mem_map.mpr fun ⟨call, output⟩ _ => by cases call <;> rfl)
    change (r.lead ++ r.calls.map ModelCall.item ++ r.outputItems).flatMap _ = r.normalizedItems
    rw [flatMap_append, flatMap_append, hlead, houtputs, hcalls, map_append,
      flatMap_append, hwith, hwithout, ModelResponse.normalizedItems]
    simp

/-- The output of a call is kept as long as the call is there. -/
theorem hasMatch_output (h : call.item ∈ items) (output : RecordedOutput) :
    hasMatch items (call.output output) = true := by
  cases call with
  | function id name callNamespace arguments callId =>
    simp only [ModelCall.output, hasMatch, decide_eq_true_eq]
    exact Or.inl (mem_filterMap.mpr ⟨_, h, rfl⟩)
  | applyPatch id status callId input =>
    simp only [ModelCall.output, hasMatch, decide_eq_true_eq]
    exact mem_filterMap.mpr ⟨_, h, rfl⟩

theorem hasMatch_of_isPlain (h : isPlain item = true) : hasMatch items item = true := by
  cases item <;> first | rfl | cases h

theorem item_mem_normalizedItems (h : call ∈ r.calls) : call.item ∈ r.normalizedItems := by
  rw [← take_append_drop r.outputs.length r.calls] at h
  rcases mem_append.mp h with h | h
  · exact mem_append_left _ (mem_append_left _ (mem_append_right _ (mem_map_of_mem h)))
  · exact mem_append_left _ (mem_append_right _ (mem_flatMap.mpr ⟨call, h, mem_cons_self⟩))

/-- What holds of the items before the calls, of the calls and of their outputs holds of all
items of a response. -/
theorem forall_mem_normalizedItems {P : ResponseItem → Prop} (hlead : ∀ item ∈ r.lead, P item)
    (hcall : ∀ call ∈ r.calls, P call.item)
    (houtput : ∀ call ∈ r.calls, ∀ output, P (call.output output)) :
    ∀ item ∈ r.normalizedItems, P item := by
  have hanswered : ∀ item ∈ r.answered.map ModelCall.item, P item :=
    forall_mem_map.mpr fun call h => hcall call (mem_of_mem_take h)
  have hunanswered : ∀ item ∈ r.unanswered.flatMap (fun call => [call.item, call.aborted]),
      P item := by
    intro item hitem
    obtain ⟨call, h, hitem⟩ := mem_flatMap.mp hitem
    have hmem : call ∈ r.calls := mem_of_mem_drop h
    rcases mem_pair.mp hitem with rfl | rfl
    · exact hcall call hmem
    · exact houtput call hmem _
  have houtputs : ∀ item ∈ r.outputItems, P item :=
    forall_mem_map.mpr fun pair h => houtput pair.1 (of_mem_zip h).1 pair.2
  simp only [ModelResponse.normalizedItems, forall_mem_append]
  exact ⟨⟨⟨hlead, hanswered⟩, hunanswered⟩, houtputs⟩

/-- A normalised history has every output next to its call, or after its batch. -/
theorem normalizeHistory_historyItems (hfresh : (entries.flatMap Entry.callIds).Nodup) :
    normalizeHistory (historyItems entries) = entries.flatMap Entry.normalizedItems := by
  rw [normalizeHistory, ensureCallOutputsPresent_historyItems hfresh, removeOrphanOutputs,
    filter_eq_self]
  intro item hitem
  obtain ⟨entry, hentry, hitem⟩ := mem_flatMap.mp hitem
  cases entry with
  | user message => exact hasMatch_of_isPlain (by rw [mem_singleton.mp hitem]; rfl)
  | response r =>
    have hcall : ∀ call ∈ r.calls, call.item ∈ entries.flatMap Entry.normalizedItems :=
      fun call hcall => mem_flatMap.mpr ⟨_, hentry, item_mem_normalizedItems hcall⟩
    exact forall_mem_normalizedItems (fun item h => hasMatch_of_isPlain (isPlain_lead r item h))
      (fun call _ => by cases call <;> rfl) (fun call h => hasMatch_output (hcall call h))
      item hitem

end Outputs

end DeepseekX.ToolBatches
