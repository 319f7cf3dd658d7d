import DeepseekX.ChatMessagePieces
import DeepseekX.ToolBatches

/-!
# Pieces of batches of tool calls

What the items of a response contribute to the messages. Gathering stops at the first
inserted output, so the calls with an output and the first one without make a batch, and
every further call gets a message of its own.
-/

namespace DeepseekX.ToolBatches
open ResponseItems ChatMessages HistoryNormalization Transducers ModelResponse

section Runs
variable {codec : JsonCodec} {h : Bool}

def ModelCall.toolCall (codec : JsonCodec) : ModelCall → ChatToolCall
  | .function _ name _ arguments callId => ⟨callId, name, arguments⟩
  | .applyPatch _ _ callId input =>
    ⟨callId, applyPatchToolName, applyPatchChatArguments codec input⟩

theorem isSupported_item (call : ModelCall) : isSupportedChatToolCall call.item = true := by
  cases call with
  | function id name callNamespace arguments callId => rfl
  | applyPatch id status callId input => simp [ModelCall.item, isSupportedChatToolCall]

theorem id_toolCall (codec : JsonCodec) (call : ModelCall) :
    (call.toolCall codec).id = call.callId := by
  cases call <;> rfl

variable (draft : Draft ResponseItem)

theorem step_item (call : ModelCall) :
    step codec id h draft call.item = .ok (if draft.gathering then
        (draft, [.call call.item (call.toolCall codec)])
      else (⟨none, true⟩, [.message call.item (draft.pending.map (·.1))
        (.assistant none (draft.pending.map (·.2)) none),
        .call call.item (call.toolCall codec)])) := by
  have hcall : chatToolCallFromItem codec (id call.item) = .ok (some (call.toolCall codec)) := by
    cases call <;> rfl
  exact step_call hcall

def callPieces (codec : JsonCodec) (calls : List ModelCall) : List (Piece ResponseItem) :=
  calls.map fun call => .call call.item (call.toolCall codec)

def outputPieces (pairs : List (ModelCall × RecordedOutput)) : List (Piece ResponseItem) :=
  pairs.map fun (call, output) =>
    .message (call.output output) none (.tool output.text call.callId)

def singlePieces (codec : JsonCodec) (calls : List ModelCall) : List (Piece ResponseItem) :=
  calls.flatMap fun call =>
    [.message call.item none (.assistant none none none), .call call.item (call.toolCall codec),
      .message call.aborted none (.tool "aborted" call.callId)]

theorem run_calls (pending : Option (ResponseItem × String)) (calls : List ModelCall) :
    run (step codec id h) ⟨pending, true⟩ (calls.map ModelCall.item) =
      .ok (⟨pending, true⟩, callPieces codec calls) := by
  induction calls with
  | nil => rfl
  | cons call calls ih =>
    rw [List.map_cons, run_cons_eq_bind, step_item]
    simp [ih, callPieces]

/-- A call starts a message if none takes it, and then goes on as if there was one. -/
theorem run_call_not_gathering (pending : Option (ResponseItem × String)) (call : ModelCall)
    (items : List ResponseItem) :
    run (step codec id h) ⟨pending, false⟩ (call.item :: items) =
      (run (step codec id h) ⟨none, true⟩ (call.item :: items)).map fun r =>
        (r.1, .message call.item (pending.map (·.1)) (.assistant none (pending.map (·.2)) none) ::
          r.2) := by
  rw [run_cons_eq_bind, run_cons_eq_bind, step_item, step_item]
  simp [map_map]

theorem step_output (call : ModelCall) (output : RecordedOutput) :
    step codec id h draft (call.output output) = .ok (⟨draft.pending, false⟩,
      [.message (call.output output) none (.tool output.text call.callId)]) := by
  cases call <;> rfl

theorem run_outputs (pairs : List (ModelCall × RecordedOutput)) :
    run (step codec id h) draft (pairs.map fun (call, output) => call.output output) =
      .ok (if pairs = [] then draft else ⟨draft.pending, false⟩, outputPieces pairs) := by
  induction pairs generalizing draft with
  | nil => rfl
  | cons pair pairs ih =>
    rw [List.map_cons, run_cons_eq_bind, step_output]
    simp [ih, outputPieces]

/-- A call with its inserted output is a message of its own. -/
theorem run_singles (calls : List ModelCall) :
    run (step codec id h) ⟨none, false⟩ (calls.flatMap fun call => [call.item, call.aborted]) =
      .ok (⟨none, false⟩, singlePieces codec calls) := by
  induction calls with
  | nil => rfl
  | cons call calls ih =>
    rw [List.flatMap_cons, List.cons_append, run_cons_eq_bind, step_item,
      ok_bind, List.cons_append, run_cons_eq_bind, ModelCall.aborted, step_output]
    simp [ih]
    rfl

end Runs

namespace ModelResponse
variable (r : ModelResponse)

def callItems : List ResponseItem :=
  r.answered.map ModelCall.item ++
    r.unanswered.flatMap (fun call => [call.item, call.aborted]) ++ r.outputItems

theorem normalizedItems_eq : r.normalizedItems = r.lead ++ r.callItems := by
  simp [normalizedItems, callItems]

def batch : List ModelCall := r.answered ++ r.unanswered.take 1

def singles : List ModelCall := r.unanswered.drop 1

def afterBatch (codec : JsonCodec) : List ChatMessage :=
  (r.unanswered.take 1).map (fun call => .tool "aborted" call.callId) ++
    r.singles.flatMap (fun call =>
      [.assistant none none (some [call.toolCall codec]), .tool "aborted" call.callId]) ++
    (r.calls.zip r.outputs).map fun (call, output) => .tool output.text call.callId

end ModelResponse

section Batches
variable {codec : JsonCodec} {h : Bool} {r : ModelResponse}

theorem foldr_attach_calls (calls : List ModelCall)
    (result : List ChatToolCall × List ChatMessage) :
    (callPieces codec calls).foldr Piece.attach result =
      (calls.map (ModelCall.toolCall codec) ++ result.1, result.2) := by
  induction calls with
  | nil => rfl
  | cons call calls ih =>
    rw [callPieces] at ih ⊢
    simp [ih, Piece.attach]

theorem foldr_attach_outputs (pairs : List (ModelCall × RecordedOutput))
    (later : List ChatMessage) :
    (outputPieces pairs).foldr Piece.attach ([], later) =
      ([], (pairs.map fun (call, output) => .tool output.text call.callId) ++ later) := by
  induction pairs with
  | nil => rfl
  | cons pair pairs ih =>
    rw [outputPieces] at ih ⊢
    simp [ih, Piece.attach]

theorem foldr_attach_singles (calls : List ModelCall) (later : List ChatMessage) :
    (singlePieces codec calls).foldr Piece.attach ([], later) =
      ([], (calls.flatMap fun call => [.assistant none none (some [call.toolCall codec]),
        .tool "aborted" call.callId]) ++ later) := by
  induction calls with
  | nil => rfl
  | cons call calls ih =>
    rw [singlePieces] at ih ⊢
    simp [ih, Piece.attach, ChatMessage.withToolCalls]

variable (codec h) in
theorem run_callItems (hcalls : r.calls ≠ []) :
    ∃ pieces, run (step codec id h) ⟨none, true⟩ r.callItems = .ok (⟨none, false⟩, pieces) ∧
      ∀ later, pieces.foldr Piece.attach ([], later) =
        (r.batch.map (ModelCall.toolCall codec), r.afterBatch codec ++ later) := by
  cases hu : r.unanswered with
  | nil =>
    have hpairs : r.calls.zip r.outputs ≠ [] := by
      have hlength := List.length_pos_iff.mpr hcalls
      have hle := List.drop_eq_nil_iff.mp hu
      rw [← List.length_pos_iff, List.length_zip]
      omega
    refine ⟨callPieces codec r.answered ++ outputPieces (r.calls.zip r.outputs), ?_,
      fun later => ?_⟩
    · rw [callItems, outputItems, hu, List.flatMap_nil, List.append_nil, run_append, run_calls]
      simp [run_outputs, hpairs]
    · rw [List.foldr_append, foldr_attach_outputs, foldr_attach_calls]
      simp [batch, afterBatch, singles, hu]
  | cons call rest =>
    have hitems : r.callItems = (r.answered ++ [call]).map ModelCall.item ++ (call.aborted ::
        (rest.flatMap (fun call => [call.item, call.aborted]) ++ r.outputItems)) := by
      simp [callItems, hu]
    refine ⟨callPieces codec (r.answered ++ [call]) ++ .message call.aborted none
      (.tool "aborted" call.callId) :: (singlePieces codec rest ++
        outputPieces (r.calls.zip r.outputs)), ?_, fun later => ?_⟩
    · have hsingles : run (step codec id h) ⟨none, true⟩ (call.aborted ::
          (rest.flatMap (fun call => [call.item, call.aborted]) ++ r.outputItems)) =
            .ok (⟨none, false⟩, .message call.aborted none (.tool "aborted" call.callId) ::
              (singlePieces codec rest ++ outputPieces (r.calls.zip r.outputs))) := by
        rw [run_cons_eq_bind, ModelCall.aborted, step_output, ok_bind, run_append, run_singles]
        simp [outputItems, run_outputs]
      rw [hitems]
      exact run_append_eq_ok.mpr ⟨_, _, _, run_calls none _, hsingles, rfl⟩
    · rw [List.foldr_append, List.foldr_cons, List.foldr_append, foldr_attach_outputs,
        foldr_attach_singles, Piece.attach, foldr_attach_calls]
      simp [batch, afterBatch, singles, hu]

theorem exists_callItems_eq_cons (hcalls : r.calls ≠ []) :
    ∃ call items, r.callItems = ModelCall.item call :: items := by
  have hall : r.answered ++ r.unanswered ≠ [] := by
    rwa [answered, unanswered, List.take_append_drop]
  rw [callItems]
  cases ha : r.answered with
  | cons call answered => exact ⟨call, _, rfl⟩
  | nil =>
    cases hu : r.unanswered with
    | cons call unanswered => exact ⟨call, _, rfl⟩
    | nil => exact absurd (by rw [ha, hu]; rfl) hall

variable (draft : Draft ResponseItem)

theorem step_reasoning (reasoning : ModelReasoning) :
    step codec id h draft reasoning.item =
      .ok (⟨some (reasoning.item, reasoning.text), false⟩, []) := by
  change Except.ok (Draft.mk ((reasoningContentText (some reasoning.content)).map
    (reasoning.item, ·)) false, []) = _
  rw [reasoningContentText, Option.bind_some, if_neg reasoning.nonempty]
  rfl

theorem step_message (message : TextMessage) :
    step codec id h draft (message.item "assistant") =
      .ok (⟨if h then none else draft.pending, true⟩, [.message (message.item "assistant")
        ((if h then draft.pending else none).map (·.1)) (.assistant (some message.text)
          ((if h then draft.pending else none).map (·.2)) none)]) := by
  change (contentText message.content).map _ = _
  rw [message.text_eq]
  rfl

/-- The draft after the reasoning of a response. -/
def ModelResponse.reasoned (r : ModelResponse) (draft : Draft ResponseItem) : Draft ResponseItem :=
  match r.reasoning with
  | none => draft
  | some reasoning => ⟨some (reasoning.item, reasoning.text), false⟩

theorem run_lead :
    run (step codec id h) draft r.lead =
      run (step codec id h) (r.reasoned draft)
        (r.message.map (TextMessage.item "assistant")).toList := by
  rw [lead, reasoned]
  cases r.reasoning with
  | none => rfl
  | some reasoning =>
    rw [Option.map_some, Option.toList_some, List.singleton_append, run_cons_eq_bind,
      step_reasoning]
    simp

theorem pending_reasoned :
    ∀ reasoning ∈ r.reasoning, (r.reasoned draft).pending.map (·.2) = some reasoning.text := by
  intro reasoning hreasoning
  rw [reasoned, Option.mem_def.mp hreasoning]
  rfl

variable {draft : Draft ResponseItem}

theorem reasoned_of_gathering (hg : (r.reasoned draft).gathering = true) :
    r.reasoning = none ∧ r.reasoned draft = draft := by
  rw [reasoned] at hg ⊢
  cases hr : r.reasoning with
  | none => simp
  | some reasoning => simp [hr] at hg

theorem normalizedItems_of_no_calls (hcalls : r.calls = []) : r.normalizedItems = r.lead := by
  simp [normalizedItems, answered, unanswered, outputItems, hcalls]

variable (codec) in
/-- A response without calls gives at most a message. -/
theorem run_normalizedItems_of_no_calls (hcalls : r.calls = [])
    (hdraft : h = true → draft.gathering = true → draft.pending = none) :
    ∃ next pieces, run (step codec id h) draft r.normalizedItems = .ok (next, pieces) ∧
      (h = true → next.gathering = true → next.pending = none) ∧
      (pieces = [] ∨ ∃ source account content reasoningContent,
        pieces = [.message source account (.assistant content reasoningContent none)]) := by
  rw [normalizedItems_of_no_calls hcalls, run_lead]
  cases r.message with
  | none =>
    refine ⟨r.reasoned draft, [], rfl, fun htrue hg => ?_, Or.inl rfl⟩
    have hsame := (reasoned_of_gathering hg).2
    rw [hsame] at hg
    rw [hsame]
    exact hdraft htrue hg
  | some message =>
    rw [Option.map_some, Option.toList_some, run_cons_eq_bind, step_message]
    exact ⟨_, _, rfl, fun htrue _ => if_pos htrue, Or.inr ⟨_, _, _, _, rfl⟩⟩

variable (codec) in
/-- A response with calls gives a batch. It joins the message before if that takes it and there
is neither reasoning nor a message of its own. -/
theorem run_normalizedItems (hcalls : r.calls ≠ [])
    (hdraft : draft.gathering = true → draft.pending = none) :
    ∃ pieces, run (step codec id true) draft r.normalizedItems = .ok (⟨none, false⟩, pieces) ∧
      ∀ later, pieces.foldr Piece.attach ([], later) =
        if r.message.isNone ∧ (r.reasoned draft).gathering then
          (r.batch.map (ModelCall.toolCall codec), r.afterBatch codec ++ later)
        else ([], (ChatMessage.assistant (r.message.map (·.text))
          ((r.reasoned draft).pending.map (·.2)) none).withToolCalls
            (r.batch.map (ModelCall.toolCall codec)) :: (r.afterBatch codec ++ later)) := by
  obtain ⟨pieces, hrun, hpieces⟩ := run_callItems codec true hcalls
  rw [r.normalizedItems_eq]
  cases hm : r.message with
  | some message =>
    have hlead : run (step codec id true) draft r.lead = .ok (⟨none, true⟩,
        [.message (message.item "assistant") ((r.reasoned draft).pending.map (·.1))
          (.assistant (some message.text) ((r.reasoned draft).pending.map (·.2)) none)]) := by
      rw [run_lead, hm, Option.map_some, Option.toList_some, run_cons_eq_bind, step_message]
      rfl
    refine ⟨_, run_append_eq_ok.mpr ⟨_, _, _, hlead, hrun, rfl⟩, fun later => ?_⟩
    rw [List.foldr_append, hpieces]
    rfl
  | none =>
    have hlead : run (step codec id true) draft r.lead = .ok (r.reasoned draft, []) := by
      rw [run_lead, hm]
      rfl
    cases hg : (r.reasoned draft).gathering with
    | true =>
      have hnone : r.reasoned draft = ⟨none, true⟩ := by
        have hsame := (reasoned_of_gathering hg).2
        rw [hsame] at hg ⊢
        rw [← hdraft hg, ← hg]
      rw [hnone] at hlead
      refine ⟨pieces, run_append_eq_ok.mpr ⟨_, _, _, hlead, hrun, rfl⟩, fun later => ?_⟩
      rw [hpieces]
      rfl
    | false =>
      obtain ⟨call, items, hitems⟩ := exists_callItems_eq_cons hcalls
      have hown : run (step codec id true) (r.reasoned draft) r.callItems = .ok (⟨none, false⟩,
          .message call.item ((r.reasoned draft).pending.map (·.1))
            (.assistant none ((r.reasoned draft).pending.map (·.2)) none) :: pieces) := by
        have hdraft : r.reasoned draft = ⟨(r.reasoned draft).pending, false⟩ := by rw [← hg]
        rw [hitems] at hrun ⊢
        rw [hdraft, run_call_not_gathering, hrun]
        rfl
      refine ⟨_, run_append_eq_ok.mpr ⟨_, _, _, hlead, hown, rfl⟩, fun later => ?_⟩
      rw [List.nil_append, List.foldr_cons, hpieces]
      rfl

end Batches

theorem userContent_normalizedItems (r : ModelResponse) :
    ∀ item ∈ r.normalizedItems, userContent (id item) = none := by
  refine forall_mem_normalizedItems (List.forall_mem_append.mpr ⟨fun item hitem => ?_,
    fun item hitem => ?_⟩) (fun call _ => ?_) fun call _ output => ?_
  · obtain ⟨reasoning, -, rfl⟩ := Option.map_eq_some_iff.mp (Option.mem_toList.mp hitem)
    rfl
  · obtain ⟨message, -, rfl⟩ := Option.map_eq_some_iff.mp (Option.mem_toList.mp hitem)
    rfl
  · cases call <;> rfl
  · cases call <;> rfl

variable {r : ModelResponse}

theorem normalizedItems_of_answered (hall : r.unanswered = []) : r.normalizedItems = r.items := by
  have hcalls : r.answered = r.calls := by
    rw [← List.append_nil r.answered, ← hall, answered, unanswered, List.take_append_drop]
  rw [normalizedItems, hall, hcalls, List.flatMap_nil, List.append_nil]
  rfl

theorem chatMessagesFromItems_response (codec : JsonCodec) (hall : r.unanswered = [])
    (hpresent : r.message.isSome ∨ r.calls ≠ []) :
    chatMessagesFromItems codec r.normalizedItems = .ok
      (.assistant (r.message.map (·.text)) (if r.calls = [] then none else r.reasoning.map (·.text))
          (if r.calls = [] then none else some (r.calls.map (ModelCall.toolCall codec))) ::
        (r.calls.zip r.outputs).map fun (call, output) => .tool output.text call.callId) := by
  have hmessages := @chatMessagesFromItems_eq codec _ id r.normalizedItems
  rw [List.map_id, tracedMessages_segment (userContent_normalizedItems r), segmentRun] at hmessages
  rw [hmessages]
  by_cases hcalls : r.calls = []
  · obtain ⟨message, hmessage⟩ :=
      Option.isSome_iff_exists.mp (hpresent.resolve_right (absurd hcalls))
    have hplain : (r.lead.any fun item => isSupportedChatToolCall (id item)) = false := by
      rw [List.any_eq_false]
      intro item hitem
      have hitem := isPlain_lead r item hitem
      cases item <;> first | exact Bool.false_ne_true | cases hitem
    rw [normalizedItems_of_no_calls hcalls, hplain, run_lead, hmessage, Option.map_some,
      Option.toList_some, run_cons_eq_bind, step_message]
    simp [hcalls, assemble]
  · have hsome : (r.normalizedItems.any fun item => isSupportedChatToolCall (id item)) = true := by
      obtain ⟨call, hcall⟩ := List.exists_mem_of_ne_nil _ hcalls
      exact List.any_eq_true.mpr ⟨call.item, item_mem_normalizedItems hcall, isSupported_item call⟩
    have hdraft : (⟨none, false⟩ : Draft ResponseItem).gathering = true →
        (⟨none, false⟩ : Draft ResponseItem).pending = none := fun _ => rfl
    obtain ⟨pieces, hrun, hpieces⟩ := run_normalizedItems codec hcalls hdraft
    have hreasoned : (r.reasoned ⟨none, false⟩).gathering = false ∧
        (r.reasoned ⟨none, false⟩).pending.map (·.2) = r.reasoning.map (·.text) := by
      rw [reasoned]
      cases r.reasoning <;> exact ⟨rfl, rfl⟩
    have hbatch : r.batch = r.calls := by
      rw [batch, hall, List.take_nil, ← hall, answered, unanswered, List.take_append_drop]
    have hfold := congrArg Prod.snd (hpieces [])
    rw [foldr_attach, if_neg (by simp [hreasoned.1]), hreasoned.2, hbatch] at hfold
    rw [hsome, hrun]
    refine (congrArg Except.ok hfold).trans ?_
    simp [hcalls, ChatMessage.withToolCalls, afterBatch, singles, hall]

end DeepseekX.ToolBatches
