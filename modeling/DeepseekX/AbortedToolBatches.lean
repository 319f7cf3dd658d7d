import DeepseekX.ReasoningBinding
import DeepseekX.ToolBatchPieces

/-!
# Messages for aborted batches of tool calls

The server wants every tool call of a message answered before the next message, and every
message with tool calls to carry its reasoning. The outputs inserted by the normalisation
come right after the calls without one, which splits the batch: the messages stay legal
if at most one call is left open, or if nothing is answered and there is no reasoning.
-/

namespace DeepseekX.ToolBatches
open ResponseItems ChatMessages HistoryNormalization Transducers ModelResponse
open List hiding foldr_attach

def callIdsOf : ChatMessage → List String
  | .assistant _ _ (some toolCalls) => toolCalls.map (·.id)
  | _ => []

/-- The ids answered by the tool messages up to the next other message. -/
def leadingToolIds : List ChatMessage → List String
  | .tool _ toolCallId :: messages => toolCallId :: leadingToolIds messages
  | _ => []

/-- Every tool call is answered before the next message that is no tool message. -/
def Answered : List ChatMessage → Prop
  | [] => True
  | message :: messages =>
    (∀ callId ∈ callIdsOf message, callId ∈ leadingToolIds messages) ∧ Answered messages

/-- Every message with tool calls of a response carries the reasoning of the response. -/
def CarriesReasoning (entries : List Entry) (messages : List ChatMessage) : Prop :=
  ∀ r, .response r ∈ entries → ∀ reasoning ∈ r.reasoning, ∀ message ∈ messages,
    ∀ callId ∈ callIdsOf message, callId ∈ r.callIds →
      message.reasoningContent = some reasoning.text

/-- At most one call is left without output, or nothing is answered and there is no reasoning. -/
def ModelResponse.BatchWhole (r : ModelResponse) : Prop :=
  r.calls.length ≤ r.outputs.length + 1 ∨ r.outputs = [] ∧ r.reasoning = none

/-- Legal messages, for a relation that says which reasoning a call must come with. -/
def Legal (owes : String → String → Prop) : List ChatMessage → Prop
  | [] => True
  | message :: messages =>
    (∀ callId ∈ callIdsOf message, callId ∈ leadingToolIds messages ∧
      ∀ text, owes callId text → message.reasoningContent = some text) ∧ Legal owes messages

def owedReasoning (entries : List Entry) (callId text : String) : Prop :=
  ∃ r, .response r ∈ entries ∧ (∃ reasoning ∈ r.reasoning, reasoning.text = text) ∧
    callId ∈ r.callIds

theorem legal_iff (entries : List Entry) (messages : List ChatMessage) :
    Legal (owedReasoning entries) messages ↔
      Answered messages ∧ CarriesReasoning entries messages := by
  induction messages with
  | nil => simp [Legal, Answered, CarriesReasoning]
  | cons message messages ih =>
    rw [Legal, ih]
    constructor
    · rintro ⟨hmessage, hanswered, hcarries⟩
      refine ⟨⟨fun callId hid => (hmessage callId hid).1, hanswered⟩, ?_⟩
      intro r hr reasoning hreasoning m hm callId hid hmem
      rcases mem_cons.mp hm with rfl | hm
      · exact (hmessage callId hid).2 _ ⟨r, hr, ⟨reasoning, hreasoning, rfl⟩, hmem⟩
      · exact hcarries r hr reasoning hreasoning m hm callId hid hmem
    · rintro ⟨⟨hmessage, hanswered⟩, hcarries⟩
      refine ⟨fun callId hid => ⟨hmessage callId hid, ?_⟩, hanswered, ?_⟩
      · rintro text ⟨r, hr, ⟨reasoning, hreasoning, rfl⟩, hmem⟩
        exact hcarries r hr reasoning hreasoning message mem_cons_self callId hid hmem
      · intro r hr reasoning hreasoning m hm
        exact hcarries r hr reasoning hreasoning m (mem_cons_of_mem _ hm)

variable {ys : List ChatMessage}

theorem leadingToolIds_append (h : leadingToolIds ys = []) (xs : List ChatMessage) :
    leadingToolIds (xs ++ ys) = leadingToolIds xs := by
  induction xs with
  | nil => exact h
  | cons x xs ih => cases x <;> simp [leadingToolIds, ih]

theorem legal_append {owes : String → String → Prop} (xs : List ChatMessage)
    (h : leadingToolIds ys = []) : Legal owes (xs ++ ys) ↔ Legal owes xs ∧ Legal owes ys := by
  induction xs with
  | nil => simp [Legal]
  | cons x xs ih => rw [cons_append, Legal, Legal, ih, leadingToolIds_append h, and_assoc]

section Legality
variable {codec : JsonCodec} {owes : String → String → Prop} {r : ModelResponse}

theorem legal_cons_of_no_calls {message : ChatMessage} {messages : List ChatMessage}
    (h : callIdsOf message = []) : Legal owes (message :: messages) ↔ Legal owes messages := by
  simp [Legal, h]

theorem callIdsOf_withToolCalls (content reasoningContent : Option String)
    (calls : List ModelCall) :
    callIdsOf ((ChatMessage.assistant content reasoningContent none).withToolCalls
      (calls.map (ModelCall.toolCall codec))) = calls.map ModelCall.callId := by
  cases calls with
  | nil => rfl
  | cons call calls => simp [ChatMessage.withToolCalls, callIdsOf, id_toolCall]

section Tools
variable {β : Type*} (text callId : β → String) (xs : List β) (messages : List ChatMessage)

theorem leadingToolIds_tools :
    leadingToolIds (xs.map (fun x => .tool (text x) (callId x)) ++ messages) =
      xs.map callId ++ leadingToolIds messages := by
  induction xs with
  | nil => rfl
  | cons x xs ih => simp [leadingToolIds, ih]

theorem legal_tools :
    Legal owes (xs.map (fun x => .tool (text x) (callId x)) ++ messages) ↔ Legal owes messages := by
  induction xs with
  | nil => rfl
  | cons x xs ih => exact (legal_cons_of_no_calls rfl).trans ih

end Tools

/-- The messages of the calls after the batch are answered, but have no reasoning. -/
theorem legal_singles (calls : List ModelCall) (messages : List ChatMessage) :
    Legal owes ((calls.flatMap fun call => [.assistant none none (some [call.toolCall codec]),
        .tool "aborted" call.callId]) ++ messages) ↔
      (∀ call ∈ calls, ∀ text, ¬owes call.callId text) ∧ Legal owes messages := by
  induction calls with
  | nil => simp
  | cons call calls ih =>
    rw [flatMap_cons, append_assoc, cons_append, singleton_append, Legal,
      legal_cons_of_no_calls rfl, ih, forall_mem_cons, and_assoc]
    simp [callIdsOf, id_toolCall, leadingToolIds, ChatMessage.reasoningContent]

/-- The calls of a response have ids of their own and owe its reasoning. -/
structure ModelResponse.Accounted (owes : String → String → Prop) (r : ModelResponse) : Prop where
  nodup : r.callIds.Nodup
  owes_iff : ∀ callId ∈ r.callIds, ∀ text, owes callId text ↔
    ∃ reasoning ∈ r.reasoning, reasoning.text = text

theorem batchWhole_iff : r.BatchWhole ↔ r.singles = [] ∨ r.answered = [] ∧ r.reasoning = none := by
  have hanswered : r.calls.length ≤ r.outputs.length + 1 ∨ (r.outputs = [] ↔ r.answered = []) := by
    rw [answered]
    by_cases hc : r.calls = []
    · simp [hc]
    · simp [hc]
  rw [ModelResponse.BatchWhole, singles, drop_eq_nil_iff, unanswered, length_drop]
  rcases hanswered with h | h
  · exact ⟨fun _ => Or.inl (by omega), fun _ => Or.inl h⟩
  · rw [h]
    exact or_congr_left (by omega)

section Batch
variable (codec) (later : List ChatMessage)

theorem calls_eq : r.calls = r.batch ++ r.singles := by
  rw [batch, singles, append_assoc, take_append_drop, answered, unanswered, take_append_drop]

theorem legal_afterBatch : Legal owes (r.afterBatch codec ++ later) ↔
    (∀ call ∈ r.singles, ∀ text, ¬owes call.callId text) ∧ Legal owes later := by
  rw [afterBatch, append_assoc, append_assoc, legal_tools, legal_singles]
  exact and_congr_right fun _ => legal_tools (fun pair => pair.2.text) (fun pair => pair.1.callId)
    (r.calls.zip r.outputs) later

theorem leadingToolIds_outputs :
    leadingToolIds ((r.calls.zip r.outputs).map (fun (call, output) =>
        ChatMessage.tool output.text call.callId) ++ later) =
      r.answered.map ModelCall.callId ++ leadingToolIds later := by
  rw [answered, ← map_fst_zip_take, List.map_map]
  exact leadingToolIds_tools (fun pair => pair.2.text) (fun pair => pair.1.callId)
    (r.calls.zip r.outputs) later

/-- The calls of the batch are answered in time unless other calls come between. -/
theorem batch_answered_iff (hfresh : r.callIds.Nodup) :
    (∀ call ∈ r.batch, call.callId ∈ leadingToolIds (r.afterBatch codec ++ later)) ↔
      r.singles = [] ∨ r.answered = [] := by
  rw [afterBatch, append_assoc, append_assoc, leadingToolIds_tools]
  cases hs : r.singles with
  | nil =>
    refine iff_of_true (fun call hcall => ?_) (Or.inl rfl)
    rw [flatMap_nil, nil_append, leadingToolIds_outputs, mem_append, mem_append]
    rcases mem_append.mp hcall with hcall | hcall
    · exact Or.inr (Or.inl (mem_map_of_mem hcall))
    · exact Or.inl (mem_map_of_mem hcall)
  | cons single singles =>
    rw [flatMap_cons, cons_append, cons_append,
      show leadingToolIds (.assistant _ _ _ :: _) = [] from rfl, append_nil]
    have hnodup : ((r.answered ++ r.unanswered.take 1).map ModelCall.callId).Nodup := by
      rw [callIds, calls_eq, map_append] at hfresh
      exact hfresh.of_append_left
    rw [map_append, nodup_append] at hnodup
    constructor
    · intro h
      refine Or.inr (eq_nil_iff_forall_not_mem.mpr fun call hcall => ?_)
      exact hnodup.2.2 _ (mem_map_of_mem hcall) _ (h call (mem_append_left _ hcall)) rfl
    · rintro (h | h) call hcall
      · cases h
      · rw [batch, h] at hcall
        exact mem_map_of_mem hcall

/-- The calls after the batch owe nothing only if there is no reasoning. -/
theorem singles_owe_nothing_iff (howed : r.Accounted owes) :
    (∀ call ∈ r.singles, ∀ text, ¬owes call.callId text) ↔ r.singles = [] ∨ r.reasoning = none := by
  have hmem : ∀ call ∈ r.singles, call.callId ∈ r.callIds := by
    intro call hcall
    rw [callIds, calls_eq]
    exact mem_map_of_mem (mem_append_right _ hcall)
  constructor
  · intro h
    cases hr : r.reasoning with
    | none => exact Or.inr rfl
    | some reasoning =>
      refine Or.inl (eq_nil_iff_forall_not_mem.mpr fun call hcall => ?_)
      exact h call hcall reasoning.text
        ((howed.owes_iff _ (hmem call hcall) _).mpr ⟨reasoning, hr, rfl⟩)
  · rintro (h | h) call hcall text howes
    · rw [h] at hcall
      cases hcall
    · obtain ⟨reasoning, hreasoning, -⟩ := (howed.owes_iff _ (hmem call hcall) _).mp howes
      rw [h] at hreasoning
      cases hreasoning

end Batch

/-- The message of the batch and those after it are legal if the batch is whole. -/
theorem legal_batch (howed : r.Accounted owes)
    {content reasoningContent : Option String}
    (hreasoning : ∀ reasoning ∈ r.reasoning, reasoningContent = some reasoning.text)
    (later : List ChatMessage) :
    Legal owes ((ChatMessage.assistant content reasoningContent none).withToolCalls
        (r.batch.map (ModelCall.toolCall codec)) :: (r.afterBatch codec ++ later)) ↔
      r.BatchWhole ∧ Legal owes later := by
  have hbatch : (∀ callId ∈ r.batch.map ModelCall.callId,
      callId ∈ leadingToolIds (r.afterBatch codec ++ later) ∧
        ∀ text, owes callId text → reasoningContent = some text) ↔
      r.singles = [] ∨ r.answered = [] := by
    rw [← batch_answered_iff codec later howed.nodup, forall_mem_map]
    refine forall₂_congr fun call hcall => and_iff_left ?_
    intro text howes
    have hmem : call.callId ∈ r.callIds := by
      rw [callIds, calls_eq]
      exact mem_map_of_mem (mem_append_left _ hcall)
    obtain ⟨reasoning, hmem, rfl⟩ := (howed.owes_iff _ hmem text).mp howes
    exact hreasoning reasoning hmem
  rw [Legal, callIdsOf_withToolCalls, ChatMessage.reasoningContent_withToolCalls,
    ChatMessage.reasoningContent, hbatch, legal_afterBatch, singles_owe_nothing_iff howed,
    batchWhole_iff, ← and_assoc, or_and_left]

end Legality

section Histories
variable {codec : JsonCodec} {owes : String → String → Prop}
variable {responses : List ModelResponse}

/-- The messages of responses in a row, after a message that may take the first calls. -/
theorem legal_run {h : Bool} (howed : ∀ r ∈ responses, r.Accounted owes)
    (hh : ∀ r ∈ responses, r.calls ≠ [] → h = true) (draft : Draft ResponseItem)
    (hdraft : h = true → draft.gathering = true → draft.pending = none) :
    ∃ last pieces, run (step codec id h) draft (responses.flatMap normalizedItems) =
        .ok (last, pieces) ∧
      ∀ content reasoningContent,
        (Legal owes ((ChatMessage.assistant content reasoningContent none).withToolCalls
            (pieces.foldr Piece.attach ([], [])).1 :: (pieces.foldr Piece.attach ([], [])).2) ↔
          ∀ r ∈ responses, r.BatchWhole) := by
  induction responses generalizing draft with
  | nil => exact ⟨draft, [], rfl, fun content reasoningContent => by simp [Legal, callIdsOf]⟩
  | cons r responses ih =>
    obtain ⟨howed₁, howed₂⟩ := forall_mem_cons.mp howed
    obtain ⟨hh₁, hh₂⟩ := forall_mem_cons.mp hh
    by_cases hcalls : r.calls = []
    · have hwhole : r.BatchWhole := Or.inl (by simp [hcalls])
      obtain ⟨next, pieces, hrun, hnext, hpieces⟩ :=
        run_normalizedItems_of_no_calls codec hcalls hdraft
      obtain ⟨last, rest, hrest, hlegal⟩ := ih howed₂ hh₂ next hnext
      refine ⟨last, _, run_append_eq_ok.mpr ⟨_, _, _, hrun, hrest, rfl⟩,
        fun content reasoningContent => ?_⟩
      simp only [forall_mem_cons, hwhole, true_and]
      rcases hpieces with rfl | ⟨source, account, content', reasoningContent', rfl⟩
      · exact hlegal content reasoningContent
      · rw [← hlegal content' reasoningContent', singleton_append, foldr_cons,
          Piece.attach, legal_cons_of_no_calls rfl]
    · obtain rfl := hh₁ hcalls
      obtain ⟨pieces, hrun, hpieces⟩ := run_normalizedItems codec hcalls (hdraft rfl)
      obtain ⟨last, rest, hrest, hlegal⟩ := ih howed₂ hh₂ ⟨none, false⟩ (by simp)
      refine ⟨last, _, run_append_eq_ok.mpr ⟨_, _, _, hrun, hrest, rfl⟩,
        fun content reasoningContent => ?_⟩
      have hnone : (rest.foldr Piece.attach ([], [])).1 = [] := by
        rw [foldr_attach, assemble_run_fst hrest]
        rfl
      have hlater : Legal owes (rest.foldr Piece.attach ([], [])).2 ↔
          ∀ r ∈ responses, r.BatchWhole := by
        rw [← hlegal none none, hnone, legal_cons_of_no_calls rfl]
      have hfold : rest.foldr Piece.attach ([], []) = ([], (rest.foldr Piece.attach ([], [])).2) :=
        Prod.ext hnone rfl
      rw [foldr_append, hfold, forall_mem_cons, ← hlater]
      rw [hpieces]
      split_ifs with hjoin
      · exact legal_batch howed₁ (by simp [(reasoned_of_gathering hjoin.2).1]) _
      · rw [legal_cons_of_no_calls rfl]
        exact legal_batch howed₁ (pending_reasoned draft) _

variable (codec) in
theorem legal_segmentRun {responses : List ModelResponse}
    (howed : ∀ r ∈ responses, r.Accounted owes) :
    ∃ result, segmentRun codec id (responses.flatMap normalizedItems) = .ok result ∧
      (Legal owes (pieceMessages result.2) ↔ ∀ r ∈ responses, r.BatchWhole) := by
  have hh : ∀ r ∈ responses, r.calls ≠ [] →
      ((responses.flatMap normalizedItems).any fun item =>
        isSupportedChatToolCall (id item)) = true := by
    intro r hr hcalls
    obtain ⟨call, hcall⟩ := exists_mem_of_ne_nil _ hcalls
    exact any_eq_true.mpr ⟨call.item,
      mem_flatMap.mpr ⟨r, hr, item_mem_normalizedItems hcall⟩, isSupported_item call⟩
  obtain ⟨last, pieces, hrun, hlegal⟩ := legal_run howed hh ⟨none, false⟩ (by simp)
  refine ⟨_, hrun, ?_⟩
  rw [← hlegal none none, foldr_attach, assemble_run_fst hrun, legal_cons_of_no_calls rfl]
  rfl

variable (codec) in
/-- The messages of a history, of which the responses since the last user message have been
read. -/
theorem legal_tracedLoop {entries : List Entry} (hread : ∀ r ∈ responses, r.Accounted owes)
    (howed : ∀ r, .response r ∈ entries → r.Accounted owes) :
    ∃ traced, tracedLoop codec id (responses.flatMap normalizedItems)
        (entries.flatMap Entry.normalizedItems) = .ok traced ∧
      (Legal owes (traced.map (·.message)) ↔
        (∀ r ∈ responses, r.BatchWhole) ∧ ∀ r, .response r ∈ entries → r.BatchWhole) := by
  induction entries generalizing responses with
  | nil =>
    obtain ⟨result, hrun, hlegal⟩ := legal_segmentRun codec hread
    refine ⟨(assemble result.2).2, ?_, by simpa [pieceMessages] using hlegal⟩
    rw [flatMap_nil, tracedLoop, hrun]
    rfl
  | cons entry entries ih =>
    have hentries := fun r hr => howed r (mem_cons_of_mem entry hr)
    cases entry with
    | user message =>
      obtain ⟨result, hrun, hlegal⟩ := legal_segmentRun codec hread
      obtain ⟨later, hlater, hrest⟩ := ih (forall_mem_nil _) hentries
      have huser : chatMessageFromContent "user" message.content none =
          .ok (.user message.text) := by
        rw [chatMessageFromContent, message.text_eq]
        rfl
      refine ⟨(assemble result.2).2 ++ ⟨.user message.text, [message.item "user"], none⟩ :: later,
        ?_, ?_⟩
      · change (segmentRun codec id _).bind _ = _
        rw [hrun, huser]
        exact congrArg (Except.map _) hlater
      · rw [map_append, map_cons, legal_append _ rfl, legal_cons_of_no_calls rfl, hrest]
        simpa [pieceMessages] using and_congr_left' hlegal
    | response r =>
      have hboth : ∀ q ∈ responses ++ [r], q.Accounted owes := forall_mem_append.mpr
        ⟨hread, forall_mem_singleton.mpr (howed r mem_cons_self)⟩
      obtain ⟨traced, htraced, hlegal⟩ := ih hboth hentries
      rw [flatMap_append, flatMap_singleton] at htraced
      refine ⟨traced, (tracedLoop_segment _ _ (userContent_normalizedItems r)).trans htraced,
        hlegal.trans ?_⟩
      rw [forall_mem_append, and_assoc]
      simp

end Histories

theorem accounted_of_mem {entries : List Entry} (hfresh : (entries.flatMap Entry.callIds).Nodup)
    {r : ModelResponse} (hr : .response r ∈ entries) : r.Accounted (owedReasoning entries) := by
  obtain ⟨hnodup, hdisjoint⟩ := nodup_flatMap.mp hfresh
  refine ⟨hnodup _ hr, fun callId hid text => ⟨?_, fun h => ⟨r, hr, h, hid⟩⟩⟩
  rintro ⟨other, hother, hreasoning, hid'⟩
  have hsame : Entry.response other = .response r := by
    by_contra hne
    have : Std.Symm (Function.onFun List.Disjoint Entry.callIds) :=
      ⟨fun _ _ h _ hx hy => h hy hx⟩
    exact hdisjoint.forall hother hr hne hid' hid
  rwa [← Entry.response.inj hsame]

/-- The messages for a history with aborted batches are legal if every batch is whole. -/
theorem aborted_batches_legal_iff (codec : JsonCodec) (entries : List Entry)
    (hfresh : (entries.flatMap Entry.callIds).Nodup) :
    ∃ messages, chatMessagesFromItems codec (normalizeHistory (historyItems entries)) =
        .ok messages ∧
      ((Answered messages ∧ CarriesReasoning entries messages) ↔
        ∀ r, .response r ∈ entries → r.BatchWhole) := by
  obtain ⟨traced, htraced, hlegal⟩ := legal_tracedLoop codec (forall_mem_nil _)
    fun r hr => accounted_of_mem hfresh hr
  refine ⟨traced.map (·.message), ?_, ?_⟩
  · have hmessages := @chatMessagesFromItems_eq codec _ id (entries.flatMap Entry.normalizedItems)
    rw [map_id] at hmessages
    rw [normalizeHistory_historyItems hfresh, hmessages]
    exact congrArg (Except.map _) htraced
  · rw [← legal_iff, hlegal]
    simp

def threeCallTurn (outputs : List RecordedOutput) (h : outputs.length ≤ 3) : List Entry :=
  [.user ⟨none, [.inputText "go"], none, "go", rfl⟩,
    .response ⟨some ⟨"rs-1", [], [.text "think"], none, cons_ne_nil _ _⟩, none,
      [.function none "lookup" none "x" "call-1", .applyPatch none none "call-2" "patch",
        .function none "lookup" none "y" "call-3"], outputs, h⟩]

theorem one_call_aborted_legal :
    ((threeCallTurn [⟨none, "1", none⟩, ⟨none, "2", none⟩] (by decide)).flatMap
        Entry.callIds).Nodup ∧
      ∃ messages, chatMessagesFromItems OneFieldJson.codec (normalizeHistory (historyItems
          (threeCallTurn [⟨none, "1", none⟩, ⟨none, "2", none⟩] (by decide)))) = .ok messages ∧
        Answered messages ∧ CarriesReasoning
          (threeCallTurn [⟨none, "1", none⟩, ⟨none, "2", none⟩] (by decide)) messages := by
  have hfresh : ((threeCallTurn [⟨none, "1", none⟩, ⟨none, "2", none⟩] (by decide)).flatMap
      Entry.callIds).Nodup := by decide
  obtain ⟨messages, hmessages, hlegal⟩ := aborted_batches_legal_iff OneFieldJson.codec
    (threeCallTurn [⟨none, "1", none⟩, ⟨none, "2", none⟩] (by decide)) hfresh
  refine ⟨hfresh, messages, hmessages, hlegal.mpr fun r hr => ?_⟩
  simp only [threeCallTurn, mem_cons, reduceCtorEq, Entry.response.injEq, not_mem_nil,
    or_false, false_or] at hr
  subst hr
  exact Or.inl (by decide)

/-- With two calls aborted, the first message is answered too late and the second has no
reasoning. -/
theorem two_calls_aborted_illegal :
    ((threeCallTurn [⟨none, "1", none⟩] (by decide)).flatMap Entry.callIds).Nodup ∧
      ∃ messages, chatMessagesFromItems OneFieldJson.codec (normalizeHistory (historyItems
          (threeCallTurn [⟨none, "1", none⟩] (by decide)))) = .ok messages ∧
        ¬Answered messages ∧
        ¬CarriesReasoning (threeCallTurn [⟨none, "1", none⟩] (by decide)) messages := by
  refine ⟨by decide, [.user "go", .assistant none (some "think") (some
    [⟨"call-1", "lookup", "x"⟩, ⟨"call-2", "apply_patch",
      applyPatchChatArguments OneFieldJson.codec "patch"⟩]), .tool "aborted" "call-2",
    .assistant none none (some [⟨"call-3", "lookup", "y"⟩]), .tool "aborted" "call-3",
    .tool "1" "call-1"], by decide +kernel, ?_, ?_⟩
  · simp [Answered, callIdsOf, leadingToolIds]
  · intro hcarries
    have hreasoning := hcarries _ (mem_cons_of_mem _ mem_cons_self) _ rfl
      (.assistant none none (some [⟨"call-3", "lookup", "y"⟩])) (by decide) "call-3" (by decide)
      (by decide)
    cases hreasoning

end DeepseekX.ToolBatches
