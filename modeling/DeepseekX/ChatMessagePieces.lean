import DeepseekX.ChatMessages
import DeepseekX.Transducers
import Mathlib.Data.List.DropRight

/-!
# Chat messages item by item

The loop of the adapter looks ahead for tool calls. The same messages result from a
transducer that consumes one item at a time and emits pieces: the beginning of a
message, or a tool call for the message before it. The pieces remember the item they
come from and the reasoning item on whose account a message has its reasoning.
-/

namespace DeepseekX.ChatMessages
open ResponseItems Transducers
open List hiding map_map

/-- The pending reasoning, and whether the last item takes further tool calls. -/
structure Draft (α : Type*) where
  pending : Option (α × String)
  gathering : Bool

inductive Piece (α : Type*) where
  | message (source : α) (account : Option α) (message : ChatMessage)
  | call (source : α) (toolCall : ChatToolCall)

/-- A message with the items it comes from, and the reasoning item it has its reasoning from. -/
structure TracedMessage (α : Type*) where
  message : ChatMessage
  sources : List α
  account : Option α

def ChatMessage.withToolCalls (toolCalls : List ChatToolCall) : ChatMessage → ChatMessage
  | .assistant content reasoningContent none =>
    .assistant content reasoningContent (if toolCalls = [] then none else some toolCalls)
  | message => message

@[simp] theorem ChatMessage.withToolCalls_nil (message : ChatMessage) :
    message.withToolCalls [] = message := by
  rcases message with _ | _ | ⟨content, reasoningContent, _ | toolCalls⟩ | _ <;> rfl

/-- The tool calls that belong to a message before the pieces, and the messages of the pieces. -/
def assemble {α : Type*} : List (Piece α) → List (α × ChatToolCall) × List (TracedMessage α)
  | [] => ([], [])
  | .call source toolCall :: pieces =>
    ((source, toolCall) :: (assemble pieces).1, (assemble pieces).2)
  | .message source account message :: pieces =>
    ([], ⟨message.withToolCalls ((assemble pieces).1.map (·.2)),
      source :: (assemble pieces).1.map (·.1), account⟩ :: (assemble pieces).2)

def isAssistantMessage : ResponseItem → Bool
  | .message _ role _ _ => role = "assistant"
  | _ => false

def ChatMessage.isAssistant : ChatMessage → Bool
  | .assistant .. => true
  | _ => false

theorem isAssistant_of_chatMessageFromContent {role : String} {content : List ContentItem}
    {message : ChatMessage} (hrole : role ≠ "assistant")
    (h : chatMessageFromContent role content none = .ok message) :
    message.isAssistant = false := by
  obtain ⟨text, -, h⟩ := bind_eq_ok.mp h
  split_ifs at h
  · obtain rfl := Except.ok.inj h
    rfl
  · obtain rfl := Except.ok.inj h
    rfl

section Step
variable (codec : JsonCodec) {α : Type*} (view : α → ResponseItem) (hasToolCall : Bool)

def step (draft : Draft α) (source : α) : Except CodexErr (Draft α × List (Piece α)) :=
  match view source with
  | .reasoning _ _ content _ =>
    .ok (⟨(reasoningContentText content).map (source, ·), false⟩, [])
  | .message _ role content _ =>
    if role = "assistant" then
      (contentText content).map fun text =>
        let taken := if hasToolCall then draft.pending else none
        (⟨if hasToolCall then none else draft.pending, true⟩,
          [.message source (taken.map (·.1)) (.assistant (some text) (taken.map (·.2)) none)])
    else
      (chatMessageFromContent role content none).map fun message =>
        (⟨none, false⟩, [.message source none message])
  | .functionCall .. | .customToolCall .. =>
    (chatToolCallFromItem codec (view source)).map fun toolCall =>
      if draft.gathering then (draft, (toolCall.map (Piece.call source)).toList)
      else (⟨none, true⟩,
        .message source (draft.pending.map (·.1))
            (.assistant none (draft.pending.map (·.2)) none) ::
          (toolCall.map (Piece.call source)).toList)
  | .functionCallOutput callId output | .customToolCallOutput callId _ output =>
    (functionOutputText output).map fun text =>
      (⟨draft.pending, false⟩, [.message source none (.tool text callId)])
  | .localShellCall _ | .toolSearchCall _ | .toolSearchOutput .. | .webSearchCall
  | .imageGenerationCall => .error (unsupportedItem (view source))
  | .compaction | .contextCompaction | .other => .ok (⟨draft.pending, false⟩, [])

/-- The reasoning that is pending after an item that does not take it. -/
def nextPending (source : α) (pending : Option (α × String)) : Option (α × String) :=
  match view source with
  | .reasoning _ _ content _ => (reasoningContentText content).map (source, ·)
  | .message .. => none
  | _ => pending

variable {codec view} {source : α} {hasToolCall : Bool} {draft : Draft α}
  {r : Draft α × List (Piece α)}

/-- Items other than assistant messages and tool calls do the same in every segment. -/
theorem step_plain (hcall : isSupportedChatToolCall (view source) = false)
    (hassistant : isAssistantMessage (view source) = false) :
    step codec view hasToolCall draft source = .ok r →
      ∃ message : Option ChatMessage, (∀ m ∈ message, m.isAssistant = false) ∧
        ∀ h draft, step codec view h draft source =
          .ok (⟨nextPending view source draft.pending, false⟩,
            (message.map (Piece.message source none)).toList) := by
  unfold step nextPending
  cases hv : view source with
  | message id role content phase =>
    have hrole : role ≠ "assistant" := by simpa [hv, isAssistantMessage] using hassistant
    simp only [if_neg hrole]
    cases hm : chatMessageFromContent role content none with
    | error e => exact nofun
    | ok message =>
      refine fun _ => ⟨some message, fun m hm' => ?_, fun h draft => rfl⟩
      rw [← Option.some.inj hm']
      exact isAssistant_of_chatMessageFromContent hrole hm
  | reasoning id summary content encrypted =>
    exact fun _ => ⟨none, by simp, fun h draft => rfl⟩
  | functionCall id name callNamespace arguments callId =>
    simp [hv, isSupportedChatToolCall] at hcall
  | customToolCall id status callId name input =>
    have hname : name ≠ applyPatchToolName := by simpa [hv, isSupportedChatToolCall] using hcall
    simp only [chatToolCallFromItem, if_neg hname]
    exact nofun
  | functionCallOutput callId output | customToolCallOutput callId name output =>
    dsimp only
    cases functionOutputText output with
    | error e => exact nofun
    | ok text => exact fun _ => ⟨some (.tool text callId), by simp [ChatMessage.isAssistant],
        fun h draft => rfl⟩
  | compaction | contextCompaction | other => exact fun _ => ⟨none, by simp, fun h draft => rfl⟩
  | _ => exact nofun

theorem step_assistant (hassistant : isAssistantMessage (view source) = true) :
    step codec view hasToolCall draft source = .ok r →
      ∃ text, ∀ h draft, step codec view h draft source =
        .ok (⟨if h then none else draft.pending, true⟩,
          [.message source ((if h then draft.pending else none).map (·.1))
            (.assistant (some text) ((if h then draft.pending else none).map (·.2)) none)]) := by
  unfold step
  cases hv : view source with
  | message id role content phase =>
    have hrole : role = "assistant" := by simpa [hv, isAssistantMessage] using hassistant
    simp only [if_pos hrole]
    cases contentText content with
    | error e => exact nofun
    | ok text => exact fun _ => ⟨text, fun h draft => rfl⟩
  | _ => simp [hv, isAssistantMessage] at hassistant

end Step

section Refinement
variable {codec : JsonCodec} {α : Type*} {view : α → ResponseItem} {hasToolCall : Bool}

theorem run_cons_eq_bind (draft : Draft α) (source : α) (sources : List α) :
    run (step codec view hasToolCall) draft (source :: sources) =
      (step codec view hasToolCall draft source).bind fun r =>
        (run (step codec view hasToolCall) r.1 sources).map fun q => (q.1, r.2 ++ q.2) := by
  rw [run]
  rcases step codec view hasToolCall draft source with e | ⟨t, out⟩
  · rfl
  · rcases hr : run (step codec view hasToolCall) t sources with e | ⟨u, rest⟩ <;>
      simp [hr]

def Piece.attach : Piece α → List ChatToolCall × List ChatMessage →
    List ChatToolCall × List ChatMessage
  | .call _ toolCall, (toolCalls, messages) => (toolCall :: toolCalls, messages)
  | .message _ _ m, (toolCalls, messages) => ([], m.withToolCalls toolCalls :: messages)

theorem foldr_attach (pieces : List (Piece α)) :
    pieces.foldr Piece.attach ([], []) =
      ((assemble pieces).1.map (·.2), (assemble pieces).2.map (·.message)) := by
  induction pieces with
  | nil => rfl
  | cons piece pieces ih => cases piece <;> simp [ih, Piece.attach, assemble]

/-- The loop for a draft: tool calls are passed to the message before if it takes them. -/
def gatherLoop (codec : JsonCodec) (hasToolCall gathering : Bool) (pending : Option String)
    (items : List ResponseItem) : Except CodexErr (List ChatToolCall × List ChatMessage) :=
  (if gathering then leadingToolCalls codec items else .ok []).bind fun toolCalls =>
    (segmentLoop codec hasToolCall toolCalls.length pending items).map (toolCalls, ·)

section Loop
variable (pending : Option String) (items : List ResponseItem) {item : ResponseItem}

@[simp] theorem gatherLoop_false : gatherLoop codec hasToolCall false pending items =
    (segmentLoop codec hasToolCall 0 pending items).map ([], ·) := rfl

theorem gatherLoop_of_not_call (gathering : Bool)
    (h : chatToolCallFromItem codec item = .ok none) :
    gatherLoop codec hasToolCall gathering pending (item :: items) =
      (segmentLoop codec hasToolCall 0 pending (item :: items)).map ([], ·) := by
  cases gathering with
  | false => rfl
  | true => simp [gatherLoop, leadingToolCalls, h]

variable {toolCall : ChatToolCall}

theorem gatherLoop_of_call (h : chatToolCallFromItem codec item = .ok (some toolCall)) :
    gatherLoop codec hasToolCall true pending (item :: items) =
      (gatherLoop codec hasToolCall true pending items).map
        fun (toolCalls, messages) => (toolCall :: toolCalls, messages) := by
  simp only [gatherLoop, leadingToolCalls, h, ok_bind, if_true, map_bind, bind_map, map_map,
    length_cons, segmentLoop]

theorem segmentLoop_assistant (id : Option String) (content : List ContentItem)
    (phase : Option MessagePhase) :
    segmentLoop codec hasToolCall 0 pending (.message id "assistant" content phase :: items) =
      (contentText content).bind fun text =>
        (gatherLoop codec hasToolCall true (if hasToolCall then none else pending) items).map
          fun (toolCalls, messages) =>
            .assistant (some text) (if hasToolCall then pending else none)
              (if toolCalls = [] then none else some toolCalls) :: messages := by
  simp only [segmentLoop, collectToolCalls, gatherLoop, if_true, map_bind, bind_map, map_map]

theorem segmentLoop_call (h : chatToolCallFromItem codec item = .ok (some toolCall)) :
    segmentLoop codec hasToolCall 0 pending (item :: items) =
      (gatherLoop codec hasToolCall true none items).map fun (toolCalls, messages) =>
        .assistant none pending (some (toolCall :: toolCalls)) :: messages := by
  have hloop : segmentLoop codec hasToolCall 0 pending (item :: items) =
      (collectToolCalls codec (item :: items)).bind fun collected =>
        (segmentLoop codec hasToolCall (collected.2 - 1) none items).map
          (.assistant none pending collected.1 :: ·) := by
    cases item with
    | functionCall | customToolCall => rw [segmentLoop]
    | _ => cases h
  rw [hloop]
  simp [collectToolCalls, leadingToolCalls, h, gatherLoop, map_bind, bind_map, map_map]

end Loop

variable {item : ResponseItem} {toolCall : ChatToolCall} {draft : Draft α}
  {segment xs ys sources : List α} {user : α} {content : List ContentItem}
  {first later : List (Piece α)}

theorem chatToolCallFromItem_of_supported (codec : JsonCodec)
    (h : isSupportedChatToolCall item = true) :
    ∃ toolCall, chatToolCallFromItem codec item = .ok (some toolCall) := by
  cases item with
  | functionCall id name callNamespace arguments callId => exact ⟨_, rfl⟩
  | customToolCall id status callId name input =>
    have hname : name = applyPatchToolName := by simpa [isSupportedChatToolCall] using h
    exact ⟨_, by rw [chatToolCallFromItem, if_pos hname]⟩
  | _ => simp [isSupportedChatToolCall] at h

theorem step_call {source : α}
    (h : chatToolCallFromItem codec (view source) = .ok (some toolCall)) :
    step codec view hasToolCall draft source = .ok (if draft.gathering then
        (draft, [.call source toolCall])
      else (⟨none, true⟩, [.message source (draft.pending.map (·.1))
        (.assistant none (draft.pending.map (·.2)) none), .call source toolCall])) := by
  unfold step
  cases hv : view source with
  | functionCall | customToolCall =>
    rw [hv] at h
    simp [h]
  | _ =>
    rw [hv] at h
    cases h

theorem gatherLoop_cons (draft : Draft α) (source : α) (items : List ResponseItem) :
    gatherLoop codec hasToolCall draft.gathering (draft.pending.map (·.2)) (view source :: items) =
      (step codec view hasToolCall draft source).bind fun r =>
        (gatherLoop codec hasToolCall r.1.gathering (r.1.pending.map (·.2)) items).map
          (r.2.foldr Piece.attach) := by
  by_cases hcall : ∃ toolCall, chatToolCallFromItem codec (view source) = .ok (some toolCall)
  · -- the call goes to the message before it if that takes tool calls, and starts one if not
    obtain ⟨toolCall, h⟩ := hcall
    rw [step_call h]
    rcases draft with ⟨pending, _ | _⟩
    · rw [gatherLoop_false, segmentLoop_call _ _ h]
      simp [map_map, Piece.attach, ChatMessage.withToolCalls]
    · rw [gatherLoop_of_call _ _ h]
      simp [Piece.attach]
  cases hv : view source with
  | message id role content phase =>
    rw [gatherLoop_of_not_call _ _ _ rfl]
    by_cases hr : role = "assistant"
    · subst hr
      rw [segmentLoop_assistant, bind_map]
      simp only [step, hv, if_true, map_bind, map_map]
      cases hasToolCall <;> rfl
    · rw [segmentLoop, if_neg hr, bind_map]
      simp [step, hv, if_neg hr, map_bind, map_map, Piece.attach]
  | reasoning id summary content encrypted =>
    rw [gatherLoop_of_not_call _ _ _ rfl, segmentLoop]
    simp [step, hv, Function.comp_def]
  | functionCall => exact absurd ⟨_, by rw [hv]; rfl⟩ hcall
  | customToolCall id status callId name input =>
    have hn : name ≠ applyPatchToolName := fun hn =>
      hcall ⟨_, by rw [hv, chatToolCallFromItem, if_pos hn]⟩
    cases hg : draft.gathering <;>
      simp [step, hv, segmentLoop, gatherLoop, collectToolCalls, leadingToolCalls,
        chatToolCallFromItem, hn]
  | functionCallOutput | customToolCallOutput =>
    rw [gatherLoop_of_not_call _ _ _ rfl, segmentLoop]
    simp [step, hv, bind_map, map_bind, map_map, Piece.attach]
  | compaction | contextCompaction | other =>
    rw [gatherLoop_of_not_call _ _ _ rfl, segmentLoop]
    simp [step, hv]
  | _ =>
    rw [gatherLoop_of_not_call _ _ _ rfl]
    simp only [step, hv]
    rfl

variable (codec view hasToolCall) in
theorem gatherLoop_eq_run (draft : Draft α) (sources : List α) :
    gatherLoop codec hasToolCall draft.gathering (draft.pending.map (·.2)) (sources.map view) =
      (run (step codec view hasToolCall) draft sources).map
        fun r => r.2.foldr Piece.attach ([], []) := by
  induction sources generalizing draft with
  | nil => cases draft.gathering <;> rfl
  | cons source sources ih =>
    rw [map_cons, run_cons_eq_bind, gatherLoop_cons, bind_map]
    simp only [ih, map_map, foldr_append]

def segmentRun (codec : JsonCodec) (view : α → ResponseItem) (segment : List α) :
    Except CodexErr (Draft α × List (Piece α)) :=
  run (step codec view (segment.any fun source => isSupportedChatToolCall (view source)))
    ⟨none, false⟩ segment

def pieceMessages (pieces : List (Piece α)) : List ChatMessage :=
  (assemble pieces).2.map (·.message)

theorem appendChatMessagesFromSegment_eq (segment : List α) (messages : List ChatMessage) :
    appendChatMessagesFromSegment codec (segment.map view) messages =
      (segmentRun codec view segment).map fun r => messages ++ pieceMessages r.2 := by
  have hloop : segmentLoop codec (segment.any fun source => isSupportedChatToolCall (view source))
      0 none (segment.map view) = (segmentRun codec view segment).map fun r =>
        pieceMessages r.2 := by
    have hrun := congrArg (Except.map Prod.snd) (gatherLoop_eq_run codec view
      (segment.any fun source => isSupportedChatToolCall (view source)) ⟨none, false⟩ segment)
    simpa [map_map, foldr_attach, segmentRun, pieceMessages] using hrun
  rw [appendChatMessagesFromSegment, any_map]
  exact (congrArg (Except.map (messages ++ ·)) hloop).trans (map_map _ _ _)

/-- The messages of the history with the items they come from: the loop over the history with
the transducer for the segments. -/
def tracedLoop (codec : JsonCodec) (view : α → ResponseItem) (segment : List α) :
    List α → Except CodexErr (List (TracedMessage α))
  | [] => (segmentRun codec view segment).map fun r => (assemble r.2).2
  | source :: sources =>
    match userContent (view source) with
    | some content =>
      (segmentRun codec view segment).bind fun r =>
        (chatMessageFromContent "user" content none).bind fun message =>
          (tracedLoop codec view [] sources).map fun later =>
            (assemble r.2).2 ++ ⟨message, [source], none⟩ :: later
    | none => tracedLoop codec view (segment ++ [source]) sources

def tracedMessages (codec : JsonCodec) (view : α → ResponseItem) (sources : List α) :
    Except CodexErr (List (TracedMessage α)) :=
  tracedLoop codec view [] sources

theorem messagesLoop_eq_tracedLoop (segment : List α) (messages : List ChatMessage)
    (sources : List α) : messagesLoop codec (segment.map view) messages (sources.map view) =
      (tracedLoop codec view segment sources).map fun traced =>
        messages ++ traced.map (·.message) := by
  induction sources generalizing segment messages with
  | nil =>
    rw [map_nil, messagesLoop, appendChatMessagesFromSegment_eq, tracedLoop, map_map]
    rfl
  | cons source sources ih =>
    rw [map_cons, messagesLoop, tracedLoop]
    cases userContent (view source) with
    | none => simpa using ih (segment ++ [source]) messages
    | some content =>
      have hlater : ∀ before, messagesLoop codec [] before (sources.map view) =
          (tracedLoop codec view [] sources).map fun traced =>
            before ++ traced.map (·.message) := ih []
      simp only [appendChatMessagesFromSegment_eq, map_bind, bind_map, map_map, hlater]
      simp [pieceMessages]

/-- Forgetting where the messages come from gives the messages of the adapter. -/
theorem chatMessagesFromItems_eq (sources : List α) :
    chatMessagesFromItems codec (sources.map view) =
      (tracedMessages codec view sources).map fun traced => traced.map (·.message) := by
  exact messagesLoop_eq_tracedLoop [] [] sources

/-- A user message ends a segment: the messages before and after it do not depend on each
other. -/
theorem tracedLoop_append_user (hu : userContent (view user) = some content) :
    tracedLoop codec view segment (xs ++ user :: ys) =
      (tracedLoop codec view segment xs).bind fun before =>
        (chatMessageFromContent "user" content none).bind fun message =>
          (tracedMessages codec view ys).map fun later =>
            before ++ ⟨message, [user], none⟩ :: later := by
  induction xs generalizing segment with
  | nil =>
    rw [nil_append, tracedLoop, tracedLoop]
    simp only [hu, map_bind]
    rfl
  | cons source xs ih =>
    rw [cons_append, tracedLoop, tracedLoop]
    cases userContent (view source) with
    | none => exact ih
    | some content' =>
      simp [ih, bind_bind, map_bind, bind_map, map_map]

theorem tracedLoop_segment (segment : List α) (xs : List α)
    (h : ∀ source ∈ ys, userContent (view source) = none) :
    tracedLoop codec view segment (ys ++ xs) = tracedLoop codec view (segment ++ ys) xs := by
  induction ys generalizing segment with
  | nil => simp
  | cons source ys ih =>
    have hys := ih (segment ++ [source]) (forall_mem_cons.mp h).2
    rw [cons_append, tracedLoop, h source mem_cons_self]
    exact hys.trans (by rw [append_assoc]; rfl)

theorem tracedMessages_segment (h : ∀ source ∈ segment, userContent (view source) = none) :
    tracedMessages codec view segment =
      (segmentRun codec view segment).map fun r => (assemble r.2).2 := by
  have hloop : tracedLoop codec view [] (segment ++ []) =
      tracedLoop codec view ([] ++ segment) [] :=
    tracedLoop_segment [] [] h
  rw [append_nil] at hloop
  exact hloop

section Segments
variable (view : α → ResponseItem) (sources : List α)

def isUserMessage (item : ResponseItem) : Bool := (userContent item).isSome

def lastSegment : List α := sources.rtakeWhile fun source => !isUserMessage (view source)

def firstSegment : List α := sources.takeWhile fun source => !isUserMessage (view source)

theorem not_user_firstSegment :
    ∀ source ∈ firstSegment view sources, userContent (view source) = none := by
  intro source hsource
  have h := mem_takeWhile_imp hsource
  simpa [isUserMessage] using h

theorem not_user_lastSegment :
    ∀ source ∈ lastSegment view sources, userContent (view source) = none :=
  fun source hsource => not_user_firstSegment view _ source (mem_reverse.mp hsource)

theorem eq_firstSegment : firstSegment view sources = sources ∨
    ∃ user after content, sources = firstSegment view sources ++ user :: after ∧
      userContent (view user) = some content := by
  have hsplit : firstSegment view sources ++
      sources.dropWhile (fun source => !isUserMessage (view source)) = sources :=
    takeWhile_append_dropWhile
  cases hdrop : sources.dropWhile (fun source => !isUserMessage (view source)) with
  | nil =>
    left
    rw [hdrop, append_nil] at hsplit
    exact hsplit
  | cons user after =>
    right
    have hhead := head?_dropWhile_not (fun source => !isUserMessage (view source)) sources
    rw [hdrop] at hhead
    obtain ⟨content, hcontent⟩ := Option.isSome_iff_exists.mp (by simpa [isUserMessage] using hhead)
    rw [hdrop] at hsplit
    exact ⟨user, after, content, hsplit.symm, hcontent⟩

/-- The items are those up to the last user message, if there is one, and the last segment. -/
theorem eq_lastSegment : lastSegment view sources = sources ∨
    ∃ before user content, sources = before ++ user :: lastSegment view sources ∧
      userContent (view user) = some content := by
  rcases eq_firstSegment view sources.reverse with hall | ⟨user, before, content, hsplit, hcontent⟩
  · exact .inl ((congrArg reverse hall).trans sources.reverse_reverse)
  · refine .inr ⟨before.reverse, user, content, ?_, hcontent⟩
    have hreverse := congrArg reverse hsplit
    rwa [reverse_reverse, reverse_append, reverse_cons, append_assoc] at hreverse

end Segments

theorem traced_of_chatMessagesFromItems (view : α → ResponseItem) {messages : List ChatMessage}
    (h : chatMessagesFromItems codec (sources.map view) = .ok messages) :
    ∃ traced, tracedMessages codec view sources = .ok traced ∧
      messages = traced.map (·.message) := by
  rw [chatMessagesFromItems_eq] at h
  obtain ⟨traced, htraced, rfl⟩ := map_eq_ok.mp h
  exact ⟨traced, htraced, rfl⟩

theorem traced_of_append_user (hu : userContent (view user) = some content)
    {all : List (TracedMessage α)} (h : tracedMessages codec view (xs ++ user :: ys) = .ok all) :
    ∃ before message later, tracedMessages codec view xs = .ok before ∧
      chatMessageFromContent "user" content none = .ok message ∧
      tracedMessages codec view ys = .ok later ∧
      all = before ++ ⟨message, [user], none⟩ :: later := by
  rw [tracedMessages, tracedLoop_append_user hu] at h
  obtain ⟨before, hbefore, h⟩ := bind_eq_ok.mp h
  obtain ⟨message, hmessage, h⟩ := bind_eq_ok.mp h
  obtain ⟨later, hlater, rfl⟩ := map_eq_ok.mp h
  exact ⟨before, message, later, hbefore, hmessage, hlater, rfl⟩

theorem segmentRun_of_tracedMessages {traced : List (TracedMessage α)}
    (huser : ∀ source ∈ segment, userContent (view source) = none)
    (h : tracedMessages codec view segment = .ok traced) :
    ∃ r, segmentRun codec view segment = .ok r ∧ traced = (assemble r.2).2 := by
  rw [tracedMessages_segment huser] at h
  obtain ⟨r, hr, rfl⟩ := map_eq_ok.mp h
  exact ⟨r, hr, rfl⟩

theorem assemble_append (h : (assemble later).1 = []) :
    assemble (first ++ later) = ((assemble first).1, (assemble first).2 ++ (assemble later).2) := by
  induction first with
  | nil => exact Prod.ext h rfl
  | cons piece first ih => cases piece <;> simp [assemble, ih]

theorem pieceMessages_append (h : (assemble later).1 = []) :
    pieceMessages (first ++ later) = pieceMessages first ++ pieceMessages later := by
  rw [pieceMessages, assemble_append h, map_append]
  rfl

theorem assemble_run_fst {pending : Option (α × String)} {pieces : List (Piece α)}
    (h : run (step codec view hasToolCall) ⟨pending, false⟩ sources = .ok (draft, pieces)) :
    (assemble pieces).1 = [] := by
  have hrun := gatherLoop_eq_run codec view hasToolCall ⟨pending, false⟩ sources
  rw [h, gatherLoop_false, ok_map, foldr_attach] at hrun
  cases hs : segmentLoop codec hasToolCall 0 (pending.map (·.2)) (sources.map view) with
  | error e => simp [hs] at hrun
  | ok messages =>
    simp only [hs, ok_map, Except.ok.injEq, Prod.mk.injEq] at hrun
    exact map_eq_nil_iff.mp hrun.1.symm

end Refinement
end DeepseekX.ChatMessages
