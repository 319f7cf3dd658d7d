import DeepseekX.ChatMessagePieces
import DeepseekX.OneFieldJson

/-!
# Stable prefixes of the messages

A server caches the messages it has seen, so that appending to the history should only
append messages. The messages of a segment depend on whether it contains a tool call:
a tool call that is appended to a segment without any gives their reasoning back to the
assistant messages before it, which have been sent without.
-/

namespace DeepseekX.ChatMessages
open ResponseItems Transducers List

def hasToolCall (segment : List ResponseItem) : Bool := segment.any isSupportedChatToolCall

/-- Some assistant message would take reasoning that is pending. -/
def bindsReasoning (pending : Bool) : List ResponseItem → Bool
  | [] => false
  | .reasoning _ _ content _ :: items =>
    bindsReasoning (reasoningContentText content).isSome items
  | .message _ role _ _ :: items =>
    if role = "assistant" then pending || bindsReasoning pending items
    else bindsReasoning false items
  | _ :: items => bindsReasoning pending items

/-- Appending turns a segment without tool calls, but with reasoning for an assistant message,
into one with tool calls. -/
def RevivesReasoning (xs ys : List ResponseItem) : Prop :=
  hasToolCall (lastSegment id xs) = false ∧ hasToolCall (firstSegment id ys) = true ∧
    bindsReasoning false (lastSegment id xs) = true

instance (xs ys : List ResponseItem) : Decidable (RevivesReasoning xs ys) :=
  inferInstanceAs (Decidable (_ ∧ _))

/-- The last item takes no further tool calls. -/
def Settled (items : List ResponseItem) : Prop :=
  ∀ item ∈ items.getLast?, isSupportedChatToolCall item = false ∧ isAssistantMessage item = false

instance (items : List ResponseItem) : Decidable (Settled items) :=
  inferInstanceAs (Decidable (∀ item ∈ items.getLast?, _))

variable {item : ResponseItem}

theorem bindsReasoning_plain (h : isAssistantMessage item = false)
    (pending : Option (ResponseItem × String)) (items : List ResponseItem) :
    bindsReasoning pending.isSome (item :: items) =
      bindsReasoning (nextPending id item pending).isSome items := by
  cases item with
  | message id role content phase =>
    have hrole : role ≠ "assistant" := by simpa [isAssistantMessage] using h
    simp [bindsReasoning, nextPending, hrole]
  | reasoning id summary content encrypted => simp [bindsReasoning, nextPending]
  | _ => rfl

theorem bindsReasoning_assistant (h : isAssistantMessage item = true) (pending : Bool)
    (items : List ResponseItem) :
    bindsReasoning pending (item :: items) = (pending || bindsReasoning pending items) := by
  cases item with
  | message id role content phase =>
    have hrole : role = "assistant" := by simpa [isAssistantMessage] using h
    simp [bindsReasoning, hrole]
  | _ => simp [isAssistantMessage] at h

section Compare
variable {codec : JsonCodec} {items : List ResponseItem}
variable {h : Bool} {draft draft' end₁ end₂ : Draft ResponseItem}
  {pieces first second : List (Piece ResponseItem)}

/-- Items without tool calls give as many messages whether there are tool calls later or not, and
the same ones unless one of them takes reasoning. -/
theorem compare_messages (hcalls : hasToolCall items = false)
    (hr : run (step codec id false) draft items = .ok (end₁, first))
    (hr' : run (step codec id true) draft' items = .ok (end₂, second)) :
    (assemble first).1 = [] ∧ (assemble second).1 = [] ∧
      (pieceMessages first).length = (pieceMessages second).length ∧
      (draft.pending = draft'.pending → (pieceMessages first = pieceMessages second ↔
        bindsReasoning draft.pending.isSome items = false)) := by
  induction items generalizing draft draft' first second with
  | nil =>
    simp only [run_nil, Except.ok.injEq, Prod.mk.injEq] at hr hr'
    rw [← hr.2, ← hr'.2]
    exact ⟨rfl, rfl, rfl, fun _ => by simp [bindsReasoning]⟩
  | cons item items ih =>
    simp only [hasToolCall, any_cons, Bool.or_eq_false_iff] at hcalls
    obtain ⟨next, start, rest, hs, hrest, rfl⟩ := run_cons_eq_ok.mp hr
    obtain ⟨next', start', rest', hs', hrest', rfl⟩ := run_cons_eq_ok.mp hr'
    obtain ⟨hfirst, hsecond, hlength, hiff⟩ := ih hcalls.2 hrest hrest'
    rw [assemble_append hfirst, assemble_append hsecond, pieceMessages_append hfirst,
      pieceMessages_append hsecond, length_append, length_append, hlength]
    cases hassistant : isAssistantMessage item with
    | true =>
      obtain ⟨text, hstep⟩ := step_assistant hassistant hs
      simp only [hstep] at hs hs'
      obtain ⟨rfl, rfl⟩ := hs
      obtain ⟨rfl, rfl⟩ := hs'
      refine ⟨rfl, rfl, rfl, fun hpending => ?_⟩
      rw [bindsReasoning_assistant hassistant]
      cases hp : draft.pending with
      | none =>
        simp only [← hpending, hp, ite_self] at hiff ⊢
        rw [append_cancel_left_eq, hiff trivial]
        simp
      | some reasoning => simp [← hpending, hp, pieceMessages, assemble]
    | false =>
      obtain ⟨message, -, hstep⟩ := step_plain hcalls.1 hassistant hs
      simp only [hstep] at hs hs'
      obtain ⟨rfl, rfl⟩ := hs
      obtain ⟨rfl, rfl⟩ := hs'
      refine ⟨by cases message <;> rfl, by cases message <;> rfl, rfl, fun hpending => ?_⟩
      rw [append_cancel_left_eq, hiff (by rw [hpending]), bindsReasoning_plain hassistant]

theorem gathering_of_settled (hsettled : Settled items)
    (hr : run (step codec id h) ⟨none, false⟩ items = .ok (draft, pieces)) :
    draft.gathering = false := by
  rcases eq_nil_or_concat' items with rfl | ⟨front, item, rfl⟩
  · simp only [run_nil, Except.ok.injEq, Prod.mk.injEq] at hr
    rw [← hr.1]
  · obtain ⟨hcall, hassistant⟩ := hsettled item (by simp)
    obtain ⟨middle, first, rest, -, hlast, -⟩ := run_append_eq_ok.mp hr
    obtain ⟨next, start, later, hs, hnil, -⟩ := run_cons_eq_ok.mp hlast
    simp only [run_nil, Except.ok.injEq, Prod.mk.injEq] at hnil
    obtain ⟨message, -, hstep⟩ := step_plain hcall hassistant hs
    simp only [hstep, Except.ok.injEq, Prod.mk.injEq] at hs
    rw [← hnil.1, ← hs.1]

theorem segment_prefix_iff {more : List ResponseItem} (hsettled : Settled items)
    {first second : Draft ResponseItem × List (Piece ResponseItem)}
    (hr : segmentRun codec id items = .ok first)
    (hr' : segmentRun codec id (items ++ more) = .ok second) (rest : List ChatMessage) :
    pieceMessages first.2 <+: pieceMessages second.2 ++ rest ↔
      ¬ (hasToolCall items = false ∧ hasToolCall more = true ∧
        bindsReasoning false items = true) := by
  have hany : (items ++ more).any (fun item => isSupportedChatToolCall (id item)) =
      (hasToolCall items || hasToolCall more) := by
    simp [hasToolCall]
  rw [segmentRun, hany] at hr'
  obtain ⟨middle, start, later, hstart, hlater, hsecond⟩ := run_append_eq_ok.mp hr'
  have hmessages : pieceMessages second.2 = pieceMessages start ++ pieceMessages later := by
    obtain ⟨pending, gathering⟩ := middle
    obtain rfl : gathering = false := gathering_of_settled hsettled hstart
    rw [hsecond, pieceMessages_append (assemble_run_fst hlater)]
  rw [hmessages, append_assoc]
  by_cases hrevive : hasToolCall items = false ∧ hasToolCall more = true
  · rw [segmentRun] at hr
    have hfirst : (items.any fun item => isSupportedChatToolCall (id item)) = false := hrevive.1
    rw [hfirst] at hr
    simp only [hrevive.2, Bool.or_true] at hstart
    obtain ⟨-, -, hlength, hiff⟩ := compare_messages hrevive.1 hr hstart
    have hequal : pieceMessages first.2 <+: pieceMessages start ++ (pieceMessages later ++ rest) ↔
        pieceMessages first.2 = pieceMessages start := by
      constructor
      · intro h
        exact (prefix_of_prefix_length_le h (prefix_append _ _) hlength.le).eq_of_length hlength
      · intro h
        rw [h]
        exact prefix_append _ _
    rw [hequal, hiff rfl]
    simp [hrevive]
  · have hsame : (hasToolCall items || hasToolCall more) = hasToolCall items := by
      cases hi : hasToolCall items <;> simp_all
    rw [hsame] at hstart
    have hstarts : first = (middle, start) := Except.ok.inj (hr.symm.trans hstart)
    rw [hstarts]
    exact iff_of_true (prefix_append _ _) fun h => hrevive ⟨h.1, h.2.1⟩

end Compare

variable {codec : JsonCodec}

/-- The last segment of a history decides what its continuations repeat. -/
theorem traced_prefix_iff {xs ys : List ResponseItem}
    {sent later : List (TracedMessage ResponseItem)} (huser : ∀ item ∈ xs, userContent item = none)
    (hsettled : Settled xs) (hsent : tracedMessages codec id xs = .ok sent)
    (hlater : tracedMessages codec id (xs ++ ys) = .ok later) :
    sent.map (·.message) <+: later.map (·.message) ↔
      ¬ (hasToolCall xs = false ∧ hasToolCall (firstSegment id ys) = true ∧
        bindsReasoning false xs = true) := by
  have huser' : ∀ item ∈ xs ++ firstSegment id ys, userContent item = none :=
    forall_mem_append.mpr ⟨huser, not_user_firstSegment id ys⟩
  obtain ⟨first, hfirst, rfl⟩ := segmentRun_of_tracedMessages huser hsent
  rcases eq_firstSegment id ys with hys | ⟨user, after, content, hys, hcontent⟩
  · rw [← hys] at hlater
    obtain ⟨second, hsecond, rfl⟩ := segmentRun_of_tracedMessages huser' hlater
    have hiff := segment_prefix_iff hsettled hfirst hsecond []
    rwa [append_nil] at hiff
  · rw [hys, ← append_assoc] at hlater
    obtain ⟨before, message, rest, hbefore, -, -, rfl⟩ := traced_of_append_user hcontent hlater
    obtain ⟨second, hsecond, rfl⟩ := segmentRun_of_tracedMessages huser' hbefore
    rw [map_append]
    exact segment_prefix_iff hsettled hfirst hsecond _

/-- The messages of a settled history are a prefix of those of any continuation, if and only if
the continuation does not give reasoning back to messages that were sent without. -/
theorem messages_prefix_iff (codec : JsonCodec) (xs ys : List ResponseItem)
    (sent later : List ChatMessage) (hsettled : Settled xs)
    (hsent : chatMessagesFromItems codec xs = .ok sent)
    (hlater : chatMessagesFromItems codec (xs ++ ys) = .ok later) :
    sent <+: later ↔ ¬ RevivesReasoning xs ys := by
  rw [← map_id xs] at hsent
  rw [← map_id (xs ++ ys)] at hlater
  obtain ⟨traced, htraced, rfl⟩ := traced_of_chatMessagesFromItems id hsent
  obtain ⟨traced', htraced', rfl⟩ := traced_of_chatMessagesFromItems id hlater
  have huser := not_user_lastSegment id xs
  rw [RevivesReasoning]
  rcases eq_lastSegment id xs with hxs | ⟨before, user, content, hxs, hcontent⟩
  · rw [hxs] at huser ⊢
    exact traced_prefix_iff huser hsettled htraced htraced'
  · generalize lastSegment id xs = last at hxs huser ⊢
    subst hxs
    have hlast : Settled last := by
      intro item hitem
      refine hsettled item ?_
      cases last with
      | nil => cases hitem
      | cons head tail => simpa using hitem
    rw [append_assoc] at htraced'
    obtain ⟨start, message, rest, hstart, hmessage, hrest, rfl⟩ :=
      traced_of_append_user hcontent htraced
    obtain ⟨start', message', rest', hstart', hmessage', hrest', rfl⟩ :=
      traced_of_append_user hcontent htraced'
    obtain rfl := Except.ok.inj (hstart.symm.trans hstart')
    obtain rfl := Except.ok.inj (hmessage.symm.trans hmessage')
    rw [map_append, map_append, prefix_append_right_inj, map_cons, map_cons, prefix_cons_inj]
    exact traced_prefix_iff huser hlast hrest hrest'

def reasonedCall : List ResponseItem :=
  [.message none "user" [.inputText "q"] none,
    .reasoning "r" [] (some [.reasoningText "think"]) none,
    .functionCall none "shell" none "args" "c1",
    .functionCallOutput "c1" (.fromText "done")]

theorem messages_prefix_of_answered_call :
    ∃ sent later, chatMessagesFromItems OneFieldJson.codec reasonedCall = .ok sent ∧
      chatMessagesFromItems OneFieldJson.codec
        (reasonedCall ++ [.message none "assistant" [.outputText "a"] none]) = .ok later ∧
      sent <+: later :=
  ⟨_, _, rfl, rfl, (messages_prefix_iff OneFieldJson.codec reasonedCall
    [.message none "assistant" [.outputText "a"] none] _ _ (by decide) rfl rfl).mpr
    (by decide +kernel)⟩

def reasonedMessage : List ResponseItem :=
  [.message none "user" [.inputText "q"] none,
    .reasoning "r" [] (some [.reasoningText "think"]) none,
    .message none "assistant" [.outputText "a"] none,
    .message none "developer" [.inputText "note"] none]

/-- A tool call gives the assistant message before it its reasoning back. -/
theorem tool_call_rewrites_sent_message :
    ∃ sent later, Settled reasonedMessage ∧
      chatMessagesFromItems OneFieldJson.codec reasonedMessage = .ok sent ∧
      chatMessagesFromItems OneFieldJson.codec
        (reasonedMessage ++ [.functionCall none "shell" none "args" "c1"]) = .ok later ∧
      ¬ sent <+: later :=
  ⟨_, _, by decide, rfl, rfl, by decide +kernel⟩

end DeepseekX.ChatMessages
