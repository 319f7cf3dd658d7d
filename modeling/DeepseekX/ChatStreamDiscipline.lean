import DeepseekX.ChatStreamDelivery

/-!
# The discipline of active items

The turn loop keeps the item that was added last as the active one until an item is
completed, and every delta must find an active item of its kind. The stream meets this
discipline unless reasoning resumes after it was closed, or content resumes after
reasoning that interrupted it.
-/

namespace DeepseekX.ChatCompletionsStream
open ResponseItems Transducers ChatCompletionsStreamState List
open ChatCompletionsStream.Part (answers reasons closes)

inductive ActiveItem where
  | message
  | reasoning
  deriving DecidableEq, Repr

def activeItemOf : ResponseItem → Option ActiveItem
  | .message .. => some .message
  | .reasoning .. => some .reasoning
  | _ => none

/-- One event of the turn loop: the active item afterwards, or nothing if a delta does not find
an active item of its kind. -/
def deliver (active : Option ActiveItem) : ResponseEvent → Option (Option ActiveItem)
  | .outputItemAdded item => some ((activeItemOf item).or active)
  | .outputItemDone _ => some none
  | .outputTextDelta _ => if active = some .message then some active else none
  | .reasoningContentDelta _ _ => if active = some .reasoning then some active else none
  | .toolCallInputDelta .. | .completed .. => some active

/-- Every delta finds an active item of its kind. -/
def Disciplined (events : List ResponseEvent) : Prop :=
  (events.foldlM deliver none).isSome

instance (events : List ResponseEvent) : Decidable (Disciplined events) :=
  inferInstanceAs (Decidable (_ = true))

variable (parts : List Part)

/-- Content that resumes after reasoning has interrupted it. -/
def InterruptedContent : Prop :=
  HasPattern [answers, reasons, answers] parts

instance : Decidable (InterruptedContent parts) :=
  HasPattern.decidable _ parts

/-- The active item after the parts, if every delta has found its item. -/
def activeAfter : Option ActiveItem :=
  if HasPattern [reasons] parts ∧ ¬ HasPattern [reasons, closes] parts then
    some .reasoning
  else if HasPattern [answers] parts ∧
      (HasPattern [reasons] parts → HasPattern [reasons, answers] parts) then
    some .message
  else none

def replayOf : Option (Option ActiveItem) :=
  if LateReasoning parts ∨ InterruptedContent parts then none else some (activeAfter parts)

variable {events : List ResponseEvent}

theorem foldlM_deliver_of_aboutToolCall (h : ∀ e ∈ events, aboutToolCall e = true)
    (active : Option ActiveItem) : events.foldlM deliver active = some active := by
  induction events with
  | nil => rfl
  | cons e events ih =>
    have hhead : deliver active e = some active := by
      have he := h e mem_cons_self
      unfold aboutToolCall at he
      split at he
      · rfl
      · rfl
      · cases he
    rw [foldlM_cons, hhead]
    exact ih (forall_mem_cons.mp h).2

theorem foldlM_deliver_isSome (h : ∀ e ∈ events, ∀ active, (deliver active e).isSome)
    (active : Option ActiveItem) : (events.foldlM deliver active).isSome := by
  induction events generalizing active with
  | nil => rfl
  | cons e events ih =>
    obtain ⟨next, hnext⟩ := Option.isSome_iff_exists.mp (h e mem_cons_self active)
    rw [foldlM_cons, hnext]
    exact ih (forall_mem_cons.mp h).2 next

/-- What the orders in which reasoning and content occur imply for each other. -/
structure PartOrders (reasons answers closed answeredAfter reasonsAfter late interrupted : Prop) :
    Prop where
  closed_reasons : closed → reasons
  answeredAfter_closed : answeredAfter → closed
  answeredAfter_answers : answeredAfter → answers
  reasonsAfter_answers : reasonsAfter → answers
  reasonsAfter_reasons : reasonsAfter → reasons
  late_closed : late → closed
  interrupted_reasonsAfter : interrupted → reasonsAfter
  ordered : reasons → answers → reasonsAfter ∨ answeredAfter
  alternating : reasonsAfter → answeredAfter → interrupted ∨ late

theorem answers_closes {part : Part} (h : part.answers = true) : part.closes = true := by
  cases part with
  | reasoning text nonempty => cases h
  | content | toolCalls => rfl

theorem reasons_of_answers (part : Part) (h : part.answers = true) : part.reasons = false := by
  cases part with
  | reasoning text nonempty => cases h
  | content | toolCalls => rfl

theorem partOrders :
    PartOrders (HasPattern [reasons] parts) (HasPattern [answers] parts)
      (HasPattern [reasons, closes] parts)
      (HasPattern [reasons, answers] parts)
      (HasPattern [answers, reasons] parts) (LateReasoning parts)
      (InterruptedContent parts) where
  closed_reasons h := HasPattern.init [reasons] h
  answeredAfter_closed h := h.mono (.cons (fun _ => id) (.cons (fun _ => answers_closes) .nil))
  answeredAfter_answers h := h.tail
  reasonsAfter_answers h := HasPattern.init [answers] h
  reasonsAfter_reasons h := h.tail
  late_closed h := HasPattern.init [reasons, closes] h
  interrupted_reasonsAfter h := HasPattern.init [answers, reasons] h
  ordered hr ha := HasPattern.pair reasons_of_answers ha hr
  alternating hra har := by
    rcases HasPattern.alternate reasons_of_answers hra har with h | h
    · exact Or.inl h
    · exact Or.inr (h.mono (.cons (fun _ => id) (.cons (fun _ => answers_closes)
        (.cons (fun _ => id) .nil))))

section Replays
variable {parts : List Part} (hlate : ¬ LateReasoning parts)
  (hinterrupted : ¬ InterruptedContent parts)
include hlate hinterrupted

theorem replayOf_reasoning (text : String) (nonempty : text ≠ "") :
    replayOf (parts ++ [.reasoning text nonempty]) =
      if HasPattern [reasons, closes] parts then none else some (some .reasoning) := by
  rw [LateReasoning] at hlate
  rw [InterruptedContent] at hinterrupted
  by_cases hc : HasPattern [reasons, closes] parts <;>
    simp [replayOf, activeAfter, LateReasoning, InterruptedContent, hasPattern_one_append,
      hasPattern_two_append, hasPattern_three_append, reasons, answers, closes,
      hlate, hinterrupted, hc]

theorem replayOf_content (text : String) (nonempty : text ≠ "") :
    replayOf (parts ++ [.content text nonempty]) =
      if HasPattern [answers, reasons] parts then none else some (some .message) := by
  rw [LateReasoning] at hlate
  rw [InterruptedContent] at hinterrupted
  by_cases hr : HasPattern [reasons] parts <;>
    simp [replayOf, activeAfter, LateReasoning, InterruptedContent, hasPattern_one_append,
      hasPattern_two_append, hasPattern_three_append, reasons, answers, closes,
      hlate, hinterrupted, hr]

theorem replayOf_toolCalls (deltas : List ChatToolCallDelta) :
    replayOf (parts ++ [.toolCalls deltas]) =
      some (if HasPattern [reasons] parts ∧ ¬ HasPattern [reasons, closes] parts
        then none else activeAfter parts) := by
  have hanswered := (partOrders parts).answeredAfter_closed
  by_cases hr : HasPattern [reasons] parts <;>
    by_cases hc : HasPattern [reasons, closes] parts <;>
    simp_all [replayOf, activeAfter, LateReasoning, InterruptedContent, hasPattern_one_append,
      hasPattern_two_append, hasPattern_three_append, reasons, answers, closes]

/-- Content finds its message unless reasoning has interrupted it. -/
theorem activeAfter_eq_message (hopen : ¬ (HasPattern [reasons] parts ∧
    ¬ HasPattern [reasons, closes] parts)) (ha : HasPattern [answers] parts) :
    activeAfter parts = some .message ↔ ¬ HasPattern [answers, reasons] parts := by
  have horders := partOrders parts
  have hafter : activeAfter parts = some .message ↔ (HasPattern [reasons] parts →
      HasPattern [reasons, answers] parts) := by
    rw [activeAfter, if_neg hopen]
    simp [ha]
  rw [hafter]
  constructor
  · intro hanswered hra
    rcases horders.alternating hra (hanswered (horders.reasonsAfter_reasons hra)) with hi | hl
    · exact hinterrupted hi
    · exact hlate hl
  · intro hra hr
    exact (horders.ordered hr ha).resolve_left hra

end Replays

namespace ChatCompletionsStreamState

/-- The flags record which parts have occurred, and replaying the events is decided by the
parts. -/
structure Replays (s : ChatCompletionsStreamState) (out : List ResponseEvent) :
    Prop where
  messageStarted : s.messageStarted = true ↔ HasPattern [answers] parts
  reasoningStarted : s.reasoningStarted = true ↔ HasPattern [reasons] parts
  noReasoning : s.reasoningContent = "" ↔ ¬ HasPattern [reasons] parts
  reasoningDone : s.reasoningDone = true ↔ HasPattern [reasons, closes] parts
  replay : out.foldlM deliver none = replayOf parts

variable {codec : JsonCodec} {parts : List Part} {s : ChatCompletionsStreamState}
  {out : List ResponseEvent}

theorem replays_finishReasoning (h : Replays parts s out) :
    ∃ finished, s.finishReasoning =
        ({ s with reasoningDone := decide (HasPattern [reasons] parts) }, finished) ∧
      ∀ active, finished.foldlM deliver active = some
        (if HasPattern [reasons] parts ∧ ¬ HasPattern [reasons, closes] parts then
          none else active) := by
  have hclosed := (partOrders parts).closed_reasons
  unfold finishReasoning
  by_cases hr : HasPattern [reasons] parts
  · by_cases hc : HasPattern [reasons, closes] parts
    · have hdone := h.reasoningDone.mpr hc
      exact ⟨[], by simp [hdone, hr, withReasoningDone_self true hdone], by simp [hc]⟩
    · have hdone : s.reasoningDone ≠ true := fun hd => hc (h.reasoningDone.mp hd)
      have htext : s.reasoningContent ≠ "" := fun ht => h.noReasoning.mp ht hr
      refine ⟨[.outputItemDone (.reasoning "deepseek_reasoning" []
        (some [.reasoningText s.reasoningContent]) none)], ?_, by simp [hr, hc, deliver]⟩
      rw [if_neg (by simp [hdone, htext])]
      simp [hr]
  · have hdone : s.reasoningDone = false :=
      Bool.eq_false_iff.mpr fun hd => hr (hclosed (h.reasoningDone.mp hd))
    refine ⟨[], ?_, by simp [hr]⟩
    rw [if_pos (Or.inr (h.noReasoning.mpr hr))]
    simp [hr, withReasoningDone_self false hdone]

variable {new : List ResponseEvent}

/-- Only parts that follow the discipline so far have to be replayed. -/
theorem foldlM_deliver_append {part : Part} (h : out.foldlM deliver none = replayOf parts)
    (hnew : ¬ LateReasoning parts → ¬ InterruptedContent parts →
      new.foldlM deliver (activeAfter parts) = replayOf (parts ++ [part])) :
    (out ++ new).foldlM deliver none = replayOf (parts ++ [part]) := by
  rw [foldlM_append, h, replayOf]
  by_cases hl : LateReasoning parts
  · have hl' : LateReasoning (parts ++ [part]) :=
      (hasPattern_three_append _ _ _ parts part).mpr (Or.inl hl)
    simp [hl, hl', replayOf]
  · by_cases hi : InterruptedContent parts
    · have hi' : InterruptedContent (parts ++ [part]) :=
        (hasPattern_three_append _ _ _ parts part).mpr (Or.inl hi)
      simp [hi, hi', replayOf]
    · simpa [hl, hi] using hnew hl hi

theorem replays_processPart (h : Replays parts s out) {part : Part} {t : ChatCompletionsStreamState}
    (hp : processPart codec s part = .ok (t, new)) : Replays (parts ++ [part]) t (out ++ new) := by
  have horders := partOrders parts
  cases part with
  | reasoning text nonempty =>
    obtain ⟨started, heq, hstarted⟩ := processReasoning_eq s text
    simp only [processPart, heq] at hp
    obtain ⟨rfl, rfl⟩ := hp
    constructor
    · simpa [hasPattern_one_append, answers] using h.messageStarted
    · simp [hasPattern_one_append, reasons]
    · simp [hasPattern_one_append, reasons, nonempty]
    · simpa [hasPattern_two_append, closes] using h.reasoningDone
    · refine foldlM_deliver_append h.replay fun hl hi => ?_
      rw [replayOf_reasoning hl hi, hstarted]
      by_cases hr : HasPattern [reasons] parts
      · rw [if_pos (h.reasoningStarted.mpr hr)]
        by_cases hc : HasPattern [reasons, closes] parts <;>
          simp [activeAfter, deliver, hr, hc]
      · have hc := mt horders.closed_reasons hr
        rw [if_neg (mt h.reasoningStarted.mp hr)]
        simp [activeItemOf, deliver, hc]
  | content text nonempty =>
    obtain ⟨finished, hf, hreplay⟩ := replays_finishReasoning h
    obtain ⟨started, hs, hstarted⟩ := ensureMessageStarted_eq
      { s with reasoningDone := decide (HasPattern [reasons] parts) }
    simp only [processPart, processContent, hf, hs] at hp
    obtain ⟨rfl, rfl⟩ := hp
    constructor
    · simp [hasPattern_one_append, answers]
    · simpa [hasPattern_one_append, reasons] using h.reasoningStarted
    · simpa [hasPattern_one_append, reasons] using h.noReasoning
    · simpa [hasPattern_two_append, closes] using horders.closed_reasons
    · refine foldlM_deliver_append h.replay fun hl hi => ?_
      rw [foldlM_append, foldlM_append, hreplay, replayOf_content hl hi, hstarted]
      by_cases ha : HasPattern [answers] parts
      · rw [if_pos (h.messageStarted.mpr ha)]
        by_cases hopen : HasPattern [reasons] parts ∧
            ¬ HasPattern [reasons, closes] parts
        · have hra := (horders.ordered hopen.1 ha).resolve_right
            (mt horders.answeredAfter_closed hopen.2)
          simp [hopen, hra, deliver]
        · have hactive := activeAfter_eq_message hl hi hopen ha
          by_cases hra : HasPattern [answers, reasons] parts
          · simp [hra, deliver, mt hactive.mp (not_not.mpr hra)]
          · simp [hopen, hra, deliver, hactive.mpr hra]
      · have hra := mt horders.reasonsAfter_answers ha
        rw [if_neg (mt h.messageStarted.mp ha)]
        simp [activeItemOf, deliver, hra]
  | toolCalls deltas =>
    obtain ⟨toolCalls, called, rfl, rfl, hcalled⟩ := processToolCalls_frame hp
    obtain ⟨finished, hf, hreplay⟩ := replays_finishReasoning h
    rw [hf]
    constructor
    · simpa [hasPattern_one_append, answers] using h.messageStarted
    · simpa [hasPattern_one_append, reasons] using h.reasoningStarted
    · simpa [hasPattern_one_append, reasons] using h.noReasoning
    · simpa [hasPattern_two_append, closes] using horders.closed_reasons
    · refine foldlM_deliver_append h.replay fun hl hi => ?_
      rw [foldlM_append, hreplay, replayOf_toolCalls hl hi]
      exact foldlM_deliver_of_aboutToolCall hcalled _

theorem replays_noteChunk (h : Replays parts s out) (chunk : ChatCompletionChunk) :
    Replays parts (s.noteChunk chunk) out :=
  ⟨h.messageStarted, h.reasoningStarted, h.noReasoning, h.reasoningDone, h.replay⟩

theorem replays_default : Replays [] .default [] := by
  constructor <;> simp [default, replayOf, activeAfter, LateReasoning, InterruptedContent]

theorem foldlM_deliver_processDone (s : ChatCompletionsStreamState) (active : Option ActiveItem) :
    ((s.processDone codec).2.foldlM deliver active).isSome := by
  refine foldlM_deliver_isSome (fun e he => ?_) active
  simp only [processDone, mem_append, mem_map, mem_singleton] at he
  rcases he with ((he | he) | ⟨toolCall, -, rfl⟩) | rfl
  · unfold finishMessage at he
    split_ifs at he
    · cases he
    · simp [mem_singleton.mp he, deliver]
  · unfold finishReasoning at he
    split_ifs at he
    · cases he
    · simp [mem_singleton.mp he, deliver]
  · simp [deliver]
  · simp [deliver]

end ChatCompletionsStreamState

/-- The events of an accepted stream meet the discipline of the turn loop, if and only if no
reasoning is late and no content is interrupted by reasoning. -/
theorem stream_disciplined_iff (codec : JsonCodec) (chunks : List ChatCompletionChunk)
    (events : List ResponseEvent)
    (h : streamEvents codec chunks = .ok events) :
    Disciplined events ↔
      ¬ LateReasoning (streamParts chunks) ∧ ¬ InterruptedContent (streamParts chunks) := by
  obtain ⟨s, out, hreplays, rfl⟩ := streamEvents_invariant
    (I := ChatCompletionsStreamState.Replays)
    (fun _ _ _ _ _ _ hI hp => replays_processPart hI hp)
    (fun _ _ _ chunk hI => replays_noteChunk hI chunk)
    replays_default h
  have hdone : ∀ active, ((s.processDone codec).2.foldlM deliver active).isSome :=
    s.foldlM_deliver_processDone
  rw [Disciplined, foldlM_append, hreplays.replay, replayOf]
  split_ifs with hbad
  · simpa [or_iff_not_imp_left] using hbad
  · simpa [hdone] using not_or.mp hbad

theorem reasoned_answer_disciplined :
    ∃ events, streamEvents OneFieldJson.codec reasonedAnswer = .ok events ∧ Disciplined events :=
  ⟨_, rfl, (stream_disciplined_iff _ reasonedAnswer _ rfl).mpr (by decide +kernel)⟩

def interruptedAnswer : List ChatCompletionChunk :=
  [deltaChunk none (some "x"), deltaChunk (some "a") none, deltaChunk none (some "y")]

/-- Content after an interruption finds no active item. -/
theorem interrupted_answer_undisciplined :
    ∃ events, streamEvents OneFieldJson.codec interruptedAnswer =
      .ok events ∧ ¬ Disciplined events :=
  ⟨_, rfl, by decide +kernel⟩

end DeepseekX.ChatCompletionsStream
