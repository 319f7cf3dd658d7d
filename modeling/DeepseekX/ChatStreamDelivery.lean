import DeepseekX.ChatStreamParts
import DeepseekX.OneFieldJson

/-!
# What a stream delivers

The texts streamed as deltas are compared with the texts of the items that end them.
The message always agrees. The reasoning item is ended by the first content or tool
call after it, so that reasoning streamed later is lost.
-/

namespace DeepseekX.ChatCompletionsStream
open ResponseItems Transducers OrderedMaps ChatCompletionsStreamState List String
open ChatCompletionsStream.Part (closes reasons)

variable (events : List ResponseEvent)

def textDeltas : List String :=
  events.filterMap fun
    | .outputTextDelta delta => some delta
    | _ => none

def reasoningDeltas : List String :=
  events.filterMap fun
    | .reasoningContentDelta delta _ => some delta
    | _ => none

def doneItems : List ResponseItem :=
  events.filterMap fun
    | .outputItemDone item => some item
    | _ => none

def messageContent : ResponseItem → Option (List ContentItem)
  | .message _ _ content _ => some content
  | _ => none

def reasoningContent : ResponseItem → Option (Option (List ReasoningItemContent))
  | .reasoning _ _ content _ => some content
  | _ => none

def doneMessages : List (List ContentItem) :=
  (doneItems events).filterMap messageContent

def doneReasonings : List (Option (List ReasoningItemContent)) :=
  (doneItems events).filterMap reasoningContent

/-- The streamed text is the text of the single message, and the streamed reasoning that of the
single reasoning item, each of them absent if nothing was streamed. -/
def Lossless : Prop :=
  (doneMessages events = if join (textDeltas events) = "" then []
    else [[.outputText (join (textDeltas events))]]) ∧
  (doneReasonings events = if join (reasoningDeltas events) = "" then []
    else [some [.reasoningText (join (reasoningDeltas events))]])

instance : Decidable (Lossless events) :=
  inferInstanceAs (Decidable (_ ∧ _))

section Projections
variable (xs ys : List ResponseEvent) (e : ResponseEvent)

@[simp] theorem projections_nil :
    textDeltas [] = [] ∧ reasoningDeltas [] = [] ∧ doneItems [] = [] := ⟨rfl, rfl, rfl⟩

@[simp] theorem textDeltas_singleton : textDeltas [e] = match e with
    | .outputTextDelta delta => [delta]
    | _ => [] := by
  cases e <;> rfl

@[simp] theorem reasoningDeltas_singleton : reasoningDeltas [e] = match e with
    | .reasoningContentDelta delta _ => [delta]
    | _ => [] := by
  cases e <;> rfl

@[simp] theorem doneItems_singleton : doneItems [e] = match e with
    | .outputItemDone item => [item]
    | _ => [] := by
  cases e <;> rfl

@[simp] theorem textDeltas_append : textDeltas (xs ++ ys) = textDeltas xs ++ textDeltas ys :=
  filterMap_append

@[simp] theorem reasoningDeltas_append :
    reasoningDeltas (xs ++ ys) = reasoningDeltas xs ++ reasoningDeltas ys := filterMap_append

@[simp] theorem doneItems_append : doneItems (xs ++ ys) = doneItems xs ++ doneItems ys :=
  filterMap_append

@[simp] theorem projections_completed (items : List ResponseItem) :
    textDeltas (items.map .outputItemDone) = [] ∧
      reasoningDeltas (items.map .outputItemDone) = [] ∧
      doneItems (items.map .outputItemDone) = items := by
  refine ⟨?_, ?_, ?_⟩
  · simp [textDeltas]
  · simp [reasoningDeltas]
  · simp [doneItems]

end Projections

theorem projections_of_aboutToolCall {events : List ResponseEvent}
    (h : ∀ e ∈ events, aboutToolCall e = true) :
    textDeltas events = [] ∧ reasoningDeltas events = [] ∧ doneItems events = [] := by
  simp only [textDeltas, reasoningDeltas, doneItems, filterMap_eq_nil_iff, ← forall_and]
  intro e
  by_cases he : e ∈ events
  · have ha := h e he
    unfold aboutToolCall at ha
    split at ha <;> simp_all
  · simp [he]

variable (parts : List Part)

def contentText : String :=
  parts.foldl (fun text part => match part with
    | .content more _ => text ++ more
    | _ => text) ""

/-- The reasoning so far, and the text it was ended with. -/
def closeReasoning : String × Option String → Part → String × Option String
  | (text, ended), .reasoning more _ => (text ++ more, ended)
  | (text, ended), _ => (text, ended.or (if text = "" then none else some text))

def reasoningText : String := (parts.foldl closeReasoning ("", none)).1

def endedText : Option String := (parts.foldl closeReasoning ("", none)).2

/-- The text that a part that closes the reasoning leaves as the ended one. -/
def endedTextAfter : Option String :=
  (endedText parts).or (if reasoningText parts = "" then none else some (reasoningText parts))

theorem contentText_append (part : Part) :
    contentText (parts ++ [part]) = match part with
      | .content more _ => contentText parts ++ more
      | _ => contentText parts := by
  cases part <;> simp [contentText]

theorem reasoningText_append (part : Part) :
    reasoningText (parts ++ [part]) = match part with
      | .reasoning more _ => reasoningText parts ++ more
      | _ => reasoningText parts := by
  cases part <;> simp [reasoningText, closeReasoning]

theorem endedText_append (part : Part) :
    endedText (parts ++ [part]) =
      if part.closes then endedTextAfter parts else endedText parts := by
  unfold endedTextAfter endedText reasoningText
  rw [foldl_append]
  cases part <;> rfl

def reasoningItem (text : String) : ResponseItem :=
  .reasoning "deepseek_reasoning" [] (some [.reasoningText text]) none

def messageItem (text : String) : ResponseItem :=
  .message none "assistant" [.outputText text] (some .finalAnswer)

def endedItems : List ResponseItem :=
  ((endedText parts).map reasoningItem).toList

/-- The reasoning item that is completed when the reasoning is closed. -/
def closingItems : List ResponseItem :=
  if (endedText parts).isSome then [] else ((endedTextAfter parts).map reasoningItem).toList

def messageItems : List ResponseItem :=
  if contentText parts = "" then [] else [messageItem (contentText parts)]

theorem endedItems_append_closingItems :
    endedItems parts ++ closingItems parts = ((endedTextAfter parts).map reasoningItem).toList := by
  unfold endedItems closingItems endedTextAfter
  cases endedText parts <;> simp

theorem endedItems_append (part : Part) :
    endedItems (parts ++ [part]) =
      if part.closes then endedItems parts ++ closingItems parts else endedItems parts := by
  rw [endedItems_append_closingItems, endedItems, endedText_append]
  split_ifs <;> rfl

namespace ChatCompletionsStreamState

/-- The state and the events so far hold the texts of the parts. -/
structure Texts (s : ChatCompletionsStreamState) (out : List ResponseEvent) :
    Prop where
  content : s.content = contentText parts
  reasoning : s.reasoningContent = reasoningText parts
  messageDone : s.messageDone = false
  reasoningDone : s.reasoningDone = (endedText parts).isSome
  streamedText : join (textDeltas out) = contentText parts
  streamedReasoning : join (reasoningDeltas out) = reasoningText parts
  doneItems : doneItems out = endedItems parts

variable {codec : JsonCodec} {parts : List Part} {s : ChatCompletionsStreamState}
  {out : List ResponseEvent}

theorem withReasoningDone_self (done : Bool) (h : s.reasoningDone = done) :
    { s with reasoningDone := done } = s := by
  subst h
  rfl

/-- Closing the reasoning completes its item, unless there is none or it is completed. -/
theorem texts_finishReasoning (h : Texts parts s out) : s.finishReasoning =
    ({ s with reasoningDone := (endedTextAfter parts).isSome },
      (closingItems parts).map .outputItemDone) := by
  have hdone := h.reasoningDone
  unfold finishReasoning closingItems endedTextAfter
  cases he : endedText parts with
  | some text =>
    rw [he] at hdone
    simp [hdone, withReasoningDone_self true hdone]
  | none =>
    rw [he] at hdone
    by_cases htext : reasoningText parts = ""
    · rw [if_pos (Or.inr (h.reasoning.trans htext))]
      simp [htext, withReasoningDone_self false hdone]
    · rw [if_neg (by simp [hdone, h.reasoning, htext]), h.reasoning]
      simp [htext, reasoningItem]

theorem processReasoning_eq (s : ChatCompletionsStreamState) (text : String) :
    ∃ started, s.processReasoning text =
      ({ s with reasoningStarted := true, reasoningContent := s.reasoningContent ++ text },
        started ++ [.reasoningContentDelta text 0]) ∧
      started = if s.reasoningStarted then []
        else [.outputItemAdded (.reasoning "deepseek_reasoning" [] none none)] := by
  unfold processReasoning ensureReasoningStarted
  split_ifs with hs
  · exact ⟨[], by simp [← hs], rfl⟩
  · exact ⟨_, rfl, rfl⟩

theorem ensureMessageStarted_eq (s : ChatCompletionsStreamState) :
    ∃ started, s.ensureMessageStarted = ({ s with messageStarted := true }, started) ∧
      started = if s.messageStarted then []
        else [.outputItemAdded (.message none "assistant" [] (some .finalAnswer))] := by
  unfold ensureMessageStarted
  split_ifs with hs
  · exact ⟨[], by simp [← hs], rfl⟩
  · exact ⟨_, rfl, rfl⟩

theorem texts_processPart (h : Texts parts s out) {part : Part} {t : ChatCompletionsStreamState}
    {new : List ResponseEvent} (hp : processPart codec s part = .ok (t, new)) :
    Texts (parts ++ [part]) t (out ++ new) := by
  cases part with
  | reasoning text nonempty =>
    obtain ⟨started, heq, hstarted⟩ := processReasoning_eq s text
    simp only [processPart, heq] at hp
    obtain ⟨rfl, rfl⟩ := hp
    have hproj : textDeltas started = [] ∧ reasoningDeltas started = [] ∧
        ChatCompletionsStream.doneItems started = [] := by
      rw [hstarted]
      split_ifs <;> simp
    obtain ⟨h1, h2, h3⟩ := hproj
    constructor
    · simpa [contentText_append] using h.content
    · simp [reasoningText_append, h.reasoning]
    · exact h.messageDone
    · simpa [endedText_append, closes] using h.reasoningDone
    · rw [contentText_append, ← h.streamedText]
      simp [h1]
    · rw [reasoningText_append, ← h.streamedReasoning]
      simp [h2]
    · simp [h3, h.doneItems, endedItems_append, closes]
  | content text nonempty =>
    obtain ⟨started, hs, hstarted⟩ := ensureMessageStarted_eq
      { s with reasoningDone := (endedTextAfter parts).isSome }
    simp only [processPart, processContent, texts_finishReasoning h, hs] at hp
    obtain ⟨rfl, rfl⟩ := hp
    have hproj : textDeltas started = [] ∧ reasoningDeltas started = [] ∧
        ChatCompletionsStream.doneItems started = [] := by
      rw [hstarted]
      split_ifs <;> simp
    obtain ⟨h1, h2, h3⟩ := hproj
    constructor
    · simp [contentText_append, h.content]
    · simpa [reasoningText_append] using h.reasoning
    · exact h.messageDone
    · simp [endedText_append, closes]
    · rw [contentText_append, ← h.streamedText]
      simp [h1]
    · rw [reasoningText_append, ← h.streamedReasoning]
      simp [h2]
    · simp [h3, h.doneItems, endedItems_append, closes]
  | toolCalls deltas =>
    obtain ⟨toolCalls, called, rfl, rfl, hcalled⟩ := processToolCalls_frame hp
    obtain ⟨h1, h2, h3⟩ := projections_of_aboutToolCall hcalled
    rw [texts_finishReasoning h]
    constructor
    · simpa [contentText_append] using h.content
    · simpa [reasoningText_append] using h.reasoning
    · exact h.messageDone
    · simp [endedText_append, closes]
    · rw [contentText_append, ← h.streamedText]
      simp [h1]
    · rw [reasoningText_append, ← h.streamedReasoning]
      simp [h2]
    · simp [h3, h.doneItems, endedItems_append, closes]

theorem texts_noteChunk (h : Texts parts s out) (chunk : ChatCompletionChunk) :
    Texts parts (s.noteChunk chunk) out :=
  ⟨h.content, h.reasoning, h.messageDone, h.reasoningDone, h.streamedText, h.streamedReasoning,
    h.doneItems⟩

theorem texts_default : Texts [] .default [] := by
  constructor <;> rfl

theorem texts_finishMessage (h : Texts parts s out) : s.finishMessage =
    ({ s with messageDone := s.finishMessage.1.messageDone },
      (messageItems parts).map .outputItemDone) := by
  unfold finishMessage messageItems
  rw [← h.content]
  split_ifs with h1 h2 h2
  · rfl
  · exact absurd (h1.resolve_right h2) (by simp [h.messageDone])
  · exact absurd (Or.inr h2) h1
  · rfl

theorem projections_processDone (codec : JsonCodec) (h : Texts parts s out) :
    textDeltas (s.processDone codec).2 = [] ∧ reasoningDeltas (s.processDone codec).2 = [] ∧
      ChatCompletionsStream.doneItems (s.processDone codec).2 =
        messageItems parts ++ closingItems parts ++ s.toolCalls.values.map (doneItem codec) := by
  have hclosed : ∀ done, ({ s with messageDone := done }).finishReasoning =
      ({ s with messageDone := done, reasoningDone := s.finishReasoning.1.reasoningDone },
        s.finishReasoning.2) := by
    intro done
    simp only [finishReasoning]
    split_ifs <;> rfl
  have hdone : (s.processDone codec).2 = (messageItems parts ++ closingItems parts ++
      s.toolCalls.values.map (doneItem codec)).map .outputItemDone ++
        [.completed (s.responseId.getD "chatcmpl-deepseek") s.usage (some true)] := by
    rw [processDone, texts_finishMessage h]
    dsimp only
    rw [hclosed, texts_finishReasoning h]
    simp
  rw [hdone]
  simp [-map_append]

end ChatCompletionsStreamState

/-- Reasoning that comes after the reasoning before it has been closed. -/
def LateReasoning : Prop :=
  HasPattern [reasons, closes, reasons] parts

instance : Decidable (LateReasoning parts) :=
  HasPattern.decidable _ parts

/-- Texts only grow, and only with more reasoning. -/
theorem fst_foldl_closeReasoning (st : String × Option String) :
    ∃ more, (parts.foldl closeReasoning st).1 = st.1 ++ more ∧
      (more = "" ↔ ¬ HasPattern [reasons] parts) := by
  induction parts generalizing st with
  | nil => exact ⟨"", by simp⟩
  | cons part parts ih =>
    obtain ⟨text, ended⟩ := st
    cases part with
    | reasoning first nonempty =>
      obtain ⟨more, hmore, -⟩ := ih (text ++ first, ended)
      refine ⟨first ++ more, ?_, by simp [reasons, nonempty]⟩
      rw [foldl_cons, closeReasoning, hmore, String.append_assoc]
    | content | toolCalls =>
      obtain ⟨more, hmore, hiff⟩ := ih (closeReasoning (text, ended) _)
      exact ⟨more, hmore, by simpa [reasons] using hiff⟩

theorem snd_foldl_closeReasoning_some (text ended : String) :
    (parts.foldl closeReasoning (text, some ended)).2 = some ended := by
  induction parts generalizing text with
  | nil => rfl
  | cons part parts ih => cases part <;> simpa [closeReasoning] using ih _

def EndedWhole (st : String × Option String) : Prop :=
  st.2.or (if st.1 = "" then none else some st.1) = if st.1 = "" then none else some st.1

theorem endedWhole_open {parts : List Part} {text : String} (htext : text ≠ "") :
    EndedWhole (parts.foldl closeReasoning (text, none)) ↔
      ¬ HasPattern [closes, reasons] parts := by
  induction parts generalizing text with
  | nil => simp [EndedWhole]
  | cons part parts ih =>
    cases part with
    | reasoning more nonempty =>
      have hmore : text ++ more ≠ "" := by simp [htext]
      simpa [closeReasoning, closes] using ih hmore
    | content | toolCalls =>
      obtain ⟨more, hmore, hiff⟩ := fst_foldl_closeReasoning parts (text, some text)
      have hended := snd_foldl_closeReasoning_some parts text text
      simp only [foldl_cons, closeReasoning, if_neg htext, Option.none_or, hasPattern_cons_cons,
        closes, true_and]
      rw [or_iff_left_of_imp HasPattern.tail, ← hiff, EndedWhole, hmore, hended]
      have hne : text ++ more ≠ "" := by simp [htext]
      rw [if_neg hne, Option.some_or, Option.some.injEq]
      constructor
      · intro heq
        have hlist := congrArg toList heq
        rw [toList_append] at hlist
        exact toList_inj.mp (self_eq_append_right.mp hlist)
      · rintro rfl
        rw [append_empty]

/-- The reasoning item holds all the reasoning unless some of it comes late. -/
theorem endedTextAfter_eq_iff :
    endedTextAfter parts = (if reasoningText parts = "" then none else some (reasoningText parts)) ↔
      ¬ LateReasoning parts := by
  change EndedWhole (parts.foldl closeReasoning ("", none)) ↔ _
  induction parts with
  | nil => simp [EndedWhole, LateReasoning]
  | cons part parts ih =>
    cases part with
    | reasoning text nonempty =>
      rw [foldl_cons, closeReasoning, empty_append, endedWhole_open nonempty]
      simp only [LateReasoning, hasPattern_cons_cons, reasons, true_and]
      rw [or_iff_left_of_imp HasPattern.tail]
    | content | toolCalls =>
      simpa [closeReasoning, LateReasoning, reasons] using ih

theorem texts_of_doneItem (codec : JsonCodec) (toolCalls : List ToolCallState) :
    (toolCalls.map (doneItem codec)).filterMap messageContent = [] ∧
      (toolCalls.map (doneItem codec)).filterMap reasoningContent = [] := by
  simp only [filterMap_eq_nil_iff, forall_mem_map, ← forall_and]
  intro toolCall
  simp only [doneItem]
  split_ifs <;> simp [messageContent, reasoningContent]

theorem texts_of_items :
    (endedItems parts).filterMap messageContent = [] ∧
      (messageItems parts).filterMap messageContent =
        (if contentText parts = "" then [] else [[.outputText (contentText parts)]]) ∧
      (closingItems parts).filterMap messageContent = [] ∧
      (messageItems parts).filterMap reasoningContent = [] ∧
      (endedItems parts ++ closingItems parts).filterMap reasoningContent =
        ((endedTextAfter parts).map fun text => some [.reasoningText text]).toList := by
  have hreasoning : ∀ ended : Option String,
      ((ended.map reasoningItem).toList).filterMap messageContent = [] ∧
      ((ended.map reasoningItem).toList).filterMap reasoningContent =
        (ended.map fun text => some [.reasoningText text]).toList := by
    intro ended
    cases ended <;> exact ⟨rfl, rfl⟩
  refine ⟨(hreasoning _).1, ?_, ?_, ?_, ?_⟩
  · rw [messageItems]
    split_ifs <;> rfl
  · rw [closingItems]
    split_ifs
    · rfl
    · exact (hreasoning _).1
  · rw [messageItems]
    split_ifs <;> rfl
  · rw [endedItems_append_closingItems]
    exact (hreasoning _).2

/-- No text of an accepted stream is lost, if and only if no reasoning comes after content or
tool calls that have closed the reasoning before it. -/
theorem stream_lossless_iff (codec : JsonCodec) (chunks : List ChatCompletionChunk)
    (events : List ResponseEvent)
    (h : streamEvents codec chunks = .ok events) :
    Lossless events ↔ ¬ LateReasoning (streamParts chunks) := by
  obtain ⟨s, out, htexts, rfl⟩ := streamEvents_invariant
    (I := ChatCompletionsStreamState.Texts)
    (fun _ _ _ _ _ _ hI hp => texts_processPart hI hp)
    (fun _ _ _ chunk hI => texts_noteChunk hI chunk)
    texts_default h
  obtain ⟨htext, hreasoning, hitems⟩ :=
    projections_processDone codec htexts
  obtain ⟨h1, h2, h3, h4, h5⟩ := texts_of_items (streamParts chunks)
  obtain ⟨g1, g2⟩ := texts_of_doneItem codec s.toolCalls.values
  have hmessages : doneMessages (out ++ (s.processDone codec).2) =
      if contentText (streamParts chunks) = "" then []
      else [[.outputText (contentText (streamParts chunks))]] := by
    rw [doneMessages, doneItems_append, htexts.doneItems, hitems]
    simp [h1, h2, h3, g1]
  have hreasonings : doneReasonings (out ++ (s.processDone codec).2) =
      ((endedTextAfter (streamParts chunks)).map fun text =>
        some [.reasoningText text]).toList := by
    rw [doneReasonings, doneItems_append, htexts.doneItems, hitems, ← h5]
    simp [h4, g2]
  rw [← endedTextAfter_eq_iff, Lossless, hmessages, hreasonings]
  simp only [textDeltas_append, reasoningDeltas_append, htext, hreasoning, append_nil,
    htexts.streamedText, htexts.streamedReasoning]
  by_cases hr : reasoningText (streamParts chunks) = ""
  · simp [hr]
  · simp [hr]

def deltaChunk (reasoning content : Option String) : ChatCompletionChunk :=
  ⟨"response", [⟨⟨content, reasoning, none⟩, 0⟩], none⟩

def reasonedAnswer : List ChatCompletionChunk :=
  [deltaChunk (some "a") none, deltaChunk none (some "x")]

theorem reasoned_answer_lossless :
    ∃ events, streamEvents OneFieldJson.codec reasonedAnswer = .ok events ∧ Lossless events :=
  ⟨_, rfl, (stream_lossless_iff _ reasonedAnswer _ rfl).mpr (by decide +kernel)⟩

/-- Reasoning after the answer is streamed and then lost. -/
theorem late_reasoning_lost :
    ∃ events, streamEvents OneFieldJson.codec
      (reasonedAnswer ++ [deltaChunk (some "b") none]) = .ok events ∧ ¬ Lossless events :=
  ⟨_, rfl, by decide +kernel⟩

end DeepseekX.ChatCompletionsStream
