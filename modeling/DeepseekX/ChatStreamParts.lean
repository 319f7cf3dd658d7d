import DeepseekX.ChatCompletionsStream

/-!
# The parts of a stream

The choices of a chunk contribute non-empty reasoning texts, non-empty contents and
lists of tool call fragments. Processing a stream is a run over its parts, and every
property of the stream is an invariant of single parts.
-/

namespace DeepseekX.ChatCompletionsStream
open ResponseItems Transducers OrderedMaps

inductive Part where
  | reasoning (text : String) (nonempty : text ≠ "")
  | content (text : String) (nonempty : text ≠ "")
  | toolCalls (deltas : List ChatToolCallDelta)

namespace Part

def reasons : Part → Bool
  | reasoning _ _ => true
  | _ => false

def answers : Part → Bool
  | content _ _ => true
  | _ => false

/-- Content and tool calls, even an empty list of them, close the reasoning before them. -/
def closes : Part → Bool
  | reasoning _ _ => false
  | _ => true

def ofReasoning : Option String → List Part
  | some text => if h : text = "" then [] else [.reasoning text h]
  | none => []

def ofContent : Option String → List Part
  | some text => if h : text = "" then [] else [.content text h]
  | none => []

end Part

def choiceParts (choice : ChatCompletionChunkChoice) : List Part :=
  if choice.index ≠ 0 then []
  else Part.ofReasoning choice.delta.reasoningContent ++ Part.ofContent choice.delta.content ++
    (choice.delta.toolCalls.map Part.toolCalls).toList

def chunkParts (chunk : ChatCompletionChunk) : List Part := chunk.choices.flatMap choiceParts

def streamParts (chunks : List ChatCompletionChunk) : List Part := chunks.flatMap chunkParts

namespace ChatCompletionsStreamState
variable (codec : JsonCodec)

def processPart (s : ChatCompletionsStreamState) :
    Part → Except ChunkFailure (ChatCompletionsStreamState × List ResponseEvent)
  | .reasoning text _ => .ok (s.processReasoning text)
  | .content text _ => .ok (s.processContent text)
  | .toolCalls deltas => s.processToolCalls codec deltas

variable {codec}
variable (s : ChatCompletionsStreamState)

theorem run_ofReasoning (reasoning : Option String) :
    run (processPart codec) s (Part.ofReasoning reasoning) =
      .ok (processText s.processReasoning s reasoning) := by
  cases reasoning with
  | none => rfl
  | some text =>
    by_cases h : text = ""
    · simp [Part.ofReasoning, processText, h]
    · simp [Part.ofReasoning, processText, h, run, processPart]

theorem run_ofContent (content : Option String) :
    run (processPart codec) s (Part.ofContent content) =
      .ok (processText s.processContent s content) := by
  cases content with
  | none => rfl
  | some text =>
    by_cases h : text = ""
    · simp [Part.ofContent, processText, h]
    · simp [Part.ofContent, processText, h, run, processPart]

theorem processChoice_eq_run (choice : ChatCompletionChunkChoice) :
    processChoice codec s choice = run (processPart codec) s (choiceParts choice) := by
  by_cases hindex : choice.index ≠ 0
  · simp [processChoice, choiceParts, hindex]
  · rw [processChoice, choiceParts, if_neg hindex, if_neg hindex, run_append, run_append,
      run_ofReasoning]
    rcases processText s.processReasoning s choice.delta.reasoningContent with ⟨a, reasoned⟩
    simp only [run_ofContent]
    rcases processText a.processContent a choice.delta.content with ⟨b, answered⟩
    cases choice.delta.toolCalls with
    | none => simp
    | some deltas =>
      rcases hc : b.processToolCalls codec deltas with e | ⟨c, called⟩ <;>
        simp [run, processPart, hc]

variable {I : List Part → ChatCompletionsStreamState → List ResponseEvent → Prop}
  {chunks : List ChatCompletionChunk}
variable (hpart : ∀ parts s out part t new, I parts s out →
  processPart codec s part = .ok (t, new) → I (parts ++ [part]) t (out ++ new))
include hpart

variable (hnote : ∀ parts s out chunk, I parts s out → I parts (s.noteChunk chunk) out)
include hnote

/-- The rule for properties of streams: what is kept by every part, and does not depend on the
response id and the usage, holds when the chunks have been processed. -/
theorem run_processChunk_invariant
    {s t : ChatCompletionsStreamState} {out : List ResponseEvent} (hs : I [] s [])
    (h : run (processChunk codec) s chunks = .ok (t, out)) : I (streamParts chunks) t out := by
  have hrun : ∀ (seen : List ChatCompletionChunk) s out, I (streamParts seen) s out →
      ∀ t rest, run (processChunk codec) s chunks = .ok (t, rest) →
        I (streamParts (seen ++ chunks)) t (out ++ rest) := by
    intro seen s out hI t rest hr
    refine run_invariant (I := fun seen s out => I (streamParts seen) s out) ?_ seen hI hr
    intro seen s out chunk t new hI hc
    have hchoices : I (streamParts seen ++ chunk.choices.flatMap choiceParts) t (out ++ new) := by
      refine run_invariant
        (I := fun choices s out => I (streamParts seen ++ choices.flatMap choiceParts) s out) ?_
        [] (by simpa using hnote _ _ _ chunk hI) hc
      intro choices s out choice t new hI hchoice
      rw [processChoice_eq_run] at hchoice
      have hparts := run_invariant
        (I := fun parts s out => I (streamParts seen ++ choices.flatMap choiceParts ++ parts) s out)
        (fun parts s out part t new hI hp => by simpa using hpart _ _ _ _ _ _ hI hp)
        [] (by simpa using hI) hchoice
      simpa using hparts
    simpa [streamParts, chunkParts] using hchoices
  simpa using hrun [] s [] (by simpa [streamParts] using hs) t out h

theorem streamEvents_invariant
    (hstart : I [] .default []) {events : List ResponseEvent}
    (h : streamEvents codec chunks = .ok events) :
    ∃ s out, I (streamParts chunks) s out ∧ events = out ++ (s.processDone codec).2 := by
  unfold streamEvents at h
  rcases hr : run (processChunk codec) .default chunks with e | ⟨s, out⟩
  · simp [hr] at h
  · simp only [hr, Except.ok.injEq] at h
    exact ⟨s, out, run_processChunk_invariant hpart hnote hstart hr, h.symm⟩

end ChatCompletionsStreamState

def aboutToolCall : ResponseEvent → Bool
  | .outputItemAdded (.customToolCall ..) | .toolCallInputDelta .. => true
  | _ => false

section Frame
variable {codec : JsonCodec}

theorem ToolCallState.announce_events (index : ℕ) (state : ToolCallState) :
    ∀ e ∈ (state.announce index).2, aboutToolCall e = true := by
  unfold announce
  split_ifs <;> simp [aboutToolCall]

variable {state state' : ToolCallState} {events : List ResponseEvent}

theorem ToolCallState.appendArguments_events {index : ℕ} {arguments : String}
    (h : state.appendArguments codec index arguments = .ok (state', events)) :
    ∀ e ∈ events, aboutToolCall e = true := by
  simp only [appendArguments] at h
  split at h
  · cases h
  · obtain ⟨-, rfl⟩ := h
    split_ifs <;> simp [aboutToolCall]

theorem ToolCallState.applyDelta_events {index : ℕ} {delta : ChatToolCallDelta}
    (h : state.applyDelta codec index delta = .ok (state', events)) :
    ∀ e ∈ events, aboutToolCall e = true := by
  simp only [applyDelta] at h
  cases hf : delta.function with
  | none =>
    simp only [hf] at h
    obtain ⟨-, rfl⟩ := h
    simp
  | some function =>
    simp only [hf] at h
    have hadded := ToolCallState.announce_events index
      { state with id := delta.id.or state.id, name := function.name.or state.name }
    cases ha : function.arguments with
    | none =>
      simp only [ha] at h
      obtain ⟨-, rfl⟩ := h
      exact hadded
    | some arguments =>
      simp only [ha] at h
      split at h
      · cases h
      · rename_i hstreamed
        obtain ⟨-, rfl⟩ := h
        intro e he
        rcases List.mem_append.mp he with he | he
        · exact hadded e he
        · exact ToolCallState.appendArguments_events hstreamed e he

namespace ChatCompletionsStreamState

variable {s t : ChatCompletionsStreamState} {events : List ResponseEvent}

theorem processToolCallDelta_frame {delta : ChatToolCallDelta}
    (h : processToolCallDelta codec s delta = .ok (t, events)) :
    (∃ toolCalls, t = { s with toolCalls := toolCalls }) ∧
      ∀ e ∈ events, aboutToolCall e = true := by
  unfold processToolCallDelta at h
  split at h
  · cases h
  · split at h
    · cases h
    · rename_i happlied
      obtain ⟨rfl, rfl⟩ := h
      exact ⟨⟨_, rfl⟩, ToolCallState.applyDelta_events happlied⟩

/-- Tool call fragments change the tool calls and emit events about them, apart from closing the
reasoning. -/
theorem processToolCalls_frame {deltas : List ChatToolCallDelta}
    (h : processToolCalls codec s deltas = .ok (t, events)) :
    ∃ toolCalls called, t = { s.finishReasoning.1 with toolCalls := toolCalls } ∧
      events = s.finishReasoning.2 ++ called ∧ ∀ e ∈ called, aboutToolCall e = true := by
  unfold processToolCalls at h
  rcases hf : s.finishReasoning with ⟨u, finished⟩
  simp only [hf] at h ⊢
  rcases hr : run (processToolCallDelta codec) u deltas with e | ⟨v, called⟩
  · simp [hr] at h
  · simp only [hr] at h
    obtain ⟨rfl, rfl⟩ := h
    have hframe := run_invariant
      (I := fun (_ : List ChatToolCallDelta) t out =>
        (∃ toolCalls, t = { u with toolCalls := toolCalls }) ∧ ∀ e ∈ out, aboutToolCall e = true)
      (fun _ s out delta t new hI hd => by
        obtain ⟨⟨toolCalls, rfl⟩, hout⟩ := hI
        obtain ⟨⟨toolCalls', rfl⟩, hnew⟩ := processToolCallDelta_frame hd
        exact ⟨⟨toolCalls', rfl⟩, List.forall_mem_append.mpr ⟨hout, hnew⟩⟩)
      [] (⟨⟨u.toolCalls, rfl⟩, List.forall_mem_nil _⟩) hr
    obtain ⟨⟨toolCalls, rfl⟩, hcalled⟩ := hframe
    exact ⟨toolCalls, called, rfl, rfl, by simpa using hcalled⟩

end ChatCompletionsStreamState
end Frame
end DeepseekX.ChatCompletionsStream
