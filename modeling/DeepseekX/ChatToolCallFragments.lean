import DeepseekX.ChatStreamParts

/-!
# The tool calls of a stream

The fragments of tool calls are collected by their index, whatever else is streamed. A
patch is never cut off a character boundary, so that every fragment with an index is
accepted, and the fragments of calls with increasing indices add up to these calls.
-/

namespace DeepseekX.ChatCompletionsStream
open ResponseItems Transducers OrderedMaps ChatCompletionsStreamState List

def ChatToolCallDelta.name (delta : ChatToolCallDelta) : Option String :=
  delta.function.bind (·.name)

def ChatToolCallDelta.argumentText (delta : ChatToolCallDelta) : String :=
  (delta.function.bind (·.arguments)).getD ""

section Fragment
variable {codec : JsonCodec}

/-- What has been streamed of a patch is nothing, or the input of an object that the arguments
begin with. -/
def StreamedInput (codec : JsonCodec) (arguments : String) (streamedInputLen : ℕ) : Prop :=
  streamedInputLen = 0 ∨ ∃ written later value input, arguments = written ++ later ∧
    codec.fromStr written = some value ∧
    codec.textField applyPatchInputField value = some input ∧
    streamedInputLen = input.utf8ByteSize

variable {arguments : String} {len : ℕ}

section
variable (h : StreamedInput codec arguments len)
include h

theorem StreamedInput.append (more : String) :
    StreamedInput codec (arguments ++ more) len := by
  rcases h with h | ⟨written, later, value, input, rfl, hvalue, hinput, hlen⟩
  · exact Or.inl h
  · exact Or.inr ⟨written, later ++ more, value, input, String.append_assoc, hvalue, hinput, hlen⟩

/-- Once an object has been read, more arguments do not change its input. -/
theorem StreamedInput.le_of_applyPatchInput {more input : String} (hlen : len ≠ 0)
    (hinput : applyPatchInput codec (arguments ++ more) = some input) :
    input.utf8ByteSize ≤ len := by
  rcases h with h | ⟨written, later, value, input', rfl, hvalue, hinput', rfl⟩
  · exact absurd h hlen
  · obtain ⟨value', hvalue', hread⟩ := Option.bind_eq_some_iff.mp hinput
    rw [String.append_assoc] at hvalue'
    obtain rfl := codec.fromStr_append written (later ++ more) value value' applyPatchInputField
      hvalue (by rw [hinput']; rfl) hvalue'
    rw [hread] at hinput'
    rw [Option.some.inj hinput']

theorem applyPatchDelta_ok (more : String) :
    ∃ delta len', applyPatchDelta codec (arguments ++ more) len = .ok (delta, len') ∧
      StreamedInput codec (arguments ++ more) len' := by
  unfold applyPatchDelta
  cases hinput : applyPatchInput codec (arguments ++ more) with
  | none => exact ⟨"", len, rfl, h.append more⟩
  | some input =>
    by_cases hle : input.utf8ByteSize ≤ len
    · exact ⟨"", len, by simp [hle], h.append more⟩
    · have hlen : len = 0 := by
        by_contra hne
        exact hle (h.le_of_applyPatchInput hne hinput)
      subst hlen
      obtain ⟨value, hvalue, hread⟩ := Option.bind_eq_some_iff.mp hinput
      refine ⟨String.ofList input.toList, input.utf8ByteSize, by simp [hle, byteSlice], ?_⟩
      exact Or.inr ⟨arguments ++ more, "", value, input, String.append_empty.symm, hvalue, hread,
        rfl⟩

end

/-- The state of a tool call of which so much has been received. -/
structure ToolCallState.Received (codec : JsonCodec) (id name : Option String) (arguments : String)
    (state : ToolCallState) : Prop where
  id_eq : state.id = id
  name_eq : state.name = name
  arguments_eq : state.arguments = arguments
  streamed : StreamedInput codec arguments state.streamedInputLen

namespace ToolCallState

theorem received_default (codec : JsonCodec) : Received codec none none "" .default :=
  ⟨rfl, rfl, rfl, Or.inl rfl⟩

variable {id name : Option String} {arguments : String} {state : ToolCallState}
variable (h : Received codec id name arguments state)
include h

theorem Received.announce (index : ℕ) :
    Received codec id name arguments (state.announce index).1 := by
  unfold ToolCallState.announce
  split_ifs
  · exact ⟨h.id_eq, h.name_eq, h.arguments_eq, h.streamed⟩
  · exact h

theorem Received.appendArguments (index : ℕ)
    (more : String) :
    ∃ next events, state.appendArguments codec index more = .ok (next, events) ∧
      Received codec id name (arguments ++ more) next := by
  obtain ⟨rfl, rfl, rfl, hstreamed⟩ := h
  unfold ToolCallState.appendArguments
  by_cases hpatch : state.name = some applyPatchToolName
  · obtain ⟨delta, len, hdelta, hlen⟩ := applyPatchDelta_ok hstreamed more
    simp only [hpatch, hdelta]
    exact ⟨_, _, rfl, rfl, rfl, rfl, hlen⟩
  · simp only [hpatch]
    exact ⟨_, _, rfl, rfl, rfl, rfl, hstreamed.append more⟩

theorem Received.applyDelta (index : ℕ)
    (delta : ChatToolCallDelta) :
    ∃ next events, state.applyDelta codec index delta = .ok (next, events) ∧
      Received codec (delta.id.or id) (delta.name.or name) (arguments ++ delta.argumentText)
        next := by
  unfold ToolCallState.applyDelta ChatToolCallDelta.name ChatToolCallDelta.argumentText
  cases hf : delta.function with
  | none =>
    refine ⟨_, _, rfl, ?_, h.name_eq, ?_, ?_⟩
    · rw [h.id_eq]
    · simpa using h.arguments_eq
    · simpa using h.streamed
  | some function =>
    have hnamed : Received codec (delta.id.or id) (function.name.or name) arguments
        { state with id := delta.id.or state.id, name := function.name.or state.name } :=
      ⟨by rw [h.id_eq], by rw [h.name_eq], h.arguments_eq, h.streamed⟩
    have hannounced := hnamed.announce index
    cases ha : function.arguments with
    | none =>
      simp only [ha]
      exact ⟨_, _, rfl, by simpa [ha] using hannounced⟩
    | some more =>
      obtain ⟨next, events, hnext, hreceived⟩ := hannounced.appendArguments index more
      simp only [ha, hnext]
      exact ⟨_, _, rfl, by simpa [ha] using hreceived⟩

end ToolCallState
end Fragment

open ChatCompletionsStreamState

def collectFragment (codec : JsonCodec) (toolCalls : OrderedMap ℕ ToolCallState)
    (delta : ChatToolCallDelta) :
    Except ChunkFailure (OrderedMap ℕ ToolCallState × List ResponseEvent) :=
  (processToolCallDelta codec { default with toolCalls := toolCalls }
    delta).map fun r => (r.1.toolCalls, r.2)

structure CompletionCall where
  index : ℕ
  id : String
  name : String
  arguments : String

/-- The fragments of a tool call: all of them have its index, the first has its id and name, and
the arguments add up. -/
structure CompletionCall.FragmentedAs (call : CompletionCall) (deltas : List ChatToolCallDelta) :
    Prop where
  index : ∀ delta ∈ deltas, delta.index = some call.index
  first : ∃ arguments later,
    deltas = ⟨some call.index, some call.id, some ⟨some call.name, arguments⟩⟩ :: later
  id : ∀ delta ∈ deltas, ∀ id ∈ delta.id, id = call.id
  name : ∀ delta ∈ deltas, ∀ name ∈ delta.name, name = call.name
  arguments : String.join (deltas.map ChatToolCallDelta.argumentText) = call.arguments

variable (s : ChatCompletionsStreamState)

section Collecting
variable {codec : JsonCodec} {toolCalls : OrderedMap ℕ ToolCallState}

theorem processToolCallDelta_eq (delta : ChatToolCallDelta) :
    processToolCallDelta codec s delta = (collectFragment codec s.toolCalls delta).map fun r =>
      ({ s with toolCalls := r.1 }, r.2) := by
  unfold collectFragment processToolCallDelta
  cases delta.index with
  | none => rfl
  | some index =>
    dsimp only
    rcases ((s.toolCalls.lookup index).getD .default).applyDelta codec index delta with e | r <;>
      rfl

variable {state : ToolCallState} {deltas : List ChatToolCallDelta}

theorem collectFragment_eq {delta : ChatToolCallDelta} {index : ℕ} {events : List ResponseEvent}
    (hindex : delta.index = some index)
    (h : ((toolCalls.lookup index).getD .default).applyDelta codec index delta =
      .ok (state, events)) :
    collectFragment codec toolCalls delta = .ok (toolCalls.insert index state, events) := by
  simp [collectFragment, processToolCallDelta, hindex, h]

theorem run_laterFragments (call : CompletionCall)
    (hcall : ∀ delta ∈ deltas, delta.index = some call.index ∧ (∀ id ∈ delta.id, id = call.id) ∧
      ∀ name ∈ delta.name, name = call.name)
    {entries : List (ℕ × ToolCallState)} {arguments : String}
    (hentries : toolCalls.entries = entries ++ [(call.index, state)])
    (hstate : state.Received codec (some call.id) (some call.name) arguments) :
    ∃ collected events last,
      run (collectFragment codec) toolCalls deltas = .ok (collected, events) ∧
      collected.entries = entries ++ [(call.index, last)] ∧
      last.Received codec (some call.id) (some call.name)
        (arguments ++ String.join (deltas.map ChatToolCallDelta.argumentText)) := by
  induction deltas generalizing toolCalls state arguments with
  | nil => exact ⟨toolCalls, [], state, rfl, hentries, by simpa [String.join] using hstate⟩
  | cons delta deltas ih =>
    obtain ⟨⟨hindex, hid, hname⟩, hlater⟩ := forall_mem_cons.mp hcall
    obtain ⟨next, first, hnext, hreceived⟩ := hstate.applyDelta call.index delta
    have hsame : ∀ (given : Option String) (text : String), (∀ x ∈ given, x = text) →
        given.or (some text) = some text := by
      intro given text h
      cases given with
      | none => rfl
      | some x => rw [h x rfl]; rfl
    rw [hsame _ _ hid, hsame _ _ hname] at hreceived
    have hstep : collectFragment codec toolCalls delta =
        .ok (toolCalls.insert call.index next, first) :=
      collectFragment_eq hindex (by rw [OrderedMap.lookup_last hentries]; exact hnext)
    obtain ⟨collected, events, last, hrun, hlast, hall⟩ := ih hlater
      (OrderedMap.entries_insert_last next hentries) hreceived
    refine ⟨collected, _, last, run_cons_eq_ok.mpr ⟨_, _, _, hstep, hrun, rfl⟩, hlast, ?_⟩
    simpa [String.append_assoc] using hall

variable (codec) in
/-- The fragments of a call with an index above all others add up to the call. -/
theorem run_fragments {call : CompletionCall} (h : call.FragmentedAs deltas)
    (hlt : ∀ e ∈ toolCalls.entries, e.1 < call.index) :
    ∃ collected events state,
      run (collectFragment codec) toolCalls deltas = .ok (collected, events) ∧
      collected.entries = toolCalls.entries ++ [(call.index, state)] ∧
      state.Received codec (some call.id) (some call.name) call.arguments := by
  obtain ⟨arguments, later, rfl⟩ := h.first
  obtain ⟨state, first, hstate, hreceived⟩ := (ToolCallState.received_default codec).applyDelta
    call.index ⟨some call.index, some call.id, some ⟨some call.name, arguments⟩⟩
  have hstep : collectFragment codec toolCalls
      ⟨some call.index, some call.id, some ⟨some call.name, arguments⟩⟩ =
        .ok (toolCalls.insert call.index state, first) :=
    collectFragment_eq rfl (by rw [OrderedMap.lookup_of_lt hlt]; exact hstate)
  obtain ⟨collected, events, last, hrun, hlast, hall⟩ := run_laterFragments call
    (fun delta hdelta => have hmem := mem_cons_of_mem _ hdelta
      ⟨h.index delta hmem, h.id delta hmem, h.name delta hmem⟩)
    (OrderedMap.entries_insert_of_lt state hlt) hreceived
  refine ⟨collected, _, last, run_cons_eq_ok.mpr ⟨_, _, _, hstep, hrun, rfl⟩, hlast, ?_⟩
  rw [← h.arguments]
  simpa using hall

variable (codec) in
/-- The fragments of calls with increasing indices add up to these calls, in their order. -/
theorem run_allFragments {calls : List CompletionCall} {fragments : List (List ChatToolCallDelta)}
    (h : List.Forall₂ CompletionCall.FragmentedAs calls fragments)
    (hincreasing : calls.Pairwise fun a b => a.index < b.index)
    (hlt : ∀ e ∈ toolCalls.entries, ∀ call ∈ calls, e.1 < call.index) :
    ∃ collected events states,
      run (collectFragment codec) toolCalls fragments.flatten = .ok (collected, events) ∧
      collected.values = toolCalls.values ++ states ∧
      List.Forall₂ (fun call state =>
        ToolCallState.Received codec (some call.id) (some call.name) call.arguments state)
          calls states := by
  induction h generalizing toolCalls with
  | nil => exact ⟨toolCalls, [], [], rfl, by simp, .nil⟩
  | @cons call deltas calls fragments hcall hcalls ih =>
    obtain ⟨hfirst, hincreasing⟩ := pairwise_cons.mp hincreasing
    obtain ⟨middle, events, state, hrun, hentries, hstate⟩ := run_fragments codec hcall
      fun e he => hlt e he call mem_cons_self
    have hmiddle : ∀ e ∈ middle.entries, ∀ other ∈ calls, e.1 < other.index := by
      intro e he other hother
      rw [hentries, mem_append, mem_singleton] at he
      rcases he with he | rfl
      · exact hlt e he other (mem_cons_of_mem _ hother)
      · exact hfirst other hother
    obtain ⟨collected, later, states, hlater, hvalues, hstates⟩ := ih hincreasing hmiddle
    refine ⟨collected, _, state :: states, run_append_eq_ok.mpr ⟨_, _, _, hrun, hlater, rfl⟩, ?_,
      .cons hstate hstates⟩
    rw [hvalues, OrderedMap.values, hentries]
    simp [OrderedMap.values]

end Collecting

def Part.deltas : Part → List ChatToolCallDelta
  | .toolCalls deltas => deltas
  | _ => []

section Streams
variable {codec : JsonCodec} {collected : OrderedMap ℕ ToolCallState}
  {events : List ResponseEvent}

theorem toolCalls_finishReasoning : s.finishReasoning.1.toolCalls = s.toolCalls := by
  unfold finishReasoning
  split_ifs <;> rfl

theorem toolCalls_processReasoning (text : String) :
    (s.processReasoning text).1.toolCalls = s.toolCalls := by
  unfold processReasoning ensureReasoningStarted
  split_ifs <;> rfl

theorem toolCalls_processContent (text : String) :
    (s.processContent text).1.toolCalls = s.toolCalls := by
  rw [← toolCalls_finishReasoning s]
  unfold processContent ensureMessageStarted
  dsimp only
  split_ifs <;> rfl

variable {s : ChatCompletionsStreamState}

theorem processPart_of_collect {part : Part}
    (h : run (collectFragment codec) s.toolCalls part.deltas = .ok (collected, events)) :
    ∃ t out, processPart codec s part = .ok (t, out) ∧ t.toolCalls = collected := by
  cases part with
  | reasoning text nonempty =>
    refine ⟨(s.processReasoning text).1, (s.processReasoning text).2, rfl, ?_⟩
    rw [toolCalls_processReasoning, ← (Prod.mk.inj (Except.ok.inj h)).1]
  | content text nonempty =>
    refine ⟨(s.processContent text).1, (s.processContent text).2, rfl, ?_⟩
    rw [toolCalls_processContent, ← (Prod.mk.inj (Except.ok.inj h)).1]
  | toolCalls deltas =>
    have hstep : ∀ s delta collected events,
        run (collectFragment codec) s.toolCalls [delta] = .ok (collected, events) →
          ∃ t out, processToolCallDelta codec s delta = .ok (t, out) ∧ t.toolCalls = collected := by
      intro s delta collected events h
      obtain ⟨next, first, rest, hnext, hrest, -⟩ := run_cons_eq_ok.mp h
      obtain ⟨rfl, -⟩ := Prod.mk.inj (Except.ok.inj hrest)
      exact ⟨_, _, by rw [processToolCallDelta_eq, hnext]; rfl, rfl⟩
    have hdeltas : run (collectFragment codec) s.finishReasoning.1.toolCalls
        (deltas.flatMap fun delta => [delta]) = .ok (collected, events) := by
      rw [toolCalls_finishReasoning, flatMap_singleton']
      exact h
    obtain ⟨t, out, ht, hcollected⟩ := run_of_view (processToolCallDelta codec)
      (collectFragment codec) toolCalls _ hstep hdeltas
    refine ⟨t, s.finishReasoning.2 ++ out, ?_, hcollected⟩
    rw [processPart, processToolCalls]
    simp only [ht]

/-- A stream is accepted if its fragments can be collected. -/
theorem run_processChunk_of_collect {chunks : List ChatCompletionChunk}
    (h : run (collectFragment codec) s.toolCalls ((streamParts chunks).flatMap Part.deltas) =
      .ok (collected, events)) :
    ∃ t out, run (processChunk codec) s chunks = .ok (t, out) ∧ t.toolCalls = collected := by
  rw [streamParts, flatMap_assoc] at h
  refine run_of_view (processChunk codec) (collectFragment codec)
    toolCalls _ (fun s chunk _ _ h => ?_) h
  rw [chunkParts, flatMap_assoc] at h
  have hchoices : run (collectFragment codec) (s.noteChunk chunk).toolCalls _ = _ := h
  refine run_of_view (processChoice codec) (collectFragment codec)
    toolCalls _ (fun s choice _ _ h => ?_) hchoices
  rw [processChoice_eq_run]
  exact run_of_view (processPart codec) (collectFragment codec)
    toolCalls _ (fun _ _ _ _ => processPart_of_collect) h

end Streams
end DeepseekX.ChatCompletionsStream
