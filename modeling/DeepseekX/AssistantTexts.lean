import DeepseekX.HiddenTagChunks
import DeepseekX.ProposedPlans

/-!
# Streamed assistant text

The text of the assistant passes two parsers. The first one takes the citations out, and in plan
mode the second one takes the plans out of what the first one shows. Whatever pieces the text
comes in, the result is that of the two parsers for whole texts.
-/

namespace DeepseekX.AssistantTexts
open HiddenTags ProposedPlans TaggedLines List

inductive CitationTag where
  | citation
  deriving DecidableEq

def citationSpec : InlineTagSpec CitationTag where
  tag := .citation
  opener := "<oai-mem-citation>".toList
  close := "</oai-mem-citation>".toList

def newCitations : InlineHiddenTagParser CitationTag := ⟨[citationSpec], [], none⟩

def contents (inner : InlineTagChunk CitationTag) : StreamTextChunk (List Char) :=
  ⟨inner.visibleText, inner.extracted.map ExtractedInlineTag.content⟩

variable (citations : InlineHiddenTagParser CitationTag)

def pushCitations (chunk : List Char) :
    Option (InlineHiddenTagParser CitationTag × StreamTextChunk (List Char)) :=
  (citations.pushStr chunk).map fun (citations, inner) => (citations, contents inner)

def finishCitations : StreamTextChunk (List Char) :=
  contents citations.finish.2

def stripCitations (text : List Char) : Option (List Char × List (List Char)) := do
  let (citations, out) ← pushCitations newCitations text
  let tail := finishCitations citations
  return (out.visibleText ++ tail.visibleText, out.extracted ++ tail.extracted)

structure AssistantTextChunk where
  visibleText : List Char
  citations : List (List Char)
  planSegments : List ProposedPlanSegment
  deriving DecidableEq

structure AssistantTextStreamParser where
  planMode : Bool
  citations : InlineHiddenTagParser CitationTag
  plan : TaggedLineParser PlanTag

def AssistantTextChunk.append (first next : AssistantTextChunk) : AssistantTextChunk :=
  ⟨first.visibleText ++ next.visibleText, first.citations ++ next.citations,
    first.planSegments ++ next.planSegments⟩

namespace AssistantTextStreamParser

def new (planMode : Bool) : AssistantTextStreamParser := ⟨planMode, newCitations, newParser⟩

variable (parser : AssistantTextStreamParser)

def parseVisibleText (visibleText : List Char) : AssistantTextStreamParser × AssistantTextChunk :=
  if !parser.planMode then (parser, ⟨visibleText, [], []⟩)
  else
    let (plan, planChunk) := ProposedPlans.pushStr parser.plan visibleText
    ({ parser with plan }, ⟨planChunk.visibleText, [], planChunk.extracted⟩)

def pushStr (chunk : List Char) : Option (AssistantTextStreamParser × AssistantTextChunk) := do
  let (citations, citationChunk) ← pushCitations parser.citations chunk
  let (parser, out) := { parser with citations }.parseVisibleText citationChunk.visibleText
  return (parser, { out with citations := citationChunk.extracted })

def finish : AssistantTextChunk :=
  let citationChunk := finishCitations parser.citations
  let (parser, out) := parser.parseVisibleText citationChunk.visibleText
  let tail := if parser.planMode then ProposedPlans.finish parser.plan else .empty
  let out :=
    if tail = .empty then out
    else ⟨out.visibleText ++ tail.visibleText, [], out.planSegments ++ tail.extracted⟩
  { out with citations := citationChunk.extracted }

/-- All the output for a text pushed in pieces. -/
def collectChunks : AssistantTextStreamParser → List (List Char) → Option AssistantTextChunk
  | parser, [] => some parser.finish
  | parser, chunk :: chunks => do
    let (parser, out) ← parser.pushStr chunk
    return out.append (← collectChunks parser chunks)

/-- What the second parser makes of the pieces that the first one shows. -/
def parsed (planMode : Bool) (plan : TaggedLineParser PlanTag) (deltas : List (List Char))
    (citations : List (List Char)) : AssistantTextChunk :=
  if planMode then
    ⟨(plan.parseAll deltas).foldl showStep [], citations, (plan.parseAll deltas).map mapSegment⟩
  else ⟨deltas.flatten, citations, []⟩

variable {citations : InlineHiddenTagParser CitationTag} {read : InlineTagChunk CitationTag}

theorem exists_push {chunk : List Char} {chunks : List (List Char)}
    (h : citations.collectChunks (chunk :: chunks) = some read) :
    ∃ after out rest, pushCitations citations chunk = some (after, contents out) ∧
      after.collectChunks chunks = some rest ∧ read = out.append rest := by
  rw [InlineHiddenTagParser.collectChunks] at h
  rw [pushCitations]
  cases hpush : citations.pushStr chunk with
  | none =>
    rw [hpush] at h
    cases h
  | some result =>
    rw [hpush] at h
    obtain ⟨rest, hrest, rfl⟩ := Option.map_eq_some_iff.mp h
    exact ⟨result.1, result.2, rest, rfl, hrest, rfl⟩

theorem stripCitations_eq {text : List Char} (h : newCitations.collectChunks [text] = some read) :
    stripCitations text = some (read.visibleText, (contents read).extracted) := by
  obtain ⟨after, out, rest, hpush, hrest, rfl⟩ := exists_push h
  cases hrest
  simp [stripCitations, hpush, contents, finishCitations, StreamTextChunk.append]

/-- The second parser reads what the first one shows, in some pieces. -/
theorem exists_parsed {planMode : Bool} {plan : TaggedLineParser PlanTag}
    {chunks : List (List Char)} (h : citations.collectChunks chunks = some read) :
    ∃ deltas, deltas.flatten = read.visibleText ∧ collectChunks ⟨planMode, citations, plan⟩ chunks =
      some (parsed planMode plan deltas (contents read).extracted) := by
  have hshown := fun first next => foldl_showStep next (foldl showStep [] first)
  induction chunks generalizing citations plan read with
  | nil =>
    cases h
    refine ⟨[citations.finish.2.visibleText], flatten_singleton, congrArg some ?_⟩
    cases planMode
    · simp [finish, parseVisibleText, finishCitations, contents, parsed]
    · simp only [finish, parseVisibleText, Bool.not_true, Bool.false_eq_true, if_false, if_true,
        ProposedPlans.pushStr, finishCitations, contents, mapSegments_eq, ProposedPlans.finish,
        parsed, TaggedLineParser.parseAll, foldl_append, map_append]
      split <;> simp_all [StreamTextChunk.empty]
  | cons chunk chunks ih =>
    obtain ⟨after, out, rest, hpush, hrest, rfl⟩ := exists_push h
    obtain ⟨deltas, hdeltas, hcollect⟩ :=
      @ih after rest (parseVisibleText ⟨planMode, after, plan⟩ out.visibleText).1.plan hrest
    refine ⟨out.visibleText :: deltas, by simp [hdeltas, StreamTextChunk.append], ?_⟩
    cases planMode <;>
      simp_all [collectChunks, pushStr, parseVisibleText, parsed, AssistantTextChunk.append,
        contents, StreamTextChunk.append, mapSegments_eq, ProposedPlans.pushStr,
        TaggedLineParser.parseAll]

/-- Streamed in any pieces, a text gives what the parsers for whole texts give, one after the
other. -/
theorem streamed_text_as_whole (planMode : Bool) (chunks : List (List Char)) :
    ∃ out visible, collectChunks (.new planMode) chunks = some out ∧
      stripCitations chunks.flatten = some (visible, out.citations) ∧
      if planMode then
        out.visibleText = stripProposedPlanBlocks visible ∧
        extractProposedPlanText visible =
          let seen := out.planSegments.foldl planStep (false, [])
          if seen.1 then some seen.2 else none
      else out.visibleText = visible ∧ out.planSegments = [] := by
  obtain ⟨-, haccepted⟩ := InlineHiddenTagParser.new_eq_ok
    (show InlineHiddenTagParser.new [citationSpec] = .ok newCitations from rfl)
  have hsep : Delimiters.Separable (openers [citationSpec]) :=
    Delimiters.separable_singleton (haccepted.specs _ mem_cons_self).1
  obtain ⟨read, hread, hwhole⟩ := InlineHiddenTagParser.exists_collectChunks haccepted hsep chunks
  obtain ⟨deltas, hdeltas, hcollect⟩ := @exists_parsed newCitations _ planMode newParser _ hread
  refine ⟨_, read.visibleText, hcollect, ?_, ?_⟩
  · rw [stripCitations_eq hwhole]
    cases planMode <;> rfl
  · cases planMode with
    | false => exact ⟨hdeltas, rfl⟩
    | true =>
      have hplan := foldl_parseAll mapSegment_textual (false, []) deltas
      rw [if_pos rfl, ← hdeltas, ← visible_parseAll, extractProposedPlanText_eq, foldl_map, ← hplan]
      exact ⟨rfl, by rw [parsed, if_pos rfl, foldl_map]⟩

end AssistantTextStreamParser

end DeepseekX.AssistantTexts
