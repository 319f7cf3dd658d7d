import DeepseekX.HiddenTags
import DeepseekX.TaggedLineReference

/-!
# Proposed plans

Plans are blocks between the lines `<proposed_plan>` and `</proposed_plan>`. The text without
its plans consists of the lines outside of all blocks, and the plan of a text is that of its
last block.
-/

namespace DeepseekX.ProposedPlans
open HiddenTags TaggedLines List

inductive PlanTag where
  | proposedPlan
  deriving DecidableEq

def planSpec : TagSpec PlanTag where
  openTag := "<proposed_plan>".toList
  close := "</proposed_plan>".toList
  tag := .proposedPlan

inductive ProposedPlanSegment where
  | normal (text : List Char)
  | proposedPlanStart
  | proposedPlanDelta (text : List Char)
  | proposedPlanEnd
  deriving DecidableEq

def newParser : TaggedLineParser PlanTag := .new [planSpec]

def mapSegment : TaggedLineSegment PlanTag → ProposedPlanSegment
  | .normal text => .normal text
  | .tagStart .proposedPlan => .proposedPlanStart
  | .tagDelta .proposedPlan text => .proposedPlanDelta text
  | .tagEnd .proposedPlan => .proposedPlanEnd

def mapOne (out : StreamTextChunk ProposedPlanSegment) (segment : TaggedLineSegment PlanTag) :
    StreamTextChunk ProposedPlanSegment :=
  let mapped := mapSegment segment
  let visibleText :=
    match mapped with
    | .normal text => out.visibleText ++ text
    | _ => out.visibleText
  ⟨visibleText, out.extracted ++ [mapped]⟩

def mapSegments (segments : List (TaggedLineSegment PlanTag)) :
    StreamTextChunk ProposedPlanSegment :=
  segments.foldl mapOne .empty

def pushStr (parser : TaggedLineParser PlanTag) (chunk : List Char) :
    TaggedLineParser PlanTag × StreamTextChunk ProposedPlanSegment :=
  let (parser, segments) := parser.parse chunk
  (parser, mapSegments segments)

def finish (parser : TaggedLineParser PlanTag) : StreamTextChunk ProposedPlanSegment :=
  mapSegments parser.finish.2

variable (text : List Char)

def stripProposedPlanBlocks : List Char :=
  let (parser, out) := pushStr newParser text
  out.visibleText ++ (finish parser).visibleText

/-- Whether a block has been seen, and the text of the last one. -/
def planStep (seen : Bool × List Char) : ProposedPlanSegment → Bool × List Char
  | .proposedPlanStart => (true, [])
  | .proposedPlanDelta delta => (seen.1, seen.2 ++ delta)
  | .proposedPlanEnd => seen
  | .normal _ => seen

def extractProposedPlanText : Option (List Char) :=
  let (parser, out) := pushStr newParser text
  let (sawPlanBlock, planText) :=
    (out.extracted ++ (finish parser).extracted).foldl planStep (false, [])
  if sawPlanBlock then some planText else none

section Lines

def showStep (visible : List Char) : TaggedLineSegment PlanTag → List Char
  | .normal text => visible ++ text
  | _ => visible

theorem showStep_textual : Textual showStep := by
  refine ⟨fun visible active => ?_, fun visible active first next => ?_⟩
  · cases active <;> simp [showStep, textSegment]
  · cases active <;> simp [showStep, textSegment]

theorem mapSegment_textual : Textual fun seen segment => planStep seen (mapSegment segment) := by
  refine ⟨fun seen active => ?_, fun seen active first next => ?_⟩
  · rcases active with - | ⟨⟨⟩⟩ <;> simp [planStep, mapSegment, textSegment]
  · rcases active with - | ⟨⟨⟩⟩ <;> simp [planStep, mapSegment, textSegment]

variable (segments : List (TaggedLineSegment PlanTag))

theorem foldl_mapOne (out : StreamTextChunk ProposedPlanSegment) :
    segments.foldl mapOne out = ⟨segments.foldl showStep out.visibleText,
      out.extracted ++ segments.map mapSegment⟩ := by
  induction segments generalizing out with
  | nil => simp
  | cons segment segments ih =>
    rw [foldl_cons, ih]
    rcases segment with text | ⟨⟨⟩⟩ | ⟨⟨⟩, text⟩ | ⟨⟨⟩⟩ <;> simp [mapOne, mapSegment, showStep]

theorem mapSegments_eq :
    mapSegments segments = ⟨segments.foldl showStep [], segments.map mapSegment⟩ :=
  foldl_mapOne segments .empty

theorem foldl_showStep (visible : List Char) :
    segments.foldl showStep visible = visible ++ segments.foldl showStep [] := by
  induction segments generalizing visible with
  | nil => simp
  | cons segment segments ih =>
    rw [foldl_cons, foldl_cons, ih, ih (showStep [] segment)]
    cases segment <;> simp [showStep]

def planSegments (text : List Char) : List (TaggedLineSegment PlanTag) :=
  closedSegments [planSpec] none (lines text)

/-- A reading of the segments of the parser is one of the lines. -/
theorem foldl_parseAll {β : Type} {step : β → TaggedLineSegment PlanTag → β}
    (h : Textual step) (b : β) (deltas : List (List Char)) :
    (newParser.parseAll deltas).foldl step b = (planSegments deltas.flatten).foldl step b := by
  rw [← h.foldl_merge, newParser, merge_parseAll, reference, h.foldl_merge]
  rfl

theorem parseAll_singleton :
    newParser.parseAll [text] = (newParser.parse text).2 ++ (newParser.parse text).1.finish.2 := rfl

/-- The text without its plans consists of the lines outside of all blocks. -/
theorem stripProposedPlanBlocks_eq :
    stripProposedPlanBlocks text = (planSegments text).foldl showStep [] := by
  have hparse := foldl_parseAll showStep_textual [] [text]
  rw [flatten_singleton, parseAll_singleton, foldl_append, foldl_showStep] at hparse
  rw [← hparse, stripProposedPlanBlocks]
  dsimp only [pushStr, finish]
  rw [mapSegments_eq, mapSegments_eq]

/-- The plan of a text is that of its last block. -/
theorem extractProposedPlanText_eq :
    extractProposedPlanText text =
      let seen := ((planSegments text).map mapSegment).foldl planStep (false, [])
      if seen.1 then some seen.2 else none := by
  have hparse := foldl_parseAll mapSegment_textual (false, []) [text]
  rw [flatten_singleton, parseAll_singleton] at hparse
  rw [foldl_map, ← hparse, extractProposedPlanText]
  simp [pushStr, finish, mapSegments_eq, foldl_map]

theorem visible_parseAll (deltas : List (List Char)) :
    (newParser.parseAll deltas).foldl showStep [] = stripProposedPlanBlocks deltas.flatten := by
  rw [stripProposedPlanBlocks_eq, foldl_parseAll showStep_textual]

end Lines

end DeepseekX.ProposedPlans
