import DeepseekX.SeekSequence

/-!
# Tag blocks in streamed lines

A tag stands alone on its line. The parser buffers a line while it may still be a tag and
passes it on as text otherwise. Texts are lists of characters.
-/

namespace DeepseekX.TaggedLines
open SeekSequence (isWhitespace)

structure TagSpec (T : Type) where
  openTag : List Char
  close : List Char
  tag : T
  deriving DecidableEq

inductive TaggedLineSegment (T : Type) where
  | normal (text : List Char)
  | tagStart (tag : T)
  | tagDelta (tag : T) (text : List Char)
  | tagEnd (tag : T)
  deriving DecidableEq

section Segments
variable {T : Type} [DecidableEq T]

def pushSegment (segments : List (TaggedLineSegment T)) :
    TaggedLineSegment T → List (TaggedLineSegment T)
  | .normal delta =>
    if delta = [] then segments
    else
      match segments.getLast? with
      | some (.normal existing) => segments.dropLast ++ [.normal (existing ++ delta)]
      | _ => segments ++ [.normal delta]
  | .tagDelta tag delta =>
    if delta = [] then segments
    else
      match segments.getLast? with
      | some (.tagDelta existingTag existing) =>
        if existingTag = tag then segments.dropLast ++ [.tagDelta existingTag (existing ++ delta)]
        else segments ++ [.tagDelta tag delta]
      | _ => segments ++ [.tagDelta tag delta]
  | .tagStart tag => segments ++ [.tagStart tag]
  | .tagEnd tag => segments ++ [.tagEnd tag]

end Segments

def trimStart (text : List Char) : List Char := text.dropWhile isWhitespace

def trimEnd (text : List Char) : List Char := text.rdropWhile isWhitespace

def stripNewline (line : List Char) : List Char :=
  if line.getLast? = some '\n' then line.dropLast else line

structure TaggedLineParser (T : Type) where
  specs : List (TagSpec T)
  activeTag : Option T
  detectTag : Bool
  lineBuffer : List Char
  deriving DecidableEq

section Specs
variable {T : Type} (specs : List (TagSpec T)) (slug : List Char)

def matchOpen : Option T := (specs.find? fun spec => spec.openTag = slug).map TagSpec.tag

def matchClose : Option T := (specs.find? fun spec => spec.close = slug).map TagSpec.tag

def isTagPrefix : Bool :=
  specs.any fun spec =>
    (trimEnd slug).isPrefixOf spec.openTag || (trimEnd slug).isPrefixOf spec.close

end Specs

namespace TaggedLineParser
variable {T : Type} [DecidableEq T]

def new (specs : List (TagSpec T)) : TaggedLineParser T := ⟨specs, none, true, []⟩

variable (parser : TaggedLineParser T)

def pushText (text : List Char)
    (segments : List (TaggedLineSegment T)) : List (TaggedLineSegment T) :=
  match parser.activeTag with
  | some tag => pushSegment segments (.tagDelta tag text)
  | none => pushSegment segments (.normal text)

def finishLine (segments : List (TaggedLineSegment T)) :
    TaggedLineParser T × List (TaggedLineSegment T) :=
  let line := parser.lineBuffer
  let slug := trimEnd (trimStart (stripNewline line))
  let parser := { parser with lineBuffer := [], detectTag := true }
  match matchOpen parser.specs slug, parser.activeTag with
  | some tag, none => ({ parser with activeTag := some tag }, pushSegment segments (.tagStart tag))
  | _, _ =>
    match matchClose parser.specs slug with
    | some tag =>
      if parser.activeTag = some tag then
        ({ parser with activeTag := none }, pushSegment segments (.tagEnd tag))
      else (parser, parser.pushText line segments)
    | none => (parser, parser.pushText line segments)

structure ParseState (T : Type) where
  parser : TaggedLineParser T
  segments : List (TaggedLineSegment T)
  run : List Char

def parseChar (state : ParseState T) (ch : Char) : ParseState T :=
  let { parser, segments, run } := state
  if parser.detectTag then
    let segments := if run = [] then segments else parser.pushText run segments
    let parser := { parser with lineBuffer := parser.lineBuffer ++ [ch] }
    if ch = '\n' then
      let (parser, segments) := parser.finishLine segments
      ⟨parser, segments, []⟩
    else
      let slug := trimStart parser.lineBuffer
      if slug = [] ∨ isTagPrefix parser.specs slug then ⟨parser, segments, []⟩
      else
        let buffered := parser.lineBuffer
        let parser := { parser with lineBuffer := [], detectTag := false }
        ⟨parser, parser.pushText buffered segments, []⟩
  else if ch = '\n' then
    ⟨{ parser with detectTag := true }, parser.pushText (run ++ [ch]) segments, []⟩
  else ⟨parser, segments, run ++ [ch]⟩

def parse (delta : List Char) : TaggedLineParser T × List (TaggedLineSegment T) :=
  let { parser, segments, run } := delta.foldl parseChar ⟨parser, [], []⟩
  (parser, if run = [] then segments else parser.pushText run segments)

def finishBuffer : TaggedLineParser T × List (TaggedLineSegment T) :=
  if parser.lineBuffer = [] then (parser, [])
  else parser.finishLine []

def finish : TaggedLineParser T × List (TaggedLineSegment T) :=
  let (parser, segments) := parser.finishBuffer
  let rested := { parser with activeTag := none, detectTag := true }
  match parser.activeTag with
  | some tag => (rested, pushSegment segments (.tagEnd tag))
  | none => (rested, segments)

/-- All segments of a text that is parsed in pieces, and finished. -/
def parseAll : TaggedLineParser T → List (List Char) → List (TaggedLineSegment T)
  | parser, [] => parser.finish.2
  | parser, delta :: deltas =>
    let (parser, segments) := parser.parse delta
    segments ++ parser.parseAll deltas

end TaggedLineParser

end DeepseekX.TaggedLines
