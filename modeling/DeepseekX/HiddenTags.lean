import Mathlib.Data.Prod.Lex
import Mathlib.Data.List.MinMax
import DeepseekX.ByteSlices

/-!
# Parsing hidden inline tags

Text arrives in pieces. What stands between an opening and a closing delimiter is taken out
of the visible text and reported with its tag. The parser keeps what may be the begin of a
delimiter until more of the text has come. Where the code slices a string at a byte offset that
is no character boundary it panics; a panic is `none` here.
-/

namespace DeepseekX.HiddenTags
open ByteSlices
open String (utf8Len)

structure ExtractedInlineTag (T : Type) where
  tag : T
  content : List Char
  deriving DecidableEq

structure InlineTagSpec (T : Type) where
  tag : T
  opener : List Char
  close : List Char
  deriving DecidableEq

structure ActiveTag (T : Type) where
  tag : T
  close : List Char
  content : List Char
  deriving DecidableEq

structure StreamTextChunk (E : Type) where
  visibleText : List Char
  extracted : List E
  deriving DecidableEq

variable {T : Type}

namespace StreamTextChunk
variable {E : Type}

def empty : StreamTextChunk E := ⟨[], []⟩

def append (first next : StreamTextChunk E) : StreamTextChunk E :=
  ⟨first.visibleText ++ next.visibleText, first.extracted ++ next.extracted⟩

@[simp] theorem empty_append (chunk : StreamTextChunk E) : empty.append chunk = chunk := rfl

theorem append_assoc (first next last : StreamTextChunk E) :
    (first.append next).append last = first.append (next.append last) := by
  simp [append]

end StreamTextChunk

abbrev InlineTagChunk (T : Type) := StreamTextChunk (ExtractedInlineTag T)

structure InlineHiddenTagParser (T : Type) where
  specs : List (InlineTagSpec T)
  pending : List Char
  active : Option (ActiveTag T)
  deriving DecidableEq

def checkSpec (spec : InlineTagSpec T) : Except String Unit :=
  if spec.opener = [] then
    .error "InlineHiddenTagParser requires non-empty open delimiters"
  else if spec.close = [] then
    .error "InlineHiddenTagParser requires non-empty close delimiters"
  else .ok ()

def InlineHiddenTagParser.new (specs : List (InlineTagSpec T)) :
    Except String (InlineHiddenTagParser T) :=
  if specs = [] then .error "InlineHiddenTagParser requires at least one tag spec"
  else do
    specs.forM checkSpec
    return ⟨specs, [], none⟩

def longestSuffixPrefixLen (s needle : List Char) : ℕ :=
  let max := min (utf8Len s) (utf8Len needle - 1)
  ((List.range' 1 max).reverse.find? fun k =>
    match splitAtByte needle k with
    | none => false
    | some (head, _) => head.isSuffixOf s).getD 0

namespace InlineHiddenTagParser

variable (parser : InlineHiddenTagParser T)

/-- The byte offset, the length and the number of the first occurrence of each opener. -/
def openCandidates : List (ℕ × ℕ × ℕ) :=
  parser.specs.zipIdx.filterMap fun (spec, idx) =>
    (find spec.opener parser.pending).map fun pos => (pos, utf8Len spec.opener, idx)

def findNextOpen : Option (ℕ × ℕ) :=
  (parser.openCandidates.argmin fun (pos, len, idx) =>
    toLex (pos, toLex (OrderDual.toDual len, idx))).map fun (pos, _, idx) => (pos, idx)

def maxOpenPrefixSuffixLen : ℕ :=
  ((parser.specs.map fun spec => longestSuffixPrefixLen parser.pending spec.opener).max?).getD 0

/-- One pass of the loop of `push_str`: it goes on or stops, with the parser and the output. -/
inductive Pass (T : Type) where
  | again (parser : InlineHiddenTagParser T) (out : InlineTagChunk T)
  | stop (parser : InlineHiddenTagParser T) (out : InlineTagChunk T)

def drainVisibleToSuffixMatch (keepSuffixLen : ℕ) : Option (Pass T) :=
  let take := utf8Len parser.pending - keepSuffixLen
  if take = 0 then some (.stop parser .empty)
  else
    match splitAtByte parser.pending take with
    | none => none
    | some (head, rest) => some (.stop { parser with pending := rest } ⟨head, []⟩)

def passActive (active : ActiveTag T) : Option (Pass T) :=
  match find active.close parser.pending with
  | some closeIdx =>
    match splitAtByte parser.pending closeIdx,
      splitAtByte parser.pending (closeIdx + utf8Len active.close) with
    | some (head, _), some (_, rest) =>
      some (.again { parser with pending := rest, active := none }
        ⟨[], [⟨active.tag, active.content ++ head⟩]⟩)
    | _, _ => none
  | none =>
    let keep := longestSuffixPrefixLen parser.pending active.close
    let take := utf8Len parser.pending - keep
    if 0 < take then
      match splitAtByte parser.pending take with
      | none => none
      | some (head, rest) =>
        let active := { active with content := active.content ++ head }
        some (.stop { parser with pending := rest, active := some active } .empty)
    else some (.stop parser .empty)

def passInactive : Option (Pass T) :=
  match parser.findNextOpen with
  | some (openIdx, specIdx) =>
    match parser.specs[specIdx]? with
    | none => none
    | some spec =>
      match splitAtByte parser.pending openIdx,
        splitAtByte parser.pending (openIdx + utf8Len spec.opener) with
      | some (head, _), some (_, rest) =>
        some (.again { parser with pending := rest, active := some ⟨spec.tag, spec.close, []⟩ }
          ⟨head, []⟩)
      | _, _ => none
  | none => parser.drainVisibleToSuffixMatch parser.maxOpenPrefixSuffixLen

def pass : Option (Pass T) :=
  match parser.active with
  | some active => parser.passActive active
  | none => parser.passInactive

/-- The loop of `push_str`, with a bound on its passes. -/
def pushLoop : ℕ → InlineHiddenTagParser T → Option (InlineHiddenTagParser T × InlineTagChunk T)
  | 0, _ => none
  | bound + 1, parser =>
    match parser.pass with
    | none => none
    | some (.stop parser out) => some (parser, out)
    | some (.again parser out) =>
      (pushLoop bound parser).map fun (parser, rest) => (parser, out.append rest)

/-- Each pass that goes on takes a delimiter away, so that there are at most as many as there
are characters. -/
def pushStr (chunk : List Char) : Option (InlineHiddenTagParser T × InlineTagChunk T) :=
  pushLoop (parser.pending.length + chunk.length + 1)
    { parser with pending := parser.pending ++ chunk }

def finish : InlineHiddenTagParser T × InlineTagChunk T :=
  let rested := { parser with pending := [], active := none }
  match parser.active with
  | some active => (rested, ⟨[], [⟨active.tag, active.content ++ parser.pending⟩]⟩)
  | none => (rested, ⟨parser.pending, []⟩)

def collectChunks : InlineHiddenTagParser T → List (List Char) → Option (InlineTagChunk T)
  | parser, [] => some parser.finish.2
  | parser, chunk :: chunks =>
    match parser.pushStr chunk with
    | none => none
    | some (parser, out) => (collectChunks parser chunks).map out.append

end InlineHiddenTagParser

end DeepseekX.HiddenTags
