import DeepseekX.LineSplitting
import DeepseekX.TaggedLines

/-!
# Tagged lines, line by line

The reference splits a text into its lines and decides for each line whether it is a tag. The
parser gives the same segments for every division of the text into pieces.
-/

namespace DeepseekX.TaggedLines
open SeekSequence (isWhitespace)
open List
open TaggedLineParser

variable {T : Type} [DecidableEq T]

section Reference

/-- The lines of a text with their line ends. -/
def lines : List Char → List (List Char)
  | [] => []
  | c :: text =>
    if c = '\n' then [c] :: lines text
    else
      match lines text with
      | [] => [[c]]
      | line :: rest => (c :: line) :: rest

def textSegment (active : Option T) (text : List Char) : TaggedLineSegment T :=
  match active with
  | some tag => .tagDelta tag text
  | none => .normal text

variable (specs : List (TagSpec T))

/-- The block behind a line, and what the line is: an open tag outside of a block, inside of one
its close tag if no other block listed before it has the same, or text. -/
def readLine (active : Option T) (line : List Char) : Option T × TaggedLineSegment T :=
  let content := trimEnd (trimStart line)
  match active with
  | none =>
    match specs.find? fun spec => spec.openTag = content with
    | some spec => (some spec.tag, .tagStart spec.tag)
    | none => (none, .normal line)
  | some tag =>
    if (specs.find? fun spec => spec.close = content).any (·.tag = tag) then (none, .tagEnd tag)
    else (some tag, .tagDelta tag line)

def classify : Option T → List (List Char) → List (List Char × TaggedLineSegment T)
  | _, [] => []
  | active, line :: rest =>
    (line, (readLine specs active line).2) :: classify (readLine specs active line).1 rest

def blockBehind : Option T → List (List Char) → Option T
  | active, [] => active
  | active, line :: rest => blockBehind (readLine specs active line).1 rest

def TaggedLineSegment.isEmptyText : TaggedLineSegment T → Bool
  | .normal text | .tagDelta _ text => text.isEmpty
  | _ => false

def TaggedLineSegment.join :
    TaggedLineSegment T → TaggedLineSegment T → Option (TaggedLineSegment T)
  | .normal text, .normal more => some (.normal (text ++ more))
  | .tagDelta tag text, .tagDelta other more =>
    if tag = other then some (.tagDelta tag (text ++ more)) else none
  | _, _ => none

def joinAll (first : TaggedLineSegment T) :
    List (TaggedLineSegment T) → List (TaggedLineSegment T)
  | [] => [first]
  | next :: rest =>
    match first.join next with
    | some joined => joinAll joined rest
    | none => first :: joinAll next rest

variable (segments : List (TaggedLineSegment T))

/-- Adjacent texts put together, without those that are empty. -/
def merge : List (TaggedLineSegment T) :=
  match segments.filter fun segment => !segment.isEmptyText with
  | [] => []
  | first :: rest => joinAll first rest

/-- The segments of the lines, with the end of a block that stays open. -/
def closedSegments (active : Option T) (lines : List (List Char)) : List (TaggedLineSegment T) :=
  (classify specs active lines).map Prod.snd ++
    (blockBehind specs active lines).toList.map TaggedLineSegment.tagEnd

def reference (text : List Char) : List (TaggedLineSegment T) :=
  merge (closedSegments specs none (lines text))

def TaggedLineSegment.isTag : TaggedLineSegment T → Bool
  | .tagStart _ => true
  | .tagEnd _ => true
  | .normal _ => false
  | .tagDelta _ _ => false

def tagLines (text : List Char) : List (List Char) :=
  ((classify specs none (lines text)).filter fun entry => entry.2.isTag).map Prod.fst

/-- The text so far and the tag lines to come. A tag takes the next tag line. -/
def reinsertStep (state : List Char × List (List Char)) :
    TaggedLineSegment T → List Char × List (List Char)
  | .normal text => (state.1 ++ text, state.2)
  | .tagDelta _ text => (state.1 ++ text, state.2)
  | .tagStart _ => (state.1 ++ state.2.headD [], state.2.tail)
  | .tagEnd _ => (state.1 ++ state.2.headD [], state.2.tail)

/-- The text with the tag lines in the places of the tags. -/
def reinsert (tags : List (List Char)) : List Char :=
  (segments.foldl reinsertStep ([], tags)).1

/-- The block behind a segment, if the segment may stand there. -/
def nextBlock : Option T → TaggedLineSegment T → Option (Option T)
  | none, .normal _ => some none
  | none, .tagStart tag => some (some tag)
  | some active, .tagDelta tag _ => if tag = active then some (some active) else none
  | some active, .tagEnd tag => if tag = active then some none else none
  | _, _ => none

/-- Each start of a block is followed by its end before the next one, and no block stays open. -/
def Alternates : Prop :=
  segments.foldlM nextBlock none = some none

end Reference

section Merging
variable {segments : List (TaggedLineSegment T)}

theorem pushSegment_text_nil (active : Option T) :
    pushSegment segments (textSegment active []) = segments := by
  cases active <;> rfl

theorem pushSegment_of_isEmptyText {segment : TaggedLineSegment T}
    (h : segment.isEmptyText = true) : pushSegment segments segment = segments := by
  cases segment <;> simp_all [pushSegment, TaggedLineSegment.isEmptyText]

theorem pushSegment_concat {last segment : TaggedLineSegment T} (h : segment.isEmptyText = false) :
    pushSegment (segments ++ [last]) segment = segments ++ match last.join segment with
      | some joined => [joined]
      | none => [last, segment] := by
  cases segment <;> cases last <;>
    simp_all [pushSegment, TaggedLineSegment.isEmptyText, TaggedLineSegment.join]
  split <;> simp_all

theorem foldl_pushSegment_concat (first : TaggedLineSegment T)
    (before rest : List (TaggedLineSegment T)) :
    rest.foldl pushSegment (before ++ [first]) =
      before ++ joinAll first (rest.filter fun segment => !segment.isEmptyText) := by
  induction rest generalizing first before with
  | nil => rfl
  | cons next rest ih =>
    rw [foldl_cons]
    cases hempty : next.isEmptyText with
    | true => rw [pushSegment_of_isEmptyText hempty, ih, filter_cons_of_neg (by simp [hempty])]
    | false =>
      rw [pushSegment_concat hempty, filter_cons_of_pos (by simp [hempty]), joinAll]
      cases first.join next with
      | some joined => exact ih joined before
      | none =>
        rw [append_cons, ih]
        simp

/-- The parser puts texts together one by one. -/
theorem merge_eq_foldl (segments : List (TaggedLineSegment T)) :
    merge segments = segments.foldl pushSegment [] := by
  induction segments with
  | nil => rfl
  | cons first rest ih =>
    rw [foldl_cons, merge]
    cases hempty : first.isEmptyText with
    | true =>
      rw [pushSegment_of_isEmptyText hempty, filter_cons_of_neg (by simp [hempty]), ← ih, merge]
    | false =>
      have hpush : pushSegment [] first = [] ++ [first] := by
        cases first <;> simp_all [pushSegment, TaggedLineSegment.isEmptyText]
      rw [hpush, foldl_pushSegment_concat, filter_cons_of_pos (by simp [hempty]), nil_append]

variable {delta : List Char}

theorem pushSegment_text_concat {active : Option T} {existing : List Char} :
    pushSegment (segments ++ [textSegment active existing]) (textSegment active delta) =
      segments ++ [textSegment active (existing ++ delta)] := by
  cases active <;> simp [pushSegment, textSegment]

theorem pushSegment_text_cases (segments : List (TaggedLineSegment T)) (active : Option T)
    (hdelta : delta ≠ []) :
    (∃ before existing, segments = before ++ [textSegment active existing]) ∨
      pushSegment segments (textSegment active delta) = segments ++ [textSegment active delta] := by
  rcases eq_nil_or_concat' segments with rfl | ⟨before, last, rfl⟩
  · cases active <;> simp [pushSegment, textSegment, hdelta]
  · cases active with
    | none =>
      cases last with
      | normal existing => exact .inl ⟨before, existing, rfl⟩
      | _ => simp [pushSegment, textSegment, hdelta]
    | some tag =>
      cases last with
      | tagDelta existingTag existing =>
        by_cases htag : existingTag = tag
        · subst htag
          exact .inl ⟨before, existing, rfl⟩
        · simp [pushSegment, textSegment, hdelta, htag]
      | _ => simp [pushSegment, textSegment, hdelta]

theorem pushSegment_pushSegment (active : Option T) (first next : List Char) :
    pushSegment (pushSegment segments (textSegment active first)) (textSegment active next) =
      pushSegment segments (textSegment active (first ++ next)) := by
  by_cases hfirst : first = []
  · rw [hfirst, pushSegment_text_nil, nil_append]
  have hboth : first ++ next ≠ [] := append_ne_nil_of_left_ne_nil hfirst next
  by_cases hlast : ∃ before existing, segments = before ++ [textSegment active existing]
  · obtain ⟨before, existing, rfl⟩ := hlast
    rw [pushSegment_text_concat, pushSegment_text_concat, pushSegment_text_concat, append_assoc]
  · rw [(pushSegment_text_cases segments active hfirst).resolve_left hlast,
      (pushSegment_text_cases segments active hboth).resolve_left hlast, pushSegment_text_concat]

/-- A segment is a text or a tag that is put behind the others. -/
theorem segment_cases (segment : TaggedLineSegment T) :
    (∃ active text, segment = textSegment active text) ∨
      (∀ segments, pushSegment segments segment = segments ++ [segment]) := by
  cases segment with
  | normal text => exact .inl ⟨none, text, rfl⟩
  | tagDelta tag text => exact .inl ⟨some tag, text, rfl⟩
  | tagStart | tagEnd => exact .inr fun _ => rfl

/-- A reading of segments that does not see where a text is cut. -/
structure Textual {β : Type} (step : β → TaggedLineSegment T → β) : Prop where
  nil : ∀ b active, step b (textSegment active []) = b
  append : ∀ b active first next, step (step b (textSegment active first))
    (textSegment active next) = step b (textSegment active (first ++ next))

section Readings
variable {β : Type} {step : β → TaggedLineSegment T → β}

theorem Textual.foldl_pushSegment (h : Textual step) (b : β) (segment : TaggedLineSegment T) :
    (pushSegment segments segment).foldl step b = step (segments.foldl step b) segment := by
  rcases segment_cases segment with ⟨active, delta, rfl⟩ | htag
  · by_cases hdelta : delta = []
    · rw [hdelta, pushSegment_text_nil, h.nil]
    · rcases pushSegment_text_cases segments active hdelta with ⟨before, existing, rfl⟩ | hpush
      · rw [pushSegment_text_concat, foldl_append, foldl_append, foldl_cons,
          foldl_nil, foldl_cons, foldl_nil, h.append]
      · rw [hpush, foldl_append, foldl_cons, foldl_nil]
  · rw [htag, foldl_append, foldl_cons, foldl_nil]

/-- Such a reading does not see whether adjacent texts have been merged. -/
theorem Textual.foldl_merge (h : Textual step) (b : β) (segments : List (TaggedLineSegment T)) :
    (merge segments).foldl step b = segments.foldl step b := by
  induction segments using reverseRecOn with
  | nil => rfl
  | append_singleton segments segment ih =>
    rw [merge_eq_foldl, foldl_append, foldl_append, foldl_cons, foldl_nil, h.foldl_pushSegment,
      ← merge_eq_foldl, ih]
    rfl

end Readings

theorem pushSegment_textual : Textual (pushSegment (T := T)) :=
  ⟨fun _ active => pushSegment_text_nil active,
    fun _ active first next => pushSegment_pushSegment active first next⟩

end Merging

section Emissions
variable {parser : TaggedLineParser T}

namespace TaggedLineParser

variable (text : List Char) (segments : List (TaggedLineSegment T))

theorem pushText_eq :
    parser.pushText text segments = pushSegment segments (textSegment parser.activeTag text) := by
  unfold pushText
  cases parser.activeTag <;> rfl

theorem trim_stripNewline (line : List Char) :
    trimEnd (trimStart (stripNewline line)) = trimEnd (trimStart line) := by
  unfold stripNewline
  split
  · next hnewline =>
    obtain ⟨text, rfl⟩ := getLast?_eq_some_iff.mp hnewline
    rw [dropLast_concat]
    unfold trimEnd trimStart
    rw [dropWhile_append]
    split
    · next hempty =>
      rw [isEmpty_iff.mp hempty]
      rfl
    · rw [rdropWhile_concat_pos _ _ _ (by decide)]
  · rfl

def ParseState.flush (state : ParseState T) : List (TaggedLineSegment T) :=
  pushSegment state.segments (textSegment state.parser.activeTag state.run)

theorem ite_pushText (run : List Char) (segments : List (TaggedLineSegment T)) :
    (if run = [] then segments else parser.pushText run segments) =
      pushSegment segments (textSegment parser.activeTag run) := by
  split
  · next hrun => rw [hrun, pushSegment_text_nil]
  · rw [pushText_eq]

theorem parse_eq (delta : List Char) :
    parser.parse delta = ((delta.foldl parseChar ⟨parser, [], []⟩).parser,
      (delta.foldl parseChar ⟨parser, [], []⟩).flush) := by
  rw [parse]
  dsimp only
  rw [ite_pushText]
  rfl

theorem readLine_eq (specs : List (TagSpec T)) (active : Option T) (line : List Char) :
    readLine specs active line =
      match active with
      | none =>
        match matchOpen specs (trimEnd (trimStart line)) with
        | some tag => (some tag, .tagStart tag)
        | none => (none, .normal line)
      | some tag =>
        if matchClose specs (trimEnd (trimStart line)) = some tag then (none, .tagEnd tag)
        else (some tag, .tagDelta tag line) := by
  unfold readLine matchOpen matchClose
  dsimp only
  cases active with
  | none => cases specs.find? fun spec => spec.openTag = trimEnd (trimStart line) <;> rfl
  | some tag =>
    cases specs.find? fun spec => spec.close = trimEnd (trimStart line) <;> simp

theorem finishLine_eq :
    parser.finishLine segments =
      (⟨parser.specs, (readLine parser.specs parser.activeTag parser.lineBuffer).1, true, []⟩,
        pushSegment segments (readLine parser.specs parser.activeTag parser.lineBuffer).2) := by
  rw [finishLine]
  rw [trim_stripNewline, readLine_eq]
  dsimp only
  cases hactive : parser.activeTag with
  | none =>
    cases matchOpen parser.specs (trimEnd (trimStart parser.lineBuffer)) with
    | some tag => rfl
    | none =>
      cases matchClose parser.specs (trimEnd (trimStart parser.lineBuffer)) <;>
        simp [pushText]
  | some active =>
    cases matchClose parser.specs (trimEnd (trimStart parser.lineBuffer)) with
    | none =>
      cases matchOpen parser.specs (trimEnd (trimStart parser.lineBuffer)) <;> simp [pushText]
    | some tag =>
      by_cases htag : active = tag
      · subst htag
        cases matchOpen parser.specs (trimEnd (trimStart parser.lineBuffer)) <;> simp
      · cases matchOpen parser.specs (trimEnd (trimStart parser.lineBuffer)) <;>
          simp [htag, Ne.symm htag, pushText]

/-- A character is read in the same way whatever has been read before it. -/
theorem parseChar_flush (run : List Char) (ch : Char) :
    (parseChar ⟨parser, segments, run⟩ ch).parser = (parser.parse [ch]).1 ∧
      (parseChar ⟨parser, segments, run⟩ ch).flush =
        (parser.parse [ch]).2.foldl pushSegment
          (pushSegment segments (textSegment parser.activeTag run)) := by
  rw [parse_eq, foldl_cons, foldl_nil]
  unfold parseChar
  dsimp only
  rw [ite_pushText]
  generalize hbefore : pushSegment segments (textSegment parser.activeTag run) = before
  split
  · split
    · rw [finishLine_eq, finishLine_eq]
      refine ⟨rfl, ?_⟩
      simp only [ParseState.flush, pushSegment_text_nil]
      rw [pushSegment_textual.foldl_pushSegment]
      rfl
    · split
      · refine ⟨rfl, ?_⟩
        simp only [ParseState.flush, pushSegment_text_nil]
        rfl
      · refine ⟨rfl, ?_⟩
        simp only [ParseState.flush, pushSegment_text_nil, pushText_eq]
        rw [pushSegment_textual.foldl_pushSegment]
        rfl
  · split
    · refine ⟨rfl, ?_⟩
      simp only [ParseState.flush, pushSegment_text_nil, pushText_eq]
      rw [pushSegment_textual.foldl_pushSegment, ← pushSegment_pushSegment, hbefore]
      rfl
    · refine ⟨rfl, ?_⟩
      simp only [ParseState.flush]
      rw [pushSegment_textual.foldl_pushSegment, ← pushSegment_pushSegment, hbefore]
      rfl

def readChars (parser : TaggedLineParser T) (text : List Char) : TaggedLineParser T :=
  text.foldl (fun parser ch => (parser.parse [ch]).1) parser

def emitted : TaggedLineParser T → List Char → List (TaggedLineSegment T)
  | _, [] => []
  | parser, ch :: text => (parser.parse [ch]).2 ++ emitted (parser.parse [ch]).1 text

theorem readChars_append (more : List Char) :
    parser.readChars (text ++ more) = (parser.readChars text).readChars more := by
  rw [readChars, foldl_append]
  rfl

theorem emitted_append (more : List Char) :
    parser.emitted (text ++ more) =
      parser.emitted text ++ (parser.readChars text).emitted more := by
  induction text generalizing parser with
  | nil => rfl
  | cons ch text ih =>
    rw [cons_append, emitted, ih, emitted, append_assoc]
    rfl

theorem readChars_concat (ch : Char) :
    parser.readChars (text ++ [ch]) = ((parser.readChars text).parse [ch]).1 :=
  readChars_append text [ch]

theorem emitted_concat (ch : Char) : parser.emitted (text ++ [ch]) =
    parser.emitted text ++ ((parser.readChars text).parse [ch]).2 := by
  rw [emitted_append, emitted, emitted, append_nil]

theorem foldl_parseChar (run : List Char) :
    (text.foldl parseChar ⟨parser, segments, run⟩).parser = parser.readChars text ∧
      (text.foldl parseChar ⟨parser, segments, run⟩).flush =
        (parser.emitted text).foldl pushSegment
          (pushSegment segments (textSegment parser.activeTag run)) := by
  induction text generalizing parser segments run with
  | nil => exact ⟨rfl, rfl⟩
  | cons ch text ih =>
    obtain ⟨hparser, hflush⟩ := @parseChar_flush _ _ parser segments run ch
    rw [foldl_cons, emitted, foldl_append, ← hflush]
    generalize parseChar ⟨parser, segments, run⟩ ch = state at hparser hflush ⊢
    obtain ⟨next, segments, run⟩ := state
    obtain rfl : next = (parser.parse [ch]).1 := hparser
    exact ih segments run

theorem parse_spec : parser.parse text = (parser.readChars text, merge (parser.emitted text)) := by
  obtain ⟨hparser, hflush⟩ := @foldl_parseChar _ _ parser text [] []
  rw [parse_eq, hparser, hflush, pushSegment_text_nil, merge_eq_foldl]

/-- The division of the text only changes where adjacent texts are cut. -/
theorem foldl_parseAll (deltas : List (List Char)) (acc : List (TaggedLineSegment T)) :
    (parser.parseAll deltas).foldl pushSegment acc =
      (parser.emitted deltas.flatten ++ (parser.readChars deltas.flatten).finish.2).foldl
        pushSegment acc := by
  induction deltas generalizing parser acc with
  | nil => rfl
  | cons delta deltas ih =>
    rw [parseAll, parse_spec]
    rw [foldl_append, pushSegment_textual.foldl_merge, ih, flatten_cons, emitted_append,
      readChars_append, append_assoc, ← foldl_append]

end TaggedLineParser

end Emissions

section Lines
variable {specs : List (TagSpec T)} {active : Option T}

/-- A begin of the line that no tag begins with. -/
def Refuted (specs : List (TagSpec T)) (line : List Char) : Prop :=
  ∃ start, start <+: line ∧ trimStart start ≠ [] ∧ isTagPrefix specs (trimStart start) = false

theorem rdropWhile_prefix_append (p : Char → Bool) (text more : List Char) :
    text.rdropWhile p <+: (text ++ more).rdropWhile p := by
  rw [LineSplitting.rdropWhile_append]
  split
  · exact prefix_rfl
  · have hfront := rdropWhile_prefix p text
    exact hfront.trans (prefix_append _ _)

variable {line last : List Char} {segments : List (List Char)}

theorem trimEnd_prefix_trim {start : List Char} (hstart : start <+: line)
    (hne : trimStart start ≠ []) : trimEnd (trimStart start) <+: trimEnd (trimStart line) := by
  obtain ⟨more, rfl⟩ := hstart
  have happend : trimStart (start ++ more) = trimStart start ++ more := by
    rw [trimStart, dropWhile_append, if_neg]
    · rfl
    · rw [List.isEmpty_iff]
      exact hne
  rw [happend]
  exact rdropWhile_prefix_append _ _ _

/-- A line is text once a begin of it cannot be a tag. -/
theorem Refuted.readLine (h : Refuted specs line) :
    readLine specs active line = (active, textSegment active line) := by
  obtain ⟨start, hstart, hne, hprefix⟩ := h
  have htrim := trimEnd_prefix_trim hstart hne
  have hspec (spec : TagSpec T) (hspec : spec ∈ specs) :
      spec.openTag ≠ trimEnd (trimStart line) ∧ spec.close ≠ trimEnd (trimStart line) := by
    rw [isTagPrefix, any_eq_false] at hprefix
    have hfalse := hprefix spec hspec
    rw [Bool.or_eq_true, isPrefixOf_iff_prefix, isPrefixOf_iff_prefix, not_or] at hfalse
    constructor
    · intro heq
      exact hfalse.1 (heq ▸ htrim)
    · intro heq
      exact hfalse.2 (heq ▸ htrim)
  have hopen : matchOpen specs (trimEnd (trimStart line)) = none := by
    simpa [matchOpen] using fun spec hmem => (hspec spec hmem).1
  have hclose : matchClose specs (trimEnd (trimStart line)) = none := by
    simpa [matchClose] using fun spec hmem => (hspec spec hmem).2
  rw [readLine_eq, hopen, hclose]
  cases active <;> rfl

variable {buffer : List Char} {ch : Char}

/-- While a line may be a tag it is buffered. -/
theorem parse_detecting (hch : ch ≠ '\n') :
    parse ⟨specs, active, true, buffer⟩ [ch] =
      if trimStart (buffer ++ [ch]) = [] ∨ isTagPrefix specs (trimStart (buffer ++ [ch])) then
        (⟨specs, active, true, buffer ++ [ch]⟩, [])
      else (⟨specs, active, false, []⟩, [textSegment active (buffer ++ [ch])]) := by
  rw [parse_eq, foldl_cons, foldl_nil, parseChar]
  dsimp only
  rw [if_pos rfl, if_neg hch]
  split
  · simp only [TaggedLineParser.ParseState.flush, pushSegment_text_nil]
    rfl
  · simp only [TaggedLineParser.ParseState.flush, pushText_eq]
    cases active <;> simp [pushSegment, textSegment]

theorem parse_detecting_newline :
    parse ⟨specs, active, true, buffer⟩ ['\n'] =
      (⟨specs, (readLine specs active (buffer ++ ['\n'])).1, true, []⟩,
        pushSegment [] (readLine specs active (buffer ++ ['\n'])).2) := by
  rw [parse_eq, foldl_cons, foldl_nil, parseChar]
  rw [if_pos rfl, if_pos rfl, if_pos rfl, finishLine_eq]
  simp only [TaggedLineParser.ParseState.flush, pushSegment_text_nil]

/-- The rest of a line that is no tag is passed on. -/
theorem parse_passing (ch : Char) :
    parse ⟨specs, active, false, buffer⟩ [ch] =
      (⟨specs, active, decide (ch = '\n'), buffer⟩, [textSegment active [ch]]) := by
  rw [parse_eq, foldl_cons, parseChar]
  dsimp only
  rw [if_neg (by decide)]
  split
  · next hch =>
    subst hch
    cases active <;> rfl
  · next hch =>
    rw [decide_eq_false hch]
    cases active <;> rfl

/-- Within a line the parser buffers all of it, or has passed on all of it as text. -/
theorem readChars_line (hline : '\n' ∉ line) :
    let start : TaggedLineParser T := ⟨specs, active, true, []⟩
    (start.readChars line = ⟨specs, active, true, line⟩ ∧ start.emitted line = []) ∨
      (start.readChars line = ⟨specs, active, false, []⟩ ∧ Refuted specs line ∧
        ∀ acc, (start.emitted line).foldl pushSegment acc =
          pushSegment acc (textSegment active line)) := by
  intro start
  induction line using reverseRecOn with
  | nil => exact .inl ⟨rfl, rfl⟩
  | append_singleton line ch ih =>
    rw [mem_append, mem_singleton, not_or] at hline
    have hch : ch ≠ '\n' := fun heq => hline.2 heq.symm
    rw [readChars_concat, emitted_concat]
    rcases ih hline.1 with ⟨hparser, hemitted⟩ | ⟨hparser, hrefuted, hemitted⟩
    · rw [hparser, hemitted, parse_detecting hch]
      split
      · exact .inl ⟨rfl, rfl⟩
      · next htest =>
        rw [not_or, Bool.not_eq_true] at htest
        refine .inr ⟨rfl, ⟨_, prefix_rfl, htest⟩, fun acc => rfl⟩
    · rw [hparser, parse_passing, decide_eq_false hch]
      obtain ⟨first, hfirst, htest⟩ := hrefuted
      refine .inr ⟨rfl, ⟨first, hfirst.trans (prefix_append _ _), htest⟩, fun acc => ?_⟩
      rw [foldl_append, hemitted]
      exact pushSegment_pushSegment active line [ch]

theorem readChars_fullLine (hline : '\n' ∉ line) :
    let start : TaggedLineParser T := ⟨specs, active, true, []⟩
    start.readChars (line ++ ['\n']) =
        ⟨specs, (readLine specs active (line ++ ['\n'])).1, true, []⟩ ∧
      ∀ acc, (start.emitted (line ++ ['\n'])).foldl pushSegment acc =
        pushSegment acc (readLine specs active (line ++ ['\n'])).2 := by
  intro start
  rw [readChars_concat, emitted_concat]
  rcases @readChars_line _ _ specs active line hline with
    ⟨hparser, hemitted⟩ | ⟨hparser, hrefuted, hemitted⟩
  · rw [hparser, hemitted, parse_detecting_newline]
    refine ⟨rfl, fun acc => ?_⟩
    rw [nil_append, pushSegment_textual.foldl_pushSegment]
    rfl
  · obtain ⟨first, hfirst, htest⟩ := hrefuted
    have hrefuted : Refuted specs (line ++ ['\n']) :=
      ⟨first, hfirst.trans (prefix_append _ _), htest⟩
    rw [hparser, parse_passing, hrefuted.readLine]
    refine ⟨rfl, fun acc => ?_⟩
    rw [foldl_append, hemitted]
    exact pushSegment_pushSegment active line ['\n']

theorem classify_append (first rest : List (List Char)) :
    classify specs active (first ++ rest) =
      classify specs active first ++ classify specs (blockBehind specs active first) rest := by
  induction first generalizing active with
  | nil => rfl
  | cons line first ih =>
    rw [cons_append, classify, ih, classify, blockBehind, cons_append]

theorem blockBehind_append (first rest : List (List Char)) :
    blockBehind specs active (first ++ rest) =
      blockBehind specs (blockBehind specs active first) rest := by
  induction first generalizing active with
  | nil => rfl
  | cons line first ih => exact ih

theorem readChars_fullLines (hsegments : ∀ segment ∈ segments, '\n' ∉ segment) :
    let start : TaggedLineParser T := ⟨specs, active, true, []⟩
    let whole := segments.map (· ++ ['\n'])
    start.readChars (segments.flatMap (· ++ ['\n'])) =
        ⟨specs, blockBehind specs active whole, true, []⟩ ∧
      ∀ acc, (start.emitted (segments.flatMap (· ++ ['\n']))).foldl pushSegment acc =
        ((classify specs active whole).map Prod.snd).foldl pushSegment acc := by
  intro start whole
  induction segments generalizing active with
  | nil => exact ⟨rfl, fun acc => rfl⟩
  | cons line segments ih =>
    rw [forall_mem_cons] at hsegments
    obtain ⟨hparser, hemitted⟩ := @readChars_fullLine _ _ specs active line hsegments.1
    obtain ⟨hrest, hrestEmitted⟩ :=
      @ih (readLine specs active (line ++ ['\n'])).1 hsegments.2
    rw [flatMap_cons, readChars_append, emitted_append, hparser]
    refine ⟨hrest, fun acc => ?_⟩
    rw [foldl_append, hemitted, hrestEmitted]
    rfl

theorem lines_append_newline (hline : '\n' ∉ line) (rest : List Char) :
    lines (line ++ '\n' :: rest) = (line ++ ['\n']) :: lines rest := by
  induction line with
  | nil => rfl
  | cons c line ih =>
    rw [mem_cons, not_or] at hline
    rw [cons_append, lines, if_neg (Ne.symm hline.1), ih hline.2]
    rfl

theorem lines_last (hlast : '\n' ∉ last) : lines last = if last = [] then [] else [last] := by
  induction last with
  | nil => rfl
  | cons c last ih =>
    rw [mem_cons, not_or] at hlast
    rw [lines, if_neg (Ne.symm hlast.1), ih hlast.2]
    cases last <;> rfl

theorem lines_terminated (hsegments : ∀ segment ∈ segments, '\n' ∉ segment) (hlast : '\n' ∉ last) :
    lines (segments.flatMap (· ++ ['\n']) ++ last) =
      segments.map (· ++ ['\n']) ++ if last = [] then [] else [last] := by
  induction segments with
  | nil => exact lines_last hlast
  | cons line segments ih =>
    rw [forall_mem_cons] at hsegments
    rw [flatMap_cons, append_assoc, append_assoc, singleton_append,
      lines_append_newline hsegments.1, ih hsegments.2]
    rfl

theorem foldl_finish (parser : TaggedLineParser T) (acc : List (TaggedLineSegment T)) :
    parser.finish.2.foldl pushSegment acc = (closedSegments parser.specs parser.activeTag
      (if parser.lineBuffer = [] then [] else [parser.lineBuffer])).foldl pushSegment acc := by
  rw [finish, finishBuffer]
  by_cases hbuffer : parser.lineBuffer = []
  · rw [if_pos hbuffer, if_pos hbuffer]
    dsimp only [blockBehind]
    cases parser.activeTag <;> rfl
  · rw [if_neg hbuffer, if_neg hbuffer, finishLine_eq]
    dsimp only [closedSegments, classify, blockBehind]
    generalize readLine parser.specs parser.activeTag parser.lineBuffer = result
    obtain ⟨behind, segment⟩ := result
    cases behind with
    | none => exact pushSegment_textual.foldl_pushSegment acc segment
    | some tag =>
      rw [pushSegment_textual.foldl_pushSegment, pushSegment_textual.foldl_pushSegment]
      rfl

/-- The last line, which has no line end, is read when the text is finished. -/
theorem foldl_last (hlast : '\n' ∉ last) (acc : List (TaggedLineSegment T)) :
    let start : TaggedLineParser T := ⟨specs, active, true, []⟩
    (start.emitted last ++ (start.readChars last).finish.2).foldl pushSegment acc =
      (closedSegments specs active (if last = [] then [] else [last])).foldl pushSegment acc := by
  intro start
  rw [foldl_append, foldl_finish]
  rcases @readChars_line _ _ specs active last hlast with
    ⟨hparser, hemitted⟩ | ⟨hparser, hrefuted, hemitted⟩
  · rw [hparser, hemitted]
    rfl
  · have hne : last ≠ [] := by
      rintro rfl
      obtain ⟨first, hfirst, hne, -⟩ := hrefuted
      rw [prefix_nil.mp hfirst] at hne
      exact hne rfl
    rw [hparser, hemitted, if_neg hne]
    unfold closedSegments
    dsimp only [classify, blockBehind]
    rw [hrefuted.readLine]
    rfl

theorem merge_parseAll (specs : List (TagSpec T)) (deltas : List (List Char)) :
    merge ((new specs).parseAll deltas) = reference specs deltas.flatten := by
  rw [merge_eq_foldl, foldl_parseAll, reference, merge_eq_foldl]
  obtain ⟨segments, last, htext, hsegments, hlast⟩ :=
    LineSplitting.exists_terminated '\n' deltas.flatten
  obtain ⟨hparser, hemitted⟩ := @readChars_fullLines _ _ specs none segments hsegments
  rw [htext, emitted_append, readChars_append,
    lines_terminated hsegments hlast, append_assoc, foldl_append]
  unfold TaggedLineParser.new
  rw [hemitted, hparser, foldl_last hlast]
  unfold closedSegments
  rw [classify_append, blockBehind_append, map_append, append_assoc, ← foldl_append]

end Lines

section Properties
variable {specs : List (TagSpec T)} {active : Option T}

theorem nextBlock_readLine (active : Option T) (line : List Char) :
    nextBlock active (readLine specs active line).2 = some (readLine specs active line).1 := by
  rw [readLine_eq]
  cases active with
  | none =>
    dsimp only
    cases matchOpen specs (trimEnd (trimStart line)) <;> rfl
  | some tag =>
    dsimp only
    split <;> simp [nextBlock]

variable (rest : List (List Char))

theorem foldlM_nextBlock_classify :
    ((classify specs active rest).map Prod.snd).foldlM nextBlock active =
      some (blockBehind specs active rest) := by
  induction rest generalizing active with
  | nil => rfl
  | cons line rest ih =>
    rw [classify, map_cons, foldlM_cons, nextBlock_readLine]
    exact ih

/-- The segments of the lines alternate. -/
theorem foldlM_closedSegments :
    (closedSegments specs active rest).foldlM nextBlock active = some none := by
  rw [closedSegments, foldlM_append, foldlM_nextBlock_classify]
  cases blockBehind specs active rest with
  | none => rfl
  | some tag => simp [nextBlock]

variable {block start : Option T} {segments : List (TaggedLineSegment T)}

theorem nextBlock_text {after : Option T} {text : List Char} :
    nextBlock block (textSegment active text) = some after ↔ block = active ∧ after = active := by
  cases active with
  | none => cases block <;> simp [nextBlock, textSegment, eq_comm]
  | some tag =>
    cases block with
    | none => simp [nextBlock, textSegment]
    | some block =>
      rw [textSegment, nextBlock, Option.ite_none_right_eq_some, Option.some_inj, Option.some_inj,
        eq_comm]
      exact and_congr_right fun heq => by rw [heq, eq_comm]

/-- Merging texts keeps the blocks. -/
theorem foldlM_pushSegment {segment : TaggedLineSegment T}
    (h : (segments ++ [segment]).foldlM nextBlock start = some block) :
    (pushSegment segments segment).foldlM nextBlock start = some block := by
  rcases segment_cases segment with ⟨active, delta, rfl⟩ | htag
  · have hsplit := h
    rw [foldlM_append] at hsplit
    obtain ⟨middle, hmiddle, hnext⟩ := Option.bind_eq_some_iff.mp hsplit
    obtain ⟨after, hafter, heq⟩ := Option.bind_eq_some_iff.mp hnext
    cases heq
    obtain ⟨rfl, rfl⟩ := nextBlock_text.mp hafter
    by_cases hdelta : delta = []
    · rwa [hdelta, pushSegment_text_nil]
    rcases pushSegment_text_cases segments block hdelta with ⟨before, existing, rfl⟩ | hpush
    · rw [foldlM_append] at hmiddle
      obtain ⟨earlier, hearlier, hnext⟩ := Option.bind_eq_some_iff.mp hmiddle
      obtain ⟨after, hafter, heq⟩ := Option.bind_eq_some_iff.mp hnext
      obtain ⟨rfl, -⟩ := nextBlock_text.mp hafter
      rw [pushSegment_text_concat, foldlM_append, hearlier]
      exact Option.bind_eq_some_iff.mpr ⟨earlier, rfl,
        Option.bind_eq_some_iff.mpr ⟨earlier, nextBlock_text.mpr ⟨rfl, rfl⟩, rfl⟩⟩
    · rwa [hpush]
  · rwa [htag]

theorem foldlM_merge (h : segments.foldlM nextBlock start = some block) :
    (merge segments).foldlM nextBlock start = some block := by
  induction segments using reverseRecOn generalizing block with
  | nil => exact h
  | append_singleton segments segment ih =>
    rw [merge_eq_foldl, foldl_append, ← merge_eq_foldl]
    refine foldlM_pushSegment ?_
    rw [foldlM_append] at h ⊢
    obtain ⟨middle, hmiddle, hnext⟩ := Option.bind_eq_some_iff.mp h
    exact Option.bind_eq_some_iff.mpr ⟨middle, ih hmiddle, hnext⟩

omit [DecidableEq T] in
theorem reinsertStep_textual : Textual (reinsertStep (T := T)) := by
  refine ⟨fun state active => ?_, fun state active first next => ?_⟩
  · cases active <;> simp [reinsertStep, textSegment]
  · cases active <;> simp [reinsertStep, textSegment]

theorem flatten_lines (text : List Char) : (lines text).flatten = text := by
  induction text with
  | nil => rfl
  | cons c text ih =>
    rw [lines]
    split
    · rw [flatten_cons, ih]
      rfl
    · cases hlines : lines text with
      | nil | cons =>
        rw [hlines] at ih
        rw [← ih]
        rfl

theorem readLine_isTag (active : Option T) (line : List Char) :
    (readLine specs active line).2.isTag = true ∨
      ∃ block, (readLine specs active line).2 = textSegment block line := by
  rw [readLine_eq]
  cases active with
  | none =>
    dsimp only
    cases matchOpen specs (trimEnd (trimStart line)) with
    | none => exact .inr ⟨none, rfl⟩
    | some tag => exact .inl rfl
  | some tag =>
    dsimp only
    split
    · exact .inl rfl
    · exact .inr ⟨some tag, rfl⟩

/-- The lines are the texts and the tag lines. -/
theorem foldl_reinsertStep_classify (done : List Char) :
    ((classify specs active rest).map Prod.snd).foldl reinsertStep
        (done, ((classify specs active rest).filter fun entry => entry.2.isTag).map Prod.fst) =
      (done ++ rest.flatten, []) := by
  induction rest generalizing active done with
  | nil => simp [classify]
  | cons line rest ih =>
    rw [classify, flatten_cons, ← append_assoc, ← @ih (readLine specs active line).1]
    rcases @readLine_isTag _ _ specs active line with htag | ⟨block, htext⟩
    · generalize (readLine specs active line).2 = segment at htag
      cases segment <;> first | rfl | cases htag
    · rw [htext]
      cases block <;> rfl

end Properties

section Main

/-- The segments of every text in every division are those of its lines. The blocks are closed
one after the other, and the texts and the tag lines make up the text. -/
theorem tagged_lines_as_line_by_line (specs : List (TagSpec T)) (deltas : List (List Char)) :
    let text := deltas.flatten
    let segments := merge ((new specs).parseAll deltas)
    segments = reference specs text ∧ Alternates segments ∧
      reinsert segments (tagLines specs text) = text := by
  intro text segments
  have hreference : segments = reference specs text := merge_parseAll specs deltas
  rw [hreference]
  refine ⟨rfl, foldlM_merge (foldlM_closedSegments _), ?_⟩
  rw [reinsert, reference, reinsertStep_textual.foldl_merge, closedSegments, tagLines,
    foldl_append, foldl_reinsertStep_classify, flatten_lines]
  cases blockBehind specs none (lines text) <;> simp [reinsertStep]

end Main

end DeepseekX.TaggedLines
