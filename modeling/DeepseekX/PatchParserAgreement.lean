import DeepseekX.PatchLineScan

/-!
# When both parsers read a text alike

Feeding a text in pieces is reading its lines one after another, with an unfinished line
at the end. The streaming parser reads the hunks of a text that `parse_patch` accepts
exactly when the blank characters at the front have no newline, a line that names an
environment is not indented, the scan of the lines succeeds, and the line that ends an
update hunk together with the patch is not indented, unless the text stops there.
-/

namespace DeepseekX.StreamingPatchParser
open SeekSequence PatchReplacements PatchParsing List Option
open String (ofList toList_ofList toList_inj)
open LineSplitting (rdropWhile_append rdropWhile_append_of_forall)
open Transducers (toOption_map toOption_eq_some)

section Feeding

/-- Reads characters, with the unfinished line in front of them. -/
def feed : Reading → List Char → List Char → Option (Reading × List Char)
  | reading, buffer, [] => some (reading, buffer)
  | reading, buffer, ch :: chars =>
    if ch = '\n' then
      (readLine reading (ofList (dropCarriageReturn buffer))).bind (feed · [] chars)
    else feed reading (buffer ++ [ch]) chars

variable {p q : Parser}
variable {trimmed : String}

theorem handle_lineBuffer (h : handleHunkHeadersAndEndPatch p trimmed = .ok (some q)) :
    q.lineBuffer = p.lineBuffer := by
  unfold handleHunkHeadersAndEndPatch at h
  cases hensure : ensureUpdateHunkIsNotEmpty p trimmed with
  | error e =>
    rw [hensure] at h
    split at h
    · cases h
    · split at h <;> cases h
  | ok _ =>
    rw [hensure] at h
    split at h
    · cases h
      rfl
    · split at h <;> cases h
      rfl

theorem processHeaderOr_lineBuffer {other : Except ParseError Parser}
    (hother : other = .ok q → q.lineBuffer = p.lineBuffer)
    (h : processHeaderOr p trimmed other = .ok q) : q.lineBuffer = p.lineBuffer := by
  unfold processHeaderOr at h
  split at h
  · cases h
  · next hhandle =>
    cases h
    exact handle_lineBuffer hhandle
  · exact hother h

theorem processLine_lineBuffer {line : String} (h : processLine p line = .ok q) :
    q.lineBuffer = p.lineBuffer := by
  unfold processLine at h
  dsimp only at h
  split at h
  · split at h <;> cases h
    rfl
  · split at h
    · cases h
      rfl
    · exact processHeaderOr_lineBuffer (fun h => by cases h) h
  · refine processHeaderOr_lineBuffer (fun h => ?_) h
    split at h <;> cases h
    rfl
  · exact processHeaderOr_lineBuffer (fun h => by cases h) h
  · refine processHeaderOr_lineBuffer (fun h => ?_) h
    split at h
    · next path movePath chunks _ =>
      cases hline : processChunkLine path movePath chunks line p.lineNumber <;>
        rw [hline] at h <;> cases h
      rfl
    · cases h
  · cases h
    rfl

theorem pushChars_cons (p : Parser) (ch : Char) (chars : List Char) :
    pushChars p (ch :: chars) = (pushChar p ch).bind (pushChars · chars) := by
  rfl

theorem feed_pushChars (p : Parser) (chars : List Char) :
    (pushChars p chars).toOption.map (fun p => (view p, p.lineBuffer)) =
      feed (view p) p.lineBuffer chars := by
  induction chars generalizing p with
  | nil => rfl
  | cons ch chars ih =>
    rw [pushChars_cons, feed, pushChar]
    split
    · have hview := view_processLine
        { p with lineBuffer := [], lineNumber := p.lineNumber + 1 }
        (ofList (dropCarriageReturn p.lineBuffer))
      have hsame : view { p with lineBuffer := [], lineNumber := p.lineNumber + 1 } = view p := rfl
      rw [hsame] at hview
      cases hline : processLine { p with lineBuffer := [], lineNumber := p.lineNumber + 1 }
          (ofList (dropCarriageReturn p.lineBuffer)) with
      | error e =>
        rw [hline] at hview
        rw [← hview]
        rfl
      | ok q =>
        rw [hline] at hview
        have hbuffer := processLine_lineBuffer hline
        rw [← hview]
        have hrest := ih q
        rw [hbuffer] at hrest
        exact hrest
    · exact ih { p with lineBuffer := p.lineBuffer ++ [ch] }

theorem pushDeltas_eq (p : Parser) (deltas : List String) :
    pushDeltas p deltas = pushChars p (deltas.flatMap String.toList) := by
  induction deltas generalizing p with
  | nil => rfl
  | cons delta deltas ih =>
    rw [flatMap_cons, pushChars, foldlM_append, pushDeltas, pushDelta, pushChars]
    cases foldlM pushChar p delta.toList with
    | error e => rfl
    | ok q => exact ih q

def endedHunks (reading : Reading) : Option (List Hunk) :=
  if reading.mode = .endedPatch then some reading.hunks else none

def finishReading (reading : Reading) (buffer : List Char) : Option (List Hunk) :=
  ((finishLine { atLine reading with lineBuffer := buffer }).toOption.map view).bind endedHunks

theorem finishLine_congr (h : view p = view q) (hbuffer : p.lineBuffer = q.lineBuffer) :
    (finishLine p).toOption.map view = (finishLine q).toOption.map view := by
  unfold finishLine
  rw [hbuffer]
  have hsame : view { p with lineBuffer := [], lineNumber := p.lineNumber + 1 } =
      view { q with lineBuffer := [], lineNumber := q.lineNumber + 1 } := h
  have hhunks : p.hunks = q.hunks := congrArg Reading.hunks h
  split
  · exact congrArg some h
  · dsimp only
    split
    · rw [toOption_map, toOption_map, ensureUpdateHunkIsNotEmpty_congr hsame, Option.map_map,
        Option.map_map]
      exact Option.map_congr fun _ _ => by simp [view, hhunks]
    · exact view_processLine_congr hsame _

theorem finish_eq (p : Parser) : (finish p).toOption = finishReading (view p) p.lineBuffer := by
  have hcongr := finishLine_congr (p := p)
    (q := { atLine (view p) with lineBuffer := p.lineBuffer }) (view_atLine_view p).symm rfl
  unfold finishReading
  rw [← hcongr, finish]
  cases finishLine p with
  | error e => rfl
  | ok q =>
    simp only [Except.toOption, map_some, view]
    cases q.mode <;> rfl

def streamText (chars : List Char) : Option (List Hunk) :=
  (feed ⟨.notStarted, []⟩ [] chars).bind fun (reading, buffer) => finishReading reading buffer

theorem parseInPieces_eq (deltas : List String) :
    (parseInPieces deltas).toOption = streamText (deltas.flatMap String.toList) := by
  have hfeed := feed_pushChars start (deltas.flatMap String.toList)
  unfold parseInPieces streamText
  rw [pushDeltas_eq]
  change _ = feed ⟨.notStarted, []⟩ [] _ at hfeed
  rw [← hfeed]
  cases pushChars start (deltas.flatMap String.toList) with
  | error e => rfl
  | ok p => exact finish_eq p

variable {reading : Reading} {buffer chars : List Char}

theorem feed_of_notMem (h : '\n' ∉ chars) (rest : List Char) :
    feed reading buffer (chars ++ rest) = feed reading (buffer ++ chars) rest := by
  induction chars generalizing buffer with
  | nil => simp
  | cons ch chars ih =>
    rw [mem_cons, not_or] at h
    rw [cons_append, feed, if_neg (Ne.symm h.1), ih h.2, append_assoc, singleton_append]

theorem feed_line (h : '\n' ∉ chars) (rest : List Char) :
    feed reading buffer (chars ++ '\n' :: rest) =
      (readLine reading (ofList (dropCarriageReturn (buffer ++ chars)))).bind
        (feed · [] rest) := by
  rw [feed_of_notMem h, feed, if_pos rfl]

/-- A line without its newline and carriage return. -/
def lineOfSegment (segment : List Char) : String := ofList (dropCarriageReturn segment)

theorem feed_segments {segments : List (List Char)}
    (hsegments : ∀ segment ∈ segments, '\n' ∉ segment) (rest : List Char) :
    feed reading [] (segments.flatMap (· ++ ['\n']) ++ rest) =
      (readLines reading (segments.map lineOfSegment)).bind (feed · [] rest) := by
  induction segments generalizing reading with
  | nil => rfl
  | cons segment segments ih =>
    rw [forall_mem_cons] at hsegments
    rw [flatMap_cons, append_assoc, append_assoc, singleton_append,
      feed_line hsegments.1, map_cons, readLines]
    change (readLine reading (lineOfSegment segment)).bind _ = _
    cases readLine reading (lineOfSegment segment) with
    | none => rfl
    | some next => exact ih hsegments.2

end Feeding

section Blanks
variable {chars blanks : List Char}

def Blank (chars : List Char) : Prop := ∀ c ∈ chars, isWhitespace c = true

theorem blank_nil : Blank [] := forall_mem_nil _

theorem Blank.concat {c : Char} (h : Blank chars) (hc : isWhitespace c = true) :
    Blank (chars ++ [c]) := by
  simpa [Blank, or_imp, forall_and, hc] using h

section
variable (hblanks : Blank blanks)
include hblanks

theorem dropWhile_blank_append :
    (blanks ++ chars).dropWhile isWhitespace = chars.dropWhile isWhitespace := by
  rw [List.dropWhile_append, if_pos]
  rw [List.isEmpty_iff, List.dropWhile_eq_nil_iff]
  exact hblanks

theorem trim_blank_append :
    trim (ofList (blanks ++ chars)) = trim (ofList chars) := by
  unfold trim
  rw [toList_ofList, toList_ofList, dropWhile_blank_append hblanks]

theorem trim_append_blank :
    trim (ofList (chars ++ blanks)) = trim (ofList chars) := by
  unfold trim
  rw [toList_ofList, toList_ofList, dropWhile_append]
  split
  · next hempty =>
    rw [List.isEmpty_iff] at hempty
    rw [hempty, dropWhile_eq_nil_iff.mpr hblanks]
  · rw [rdropWhile_append_of_forall hblanks]

theorem trimEnd_append_blank :
    trimEnd (ofList (chars ++ blanks)) = trimEnd (ofList chars) := by
  unfold trimEnd
  rw [toList_ofList, toList_ofList, rdropWhile_append_of_forall hblanks]

end

theorem exists_dropCarriageReturn (chars : List Char) :
    ∃ blanks, Blank blanks ∧ chars = dropCarriageReturn chars ++ blanks := by
  unfold dropCarriageReturn
  split
  · next hlast =>
    refine ⟨['\r'], by intro c hc; rw [mem_singleton.mp hc]; decide, ?_⟩
    exact (dropLast_append_getLast? _ hlast).symm
  · exact ⟨[], forall_mem_nil _, by simp⟩

theorem trim_lineOfSegment (segment : List Char) :
    trim (lineOfSegment segment) = trim (ofList segment) := by
  obtain ⟨blanks, hblanks, hsegment⟩ := exists_dropCarriageReturn segment
  nth_rewrite 2 [hsegment]
  exact (trim_append_blank hblanks).symm

theorem trimEnd_lineOfSegment (segment : List Char) :
    trimEnd (lineOfSegment segment) = trimEnd (ofList segment) := by
  obtain ⟨blanks, hblanks, hsegment⟩ := exists_dropCarriageReturn segment
  nth_rewrite 2 [hsegment]
  exact (trimEnd_append_blank hblanks).symm

end Blanks

section Closing
variable {reading : Reading} {line : String} {buffer chars : List Char}

theorem handle_end (hsettled : Settled reading) :
    handleHunkHeadersAndEndPatch (atLine reading) endPatchMarker =
      .ok (some { atLine reading with mode := .endedPatch }) := by
  unfold handleHunkHeadersAndEndPatch
  rw [hsettled]
  rfl

variable {afterUpdate : Bool} {hunks : List Hunk}

theorem readLine_end (hsettled : Settled reading)
    (hbetween : BetweenPieces afterUpdate reading.mode) (htrim : trim line = endPatchMarker)
    (hline : afterUpdate = true → trimEnd line = endPatchMarker) :
    readLine reading line = some ⟨.endedPatch, reading.hunks⟩ := by
  have hhandle := handle_end hsettled
  have hheader : ∀ other, processHeaderOr (atLine reading) endPatchMarker other =
      .ok { atLine reading with mode := .endedPatch } := by
    intro other
    unfold processHeaderOr
    rw [hhandle]
  have hprocess : processLine (atLine reading) line =
      .ok { atLine reading with mode := .endedPatch } := by
    unfold processLine
    cases afterUpdate with
    | true =>
      have hmode : reading.mode = .updateFile 0 := hbetween
      simp only [hline rfl]
      simpa only [atLine, hmode] using hheader _
    | false =>
      rcases hbetween with hmode | hmode | hmode
      · have hpreamble : isEnvironmentIdPreambleLine line ≠ true := by
          intro hpreamble
          have hnone : stripMarker endPatchMarker (trim line) = none :=
            stripMarker_header_of_preamble hpreamble (by decide) (by decide)
          rw [htrim] at hnone
          exact absurd hnone (by decide)
        simp only [htrim]
        rw [if_neg hpreamble]
        simpa only [atLine, hmode] using hheader _
      · simp only [htrim]
        simpa only [atLine, hmode] using hheader _
      · simp only [htrim]
        simpa only [atLine, hmode] using hheader _
  unfold readLine
  rw [hprocess]
  rfl

/-- A line without a star does not leave an update hunk. -/
theorem readLine_stays (hmode : reading.mode = .updateFile 0)
    (hline : firstChar line ≠ some '*') :
    readLine reading line = none ∨
      ∃ hunks, readLine reading line = some ⟨.updateFile 0, hunks⟩ := by
  unfold readLine processLine processHeaderOr
  simp only [atLine, hmode]
  rw [handle_of_firstChar _ (firstChar_trimEnd_ne hline)]
  dsimp only
  split
  · next path movePath chunks _ =>
    cases processChunkLine path movePath chunks line 0 with
    | error e => exact .inl rfl
    | ok hunk => exact .inr ⟨_, rfl⟩
  · exact .inl rfl

theorem feed_ended (hunks : List Hunk) (hbuffer : Blank buffer) (hchars : Blank chars) :
    ∃ rest, feed ⟨.endedPatch, hunks⟩ buffer chars = some (⟨.endedPatch, hunks⟩, rest) ∧
      Blank rest := by
  induction chars generalizing buffer with
  | nil => exact ⟨buffer, rfl, hbuffer⟩
  | cons ch chars ih =>
    obtain ⟨hch, hchars⟩ := forall_mem_cons.mp hchars
    rw [feed]
    split
    · exact ih blank_nil hchars
    · exact ih (hbuffer.concat hch) hchars

theorem firstChar_blank (hchars : Blank chars) : firstChar (ofList chars) ≠ some '*' := by
  unfold firstChar
  rw [toList_ofList]
  intro hfirst
  have hstar := hchars '*' (mem_of_mem_head? hfirst)
  cases hstar

theorem feed_stays (hbuffer : Blank buffer) (hchars : Blank chars) :
    feed ⟨.updateFile 0, hunks⟩ buffer chars = none ∨
      ∃ hunks' rest, feed ⟨.updateFile 0, hunks⟩ buffer chars =
        some (⟨.updateFile 0, hunks'⟩, rest) ∧ Blank rest := by
  induction chars generalizing buffer hunks with
  | nil => exact .inr ⟨hunks, buffer, rfl, hbuffer⟩
  | cons ch chars ih =>
    obtain ⟨hch, hchars⟩ := forall_mem_cons.mp hchars
    rw [feed]
    split
    · obtain ⟨blanks, _, hsplit⟩ := exists_dropCarriageReturn buffer
      have hfront : Blank (dropCarriageReturn buffer) := fun c hc =>
        hbuffer c (by rw [hsplit]; exact mem_append_left _ hc)
      have hmode : (Reading.mk (.updateFile 0) hunks).mode = .updateFile 0 := rfl
      rcases readLine_stays hmode (firstChar_blank hfront) with hnone | ⟨hunks', hsome⟩
      · rw [hnone]
        exact .inl rfl
      · rw [hsome]
        exact ih blank_nil hchars
    · exact ih (hbuffer.concat hch) hchars

theorem trim_blank (hchars : Blank chars) : trim (ofList chars) = "" := by
  rw [trim_eq_empty_iff, toList_ofList]
  exact hchars

theorem finishReading_of_end (hsettled : Settled reading) (hne : buffer ≠ [])
    (htrim : trim (ofList buffer) = endPatchMarker) :
    finishReading reading buffer = some reading.hunks := by
  have hensure : ensureUpdateHunkIsNotEmpty
      { atLine reading with lineBuffer := [], lineNumber := 1 } endPatchMarker = .ok () := by
    have h := ensureUpdateHunkIsNotEmpty_congr
      (p := { atLine reading with lineBuffer := [], lineNumber := 1 })
      (q := atLine reading) rfl endPatchMarker
    rw [hsettled] at h
    exact toOption_eq_some.mp h
  unfold finishReading finishLine
  rw [if_neg hne]
  rw [if_pos htrim, htrim]
  change (((ensureUpdateHunkIsNotEmpty
    { atLine reading with lineBuffer := [], lineNumber := 1 } endPatchMarker).map
      _).toOption.map view).bind endedHunks = _
  rw [hensure]
  rfl

theorem finishReading_blank (hbuffer : Blank buffer) :
    finishReading reading buffer =
      if buffer = [] then endedHunks ⟨eraseNumber reading.mode, reading.hunks⟩
      else (readLine reading (ofList buffer)).bind endedHunks := by
  unfold finishReading finishLine
  by_cases hempty : buffer = []
  · rw [if_pos hempty, if_pos hempty]
    rfl
  · have hend : trim (ofList buffer) ≠ endPatchMarker := by
      rw [trim_blank hbuffer]
      decide
    rw [if_neg hempty, if_neg hempty]
    rw [if_neg hend]
    have hsame : view { atLine reading with lineBuffer := [], lineNumber := 1 } =
        view (atLine reading) := rfl
    have hview := view_processLine_congr hsame (ofList buffer)
    exact congrArg (·.bind endedHunks) hview

theorem finishReading_stays (hbuffer : Blank buffer) :
    finishReading ⟨.updateFile 0, hunks⟩ buffer = none := by
  have hmode : (Reading.mk (.updateFile 0) hunks).mode = .updateFile 0 := rfl
  rw [finishReading_blank hbuffer]
  split
  · rfl
  · rcases readLine_stays hmode (firstChar_blank hbuffer) with hnone | ⟨hunks', hsome⟩
    · rw [hnone]
      rfl
    · rw [hsome]
      rfl

/-- An update hunk that is not left never comes to an end. -/
theorem close_stays {rest : List Char} (hmode : reading.mode = .updateFile 0)
    (hline : firstChar line ≠ some '*') (hrest : Blank rest) :
    ((readLine reading line).bind (feed · [] rest)).bind
      (fun (reading, buffer) => finishReading reading buffer) = none := by
  rcases readLine_stays hmode hline with hnone | ⟨hunks, hsome⟩
  · rw [hnone]
    rfl
  · rw [hsome, bind_some]
    rcases feed_stays blank_nil hrest with hnone | ⟨hunks', buffer, hfeed, hbuffer⟩
    · rw [hnone]
      rfl
    · rw [hfeed]
      exact finishReading_stays hbuffer

theorem close_eq {last post : List Char} (hsettled : Settled reading)
    (hbetween : BetweenPieces afterUpdate reading.mode) (hnewline : '\n' ∉ last)
    (hlast : trim (ofList last) = endPatchMarker)
    (htrimmed : trimEnd (ofList last) = ofList last) (hpost : Blank post) :
    (feed reading last post).bind (fun (reading, buffer) => finishReading reading buffer) =
      if afterUpdate = false ∨ ofList last = endPatchMarker ∨ '\n' ∉ post then
        some reading.hunks
      else none := by
  have hne : last ≠ [] := by
    rintro rfl
    exact absurd hlast (by decide)
  by_cases hmem : '\n' ∈ post
  · obtain ⟨front, rest, rfl, hfront⟩ := eq_append_cons_of_mem hmem
    have hfrontBlank : Blank front := fun c hc => hpost c (mem_append_left _ hc)
    have hrestBlank : Blank rest := fun c hc =>
      hpost c (mem_append_right _ (mem_cons_of_mem _ hc))
    have htrim : trim (lineOfSegment (last ++ front)) = endPatchMarker := by
      rw [trim_lineOfSegment, trim_append_blank hfrontBlank, hlast]
    have htrimEnd : trimEnd (lineOfSegment (last ++ front)) = ofList last := by
      rw [trimEnd_lineOfSegment, trimEnd_append_blank hfrontBlank, htrimmed]
    rw [feed_line hfront]
    change ((readLine reading (lineOfSegment (last ++ front))).bind _).bind _ = _
    by_cases hends : afterUpdate = false ∨ ofList last = endPatchMarker
    · rw [if_pos (hends.imp_right .inl), readLine_end hsettled hbetween htrim, bind_some]
      · obtain ⟨buffer, hfeed, hbuffer⟩ := feed_ended reading.hunks blank_nil hrestBlank
        rw [hfeed, bind_some]
        dsimp only
        rw [finishReading_blank hbuffer]
        split <;> rfl
      · intro hafter
        rw [htrimEnd]
        exact hends.resolve_left (by rw [hafter]; decide)
    · rw [not_or, Bool.not_eq_false] at hends
      obtain ⟨rfl, hends⟩ := hends
      rw [if_neg (by simp [hends])]
      refine close_stays hbetween ?_ hrestBlank
      intro hfirst
      rw [trim_eq_trimEnd hfirst isWhitespace_star, htrimEnd] at htrim
      exact hends htrim
  · rw [if_pos (.inr (.inr hmem))]
    have hfeed : feed reading last (post ++ []) = some (reading, last ++ post) :=
      feed_of_notMem hmem []
    rw [append_nil] at hfeed
    rw [hfeed]
    exact finishReading_of_end hsettled (by simp [hne]) (by rw [trim_append_blank hpost, hlast])

end Closing

section Environment
variable {line : String} {hunkLines remaining : List String}

def isEnvironmentLine (line : String) : Bool :=
  (stripMarker environmentIdMarker (trimStart line)).isSome

/-- The lines behind one that names an environment, which must not be indented. -/
def scanEnvironment : List String → Option (List String)
  | [] => some []
  | line :: lines =>
    if isEnvironmentLine line then if trimStart line = line then some lines else none
    else some (line :: lines)

theorem toList_trimStart (line : String) :
    (trimStart line).toList = line.toList.dropWhile isWhitespace := toList_ofList

theorem trim_trimStart (line : String) : trim (trimStart line) = trim line := by
  unfold trim
  rw [toList_trimStart, dropWhile_idempotent]

theorem firstChar_of_trimStart_ne (h : trimStart line ≠ line) : firstChar line ≠ some '*' := by
  intro hfirst
  apply h
  rw [← toList_inj, toList_trimStart]
  rw [eq_cons_of_mem_head? hfirst, dropWhile_cons_of_neg (by decide)]

theorem readLine_environment (hline : isEnvironmentLine line = true) :
    readLine ⟨.startedPatch, []⟩ line =
      if trimStart line = line then some ⟨.startedPatch, []⟩ else none := by
  unfold readLine processLine
  dsimp only [atLine]
  by_cases hflush : trimStart line = line
  · have hpreamble : isEnvironmentIdPreambleLine line = true := by
      unfold isEnvironmentLine at hline
      rwa [hflush] at hline
    rw [if_pos hpreamble, if_pos hflush]
    rfl
  · have hnot : isEnvironmentIdPreambleLine line ≠ true := by
      unfold isEnvironmentIdPreambleLine
      rw [stripMarker_eq_none_of_firstChar (by decide) (firstChar_of_trimStart_ne hflush)]
      exact Bool.false_ne_true
    have hopened : openedHunk (trim line) 0 = none := by
      rw [← trim_trimStart]
      exact openedHunk_of_preamble hline 0
    have hend : trim line ≠ endPatchMarker := by
      intro heq
      have hnone : stripMarker endPatchMarker (trim (trimStart line)) = none :=
        stripMarker_header_of_preamble hline (by decide) (by decide)
      rw [trim_trimStart, heq] at hnone
      exact absurd hnone (by decide)
    rw [if_neg hnot, if_neg hflush]
    unfold processHeaderOr handleHunkHeadersAndEndPatch
    rw [if_neg hend]
    rw [hopened]
    rfl

/-- The first line of the hunks, which may name an environment. -/
theorem readLines_environment {environmentId : Option String} {lineNumber : ℕ}
    (h : parseEnvironmentIdPreamble hunkLines = .ok (environmentId, remaining, lineNumber)) :
    (scanEnvironment hunkLines = none ∨ scanEnvironment hunkLines = some remaining) ∧
      readLines ⟨.startedPatch, []⟩ hunkLines =
        (scanEnvironment hunkLines).bind (readLines ⟨.startedPatch, []⟩) := by
  cases hunkLines with
  | nil =>
    cases h
    exact ⟨.inr rfl, rfl⟩
  | cons line lines =>
    rw [scanEnvironment]
    unfold parseEnvironmentIdPreamble at h
    dsimp only at h
    cases hstrip : stripMarker environmentIdMarker (trimStart line) with
    | none =>
      rw [hstrip] at h
      cases h
      have hline : isEnvironmentLine line ≠ true := by
        unfold isEnvironmentLine
        rw [hstrip]
        exact Bool.false_ne_true
      rw [if_neg hline]
      exact ⟨.inr rfl, rfl⟩
    | some name =>
      rw [hstrip] at h
      have hline : isEnvironmentLine line = true := by
        unfold isEnvironmentLine
        rw [hstrip]
        rfl
      dsimp only at h
      split at h
      · cases h
      · cases h
        rw [if_pos hline, readLines, readLine_environment hline]
        split
        · exact ⟨.inr rfl, rfl⟩
        · exact ⟨.inl rfl, rfl⟩

end Environment

section Texts
variable {text : String}

def leadingBlanks (text : String) : List Char := text.toList.takeWhile isWhitespace

def trailingBlanks (text : String) : List Char :=
  (text.toList.dropWhile isWhitespace).rtakeWhile isWhitespace

/-- The texts that the streaming parser reads as `parse_patch` does. -/
def streamable (text : String) : Bool :=
  decide ('\n' ∉ leadingBlanks text) &&
    match (scanEnvironment (textLines (trim text)).tail.dropLast).bind (scanLines .outside) with
    | none => false
    | some region => decide (region = .outside ∨
        (textLines (trim text)).getLast? = some endPatchMarker ∨ '\n' ∉ trailingBlanks text)

theorem toList_eq_blanks (text : String) :
    text.toList = leadingBlanks text ++ ((trim text).toList ++ trailingBlanks text) := by
  unfold leadingBlanks trailingBlanks trim
  rw [toList_ofList, rdropWhile_append_rtakeWhile, takeWhile_append_dropWhile]

variable {last front back : List Char} {lines : List String} {result : List String × List String}
  {args : ApplyPatchArgs}

theorem linesOfSegments_append {segments : List (List Char)} (hlast : last ≠ []) :
    linesOfSegments (segments ++ [last]) = segments.map lineOfSegment ++ [ofList last] := by
  rw [linesOfSegments_concat, if_neg hlast]
  rfl

theorem rdropWhile_trim (text : String) :
    (trim text).toList.rdropWhile isWhitespace = (trim text).toList := by
  unfold trim
  rw [toList_ofList, rdropWhile_idempotent]

theorem eq_nil_of_blank_end (htext : (trim text).toList = front ++ back) (hback : Blank back) :
    back = [] := by
  have hsame := rdropWhile_trim text
  rw [htext, rdropWhile_append_of_forall hback] at hsame
  have hfront := rdropWhile_prefix isWhitespace front
  have hlength := hfront.length_le
  rw [hsame, length_append] at hlength
  exact eq_nil_of_length_eq_zero (by omega)

theorem trimEnd_end (htext : (trim text).toList = front ++ back) (hback : ¬ Blank back) :
    trimEnd (ofList back) = ofList back := by
  have hsame := rdropWhile_trim text
  rw [htext, rdropWhile_append, if_neg (fun h => hback (rdropWhile_eq_nil_iff.mp h))] at hsame
  rw [← toList_inj, toList_trimEnd, toList_ofList]
  exact append_cancel_left hsame

theorem checkPatchBoundariesStrict_spec (h : checkPatchBoundariesStrict lines = .ok result) :
    ∃ first last, lines.head? = some first ∧ lines.getLast? = some last ∧
      trim first = beginPatchMarker ∧ trim last = endPatchMarker ∧
      result = (lines, lines.tail.dropLast) := by
  unfold checkPatchBoundariesStrict checkStartAndEndLinesStrict at h
  cases hfirst : lines.head? with
  | none =>
    rw [hfirst] at h
    cases h
  | some first =>
    cases hlast : lines.getLast? with
    | none =>
      simp only [hfirst, hlast, map_some, map_none] at h
      split at h <;> cases h
    | some last =>
      simp only [hfirst, hlast, map_some] at h
      split at h
      · next hmarkers =>
        cases h
        exact ⟨first, last, rfl, rfl, hmarkers.1, hmarkers.2, rfl⟩
      · split at h <;> cases h

/-- A text with the markers of a patch: the line that begins it, the lines between, and
the line that ends it. -/
theorem exists_segments
    (hstrict : checkPatchBoundariesStrict (textLines (trim text)) = .ok result) :
    ∃ (first : List Char) (middle : List (List Char)) (last : List Char),
      (trim text).toList = first ++ '\n' :: (middle.flatMap (· ++ ['\n']) ++ last) ∧
      '\n' ∉ first ∧ (∀ segment ∈ middle, '\n' ∉ segment) ∧ '\n' ∉ last ∧
      trim (lineOfSegment first) = beginPatchMarker ∧
      trim (ofList last) = endPatchMarker ∧
      trimEnd (ofList last) = ofList last ∧
      (textLines (trim text)).tail.dropLast = middle.map lineOfSegment ∧
      (textLines (trim text)).getLast? = some (ofList last) := by
  obtain ⟨firstLine, lastLine, hfirstLine, hlastLine, hbegin, hend, -⟩ :=
    checkPatchBoundariesStrict_spec hstrict
  obtain ⟨segments, last, htext, hsegments, hnewline⟩ :=
    LineSplitting.exists_terminated '\n' (trim text).toList
  have hlines : textLines (trim text) = linesOfSegments (segments ++ [last]) := by
    rw [textLines, htext, LineSplitting.splitOn_terminated hsegments hnewline]
  have hblank : ¬ Blank last := by
    intro hblank
    have hnil := eq_nil_of_blank_end htext hblank
    subst hnil
    rcases eq_nil_or_concat segments with rfl | ⟨front, segment, rfl⟩
    · rw [hlines] at hfirstLine
      cases hfirstLine
    · have hend : (trim text).toList = (front.flatMap (· ++ ['\n']) ++ segment) ++ ['\n'] := by
        rw [htext]
        simp
      exact cons_ne_nil _ _ (eq_nil_of_blank_end hend (blank_nil.concat (by decide)))
  have hne : last ≠ [] := by
    rintro rfl
    exact hblank blank_nil
  rw [linesOfSegments_append hne] at hlines
  rw [hlines, getLast?_concat, some.injEq] at hlastLine
  subst hlastLine
  cases segments with
  | nil =>
    rw [hlines] at hfirstLine
    cases hfirstLine
    rw [hend] at hbegin
    exact absurd hbegin (by decide)
  | cons first middle =>
    rw [hlines] at hfirstLine
    cases hfirstLine
    rw [forall_mem_cons] at hsegments
    refine ⟨first, middle, last, ?_, hsegments.1, hsegments.2, hnewline, hbegin, hend,
      trimEnd_end htext hblank, ?_, ?_⟩
    · rw [htext]
      simp
    · rw [hlines]
      simp
    · rw [hlines, getLast?_concat]

theorem readLine_begin {line : String} :
    readLine ⟨.notStarted, []⟩ line =
      if trim line = beginPatchMarker then some ⟨.startedPatch, []⟩ else none := by
  unfold readLine processLine
  dsimp only [atLine]
  split <;> rfl

theorem blank_leadingBlanks (text : String) : Blank (leadingBlanks text) :=
  fun _ hc => mem_takeWhile_imp hc

theorem blank_trailingBlanks (text : String) : Blank (trailingBlanks text) :=
  fun _ hc => mem_rtakeWhile_imp hc

/-- The first line is blank if the text starts with an empty line. -/
theorem streamText_leading (h : '\n' ∈ leadingBlanks text) : streamText text.toList = none := by
  obtain ⟨front, rest, hsplit, hfront⟩ := eq_append_cons_of_mem h
  have hblank : Blank front := fun c hc =>
    blank_leadingBlanks text c (by rw [hsplit]; exact mem_append_left _ hc)
  unfold streamText
  rw [toList_eq_blanks, hsplit, append_assoc, cons_append, feed_line hfront]
  change ((readLine _ (lineOfSegment front)).bind _).bind _ = _
  rw [readLine_begin, if_neg]
  · rfl
  · rw [trim_lineOfSegment, trim_blank hblank]
    decide

theorem streamText_segments {first : List Char} {middle : List (List Char)}
    (hlead : '\n' ∉ leadingBlanks text)
    (htext : (trim text).toList = first ++ '\n' :: (middle.flatMap (· ++ ['\n']) ++ last))
    (hfirst : '\n' ∉ first) (hmiddle : ∀ segment ∈ middle, '\n' ∉ segment) (hlast : '\n' ∉ last)
    (hbegin : trim (lineOfSegment first) = beginPatchMarker) :
    streamText text.toList =
      (readLines ⟨.startedPatch, []⟩ (middle.map lineOfSegment)).bind fun reading =>
        (feed reading last (trailingBlanks text)).bind fun (reading, buffer) =>
          finishReading reading buffer := by
  have hnotMem : '\n' ∉ leadingBlanks text ++ first := by simp [hlead, hfirst]
  have hchars : text.toList = (leadingBlanks text ++ first) ++ '\n' ::
      (middle.flatMap (· ++ ['\n']) ++ (last ++ trailingBlanks text)) := by
    rw [toList_eq_blanks, htext]
    simp
  have hline : trim (lineOfSegment (leadingBlanks text ++ first)) = beginPatchMarker := by
    rw [trim_lineOfSegment, trim_blank_append (blank_leadingBlanks text), ← trim_lineOfSegment,
      hbegin]
  unfold streamText
  rw [hchars, feed_line hnotMem, nil_append]
  change ((readLine _ (lineOfSegment _)).bind _).bind _ = _
  rw [readLine_begin, if_pos hline, bind_some, feed_segments hmiddle, bind_assoc]
  refine congrArg _ (funext fun reading => ?_)
  rw [feed_of_notMem hlast, nil_append]

/-- The text is wrapped in a heredoc, which only `parse_patch` unwraps. -/
def hasHeredocWrapper (text : String) : Bool :=
  (textLines (trim text)).head?.any isHeredocStart

theorem checkPatchBoundariesLenient_plain (hplain : lines.head?.any isHeredocStart = false) :
    checkPatchBoundariesLenient lines = checkPatchBoundariesStrict lines := by
  unfold checkPatchBoundariesLenient
  cases checkPatchBoundariesStrict lines with
  | ok result => rfl
  | error error =>
    cases hfirst : lines.head? with
    | none => rfl
    | some first =>
      cases lines.getLast? with
      | none => rfl
      | some last =>
        rw [hfirst, any_some] at hplain
        dsimp only
        rw [if_neg (by simp [hplain])]

theorem parsePatch_spec (hparse : parsePatch text = .ok args)
    (hplain : hasHeredocWrapper text = false) :
    ∃ (result : List String × List String) (environmentId : Option String)
      (remaining : List String) (lineNumber : ℕ),
      checkPatchBoundariesStrict (textLines (trim text)) = .ok result ∧
      parseEnvironmentIdPreamble (textLines (trim text)).tail.dropLast =
        .ok (environmentId, remaining, lineNumber) ∧
      parseHunks remaining.length [] remaining lineNumber = .ok args.hunks := by
  rw [parsePatch, parseInStrictMode, if_neg Bool.false_ne_true, parsePatchText,
    checkPatchBoundaries, checkPatchBoundariesLenient_plain hplain] at hparse
  generalize textLines (trim text) = lines at hparse ⊢
  split at hparse
  · cases hparse
  · next hstrict =>
    obtain ⟨-, -, -, -, -, -, hresult⟩ := checkPatchBoundariesStrict_spec hstrict
    cases hresult
    split at hparse
    · cases hparse
    · next environmentId remaining lineNumber hpreamble =>
      cases hhunks : parseHunks remaining.length [] remaining lineNumber <;>
        rw [hhunks] at hparse <;> cases hparse
      exact ⟨_, environmentId, remaining, lineNumber, hstrict, hpreamble, hhunks⟩

theorem RegionBetween.eq_false_iff {afterUpdate : Bool} {region : Region}
    (h : RegionBetween afterUpdate region) : afterUpdate = false ↔ region = .outside := by
  cases afterUpdate with
  | false => exact iff_of_true rfl h
  | true =>
    have hregion : region = .inChunk ∨ region = .afterEnd := h
    rcases hregion with rfl | rfl <;> decide

theorem settled_started : Settled ⟨.startedPatch, []⟩ := fun _ => rfl

/-- The lines between the markers, followed by the end of the patch. -/
theorem close_pieces {pieces : List HunkPiece} {post : List Char}
    (hwf : WellFormedPieces false pieces) (hnewline : '\n' ∉ last)
    (hlast : trim (ofList last) = endPatchMarker)
    (htrimmed : trimEnd (ofList last) = ofList last) (hpost : Blank post) :
    ((readLines ⟨.startedPatch, []⟩ (pieces.flatMap HunkPiece.lines)).bind fun reading =>
        (feed reading last post).bind fun (reading, buffer) => finishReading reading buffer) =
          some (pieces.map HunkPiece.hunk) ↔
      ∃ region, scanLines .outside (pieces.flatMap HunkPiece.lines) = some region ∧
        (region = .outside ∨ ofList last = endPatchMarker ∨ '\n' ∉ post) := by
  have hbetween : BetweenPieces false (Reading.mk .startedPatch []).mode := .inl rfl
  have hregion : RegionBetween false .outside := rfl
  have hscan := scans_hunks hregion hwf
  rcases readLines_pieces settled_started hbetween hwf with
    ⟨hnone, hnot⟩ | ⟨mode, hunks, hread, hsettled, hbetween', hiff⟩
  · rcases hscan with ⟨hscan, -⟩ | ⟨region, -, -, hagrees⟩
    · rw [hnone, hscan]
      simp
    · exact absurd hagrees hnot
  · rw [hread, bind_some, close_eq hsettled hbetween' hnewline hlast htrimmed hpost]
    rcases hscan with ⟨hscan, hnot⟩ | ⟨region, hscan, hplace, hagrees⟩
    · rw [hscan]
      have hne : hunks ≠ pieces.map HunkPiece.hunk := fun h => hnot (hiff.mp h)
      split <;> simp [hne]
    · have houtside := hplace.eq_false_iff
      have hhunks := hiff.mpr hagrees
      subst hhunks
      simp only [hscan, houtside]
      split
      · next hends => simp [hends]
      · next hends => simp [hends]

/-- Both parsers read the same hunks in the streamable texts. -/
theorem streamText_eq_iff (hparse : parsePatch text = .ok args)
    (hplain : hasHeredocWrapper text = false) :
    streamText text.toList = some args.hunks ↔ streamable text = true := by
  obtain ⟨result, environmentId, remaining, lineNumber, hstrict, hpreamble, hhunks⟩ :=
    parsePatch_spec hparse hplain
  obtain ⟨first, middle, last, htext, hfirst, hmiddle, hlast, hbegin, hend, htrimmed, hlines,
    hlastLine⟩ := exists_segments hstrict
  have hstar : false = true → ∀ line ∈ remaining.head?, firstChar line = some '*' :=
    fun h => absurd h Bool.false_ne_true
  obtain ⟨pieces, hpieces, hwf, hargs⟩ := parseHunks_spec (Nat.le_refl _) hhunks hstar
  unfold streamable
  rw [hlastLine]
  by_cases hlead : '\n' ∈ leadingBlanks text
  · rw [streamText_leading hlead]
    simp [hlead]
  · rw [streamText_segments hlead htext hfirst hmiddle hlast hbegin, ← hlines]
    obtain ⟨hscan, hread⟩ := readLines_environment hpreamble
    rw [hread]
    rcases hscan with hscan | hscan
    · rw [hscan]
      simp
    · have hclose := close_pieces hwf hlast hend htrimmed (blank_trailingBlanks text)
      rw [hscan, bind_some, bind_some, hpieces, hargs, nil_append, hclose]
      cases scanLines .outside (pieces.flatMap HunkPiece.lines) <;> simp [hlead]

/-- Feeding a text that `parse_patch` accepts, in any division, gives its hunks exactly when
the text is streamable. -/
theorem streaming_agrees_iff {args : ApplyPatchArgs} (hparse : parsePatch text = .ok args)
    (hplain : hasHeredocWrapper text = false) :
    (∀ deltas : List String, deltas.flatMap String.toList = text.toList →
      parseInPieces deltas = .ok args.hunks) ↔ streamable text = true := by
  rw [← streamText_eq_iff hparse hplain]
  have hok : ∀ deltas : List String, deltas.flatMap String.toList = text.toList →
      (parseInPieces deltas = .ok args.hunks ↔ streamText text.toList = some args.hunks) := by
    intro deltas hdeltas
    rw [← hdeltas, ← parseInPieces_eq]
    exact toOption_eq_some.symm
  constructor
  · intro h
    have hwhole : [text].flatMap String.toList = text.toList := by simp
    exact (hok _ hwhole).mp (h _ hwhole)
  · intro h deltas hdeltas
    exact (hok _ hdeltas).mpr h

def samplePatch : String :=
  "*** Begin Patch\n*** Update File: f\n@@ c\n-a\n+b\n*** End Patch\n"

/-- A patch without blank lines, divided inside of its lines. -/
theorem samplePatch_streams :
    parseInPieces ["*** Begin Patch\n*** Upd", "ate File: f\n@@ c\n-a\n", "",
        "+b\n*** End Patch\n"] =
      .ok [.updateFile "f" none [⟨some "c", ["a"], ["b"], false⟩]] := by
  have hparse : parsePatch samplePatch = .ok
      ⟨"*** Begin Patch\n*** Update File: f\n@@ c\n-a\n+b\n*** End Patch",
        [.updateFile "f" none [⟨some "c", ["a"], ["b"], false⟩]], none, none⟩ := by
    decide +kernel
  exact (streaming_agrees_iff hparse (by decide +kernel)).mpr (by decide +kernel) _
    (by decide +kernel)

def blankLinePatch : String :=
  "*** Begin Patch\n*** Update File: f\n\n@@\n-a\n+b\n*** End Patch\n"

/-- An empty line in front of the first chunk is skipped by `parse_patch`, and a chunk of
its own for the streaming parser. -/
theorem blank_line_becomes_chunk :
    (parsePatch blankLinePatch).map ApplyPatchArgs.hunks =
        .ok [.updateFile "f" none [⟨none, ["a"], ["b"], false⟩]] ∧
      hasHeredocWrapper blankLinePatch = false ∧
      parseInPieces [blankLinePatch] =
        .ok [.updateFile "f" none [⟨none, [""], [""], false⟩, ⟨none, ["a"], ["b"], false⟩]] := by
  decide +kernel

end Texts

end DeepseekX.StreamingPatchParser
