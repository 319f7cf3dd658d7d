import DeepseekX.LineSplitting
import DeepseekX.PatchPieces
import DeepseekX.StreamingPatchParser
import DeepseekX.Transducers

/-!
# The streaming parser on the pieces of a patch

On the lines of a piece that `parse_patch` accepts the streaming parser either fails or
adds one hunk. That hunk is the one `parse_patch` reads exactly when no blank line is
passed over in the piece and no line with a context or a destination has white space at
its end.
-/

namespace DeepseekX.StreamingPatchParser
open SeekSequence PatchReplacements PatchParsing List
open LineSplitting (rdropWhile_append)
open Transducers (toOption_map)

section Views

/-- What decides how a line is read. -/
structure Reading where
  mode : StreamingParserMode
  hunks : List Hunk
  deriving DecidableEq, Repr

def eraseNumber : StreamingParserMode → StreamingParserMode
  | .updateFile _ => .updateFile 0
  | mode => mode

def view (parser : Parser) : Reading := ⟨eraseNumber parser.mode, parser.hunks⟩

def atLine (reading : Reading) : Parser := ⟨[], reading.mode, reading.hunks, 0⟩

def readLine (reading : Reading) (line : String) : Option Reading :=
  (processLine (atLine reading) line).toOption.map view

def readLines : Reading → List String → Option Reading
  | reading, [] => some reading
  | reading, line :: lines => (readLine reading line).bind (readLines · lines)

theorem readLines_append (reading : Reading) (lines more : List String) :
    readLines reading (lines ++ more) = (readLines reading lines).bind (readLines · more) := by
  induction lines generalizing reading with
  | nil => rfl
  | cons line lines ih =>
    rw [cons_append, readLines, readLines]
    cases readLine reading line with
    | none => rfl
    | some next => exact ih next

variable {p q : Parser}

theorem view_atLine_view (p : Parser) : view (atLine (view p)) = view p := by
  unfold view atLine
  cases p.mode <;> rfl

theorem ensureUpdateHunkIsNotEmpty_congr (h : view p = view q) (line : String) :
    (ensureUpdateHunkIsNotEmpty p line).toOption =
      (ensureUpdateHunkIsNotEmpty q line).toOption := by
  obtain ⟨pbuffer, pmode, phunks, pnumber⟩ := p
  obtain ⟨qbuffer, qmode, qhunks, qnumber⟩ := q
  simp only [view, Reading.mk.injEq] at h
  obtain ⟨hmode, rfl⟩ := h
  simp only [ensureUpdateHunkIsNotEmpty]
  cases phunks.getLast? with
  | none => rfl
  | some hunk =>
    cases hunk with
    | addFile | deleteFile => rfl
    | updateFile path movePath chunks =>
      dsimp only
      cases chunks.getLast? with
      | none => cases pmode <;> cases qmode <;> first | rfl | cases hmode
      | some chunk =>
        dsimp only
        cases chunkIsEmpty chunk <;> rfl

theorem handleHunkHeadersAndEndPatch_congr (h : view p = view q) (trimmed : String) :
    (handleHunkHeadersAndEndPatch p trimmed).toOption.map (Option.map view) =
      (handleHunkHeadersAndEndPatch q trimmed).toOption.map (Option.map view) := by
  have hhunks : p.hunks = q.hunks := congrArg Reading.hunks h
  have hsome : ∀ {f g : Unit → Option Parser}, (f ()).map view = (g ()).map view →
      ((ensureUpdateHunkIsNotEmpty p trimmed).map f).toOption.map (Option.map view) =
        ((ensureUpdateHunkIsNotEmpty q trimmed).map g).toOption.map (Option.map view) := by
    intro f g hfg
    rw [toOption_map, toOption_map, ensureUpdateHunkIsNotEmpty_congr h, Option.map_map,
      Option.map_map]
    exact Option.map_congr fun _ _ => hfg
  unfold handleHunkHeadersAndEndPatch openedHunk
  split
  · exact hsome (by simp [view, hhunks])
  · cases stripMarker addFileMarker trimmed with
    | some path => exact hsome (by simp [view, hhunks])
    | none =>
      cases stripMarker deleteFileMarker trimmed with
      | some path => exact hsome (by simp [view, hhunks])
      | none =>
        cases stripMarker updateFileMarker trimmed with
        | some path => exact hsome (by simp [view, hhunks, eraseNumber])
        | none => rfl

theorem processHeaderOr_congr (h : view p = view q) (trimmed : String)
    {other other' : Except ParseError Parser}
    (hother : other.toOption.map view = other'.toOption.map view) :
    (processHeaderOr p trimmed other).toOption.map view =
      (processHeaderOr q trimmed other').toOption.map view := by
  have hhandle := handleHunkHeadersAndEndPatch_congr h trimmed
  unfold processHeaderOr
  generalize handleHunkHeadersAndEndPatch p trimmed = handled at hhandle ⊢
  generalize handleHunkHeadersAndEndPatch q trimmed = handled' at hhandle ⊢
  rcases handled with e | (_ | p') <;> rcases handled' with e' | (_ | q') <;>
    first | exact hother | rfl | exact Option.some.inj hhandle | cases hhandle

theorem processChunkLine_number (path : String) (movePath : Option String)
    (chunks : List UpdateFileChunk) (line : String) (n m : ℕ) :
    (processChunkLine path movePath chunks line n).toOption =
      (processChunkLine path movePath chunks line m).toOption := by
  -- the number occurs in the errors alone
  simp only [processChunkLine]
  repeat' split
  all_goals rfl

theorem view_processLine_congr (h : view p = view q) (line : String) :
    (processLine p line).toOption.map view = (processLine q line).toOption.map view := by
  have hhunks : p.hunks = q.hunks := congrArg Reading.hunks h
  have hmode : eraseNumber p.mode = eraseNumber q.mode := congrArg Reading.mode h
  unfold processLine
  cases hp : p.mode <;> cases hq : q.mode <;> rw [hp, hq] at hmode <;>
    cases hmode
  · dsimp only
    split
    · simp [Except.toOption, view, hhunks]
    · rfl
  · dsimp only
    split
    · simp [Except.toOption, h]
    · exact processHeaderOr_congr h _ rfl
  · refine processHeaderOr_congr h _ ?_
    rw [hhunks]
    split
    · simp [Except.toOption, view, setLastHunk, hhunks, hp, hq]
    · rfl
  · exact processHeaderOr_congr h _ rfl
  · refine processHeaderOr_congr h _ ?_
    rw [hhunks]
    split
    · next path movePath chunks _ =>
      rw [toOption_map, toOption_map,
        processChunkLine_number path movePath chunks line p.lineNumber q.lineNumber,
        Option.map_map, Option.map_map]
      exact Option.map_congr fun _ _ => by simp [view, setLastHunk, hhunks, hp, hq, eraseNumber]
    · rfl
  · simp [Except.toOption, h]

theorem view_processLine (p : Parser) (line : String) :
    (processLine p line).toOption.map view = readLine (view p) line :=
  view_processLine_congr (view_atLine_view p).symm line

end Views

section Headers
variable {reading : Reading} {line : String} {hunk : Hunk} {mode : StreamingParserMode}

/-- The last hunk can be left: it is no update hunk, or its last chunk has lines. -/
def Settled (reading : Reading) : Prop :=
  ∀ line, ensureUpdateHunkIsNotEmpty (atLine reading) line = .ok ()

/-- The lines that are looked at as headers: in an update hunk only those with a star. -/
def AwaitsHeader (reading : Reading) (line : String) : Prop :=
  reading.mode = .startedPatch ∨ reading.mode = .addFile ∨ reading.mode = .deleteFile ∨
    reading.mode = .updateFile 0 ∧ firstChar line = some '*'

theorem isWhitespace_star : isWhitespace '*' = false := by decide

theorem stripMarker_header_of_preamble {marker : String}
    (hpreamble : isEnvironmentIdPreambleLine line = true)
    (hexclusive : ¬ environmentIdMarker.toList <+: marker.toList)
    (hexclusive' : ¬ marker.toList <+: environmentIdMarker.toList) :
    stripMarker marker (trim line) = none := by
  have hupper := isSome_stripMarker_iff.mp hpreamble
  rw [trim_eq_trimEnd (firstChar_of_opening hupper rfl) isWhitespace_star]
  unfold stripMarker
  rw [if_neg]
  intro hmarker
  rcases prefix_or_prefix_of_prefix (hmarker.trans (trimEnd_prefix_toList line)) hupper
    with h | h
  · exact hexclusive' h
  · exact hexclusive h

theorem openedHunk_of_preamble (hpreamble : isEnvironmentIdPreambleLine line = true) (n : ℕ) :
    openedHunk (trim line) n = none := by
  unfold openedHunk
  rw [stripMarker_header_of_preamble hpreamble (by decide) (by decide),
    stripMarker_header_of_preamble hpreamble (by decide) (by decide),
    stripMarker_header_of_preamble hpreamble (by decide) (by decide)]
  rfl

variable {trimmed : String}

theorem processHeaderOr_opened (hsettled : Settled reading)
    (hopened : openedHunk trimmed 0 = some (hunk, mode)) (other : Except ParseError Parser) :
    processHeaderOr (atLine reading) trimmed other =
      .ok ⟨[], mode, reading.hunks ++ [hunk], 0⟩ := by
  have hend : trimmed ≠ endPatchMarker := by
    rintro rfl
    cases hopened
  unfold processHeaderOr handleHunkHeadersAndEndPatch
  rw [if_neg hend, show (atLine reading).lineNumber = 0 from rfl, hopened, hsettled]
  rfl

theorem readLine_header (hsettled : Settled reading) (hawaits : AwaitsHeader reading line)
    (hopened : openedHunk (trim line) 0 = some (hunk, mode)) :
    readLine reading line = some ⟨eraseNumber mode, reading.hunks ++ [hunk]⟩ := by
  have hheader := processHeaderOr_opened hsettled hopened
  have hline : processLine (atLine reading) line =
      .ok ⟨[], mode, reading.hunks ++ [hunk], 0⟩ := by
    unfold processLine
    rcases hawaits with h | h | h | ⟨h, hstar⟩
    · have hpreamble : isEnvironmentIdPreambleLine line ≠ true := by
        intro hpreamble
        rw [openedHunk_of_preamble hpreamble] at hopened
        cases hopened
      simp only [atLine, h]
      rw [if_neg hpreamble]
      simpa only [atLine, h] using hheader _
    · simpa only [atLine, h] using hheader _
    · simpa only [atLine, h] using hheader _
    · rw [trim_eq_trimEnd hstar isWhitespace_star] at hheader
      simpa only [atLine, h] using hheader _
  unfold readLine
  rw [hline]
  rfl

theorem openedHunk_of_firstChar (h : firstChar trimmed ≠ some '*') (n : ℕ) :
    openedHunk trimmed n = none := by
  unfold openedHunk
  rw [stripMarker_eq_none_of_firstChar (by decide) h,
    stripMarker_eq_none_of_firstChar (by decide) h, stripMarker_eq_none_of_firstChar (by decide) h]
  rfl

theorem handle_of_firstChar (p : Parser) (h : firstChar trimmed ≠ some '*') :
    handleHunkHeadersAndEndPatch p trimmed = .ok none := by
  have hend : trimmed ≠ endPatchMarker := by
    rintro rfl
    exact h (by decide)
  unfold handleHunkHeadersAndEndPatch
  rw [if_neg hend, openedHunk_of_firstChar h]

theorem readLine_added (done : List Hunk) (path contents : String)
    (hline : firstChar line = some '+') :
    readLine ⟨.addFile, done ++ [.addFile path contents]⟩ line =
      some ⟨.addFile, done ++ [.addFile path (contents ++ lineTail line ++ "\n")]⟩ := by
  have htrim : firstChar (trim line) ≠ some '*' := by
    rw [firstChar_trim hline (by decide)]
    decide
  have hstrip : stripMarker "+" line = some (lineTail line) := by
    have htail : (lineTail line).toList = line.toList.tail := String.toList_ofList
    rw [stripMarker_eq_some_iff, htail]
    exact eq_cons_of_mem_head? hline
  unfold readLine processLine processHeaderOr
  simp only [atLine]
  rw [handle_of_firstChar _ htrim, hstrip]
  simp [setLastHunk, Except.toOption, view, eraseNumber]

theorem readLines_added (done : List Hunk) (path contents : String) {added : List String}
    (hadded : ∀ line ∈ added, firstChar line = some '+') :
    readLines ⟨.addFile, done ++ [.addFile path contents]⟩ added =
      some ⟨.addFile, done ++ [.addFile path (HunkPiece.addedText contents added)]⟩ := by
  induction added generalizing contents with
  | nil => rfl
  | cons line added ih =>
    rw [readLines, readLine_added _ _ _ (hadded line mem_cons_self)]
    exact ih _ (forall_mem_cons.mp hadded).2

end Headers

section ChunkLines
variable {line : String}

def inUpdate (done : List Hunk) (path : String) (movePath : Option String)
    (chunks : List UpdateFileChunk) : Reading :=
  ⟨.updateFile 0, done ++ [.updateFile path movePath chunks]⟩

variable {done : List Hunk} {path : String} {movePath : Option String}
  {chunks : List UpdateFileChunk}

theorem readLine_inUpdate
    (hhandle : handleHunkHeadersAndEndPatch
      (atLine (inUpdate done path movePath chunks)) (trimEnd line) = .ok none) :
    readLine (inUpdate done path movePath chunks) line =
      (processChunkLine path movePath chunks line 0).toOption.map fun hunk =>
        ⟨.updateFile 0, done ++ [hunk]⟩ := by
  unfold readLine processLine processHeaderOr
  simp only [show (atLine (inUpdate done path movePath chunks)).mode = .updateFile 0 from rfl]
  rw [hhandle]
  simp only [show (atLine (inUpdate done path movePath chunks)).hunks =
    done ++ [.updateFile path movePath chunks] from rfl]
  cases hline : processChunkLine path movePath chunks line 0 with
  | error e =>
    simp [atLine, hline, Except.toOption]
  | ok hunk =>
    simp [atLine, hline, inUpdate, Except.toOption, setLastHunk, view, eraseNumber]

theorem readLine_inUpdate_of_firstChar (h : firstChar line ≠ some '*') :
    readLine (inUpdate done path movePath chunks) line =
      (processChunkLine path movePath chunks line 0).toOption.map fun hunk =>
        ⟨.updateFile 0, done ++ [hunk]⟩ :=
  readLine_inUpdate (handle_of_firstChar _ (firstChar_trimEnd_ne h))

/-- There is no chunk yet, or the last one has lines. -/
def HasLines (chunks : List UpdateFileChunk) : Prop :=
  chunks.getLast?.any chunkIsEmpty = false

theorem processChunkLine_content (hline : IsContentLine line) (n : ℕ) :
    processChunkLine path movePath chunks line n =
      .ok (.updateFile path movePath (changeLastChunk chunks (pushContentLine · line))) := by
  have hstar : firstChar line ≠ some '*' := by
    rcases hline with h | h | h | h <;> rw [h] <;> decide
  have hat : firstChar line ≠ some '@' := by
    rcases hline with h | h | h | h <;> rw [h] <;> decide
  have hempty : trimEnd line ≠ emptyChangeContextMarker := fun h =>
    firstChar_trimEnd_ne hat (by rw [h]; decide)
  have heof : trimEnd line ≠ eofMarker := fun h =>
    firstChar_trimEnd_ne hstar (by rw [h]; decide)
  have hcontext : stripMarker changeContextMarker (trimEnd line) = none :=
    stripMarker_eq_none_of_firstChar (by decide) (firstChar_trimEnd_ne hat)
  have hmove : stripMarker moveToMarker (trimEnd line) = none :=
    stripMarker_eq_none_of_firstChar (by decide) (firstChar_trimEnd_ne hstar)
  simp only [processChunkLine, hmove, hcontext, hempty, heof, ite_self, Option.isSome_none,
    Bool.false_eq_true, or_self, false_and, if_false]
  unfold IsContentLine firstChar at hline
  rcases hline with h | h | h | h <;> simp only [h, pushContentLine]

/-- Without white space at its end a line still has its marker, unless it is nothing else. -/
theorem stripMarker_trimEnd_cases {marker : String} (hline : (stripMarker marker line).isSome) :
    trimEnd line = trimEnd marker ∨ ∃ rest, stripMarker marker (trimEnd line) = some rest := by
  obtain ⟨rest, hrest⟩ := Option.isSome_iff_exists.mp hline
  rw [stripMarker_eq_some_iff] at hrest
  have htrim := toList_trimEnd line
  rw [hrest, rdropWhile_append] at htrim
  split at htrim
  · exact .inl (String.toList_inj.mp (htrim.trans (toList_trimEnd marker).symm))
  · refine .inr ⟨String.ofList (rest.toList.rdropWhile isWhitespace), ?_⟩
    rw [stripMarker_eq_some_iff, htrim, String.toList_ofList]

theorem isContextLine_trimEnd (hline : IsContextLine line) : IsContextLine (trimEnd line) := by
  rcases hline with rfl | hline
  · exact .inl (by decide)
  · exact (stripMarker_trimEnd_cases hline).imp (·.trans (by decide)) Option.isSome_iff_exists.mpr

theorem stripMarker_trimEnd_eq_iff {marker line : String}
    (hline : (stripMarker marker line).isSome) :
    stripMarker marker (trimEnd line) = stripMarker marker line ↔ trimEnd line = line := by
  refine ⟨fun h => ?_, fun h => by rw [h]⟩
  obtain ⟨rest, hrest⟩ := Option.isSome_iff_exists.mp hline
  rw [hrest, stripMarker_eq_some_iff] at h
  rw [stripMarker_eq_some_iff] at hrest
  rw [← String.toList_inj, h, hrest]

/-- The two readings of a context line agree when nothing is trimmed. -/
theorem contextOf_trimEnd_iff (hline : IsContextLine line) :
    contextOf (trimEnd line) = contextOf line ↔ trimEnd line = line := by
  rcases hline with rfl | hline
  · decide
  · exact stripMarker_trimEnd_eq_iff hline

theorem processChunkLine_context (hline : IsContextLine line) (hlines : HasLines chunks)
    (n : ℕ) :
    processChunkLine path movePath chunks line n =
      .ok (.updateFile path movePath (chunks ++ [⟨contextOf (trimEnd line), [], [], false⟩])) := by
  have htrim := isContextLine_trimEnd hline
  have hstar : firstChar (trimEnd line) ≠ some '*' := by
    rw [firstChar_contextLine htrim]
    decide
  have hmove : stripMarker moveToMarker (trimEnd line) = none :=
    stripMarker_eq_none_of_firstChar (by decide) hstar
  unfold HasLines at hlines
  simp only [processChunkLine, hmove, hlines, ite_self, Bool.false_eq_true, and_false, if_false]
  by_cases hempty : trimEnd line = emptyChangeContextMarker
  · rw [hempty]
    rfl
  · rw [if_neg hempty]
    obtain ⟨rest, hrest⟩ := Option.isSome_iff_exists.mp (htrim.resolve_left hempty)
    simp only [contextOf, hrest]

/-- A blank line that is neither empty nor starts with a space. -/
theorem processChunkLine_blank (hblank : trim line = "") (hline : ¬ IsContentLine line)
    (n : ℕ) : (processChunkLine path movePath chunks line n).toOption = none := by
  have htrimEnd : trimEnd line = "" := by
    rw [← String.toList_inj, toList_trimEnd]
    exact rdropWhile_eq_nil_iff.mpr (trim_eq_empty_iff.mp hblank)
  have hmove : stripMarker moveToMarker "" = none := by decide
  have hcontext : stripMarker changeContextMarker "" = none := by decide
  have hempty : "" ≠ emptyChangeContextMarker := by decide
  have heof : "" ≠ eofMarker := by decide
  simp only [processChunkLine, htrimEnd, hmove, hcontext, hempty, heof, ite_self,
    Option.isSome_none, Bool.false_eq_true, or_self, false_and, if_false]
  unfold IsContentLine firstChar at hline
  push Not at hline
  split
  · next h => exact absurd h hline.1
  · next h => exact absurd h hline.2.1
  · next h => exact absurd h hline.2.2.1
  · next h => exact absurd h hline.2.2.2
  · split <;> rfl

theorem readLine_content (hline : IsContentLine line) :
    readLine (inUpdate done path movePath chunks) line =
      some (inUpdate done path movePath (changeLastChunk chunks (pushContentLine · line))) := by
  have hstar : firstChar line ≠ some '*' := by
    rcases hline with h | h | h | h <;> rw [h] <;> decide
  rw [readLine_inUpdate_of_firstChar hstar, processChunkLine_content hline]
  rfl

theorem readLine_context (hline : IsContextLine line) (hlines : HasLines chunks) :
    readLine (inUpdate done path movePath chunks) line =
      some (inUpdate done path movePath
        (chunks ++ [⟨contextOf (trimEnd line), [], [], false⟩])) := by
  have hstar : firstChar line ≠ some '*' := by
    rw [firstChar_contextLine hline]
    decide
  rw [readLine_inUpdate_of_firstChar hstar, processChunkLine_context hline hlines]
  rfl

theorem readLine_blank (hblank : trim line = "") (hline : ¬ IsContentLine line) :
    readLine (inUpdate done path movePath chunks) line = none := by
  rw [readLine_inUpdate_of_firstChar (firstChar_of_trim_empty hblank isWhitespace_star),
    processChunkLine_blank hblank hline]
  rfl

theorem changeLastChunk_concat (chunks : List UpdateFileChunk) (chunk : UpdateFileChunk)
    (f : UpdateFileChunk → UpdateFileChunk) :
    changeLastChunk (chunks ++ [chunk]) f = chunks ++ [f chunk] := by
  simp [changeLastChunk]

theorem readLine_eof {chunk : UpdateFileChunk} (hlines : HasLines (chunks ++ [chunk])) :
    readLine (inUpdate done path movePath (chunks ++ [chunk])) eofMarker =
      some (inUpdate done path movePath (chunks ++ [{ chunk with isEndOfFile := true }])) := by
  rw [readLine_inUpdate (by rfl)]
  unfold HasLines at hlines
  have hne : (chunks ++ [chunk]).isEmpty = false := by simp
  simp only [processChunkLine, hlines, hne, changeLastChunk_concat]
  rfl

theorem handle_moveLine (p : Parser) (hline : moveToMarker.toList <+: line.toList) :
    handleHunkHeadersAndEndPatch p line = .ok none := by
  have hend : line ≠ endPatchMarker := by
    rintro rfl
    exact absurd hline (by decide)
  unfold handleHunkHeadersAndEndPatch openedHunk
  rw [if_neg hend, stripMarker_eq_none_of_exclusive hline (by decide) (by decide),
    stripMarker_eq_none_of_exclusive hline (by decide) (by decide),
    stripMarker_eq_none_of_exclusive hline (by decide) (by decide)]
  rfl

/-- A destination that the trimming leaves empty is no destination. -/
theorem readLine_move (hline : (stripMarker moveToMarker line).isSome) :
    readLine (inUpdate done path none []) line =
      (stripMarker moveToMarker (trimEnd line)).map fun moveToPath =>
        inUpdate done path (some moveToPath) [] := by
  rcases stripMarker_trimEnd_cases hline with hmarker | ⟨rest, hstrip⟩
  · have htrimEnd : trimEnd line = "*** Move to:" := hmarker.trans (by decide)
    have hfirst : line.toList.head? = some '*' :=
      firstChar_of_opening (isSome_stripMarker_iff.mp hline) rfl
    rw [readLine_inUpdate (by rw [htrimEnd]; rfl)]
    simp only [processChunkLine, htrimEnd, hfirst]
    rfl
  · have htrim := stripMarker_eq_some_iff.mp hstrip
    rw [readLine_inUpdate (handle_moveLine _ ⟨_, htrim.symm⟩)]
    simp only [processChunkLine, hstrip]
    rfl

variable {chunk : UpdateFileChunk} {lines : List String}

/-- The old lines a line of a chunk stands for. -/
def oldLinesOf (line : String) : List String :=
  match line.toList.head? with
  | none => [""]
  | some ' ' | some '-' => [lineTail line]
  | _ => []

theorem oldLines_pushContent (chunk : UpdateFileChunk) (lines : List String) :
    (pushContent chunk lines).oldLines = chunk.oldLines ++ lines.flatMap oldLinesOf := by
  induction lines generalizing chunk with
  | nil => simp [pushContent]
  | cons line lines ih =>
    have hline : (pushContentLine chunk line).oldLines = chunk.oldLines ++ oldLinesOf line := by
      unfold pushContentLine oldLinesOf
      split <;> simp_all [pushContext, pushNew, pushOld]
    rw [pushContent, foldl_cons, ← pushContent, ih, hline, flatMap_cons, append_assoc]

theorem chunkIsEmpty_pushContentLine {line : String}
    (h : chunkIsEmpty chunk = false ∨ IsContentLine line) :
    chunkIsEmpty (pushContentLine chunk line) = false := by
  unfold pushContentLine
  split
  · simp [chunkIsEmpty, pushContext]
  · simp [chunkIsEmpty, pushContext]
  · simp [chunkIsEmpty, pushNew]
  · simp [chunkIsEmpty, pushOld]
  · next hnone hspace hplus hminus =>
    refine h.resolve_right ?_
    unfold IsContentLine firstChar
    simp_all

theorem chunkIsEmpty_pushContent (h : chunkIsEmpty chunk = false) :
    chunkIsEmpty (pushContent chunk lines) = false := by
  induction lines generalizing chunk with
  | nil => exact h
  | cons line lines ih => exact ih (chunkIsEmpty_pushContentLine (.inl h))

theorem chunkIsEmpty_pushContent_of_ne_nil (hne : lines ≠ [])
    (hlines : ∀ line ∈ lines, IsContentLine line) :
    chunkIsEmpty (pushContent chunk lines) = false := by
  cases lines with
  | nil => exact absurd rfl hne
  | cons line lines =>
    rw [pushContent, foldl_cons]
    exact chunkIsEmpty_pushContent (chunkIsEmpty_pushContentLine (.inr (hlines line mem_cons_self)))

theorem hasLines_concat (h : chunkIsEmpty chunk = false) : HasLines (chunks ++ [chunk]) := by
  simp [HasLines, h]

theorem readLines_content (hlines : ∀ line ∈ lines, IsContentLine line) :
    readLines (inUpdate done path movePath (chunks ++ [chunk])) lines =
      some (inUpdate done path movePath (chunks ++ [pushContent chunk lines])) := by
  induction lines generalizing chunk with
  | nil => rfl
  | cons line lines ih =>
    rw [readLines, readLine_content (hlines line mem_cons_self), changeLastChunk_concat]
    exact ih (forall_mem_cons.mp hlines).2

/-- Without a chunk the first line of content opens one. -/
theorem readLines_content_nil (hne : lines ≠ []) (hlines : ∀ line ∈ lines, IsContentLine line) :
    readLines (inUpdate done path movePath []) lines =
      some (inUpdate done path movePath [pushContent ⟨none, [], [], false⟩ lines]) := by
  cases lines with
  | nil => exact absurd rfl hne
  | cons line lines =>
    have hrest : ∀ other ∈ lines, IsContentLine other := (forall_mem_cons.mp hlines).2
    have hread : readLines (inUpdate done path movePath
        ([] ++ [pushContentLine ⟨none, [], [], false⟩ line])) lines = _ := readLines_content hrest
    rw [readLines, readLine_content (hlines line mem_cons_self)]
    exact hread

/-- A blank line of another kind ends the reading. -/
theorem readLines_blank (hblank : ∀ line ∈ lines, trim line = "")
    (hlines : ¬ ∀ line ∈ lines, IsContentLine line) :
    readLines (inUpdate done path movePath chunks) lines = none := by
  induction lines generalizing chunks with
  | nil => exact absurd (by simp) hlines
  | cons line lines ih =>
    rw [readLines]
    by_cases hline : IsContentLine line
    · rw [readLine_content hline]
      exact ih (forall_mem_cons.mp hblank).2 fun hrest =>
        hlines (forall_mem_cons.mpr ⟨hline, hrest⟩)
    · rw [readLine_blank (hblank line mem_cons_self) hline]
      rfl

theorem length_oldLinesOf_blank {line : String} (hblank : trim line = "")
    (hline : IsContentLine line) : (oldLinesOf line).length = 1 := by
  have hplus := firstChar_of_trim_empty hblank (show isWhitespace '+' = false by decide)
  unfold IsContentLine firstChar at hline
  rcases hline with h | h | h | h
  · simp [oldLinesOf, h]
  · simp [oldLinesOf, h]
  · exact absurd h hplus
  · simp [oldLinesOf, h]

theorem length_oldLines_blank (hblank : ∀ line ∈ lines, trim line = "")
    (hlines : ∀ line ∈ lines, IsContentLine line) :
    (lines.flatMap oldLinesOf).length = lines.length := by
  induction lines with
  | nil => rfl
  | cons line lines ih =>
    rw [flatMap_cons, length_append,
      length_oldLinesOf_blank (hblank line mem_cons_self) (hlines line mem_cons_self),
      ih (forall_mem_cons.mp hblank).2 (forall_mem_cons.mp hlines).2]
    simp [Nat.add_comm]

variable {piece : ChunkPiece} {pieces : List ChunkPiece}

/-- Nothing is passed over behind the chunk and nothing trimmed from its context. -/
def ChunkAgrees (piece : ChunkPiece) : Prop :=
  piece.skipped = [] ∧ ∀ line ∈ piece.contextLine, trimEnd line = line

/-- The streaming parser fails, or adds as many chunks as expected, and those expected
just when the two parsers agree. -/
def AddsChunks (done : List Hunk) (path : String) (movePath : Option String)
    (chunks : List UpdateFileChunk) (result : Option Reading)
    (expected : List UpdateFileChunk) (agrees : Prop) : Prop :=
  (result = none ∧ ¬ agrees) ∨
    ∃ added, result = some (inUpdate done path movePath (chunks ++ added)) ∧
      HasLines (chunks ++ added) ∧ added.length = expected.length ∧ (added = expected ↔ agrees)

/-- The chunk of a piece with the given context, before the lines passed over. -/
def chunkWith (context : Option String) (piece : ChunkPiece) : UpdateFileChunk :=
  { pushContent ⟨context, [], [], false⟩ piece.content with isEndOfFile := piece.atEnd }

def trimmedContext (piece : ChunkPiece) : Option String :=
  piece.contextLine.bind fun line => contextOf (trimEnd line)

theorem changeContext_pushContent (chunk : UpdateFileChunk) (lines : List String) :
    (pushContent chunk lines).changeContext = chunk.changeContext := by
  induction lines generalizing chunk with
  | nil => rfl
  | cons line lines ih =>
    rw [pushContent, foldl_cons, ← pushContent, ih]
    unfold pushContentLine
    split <;> rfl

theorem readLines_endLines {chunk : UpdateFileChunk} (hchunk : chunkIsEmpty chunk = false)
    (heof : chunk.isEndOfFile = false) (atEnd : Bool) :
    readLines (inUpdate done path movePath (chunks ++ [chunk])) (endLines atEnd) =
      some (inUpdate done path movePath (chunks ++ [{ chunk with isEndOfFile := atEnd }])) := by
  cases atEnd with
  | false =>
    have hsame : { chunk with isEndOfFile := false } = chunk := by rw [← heof]
    rw [hsame]
    rfl
  | true =>
    have hread : readLine (inUpdate done path movePath (chunks ++ [chunk])) eofMarker = _ :=
      readLine_eof (hasLines_concat hchunk)
    simp only [endLines, if_true, readLines, hread, Option.bind_some]

theorem readLines_chunk (hpiece : piece.WellFormed) (hlines : HasLines chunks)
    (hcontext : piece.contextLine = none → chunks = []) :
    readLines (inUpdate done path movePath chunks)
        (piece.contextLine.toList ++ piece.content ++ endLines piece.atEnd) =
      some (inUpdate done path movePath (chunks ++ [chunkWith (trimmedContext piece) piece])) := by
  have hopened : readLines (inUpdate done path movePath chunks)
      (piece.contextLine.toList ++ piece.content) = some (inUpdate done path movePath
        (chunks ++ [pushContent ⟨trimmedContext piece, [], [], false⟩ piece.content])) := by
    unfold trimmedContext
    cases hline : piece.contextLine with
    | none =>
      rw [hcontext hline]
      exact readLines_content_nil hpiece.nonempty hpiece.content
    | some line =>
      have hcontextLine := hpiece.context line hline
      rw [Option.toList_some, singleton_append, readLines,
        readLine_context hcontextLine hlines, Option.bind_some, Option.bind_some]
      exact readLines_content hpiece.content
  rw [readLines_append, hopened]
  exact readLines_endLines (chunkIsEmpty_pushContent_of_ne_nil hpiece.nonempty hpiece.content)
    (isEndOfFile_pushContent _ _) piece.atEnd

theorem chunkIsEmpty_chunkWith (hpiece : piece.WellFormed) (context : Option String) :
    chunkIsEmpty (chunkWith context piece) = false :=
  chunkIsEmpty_pushContent_of_ne_nil hpiece.nonempty hpiece.content

theorem oldLines_chunkWith (context : Option String) :
    (chunkWith context piece).oldLines = piece.content.flatMap oldLinesOf := by
  unfold chunkWith
  rw [oldLines_pushContent]
  rfl

theorem chunk_eq_chunkWith (piece : ChunkPiece) :
    piece.chunk = chunkWith (piece.contextLine.bind contextOf) piece := rfl

theorem trimmedContext_eq_iff (hpiece : piece.WellFormed) :
    trimmedContext piece = piece.contextLine.bind contextOf ↔
      ∀ line ∈ piece.contextLine, trimEnd line = line := by
  unfold trimmedContext
  cases hline : piece.contextLine with
  | none => simp
  | some line =>
    rw [Option.bind_some, Option.bind_some, contextOf_trimEnd_iff (hpiece.context line hline)]
    simp

theorem changeContext_chunkWith (context : Option String) :
    (chunkWith context piece).changeContext = context := by
  unfold chunkWith
  rw [changeContext_pushContent]

/-- Blank lines behind a chunk make it longer. -/
theorem pushContent_chunkWith_eq_iff (hpiece : piece.WellFormed)
    (hskipped : ∀ line ∈ piece.skipped, IsContentLine line) :
    pushContent (chunkWith (trimmedContext piece) piece) piece.skipped = piece.chunk ↔
      ChunkAgrees piece := by
  rw [chunk_eq_chunkWith]
  constructor
  · intro h
    have hold := congrArg UpdateFileChunk.oldLines h
    have hcontext := congrArg UpdateFileChunk.changeContext h
    rw [oldLines_pushContent, oldLines_chunkWith, oldLines_chunkWith] at hold
    rw [changeContext_pushContent, changeContext_chunkWith, changeContext_chunkWith,
      trimmedContext_eq_iff hpiece] at hcontext
    have hlength := length_oldLines_blank hpiece.skipped hskipped
    rw [append_right_eq_self.mp hold] at hlength
    exact ⟨length_eq_zero_iff.mp hlength.symm, hcontext⟩
  · rintro ⟨hnil, htrim⟩
    rw [hnil, (trimmedContext_eq_iff hpiece).mpr htrim, pushContent, foldl_nil]

theorem addsChunks_piece (hpiece : piece.WellFormed) (hlines : HasLines chunks)
    (hcontext : piece.contextLine = none → chunks = []) :
    AddsChunks done path movePath chunks
      (readLines (inUpdate done path movePath chunks) piece.lines) [piece.chunk]
      (ChunkAgrees piece) := by
  have hread : readLines (inUpdate done path movePath chunks) piece.lines =
      readLines (inUpdate done path movePath
        (chunks ++ [chunkWith (trimmedContext piece) piece])) piece.skipped := by
    unfold ChunkPiece.lines
    rw [readLines_append, readLines_chunk hpiece hlines hcontext, Option.bind_some]
  rw [hread]
  by_cases hskipped : ∀ line ∈ piece.skipped, IsContentLine line
  · right
    refine ⟨[pushContent (chunkWith (trimmedContext piece) piece) piece.skipped],
      readLines_content hskipped, hasLines_concat (chunkIsEmpty_pushContent
        (chunkIsEmpty_chunkWith hpiece _)), rfl, ?_⟩
    rw [cons.injEq, and_iff_left rfl]
    exact pushContent_chunkWith_eq_iff hpiece hskipped
  · left
    refine ⟨readLines_blank hpiece.skipped hskipped, ?_⟩
    rintro ⟨hnil, _⟩
    exact hskipped (by simp [hnil])

theorem AddsChunks.append {result : Option Reading} {first rest : List UpdateFileChunk}
    {agrees agrees' : Prop} {lines : List String}
    (hresult : AddsChunks done path movePath chunks result first agrees)
    (hlines : ∀ added, added.length = first.length → HasLines (chunks ++ added) →
      AddsChunks done path movePath (chunks ++ added)
        (readLines (inUpdate done path movePath (chunks ++ added)) lines) rest agrees') :
    AddsChunks done path movePath chunks (result.bind (readLines · lines)) (first ++ rest)
      (agrees ∧ agrees') := by
  rcases hresult with ⟨rfl, hnot⟩ | ⟨added, rfl, hhas, hlength, hiff⟩
  · exact .inl ⟨rfl, fun h => hnot h.1⟩
  · rcases hlines added hlength hhas with ⟨hnone, hnot⟩ | ⟨more, hsome, hhas', hlength', hiff'⟩
    · exact .inl ⟨hnone, fun h => hnot h.2⟩
    · right
      rw [append_assoc] at hsome hhas'
      refine ⟨added ++ more, hsome, hhas', by simp [hlength, hlength'], ?_⟩
      rw [← hiff, ← hiff']
      exact ⟨fun h => append_inj h hlength, fun h => by rw [h.1, h.2]⟩

theorem addsChunks_pieces (hpieces : LaterChunks pieces) (hlines : HasLines chunks) :
    AddsChunks done path movePath chunks
      (readLines (inUpdate done path movePath chunks) (pieces.flatMap ChunkPiece.lines))
      (pieces.map ChunkPiece.chunk) (∀ piece ∈ pieces, ChunkAgrees piece) := by
  induction pieces generalizing chunks with
  | nil => exact .inr ⟨[], by simp [readLines], by simpa using hlines, rfl, by simp⟩
  | cons piece pieces ih =>
    obtain ⟨hpiece, hcontext⟩ := hpieces piece mem_cons_self
    rw [flatMap_cons, readLines_append, forall_mem_cons]
    exact (addsChunks_piece hpiece hlines fun h => absurd h hcontext).append
      fun added _ hadded => ih (forall_mem_cons.mp hpieces).2 hadded

/-- The chunks of an update hunk, of which the first may lack its context. -/
theorem addsChunks_all {first : ChunkPiece} (hfirst : first.WellFormed)
    (hpieces : LaterChunks pieces) (hlines : HasLines chunks)
    (hcontext : first.contextLine = none → chunks = []) :
    AddsChunks done path movePath chunks
      (readLines (inUpdate done path movePath chunks) ((first :: pieces).flatMap ChunkPiece.lines))
      ((first :: pieces).map ChunkPiece.chunk) (∀ piece ∈ first :: pieces, ChunkAgrees piece) := by
  rw [flatMap_cons, readLines_append, forall_mem_cons]
  exact (addsChunks_piece hfirst hlines hcontext).append
    fun added _ hadded => addsChunks_pieces hpieces hadded

variable {first : ChunkPiece} {skipped : List String}

/-- The streaming parser fails, or reads the chunks, and those expected just when the two
parsers agree. -/
def ReadsChunks (done : List Hunk) (path : String) (movePath : Option String)
    (result : Option Reading) (expected : List UpdateFileChunk) (agrees : Prop) : Prop :=
  (result = none ∧ ¬ agrees) ∨
    ∃ chunks, result = some (inUpdate done path movePath chunks) ∧ chunks ≠ [] ∧
      HasLines chunks ∧ (chunks = expected ↔ agrees)

/-- A first chunk without context takes up the blank lines before it. -/
theorem readLines_merged {before : UpdateFileChunk} (hfirst : first.WellFormed)
    (hcontext : first.contextLine = none) (hbefore : chunkIsEmpty before = false)
    (heof : before.isEndOfFile = false) :
    readLines (inUpdate done path movePath [before]) first.lines = none ∨
      ∃ merged, readLines (inUpdate done path movePath [before]) first.lines =
          some (inUpdate done path movePath [merged]) ∧ chunkIsEmpty merged = false ∧
        before.oldLines.length + first.chunk.oldLines.length ≤ merged.oldLines.length := by
  have hnonempty : chunkIsEmpty (pushContent before first.content) = false :=
    chunkIsEmpty_pushContent hbefore
  have hcontent : readLines (inUpdate done path movePath ([] ++ [before])) first.content = _ :=
    readLines_content hfirst.content
  have hend : readLines (inUpdate done path movePath
      ([] ++ [pushContent before first.content])) (endLines first.atEnd) = _ :=
    readLines_endLines hnonempty ((isEndOfFile_pushContent _ _).trans heof) first.atEnd
  rw [nil_append, nil_append] at hcontent
  rw [nil_append] at hend
  unfold ChunkPiece.lines
  rw [hcontext, Option.toList_none, nil_append, readLines_append, readLines_append, hcontent,
    Option.bind_some, hend]
  by_cases hskipped : ∀ line ∈ first.skipped, IsContentLine line
  · right
    have hread : readLines (inUpdate done path movePath ([] ++
        [{ pushContent before first.content with isEndOfFile := first.atEnd }]))
        first.skipped = _ := readLines_content hskipped
    refine ⟨_, hread, chunkIsEmpty_pushContent hnonempty, ?_⟩
    rw [oldLines_pushContent, oldLines_pushContent, chunk_eq_chunkWith, oldLines_chunkWith]
    simp only [length_append]
    omega
  · exact .inl (readLines_blank hfirst.skipped hskipped)

/-- Blank lines before the first chunk make a chunk of their own or go into the first. -/
theorem readsChunks_of_skipped (hskipped : ∀ line ∈ skipped, trim line = "")
    (hne : skipped ≠ []) (hfirst : first.WellFormed) (hpieces : LaterChunks pieces) :
    ReadsChunks done path movePath
      (readLines (inUpdate done path movePath [])
        (skipped ++ (first :: pieces).flatMap ChunkPiece.lines))
      ((first :: pieces).map ChunkPiece.chunk) False := by
  rw [readLines_append]
  by_cases hcontent : ∀ line ∈ skipped, IsContentLine line
  · have hold : 0 < (pushContent ⟨none, [], [], false⟩ skipped).oldLines.length := by
      rw [oldLines_pushContent, nil_append, length_oldLines_blank hskipped hcontent]
      exact length_pos_iff.mpr hne
    have hbefore : chunkIsEmpty (pushContent ⟨none, [], [], false⟩ skipped) = false :=
      chunkIsEmpty_pushContent_of_ne_nil hne hcontent
    have heof := isEndOfFile_pushContent ⟨none, [], [], false⟩ skipped
    rw [readLines_content_nil hne hcontent, Option.bind_some]
    generalize pushContent ⟨none, [], [], false⟩ skipped = before at hold hbefore heof
    by_cases hcontext : first.contextLine = none
    · rw [flatMap_cons, readLines_append]
      rcases readLines_merged hfirst hcontext hbefore heof with
        hnone | ⟨merged, hread, hmerged, hlen⟩
      · rw [hnone]
        exact .inl ⟨rfl, id⟩
      · have hhas : HasLines ([] ++ [merged]) := hasLines_concat hmerged
        rw [hread]
        rcases addsChunks_pieces hpieces hhas with ⟨hnone, _⟩ | ⟨added, hsome, hhas', _⟩
        · exact .inl ⟨hnone, id⟩
        · refine .inr ⟨_, hsome, by simp, hhas', iff_of_false ?_ id⟩
          intro heq
          have hmergedeq : merged = first.chunk := (cons.inj heq).1
          rw [hmergedeq] at hlen
          omega
    · have hhas : HasLines ([] ++ [before]) := hasLines_concat hbefore
      rcases addsChunks_all hfirst hpieces hhas (fun h => absurd h hcontext) with
        ⟨hnone, _⟩ | ⟨added, hsome, hhas', hlength, _⟩
      · exact .inl ⟨hnone, id⟩
      · refine .inr ⟨_, hsome, by simp, hhas', iff_of_false ?_ id⟩
        intro heq
        have hlen := congrArg length heq
        simp only [length_append, length_singleton] at hlen
        omega
  · rw [readLines_blank hskipped hcontent]
    exact .inl ⟨rfl, id⟩

/-- The lines of an update hunk behind its header and its destination. -/
theorem readsChunks (hskipped : ∀ line ∈ skipped, trim line = "") (hfirst : first.WellFormed)
    (hpieces : LaterChunks pieces) :
    ReadsChunks done path movePath
      (readLines (inUpdate done path movePath [])
        (skipped ++ (first :: pieces).flatMap ChunkPiece.lines))
      ((first :: pieces).map ChunkPiece.chunk)
      (skipped = [] ∧ ∀ piece ∈ first :: pieces, ChunkAgrees piece) := by
  by_cases hnil : skipped = []
  · subst hnil
    have hhas : HasLines [] := rfl
    rcases addsChunks_all hfirst hpieces hhas (fun _ => rfl) with
      ⟨hnone, hnot⟩ | ⟨added, hsome, hhas', hlength, hiff⟩
    · exact .inl ⟨hnone, fun h => hnot h.2⟩
    · refine .inr ⟨added, hsome, ?_, hhas', hiff.trans ⟨fun h => ⟨rfl, h⟩, fun h => h.2⟩⟩
      rw [← length_pos_iff, hlength]
      exact Nat.succ_pos _
  · have hfalse : (skipped = [] ∧ ∀ piece ∈ first :: pieces, ChunkAgrees piece) = False :=
      eq_false fun h => hnil h.1
    rw [hfalse]
    exact readsChunks_of_skipped hskipped hnil hfirst hpieces

end ChunkLines

section HunkPieces
variable {reading : Reading} {piece : HunkPiece}

/-- The pieces that both parsers read alike. -/
def PieceAgrees : HunkPiece → Prop
  | .add .. | .delete .. => True
  | .update _ _ moveLine skipped first chunks =>
    (∀ line ∈ moveLine, trimEnd line = line) ∧ skipped = [] ∧
      ∀ piece ∈ first :: chunks, ChunkAgrees piece

def modeOf : HunkPiece → StreamingParserMode
  | .add .. => .addFile
  | .delete .. => .deleteFile
  | .update .. => .updateFile 0

/-- The streaming parser fails, or adds one hunk, and the expected one just when the two
parsers agree. -/
def AddsHunk (reading : Reading) (mode : StreamingParserMode) (result : Option Reading)
    (expected : Hunk) (agrees : Prop) : Prop :=
  (result = none ∧ ¬ agrees) ∨
    ∃ hunk, result = some ⟨mode, reading.hunks ++ [hunk]⟩ ∧
      Settled ⟨mode, reading.hunks ++ [hunk]⟩ ∧ (hunk = expected ↔ agrees)

variable {done : List Hunk} {path : String} {moveLine : Option String} {afterUpdate : Bool}

theorem settled_inUpdate {movePath : Option String} {chunks : List UpdateFileChunk}
    (hne : chunks ≠ []) (hlines : HasLines chunks) :
    Settled (inUpdate done path movePath chunks) := by
  intro line
  obtain ⟨front, last, rfl⟩ := (eq_nil_or_concat chunks).resolve_left hne
  simp only [HasLines, concat_eq_append, getLast?_concat, Option.any_some] at hlines
  simp [ensureUpdateHunkIsNotEmpty, atLine, inUpdate, hlines]

theorem readLines_moveLine (hmove : ∀ line ∈ moveLine, (stripMarker moveToMarker line).isSome) :
    (readLines (inUpdate done path none []) moveLine.toList = none ∧
        ¬ ∀ line ∈ moveLine, trimEnd line = line) ∨
      ∃ movePath, readLines (inUpdate done path none []) moveLine.toList =
          some (inUpdate done path movePath []) ∧
        (movePath = moveLine.bind (stripMarker moveToMarker) ↔
          ∀ line ∈ moveLine, trimEnd line = line) := by
  cases moveLine with
  | none => exact .inr ⟨none, rfl, by simp⟩
  | some line =>
    have hline := hmove line rfl
    have hiff := stripMarker_trimEnd_eq_iff hline
    simp only [Option.toList_some, readLines, readLine_move hline, Option.bind_some,
      Option.mem_def, Option.some.injEq, forall_eq']
    cases hstrip : stripMarker moveToMarker (trimEnd line) with
    | none =>
      refine .inl ⟨rfl, ?_⟩
      rw [← hiff, hstrip]
      intro h
      rw [← h] at hline
      cases hline
    | some movePath =>
      refine .inr ⟨some movePath, rfl, ?_⟩
      rw [← hiff, hstrip]

theorem addsHunk_update {header : String} {skipped : List String} {first : ChunkPiece}
    {chunks : List ChunkPiece} (hsettled : Settled reading) (hawaits : AwaitsHeader reading header)
    (hwf : (HunkPiece.update header path moveLine skipped first chunks).WellFormed) :
    AddsHunk reading (.updateFile 0)
      (readLines reading (HunkPiece.update header path moveLine skipped first chunks).lines)
      (HunkPiece.update header path moveLine skipped first chunks).hunk
      (PieceAgrees (.update header path moveLine skipped first chunks)) := by
  obtain ⟨hadd, hdelete, hupdate, hmove, hskipped, hfirst, hpieces⟩ := hwf
  have hopened : openedHunk (trim header) 0 = some (.updateFile path none [], .updateFile 0) := by
    unfold openedHunk
    rw [hadd, hdelete, hupdate]
    rfl
  have hheader : readLine reading header = some (inUpdate reading.hunks path none []) :=
    readLine_header hsettled hawaits hopened
  simp only [HunkPiece.lines, HunkPiece.hunk]
  rw [readLines, hheader, Option.bind_some, readLines_append]
  rcases readLines_moveLine hmove with ⟨hnone, hnot⟩ | ⟨movePath, hmoved, hmoveiff⟩
  · rw [hnone]
    exact .inl ⟨rfl, fun h => hnot h.1⟩
  · rw [hmoved]
    rcases readsChunks hskipped hfirst hpieces with
      ⟨hnone, hnot⟩ | ⟨read, hread, hne, hhas, hiff⟩
    · exact .inl ⟨hnone, fun h => hnot h.2⟩
    · refine .inr ⟨.updateFile path movePath read, hread, settled_inUpdate hne hhas, ?_⟩
      rw [Hunk.updateFile.injEq, hmoveiff, hiff]
      exact ⟨fun h => h.2, fun h => ⟨rfl, h⟩⟩

theorem addsHunk_piece (hsettled : Settled reading)
    (hawaits : AwaitsHeader reading piece.header) (hwf : piece.WellFormed) :
    AddsHunk reading (modeOf piece) (readLines reading piece.lines) piece.hunk
      (PieceAgrees piece) := by
  cases piece with
  | add header path added =>
    obtain ⟨hadd, hadded⟩ := hwf
    have hopened : openedHunk (trim header) 0 = some (.addFile path "", .addFile) := by
      unfold openedHunk
      rw [hadd]
    have hheader : readLine reading header = _ := readLine_header hsettled hawaits hopened
    refine .inr ⟨.addFile path (HunkPiece.addedText "" added), ?_, ?_, iff_of_true rfl trivial⟩
    · rw [HunkPiece.lines, readLines, hheader]
      exact readLines_added _ _ _ hadded
    · intro line
      simp [ensureUpdateHunkIsNotEmpty, atLine]
  | delete header path =>
    obtain ⟨hadd, hdelete⟩ := hwf
    have hopened : openedHunk (trim header) 0 = some (.deleteFile path, .deleteFile) := by
      unfold openedHunk
      rw [hadd, hdelete]
    have hheader : readLine reading header = _ := readLine_header hsettled hawaits hopened
    refine .inr ⟨.deleteFile path, ?_, ?_, iff_of_true rfl trivial⟩
    · rw [HunkPiece.lines, readLines, hheader]
      rfl
    · intro line
      simp [ensureUpdateHunkIsNotEmpty, atLine]
  | update header path moveLine skipped first chunks =>
    exact addsHunk_update hsettled hawaits hwf

def BetweenPieces (afterUpdate : Bool) (mode : StreamingParserMode) : Prop :=
  if afterUpdate then mode = .updateFile 0
  else mode = .startedPatch ∨ mode = .addFile ∨ mode = .deleteFile

def lastIsUpdate : Bool → List HunkPiece → Bool
  | afterUpdate, [] => afterUpdate
  | _, piece :: pieces => lastIsUpdate piece.isUpdate pieces

theorem betweenPieces_modeOf (piece : HunkPiece) : BetweenPieces piece.isUpdate (modeOf piece) := by
  cases piece <;> simp [BetweenPieces, HunkPiece.isUpdate, modeOf]

theorem BetweenPieces.awaitsHeader {line : String} (h : BetweenPieces afterUpdate reading.mode)
    (hstar : afterUpdate = true → firstChar line = some '*') : AwaitsHeader reading line := by
  cases afterUpdate with
  | true => exact .inr (.inr (.inr ⟨h, hstar rfl⟩))
  | false =>
    rcases h with h | h | h
    · exact .inl h
    · exact .inr (.inl h)
    · exact .inr (.inr (.inl h))

/-- What the streaming parser makes of the lines between the markers. -/
theorem readLines_pieces {pieces : List HunkPiece}
    (hsettled : Settled reading) (hbetween : BetweenPieces afterUpdate reading.mode)
    (hwf : WellFormedPieces afterUpdate pieces) :
    (readLines reading (pieces.flatMap HunkPiece.lines) = none ∧
        ¬ ∀ piece ∈ pieces, PieceAgrees piece) ∨
      ∃ mode hunks, readLines reading (pieces.flatMap HunkPiece.lines) =
          some ⟨mode, reading.hunks ++ hunks⟩ ∧ Settled ⟨mode, reading.hunks ++ hunks⟩ ∧
        BetweenPieces (lastIsUpdate afterUpdate pieces) mode ∧
        (hunks = pieces.map HunkPiece.hunk ↔ ∀ piece ∈ pieces, PieceAgrees piece) := by
  induction pieces generalizing reading afterUpdate with
  | nil => exact .inr ⟨reading.mode, [], by simp [readLines], by simpa using hsettled, hbetween,
      by simp⟩
  | cons piece pieces ih =>
    obtain ⟨hpiece, hstar, hpieces⟩ := hwf
    rw [flatMap_cons, readLines_append, forall_mem_cons]
    rcases addsHunk_piece hsettled (hbetween.awaitsHeader hstar) hpiece with
      ⟨hnone, hnot⟩ | ⟨hunk, hread, hsettled', hiff⟩
    · rw [hnone]
      exact .inl ⟨rfl, fun h => hnot h.1⟩
    · rw [hread]
      rcases ih hsettled' (betweenPieces_modeOf piece) hpieces with
        ⟨hnone, hnot⟩ | ⟨mode, hunks, hread', hsettled'', hbetween', hiff'⟩
      · exact .inl ⟨hnone, fun h => hnot h.2⟩
      · rw [append_assoc] at hread' hsettled''
        refine .inr ⟨mode, hunk :: hunks, hread', hsettled'', hbetween', ?_⟩
        rw [map_cons, cons.injEq, hiff, hiff']

end HunkPieces

end DeepseekX.StreamingPatchParser
