import DeepseekX.StreamedPieces

/-!
# Lines on which the two parsers agree

A scan of the lines of a patch decides whether the streaming parser reads them as
`parse_patch` does. Inside of update hunks it looks for blank lines outside of chunks, for
blank lines that do not start with a space, and for white space at the end of lines with a
context or a destination.
-/

namespace DeepseekX.StreamingPatchParser
open SeekSequence PatchReplacements PatchParsing List Option

inductive Region where
  | outside
  | beforeChunks
  | inChunk
  | afterEnd
  deriving DecidableEq, Repr

def regionOfHeader (line : String) : Region :=
  if (stripMarker updateFileMarker (trim line)).isSome then .beforeChunks else .outside

def scanLine (region : Region) (line : String) : Option Region :=
  if region = .outside then some (regionOfHeader line)
  else if firstChar line = some '*' then
    if line = eofMarker then some .afterEnd
    else if (stripMarker moveToMarker line).isSome then
      if trimEnd line = line then some .beforeChunks else none
    else some (regionOfHeader line)
  else if trim line = "" ∧ ¬ (region = .inChunk ∧ IsContentLine line) then none
  else if firstChar line = some '@' then
    if trimEnd line = line then some .inChunk else none
  else some .inChunk

def scanLines : Region → List String → Option Region
  | region, [] => some region
  | region, line :: lines => (scanLine region line).bind (scanLines · lines)

theorem scanLines_append (region : Region) (lines more : List String) :
    scanLines region (lines ++ more) = (scanLines region lines).bind (scanLines · more) := by
  induction lines generalizing region with
  | nil => rfl
  | cons line lines ih =>
    rw [cons_append, scanLines, scanLines]
    cases scanLine region line with
    | none => rfl
    | some next => exact ih next

/-- The scan ends in a place of the given kind if the parsers agree, and fails if not. -/
def Scans (result : Option Region) (places : Region → Prop) (agrees : Prop) : Prop :=
  (result = none ∧ ¬ agrees) ∨ ∃ region, result = some region ∧ places region ∧ agrees

theorem Scans.append {result : Option Region} {places places' : Region → Prop}
    {agrees agrees' : Prop} {lines : List String} (h : Scans result places agrees)
    (h' : ∀ region, places region → Scans (scanLines region lines) places' agrees') :
    Scans (result.bind (scanLines · lines)) places' (agrees ∧ agrees') := by
  rcases h with ⟨rfl, hnot⟩ | ⟨region, rfl, hplace, hagrees⟩
  · exact .inl ⟨rfl, fun h => hnot h.1⟩
  · rcases h' region hplace with ⟨hnone, hnot⟩ | ⟨region', hsome, hplace', hagrees'⟩
    · exact .inl ⟨hnone, fun h => hnot h.2⟩
    · exact .inr ⟨region', hsome, hplace', hagrees, hagrees'⟩

section ChunkLines
variable {region : Region} {line : String} {lines : List String} {piece : ChunkPiece}
  {pieces : List ChunkPiece}

theorem scanLine_content (hline : IsContentLine line)
    (hregion : region = .inChunk ∨ region = .beforeChunks ∧ trim line ≠ "") :
    scanLine region line = some .inChunk := by
  have hfirst : firstChar line ≠ some '*' ∧ firstChar line ≠ some '@' := by
    rcases hline with h | h | h | h <;> rw [h] <;> decide
  unfold scanLine
  rcases hregion with rfl | ⟨rfl, hblank⟩
  · rw [if_neg (by decide), if_neg hfirst.1, if_neg (by simp [hline]), if_neg hfirst.2]
  · rw [if_neg (by decide), if_neg hfirst.1, if_neg (by simp [hblank]), if_neg hfirst.2]

theorem scanLines_content (hlines : ∀ line ∈ lines, IsContentLine line) :
    scanLines .inChunk lines = some .inChunk := by
  induction lines with
  | nil => rfl
  | cons line lines ih =>
    rw [scanLines, scanLine_content (hlines line mem_cons_self) (.inl rfl)]
    exact ih (forall_mem_cons.mp hlines).2

theorem scanLine_context (hline : IsContextLine line) (hregion : region ≠ .outside) :
    scanLine region line = if trimEnd line = line then some .inChunk else none := by
  have hfirst := firstChar_contextLine hline
  have hblank : trim line ≠ "" := fun h =>
    firstChar_of_trim_empty h (show isWhitespace '@' = false by decide) hfirst
  unfold scanLine
  rw [if_neg hregion, if_neg (by rw [hfirst]; decide), if_neg (by simp [hblank]), if_pos hfirst]

theorem scanLine_eof (hregion : region ≠ .outside) :
    scanLine region eofMarker = some .afterEnd := by
  unfold scanLine
  rw [if_neg hregion, if_pos (by decide), if_pos rfl]

theorem scanLine_blank (hblank : trim line = "") (hregion : region ≠ .outside)
    (hline : ¬ (region = .inChunk ∧ IsContentLine line)) : scanLine region line = none := by
  unfold scanLine
  rw [if_neg hregion, if_neg (firstChar_of_trim_empty hblank isWhitespace_star),
    if_pos ⟨hblank, hline⟩]

theorem scans_chunk (hpiece : piece.WellFormed) (hregion : region ≠ .outside)
    (hcontext : piece.contextLine = none → region = .beforeChunks) :
    Scans (scanLines region (piece.contextLine.toList ++ piece.content ++ endLines piece.atEnd))
      (· = if piece.atEnd then .afterEnd else .inChunk)
      (∀ line ∈ piece.contextLine, trimEnd line = line) := by
  have hend : scanLines .inChunk (endLines piece.atEnd) =
      some (if piece.atEnd then .afterEnd else .inChunk) := by
    cases piece.atEnd with
    | false => rfl
    | true =>
      have heof : scanLine .inChunk eofMarker = some .afterEnd := scanLine_eof (by decide)
      simp [endLines, scanLines, heof]
  rw [append_assoc, scanLines_append]
  cases hline : piece.contextLine with
  | none =>
    obtain ⟨first, rest, hcons⟩ := exists_cons_of_ne_nil hpiece.nonempty
    have hcontent := hpiece.content
    rw [hcons, forall_mem_cons] at hcontent
    have hfirst : scanLine region first = some .inChunk :=
      scanLine_content hcontent.1 (.inr ⟨hcontext hline, hpiece.first hline first
        (by rw [hcons]; rfl)⟩)
    refine .inr ⟨_, ?_, rfl, by simp⟩
    rw [toList_none, scanLines, bind_some, scanLines_append, hcons, scanLines,
      hfirst, bind_some, scanLines_content hcontent.2, bind_some, hend]
  | some line =>
    have hread : scanLines region (toList (some line)) =
        if trimEnd line = line then some .inChunk else none := by
      rw [toList_some, scanLines, scanLine_context (hpiece.context line hline) hregion]
      split <;> rfl
    rw [hread]
    by_cases htrim : trimEnd line = line
    · refine .inr ⟨_, ?_, rfl, by simpa using htrim⟩
      rw [if_pos htrim, bind_some, scanLines_append, scanLines_content hpiece.content,
        bind_some, hend]
    · rw [if_neg htrim]
      exact .inl ⟨rfl, by simpa using htrim⟩

theorem scans_skipped (hpiece : piece.WellFormed) :
    Scans (scanLines (if piece.atEnd then .afterEnd else .inChunk) piece.skipped)
      (fun region => region = .inChunk ∨ region = .afterEnd) (piece.skipped = []) := by
  cases hskipped : piece.skipped with
  | nil =>
    refine .inr ⟨_, rfl, ?_, rfl⟩
    cases piece.atEnd <;> simp
  | cons line rest =>
    refine .inl ⟨?_, cons_ne_nil _ _⟩
    have hblank := hpiece.skipped line (by rw [hskipped]; exact mem_cons_self)
    rw [scanLines, scanLine_blank hblank]
    · rfl
    · cases piece.atEnd <;> decide
    · rintro ⟨hregion, hline⟩
      have hopen : piece.atEnd = false := by
        cases hend : piece.atEnd with
        | false => rfl
        | true =>
          rw [hend] at hregion
          cases hregion
      exact hpiece.open_skipped hopen line (by rw [hskipped]; rfl) hline

theorem scans_piece (hpiece : piece.WellFormed) (hregion : region ≠ .outside)
    (hcontext : piece.contextLine = none → region = .beforeChunks) :
    Scans (scanLines region piece.lines) (fun region => region = .inChunk ∨ region = .afterEnd)
      (ChunkAgrees piece) := by
  unfold ChunkPiece.lines ChunkAgrees
  rw [scanLines_append, and_comm]
  refine (scans_chunk hpiece hregion hcontext).append ?_
  rintro _ rfl
  exact scans_skipped hpiece

theorem scans_pieces (hpieces : LaterChunks pieces)
    (hregion : region = .inChunk ∨ region = .afterEnd) :
    Scans (scanLines region (pieces.flatMap ChunkPiece.lines))
      (fun region => region = .inChunk ∨ region = .afterEnd)
      (∀ piece ∈ pieces, ChunkAgrees piece) := by
  induction pieces generalizing region with
  | nil => exact .inr ⟨region, rfl, hregion, by simp⟩
  | cons piece pieces ih =>
    obtain ⟨hpiece, hcontext⟩ := hpieces piece mem_cons_self
    rw [flatMap_cons, scanLines_append, forall_mem_cons]
    refine (scans_piece hpiece ?_ fun h => absurd h hcontext).append fun region hregion =>
      ih (forall_mem_cons.mp hpieces).2 hregion
    rcases hregion with rfl | rfl <;> decide

end ChunkLines

section HunkLines
variable {region : Region} {line : String} {piece : HunkPiece} {pieces : List HunkPiece}

def RegionBetween (afterUpdate : Bool) (region : Region) : Prop :=
  if afterUpdate then region = .inChunk ∨ region = .afterEnd else region = .outside

variable {marker : String} {afterUpdate : Bool}

theorem prefix_of_stripMarker_trim (hfirst : firstChar line = some '*')
    (h : (stripMarker marker (trim line)).isSome) : marker.toList <+: line.toList := by
  rw [trim_eq_trimEnd hfirst isWhitespace_star, isSome_stripMarker_iff] at h
  exact h.trans (trimEnd_prefix_toList line)

/-- The marker of a header, not that of a destination or of the end of a file. -/
structure HeaderMarker (marker : String) : Prop where
  noMove : ¬ marker.toList <+: moveToMarker.toList
  noMove' : ¬ moveToMarker.toList <+: marker.toList
  noEof : ¬ marker.toList <+: eofMarker.toList

theorem scanLine_header (hmarker : HeaderMarker marker)
    (hline : (stripMarker marker (trim line)).isSome) (hregion : RegionBetween afterUpdate region)
    (hstar : afterUpdate = true → firstChar line = some '*') :
    scanLine region line = some (regionOfHeader line) := by
  unfold scanLine
  cases afterUpdate with
  | false =>
    have houtside : region = .outside := hregion
    rw [if_pos houtside]
  | true =>
    have hfirst := hstar rfl
    have hupper := prefix_of_stripMarker_trim hfirst hline
    have houtside : region ≠ .outside := by rcases hregion with rfl | rfl <;> decide
    have heof : line ≠ eofMarker := by
      rintro rfl
      exact hmarker.noEof hupper
    have hmove := stripMarker_eq_none_of_exclusive hupper hmarker.noMove hmarker.noMove'
    rw [if_neg houtside, if_pos hfirst, if_neg heof, hmove]
    rfl

theorem headerMarker_add : HeaderMarker addFileMarker := ⟨by decide, by decide, by decide⟩

theorem headerMarker_delete : HeaderMarker deleteFileMarker := ⟨by decide, by decide, by decide⟩

theorem headerMarker_update : HeaderMarker updateFileMarker := ⟨by decide, by decide, by decide⟩

theorem regionOfHeader_of_exclusive (hline : (stripMarker marker (trim line)).isSome)
    (hexclusive : ¬ marker.toList <+: updateFileMarker.toList)
    (hexclusive' : ¬ updateFileMarker.toList <+: marker.toList) :
    regionOfHeader line = .outside := by
  rw [regionOfHeader, stripMarker_eq_none_of_exclusive (isSome_stripMarker_iff.mp hline) hexclusive
    hexclusive']
  rfl

theorem scanLines_added {added : List String} (hadded : ∀ line ∈ added, firstChar line = some '+') :
    scanLines .outside added = some .outside := by
  induction added with
  | nil => rfl
  | cons line added ih =>
    have hfirst : firstChar (trim line) ≠ some '*' := by
      rw [firstChar_trim (hadded line mem_cons_self) (by decide)]
      decide
    have hline : scanLine .outside line = some .outside := by
      unfold scanLine regionOfHeader
      rw [stripMarker_eq_none_of_firstChar (by decide) hfirst]
      rfl
    rw [scanLines, hline]
    exact ih (forall_mem_cons.mp hadded).2

theorem scans_moveLine {moveLine : Option String}
    (hmove : ∀ line ∈ moveLine, (stripMarker moveToMarker line).isSome) :
    Scans (scanLines .beforeChunks moveLine.toList) (· = .beforeChunks)
      (∀ line ∈ moveLine, trimEnd line = line) := by
  cases moveLine with
  | none => exact .inr ⟨_, rfl, rfl, by simp⟩
  | some line =>
    have hline := hmove line rfl
    have hscan : scanLine .beforeChunks line =
        if trimEnd line = line then some .beforeChunks else none := by
      have hfirst : firstChar line = some '*' :=
        firstChar_of_opening (isSome_stripMarker_iff.mp hline) rfl
      have heof : line ≠ eofMarker := by
        rintro rfl
        exact absurd hline (by decide)
      unfold scanLine
      rw [if_neg (by decide), if_pos hfirst, if_neg heof, if_pos hline]
    rw [toList_some, scanLines, hscan]
    by_cases htrim : trimEnd line = line
    · rw [if_pos htrim]
      exact .inr ⟨_, rfl, rfl, by simpa using htrim⟩
    · rw [if_neg htrim]
      exact .inl ⟨rfl, by simpa using htrim⟩

theorem scans_skipped_first {skipped : List String} (hskipped : ∀ line ∈ skipped, trim line = "") :
    Scans (scanLines .beforeChunks skipped) (· = .beforeChunks) (skipped = []) := by
  cases skipped with
  | nil => exact .inr ⟨_, rfl, rfl, rfl⟩
  | cons line rest =>
    refine .inl ⟨?_, cons_ne_nil _ _⟩
    rw [scanLines, scanLine_blank (hskipped line mem_cons_self) (by decide) (by simp)]
    rfl

theorem scans_hunk (hregion : RegionBetween afterUpdate region)
    (hstar : afterUpdate = true → firstChar piece.header = some '*') (hwf : piece.WellFormed) :
    Scans (scanLines region piece.lines) (RegionBetween piece.isUpdate) (PieceAgrees piece) := by
  cases piece with
  | add header path added =>
    obtain ⟨hadd, hadded⟩ := hwf
    have hsome : (stripMarker addFileMarker (trim header)).isSome := by rw [hadd]; rfl
    have hheader := scanLine_header headerMarker_add hsome hregion hstar
    rw [regionOfHeader_of_exclusive hsome (by decide) (by decide)] at hheader
    refine .inr ⟨.outside, ?_, rfl, trivial⟩
    rw [HunkPiece.lines, scanLines, hheader, bind_some, scanLines_added hadded]
  | delete header path =>
    obtain ⟨_, hdelete⟩ := hwf
    have hsome : (stripMarker deleteFileMarker (trim header)).isSome := by rw [hdelete]; rfl
    have hheader := scanLine_header headerMarker_delete hsome hregion hstar
    rw [regionOfHeader_of_exclusive hsome (by decide) (by decide)] at hheader
    refine .inr ⟨.outside, ?_, rfl, trivial⟩
    rw [HunkPiece.lines, scanLines, hheader]
    rfl
  | update header path moveLine skipped first chunks =>
    obtain ⟨_, _, hupdate, hmove, hskipped, hfirst, hpieces⟩ := hwf
    have hsome : (stripMarker updateFileMarker (trim header)).isSome := by rw [hupdate]; rfl
    have hheader := scanLine_header headerMarker_update hsome hregion hstar
    rw [regionOfHeader, if_pos hsome] at hheader
    simp only [HunkPiece.lines]
    rw [scanLines, hheader, bind_some, scanLines_append]
    refine (scans_moveLine hmove).append ?_
    rintro _ rfl
    rw [scanLines_append]
    refine (scans_skipped_first hskipped).append ?_
    rintro _ rfl
    rw [flatMap_cons, scanLines_append, forall_mem_cons]
    exact (scans_piece hfirst (by decide) fun _ => rfl).append fun _ hplace =>
      scans_pieces hpieces hplace

theorem scans_hunks (hregion : RegionBetween afterUpdate region)
    (hwf : WellFormedPieces afterUpdate pieces) :
    Scans (scanLines region (pieces.flatMap HunkPiece.lines))
      (RegionBetween (lastIsUpdate afterUpdate pieces))
      (∀ piece ∈ pieces, PieceAgrees piece) := by
  induction pieces generalizing region afterUpdate with
  | nil => exact .inr ⟨region, rfl, hregion, by simp⟩
  | cons piece pieces ih =>
    obtain ⟨hpiece, hstar, hpieces⟩ := hwf
    rw [flatMap_cons, scanLines_append, forall_mem_cons]
    exact (scans_hunk hregion hstar hpiece).append fun _ hplace => ih hplace hpieces

end HunkLines

end DeepseekX.StreamingPatchParser
