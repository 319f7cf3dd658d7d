import DeepseekX.PatchPieces

/-!
# Well-formed pieces are read

The converse of the decomposition of what `parse_patch` accepts: the lines of well-formed
pieces are read as their hunks.
-/

namespace DeepseekX.PatchParsing
open SeekSequence PatchReplacements List

section ChunkPieces
variable {piece : ChunkPiece} {rest : List String}

def EndsContent (line : String) : Prop := ¬ IsContentLine line ∧ line ≠ eofMarker

variable {content : List String} {lineNumber parsedLines bound : ℕ} {line : String}
  {chunks : List UpdateFileChunk} {pieces : List ChunkPiece}

theorem parseChunkLines_append (hcontent : ∀ line ∈ content, IsContentLine line)
    (lineNumber parsedLines : ℕ) (chunk : UpdateFileChunk) (rest : List String) :
    parseChunkLines lineNumber chunk parsedLines (content ++ rest) =
      parseChunkLines lineNumber (pushContent chunk content) (parsedLines + content.length)
        rest := by
  induction content generalizing chunk parsedLines with
  | nil => rfl
  | cons line content ih =>
    rw [forall_mem_cons] at hcontent
    rw [cons_append, parseChunkLines_content hcontent.1, ih hcontent.2,
      Nat.add_assoc, Nat.add_comm 1]
    rfl

theorem parseChunkLines_rest {chunk : UpdateFileChunk} (hpos : 0 < parsedLines)
    (hrest : ∀ line ∈ rest.head?, EndsContent line) :
    parseChunkLines lineNumber chunk parsedLines rest = .ok (chunk, parsedLines) := by
  cases rest with
  | nil => rfl
  | cons line rest =>
    obtain ⟨hline, heof⟩ := hrest line rfl
    rw [parseChunkLines_other hline heof, if_neg hpos.ne']

theorem parseChunkLines_piece {atEnd : Bool} {context : Option String} (hne : content ≠ [])
    (hcontent : ∀ line ∈ content, IsContentLine line)
    (hrest : atEnd = false → ∀ line ∈ rest.head?, EndsContent line) (lineNumber : ℕ) :
    parseChunkLines lineNumber ⟨context, [], [], false⟩ 0 (content ++ (endLines atEnd ++ rest)) =
      .ok ({ pushContent ⟨context, [], [], false⟩ content with isEndOfFile := atEnd },
        (content ++ endLines atEnd).length) := by
  have hpos : 0 < 0 + content.length := by
    rw [Nat.zero_add]
    exact length_pos_iff.mpr hne
  have hflag : (pushContent ⟨context, [], [], false⟩ content).isEndOfFile = false :=
    isEndOfFile_pushContent _ content
  rw [parseChunkLines_append hcontent]
  cases atEnd with
  | false =>
    rw [endLines, if_neg Bool.false_ne_true, nil_append, append_nil,
      parseChunkLines_rest hpos (hrest rfl), Nat.zero_add]
    generalize pushContent ⟨context, [], [], false⟩ content = chunk at hflag ⊢
    cases chunk
    cases hflag
    rfl
  | true =>
    rw [endLines, if_pos rfl, singleton_append, parseChunkLines, if_neg hpos.ne',
      Nat.zero_add, length_append]
    rfl

theorem not_isContentLine_of_firstChar {c : Char} (h : firstChar line = some c)
    (hc : c ≠ ' ' ∧ c ≠ '+' ∧ c ≠ '-') : ¬ IsContentLine line := by
  rintro (hline | hline | hline | hline) <;> rw [hline] at h <;> cases h
  · exact hc.1 rfl
  · exact hc.2.1 rfl
  · exact hc.2.2 rfl

theorem parseChangeContext_some (hline : IsContextLine line) (lineNumber : ℕ) (allow : Bool) :
    parseChangeContext line lineNumber allow = .ok (contextOf line, 1) := by
  rw [parseChangeContext]
  split
  · rename_i hempty
    rw [hempty]
    rfl
  · rename_i hempty
    obtain ⟨context, hcontext⟩ := Option.isSome_iff_exists.mp (hline.resolve_left hempty)
    rw [contextOf, hcontext]

theorem parseChangeContext_none (hline : IsContentLine line) (lineNumber : ℕ) :
    parseChangeContext line lineNumber true = .ok (none, 0) := by
  have hfirst : firstChar line ≠ some '@' := fun hfirst =>
    not_isContentLine_of_firstChar hfirst (by decide) hline
  have hempty : line ≠ emptyChangeContextMarker := by
    rintro rfl
    exact hfirst rfl
  rw [parseChangeContext, if_neg hempty, stripMarker_eq_none_of_firstChar rfl hfirst]
  rfl

def ChunkPiece.chunkLines (piece : ChunkPiece) : List String :=
  piece.contextLine.toList ++ piece.content ++ endLines piece.atEnd

theorem ChunkPiece.lines_eq (piece : ChunkPiece) :
    piece.lines = piece.chunkLines ++ piece.skipped :=
  rfl

theorem parseUpdateFileChunk_piece {allow : Bool} (hpiece : piece.WellFormed)
    (hallow : piece.contextLine = none → allow = true)
    (hrest : piece.atEnd = false → ∀ line ∈ rest.head?, EndsContent line) (lineNumber : ℕ) :
    parseUpdateFileChunk (piece.chunkLines ++ rest) lineNumber allow =
      .ok (piece.chunk, piece.chunkLines.length) := by
  obtain ⟨contextLine, content, atEnd, skipped⟩ := piece
  obtain ⟨first, content', rfl⟩ := exists_cons_of_ne_nil hpiece.nonempty
  have hread (context : Option String) : parseChunkLines lineNumber ⟨context, [], [], false⟩ 0
      (first :: (content' ++ (endLines atEnd ++ rest))) = _ :=
    parseChunkLines_piece hpiece.nonempty hpiece.content hrest lineNumber
  cases contextLine with
  | none =>
    obtain rfl := hallow rfl
    have hfirst := hpiece.content first mem_cons_self
    simp only [ChunkPiece.chunkLines, Option.toList_none, nil_append, cons_append,
      append_assoc, parseUpdateFileChunk]
    rw [parseChangeContext_none hfirst]
    dsimp only
    rw [drop_zero, hread]
    rfl
  | some line =>
    have hcontext := hpiece.context line rfl
    simp only [ChunkPiece.chunkLines, Option.toList_some, cons_append, nil_append,
      append_assoc, parseUpdateFileChunk]
    rw [parseChangeContext_some hcontext]
    dsimp only
    rw [drop_one, tail_cons, hread]
    rfl

def EndsHunk (line : String) : Prop := firstChar line = some '*' ∧ line ≠ eofMarker

theorem EndsHunk.endsContent (h : EndsHunk line) : EndsContent line :=
  ⟨not_isContentLine_of_firstChar h.1 (by decide), h.2⟩

theorem parseChunks_rest (hrest : ∀ line ∈ rest.head?, firstChar line = some '*')
    (lineNumber bound parsedLines : ℕ) (chunks : List UpdateFileChunk) :
    parseChunks lineNumber bound chunks parsedLines rest = .ok (chunks, parsedLines) := by
  cases bound with
  | zero => rfl
  | succ bound =>
    cases rest with
    | nil => rfl
    | cons line rest =>
      have hstar : firstChar line = some '*' := hrest line rfl
      have hblank : trim line ≠ "" := fun hblank =>
        firstChar_of_trim_empty hblank (show isWhitespace '*' = false by decide) hstar
      rw [parseChunks, if_neg hblank, ← firstChar, if_pos hstar]

theorem parseChunks_skipped {skipped : List String} (hskipped : ∀ line ∈ skipped, trim line = "") :
    parseChunks lineNumber (bound + skipped.length) chunks parsedLines (skipped ++ rest) =
      parseChunks lineNumber bound chunks (parsedLines + skipped.length) rest := by
  induction skipped generalizing parsedLines with
  | nil => rfl
  | cons line skipped ih =>
    rw [forall_mem_cons] at hskipped
    rw [cons_append, length_cons, ← Nat.add_assoc, parseChunks, if_pos hskipped.1,
      ih hskipped.2, Nat.add_assoc, Nat.add_comm 1]

variable (hpiece : piece.WellFormed)
include hpiece

/-- The first line of a chunk is neither blank nor a header. -/
theorem ChunkPiece.WellFormed.chunkLines_eq_cons :
    ∃ line lines, piece.chunkLines = line :: lines ∧ trim line ≠ "" ∧
      firstChar line ≠ some '*' := by
  obtain ⟨contextLine, content, atEnd, skipped⟩ := piece
  cases contextLine with
  | none =>
    obtain ⟨line, lines, rfl⟩ := exists_cons_of_ne_nil hpiece.nonempty
    refine ⟨line, lines ++ endLines atEnd, rfl, hpiece.first rfl line rfl, fun hstar => ?_⟩
    exact not_isContentLine_of_firstChar hstar (by decide) (hpiece.content line mem_cons_self)
  | some line =>
    have hfirst := firstChar_contextLine (hpiece.context line rfl)
    refine ⟨line, content ++ endLines atEnd, rfl, fun hblank => ?_, ?_⟩
    · exact firstChar_of_trim_empty hblank (show isWhitespace '@' = false by decide) hfirst
    · rw [hfirst]
      decide

theorem parseChunks_chunkLines (hallow : piece.contextLine = none → chunks = [])
    (hrest : piece.atEnd = false → ∀ line ∈ rest.head?, EndsContent line) :
    parseChunks lineNumber (bound + 1) chunks parsedLines (piece.chunkLines ++ rest) =
      parseChunks lineNumber bound (chunks ++ [piece.chunk])
        (parsedLines + piece.chunkLines.length) rest := by
  have hchunk : parseUpdateFileChunk (piece.chunkLines ++ rest) (lineNumber + parsedLines)
      chunks.isEmpty = _ :=
    parseUpdateFileChunk_piece hpiece (fun hnone => isEmpty_iff.mpr (hallow hnone)) hrest _
  have hdrop : (piece.chunkLines ++ rest).drop piece.chunkLines.length = rest := drop_left
  obtain ⟨line, lines, hlines, hblank, hstar⟩ := hpiece.chunkLines_eq_cons
  rw [hlines, cons_append] at hchunk hdrop ⊢
  rw [parseChunks, if_neg hblank, ← firstChar, if_neg hstar, hchunk]
  dsimp only
  rw [hdrop]

variable (hpieces : LaterChunks pieces) (hrest : ∀ line ∈ rest.head?, EndsHunk line)
include hpieces hrest

theorem endsContent_head (hopen : piece.atEnd = false) :
    ∀ line ∈ (piece.skipped ++ (pieces.flatMap ChunkPiece.lines ++ rest)).head?,
      EndsContent line := by
  intro line hline
  cases hskipped : piece.skipped with
  | cons blank skipped =>
    rw [hskipped] at hline
    cases hline
    refine ⟨hpiece.open_skipped hopen line (by rw [hskipped]; rfl), ?_⟩
    rintro rfl
    exact absurd (hpiece.skipped _ (by rw [hskipped]; exact mem_cons_self)) (by decide)
  | nil =>
    rw [hskipped] at hline
    cases pieces with
    | nil => exact (hrest line hline).endsContent
    | cons next pieces =>
      obtain ⟨hnext, hsome⟩ := hpieces next mem_cons_self
      obtain ⟨context, hcontext⟩ := Option.ne_none_iff_exists'.mp hsome
      have hfirst := firstChar_contextLine (hnext.context context hcontext)
      rw [flatMap_cons, ChunkPiece.lines, hcontext] at hline
      cases hline
      refine ⟨not_isContentLine_of_firstChar hfirst (by decide), ?_⟩
      rintro rfl
      exact absurd hfirst (by decide)

theorem parseChunks_piece (hallow : piece.contextLine = none → chunks = [])
    (hbound : piece.lines.length ≤ bound) :
    ∃ left, bound ≤ left + piece.lines.length ∧
      parseChunks lineNumber bound chunks parsedLines
          (piece.lines ++ (pieces.flatMap ChunkPiece.lines ++ rest)) =
        parseChunks lineNumber left (chunks ++ [piece.chunk]) (parsedLines + piece.lines.length)
          (pieces.flatMap ChunkPiece.lines ++ rest) := by
  have hlength : piece.lines.length = piece.chunkLines.length + piece.skipped.length := by
    rw [piece.lines_eq, length_append]
  have hpos : 0 < piece.chunkLines.length := by
    obtain ⟨line, lines, hlines, -⟩ := hpiece.chunkLines_eq_cons
    rw [hlines]
    exact Nat.succ_pos _
  obtain ⟨left, rfl⟩ : ∃ left, bound = left + piece.skipped.length + 1 :=
    ⟨bound - 1 - piece.skipped.length, by omega⟩
  refine ⟨left, by omega, ?_⟩
  rw [piece.lines_eq, append_assoc,
    parseChunks_chunkLines hpiece hallow (endsContent_head hpiece hpieces hrest),
    parseChunks_skipped hpiece.skipped, length_append, Nat.add_assoc]

omit hpiece

theorem parseChunks_pieces
    (hbound : (pieces.flatMap ChunkPiece.lines).length ≤ bound) :
    parseChunks lineNumber bound chunks parsedLines (pieces.flatMap ChunkPiece.lines ++ rest) =
      .ok (chunks ++ pieces.map ChunkPiece.chunk,
        parsedLines + (pieces.flatMap ChunkPiece.lines).length) := by
  induction pieces generalizing bound parsedLines chunks with
  | nil =>
    rw [flatMap_nil, nil_append, parseChunks_rest fun line hline => (hrest line hline).1,
      map_nil, append_nil]
    rfl
  | cons piece pieces ih =>
    obtain ⟨⟨hpiece, hsome⟩, hpieces⟩ := forall_mem_cons.mp hpieces
    rw [flatMap_cons, length_append] at hbound
    obtain ⟨left, hleft, hstep⟩ := parseChunks_piece hpiece hpieces hrest
      (fun hnone => absurd hnone hsome) (le_trans (Nat.le_add_right _ _) hbound)
    rw [flatMap_cons, append_assoc, hstep, ih hpieces (by omega), append_assoc,
      length_append, Nat.add_assoc]
    rfl

end ChunkPieces

section HunkPieces
variable {piece : HunkPiece} {rest : List String}
variable {skipped : List String} {first : ChunkPiece} {pieces : List ChunkPiece} {lineNumber : ℕ}

section Update
variable (hskipped : ∀ line ∈ skipped, trim line = "") (hfirst : first.WellFormed)
include hskipped hfirst

theorem stripMarker_moveToMarker_head :
    (skipped ++ (first.lines ++ rest)).head?.bind (stripMarker moveToMarker) = none := by
  have hnone {line : String} (hline : firstChar line ≠ some '*') :
      stripMarker moveToMarker line = none := stripMarker_eq_none_of_firstChar rfl hline
  cases skipped with
  | cons blank skipped =>
    exact hnone (firstChar_of_trim_empty (hskipped blank mem_cons_self) (by decide))
  | nil =>
    obtain ⟨line, lines, hlines, -, hstar⟩ := hfirst.chunkLines_eq_cons
    rw [first.lines_eq, hlines]
    exact hnone hstar

variable (hpieces : LaterChunks pieces) (hrest : ∀ line ∈ rest.head?, EndsHunk line)
include hpieces hrest

theorem parseChunks_all {bound parsedLines : ℕ}
    (hbound : (skipped ++ (first :: pieces).flatMap ChunkPiece.lines).length ≤ bound) :
    parseChunks lineNumber bound [] parsedLines
        (skipped ++ ((first :: pieces).flatMap ChunkPiece.lines ++ rest)) =
      .ok ((first :: pieces).map ChunkPiece.chunk,
        parsedLines + (skipped ++ (first :: pieces).flatMap ChunkPiece.lines).length) := by
  rw [flatMap_cons, length_append, length_append] at hbound
  obtain ⟨left, rfl⟩ : ∃ left, bound = left + skipped.length :=
    ⟨bound - skipped.length, by omega⟩
  obtain ⟨left', hleft, hstep⟩ := @parseChunks_piece _ _ lineNumber
    (parsedLines + skipped.length) left [] _ hfirst hpieces hrest (fun _ => rfl) (by omega)
  rw [parseChunks_skipped hskipped, flatMap_cons, append_assoc, hstep,
    parseChunks_pieces hpieces hrest (by omega), length_append, length_append]
  simp only [nil_append, singleton_append, map_cons, Nat.add_assoc]

theorem parseUpdateHunk_piece {path : String} {moveLine : Option String}
    (hmove : ∀ line ∈ moveLine, (stripMarker moveToMarker line).isSome) (lineNumber : ℕ) :
    parseUpdateHunk path
        (moveLine.toList ++ (skipped ++ ((first :: pieces).flatMap ChunkPiece.lines ++ rest)))
        lineNumber =
      .ok (.updateFile path (moveLine.bind (stripMarker moveToMarker))
          ((first :: pieces).map ChunkPiece.chunk),
        1 + moveLine.toList.length +
          (skipped ++ (first :: pieces).flatMap ChunkPiece.lines).length) := by
  have hhead : (moveLine.toList ++ (skipped ++
      ((first :: pieces).flatMap ChunkPiece.lines ++ rest))).head?.bind (stripMarker moveToMarker) =
        moveLine.bind (stripMarker moveToMarker) := by
    cases moveLine with
    | none =>
      rw [flatMap_cons, append_assoc]
      exact stripMarker_moveToMarker_head hskipped hfirst
    | some line => rfl
  have hcount : (if (moveLine.bind (stripMarker moveToMarker)).isSome then 1 else 0) =
      moveLine.toList.length := by
    cases moveLine with
    | none => rfl
    | some line => exact if_pos (hmove line rfl)
  rw [parseUpdateHunk, hhead, hcount, drop_left, parseChunks_all hskipped hfirst hpieces hrest]
  · rfl
  · simp only [length_append]
    omega

end Update

theorem parseAddLines_append {added : List String}
    (hadded : ∀ line ∈ added, firstChar line = some '+')
    (hrest : ∀ line ∈ rest.head?, firstChar line ≠ some '+') (contents : String) (parsedLines : ℕ) :
    parseAddLines contents parsedLines (added ++ rest) =
      (HunkPiece.addedText contents added, parsedLines + added.length) := by
  induction added generalizing contents parsedLines with
  | nil =>
    cases rest with
    | nil => rfl
    | cons line rest =>
      rw [nil_append, parseAddLines, stripMarker_eq_none_of_firstChar rfl (hrest line rfl)]
      rfl
  | cons line added ih =>
    rw [forall_mem_cons] at hadded
    have hstrip : stripMarker "+" line = some (lineTail line) := by
      rw [stripMarker_eq_some_iff]
      refine Eq.trans ?_ (congrArg (['+'] ++ ·) String.toList_ofList.symm)
      exact eq_cons_of_mem_head? hadded.1
    rw [cons_append, parseAddLines, hstrip]
    dsimp only
    rw [ih hadded.2, Nat.add_assoc, Nat.add_comm 1]
    rfl

/-- Behind a hunk stands a line that is not taken for one of its lines. -/
def EndsPiece (piece : HunkPiece) (line : String) : Prop :=
  firstChar line ≠ some '+' ∧ (piece.isUpdate = true → EndsHunk line)

theorem parseOneHunk_piece (hpiece : piece.WellFormed)
    (hrest : ∀ line ∈ rest.head?, EndsPiece piece line) (lineNumber : ℕ) :
    parseOneHunk piece.header (piece.lines.tail ++ rest) lineNumber =
      .ok (piece.hunk, piece.lines.length) := by
  cases piece with
  | add header path added =>
    obtain ⟨hadd, hadded⟩ := hpiece
    have hlines := parseAddLines_append hadded (fun line hline => (hrest line hline).1) "" 1
    simp only [parseOneHunk, HunkPiece.header, HunkPiece.lines, tail_cons, hadd, hlines]
    rw [Nat.add_comm]
    rfl
  | delete header path =>
    obtain ⟨hadd, hdelete⟩ := hpiece
    simp only [parseOneHunk, HunkPiece.header, hadd, hdelete]
    rfl
  | update header path moveLine skipped first chunks =>
    obtain ⟨hadd, hdelete, hupdate, hmove, hskipped, hfirst, hchunks⟩ := hpiece
    have hread : parseUpdateHunk path _ lineNumber = _ :=
      parseUpdateHunk_piece hskipped hfirst hchunks (fun line hline => (hrest line hline).2 rfl)
        hmove lineNumber
    simp only [parseOneHunk, HunkPiece.header, HunkPiece.lines, tail_cons, hadd, hdelete,
      hupdate, append_assoc]
    rw [hread]
    refine congrArg Except.ok (Prod.ext rfl ?_)
    simp only [length_cons, length_append]
    omega

theorem exists_marker_header (hpiece : piece.WellFormed) :
    ∃ marker path, stripMarker marker (trim piece.header) = some path ∧
      firstChar marker = some '*' ∧ stripMarker marker (trim eofMarker) = none := by
  cases piece with
  | add header path added => exact ⟨_, _, hpiece.1, by decide, by decide⟩
  | delete header path => exact ⟨_, _, hpiece.2, by decide, by decide⟩
  | update header path moveLine skipped first chunks =>
    exact ⟨_, _, hpiece.2.2.1, by decide, by decide⟩

theorem firstChar_header_ne (hpiece : piece.WellFormed) : firstChar piece.header ≠ some '+' := by
  obtain ⟨marker, path, hstrip, hstar, -⟩ := exists_marker_header hpiece
  intro hplus
  rw [stripMarker_eq_none_of_firstChar hstar
    (by rw [firstChar_trim hplus (by decide)]; decide)] at hstrip
  cases hstrip

theorem header_ne_eofMarker (hpiece : piece.WellFormed) : piece.header ≠ eofMarker := by
  obtain ⟨marker, path, hstrip, -, hnone⟩ := exists_marker_header hpiece
  intro heof
  rw [heof, hnone] at hstrip
  cases hstrip

theorem endsPiece_head {pieces : List HunkPiece} (hwf : WellFormedPieces piece.isUpdate pieces) :
    ∀ line ∈ (pieces.flatMap HunkPiece.lines).head?, EndsPiece piece line := by
  intro line hline
  cases pieces with
  | nil => cases hline
  | cons next pieces =>
    obtain ⟨hnext, hstar, -⟩ := hwf
    obtain ⟨more, hmore⟩ := next.lines_eq_cons
    rw [flatMap_cons, hmore] at hline
    cases hline
    exact ⟨firstChar_header_ne hnext, fun hupdate => ⟨hstar hupdate, header_ne_eofMarker hnext⟩⟩

/-- The lines of well-formed pieces are read as their hunks. -/
theorem parseHunks_pieces {afterUpdate : Bool} {pieces : List HunkPiece}
    (hwf : WellFormedPieces afterUpdate pieces) {bound : ℕ} {hunks : List Hunk}
    (hbound : (pieces.flatMap HunkPiece.lines).length ≤ bound) :
    parseHunks bound hunks (pieces.flatMap HunkPiece.lines) lineNumber =
      .ok (hunks ++ pieces.map HunkPiece.hunk) := by
  induction pieces generalizing afterUpdate bound lineNumber hunks with
  | nil =>
    rw [map_nil, append_nil]
    cases bound <;> rfl
  | cons piece pieces ih =>
    obtain ⟨hpiece, -, hpieces⟩ := hwf
    obtain ⟨more, hmore⟩ := piece.lines_eq_cons
    have hone := parseOneHunk_piece hpiece (endsPiece_head hpieces) lineNumber
    have hdrop : (piece.lines ++ pieces.flatMap HunkPiece.lines).drop piece.lines.length =
        pieces.flatMap HunkPiece.lines := drop_left
    rw [hmore, tail_cons] at hone
    rw [hmore, cons_append] at hdrop
    rw [flatMap_cons, hmore, length_append, length_cons] at hbound
    obtain ⟨left, rfl⟩ : ∃ left, bound = left + 1 := ⟨bound - 1, by omega⟩
    rw [flatMap_cons, hmore, cons_append, parseHunks, hone]
    dsimp only
    rw [hdrop, ih hpieces (by omega), append_assoc]
    rfl

end HunkPieces

end DeepseekX.PatchParsing
