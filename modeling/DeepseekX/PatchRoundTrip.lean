import DeepseekX.PatchParserAgreement
import DeepseekX.PatchPieceParsing

/-!
# Canonical patches round-trip

Hunks are written in the patch format: every chunk behind its `@@` line, with the context
and the changed lines in some order that gives its old and its new lines. Both parsers read
what is written as the hunks it was written from.
-/

namespace DeepseekX.PatchRoundTrip
open SeekSequence PatchReplacements PatchParsing StreamingPatchParser List
open String (ofList toList_append toList_ofList toList_inj ofList_toList toList)

structure OneLine (text : String) : Prop where
  newline : '\n' ∉ text.toList
  carriageReturn : '\r' ∉ text.toList

/-- A path, a destination or a context. -/
structure CanonicalName (name : String) : Prop where
  oneLine : OneLine name
  nonempty : name ≠ ""
  trimmed : trim name = name

structure CanonicalChunk (chunk : UpdateFileChunk) : Prop where
  context : ∀ context ∈ chunk.changeContext, CanonicalName context
  oldLines : ∀ line ∈ chunk.oldLines, OneLine line
  newLines : ∀ line ∈ chunk.newLines, OneLine line
  nonempty : chunk.oldLines ≠ [] ∨ chunk.newLines ≠ []

/-- Lines that end with a newline each. -/
structure CanonicalContents (contents : String) : Prop where
  carriageReturn : '\r' ∉ contents.toList
  terminated : contents ≠ "" → contents.toList.getLast? = some '\n'

def CanonicalHunk : Hunk → Prop
  | .addFile path contents => CanonicalName path ∧ CanonicalContents contents
  | .deleteFile path => CanonicalName path
  | .updateFile path movePath chunks =>
    CanonicalName path ∧ (∀ target ∈ movePath, CanonicalName target) ∧ chunks ≠ [] ∧
      ∀ chunk ∈ chunks, CanonicalChunk chunk

instance (text : String) : Decidable (OneLine text) :=
  decidable_of_iff ('\n' ∉ text.toList ∧ '\r' ∉ text.toList)
    ⟨fun h => ⟨h.1, h.2⟩, fun h => ⟨h.newline, h.carriageReturn⟩⟩

instance (name : String) : Decidable (CanonicalName name) :=
  decidable_of_iff (OneLine name ∧ name ≠ "" ∧ trim name = name)
    ⟨fun h => ⟨h.1, h.2.1, h.2.2⟩, fun h => ⟨h.oneLine, h.nonempty, h.trimmed⟩⟩

instance (chunk : UpdateFileChunk) : Decidable (CanonicalChunk chunk) :=
  decidable_of_iff ((∀ context ∈ chunk.changeContext, CanonicalName context) ∧
      (∀ line ∈ chunk.oldLines, OneLine line) ∧ (∀ line ∈ chunk.newLines, OneLine line) ∧
      (chunk.oldLines ≠ [] ∨ chunk.newLines ≠ []))
    ⟨fun h => ⟨h.1, h.2.1, h.2.2.1, h.2.2.2⟩,
      fun h => ⟨h.context, h.oldLines, h.newLines, h.nonempty⟩⟩

instance (contents : String) : Decidable (CanonicalContents contents) :=
  decidable_of_iff ('\r' ∉ contents.toList ∧ (contents ≠ "" → contents.toList.getLast? = some '\n'))
    ⟨fun h => ⟨h.1, h.2⟩, fun h => ⟨h.carriageReturn, h.terminated⟩⟩

instance (hunk : Hunk) : Decidable (CanonicalHunk hunk) :=
  match hunk with
  | .addFile _ _ => inferInstanceAs (Decidable (_ ∧ _))
  | .deleteFile path => inferInstanceAs (Decidable (CanonicalName path))
  | .updateFile _ _ _ => inferInstanceAs (Decidable (_ ∧ _ ∧ _ ∧ _))

inductive DiffLine where
  | context (text : String)
  | old (text : String)
  | new (text : String)
  deriving DecidableEq

def DiffLine.render : DiffLine → String
  | context text => " " ++ text
  | old text => "-" ++ text
  | new text => "+" ++ text

def DiffLine.oldText : DiffLine → Option String
  | context text | old text => some text
  | new _ => none

def DiffLine.newText : DiffLine → Option String
  | context text | new text => some text
  | old _ => none

/-- A chunk with its lines in the order in which they are written. -/
structure DiffChunk where
  changeContext : Option String
  lines : List DiffLine
  isEndOfFile : Bool
  deriving DecidableEq

namespace DiffChunk

variable (diff : DiffChunk)

def chunk : UpdateFileChunk :=
  ⟨diff.changeContext, diff.lines.filterMap DiffLine.oldText,
    diff.lines.filterMap DiffLine.newText, diff.isEndOfFile⟩

def contextLine : String :=
  match diff.changeContext with
  | none => emptyChangeContextMarker
  | some context => changeContextMarker ++ context

def render : List String :=
  diff.contextLine :: (diff.lines.map DiffLine.render ++
    if diff.isEndOfFile then [eofMarker] else [])

end DiffChunk

inductive DiffHunk where
  | addFile (path contents : String)
  | deleteFile (path : String)
  | updateFile (path : String) (movePath : Option String) (chunks : List DiffChunk)
  deriving DecidableEq

namespace DiffHunk

def hunk : DiffHunk → Hunk
  | addFile path contents => .addFile path contents
  | deleteFile path => .deleteFile path
  | updateFile path movePath chunks => .updateFile path movePath (chunks.map DiffChunk.chunk)

def render : DiffHunk → List String
  | addFile path contents => (addFileMarker ++ path) :: (textLines contents).map ("+" ++ ·)
  | deleteFile path => [deleteFileMarker ++ path]
  | updateFile path movePath chunks =>
    (updateFileMarker ++ path) :: ((movePath.map (moveToMarker ++ ·)).toList ++
      chunks.flatMap DiffChunk.render)

end DiffHunk

/-- The text of a patch, with or without a newline at its end. -/
def renderPatch (patch : List DiffHunk) (finalNewline : Bool) : String :=
  ofList ((beginPatchMarker :: patch.flatMap DiffHunk.render).flatMap
      (fun line => line.toList ++ ['\n']) ++
    (endPatchMarker.toList ++ if finalNewline then ['\n'] else []))

section Names
variable {name marker line text : String}

theorem stripMarker_append (marker name : String) :
    stripMarker marker (marker ++ name) = some name := by
  rw [stripMarker_eq_some_iff, toList_append]

theorem firstChar_append {c : Char} (h : firstChar marker = some c) (name : String) :
    firstChar (marker ++ name) = some c := by
  unfold firstChar at h ⊢
  rw [toList_append, head?_append, h]
  rfl

theorem oneLine_append (hmarker : OneLine marker) (hname : OneLine name) :
    OneLine (marker ++ name) := by
  constructor
  · rw [toList_append, mem_append, not_or]
    exact ⟨hmarker.newline, hname.newline⟩
  · rw [toList_append, mem_append, not_or]
    exact ⟨hmarker.carriageReturn, hname.carriageReturn⟩

theorem rdropWhile_name (hname : CanonicalName name) :
    name.toList.rdropWhile isWhitespace = name.toList := by
  rw [← hname.trimmed, trim, toList_ofList, rdropWhile_idempotent]

theorem trimEnd_append_name (marker : String) (hname : CanonicalName name) :
    trimEnd (marker ++ name) = marker ++ name := by
  have hne : name.toList ≠ [] := fun h => hname.nonempty (String.toList_eq_nil_iff.mp h)
  rw [← toList_inj, toList_trimEnd, toList_append, LineSplitting.rdropWhile_append,
    rdropWhile_name hname, if_neg hne]

theorem trim_append_name {c : Char} (hmarker : firstChar marker = some c)
    (hc : isWhitespace c = false) (hname : CanonicalName name) :
    trim (marker ++ name) = marker ++ name := by
  rw [trim_eq_trimEnd (firstChar_append hmarker name) hc, trimEnd_append_name marker hname]

theorem stripMarker_append_exclusive {other : String} (name : String)
    (hexclusive : ¬ marker.toList <+: other.toList)
    (hexclusive' : ¬ other.toList <+: marker.toList) :
    stripMarker other (marker ++ name) = none := by
  refine stripMarker_eq_none_of_exclusive ⟨name.toList, ?_⟩ hexclusive hexclusive'
  rw [toList_append]

end Names

section Chunks
variable {diff : DiffChunk}
variable {sign : String} {c : Char}

theorem toList_signed (hsign : sign.toList = [c]) (text : String) :
    (sign ++ text).toList = c :: text.toList := by
  rw [toList_append, hsign, singleton_append]

theorem lineTail_signed (hsign : sign.toList = [c]) (text : String) :
    lineTail (sign ++ text) = text := by
  rw [lineTail, toList_signed hsign, tail_cons, ofList_toList]

theorem firstChar_signed (hsign : sign.toList = [c]) (text : String) :
    firstChar (sign ++ text) = some c := by
  rw [firstChar, toList_signed hsign, head?_cons]

theorem isContentLine_render (line : DiffLine) : IsContentLine line.render := by
  cases line with
  | context text => exact .inr (.inl (firstChar_signed rfl text))
  | old text => exact .inr (.inr (.inr (firstChar_signed rfl text)))
  | new text => exact .inr (.inr (.inl (firstChar_signed rfl text)))

theorem oneLine_render {line : DiffLine} (hold : ∀ text ∈ line.oldText, OneLine text)
    (hnew : ∀ text ∈ line.newText, OneLine text) : OneLine line.render := by
  cases line with
  | context text => exact oneLine_append (by decide) (hold text rfl)
  | old text => exact oneLine_append (by decide) (hold text rfl)
  | new text => exact oneLine_append (by decide) (hnew text rfl)

theorem pushContentLine_render (chunk : UpdateFileChunk) (line : DiffLine) :
    pushContentLine chunk line.render =
      { chunk with
        oldLines := chunk.oldLines ++ line.oldText.toList
        newLines := chunk.newLines ++ line.newText.toList } := by
  cases line with
  | context text =>
    rw [DiffLine.render, pushContentLine, toList_signed rfl, lineTail_signed rfl]
    rfl
  | old text =>
    rw [DiffLine.render, pushContentLine, lineTail_signed rfl]
    simp [pushOld, DiffLine.oldText, DiffLine.newText]
  | new text =>
    rw [DiffLine.render, pushContentLine, lineTail_signed rfl]
    simp [pushNew, DiffLine.oldText, DiffLine.newText]

theorem filterMap_cons_toList {α β : Type*} (f : α → Option β) (x : α) (xs : List α) :
    (x :: xs).filterMap f = (f x).toList ++ xs.filterMap f := by
  rw [filterMap_cons]
  cases f x <;> rfl

theorem pushContent_render (chunk : UpdateFileChunk) (lines : List DiffLine) :
    pushContent chunk (lines.map DiffLine.render) =
      { chunk with
        oldLines := chunk.oldLines ++ lines.filterMap DiffLine.oldText
        newLines := chunk.newLines ++ lines.filterMap DiffLine.newText } := by
  induction lines generalizing chunk with
  | nil => simp [pushContent]
  | cons line lines ih =>
    rw [map_cons, pushContent, foldl_cons, ← pushContent, pushContentLine_render, ih,
      filterMap_cons_toList, filterMap_cons_toList, append_assoc, append_assoc]

def DiffChunk.piece (diff : DiffChunk) : ChunkPiece :=
  ⟨some diff.contextLine, diff.lines.map DiffLine.render, diff.isEndOfFile, []⟩

theorem lines_piece (diff : DiffChunk) : diff.piece.lines = diff.render := by
  rw [ChunkPiece.lines, DiffChunk.piece, DiffChunk.render, endLines, append_nil,
    Option.toList_some, singleton_append, cons_append]

theorem isContextLine_contextLine (diff : DiffChunk) : IsContextLine diff.contextLine := by
  unfold DiffChunk.contextLine
  split
  · exact .inl rfl
  · rw [IsContextLine, stripMarker_append]
    exact .inr rfl

theorem contextOf_contextLine (diff : DiffChunk) :
    contextOf diff.contextLine = diff.changeContext := by
  unfold DiffChunk.contextLine contextOf
  split
  · next hnone => rw [hnone]; decide
  · next hsome => rw [hsome, stripMarker_append]

theorem chunk_piece (diff : DiffChunk) : diff.piece.chunk = diff.chunk := by
  rw [ChunkPiece.chunk, DiffChunk.piece, Option.bind_some, contextOf_contextLine,
    pushContent_render]
  rfl

variable (hdiff : CanonicalChunk diff.chunk)
include hdiff

theorem lines_ne_nil : diff.lines ≠ [] := by
  intro hnil
  rcases hdiff.nonempty with h | h <;> exact h (by simp [DiffChunk.chunk, hnil])

theorem wellFormed_piece : diff.piece.WellFormed where
  context := by
    rintro line ⟨⟩
    exact isContextLine_contextLine diff
  nonempty := fun hnil => lines_ne_nil hdiff (map_eq_nil_iff.mp hnil)
  content := by
    intro line hline
    obtain ⟨line, -, rfl⟩ := mem_map.mp hline
    exact isContentLine_render line
  skipped := forall_mem_nil _
  open_skipped := by
    rintro - line ⟨⟩
  first := fun hnone => absurd hnone (Option.some_ne_none _)

theorem chunkAgrees_piece : ChunkAgrees diff.piece := by
  refine ⟨rfl, ?_⟩
  rintro line ⟨⟩
  unfold DiffChunk.contextLine
  split
  · decide
  · next context hcontext => exact trimEnd_append_name _ (hdiff.context context hcontext)

theorem oneLine_of_mem_render_chunk :
    ∀ line ∈ diff.render, OneLine line := by
  refine forall_mem_cons.mpr ⟨?_, forall_mem_append.mpr ⟨fun line hline => ?_, ?_⟩⟩
  · unfold DiffChunk.contextLine
    split
    · decide
    · next context hcontext =>
      exact oneLine_append (by decide) (hdiff.context context hcontext).oneLine
  · obtain ⟨line, hmem, rfl⟩ := mem_map.mp hline
    exact oneLine_render
      (fun text htext => hdiff.oldLines text (mem_filterMap.mpr ⟨line, hmem, htext⟩))
      (fun text htext => hdiff.newLines text (mem_filterMap.mpr ⟨line, hmem, htext⟩))
  · split <;> decide

end Chunks

section Hunks
variable {diff : DiffHunk}
variable {segment : List Char} {contents path : String}

theorem oneLine_ofList (hnewline : '\n' ∉ segment) (hcarriageReturn : '\r' ∉ segment) :
    OneLine (ofList segment) := by
  constructor <;> rwa [toList_ofList]

theorem lineOfSegment_of_notMem (h : '\r' ∉ segment) :
    lineOfSegment segment = ofList segment := by
  have hlast : segment.getLast? ≠ some '\r' := fun hlast => h (mem_of_mem_getLast? hlast)
  rw [lineOfSegment, dropCarriageReturn, if_neg hlast]

theorem exists_textLines (hcontents : CanonicalContents contents) :
    ∃ segments : List (List Char), contents.toList = segments.flatMap (· ++ ['\n']) ∧
      textLines contents = segments.map ofList ∧
      ∀ segment ∈ segments, '\n' ∉ segment ∧ '\r' ∉ segment := by
  obtain ⟨segments, last, htext, hsegments, hlast⟩ :=
    LineSplitting.exists_terminated '\n' contents.toList
  have hnil : last = [] := by
    by_contra hne
    have hcontentsNe : contents ≠ "" := by
      rintro rfl
      rw [String.toList_empty, eq_comm, append_eq_nil_iff] at htext
      exact hne htext.2
    have hterminated := hcontents.terminated hcontentsNe
    rw [htext, getLast?_append_of_ne_nil _ hne] at hterminated
    exact hlast (mem_of_mem_getLast? hterminated)
  subst hnil
  have hreturn : ∀ segment ∈ segments, '\r' ∉ segment := by
    intro segment hsegment hmem
    apply hcontents.carriageReturn
    rw [htext, append_nil]
    exact mem_flatMap.mpr ⟨segment, hsegment, mem_append_left _ hmem⟩
  refine ⟨segments, by rw [htext, append_nil], ?_, fun segment hsegment =>
    ⟨hsegments segment hsegment, hreturn segment hsegment⟩⟩
  rw [textLines, htext, LineSplitting.splitOn_terminated hsegments hlast, linesOfSegments_concat,
    if_pos rfl, append_nil]
  exact map_congr_left fun segment hsegment =>
    lineOfSegment_of_notMem (hreturn segment hsegment)

theorem toList_addedText (contents : String) (segments : List (List Char)) :
    (HunkPiece.addedText contents
      (segments.map fun segment => "+" ++ ofList segment)).toList =
        contents.toList ++ segments.flatMap (· ++ ['\n']) := by
  induction segments generalizing contents with
  | nil => simp [HunkPiece.addedText]
  | cons segment segments ih =>
    rw [map_cons, HunkPiece.addedText, foldl_cons, ← HunkPiece.addedText, ih,
      lineTail_signed (c := '+') rfl, toList_append, toList_append,
      toList_ofList, flatMap_cons, append_assoc, append_assoc,
      append_assoc]
    rfl

/-- A hunk in the text of a patch, with the piece that is read there. -/
structure ReadAs (diff : DiffHunk) (piece : HunkPiece) : Prop where
  wellFormed : piece.WellFormed
  agrees : PieceAgrees piece
  lines : piece.lines = diff.render
  hunk : piece.hunk = diff.hunk
  star : firstChar piece.header = some '*'
  oneLine : ∀ line ∈ diff.render, OneLine line
  noEnvironment : stripMarker environmentIdMarker (trimStart piece.header) = none

theorem trimStart_of_firstChar {line : String} {c : Char} (h : firstChar line = some c)
    (hc : isWhitespace c = false) : trimStart line = line := by
  rw [← toList_inj, toList_trimStart]
  rw [eq_cons_of_mem_head? h, dropWhile_cons_of_neg (by simp [hc])]

theorem readAs_addFile (hpath : CanonicalName path) (hcontents : CanonicalContents contents) :
    ReadAs (.addFile path contents) (.add (addFileMarker ++ path) path
      ((textLines contents).map ("+" ++ ·))) := by
  have hstar : firstChar (addFileMarker ++ path) = some '*' := firstChar_append rfl path
  obtain ⟨segments, htext, hlines, hsegments⟩ := exists_textLines hcontents
  refine ⟨⟨?_, ?_⟩, trivial, rfl, ?_, hstar, ?_, ?_⟩
  · rw [trim_append_name rfl (by decide) hpath, stripMarker_append]
  · intro line hline
    obtain ⟨text, -, rfl⟩ := mem_map.mp hline
    exact firstChar_signed rfl text
  · rw [hlines, map_map]
    refine congrArg (Hunk.addFile path) (toList_inj.mp ?_)
    rw [htext]
    exact toList_addedText "" segments
  · refine forall_mem_cons.mpr ⟨oneLine_append (by decide) hpath.oneLine, fun line hline => ?_⟩
    rw [hlines, map_map] at hline
    obtain ⟨segment, hsegment, rfl⟩ := mem_map.mp hline
    obtain ⟨hnewline, hreturn⟩ := hsegments segment hsegment
    exact oneLine_append (by decide) (oneLine_ofList hnewline hreturn)
  · rw [HunkPiece.header, trimStart_of_firstChar hstar (by decide),
      stripMarker_append_exclusive path (by decide) (by decide)]

theorem readAs_deleteFile (hpath : CanonicalName path) :
    ReadAs (.deleteFile path) (.delete (deleteFileMarker ++ path) path) := by
  have hstar : firstChar (deleteFileMarker ++ path) = some '*' := firstChar_append rfl path
  have htrim : trim (deleteFileMarker ++ path) = deleteFileMarker ++ path :=
    trim_append_name rfl (by decide) hpath
  refine ⟨⟨?_, ?_⟩, trivial, rfl, rfl, hstar, ?_, ?_⟩
  · rw [htrim, stripMarker_append_exclusive path (by decide) (by decide)]
  · rw [htrim, stripMarker_append]
  · exact forall_mem_singleton.mpr (oneLine_append (by decide) hpath.oneLine)
  · rw [HunkPiece.header, trimStart_of_firstChar hstar (by decide),
      stripMarker_append_exclusive path (by decide) (by decide)]

theorem readAs_updateFile {movePath : Option String} {first : DiffChunk} {chunks : List DiffChunk}
    (hpath : CanonicalName path) (hmove : ∀ target ∈ movePath, CanonicalName target)
    (hchunks : ∀ diff ∈ first :: chunks, CanonicalChunk diff.chunk) :
    ReadAs (.updateFile path movePath (first :: chunks))
      (.update (updateFileMarker ++ path) path (movePath.map (moveToMarker ++ ·)) [] first.piece
        (chunks.map DiffChunk.piece)) := by
  have hstar : firstChar (updateFileMarker ++ path) = some '*' := firstChar_append rfl path
  have htrim : trim (updateFileMarker ++ path) = updateFileMarker ++ path :=
    trim_append_name rfl (by decide) hpath
  have hpieces : ∀ piece ∈ (first :: chunks).map DiffChunk.piece,
      piece.WellFormed ∧ piece.contextLine ≠ none ∧ ChunkAgrees piece := by
    intro piece hpiece
    obtain ⟨diff, hdiff, rfl⟩ := mem_map.mp hpiece
    exact ⟨wellFormed_piece (hchunks diff hdiff), Option.some_ne_none _,
      chunkAgrees_piece (hchunks diff hdiff)⟩
  have hmoveLine : ∀ line ∈ movePath.map (moveToMarker ++ ·),
      ∃ target, CanonicalName target ∧ line = moveToMarker ++ target := by
    intro line hline
    obtain ⟨target, htarget, rfl⟩ := Option.mem_map.mp hline
    exact ⟨target, hmove target htarget, rfl⟩
  refine ⟨⟨?_, ?_, ?_, ?_, ?_, ?_, ?_⟩, ⟨?_, rfl, ?_⟩, ?_, ?_, hstar, ?_, ?_⟩
  · rw [htrim, stripMarker_append_exclusive path (by decide) (by decide)]
  · rw [htrim, stripMarker_append_exclusive path (by decide) (by decide)]
  · rw [htrim, stripMarker_append]
  · intro line hline
    obtain ⟨target, -, rfl⟩ := hmoveLine line hline
    rw [stripMarker_append]
    rfl
  · exact forall_mem_nil _
  · exact (hpieces _ mem_cons_self).1
  · intro piece hpiece
    obtain ⟨hwf, hcontext, -⟩ := hpieces piece (mem_cons_of_mem _ hpiece)
    exact ⟨hwf, hcontext⟩
  · intro line hline
    obtain ⟨target, htarget, rfl⟩ := hmoveLine line hline
    exact trimEnd_append_name _ htarget
  · exact fun piece hpiece => (hpieces piece hpiece).2.2
  · simp [HunkPiece.lines, DiffHunk.render, flatMap_map, lines_piece]
  · have hstrip : (movePath.map (moveToMarker ++ ·)).bind (stripMarker moveToMarker) =
        movePath := by
      cases movePath with
      | none => rfl
      | some target => exact stripMarker_append moveToMarker target
    rw [HunkPiece.hunk, hstrip, ← map_cons, map_map]
    exact congrArg _ (map_congr_left fun diff _ => chunk_piece diff)
  · refine forall_mem_cons.mpr ⟨oneLine_append (by decide) hpath.oneLine,
      forall_mem_append.mpr ⟨fun line hline => ?_, fun line hline => ?_⟩⟩
    · obtain ⟨target, htarget, rfl⟩ := hmoveLine line (Option.mem_toList.mp hline)
      exact oneLine_append (by decide) htarget.oneLine
    · obtain ⟨diff, hdiff, hline⟩ := mem_flatMap.mp hline
      exact oneLine_of_mem_render_chunk (hchunks diff hdiff) line hline
  · rw [HunkPiece.header, trimStart_of_firstChar hstar (by decide),
      stripMarker_append_exclusive path (by decide) (by decide)]

theorem exists_readAs (hdiff : CanonicalHunk diff.hunk) : ∃ piece, ReadAs diff piece := by
  cases diff with
  | addFile path contents => exact ⟨_, readAs_addFile hdiff.1 hdiff.2⟩
  | deleteFile path => exact ⟨_, readAs_deleteFile hdiff⟩
  | updateFile path movePath chunks =>
    obtain ⟨hpath, hmove, hne, hchunks⟩ := hdiff
    obtain ⟨first, chunks, rfl⟩ := exists_cons_of_ne_nil fun hnil =>
      hne (map_eq_nil_iff.mpr hnil)
    exact ⟨_, readAs_updateFile hpath hmove fun diff hmem =>
      hchunks diff.chunk (mem_map_of_mem hmem)⟩

theorem exists_pieces {patch : List DiffHunk} (hpatch : ∀ diff ∈ patch, CanonicalHunk diff.hunk) :
    ∃ pieces, Forall₂ ReadAs patch pieces := by
  induction patch with
  | nil => exact ⟨[], .nil⟩
  | cons diff patch ih =>
    rw [forall_mem_cons] at hpatch
    obtain ⟨piece, hpiece⟩ := exists_readAs hpatch.1
    obtain ⟨pieces, hpieces⟩ := ih hpatch.2
    exact ⟨piece :: pieces, .cons hpiece hpieces⟩

end Hunks

section Texts
variable {patch : List DiffHunk} {pieces : List HunkPiece}

section Read
variable (h : Forall₂ ReadAs patch pieces)
include h

theorem wellFormedPieces_of_readAs (afterUpdate : Bool) : WellFormedPieces afterUpdate pieces := by
  induction h generalizing afterUpdate with
  | nil => trivial
  | cons hpiece _ ih => exact ⟨hpiece.wellFormed, fun _ => hpiece.star, ih _⟩

theorem lines_of_readAs : pieces.flatMap HunkPiece.lines = patch.flatMap DiffHunk.render := by
  induction h with
  | nil => rfl
  | cons hpiece _ ih => rw [flatMap_cons, flatMap_cons, hpiece.lines, ih]

theorem hunks_of_readAs : pieces.map HunkPiece.hunk = patch.map DiffHunk.hunk := by
  induction h with
  | nil => rfl
  | cons hpiece _ ih => rw [map_cons, map_cons, hpiece.hunk, ih]

theorem pieceAgrees_of_readAs : ∀ piece ∈ pieces, PieceAgrees piece := by
  induction h with
  | nil => exact forall_mem_nil _
  | cons hpiece _ ih => exact forall_mem_cons.mpr ⟨hpiece.agrees, ih⟩

theorem oneLine_of_readAs : ∀ line ∈ patch.flatMap DiffHunk.render, OneLine line := by
  induction h with
  | nil => exact forall_mem_nil _
  | cons hpiece _ ih => exact forall_mem_append.mpr ⟨hpiece.oneLine, ih⟩

theorem preamble_of_readAs :
    parseEnvironmentIdPreamble (pieces.flatMap HunkPiece.lines) =
      .ok (none, pieces.flatMap HunkPiece.lines, 2) := by
  cases h with
  | nil => rfl
  | @cons diff piece _ pieces hpiece _ =>
    obtain ⟨more, hmore⟩ := piece.lines_eq_cons
    rw [flatMap_cons, hmore, cons_append, parseEnvironmentIdPreamble, hpiece.noEnvironment]

end Read

theorem canonicalName_endPatchMarker : CanonicalName endPatchMarker := by decide

/-- The lines of a patch in front of the one that ends it. -/
def openLines (patch : List DiffHunk) : List (List Char) :=
  (beginPatchMarker :: patch.flatMap DiffHunk.render).map toList

theorem trim_renderPatch (patch : List DiffHunk) (finalNewline : Bool) :
    trim (renderPatch patch finalNewline) =
      ofList ((openLines patch).flatMap (· ++ ['\n'])) ++ endPatchMarker := by
  have hblank : Blank (if finalNewline then ['\n'] else []) := by
    cases finalNewline <;> simp [Blank, isWhitespace]
  have hstar : firstChar (ofList ((openLines patch).flatMap (· ++ ['\n']))) = some '*' := by
    rw [firstChar, toList_ofList]
    rfl
  have htext : renderPatch patch finalNewline =
      ofList ((ofList ((openLines patch).flatMap (· ++ ['\n'])) ++
        endPatchMarker).toList ++ if finalNewline then ['\n'] else []) := by
    rw [renderPatch, openLines, flatMap_map, toList_append, toList_ofList,
      append_assoc]
  rw [htext, trim_append_blank hblank, ofList_toList]
  exact trim_append_name hstar (by decide) canonicalName_endPatchMarker

theorem leadingBlanks_renderPatch (patch : List DiffHunk) (finalNewline : Bool) :
    leadingBlanks (renderPatch patch finalNewline) = [] := by
  rw [leadingBlanks, renderPatch, toList_ofList]
  rfl

section Lines
variable (hlines : ∀ line ∈ patch.flatMap DiffHunk.render, OneLine line)
include hlines

theorem oneLine_of_mem_openLines :
    ∀ segment ∈ openLines patch, '\n' ∉ segment ∧ '\r' ∉ segment := by
  intro segment hsegment
  obtain ⟨line, hline, rfl⟩ := mem_map.mp hsegment
  rcases mem_cons.mp hline with rfl | hline
  · exact ⟨by decide, by decide⟩
  · exact ⟨(hlines line hline).newline, (hlines line hline).carriageReturn⟩

theorem map_lineOfSegment_openLines :
    (openLines patch).map lineOfSegment = beginPatchMarker :: patch.flatMap DiffHunk.render := by
  have hsame : (openLines patch).map lineOfSegment = (openLines patch).map ofList :=
    map_congr_left fun segment hsegment =>
      lineOfSegment_of_notMem (oneLine_of_mem_openLines hlines segment hsegment).2
  rw [hsame, openLines, map_map]
  exact map_id'' (fun line => ofList_toList) _

theorem textLines_renderPatch (finalNewline : Bool) :
    textLines (trim (renderPatch patch finalNewline)) =
      beginPatchMarker :: patch.flatMap DiffHunk.render ++ [endPatchMarker] := by
  have hsegments : ∀ segment ∈ openLines patch, '\n' ∉ segment := fun segment hsegment =>
    (oneLine_of_mem_openLines hlines segment hsegment).1
  rw [trim_renderPatch, textLines, toList_append, toList_ofList,
    LineSplitting.splitOn_terminated hsegments (by decide),
    linesOfSegments_append (by decide), map_lineOfSegment_openLines hlines, ofList_toList]

end Lines

theorem checkPatchBoundariesStrict_markers (middle : List String) :
    checkPatchBoundariesStrict (beginPatchMarker :: middle ++ [endPatchMarker]) =
      .ok (beginPatchMarker :: middle ++ [endPatchMarker], middle) := by
  rw [checkPatchBoundariesStrict, getLast?_concat, cons_append, tail_cons, dropLast_concat]
  rfl

theorem parsePatch_renderPatch (h : Forall₂ ReadAs patch pieces) (finalNewline : Bool) :
    (parsePatch (renderPatch patch finalNewline)).map ApplyPatchArgs.hunks =
      .ok (patch.map DiffHunk.hunk) := by
  rw [parsePatch, parseInStrictMode, if_neg Bool.false_ne_true, parsePatchText,
    textLines_renderPatch (oneLine_of_readAs h), ← lines_of_readAs h, checkPatchBoundaries,
    checkPatchBoundariesLenient, checkPatchBoundariesStrict_markers]
  dsimp only
  rw [preamble_of_readAs h]
  dsimp only
  rw [parseHunks_pieces (wellFormedPieces_of_readAs h false) (Nat.le_refl _), hunks_of_readAs h]
  rfl

theorem streamText_renderPatch (h : Forall₂ ReadAs patch pieces) (finalNewline : Bool) :
    streamText (renderPatch patch finalNewline).toList = some (patch.map DiffHunk.hunk) := by
  have hlines := oneLine_of_readAs h
  have hsegments := oneLine_of_mem_openLines hlines
  have hopen : openLines patch = beginPatchMarker.toList :: (openLines patch).tail := rfl
  have htext : (trim (renderPatch patch finalNewline)).toList = beginPatchMarker.toList ++
      '\n' :: ((openLines patch).tail.flatMap (· ++ ['\n']) ++ endPatchMarker.toList) := by
    rw [trim_renderPatch, hopen]
    simp
  have hmiddle : (openLines patch).tail.map lineOfSegment = pieces.flatMap HunkPiece.lines := by
    rw [map_tail, map_lineOfSegment_openLines hlines, tail_cons, lines_of_readAs h]
  have hwf := wellFormedPieces_of_readAs h false
  have hscan : ∃ region, scanLines .outside (pieces.flatMap HunkPiece.lines) = some region := by
    have houtside : RegionBetween false .outside := rfl
    rcases scans_hunks houtside hwf with ⟨-, hnot⟩ | ⟨region, hregion, -, -⟩
    · exact absurd (pieceAgrees_of_readAs h) hnot
    · exact ⟨region, hregion⟩
  obtain ⟨region, hregion⟩ := hscan
  rw [streamText_segments (by rw [leadingBlanks_renderPatch]; exact not_mem_nil) htext
    (by decide) (fun segment hsegment => (hsegments segment (mem_of_mem_tail hsegment)).1)
    (by decide) (by decide), hmiddle, ← hunks_of_readAs h]
  exact (close_pieces hwf (by decide) (by decide) (by decide) (blank_trailingBlanks _)).mpr
    ⟨region, hregion, .inr (.inl ofList_toList)⟩

/-- A chunk with its old lines in front of the new ones. -/
def DiffChunk.ofChunk (chunk : UpdateFileChunk) : DiffChunk :=
  ⟨chunk.changeContext, chunk.oldLines.map .old ++ chunk.newLines.map .new, chunk.isEndOfFile⟩

theorem chunk_ofChunk (chunk : UpdateFileChunk) : (DiffChunk.ofChunk chunk).chunk = chunk := by
  have hold : (DiffChunk.ofChunk chunk).lines.filterMap DiffLine.oldText = chunk.oldLines := by
    simp [DiffChunk.ofChunk, DiffLine.oldText, Function.comp_def]
  have hnew : (DiffChunk.ofChunk chunk).lines.filterMap DiffLine.newText = chunk.newLines := by
    simp [DiffChunk.ofChunk, DiffLine.newText, Function.comp_def]
  rw [DiffChunk.chunk, hold, hnew]
  rfl

def DiffHunk.ofHunk : Hunk → DiffHunk
  | .addFile path contents => .addFile path contents
  | .deleteFile path => .deleteFile path
  | .updateFile path movePath chunks =>
    .updateFile path movePath (chunks.map DiffChunk.ofChunk)

theorem hunk_ofHunk (hunk : Hunk) : (DiffHunk.ofHunk hunk).hunk = hunk := by
  cases hunk with
  | addFile | deleteFile => rfl
  | updateFile path movePath chunks =>
    rw [DiffHunk.ofHunk, DiffHunk.hunk, map_map]
    exact congrArg _ (map_id'' chunk_ofChunk chunks)

/-- Both parsers read a canonical patch back, the streaming one under any division. -/
theorem canonical_patch_round_trips (hunks : List Hunk)
    (hcanonical : ∀ hunk ∈ hunks, CanonicalHunk hunk) :
    (∃ patch : List DiffHunk, patch.map DiffHunk.hunk = hunks) ∧
      ∀ patch : List DiffHunk, patch.map DiffHunk.hunk = hunks → ∀ finalNewline : Bool,
        (parsePatch (renderPatch patch finalNewline)).map ApplyPatchArgs.hunks = .ok hunks ∧
        ∀ deltas : List String,
          deltas.flatMap toList = (renderPatch patch finalNewline).toList →
            parseInPieces deltas = .ok hunks := by
  refine ⟨⟨hunks.map DiffHunk.ofHunk, ?_⟩, ?_⟩
  · rw [map_map]
    exact map_id'' hunk_ofHunk hunks
  · rintro patch rfl finalNewline
    obtain ⟨pieces, hpieces⟩ := exists_pieces fun diff hdiff =>
      hcanonical diff.hunk (mem_map_of_mem hdiff)
    refine ⟨parsePatch_renderPatch hpieces finalNewline, fun deltas hdeltas => ?_⟩
    have hstream := parseInPieces_eq deltas
    rw [hdeltas, streamText_renderPatch hpieces finalNewline] at hstream
    exact Transducers.toOption_eq_some.mp hstream

def sampleDiff : List DiffHunk :=
  [.addFile "a" "x\n\n", .deleteFile "b",
    .updateFile "c" (some "d") [⟨some "f", [.context "k", .old "+", .new "*** End Patch"], true⟩]]

/-- A patch with a hunk of each kind, and its text cut inside of a marker. -/
theorem sampleDiff_round_trips :
    (parsePatch (renderPatch sampleDiff true)).map ApplyPatchArgs.hunks =
        .ok (sampleDiff.map DiffHunk.hunk) ∧
      parseInPieces [ofList ((renderPatch sampleDiff true).toList.take 20),
          ofList ((renderPatch sampleDiff true).toList.drop 20)] =
        .ok (sampleDiff.map DiffHunk.hunk) := by
  have hcanonical : ∀ hunk ∈ sampleDiff.map DiffHunk.hunk, CanonicalHunk hunk := by
    decide +kernel
  obtain ⟨-, hround⟩ := canonical_patch_round_trips _ hcanonical
  obtain ⟨hparse, hstream⟩ := hround sampleDiff rfl true
  refine ⟨hparse, hstream _ ?_⟩
  simp

end Texts

end DeepseekX.PatchRoundTrip
