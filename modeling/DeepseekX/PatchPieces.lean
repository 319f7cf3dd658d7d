import DeepseekX.PatchParsing

/-!
# The parts of a patch that is read at once

The lines of a patch that `parse_patch` accepts fall into pieces, one for each hunk, and
the lines of an update hunk into pieces for its chunks. A piece also has the lines of
nothing but white space that the reading passes over: behind the header of an update
hunk, and behind a chunk that has come to its end.
-/

namespace DeepseekX.PatchParsing
open SeekSequence PatchReplacements List Option

section Lines
variable {line marker rest : String} {c : Char}

def firstChar (line : String) : Option Char := line.toList.head?

theorem stripMarker_eq_some_iff :
    stripMarker marker line = some rest ↔ line.toList = marker.toList ++ rest.toList := by
  unfold stripMarker
  rw [← String.length_toList]
  constructor
  · intro h
    split at h
    · next hmarker =>
      rw [some.injEq] at h
      rw [← h, String.toList_ofList]
      exact (prefix_iff_eq_append.mp hmarker).symm
    · cases h
  · intro h
    rw [h, if_pos (prefix_append _ _), drop_left, String.ofList_toList]

theorem isSome_stripMarker_iff :
    (stripMarker marker line).isSome = true ↔ marker.toList <+: line.toList := by
  unfold stripMarker
  split <;> simp [*]

theorem firstChar_of_opening (h : marker.toList <+: line.toList)
    (hmarker : firstChar marker = some c) : firstChar line = some c := by
  obtain ⟨rest, hrest⟩ := h
  unfold firstChar at hmarker ⊢
  rw [← hrest, head?_append, hmarker]
  rfl

theorem stripMarker_eq_none_of_firstChar (hmarker : firstChar marker = some c)
    (h : firstChar line ≠ some c) : stripMarker marker line = none := by
  rw [← not_isSome_iff_eq_none, isSome_stripMarker_iff]
  exact fun hupper => h (firstChar_of_opening hupper hmarker)

theorem toList_trimEnd (line : String) :
    (trimEnd line).toList = line.toList.rdropWhile isWhitespace := String.toList_ofList

theorem trimEnd_prefix_toList (line : String) : (trimEnd line).toList <+: line.toList := by
  rw [toList_trimEnd]
  exact rdropWhile_prefix _ _

theorem firstChar_trimEnd (line : String) :
    firstChar (trimEnd line) = none ∨ firstChar (trimEnd line) = firstChar line := by
  obtain ⟨rest, hrest⟩ := trimEnd_prefix_toList line
  unfold firstChar
  rw [← hrest]
  cases (trimEnd line).toList with
  | nil => exact .inl rfl
  | cons c cs => exact .inr rfl

theorem firstChar_trimEnd_ne (h : firstChar line ≠ some c) : firstChar (trimEnd line) ≠ some c := by
  rcases firstChar_trimEnd line with hnone | hsame
  · rw [hnone]
    exact (some_ne_none c).symm
  · rwa [hsame]

theorem trim_eq_trimEnd (h : firstChar line = some c) (hc : isWhitespace c = false) :
    trim line = trimEnd line := by
  unfold trim trimEnd
  unfold firstChar at h
  cases hline : line.toList with
  | nil => rfl
  | cons d cs =>
    rw [hline, head?_cons, some.injEq] at h
    rw [h, dropWhile_cons_of_neg (by simp [hc])]

theorem firstChar_trim (h : firstChar line = some c) (hc : isWhitespace c = false) :
    firstChar (trim line) = some c := by
  rw [trim_eq_trimEnd h hc]
  rcases firstChar_trimEnd line with hnone | hsame
  · unfold firstChar at hnone h
    rw [head?_eq_none_iff, toList_trimEnd, rdropWhile_eq_nil_iff] at hnone
    rw [hnone c (mem_of_mem_head? h)] at hc
    cases hc
  · rw [hsame, h]

theorem firstChar_of_trim_empty (h : trim line = "") (hc : isWhitespace c = false) :
    firstChar line ≠ some c := by
  intro hfirst
  rw [trim_eq_empty_iff.mp h c (mem_of_mem_head? hfirst)] at hc
  cases hc

/-- Two markers that exclude each other do not both start a line. -/
theorem stripMarker_eq_none_of_exclusive {other : String}
    (hline : marker.toList <+: line.toList) (hexclusive : ¬ marker.toList <+: other.toList)
    (hexclusive' : ¬ other.toList <+: marker.toList) : stripMarker other line = none := by
  unfold stripMarker
  rw [if_neg]
  intro hother
  rcases prefix_or_prefix_of_prefix hline hother with h | h
  · exact hexclusive h
  · exact hexclusive' h

end Lines

/-- Lines that stand in a chunk: empty, or with one of the three signs. -/
def IsContentLine (line : String) : Prop :=
  firstChar line = none ∨ firstChar line = some ' ' ∨ firstChar line = some '+' ∨
    firstChar line = some '-'

instance (line : String) : Decidable (IsContentLine line) :=
  inferInstanceAs (Decidable (_ ∨ _ ∨ _ ∨ _))

def IsContextLine (line : String) : Prop :=
  line = emptyChangeContextMarker ∨ (stripMarker changeContextMarker line).isSome

def contextOf (line : String) : Option String := stripMarker changeContextMarker line

def pushContentLine (chunk : UpdateFileChunk) (line : String) : UpdateFileChunk :=
  match line.toList.head? with
  | none => pushContext chunk ""
  | some ' ' => pushContext chunk (lineTail line)
  | some '+' => pushNew chunk (lineTail line)
  | some '-' => pushOld chunk (lineTail line)
  | some _ => chunk

def pushContent (chunk : UpdateFileChunk) (lines : List String) : UpdateFileChunk :=
  lines.foldl pushContentLine chunk

def endLines (atEnd : Bool) : List String := if atEnd then [eofMarker] else []

/-- The lines of a chunk with the blank lines behind it. -/
structure ChunkPiece where
  contextLine : Option String
  content : List String
  atEnd : Bool
  skipped : List String

namespace ChunkPiece

variable (piece : ChunkPiece)

def lines : List String :=
  piece.contextLine.toList ++ piece.content ++ endLines piece.atEnd ++ piece.skipped

def chunk : UpdateFileChunk :=
  { pushContent ⟨piece.contextLine.bind contextOf, [], [], false⟩ piece.content with
    isEndOfFile := piece.atEnd }

structure WellFormed : Prop where
  context : ∀ line ∈ piece.contextLine, IsContextLine line
  nonempty : piece.content ≠ []
  content : ∀ line ∈ piece.content, IsContentLine line
  skipped : ∀ line ∈ piece.skipped, trim line = ""
  open_skipped : piece.atEnd = false → ∀ line ∈ piece.skipped.head?, ¬ IsContentLine line
  first : piece.contextLine = none → ∀ line ∈ piece.content.head?, trim line ≠ ""

end ChunkPiece

inductive HunkPiece where
  | add (header path : String) (added : List String)
  | delete (header path : String)
  | update (header path : String) (moveLine : Option String) (skipped : List String)
      (first : ChunkPiece) (chunks : List ChunkPiece)

namespace HunkPiece

def header : HunkPiece → String
  | add header _ _ | delete header _ | update header _ _ _ _ _ => header

def isUpdate : HunkPiece → Bool
  | update .. => true
  | _ => false

def lines : HunkPiece → List String
  | add header _ added => header :: added
  | delete header _ => [header]
  | update header _ moveLine skipped first chunks =>
    header :: (moveLine.toList ++ (skipped ++ (first :: chunks).flatMap ChunkPiece.lines))

/-- The text of the added lines behind what was read before. -/
def addedText (contents : String) (added : List String) : String :=
  added.foldl (fun contents line => contents ++ lineTail line ++ "\n") contents

def hunk : HunkPiece → Hunk
  | add _ path added => .addFile path (addedText "" added)
  | delete _ path => .deleteFile path
  | update _ path moveLine _ first chunks =>
    .updateFile path (moveLine.bind (stripMarker moveToMarker))
      ((first :: chunks).map ChunkPiece.chunk)

def WellFormed : HunkPiece → Prop
  | add header path added => stripMarker addFileMarker (trim header) = some path ∧
      ∀ line ∈ added, firstChar line = some '+'
  | delete header path => stripMarker addFileMarker (trim header) = none ∧
      stripMarker deleteFileMarker (trim header) = some path
  | update header path moveLine skipped first chunks =>
      stripMarker addFileMarker (trim header) = none ∧
      stripMarker deleteFileMarker (trim header) = none ∧
      stripMarker updateFileMarker (trim header) = some path ∧
      (∀ line ∈ moveLine, (stripMarker moveToMarker line).isSome) ∧
      (∀ line ∈ skipped, trim line = "") ∧ first.WellFormed ∧
      ∀ piece ∈ chunks, piece.WellFormed ∧ piece.contextLine ≠ none

end HunkPiece

/-- Chunks behind the first one of a hunk. -/
abbrev LaterChunks (pieces : List ChunkPiece) : Prop :=
  ∀ piece ∈ pieces, piece.WellFormed ∧ piece.contextLine ≠ none

/-- The pieces of a whole patch. A hunk behind an update hunk starts with a star. -/
def WellFormedPieces : Bool → List HunkPiece → Prop
  | _, [] => True
  | afterUpdate, piece :: pieces =>
    piece.WellFormed ∧ (afterUpdate = true → firstChar piece.header = some '*') ∧
      WellFormedPieces piece.isUpdate pieces

section Reading
variable {lines : List String}
variable {line : String} {lineNumber parsedLines count : ℕ} {chunk : UpdateFileChunk}

theorem firstChar_contextLine (hline : IsContextLine line) : firstChar line = some '@' := by
  rcases hline with rfl | hline
  · decide
  · exact firstChar_of_opening (isSome_stripMarker_iff.mp hline) rfl

theorem parseChunkLines_content (hline : IsContentLine line) :
    parseChunkLines lineNumber chunk parsedLines (line :: lines) =
      parseChunkLines lineNumber (pushContentLine chunk line) (parsedLines + 1) lines := by
  have hne : line ≠ eofMarker := by
    rintro rfl
    revert hline
    decide
  rw [parseChunkLines, if_neg hne, pushContentLine]
  unfold IsContentLine firstChar at hline
  rcases hline with h | h | h | h <;> simp only [h]

theorem parseChunkLines_other (hline : ¬ IsContentLine line) (heof : line ≠ eofMarker) :
    parseChunkLines lineNumber chunk parsedLines (line :: lines) =
      if parsedLines = 0 then
        .error (.invalidHunkError (unexpectedLine line) (lineNumber + 1))
      else .ok (chunk, parsedLines) := by
  rw [parseChunkLines, if_neg heof]
  unfold IsContentLine firstChar at hline
  push Not at hline
  split
  · next h => exact absurd h hline.1
  · next h => exact absurd h hline.2.1
  · next h => exact absurd h hline.2.2.1
  · next h => exact absurd h hline.2.2.2
  · rfl

@[simp] theorem isEndOfFile_pushContentLine (chunk : UpdateFileChunk) (line : String) :
    (pushContentLine chunk line).isEndOfFile = chunk.isEndOfFile := by
  unfold pushContentLine
  split <;> rfl

theorem isEndOfFile_pushContent (chunk : UpdateFileChunk) (lines : List String) :
    (pushContent chunk lines).isEndOfFile = chunk.isEndOfFile := by
  induction lines generalizing chunk with
  | nil => rfl
  | cons line lines ih =>
    rw [pushContent, foldl_cons, ← pushContent, ih, isEndOfFile_pushContentLine]

/-- The lines of a chunk end with the text, with the end marker, or before a line that
is of another kind. -/
theorem parseChunkLines_spec {chunk' : UpdateFileChunk} (hlines : lines ≠ [] ∨ 0 < parsedLines)
    (h : parseChunkLines lineNumber chunk parsedLines lines = .ok (chunk', count)) :
    ∃ content atEnd rest, lines = content ++ endLines atEnd ++ rest ∧
      count = parsedLines + (content ++ endLines atEnd).length ∧
      0 < parsedLines + content.length ∧
      (∀ line ∈ content, IsContentLine line) ∧
      (atEnd = false → ∀ line ∈ rest.head?, ¬ IsContentLine line) ∧
      chunk' = { pushContent chunk content with
        isEndOfFile := (chunk.isEndOfFile || atEnd) } := by
  induction lines generalizing chunk parsedLines with
  | nil =>
    cases h
    refine ⟨[], false, [], rfl, rfl, hlines.resolve_left (absurd rfl), by simp, by simp, ?_⟩
    simp [pushContent]
  | cons line lines ih =>
    by_cases hcontent : IsContentLine line
    · rw [parseChunkLines_content hcontent] at h
      obtain ⟨content, atEnd, rest, hsplit, hcount, _, hlinesof, hrest, hchunk⟩ :=
        ih (.inr (Nat.succ_pos _)) h
      refine ⟨line :: content, atEnd, rest, by simp [hsplit], ?_, ?_, ?_, hrest, ?_⟩
      · simp only [cons_append, length_cons]
        omega
      · rw [length_cons]
        omega
      · exact forall_mem_cons.mpr ⟨hcontent, hlinesof⟩
      · rw [hchunk, isEndOfFile_pushContentLine, pushContent, pushContent, foldl_cons]
    · by_cases heof : line = eofMarker
      · rw [parseChunkLines, if_pos heof] at h
        split at h
        · cases h
        · cases h
          refine ⟨[], true, lines, by simp [endLines, heof], by simp [endLines],
            by omega, by simp, by simp, ?_⟩
          simp [pushContent]
      · rw [parseChunkLines_other hcontent heof] at h
        split at h
        · cases h
        · cases h
          refine ⟨[], false, line :: lines, by simp [endLines], by simp [endLines],
            by omega, by simp, by simpa using hcontent, ?_⟩
          simp [pushContent]

theorem parseChangeContext_spec {startIndex : ℕ} {allow : Bool} {context : Option String}
    (h : parseChangeContext line lineNumber allow = .ok (context, startIndex)) :
    (IsContextLine line ∧ context = contextOf line ∧ startIndex = 1) ∨
      (allow = true ∧ context = none ∧ startIndex = 0) := by
  unfold parseChangeContext at h
  split at h
  · next hline =>
    cases h
    subst hline
    exact .inl ⟨.inl rfl, by decide, rfl⟩
  · split at h
    · next context hcontext =>
      cases h
      exact .inl ⟨.inr (by simp [hcontext]), hcontext.symm, rfl⟩
    · split at h
      · next hallow =>
        cases h
        exact .inr ⟨hallow, rfl, rfl⟩
      · cases h

/-- A chunk that is read, without what is passed over behind it. -/
theorem parseUpdateFileChunk_spec {allow : Bool}
    (h : parseUpdateFileChunk (line :: lines) lineNumber allow = .ok (chunk, count)) :
    ∃ contextLine content atEnd rest,
      line :: lines = contextLine.toList ++ content ++ endLines atEnd ++ rest ∧
      count = (contextLine.toList ++ content ++ endLines atEnd).length ∧
      (∀ other ∈ contextLine, IsContextLine other) ∧ (allow = false → contextLine ≠ none) ∧
      content ≠ [] ∧ (∀ other ∈ content, IsContentLine other) ∧
      (atEnd = false → ∀ other ∈ rest.head?, ¬ IsContentLine other) ∧
      chunk = { pushContent ⟨contextLine.bind contextOf, [], [], false⟩ content with
        isEndOfFile := atEnd } := by
  simp only [parseUpdateFileChunk] at h
  cases hcontext : parseChangeContext line lineNumber allow with
  | error error =>
    rw [hcontext] at h
    cases h
  | ok result =>
    obtain ⟨context, startIndex⟩ := result
    simp only [hcontext] at h
    split at h
    · cases h
    · next hlength =>
      cases hread : parseChunkLines lineNumber ⟨context, [], [], false⟩ 0
          ((line :: lines).drop startIndex) with
      | error error =>
        rw [hread] at h
        cases h
      | ok result =>
        rw [hread] at h
        cases h
        have hne : (line :: lines).drop startIndex ≠ [] := by
          rw [ne_eq, drop_eq_nil_iff]
          omega
        obtain ⟨content, atEnd, rest, hsplit, hcount, hpos, hcontent, hrest, hchunk⟩ :=
          parseChunkLines_spec (.inl hne) hread
        rw [Nat.zero_add] at hcount hpos
        have hcontentne := length_pos_iff.mp hpos
        rcases parseChangeContext_spec hcontext with ⟨hline, rfl, rfl⟩ | ⟨rfl, rfl, rfl⟩
        · refine ⟨some line, content, atEnd, rest, ?_, ?_, ?_, ?_, hcontentne, hcontent, hrest,
            ?_⟩
          · rw [drop_one, tail_cons] at hsplit
            simp [hsplit]
          · rw [hcount]
            simp
          · rintro other ⟨⟩
            exact hline
          · exact fun _ => some_ne_none line
          · simpa using hchunk
        · refine ⟨none, content, atEnd, rest, by simpa using hsplit, by simp [hcount],
            fun _ hother => (by cases hother), fun hallow => (by cases hallow), hcontentne,
            hcontent, hrest, by simpa using hchunk⟩

/-- The loop over the chunks takes blank lines and pieces up to a line with a star. -/
theorem parseChunks_spec {bound : ℕ} {chunks chunks' : List UpdateFileChunk}
    (hbound : lines.length ≤ bound)
    (h : parseChunks lineNumber bound chunks parsedLines lines = .ok (chunks', count)) :
    ∃ (skipped : List String) (pieces : List ChunkPiece) (rest : List String),
      lines = skipped ++ pieces.flatMap ChunkPiece.lines ++ rest ∧
      count = parsedLines + (skipped ++ pieces.flatMap ChunkPiece.lines).length ∧
      (∀ line ∈ skipped, trim line = "") ∧ (∀ piece ∈ pieces, piece.WellFormed) ∧
      (chunks ≠ [] → ∀ piece ∈ pieces, piece.contextLine ≠ none) ∧
      (∀ piece ∈ pieces.tail, piece.contextLine ≠ none) ∧
      chunks' = chunks ++ pieces.map ChunkPiece.chunk ∧
      ∀ line ∈ rest.head?, firstChar line = some '*' := by
  induction bound generalizing lines chunks parsedLines with
  | zero =>
    obtain rfl := length_eq_zero_iff.mp (Nat.le_zero.mp hbound)
    cases h
    exact ⟨[], [], [], by simp⟩
  | succ bound ih =>
    cases lines with
    | nil =>
      cases h
      exact ⟨[], [], [], by simp⟩
    | cons line lines =>
      rw [parseChunks] at h
      split at h
      · next hblank =>
        obtain ⟨skipped, pieces, rest, hsplit, hcount, hskipped, hrest⟩ :=
          ih (by simpa using hbound) h
        refine ⟨line :: skipped, pieces, rest, by simp [hsplit], ?_, ?_, hrest⟩
        · simp only [cons_append, length_cons]
          omega
        · exact forall_mem_cons.mpr ⟨hblank, hskipped⟩
      · next hblank =>
        split at h
        · next hstar =>
          cases h
          exact ⟨[], [], line :: lines, by simpa [firstChar] using hstar⟩
        · split at h
          · cases h
          · next chunk chunkLines hchunk =>
            obtain ⟨contextLine, content, atEnd, after, hsplit, hcount, hcontext, hallow,
              hne, hcontent, hafter, hchunk⟩ := parseUpdateFileChunk_spec hchunk
            have hdrop : (line :: lines).drop chunkLines = after := by
              rw [hsplit, hcount, drop_left]
            have hpos : 0 < chunkLines := by
              have := length_pos_iff.mpr hne
              rw [hcount]
              simp only [length_append]
              omega
            rw [hdrop] at h
            have hafterlen : after.length ≤ bound := by
              have hlen : after.length = (line :: lines).length - chunkLines := by
                rw [← hdrop, length_drop]
              omega
            obtain ⟨skipped, pieces, rest, hsplit', hcount', hskipped, hpieces, hcontexts, _,
              hchunks, hrest⟩ := ih hafterlen h
            refine ⟨[], ⟨contextLine, content, atEnd, skipped⟩ :: pieces, rest, ?_, ?_, by simp,
              ?_, ?_, hcontexts (by simp), ?_, hrest⟩
            · rw [hsplit, hsplit']
              simp [ChunkPiece.lines]
            · rw [hcount', hcount]
              simp [ChunkPiece.lines]
              omega
            · intro piece hpiece
              rcases mem_cons.mp hpiece with rfl | hpiece
              · refine ⟨hcontext, hne, hcontent, hskipped, ?_, ?_⟩
                · intro hopen other hother
                  refine hafter hopen other ?_
                  rw [hsplit', append_assoc, head?_append, mem_def.mp hother]
                  rfl
                · rintro rfl other hother
                  obtain ⟨rest, hcons⟩ : ∃ rest, content = other :: rest :=
                    ⟨_, eq_cons_of_mem_head? hother⟩
                  rw [hcons] at hsplit
                  simp only [toList_none, nil_append, cons_append, cons.injEq] at hsplit
                  rwa [← hsplit.1]
              · exact hpieces piece hpiece
            · intro hchunksne
              exact forall_mem_cons.mpr
                ⟨hallow (isEmpty_eq_false_iff.mpr hchunksne), hcontexts (by simp)⟩
            · rw [hchunks, hchunk]
              simp [ChunkPiece.chunk]

theorem stripMarker_plus {rest : String} (h : stripMarker "+" line = some rest) :
    firstChar line = some '+' ∧ rest = lineTail line := by
  rw [stripMarker_eq_some_iff] at h
  have hcons : line.toList = '+' :: rest.toList := h
  unfold firstChar lineTail
  rw [hcons]
  exact ⟨rfl, String.ofList_toList.symm⟩

theorem parseAddLines_spec (contents : String) (parsedLines : ℕ) (lines : List String) :
    ∃ added rest, lines = added ++ rest ∧ (∀ line ∈ added, firstChar line = some '+') ∧
      parseAddLines contents parsedLines lines =
        (HunkPiece.addedText contents added, parsedLines + added.length) := by
  induction lines generalizing contents parsedLines with
  | nil => exact ⟨[], [], rfl, by simp, rfl⟩
  | cons line lines ih =>
    rw [parseAddLines]
    cases hstrip : stripMarker "+" line with
    | none => exact ⟨[], line :: lines, rfl, by simp, rfl⟩
    | some lineToAdd =>
      obtain ⟨hfirst, rfl⟩ := stripMarker_plus hstrip
      obtain ⟨added, rest, hsplit, hadded, hparse⟩ :=
        ih (contents ++ lineTail line ++ "\n") (parsedLines + 1)
      refine ⟨line :: added, rest, by simp [hsplit], ?_, ?_⟩
      · exact forall_mem_cons.mpr ⟨hfirst, hadded⟩
      · simp only [hparse, HunkPiece.addedText, foldl_cons, length_cons, Prod.mk.injEq, true_and]
        omega

/-- The lines from the header on begin with a piece of the given length and hunk. -/
abbrev BeginsWithPiece (header : String) (lines : List String) (hunk : Hunk) (count : ℕ) : Prop :=
  ∃ (piece : HunkPiece) (rest : List String), header :: lines = piece.lines ++ rest ∧
    count = piece.lines.length ∧ piece.WellFormed ∧ piece.header = header ∧ hunk = piece.hunk ∧
    (piece.isUpdate = true → ∀ line ∈ rest.head?, firstChar line = some '*')

theorem parseUpdateHunk_spec {header path : String} {hunk : Hunk}
    (hadd : stripMarker addFileMarker (trim header) = none)
    (hdelete : stripMarker deleteFileMarker (trim header) = none)
    (hupdate : stripMarker updateFileMarker (trim header) = some path)
    (h : parseUpdateHunk path lines lineNumber = .ok (hunk, count)) :
    BeginsWithPiece header lines hunk count := by
  obtain ⟨moveLine, after, hlines, hmove, hmovePath, hafter⟩ :
      ∃ (moveLine : Option String) (after : List String), lines = moveLine.toList ++ after ∧
        (∀ line ∈ moveLine, (stripMarker moveToMarker line).isSome) ∧
        lines.head?.bind (stripMarker moveToMarker) = moveLine.bind (stripMarker moveToMarker) ∧
        moveLine.toList.length =
          if (lines.head?.bind (stripMarker moveToMarker)).isSome then 1 else 0 := by
    cases hstrip : lines.head?.bind (stripMarker moveToMarker) with
    | none => exact ⟨none, lines, rfl, fun _ hline => (by cases hline), rfl, rfl⟩
    | some movePath =>
      obtain ⟨line, hline, hstrip⟩ := bind_eq_some_iff.mp hstrip
      refine ⟨some line, lines.tail, ?_, ?_, hstrip.symm, rfl⟩
      · exact eq_cons_of_mem_head? hline
      · rintro other ⟨⟩
        rw [hstrip]
        rfl
  simp only [parseUpdateHunk] at h
  rw [← hafter, hmovePath] at h
  have hdrop : lines.drop moveLine.toList.length = after := by rw [hlines, drop_left]
  rw [hdrop] at h
  split at h
  · cases h
  · next chunks parsedLines hchunks =>
    split at h
    · cases h
    · next hne =>
      cases h
      have hbound : after.length ≤ lines.length := by
        rw [hlines, length_append]
        exact Nat.le_add_left _ _
      obtain ⟨skipped, pieces, rest, hsplit, hcount, hskipped, hpieces, _, hcontexts, rfl,
        hrest⟩ := parseChunks_spec hbound hchunks
      cases pieces with
      | nil => exact absurd rfl hne
      | cons first pieces =>
        refine ⟨.update header path moveLine skipped first pieces, rest, ?_, ?_, ?_, rfl, rfl,
          fun _ => hrest⟩
        · rw [hlines, hsplit]
          simp [HunkPiece.lines]
        · rw [hcount]
          simp [HunkPiece.lines]
          omega
        · exact ⟨hadd, hdelete, hupdate, hmove, hskipped, hpieces first mem_cons_self,
            fun piece hpiece => ⟨hpieces piece (mem_cons_of_mem _ hpiece), hcontexts piece hpiece⟩⟩

theorem parseOneHunk_spec {header : String} {hunk : Hunk}
    (h : parseOneHunk header lines lineNumber = .ok (hunk, count)) :
    BeginsWithPiece header lines hunk count := by
  simp only [parseOneHunk] at h
  split at h
  · next path hadd =>
    obtain ⟨added, rest, rfl, hadded, hparse⟩ := parseAddLines_spec "" 1 lines
    rw [hparse] at h
    cases h
    refine ⟨.add header path added, rest, rfl, ?_, ⟨hadd, hadded⟩, rfl, rfl,
      fun hupdate => (by cases hupdate)⟩
    simp only [HunkPiece.lines, length_cons]
    omega
  · next hadd =>
    split at h
    · next path hdelete =>
      cases h
      exact ⟨.delete header path, lines, rfl, rfl, ⟨hadd, hdelete⟩, rfl, rfl,
        fun hupdate => (by cases hupdate)⟩
    · next hdelete =>
      split at h
      · next path hupdate =>
        exact parseUpdateHunk_spec hadd hdelete hupdate h
      · cases h

theorem HunkPiece.lines_eq_cons (piece : HunkPiece) :
    ∃ rest, piece.lines = piece.header :: rest := by
  cases piece <;> exact ⟨_, rfl⟩

/-- The lines between the markers are those of well-formed pieces. -/
theorem parseHunks_spec {bound : ℕ} {hunks hunks' : List Hunk} (hbound : lines.length ≤ bound)
    (h : parseHunks bound hunks lines lineNumber = .ok hunks') {afterUpdate : Bool}
    (hstar : afterUpdate = true → ∀ line ∈ lines.head?, firstChar line = some '*') :
    ∃ pieces, lines = pieces.flatMap HunkPiece.lines ∧ WellFormedPieces afterUpdate pieces ∧
      hunks' = hunks ++ pieces.map HunkPiece.hunk := by
  induction bound generalizing lines hunks lineNumber afterUpdate with
  | zero =>
    obtain rfl := length_eq_zero_iff.mp (Nat.le_zero.mp hbound)
    cases h
    exact ⟨[], rfl, trivial, by simp⟩
  | succ bound ih =>
    cases lines with
    | nil =>
      cases h
      exact ⟨[], rfl, trivial, by simp⟩
    | cons first lines =>
      rw [parseHunks] at h
      split at h
      · cases h
      · next hunk hunkLines hone =>
        obtain ⟨piece, rest, hsplit, hcount, hwf, hheader, rfl, hrest⟩ := parseOneHunk_spec hone
        have hdrop : (first :: lines).drop hunkLines = rest := by
          rw [hsplit, hcount, drop_left]
        rw [hdrop] at h
        have hlength : rest.length ≤ bound := by
          obtain ⟨more, hmore⟩ := piece.lines_eq_cons
          have hlen := congrArg length hsplit
          rw [hmore] at hlen
          simp only [length_cons, length_append] at hlen hbound
          omega
        obtain ⟨pieces, hpieces, hwfs, hhunks⟩ := ih hlength h hrest
        refine ⟨piece :: pieces, ?_, ⟨hwf, ?_, hwfs⟩, ?_⟩
        · rw [hsplit, hpieces, flatMap_cons]
        · intro hafter
          rw [hheader]
          exact hstar hafter first rfl
        · rw [hhunks]
          simp

end Reading

end DeepseekX.PatchParsing
