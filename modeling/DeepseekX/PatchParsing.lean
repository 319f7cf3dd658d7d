import DeepseekX.PatchReplacements

/-!
# Reading a patch at once

`parse_patch` trims the text, splits it into lines, checks that the first and the last
line are the markers of a patch (looking inside a heredoc if there is one) and reads the
lines between them hunk by hunk. The number of lines that are left bounds the iterations
of a loop. Paths are kept as they are written.
-/

namespace DeepseekX.PatchParsing
open SeekSequence PatchReplacements

def beginPatchMarker : String := "*** Begin Patch"
def environmentIdMarker : String := "*** Environment ID: "
def endPatchMarker : String := "*** End Patch"
def addFileMarker : String := "*** Add File: "
def deleteFileMarker : String := "*** Delete File: "
def updateFileMarker : String := "*** Update File: "
def moveToMarker : String := "*** Move to: "
def eofMarker : String := "*** End of File"
def changeContextMarker : String := "@@ "
def emptyChangeContextMarker : String := "@@"

inductive ParseError where
  | invalidPatchError (message : String)
  | invalidHunkError (message : String) (lineNumber : ℕ)
  deriving DecidableEq, Repr

inductive Hunk where
  | addFile (path contents : String)
  | deleteFile (path : String)
  | updateFile (path : String) (movePath : Option String) (chunks : List UpdateFileChunk)
  deriving DecidableEq, Repr

structure ApplyPatchArgs where
  patch : String
  hunks : List Hunk
  workdir : Option String
  environmentId : Option String
  deriving DecidableEq, Repr

def trimStart (s : String) : String := String.ofList (s.toList.dropWhile isWhitespace)

/-- `strip_prefix`. -/
def stripMarker (marker line : String) : Option String :=
  if marker.toList <+: line.toList then some (String.ofList (line.toList.drop marker.length))
  else none

def dropCarriageReturn (segment : List Char) : List Char :=
  if segment.getLast? = some '\r' then segment.dropLast else segment

/-- The lines of a text that is split at its newlines: what stands before a newline loses
a carriage return, an empty rest is no line. -/
def linesOfSegments : List (List Char) → List String
  | [] => []
  | [rest] => if rest = [] then [] else [String.ofList rest]
  | segment :: segments =>
    String.ofList (dropCarriageReturn segment) :: linesOfSegments segments

theorem linesOfSegments_concat (segments : List (List Char)) (last : List Char) :
    linesOfSegments (segments ++ [last]) =
      (segments.map fun segment => String.ofList (dropCarriageReturn segment)) ++
        if last = [] then [] else [String.ofList last] := by
  induction segments with
  | nil => rfl
  | cons segment segments ih =>
    obtain ⟨next, rest, hrest⟩ := List.exists_cons_of_ne_nil
      (List.append_ne_nil_of_right_ne_nil segments (List.cons_ne_nil last []))
    rw [List.cons_append, hrest, linesOfSegments, ← hrest, ih]
    · rfl
    · simp

/-- `str::lines`. -/
def textLines (text : String) : List String := linesOfSegments (text.toList.splitOn '\n')

variable (line : String)

def invalidHeader : String :=
  "'" ++ line ++ "' is not a valid hunk header. Valid hunk headers: " ++
    "'*** Add File: \x7bpath\x7d', '*** Delete File: \x7bpath\x7d', '*** Update File: \x7bpath\x7d'"

def emptyHunk (path : String) : String :=
  "Update file hunk for path '" ++ path ++ "' is empty"

def noChunkLines : String := "Update hunk does not contain any lines"

def missingContext : String :=
  "Expected update hunk to start with a @@ context marker, got: '" ++ line ++ "'"

def unexpectedLine : String :=
  "Unexpected line found in update hunk: '" ++ line ++ "'. Every line should start with ' ' " ++
    "(context line), '+' (added line), or '-' (removed line)"

def badFirstLine : ParseError :=
  .invalidPatchError "The first line of the patch must be '*** Begin Patch'"

def badLastLine : ParseError :=
  .invalidPatchError "The last line of the patch must be '*** End Patch'"

variable (chunk : UpdateFileChunk)

def pushContext (line : String) : UpdateFileChunk :=
  { chunk with oldLines := chunk.oldLines ++ [line], newLines := chunk.newLines ++ [line] }

def pushNew (line : String) : UpdateFileChunk :=
  { chunk with newLines := chunk.newLines ++ [line] }

def pushOld (line : String) : UpdateFileChunk :=
  { chunk with oldLines := chunk.oldLines ++ [line] }

def lineTail : String := String.ofList line.toList.tail

/-- The loop over the lines of a chunk: the chunk and the number of lines it has. -/
def parseChunkLines (lineNumber : ℕ) :
    UpdateFileChunk → ℕ → List String → Except ParseError (UpdateFileChunk × ℕ)
  | chunk, parsedLines, [] => .ok (chunk, parsedLines)
  | chunk, parsedLines, line :: lines =>
    if line = eofMarker then
      if parsedLines = 0 then .error (.invalidHunkError noChunkLines (lineNumber + 1))
      else .ok ({ chunk with isEndOfFile := true }, parsedLines + 1)
    else
      match line.toList.head? with
      | none => parseChunkLines lineNumber (pushContext chunk "") (parsedLines + 1) lines
      | some ' ' =>
        parseChunkLines lineNumber (pushContext chunk (lineTail line)) (parsedLines + 1) lines
      | some '+' =>
        parseChunkLines lineNumber (pushNew chunk (lineTail line)) (parsedLines + 1) lines
      | some '-' =>
        parseChunkLines lineNumber (pushOld chunk (lineTail line)) (parsedLines + 1) lines
      | some _ =>
        if parsedLines = 0 then
          .error (.invalidHunkError (unexpectedLine line) (lineNumber + 1))
        else .ok (chunk, parsedLines)

/-- The context of a chunk and the number of lines it takes. -/
def parseChangeContext (lineNumber : ℕ) (allowMissingContext : Bool) :
    Except ParseError (Option String × ℕ) :=
  if line = emptyChangeContextMarker then .ok (none, 1)
  else
    match stripMarker changeContextMarker line with
    | some context => .ok (some context, 1)
    | none =>
      if allowMissingContext then .ok (none, 0)
      else .error (.invalidHunkError (missingContext line) lineNumber)

def parseUpdateFileChunk (lines : List String) (lineNumber : ℕ) (allowMissingContext : Bool) :
    Except ParseError (UpdateFileChunk × ℕ) :=
  match lines with
  | [] => .error (.invalidHunkError noChunkLines lineNumber)
  | first :: _ =>
    match parseChangeContext first lineNumber allowMissingContext with
    | .error error => .error error
    | .ok (changeContext, startIndex) =>
      if startIndex ≥ lines.length then
        .error (.invalidHunkError noChunkLines (lineNumber + 1))
      else
        (parseChunkLines lineNumber ⟨changeContext, [], [], false⟩ 0
          (lines.drop startIndex)).map fun (chunk, parsedLines) =>
            (chunk, parsedLines + startIndex)

/-- The loop over the chunks of an update hunk: all chunks and the number of lines. -/
def parseChunks (lineNumber : ℕ) :
    ℕ → List UpdateFileChunk → ℕ → List String → Except ParseError (List UpdateFileChunk × ℕ)
  | 0, chunks, parsedLines, _ => .ok (chunks, parsedLines)
  | _ + 1, chunks, parsedLines, [] => .ok (chunks, parsedLines)
  | bound + 1, chunks, parsedLines, line :: lines =>
    if trim line = "" then parseChunks lineNumber bound chunks (parsedLines + 1) lines
    else if line.toList.head? = some '*' then .ok (chunks, parsedLines)
    else
      match parseUpdateFileChunk (line :: lines) (lineNumber + parsedLines) chunks.isEmpty with
      | .error error => .error error
      | .ok (chunk, chunkLines) =>
        parseChunks lineNumber bound (chunks ++ [chunk]) (parsedLines + chunkLines)
          ((line :: lines).drop chunkLines)

def parseAddLines : String → ℕ → List String → String × ℕ
  | contents, parsedLines, [] => (contents, parsedLines)
  | contents, parsedLines, line :: lines =>
    match stripMarker "+" line with
    | some lineToAdd => parseAddLines (contents ++ lineToAdd ++ "\n") (parsedLines + 1) lines
    | none => (contents, parsedLines)

def parseUpdateHunk (path : String) (lines : List String) (lineNumber : ℕ) :
    Except ParseError (Hunk × ℕ) :=
  let movePath := lines.head?.bind (stripMarker moveToMarker)
  let moveLines := if movePath.isSome then 1 else 0
  match parseChunks lineNumber lines.length [] (1 + moveLines) (lines.drop moveLines) with
  | .error error => .error error
  | .ok (chunks, parsedLines) =>
    if chunks.isEmpty then .error (.invalidHunkError (emptyHunk path) lineNumber)
    else .ok (.updateFile path movePath chunks, parsedLines)

/-- One hunk from its first line and the lines behind it. -/
def parseOneHunk (first : String) (lines : List String) (lineNumber : ℕ) :
    Except ParseError (Hunk × ℕ) :=
  let firstLine := trim first
  match stripMarker addFileMarker firstLine with
  | some path =>
    let (contents, parsedLines) := parseAddLines "" 1 lines
    .ok (.addFile path contents, parsedLines)
  | none =>
    match stripMarker deleteFileMarker firstLine with
    | some path => .ok (.deleteFile path, 1)
    | none =>
      match stripMarker updateFileMarker firstLine with
      | some path => parseUpdateHunk path lines lineNumber
      | none => .error (.invalidHunkError (invalidHeader firstLine) lineNumber)

def parseHunks : ℕ → List Hunk → List String → ℕ → Except ParseError (List Hunk)
  | 0, hunks, _, _ => .ok hunks
  | _ + 1, hunks, [], _ => .ok hunks
  | bound + 1, hunks, first :: lines, lineNumber =>
    match parseOneHunk first lines lineNumber with
    | .error error => .error error
    | .ok (hunk, hunkLines) =>
      parseHunks bound (hunks ++ [hunk]) ((first :: lines).drop hunkLines) (lineNumber + hunkLines)

def checkStartAndEndLinesStrict (firstLine lastLine : Option String) : Except ParseError Unit :=
  match firstLine.map trim, lastLine.map trim with
  | some first, some last =>
    if first = beginPatchMarker ∧ last = endPatchMarker then .ok ()
    else if first ≠ beginPatchMarker then .error badFirstLine
    else .error badLastLine
  | some first, none => if first ≠ beginPatchMarker then .error badFirstLine else .error badLastLine
  | none, _ => .error badLastLine

/-- The lines of the patch and those between its markers. -/
def checkPatchBoundariesStrict (lines : List String) :
    Except ParseError (List String × List String) :=
  (checkStartAndEndLinesStrict lines.head? lines.getLast?).map fun _ =>
    (lines, lines.tail.dropLast)

def isHeredocStart : Bool :=
  line == "<<EOF" || line == "<<'EOF'" || line == "<<\"EOF\""

def checkPatchBoundariesLenient (originalLines : List String) :
    Except ParseError (List String × List String) :=
  match checkPatchBoundariesStrict originalLines with
  | .ok lines => .ok lines
  | .error originalParseError =>
    match originalLines.head?, originalLines.getLast? with
    | some first, some last =>
      if isHeredocStart first ∧ "EOF".toList <:+ last.toList ∧ originalLines.length ≥ 4 then
        checkPatchBoundariesStrict originalLines.tail.dropLast
      else .error originalParseError
    | _, _ => .error originalParseError

/-- The environment, the lines behind its line, and the number of the first of them. -/
def parseEnvironmentIdPreamble (hunkLines : List String) :
    Except ParseError (Option String × List String × ℕ) :=
  match hunkLines with
  | [] => .ok (none, hunkLines, 2)
  | firstLine :: rest =>
    match stripMarker environmentIdMarker (trimStart firstLine) with
    | none => .ok (none, hunkLines, 2)
    | some environmentId =>
      if trim environmentId = "" then
        .error (.invalidPatchError "apply_patch environment_id cannot be empty")
      else .ok (some (trim environmentId), rest, 3)

inductive ParseMode where
  | strict
  | lenient
  deriving DecidableEq, Repr

def checkPatchBoundaries : ParseMode → List String → Except ParseError (List String × List String)
  | .strict => checkPatchBoundariesStrict
  | .lenient => checkPatchBoundariesLenient

def parsePatchText (patch : String) (mode : ParseMode) : Except ParseError ApplyPatchArgs :=
  match checkPatchBoundaries mode (textLines (trim patch)) with
  | .error error => .error error
  | .ok (patchLines, hunkLines) =>
    match parseEnvironmentIdPreamble hunkLines with
    | .error error => .error error
    | .ok (environmentId, remainingLines, lineNumber) =>
      (parseHunks remainingLines.length [] remainingLines lineNumber).map fun hunks =>
        ⟨"\n".intercalate patchLines, hunks, none, environmentId⟩

def parseInStrictMode : Bool := false

def parsePatch (patch : String) : Except ParseError ApplyPatchArgs :=
  parsePatchText patch (if parseInStrictMode then .strict else .lenient)

example : parsePatch "*** Begin Patch\n*** Update File: f\n@@ c\n-a\n+b\n*** End Patch\n" =
    .ok ⟨"*** Begin Patch\n*** Update File: f\n@@ c\n-a\n+b\n*** End Patch",
      [.updateFile "f" none [⟨some "c", ["a"], ["b"], false⟩]], none, none⟩ := by decide +kernel

end DeepseekX.PatchParsing
