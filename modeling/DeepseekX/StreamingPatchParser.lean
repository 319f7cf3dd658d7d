import DeepseekX.PatchParsing

/-!
# Reading a patch while it arrives

The streaming parser collects characters until a newline completes a line and steps a
small state machine with it. The hunk that is being read is the last one of the list.
A failing call ends the reading.
-/

namespace DeepseekX.StreamingPatchParser
open SeekSequence PatchReplacements PatchParsing

inductive StreamingParserMode where
  | notStarted
  | startedPatch
  | addFile
  | deleteFile
  | updateFile (hunkLineNumber : ℕ)
  | endedPatch
  deriving DecidableEq, Repr

structure Parser where
  lineBuffer : List Char
  mode : StreamingParserMode
  hunks : List Hunk
  lineNumber : ℕ
  deriving DecidableEq, Repr

def start : Parser := ⟨[], .notStarted, [], 0⟩

def isEnvironmentIdPreambleLine (line : String) : Bool :=
  (stripMarker environmentIdMarker line).isSome

def chunkIsEmpty (chunk : UpdateFileChunk) : Bool :=
  chunk.oldLines.isEmpty && chunk.newLines.isEmpty

variable (parser : Parser)

def ensureUpdateHunkIsNotEmpty (line : String) : Except ParseError Unit :=
  match parser.hunks.getLast? with
  | some (.updateFile path _ chunks) =>
    match chunks.getLast? with
    | none =>
      match parser.mode with
      | .updateFile hunkLineNumber =>
        .error (.invalidHunkError (emptyHunk path) hunkLineNumber)
      | _ => .ok ()
    | some chunk =>
      if chunkIsEmpty chunk then
        .error (.invalidHunkError
          (if line = endPatchMarker then noChunkLines else unexpectedLine line)
          parser.lineNumber)
      else .ok ()
  | _ => .ok ()

variable (trimmed : String)

/-- The hunk a header opens, and the mode in which its lines are read. -/
def openedHunk (lineNumber : ℕ) : Option (Hunk × StreamingParserMode) :=
  match stripMarker addFileMarker trimmed with
  | some path => some (.addFile path "", .addFile)
  | none =>
    match stripMarker deleteFileMarker trimmed with
    | some path => some (.deleteFile path, .deleteFile)
    | none =>
      (stripMarker updateFileMarker trimmed).map fun path =>
        (.updateFile path none [], .updateFile lineNumber)

/-- The parser behind a header or the end marker, none for another line. -/
def handleHunkHeadersAndEndPatch : Except ParseError (Option Parser) :=
  if trimmed = endPatchMarker then
    (ensureUpdateHunkIsNotEmpty parser trimmed).map fun _ =>
      some { parser with mode := .endedPatch }
  else
    match openedHunk trimmed parser.lineNumber with
    | some (hunk, mode) =>
      (ensureUpdateHunkIsNotEmpty parser trimmed).map fun _ =>
        some { parser with mode := mode, hunks := parser.hunks ++ [hunk] }
    | none => .ok none

def setLastHunk (hunk : Hunk) : Parser :=
  { parser with hunks := parser.hunks.dropLast ++ [hunk] }

/-- The last chunk changed, a new one without context if there is none. -/
def changeLastChunk (chunks : List UpdateFileChunk) (f : UpdateFileChunk → UpdateFileChunk) :
    List UpdateFileChunk :=
  match chunks.getLast? with
  | none => [f ⟨none, [], [], false⟩]
  | some chunk => chunks.dropLast ++ [f chunk]

/-- A line of an update hunk that is no header, for the hunk read so far. -/
def processChunkLine (path : String) (movePath : Option String) (chunks : List UpdateFileChunk)
    (line : String) (lineNumber : ℕ) : Except ParseError Hunk :=
  let updateLine := trimEnd line
  let lastIsEmpty := chunks.getLast?.any chunkIsEmpty
  let context := stripMarker changeContextMarker updateLine
  match (if chunks.isEmpty && movePath.isNone then stripMarker moveToMarker updateLine
      else none) with
  | some moveToPath => .ok (.updateFile path (some moveToPath) chunks)
  | none =>
    if (updateLine = emptyChangeContextMarker ∨ context.isSome) ∧ lastIsEmpty then
      .error (.invalidHunkError (unexpectedLine line) lineNumber)
    else if updateLine = emptyChangeContextMarker then
      .ok (.updateFile path movePath (chunks ++ [⟨none, [], [], false⟩]))
    else
      match context with
      | some changeContext =>
        .ok (.updateFile path movePath (chunks ++ [⟨some changeContext, [], [], false⟩]))
      | none =>
        if updateLine = eofMarker then
          if lastIsEmpty then .error (.invalidHunkError noChunkLines lineNumber)
          else if chunks.isEmpty then .ok (.updateFile path movePath chunks)
          else .ok (.updateFile path movePath
            (changeLastChunk chunks fun chunk => { chunk with isEndOfFile := true }))
        else
          match line.toList.head? with
          | none => .ok (.updateFile path movePath
              (changeLastChunk chunks fun chunk => pushContext chunk ""))
          | some ' ' => .ok (.updateFile path movePath
              (changeLastChunk chunks fun chunk => pushContext chunk (lineTail line)))
          | some '+' => .ok (.updateFile path movePath
              (changeLastChunk chunks fun chunk => pushNew chunk (lineTail line)))
          | some '-' => .ok (.updateFile path movePath
              (changeLastChunk chunks fun chunk => pushOld chunk (lineTail line)))
          | some _ =>
            if chunks.getLast?.any fun chunk => !chunkIsEmpty chunk then
              .error (.invalidHunkError (missingContext line) lineNumber)
            else .error (.invalidHunkError (unexpectedLine line) lineNumber)

/-- Lines in a mode that knows headers, and otherwise what `other` makes of them. -/
def processHeaderOr (other : Except ParseError Parser) : Except ParseError Parser :=
  match handleHunkHeadersAndEndPatch parser trimmed with
  | .error error => .error error
  | .ok (some parser) => .ok parser
  | .ok none => other

def processLine (line : String) : Except ParseError Parser :=
  let trimmed := trim line
  let noHeader := .error (.invalidHunkError (invalidHeader trimmed) parser.lineNumber)
  match parser.mode with
  | .notStarted =>
    if trimmed = beginPatchMarker then .ok { parser with mode := .startedPatch }
    else .error badFirstLine
  | .startedPatch =>
    if isEnvironmentIdPreambleLine line then .ok parser
    else processHeaderOr parser trimmed noHeader
  | .addFile => processHeaderOr parser trimmed <|
      match stripMarker "+" line, parser.hunks.getLast? with
      | some lineToAdd, some (.addFile path contents) =>
        .ok (setLastHunk parser (.addFile path (contents ++ lineToAdd ++ "\n")))
      | _, _ => noHeader
  | .deleteFile => processHeaderOr parser trimmed noHeader
  | .updateFile _ => processHeaderOr parser (trimEnd line) <|
      match parser.hunks.getLast? with
      | some (.updateFile path movePath chunks) =>
        (processChunkLine path movePath chunks line parser.lineNumber).map (setLastHunk parser)
      | _ => .error (.invalidHunkError (unexpectedLine line) parser.lineNumber)
  | .endedPatch => .ok parser

def pushChar (ch : Char) : Except ParseError Parser :=
  if ch = '\n' then
    processLine { parser with lineBuffer := [], lineNumber := parser.lineNumber + 1 }
      (String.ofList (dropCarriageReturn parser.lineBuffer))
  else .ok { parser with lineBuffer := parser.lineBuffer ++ [ch] }

def pushChars (chars : List Char) : Except ParseError Parser :=
  chars.foldlM pushChar parser

/-- The parser behind the text and the hunks so far. -/
def pushDelta (delta : String) : Except ParseError (Parser × List Hunk) :=
  (pushChars parser delta.toList).map fun parser => (parser, parser.hunks)

def finishLine : Except ParseError Parser :=
  if parser.lineBuffer = [] then .ok parser
  else
    let line := String.ofList parser.lineBuffer
    let parser := { parser with lineBuffer := [], lineNumber := parser.lineNumber + 1 }
    if trim line = endPatchMarker then
      (ensureUpdateHunkIsNotEmpty parser (trim line)).map fun _ =>
        { parser with mode := .endedPatch }
    else processLine parser line

def finish : Except ParseError (List Hunk) :=
  match finishLine parser with
  | .error error => .error error
  | .ok parser => if parser.mode = .endedPatch then .ok parser.hunks else .error badLastLine

def pushDeltas : Parser → List String → Except ParseError Parser
  | parser, [] => .ok parser
  | parser, delta :: deltas =>
    match pushDelta parser delta with
    | .error error => .error error
    | .ok (parser, _) => pushDeltas parser deltas

def parseInPieces (deltas : List String) : Except ParseError (List Hunk) :=
  match pushDeltas start deltas with
  | .error error => .error error
  | .ok parser => finish parser

example : parseInPieces
      ["*** Begin Patch\n*** Update Fi", "le: f\n@@ c\n-a\n", "+b\n*** End Patch"] =
    .ok [.updateFile "f" none [⟨some "c", ["a"], ["b"], false⟩]] := by decide +kernel

end DeepseekX.StreamingPatchParser
