import DeepseekX.AbsolutePaths
import DeepseekX.SeekSequence
import Mathlib.Data.List.Sort

/-!
# From update chunks to new file contents

The chunks of an update hunk are located in the lines of the file one after
another, collected as replacements of line intervals, sorted by position and
applied back to front. The result depends on the file only through its text: the
path occurs in error messages alone.
-/

namespace DeepseekX.PatchReplacements
open AbsolutePaths SeekSequence

structure UpdateFileChunk where
  changeContext : Option String
  oldLines : List String
  newLines : List String
  isEndOfFile : Bool
  deriving DecidableEq, Repr

/-- `(start_index, old_len, new_lines)`. -/
structure Replacement where
  startIndex : ℕ
  oldLen : ℕ
  newLines : List String
  deriving DecidableEq, Repr

variable (lines : List String)

def endsWithEmptyLine : Bool := lines.getLast? == some ""

def contextNotFound (context : String) (path : AbsolutePathBuf) : String :=
  "Failed to find context '" ++ context ++ "' in " ++ path.display

def linesNotFound (oldLines : List String) (path : AbsolutePathBuf) : String :=
  "Failed to find expected lines in " ++ path.display ++ ":\n" ++ "\n".intercalate oldLines

/-- The context line of a chunk moves the cursor behind its first occurrence. -/
def seekContext (originalLines : List String) (path : AbsolutePathBuf) (lineIndex : ℕ) :
    Option String → Except String ℕ
  | none => .ok lineIndex
  | some context =>
    match seekSequence originalLines [context] lineIndex false with
    | some idx => .ok (idx + 1)
    | none => .error (contextNotFound context path)

/-- Where the old lines of a chunk stand: position, number of lines, replacement.
A pattern that ends in an empty line is retried without it. -/
def locateOldLines (originalLines : List String) (lineIndex : ℕ) (chunk : UpdateFileChunk) :
    Option Replacement :=
  match seekSequence originalLines chunk.oldLines lineIndex chunk.isEndOfFile with
  | some start => some ⟨start, chunk.oldLines.length, chunk.newLines⟩
  | none =>
    if endsWithEmptyLine chunk.oldLines then
      let pattern := chunk.oldLines.dropLast
      let newSlice :=
        if endsWithEmptyLine chunk.newLines then chunk.newLines.dropLast else chunk.newLines
      (seekSequence originalLines pattern lineIndex chunk.isEndOfFile).map
        (⟨·, pattern.length, newSlice⟩)
    else none

/-- Pure additions go to the end, before a final empty line. -/
def insertionIndex (originalLines : List String) : ℕ :=
  if endsWithEmptyLine originalLines then originalLines.length - 1 else originalLines.length

/-- One iteration over the chunks: the cursor and the replacement found. -/
def locateChunk (originalLines : List String) (path : AbsolutePathBuf) (lineIndex : ℕ)
    (chunk : UpdateFileChunk) : Except String (ℕ × Replacement) :=
  match seekContext originalLines path lineIndex chunk.changeContext with
  | .error message => .error message
  | .ok lineIndex =>
    if chunk.oldLines = [] then
      .ok (lineIndex, ⟨insertionIndex originalLines, 0, chunk.newLines⟩)
    else
      match locateOldLines originalLines lineIndex chunk with
      | some r => .ok (r.startIndex + r.oldLen, r)
      | none => .error (linesNotFound chunk.oldLines path)

def locateChunks (originalLines : List String) (path : AbsolutePathBuf) :
    ℕ → List UpdateFileChunk → Except String (List Replacement)
  | _, [] => .ok []
  | lineIndex, chunk :: chunks =>
    match locateChunk originalLines path lineIndex chunk with
    | .error message => .error message
    | .ok (lineIndex, r) => (locateChunks originalLines path lineIndex chunks).map (r :: ·)

/-- The sort is stable, as `sort_by` is. -/
def computeReplacements (originalLines : List String) (path : AbsolutePathBuf)
    (chunks : List UpdateFileChunk) : Except String (List Replacement) :=
  (locateChunks originalLines path 0 chunks).map
    (List.insertionSort (fun lhs rhs => lhs.startIndex ≤ rhs.startIndex))

def removeLines (startIndex : ℕ) : ℕ → List String → List String
  | 0, lines => lines
  | n + 1, lines => removeLines startIndex n
      (if startIndex < lines.length then lines.eraseIdx startIndex else lines)

def insertLines : ℕ → List String → List String → List String
  | _, [], lines => lines
  | position, line :: newLines, lines =>
      insertLines (position + 1) newLines (lines.insertIdx position line)

def applyReplacement (r : Replacement) : List String :=
  insertLines r.startIndex r.newLines (removeLines r.startIndex r.oldLen lines)

/-- Replacements are applied in descending order of their position. -/
def applyReplacements (replacements : List Replacement) : List String :=
  replacements.reverse.foldl applyReplacement lines

/-- `split('\n')` without the empty element behind a final newline. -/
def originalLines (contents : String) : List String :=
  let lines := (contents.toList.splitOn '\n').map String.ofList
  if endsWithEmptyLine lines then lines.dropLast else lines

def joinLines : String :=
  "\n".intercalate (if endsWithEmptyLine lines then lines else lines ++ [""])

/-- The part of `derive_new_contents_from_chunks` behind the read. -/
def newContentsFromChunks (contents : String) (path : AbsolutePathBuf)
    (chunks : List UpdateFileChunk) : Except String String :=
  let lines := originalLines contents
  match computeReplacements lines path chunks with
  | .error message => .error message
  | .ok replacements => .ok (joinLines (applyReplacements lines replacements))

example : newContentsFromChunks "a\nb\nc\n" ⟨["f"]⟩
    [⟨none, ["b"], ["B", "B2"], false⟩, ⟨none, [], ["end"], false⟩] =
      .ok "a\nB\nB2\nc\nend\n" := by decide

end DeepseekX.PatchReplacements
