import DeepseekX.AppliedPatchDeltas
import Mathlib.Data.List.Destutter

/-!
# The diff of a turn

The tracker follows the exact deltas of a turn in three maps: the contents paths had
when they were first touched, the contents they have now, and the paths that moved
files came from. The unified diff of the turn is rendered from the maps, a moved
file as one section with its origin. The order in which the hash maps are iterated is
a parameter, as are the blob ids and the rendering of a text diff.
-/

namespace DeepseekX.TurnDiffs
open AbsolutePaths ExecutorFileSystems KeyedStoreChanges ApplyPatchHunks

abbrev Contents := AList (fun _ : AbsolutePathBuf => String)

abbrev Paths := AList (fun _ : AbsolutePathBuf => AbsolutePathBuf)

structure TurnDiffTracker where
  valid : Bool
  displayRoot : Option PathBuf
  baselineByPath : Contents
  currentByPath : Contents
  originByCurrentPath : Paths

namespace TurnDiffTracker

def withDisplayRoot (displayRoot : Option PathBuf) : TurnDiffTracker := ⟨true, displayRoot, ∅, ∅, ∅⟩

variable (t : TurnDiffTracker)

def invalidate : TurnDiffTracker := { t with valid := false }

/-- The content a path had when it was first touched becomes its baseline. -/
def noteBaseline (path : AbsolutePathBuf) (content : Option String) : TurnDiffTracker :=
  if (t.currentByPath.lookup path).isNone && (t.baselineByPath.lookup path).isNone then
    match content with
    | some content => { t with baselineByPath := t.baselineByPath.insert path content }
    | none => t
  else t

def applyAdd (path : AbsolutePathBuf) (content : String) (overwrittenContent : Option String) :
    TurnDiffTracker :=
  let t := { t with originByCurrentPath := t.originByCurrentPath.erase path }
  let t := t.noteBaseline path overwrittenContent
  { t with currentByPath := t.currentByPath.insert path content }

def applyDelete (path : AbsolutePathBuf) (content : String) : TurnDiffTracker :=
  let t := t.noteBaseline path (some content)
  { t with
    currentByPath := t.currentByPath.erase path
    originByCurrentPath := t.originByCurrentPath.erase path }

/-- The origin of a moved file is that of its source, or the source itself. A file that is
back at its origin has none. -/
def moveOrigin (origins : Paths) (sourcePath destPath : AbsolutePathBuf) : Paths :=
  let origin := (origins.lookup sourcePath).getD sourcePath
  let origins := (origins.erase sourcePath).erase destPath
  if destPath ≠ origin then origins.insert destPath origin else origins

def applyUpdate (sourcePath : AbsolutePathBuf) (movePath : Option AbsolutePathBuf)
    (oldContent : String) (overwrittenMoveContent : Option String) (newContent : String) :
    TurnDiffTracker :=
  let t := t.noteBaseline sourcePath (some oldContent)
  match movePath with
  | some destPath =>
    let t := t.noteBaseline destPath overwrittenMoveContent
    { t with
      currentByPath := (t.currentByPath.erase sourcePath).insert destPath newContent
      originByCurrentPath := moveOrigin t.originByCurrentPath sourcePath destPath }
  | none => { t with currentByPath := t.currentByPath.insert sourcePath newContent }

def applyChange (c : AppliedPatchChange) : TurnDiffTracker :=
  match c.change with
  | .add content overwrittenContent => t.applyAdd c.path content overwrittenContent
  | .delete content => t.applyDelete c.path content
  | .update movePath oldContent overwrittenMoveContent newContent =>
    t.applyUpdate c.path movePath oldContent overwrittenMoveContent newContent

def trackDelta (delta : AppliedPatchDelta) : TurnDiffTracker :=
  if !delta.exact then t.invalidate else delta.changes.foldl applyChange t

/-- The names of a path below the display root, if it is below it. -/
def stripRoot (root : PathBuf) (path : AbsolutePathBuf) : Option (List String) :=
  if root.isAbsolute && root.components.isPrefixOf (path.names.map .normal) then
    some (path.names.drop root.components.length)
  else none

def displayPath (path : AbsolutePathBuf) : String :=
  let display := match t.displayRoot.bind (stripRoot · path) with
    | some names => "/".intercalate names
    | none => path.display
  String.ofList (display.toList.map fun c => if c = '\\' then '/' else c)

/-- The parts of the rendering that come from other crates: the blob id of a content and the
unified diff of two contents with context radius and headers. -/
structure Rendering where
  gitBlobOid : String → String
  unifiedDiff : ℕ → String → String → String → String → String

def zeroOid : String := "0000000000000000000000000000000000000000"
def devNull : String := "/dev/null"
def regularFileMode : String := "100644"

variable (r : Rendering)

def renderDiff (leftPath : AbsolutePathBuf) (leftContent : Option String)
    (rightPath : AbsolutePathBuf) (rightContent : Option String) : Option String :=
  if leftContent = rightContent then none
  else
    let leftDisplay := t.displayPath leftPath
    let rightDisplay := t.displayPath rightPath
    let leftOid := leftContent.elim zeroOid r.gitBlobOid
    let rightOid := rightContent.elim zeroOid r.gitBlobOid
    let mode := match leftContent, rightContent with
      | none, some _ => "new file mode " ++ regularFileMode ++ "\n"
      | some _, none => "deleted file mode " ++ regularFileMode ++ "\n"
      | _, _ => ""
    let oldHeader := if leftContent.isSome then "a/" ++ leftDisplay else devNull
    let newHeader := if rightContent.isSome then "b/" ++ rightDisplay else devNull
    some ("diff --git a/" ++ leftDisplay ++ " b/" ++ rightDisplay ++ "\n" ++ mode ++
      "index " ++ leftOid ++ ".." ++ rightOid ++ "\n" ++
      r.unifiedDiff 3 (leftContent.getD "") (rightContent.getD "") oldHeader newHeader)

/-- A section of the diff: a path on its own, or a moved file. -/
inductive Section where
  | path (path : AbsolutePathBuf)
  | rename (sourcePath destPath : AbsolutePathBuf)
  deriving DecidableEq, Repr

def Section.paths : Section → List AbsolutePathBuf
  | path p => [p]
  | rename sourcePath destPath => [sourcePath, destPath]

def renderSection : Section → Option String
  | .path p => t.renderDiff r p (t.baselineByPath.lookup p) p (t.currentByPath.lookup p)
  | .rename sourcePath destPath =>
    t.renderDiff r sourcePath (t.baselineByPath.lookup sourcePath) destPath
      (t.currentByPath.lookup destPath)

/-- The order in which the maps of a tracker are iterated. -/
structure Iteration where
  baselineKeys : List AbsolutePathBuf
  currentKeys : List AbsolutePathBuf
  origins : List (Σ _ : AbsolutePathBuf, AbsolutePathBuf)
  baselineKeys_perm : baselineKeys.Perm t.baselineByPath.keys
  currentKeys_perm : currentKeys.Perm t.currentByPath.keys
  origins_perm : origins.Perm t.originByCurrentPath.entries

/-- The pair of an origin entry, if the file is gone from its origin and new at its path. -/
def renamePair (entry : Σ _ : AbsolutePathBuf, AbsolutePathBuf) :
    Option (AbsolutePathBuf × AbsolutePathBuf) :=
  let destPath := entry.1
  let originPath := entry.2
  if destPath = originPath ∨ (t.currentByPath.lookup originPath).isSome ∨
      (t.currentByPath.lookup destPath).isNone ∨ (t.baselineByPath.lookup originPath).isNone ∨
      (t.baselineByPath.lookup destPath).isSome then none
  else some (originPath, destPath)

variable (it : t.Iteration)

/-- Moved files by origin: of several files from one origin, the one iterated last. -/
def renamePairs : Paths :=
  (it.origins.filterMap t.renamePair).foldl (fun pairs pair => pairs.insert pair.1 pair.2) ∅

/-- The loop over the paths: the sections that are rendered, with their texts. -/
def renderPaths (t : TurnDiffTracker) (r : Rendering) (pairs : Paths)
    (pairedDestinations : List AbsolutePathBuf) :
    List AbsolutePathBuf → List AbsolutePathBuf → List (Section × String)
  | [], _ => []
  | path :: paths, handled =>
    if path ∈ handled then renderPaths t r pairs pairedDestinations paths handled
    else
      let handled := path :: handled
      if path ∈ pairedDestinations then renderPaths t r pairs pairedDestinations paths handled
      else
        let (part, handled) := match pairs.lookup path with
          | some dest => (Section.rename path dest, dest :: handled)
          | none => (Section.path path, handled)
        let rest := renderPaths t r pairs pairedDestinations paths handled
        match t.renderSection r part with
        | some diff => (part, diff) :: rest
        | none => rest

/-- The paths of both maps, stably sorted by what is displayed, without repetitions in a row. -/
def sortedPaths : List AbsolutePathBuf :=
  ((it.baselineKeys ++ it.currentKeys).insertionSort
    (fun p q => t.displayPath p ≤ t.displayPath q)).destutter (· ≠ ·)

def renderedSections : List (Section × String) :=
  let pairs := t.renamePairs it
  t.renderPaths r pairs (pairs.entries.map (·.2)) (t.sortedPaths it) []

/-- Sections are concatenated, each one ended by a newline. -/
def aggregate (diffs : List String) : String :=
  diffs.foldl (fun aggregated diff =>
    let aggregated := aggregated ++ diff
    if aggregated.toList.getLast? = some '\n' then aggregated else aggregated ++ "\n") ""

def getUnifiedDiff : Option String :=
  if !t.valid then none
  else
    let aggregated := aggregate ((t.renderedSections r it).map (·.2))
    if aggregated = "" then none else some aggregated

end TurnDiffTracker
end DeepseekX.TurnDiffs
