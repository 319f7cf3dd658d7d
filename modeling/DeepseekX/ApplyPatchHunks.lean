import DeepseekX.ExecutorFileSystems
import DeepseekX.PatchReplacements

/-!
# Applying the hunks of a patch

`apply_hunks_to_files` carries the hunks out one after another against the current
file system. It accumulates the committed changes in a delta, whose `exact` flag is
cleared as soon as the delta might not describe the disk, and stops at the first
hunk that fails. Every function below passes the file system state along, so that a
failure leaves behind what was done before it.
-/

namespace DeepseekX.ApplyPatchHunks
open AbsolutePaths ExecutorFileSystems PatchReplacements

inductive Hunk where
  | addFile (path : PathBuf) (contents : String)
  | deleteFile (path : PathBuf)
  | updateFile (path : PathBuf) (movePath : Option PathBuf) (chunks : List UpdateFileChunk)
  deriving DecidableEq, Repr

namespace Hunk

def path : Hunk → PathBuf
  | addFile path _ | deleteFile path => path
  | updateFile _ (some path) _ | updateFile path none _ => path

def sourcePath : Hunk → PathBuf
  | addFile path _ | deleteFile path | updateFile path _ _ => path

def resolvePath (home : Option PathBuf) (hunk : Hunk) (cwd : AbsolutePathBuf) : AbsolutePathBuf :=
  AbsolutePathBuf.resolvePathAgainstBase home hunk.sourcePath cwd

end Hunk

inductive ApplyPatchError where
  | ioError (context : String) (source : IoError)
  | computeReplacements (message : String)
  deriving DecidableEq, Repr

inductive AnyhowError where
  | message (text : String)
  | io (source : IoError)
  | applyPatch (source : ApplyPatchError)
  | context (text : String) (source : AnyhowError)
  deriving DecidableEq, Repr

inductive AppliedPatchFileChange where
  | add (content : String) (overwrittenContent : Option String)
  | delete (content : String)
  | update (movePath : Option AbsolutePathBuf) (oldContent : String)
      (overwrittenMoveContent : Option String) (newContent : String)
  deriving DecidableEq, Repr

structure AppliedPatchChange where
  path : AbsolutePathBuf
  change : AppliedPatchFileChange
  deriving DecidableEq, Repr

structure AppliedPatchDelta where
  changes : List AppliedPatchChange
  exact : Bool
  deriving DecidableEq, Repr

namespace AppliedPatchDelta

def empty : AppliedPatchDelta := ⟨[], true⟩

def push (delta : AppliedPatchDelta) (change : AppliedPatchChange) : AppliedPatchDelta :=
  { delta with changes := delta.changes ++ [change] }

end AppliedPatchDelta

structure AffectedPaths where
  added : List PathBuf
  modified : List PathBuf
  deleted : List PathBuf
  deriving DecidableEq, Repr

variable {σ : Type} (fs : ExecutorFileSystem σ) (path : AbsolutePathBuf)

def ensureNotDirectory (s : σ) : Except IoError Unit × σ :=
  match fs.getMetadata path s with
  | (.error e, s) => (.error e, s)
  | (.ok metadata, s) =>
    (if metadata.isDirectory then .error ⟨.invalidInput, "path is a directory"⟩ else .ok (), s)

/-- The file still has the expected content after a failed removal. -/
def removeFailureWasSideEffectFree (expectedContent : Option String) (s : σ) : Bool × σ :=
  match expectedContent with
  | none => (false, s)
  | some expected =>
    match fs.readFileText path s with
    | (.ok content, s) => (content == expected, s)
    | (.error _, s) => (false, s)

/-- Only regular files and absent paths keep the delta exact. -/
def noteExistingPathDeltaSupport (exact : Bool) (s : σ) : Bool × σ :=
  match fs.getMetadata path s with
  | (.ok metadata, s) => (if metadata.isFile && !metadata.isSymlink then exact else false, s)
  | (.error e, s) => (if e.kind = .notFound then exact else false, s)

def readOptionalFileTextForDelta (exact : Bool) (s : σ) : Option String × Bool × σ :=
  let (exact, s) := noteExistingPathDeltaSupport fs path exact s
  match fs.readFileText path s with
  | (.ok content, s) => (some content, exact, s)
  | (.error e, s) => (none, if e.kind = .notFound then exact else false, s)

def writeFailed : String := "Failed to write file " ++ path.display

/-- Creates the directory a file stands in; the root stands in none. -/
def createParentDirectories (s : σ) : Except IoError Unit × σ :=
  match path.parent with
  | none => (.ok (), s)
  | some parent => fs.createDirectory parent ⟨true⟩ s

/-- A missing parent directory is created and the write tried once more. -/
def writeFileWithMissingParentRetry (contents : String) (s : σ) : Except AnyhowError Unit × σ :=
  match fs.writeFile path contents s with
  | (.ok (), s) => (.ok (), s)
  | (.error e, s) =>
    if e.kind = .notFound then
      match createParentDirectories fs path s with
      | (.error e, s) =>
        (.error (.context ("Failed to create parent directories for " ++ path.display) (.io e)), s)
      | (.ok (), s) =>
        match fs.writeFile path contents s with
        | (.ok (), s) => (.ok (), s)
        | (.error e, s) => (.error (.context (writeFailed path) (.io e)), s)
    else (.error (.context (writeFailed path) (.io e)), s)

structure AppliedPatch where
  originalContents : String
  newContents : String
  deriving DecidableEq, Repr

def deriveNewContentsFromChunks (chunks : List UpdateFileChunk) (s : σ) :
    Except ApplyPatchError AppliedPatch × σ :=
  match fs.readFileText path s with
  | (.error e, s) => (.error (.ioError ("Failed to read file to update " ++ path.display) e), s)
  | (.ok original, s) =>
    match newContentsFromChunks original path chunks with
    | .error message => (.error (.computeReplacements message), s)
    | .ok newContents => (.ok ⟨original, newContents⟩, s)

structure ApplyState (σ : Type) where
  disk : σ
  delta : AppliedPatchDelta
  affected : AffectedPaths

def ApplyState.setExact (st : ApplyState σ) (exact : Bool) (s : σ) : ApplyState σ :=
  { st with disk := s, delta := { st.delta with exact := exact } }

variable (affectedPath : PathBuf) (pathAbs : AbsolutePathBuf)

def applyAddFile (contents : String) (st : ApplyState σ) : Except AnyhowError Unit × ApplyState σ :=
  let (overwrittenContent, exact, s) :=
    readOptionalFileTextForDelta fs pathAbs st.delta.exact st.disk
  match writeFileWithMissingParentRetry fs pathAbs contents s with
  | (.error e, s) => (.error e, st.setExact false s)
  | (.ok (), s) =>
    (.ok (), {
      disk := s
      delta := { st.delta with exact := exact }.push ⟨pathAbs, .add contents overwrittenContent⟩
      affected := { st.affected with added := st.affected.added ++ [affectedPath] } })

def deleteFailed : String := "Failed to delete file " ++ path.display

def applyDeleteFile (st : ApplyState σ) : Except AnyhowError Unit × ApplyState σ :=
  let (exact, s) := noteExistingPathDeltaSupport fs pathAbs st.delta.exact st.disk
  let (read, s) := fs.readFileText pathAbs s
  let deletedContent := read.toOption
  let exact := if deletedContent.isNone then false else exact
  match ensureNotDirectory fs pathAbs s with
  | (.error e, s) => (.error (.context (deleteFailed pathAbs) (.io e)), st.setExact exact s)
  | (.ok (), s) =>
    match fs.remove pathAbs ⟨false, false⟩ s with
    | (.error e, s) =>
      let (clean, s) := removeFailureWasSideEffectFree fs pathAbs deletedContent s
      (.error (.context (deleteFailed pathAbs) (.io e)), st.setExact (exact && clean) s)
    | (.ok (), s) =>
      let delta := { st.delta with exact := exact }
      (.ok (), {
        disk := s
        delta := match deletedContent with
          | some content => delta.push ⟨pathAbs, .delete content⟩
          | none => delta
        affected := { st.affected with deleted := st.affected.deleted ++ [affectedPath] } })

def removeOriginalFailed : String :=
  "Failed to remove original " ++ path.display

/-- The move branch of an `UpdateFile` hunk: the destination is written and recorded as an
addition, and the record becomes a move once the source is gone. -/
def applyMove (pathAbs destAbs : AbsolutePathBuf) (patch : AppliedPatch) (st : ApplyState σ) :
    Except AnyhowError Unit × ApplyState σ :=
  let (overwrittenMoveContent, exact, s) :=
    readOptionalFileTextForDelta fs destAbs st.delta.exact st.disk
  match writeFileWithMissingParentRetry fs destAbs patch.newContents s with
  | (.error e, s) => (.error e, st.setExact false s)
  | (.ok (), s) =>
    let written : ApplyState σ := { st with
      disk := s
      delta := { st.delta with exact := exact }.push
        ⟨destAbs, .add patch.newContents overwrittenMoveContent⟩ }
    match ensureNotDirectory fs pathAbs s with
    | (.error e, s) =>
      (.error (.context (removeOriginalFailed pathAbs) (.io e)), { written with disk := s })
    | (.ok (), s) =>
      match fs.remove pathAbs ⟨false, false⟩ s with
      | (.error e, s) =>
        let (clean, s) :=
          removeFailureWasSideEffectFree fs pathAbs (some patch.originalContents) s
        (.error (.context (removeOriginalFailed pathAbs) (.io e)),
          written.setExact (exact && clean) s)
      | (.ok (), s) =>
        (.ok (), {
          disk := s
          delta := { written.delta with
            changes := written.delta.changes.set st.delta.changes.length
              ⟨pathAbs, .update (some destAbs) patch.originalContents overwrittenMoveContent
                patch.newContents⟩ }
          affected := { st.affected with modified := st.affected.modified ++ [affectedPath] } })

def applyInPlace (patch : AppliedPatch) (st : ApplyState σ) :
    Except AnyhowError Unit × ApplyState σ :=
  match fs.writeFile pathAbs patch.newContents st.disk with
  | (.error e, s) => (.error (.context (writeFailed pathAbs) (.io e)), st.setExact false s)
  | (.ok (), s) =>
    (.ok (), {
      disk := s
      delta := st.delta.push ⟨pathAbs, .update none patch.originalContents none patch.newContents⟩
      affected := { st.affected with modified := st.affected.modified ++ [affectedPath] } })

def applyUpdateFile (destAbs : Option AbsolutePathBuf) (chunks : List UpdateFileChunk)
    (st : ApplyState σ) : Except AnyhowError Unit × ApplyState σ :=
  let (exact, s) := noteExistingPathDeltaSupport fs pathAbs st.delta.exact st.disk
  match deriveNewContentsFromChunks fs pathAbs chunks s with
  | (.error e, s) => (.error (.applyPatch e), st.setExact exact s)
  | (.ok patch, s) =>
    match destAbs with
    | some destAbs => applyMove fs affectedPath pathAbs destAbs patch (st.setExact exact s)
    | none => applyInPlace fs affectedPath pathAbs patch (st.setExact exact s)

def applyHunk (home : Option PathBuf) (cwd : AbsolutePathBuf) (hunk : Hunk) (st : ApplyState σ) :
    Except AnyhowError Unit × ApplyState σ :=
  let pathAbs := hunk.resolvePath home cwd
  match hunk with
  | .addFile _ contents => applyAddFile fs hunk.path pathAbs contents st
  | .deleteFile _ => applyDeleteFile fs hunk.path pathAbs st
  | .updateFile _ movePath chunks =>
    applyUpdateFile fs hunk.path pathAbs
      (movePath.map (AbsolutePathBuf.resolvePathAgainstBase home · cwd)) chunks st

def applyHunkLoop (fs : ExecutorFileSystem σ) (home : Option PathBuf) (cwd : AbsolutePathBuf) :
    List Hunk → ApplyState σ → Except AnyhowError Unit × ApplyState σ
  | [], st => (.ok (), st)
  | hunk :: hunks, st =>
    match applyHunk fs home cwd hunk st with
    | (.error e, st) => (.error e, st)
    | (.ok (), st) => applyHunkLoop fs home cwd hunks st

def ApplyState.start (s : σ) (delta : AppliedPatchDelta) : ApplyState σ := ⟨s, delta, ⟨[], [], []⟩⟩

/-- The result of a patch, the delta it committed and the file system it left. -/
def applyHunksToFiles (home : Option PathBuf) (hunks : List Hunk) (cwd : AbsolutePathBuf)
    (delta : AppliedPatchDelta) (s : σ) :
    Except AnyhowError AffectedPaths × AppliedPatchDelta × σ :=
  if hunks = [] then (.error (.message "No files were modified."), delta, s)
  else
    let (result, st) := applyHunkLoop fs home cwd hunks (.start s delta)
    (result.map (fun _ => st.affected), st.delta, st.disk)

end DeepseekX.ApplyPatchHunks
