import DeepseekX.AbsolutePaths
import DeepseekX.LongestPrefix

/-!
# File system sandbox policies

The entries of a policy grant or deny access at paths, some of them symbolic. Resolved
against the working directory they decide every path by its longest prefix. Writes below
the metadata directories of a writable root need an entry of their own.
-/

namespace DeepseekX.SandboxPolicies
open AbsolutePaths LongestPrefix

/-- What stands at a path. No path is a symbolic link; a file has contents if it can be
read as text. -/
inductive FileNode where
  | directory
  | file (contents : Option String)
  | other
  deriving DecidableEq, Repr

structure Environment where
  home : Option PathBuf
  currentDir : Option AbsolutePathBuf
  tmpdir : Option PathBuf
  files : AbsolutePathBuf → Option FileNode

variable (env : Environment)
variable (path : AbsolutePathBuf)

namespace Environment

def isDir : Bool :=
  env.files path == some .directory

def isFile : Bool :=
  match env.files path with
  | some (.file _) => true
  | _ => false

def pathExists : Bool := (env.files path).isSome

def readToString : Option String :=
  match env.files path with
  | some (.file contents) => contents
  | _ => none

end Environment

def asPath : PathBuf := ⟨true, path.intoComponents⟩

def startsWith (path base : AbsolutePathBuf) : Bool := decide (base.names <+: path.names)

def stripBase (path base : AbsolutePathBuf) : Option (List String) :=
  if base.names <+: path.names then some (path.names.drop base.names.length) else none

/-- A relative path is taken from the directory of the process. -/
def fromAbsolutePath (path : PathBuf) : Option AbsolutePathBuf :=
  let expanded := maybeExpandHomeDirectory env.home path
  if expanded.isAbsolute then some ⟨normalizePath expanded.components⟩
  else env.currentDir.map (AbsolutePathBuf.absolutizeFrom expanded)

def joinName (name : String) : AbsolutePathBuf :=
  AbsolutePathBuf.join env.home path (.relative [name])

def resolveCandidatePath (path cwd : PathBuf) : Option AbsolutePathBuf :=
  if path.isAbsolute then fromAbsolutePath env path
  else (fromAbsolutePath env cwd).map fun cwd => AbsolutePathBuf.join env.home cwd path

inductive FileSystemAccessMode where
  | read
  | write
  | none
  deriving DecidableEq, Repr

namespace FileSystemAccessMode

def canRead (access : FileSystemAccessMode) : Bool := access != .none

def canWrite (access : FileSystemAccessMode) : Bool := access == .write

/-- The place in the derived order: `none` beats `write`, and `write` beats `read`. -/
def precedence : FileSystemAccessMode → ℕ
  | .read => 0
  | .write => 1
  | .none => 2

theorem precedence_injective : Function.Injective precedence := by
  intro a b h
  cases a <;> cases b <;> first | rfl | cases h

instance : LinearOrder FileSystemAccessMode := LinearOrder.lift' precedence precedence_injective

end FileSystemAccessMode

inductive FileSystemSpecialPath where
  | root
  | minimal
  | projectRoots (subpath : Option PathBuf)
  | tmpdir
  | slashTmp
  | unknown (path : String) (subpath : Option PathBuf)
  deriving DecidableEq, Repr

inductive FileSystemPath where
  | path (path : AbsolutePathBuf)
  | globPattern (pattern : String)
  | special (value : FileSystemSpecialPath)
  deriving DecidableEq, Repr

structure FileSystemSandboxEntry where
  path : FileSystemPath
  access : FileSystemAccessMode
  deriving DecidableEq, Repr

inductive FileSystemSandboxKind where
  | restricted
  | unrestricted
  | externalSandbox
  deriving DecidableEq, Repr

structure FileSystemSandboxPolicy where
  kind : FileSystemSandboxKind
  entries : List FileSystemSandboxEntry
  deriving DecidableEq, Repr

structure ResolvedFileSystemEntry where
  path : AbsolutePathBuf
  access : FileSystemAccessMode
  deriving DecidableEq, Repr

namespace ResolvedFileSystemEntry

def names (entry : ResolvedFileSystemEntry) : List String := entry.path.names

end ResolvedFileSystemEntry

/-- The components of an absolute path are the root and the names. -/
def resolvedEntryPrecedence (entry : ResolvedFileSystemEntry) : ℕ ×ₗ FileSystemAccessMode :=
  toLex (entry.path.names.length + 1, entry.access)

/-- The access of the most specific entry. -/
def accessAt (entries : List ResolvedFileSystemEntry) (target : AbsolutePathBuf) :
    FileSystemAccessMode :=
  match maxByKey resolvedEntryPrecedence (entries.filter (startsWith target ·.path)) with
  | none => .none
  | some entry => entry.access

def absoluteRootPathForCwd (_cwd : AbsolutePathBuf) : AbsolutePathBuf := ⟨[]⟩

def slashTmpPath : AbsolutePathBuf := ⟨["tmp"]⟩

def resolveFileSystemSpecialPath (value : FileSystemSpecialPath)
    (cwd : Option AbsolutePathBuf) : Option AbsolutePathBuf :=
  match value with
  | .root | .minimal | .unknown _ _ => none
  | .projectRoots subpath =>
    cwd.map fun cwd =>
      match subpath with
      | some subpath => AbsolutePathBuf.resolvePathAgainstBase env.home subpath cwd
      | none => cwd
  | .tmpdir =>
    env.tmpdir.bind fun tmpdir =>
      if tmpdir = ⟨false, []⟩ then none else fromAbsolutePath env tmpdir
  | .slashTmp => if env.isDir slashTmpPath then some slashTmpPath else none

def resolveFileSystemPath (path : FileSystemPath)
    (cwd : Option AbsolutePathBuf) : Option AbsolutePathBuf :=
  match path with
  | .path path => some path
  | .globPattern _ => none
  | .special value => resolveFileSystemSpecialPath env value cwd

def resolveEntryPath (path : FileSystemPath) (cwd : Option AbsolutePathBuf) :
    Option AbsolutePathBuf :=
  match path with
  | .special .root => cwd.map absoluteRootPathForCwd
  | path => resolveFileSystemPath env path cwd

def specialPathsShareTarget : FileSystemSpecialPath → FileSystemSpecialPath → Bool
  | .root, .root | .minimal, .minimal | .tmpdir, .tmpdir | .slashTmp, .slashTmp => true
  | .projectRoots left, .projectRoots right => left == right
  | .unknown left leftSubpath, .unknown right rightSubpath =>
    left == right && leftSubpath == rightSubpath
  | _, _ => false

def specialPathMatchesAbsolutePath (value : FileSystemSpecialPath) (path : AbsolutePathBuf) :
    Bool :=
  match value with
  | .root => path.parent.isNone
  | .slashTmp => path == slashTmpPath
  | _ => false

def fileSystemPathsShareTarget : FileSystemPath → FileSystemPath → Bool
  | .path left, .path right => left == right
  | .special left, .special right => specialPathsShareTarget left right
  | .path path, .special value | .special value, .path path =>
    specialPathMatchesAbsolutePath value path
  | .globPattern left, .globPattern right => left == right
  | .globPattern _, _ | _, .globPattern _ => false

namespace FileSystemSandboxPolicy

def unrestricted : FileSystemSandboxPolicy := ⟨.unrestricted, []⟩

def externalSandbox : FileSystemSandboxPolicy := ⟨.externalSandbox, []⟩

def restricted (entries : List FileSystemSandboxEntry) : FileSystemSandboxPolicy :=
  ⟨.restricted, entries⟩

variable (policy : FileSystemSandboxPolicy)

def hasRootAccess (predicate : FileSystemAccessMode → Bool) : Bool :=
  policy.kind == .restricted &&
    policy.entries.any fun entry => entry.path == .special .root && predicate entry.access

def hasDeniedReadRestrictions : Bool :=
  policy.kind == .restricted && policy.entries.any fun entry => entry.access == .none

def hasSameTargetWriteOverride (entry : FileSystemSandboxEntry) : Bool :=
  policy.entries.any fun candidate =>
    candidate.access.canWrite && decide (entry.access < candidate.access) &&
      fileSystemPathsShareTarget candidate.path entry.path

/-- The entry takes something away from a grant at the root. -/
def narrowsWrites (entry : FileSystemSandboxEntry) : Bool :=
  if entry.access.canWrite then false
  else
    match entry.path with
    | .path _ => !policy.hasSameTargetWriteOverride entry
    | .globPattern _ => true
    | .special .root => entry.access == .none
    | .special .minimal | .special (.unknown _ _) => false
    | .special _ => !policy.hasSameTargetWriteOverride entry

def hasWriteNarrowingEntries : Bool :=
  policy.kind == .restricted && policy.entries.any policy.narrowsWrites

def hasFullDiskReadAccess : Bool :=
  match policy.kind with
  | .unrestricted | .externalSandbox => true
  | .restricted =>
    policy.hasRootAccess FileSystemAccessMode.canRead && !policy.hasDeniedReadRestrictions

def hasFullDiskWriteAccess : Bool :=
  match policy.kind with
  | .unrestricted | .externalSandbox => true
  | .restricted =>
    policy.hasRootAccess FileSystemAccessMode.canWrite && !policy.hasWriteNarrowingEntries

def resolvedEntriesWithCwd (env : Environment) (policy : FileSystemSandboxPolicy)
    (cwd : PathBuf) : List ResolvedFileSystemEntry :=
  policy.entries.filterMap fun entry =>
    (resolveEntryPath env entry.path (fromAbsolutePath env cwd)).map fun path =>
      ⟨path, entry.access⟩

def resolveAccessWithCwd (env : Environment) (policy : FileSystemSandboxPolicy)
    (path cwd : PathBuf) : FileSystemAccessMode :=
  match policy.kind with
  | .unrestricted | .externalSandbox => .write
  | .restricted =>
    match resolveCandidatePath env path cwd with
    | none => .none
    | some path => accessAt (policy.resolvedEntriesWithCwd env cwd) path

def canReadPathWithCwd (env : Environment) (policy : FileSystemSandboxPolicy)
    (path cwd : PathBuf) : Bool :=
  (policy.resolveAccessWithCwd env path cwd).canRead

end FileSystemSandboxPolicy

def protectedMetadataPathNames : List String := [".git", ".agents", ".codex", ".deepseekx"]

def metadataPathName (name : String) : Option String :=
  protectedMetadataPathNames.find? (name == ·)

/-- The metadata path below an entry that the target runs through, with its name. -/
def metadataChild (target : AbsolutePathBuf)
    (entry : ResolvedFileSystemEntry) : Option (AbsolutePathBuf × String) :=
  (stripBase target entry.path).bind fun relativePath =>
    relativePath.head?.bind fun firstComponent =>
      (metadataPathName firstComponent).map fun name => (joinName env entry.path name, name)

def metadataChildOfWritableRoot (env : Environment) (policy : FileSystemSandboxPolicy)
    (target : AbsolutePathBuf) (cwd : PathBuf) : Option (AbsolutePathBuf × String) :=
  (((policy.resolvedEntriesWithCwd env cwd).filter (·.access.canWrite)).filterMap
    (metadataChild env target)).head?

def hasExplicitWriteEntryForMetadataPath (env : Environment) (policy : FileSystemSandboxPolicy)
    (protectedMetadataPath target : AbsolutePathBuf) (cwd : PathBuf) : Bool :=
  (policy.resolvedEntriesWithCwd env cwd).any fun entry =>
    entry.access.canWrite && startsWith target entry.path &&
      startsWith entry.path protectedMetadataPath

namespace FileSystemSandboxPolicy

def isMetadataWriteDenied (env : Environment) (policy : FileSystemSandboxPolicy)
    (path cwd : PathBuf) : Bool :=
  if policy.kind ≠ .restricted then false
  else
    match resolveCandidatePath env path cwd with
    | none => true
    | some target =>
      match metadataChildOfWritableRoot env policy target cwd with
      | none => false
      | some (protectedMetadataPath, _) =>
        !hasExplicitWriteEntryForMetadataPath env policy protectedMetadataPath target cwd

def canWritePathWithCwd (env : Environment) (policy : FileSystemSandboxPolicy)
    (path cwd : PathBuf) : Bool :=
  if !(policy.resolveAccessWithCwd env path cwd).canWrite then false
  else if policy.hasFullDiskWriteAccess then true
  else !policy.isMetadataWriteDenied env path cwd

end FileSystemSandboxPolicy

/-- The name of the metadata directory into which an agent must not write. -/
def forbiddenAgentMetadataWrite (env : Environment) (path cwd : PathBuf)
    (policy : FileSystemSandboxPolicy) : Option String :=
  if policy.kind ≠ .restricted then none
  else
    (resolveCandidatePath env path cwd).bind fun target =>
      (metadataChildOfWritableRoot env policy target cwd).bind
        fun (protectedMetadataPath, metadataName) =>
          if hasExplicitWriteEntryForMetadataPath env policy protectedMetadataPath target cwd then
            none
          else if !policy.canWritePathWithCwd env (asPath target) cwd then some metadataName
          else none

end DeepseekX.SandboxPolicies
