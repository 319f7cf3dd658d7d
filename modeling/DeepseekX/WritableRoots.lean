import DeepseekX.SandboxPolicies
import DeepseekX.SeekSequence

/-!
# Writable roots

For an operating system sandbox, a policy is turned into a list of roots: the paths at
which writes are granted, each with the paths below it that stay read-only and with the
metadata names that are protected directly below it. The read-only paths come from
narrower entries and from defaults that look at the file system.
-/

namespace DeepseekX.SandboxPolicies
open AbsolutePaths

structure WritableRoot where
  root : AbsolutePathBuf
  readOnlySubpaths : List AbsolutePathBuf
  protectedMetadataNames : List String
  deriving DecidableEq, Repr

namespace WritableRoot

def pathContainsProtectedMetadataName (root : WritableRoot) (path : AbsolutePathBuf) : Bool :=
  match stripBase path root.root with
  | none => false
  | some relativePath =>
    match relativePath.head? with
    | none => false
    | some firstComponent => root.protectedMetadataNames.any (firstComponent == ·)

def isPathWritable (root : WritableRoot) (path : AbsolutePathBuf) : Bool :=
  if !startsWith path root.root then false
  else if root.readOnlySubpaths.any (startsWith path ·) then false
  else if root.pathContainsProtectedMetadataName path then false
  else true

end WritableRoot

def parsePath (text : String) : PathBuf :=
  ⟨text.toList.head? == some '/', (text.toList.splitOn '/').filterMap fun name =>
    if name = [] then none
    else if name = ['.'] then some .curDir
    else if name = ['.', '.'] then some .parentDir
    else some (.normal (String.ofList name))⟩

/-- `str::split_once` at a character. -/
def splitOnce (separator : Char) (text : String) : Option (String × String) :=
  match text.toList.span (· != separator) with
  | (_, []) => none
  | (before, _ :: after) => some (String.ofList before, String.ofList after)

variable (env : Environment)

def isGitPointerFile (path : AbsolutePathBuf) : Bool :=
  env.isFile path && path.names.getLast? == some ".git"

def resolveGitdirFromFile (dotGit : AbsolutePathBuf) : Option AbsolutePathBuf :=
  (env.readToString dotGit).bind fun contents =>
    match splitOnce ':' (SeekSequence.trim contents) with
    | none => none
    | some (label, gitdirRaw) =>
      if SeekSequence.trim label ≠ "gitdir" then none
      else if SeekSequence.trim gitdirRaw = "" then none
      else
        dotGit.parent.bind fun base =>
          let gitdirPath := AbsolutePathBuf.resolvePathAgainstBase env.home
            (parsePath (SeekSequence.trim gitdirRaw)) base
          if env.pathExists gitdirPath then some gitdirPath else none

/-- The canonical form of the nearest ancestor that exists, with the rest of the path. An
ancestor is its own canonical form, as there are no symbolic links. -/
def normalizeEffectiveAbsolutePath (path : AbsolutePathBuf) : AbsolutePathBuf :=
  (path.names.inits.reverse.findSome? fun ancestor =>
    if env.pathExists ⟨ancestor⟩ then
      some ⟨ancestor ++ path.names.drop ancestor.length⟩
    else none).getD path

def dedupAbsolutePaths (paths : List AbsolutePathBuf)
    (normalizeEffectivePaths : Bool) : List AbsolutePathBuf :=
  paths.foldl (fun deduped path =>
    let path := if normalizeEffectivePaths then normalizeEffectiveAbsolutePath env path else path
    if path ∈ deduped then deduped else deduped ++ [path]) []

def defaultReadOnlySubpathsForWritableRoot (writableRoot : AbsolutePathBuf)
    (protectMissingDotCodex : Bool) : List AbsolutePathBuf :=
  let topLevelGit := joinName env writableRoot ".git"
  let topLevelAgents := joinName env writableRoot ".agents"
  let topLevelCodex := joinName env writableRoot ".codex"
  let topLevelDeepseekx := joinName env writableRoot ".deepseekx"
  let gitdir :=
    if env.isFile topLevelGit && isGitPointerFile env topLevelGit then
      resolveGitdirFromFile env topLevelGit
    else none
  let subpaths :=
    (if env.isDir topLevelGit || env.isFile topLevelGit then gitdir.toList ++ [topLevelGit]
      else []) ++
    (if env.isDir topLevelAgents then [topLevelAgents] else []) ++
    (if protectMissingDotCodex || env.isDir topLevelCodex then [topLevelCodex] else []) ++
    (if protectMissingDotCodex || env.isDir topLevelDeepseekx then [topLevelDeepseekx] else [])
  dedupAbsolutePaths env subpaths false

def hasExplicitResolvedPathEntry (entries : List ResolvedFileSystemEntry)
    (path : AbsolutePathBuf) : Bool :=
  entries.any (·.path == path)

variable (policy : FileSystemSandboxPolicy)

def protectedMetadataNamesForWritableRoot
    (root : AbsolutePathBuf) (rawWritableRoots : List AbsolutePathBuf) (cwd : PathBuf) :
    List String :=
  protectedMetadataPathNames.filter fun metadataName =>
    ((root :: rawWritableRoots).map (joinName env · metadataName)).all fun metadataPath =>
      !policy.canWritePathWithCwd env (asPath metadataPath) cwd

namespace FileSystemSandboxPolicy

/-- The path below a root that stands for a narrower entry. The filesystem root keeps only
effective paths. -/
def carveout (root : AbsolutePathBuf)
    (rawWritableRoots : List AbsolutePathBuf) (entry : ResolvedFileSystemEntry) :
    Option AbsolutePathBuf :=
  let effectivePath := normalizeEffectiveAbsolutePath env entry.path
  let rawCarveoutPath :=
    if root.parent.isSome then
      if entry.path = root then none
      else if startsWith entry.path root then some entry.path
      else rawWritableRoots.findSome? fun rawRoot =>
        (stripBase entry.path rawRoot).bind fun suffix =>
          if suffix = [] then none
          else some (AbsolutePathBuf.join env.home root (.relative suffix))
    else none
  match rawCarveoutPath with
  | some rawCarveoutPath => some rawCarveoutPath
  | none =>
    if effectivePath = root || !startsWith effectivePath root then none else some effectivePath

def writableEntries (cwd : PathBuf) : List AbsolutePathBuf :=
  (((policy.resolvedEntriesWithCwd env cwd).filter (·.access.canWrite)).filter fun entry =>
    policy.canWritePathWithCwd env (asPath entry.path) cwd).map (·.path)

def writableRootAt (cwd : PathBuf) (root : AbsolutePathBuf) : WritableRoot :=
  let resolvedEntries := policy.resolvedEntriesWithCwd env cwd
  let rawWritableRoots := (policy.writableEntries env cwd).filter fun path =>
    normalizeEffectiveAbsolutePath env path == root
  let protectMissingDotCodex := (fromAbsolutePath env cwd).any fun cwd =>
    normalizeEffectiveAbsolutePath env cwd == root
  let readOnlySubpaths :=
    (defaultReadOnlySubpathsForWritableRoot env root protectMissingDotCodex).filter
        (fun path => !hasExplicitResolvedPathEntry resolvedEntries path) ++
      (((resolvedEntries.filter fun entry => !entry.access.canWrite).filter fun entry =>
        !policy.canWritePathWithCwd env (asPath entry.path) cwd).filterMap
          (carveout env root rawWritableRoots))
  ⟨root, dedupAbsolutePaths env readOnlySubpaths false,
    protectedMetadataNamesForWritableRoot env policy root rawWritableRoots cwd⟩

def getWritableRootsWithCwd (cwd : PathBuf) : List WritableRoot :=
  if policy.hasFullDiskWriteAccess then []
  else
    (dedupAbsolutePaths env (policy.writableEntries env cwd) true).map
      (policy.writableRootAt env cwd)

end FileSystemSandboxPolicy

end DeepseekX.SandboxPolicies
