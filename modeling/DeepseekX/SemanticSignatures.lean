import DeepseekX.WritableRoots
import Mathlib.Data.List.Sort
import Mathlib.Data.List.Dedup
import Mathlib.Data.String.Basic

/-!
# Semantic signatures of sandbox policies

Two policies are taken to be equivalent if their signatures are equal: what they grant for
the whole disk, and their readable, writable and unreadable roots in sorted order. With
signatures it is decided whether a policy can be handed to the runtime as one of the
legacy sandbox policies.
-/

namespace DeepseekX.SandboxPolicies
open AbsolutePaths

structure FileSystemSemanticSignature where
  hasFullDiskReadAccess : Bool
  hasFullDiskWriteAccess : Bool
  includePlatformDefaults : Bool
  readableRoots : List AbsolutePathBuf
  writableRoots : List WritableRoot
  unreadableRoots : List AbsolutePathBuf
  unreadableGlobs : List String
  deriving DecidableEq, Repr

def sortedAbsolutePaths (paths : List AbsolutePathBuf) : List AbsolutePathBuf :=
  paths.insertionSort fun left right => left.names ≤ right.names

def sortedStrings (names : List String) : List String :=
  (names.insertionSort (· ≤ ·)).dedup

def sortedWritableRoots (roots : List WritableRoot) : List WritableRoot :=
  (roots.map fun root =>
    ⟨root.root, sortedAbsolutePaths root.readOnlySubpaths,
      sortedStrings root.protectedMetadataNames⟩).insertionSort
    fun left right => left.root.names ≤ right.root.names

variable (env : Environment)

/-- A pattern joined to the working directory, without dots. -/
def resolveGlob (pattern : String) (cwd : PathBuf) : String :=
  let expanded := maybeExpandHomeDirectory env.home (parsePath pattern)
  let joined := if expanded.isAbsolute then expanded else cwd.append expanded.components
  let names := normalizePath joined.components
  if joined.isAbsolute then "/" ++ "/".intercalate names
  else if names = [] then "." else "/".intercalate names

namespace FileSystemSandboxPolicy

variable (policy : FileSystemSandboxPolicy)

def includePlatformDefaults : Bool :=
  !policy.hasFullDiskReadAccess && policy.kind == .restricted &&
    policy.entries.any fun entry => entry.path == .special .minimal && entry.access.canRead

variable (cwd : PathBuf)

def getReadableRootsWithCwd : List AbsolutePathBuf :=
  if policy.hasFullDiskReadAccess then []
  else
    dedupAbsolutePaths env
      ((((policy.resolvedEntriesWithCwd env cwd).filter (·.access.canRead)).filter fun entry =>
        policy.canReadPathWithCwd env (asPath entry.path) cwd).map (·.path)) true

/-- The filesystem root is left out: whatever has no entry is unreadable anyway. -/
def getUnreadableRootsWithCwd : List AbsolutePathBuf :=
  if policy.kind ≠ .restricted then []
  else
    let root := (fromAbsolutePath env cwd).map absoluteRootPathForCwd
    dedupAbsolutePaths env
      (((((policy.resolvedEntriesWithCwd env cwd).filter (·.access == .none)).filter fun entry =>
        !policy.canReadPathWithCwd env (asPath entry.path) cwd).filter fun entry =>
          root != some entry.path).map (·.path)) true

def getUnreadableGlobsWithCwd : List String :=
  if policy.kind ≠ .restricted then []
  else
    sortedStrings ((policy.entries.filter (·.access == .none)).filterMap fun entry =>
      match entry.path with
      | .globPattern pattern => some (resolveGlob env pattern cwd)
      | .path _ | .special _ => none)

def semanticSignature : FileSystemSemanticSignature where
  hasFullDiskReadAccess := policy.hasFullDiskReadAccess
  hasFullDiskWriteAccess := policy.hasFullDiskWriteAccess
  includePlatformDefaults := policy.includePlatformDefaults
  readableRoots := sortedAbsolutePaths (policy.getReadableRootsWithCwd env cwd)
  writableRoots := sortedWritableRoots (policy.getWritableRootsWithCwd env cwd)
  unreadableRoots := sortedAbsolutePaths (policy.getUnreadableRootsWithCwd env cwd)
  unreadableGlobs := policy.getUnreadableGlobsWithCwd env cwd

def isSemanticallyEquivalentTo (policy other : FileSystemSandboxPolicy) (cwd : PathBuf) : Bool :=
  policy.semanticSignature env cwd == other.semanticSignature env cwd

end FileSystemSandboxPolicy

inductive NetworkSandboxPolicy where
  | restricted
  | enabled
  deriving DecidableEq, Repr

inductive NetworkAccess where
  | restricted
  | enabled
  deriving DecidableEq, Repr

inductive SandboxPolicy where
  | dangerFullAccess
  | readOnly (networkAccess : Bool)
  | externalSandbox (networkAccess : NetworkAccess)
  | workspaceWrite (writableRoots : List AbsolutePathBuf) (networkAccess : Bool)
      (excludeTmpdirEnvVar excludeSlashTmp : Bool)
  deriving DecidableEq, Repr

def NetworkSandboxPolicy.isEnabled (policy : NetworkSandboxPolicy) : Bool := policy == .enabled

def SandboxPolicy.getWritableRootsWithCwd (policy : SandboxPolicy)
    (cwd : PathBuf) : List WritableRoot :=
  match policy with
  | .dangerFullAccess | .externalSandbox _ | .readOnly _ => []
  | .workspaceWrite writableRoots _ excludeTmpdirEnvVar excludeSlashTmp =>
    let cwdRoot := fromAbsolutePath env cwd
    let roots := writableRoots ++ cwdRoot.toList ++
      (if !excludeSlashTmp && env.isDir slashTmpPath then [slashTmpPath] else []) ++
      (if excludeTmpdirEnvVar then []
        else (resolveFileSystemSpecialPath env .tmpdir cwdRoot).toList)
    roots.map fun root =>
      ⟨root, defaultReadOnlySubpathsForWritableRoot env root (cwdRoot == some root), []⟩

/-- The writes that the entries of a policy ask for. -/
structure LegacyWrites where
  workspaceRootWritable : Bool := false
  writableRoots : List AbsolutePathBuf := []
  tmpdirWritable : Bool := false
  slashTmpWritable : Bool := false
  unbridgeableRootWrite : Bool := false

def LegacyWrites.add (cwd : Option AbsolutePathBuf) (writes : LegacyWrites)
    (entry : FileSystemSandboxEntry) : LegacyWrites :=
  match entry.path with
  | .globPattern _ => writes
  | .path path =>
    if entry.access.canWrite then
      if cwd == some path then { writes with workspaceRootWritable := true }
      else { writes with writableRoots := writes.writableRoots ++ [path] }
    else writes
  | .special .root =>
    if entry.access == .write then { writes with unbridgeableRootWrite := true } else writes
  | .special .minimal | .special (.unknown _ _) => writes
  | .special (.projectRoots subpath) =>
    if subpath.isNone && entry.access.canWrite then { writes with workspaceRootWritable := true }
    else
      match resolveFileSystemSpecialPath env (.projectRoots subpath) cwd with
      | some path =>
        if entry.access.canWrite then
          { writes with writableRoots := writes.writableRoots ++ [path] }
        else writes
      | none => writes
  | .special .tmpdir =>
    if entry.access.canWrite then { writes with tmpdirWritable := true } else writes
  | .special .slashTmp =>
    if entry.access.canWrite then { writes with slashTmpWritable := true } else writes

def unbridgeableWrites : String :=
  "permissions profile requests filesystem writes outside the workspace root, which is not " ++
    "supported until the runtime enforces FileSystemSandboxPolicy directly"

def externalOrFullAccess (networkPolicy : NetworkSandboxPolicy) : SandboxPolicy :=
  if networkPolicy.isEnabled then .dangerFullAccess else .externalSandbox .restricted

namespace FileSystemSandboxPolicy

def toLegacySandboxPolicy (policy : FileSystemSandboxPolicy)
    (networkPolicy : NetworkSandboxPolicy) (cwd : PathBuf) : Except String SandboxPolicy :=
  match policy.kind with
  | .externalSandbox =>
    .ok (.externalSandbox (if networkPolicy.isEnabled then .enabled else .restricted))
  | .unrestricted => .ok (externalOrFullAccess networkPolicy)
  | .restricted =>
    let writes := policy.entries.foldl (LegacyWrites.add env (fromAbsolutePath env cwd)) {}
    if policy.hasFullDiskWriteAccess then .ok (externalOrFullAccess networkPolicy)
    else if writes.workspaceRootWritable then
      .ok (.workspaceWrite (dedupAbsolutePaths env writes.writableRoots false)
        networkPolicy.isEnabled (!writes.tmpdirWritable) (!writes.slashTmpWritable))
    else if writes.unbridgeableRootWrite || !writes.writableRoots.isEmpty ||
        writes.tmpdirWritable || writes.slashTmpWritable then
      .error unbridgeableWrites
    else .ok (.readOnly networkPolicy.isEnabled)

end FileSystemSandboxPolicy

def appendDefaultReadOnlyPathIfNoExplicitRule (entries : List FileSystemSandboxEntry)
    (path : AbsolutePathBuf) : List FileSystemSandboxEntry :=
  if entries.any fun entry => fileSystemPathsShareTarget entry.path (.path path) then entries
  else entries ++ [⟨.path path, .read⟩]

def legacyRuntimeFileSystemPolicyForCwd (sandboxPolicy : SandboxPolicy)
    (cwd : PathBuf) : FileSystemSandboxPolicy :=
  match sandboxPolicy with
  | .dangerFullAccess => .unrestricted
  | .externalSandbox _ => .externalSandbox
  | .readOnly _ => .restricted [⟨.special .root, .read⟩]
  | .workspaceWrite writableRoots _ excludeTmpdirEnvVar excludeSlashTmp =>
    let granted : List FileSystemSandboxEntry :=
      [⟨.special .root, .read⟩, ⟨.special (.projectRoots none), .write⟩] ++
      (if excludeSlashTmp then [] else [⟨.special .slashTmp, .write⟩]) ++
      (if excludeTmpdirEnvVar then [] else [⟨.special .tmpdir, .write⟩]) ++
      writableRoots.map fun path => ⟨.path path, .write⟩
    let protections :=
      (fromAbsolutePath env cwd).toList.flatMap
          (defaultReadOnlySubpathsForWritableRoot env · true) ++
        writableRoots.flatMap (defaultReadOnlySubpathsForWritableRoot env · false)
    .restricted (protections.foldl appendDefaultReadOnlyPathIfNoExplicitRule granted)

def protectedMetadataNamesNeedDirectRuntimeEnforcement
    (policy : FileSystemSandboxPolicy) (legacyPolicy : SandboxPolicy) (cwd : PathBuf) : Bool :=
  let legacyRoots := legacyPolicy.getWritableRootsWithCwd env cwd
  (policy.getWritableRootsWithCwd env cwd).any fun writableRoot =>
    match legacyRoots.find? (·.root == writableRoot.root) with
    | none => !writableRoot.protectedMetadataNames.isEmpty
    | some legacyRoot =>
      writableRoot.protectedMetadataNames.any fun metadataName =>
        !legacyRoot.readOnlySubpaths.any (· == joinName env writableRoot.root metadataName)

def FileSystemSandboxPolicy.needsDirectRuntimeEnforcement
    (policy : FileSystemSandboxPolicy) (networkPolicy : NetworkSandboxPolicy) (cwd : PathBuf) :
    Bool :=
  if policy.kind ≠ .restricted then false
  else
    match policy.toLegacySandboxPolicy env networkPolicy cwd with
    | .error _ => true
    | .ok legacyPolicy =>
      protectedMetadataNamesNeedDirectRuntimeEnforcement env policy legacyPolicy cwd ||
        policy.semanticSignature env cwd !=
          (legacyRuntimeFileSystemPolicyForCwd env legacyPolicy cwd).semanticSignature env cwd

end DeepseekX.SandboxPolicies
