import DeepseekX.SandboxPolicies

/-!
# Materialised project roots

A policy that is to survive a change of the working directory has its symbolic project
roots replaced by the paths they stand for. The resolved entries stay the same. What
changes is which entries are seen to have the same target, and with it whether the policy
counts as one that writes everywhere.
-/

namespace DeepseekX.SandboxPolicies
open AbsolutePaths

variable (env : Environment)

namespace FileSystemSandboxPolicy

def materializeEntry (cwd : Option AbsolutePathBuf)
    (entry : FileSystemSandboxEntry) : FileSystemSandboxEntry :=
  match entry.path with
  | .special (.projectRoots _) =>
    match resolveFileSystemPath env entry.path cwd with
    | some path => { entry with path := .path path }
    | none => entry
  | _ => entry

def materializeProjectRootsWithCwd (policy : FileSystemSandboxPolicy)
    (cwd : PathBuf) : FileSystemSandboxPolicy :=
  { policy with entries := policy.entries.map (materializeEntry env (fromAbsolutePath env cwd)) }

end FileSystemSandboxPolicy

open FileSystemSandboxPolicy

/-- The place that is compared with the places of other paths: without a working directory
that of a project root is not known. -/
def FileSystemPath.place (cwd : Option AbsolutePathBuf) : FileSystemPath → Option AbsolutePathBuf
  | .path p => some p
  | .special .root => some ⟨[]⟩
  | .special .slashTmp => some slashTmpPath
  | .special (.projectRoots subpath) =>
    resolveFileSystemSpecialPath env (.projectRoots subpath) cwd
  | _ => none

/-- A write entry is at the place of a read entry. -/
def OverriddenAt (policy : FileSystemSandboxPolicy) (cwd : PathBuf)
    (entry : FileSystemSandboxEntry) : Prop :=
  entry.access = .read ∧ ∃ candidate ∈ policy.entries, candidate.access = .write ∧
    ∃ place, candidate.path.place env (fromAbsolutePath env cwd) = some place ∧
      entry.path.place env (fromAbsolutePath env cwd) = some place

/-- Two policies give the same answers at a working directory. -/
def SameDecisions (policy other : FileSystemSandboxPolicy) (cwd : PathBuf) : Prop :=
  policy.hasFullDiskWriteAccess = other.hasFullDiskWriteAccess ∧
    ∀ path, policy.resolveAccessWithCwd env path cwd = other.resolveAccessWithCwd env path cwd ∧
      policy.canReadPathWithCwd env path cwd = other.canReadPathWithCwd env path cwd ∧
      policy.canWritePathWithCwd env path cwd = other.canWritePathWithCwd env path cwd

section Entries
variable (env : Environment) (cwd : Option AbsolutePathBuf) (entry : FileSystemSandboxEntry)

theorem materializeEntry_spec :
    (materializeEntry env cwd entry).access = entry.access ∧
      resolveEntryPath env (materializeEntry env cwd entry).path cwd =
        resolveEntryPath env entry.path cwd ∧
      ((materializeEntry env cwd entry).path == .special .root) = (entry.path == .special .root) ∧
      (materializeEntry env cwd entry).path.place env none = entry.path.place env cwd ∧
      (entry.path.place env cwd = none → materializeEntry env cwd entry = entry) := by
  obtain ⟨path | pattern | value, access⟩ := entry
  · exact ⟨rfl, rfl, rfl, rfl, fun _ => rfl⟩
  · exact ⟨rfl, rfl, rfl, rfl, fun _ => rfl⟩
  · cases value with
    | projectRoots subpath =>
      cases cwd with
      | none => exact ⟨rfl, rfl, rfl, rfl, fun _ => rfl⟩
      | some cwd => exact ⟨rfl, rfl, rfl, rfl, fun h => nomatch h⟩
    | _ => exact ⟨rfl, rfl, rfl, rfl, fun _ => rfl⟩

theorem place_of_place_none {path : FileSystemPath} {place : AbsolutePathBuf}
    (h : path.place env none = some place) : path.place env cwd = some place := by
  obtain _ | _ | (_ | _ | _ | _ | _ | _) := path <;> first | exact h | cases h

/-- Targets are shared by equal symbols and by paths at one place. -/
theorem shareTarget_iff (left right : FileSystemPath) :
    fileSystemPathsShareTarget left right = true ↔
      left = right ∨ ∃ place, left.place env none = some place ∧
        right.place env none = some place := by
  have hroot : ∀ place : AbsolutePathBuf, place.parent.isNone = true ↔ place = ⟨[]⟩ := by
    rintro ⟨names⟩
    cases names <;> simp [AbsolutePathBuf.parent]
  have hne : slashTmpPath ≠ ⟨[]⟩ := by decide
  obtain _ | _ | (_ | _ | _ | _ | _ | _) := left <;>
    obtain _ | _ | (_ | _ | _ | _ | _ | _) := right <;>
    simp +contextual [fileSystemPathsShareTarget, specialPathsShareTarget,
      specialPathMatchesAbsolutePath, FileSystemPath.place, resolveFileSystemSpecialPath, hroot,
      hne, @eq_comm _ slashTmpPath, @eq_comm _ (AbsolutePathBuf.mk [])]

/-- Materialised entries share their target also at the place of a project root. -/
theorem shareTarget_materializeEntry_iff (candidate : FileSystemSandboxEntry) :
    fileSystemPathsShareTarget (materializeEntry env cwd candidate).path
        (materializeEntry env cwd entry).path = true ↔
      fileSystemPathsShareTarget candidate.path entry.path = true ∨
        ∃ place, candidate.path.place env cwd = some place ∧
          entry.path.place env cwd = some place := by
  obtain ⟨-, -, -, hplace, hsame⟩ := materializeEntry_spec env cwd candidate
  obtain ⟨-, -, -, hplace', hsame'⟩ := materializeEntry_spec env cwd entry
  rw [shareTarget_iff env, shareTarget_iff env, hplace, hplace']
  constructor
  · rintro (h | h)
    · rw [h] at hplace
      cases hc : candidate.path.place env cwd with
      | none =>
        rw [hsame hc, hsame' (hplace'.symm.trans (hplace.trans hc))] at h
        exact .inl (.inl h)
      | some place => exact .inr ⟨place, hc ▸ rfl, hplace'.symm.trans (hplace.trans hc)⟩
    · exact .inr h
  · rintro ((h | ⟨place, hl, hr⟩) | h)
    · cases hc : candidate.path.place env cwd with
      | none =>
        rw [hsame hc, hsame' (by rw [← h, hc])]
        exact .inl h
      | some place => exact .inr ⟨place, rfl, by rw [← h, hc]⟩
    · exact .inr ⟨place, place_of_place_none env cwd hl, place_of_place_none env cwd hr⟩
    · exact .inr h

end Entries

section Policies
variable (env : Environment) (policy : FileSystemSandboxPolicy) (cwd : PathBuf)

theorem resolvedEntries_materialize :
    (policy.materializeProjectRootsWithCwd env cwd).resolvedEntriesWithCwd env cwd =
      policy.resolvedEntriesWithCwd env cwd := by
  unfold resolvedEntriesWithCwd materializeProjectRootsWithCwd
  rw [List.filterMap_map]
  congr 1
  funext entry
  obtain ⟨haccess, hresolve, -⟩ := materializeEntry_spec env (fromAbsolutePath env cwd) entry
  simp [haccess, hresolve]

theorem resolveAccess_materialize (path : PathBuf) :
    (policy.materializeProjectRootsWithCwd env cwd).resolveAccessWithCwd env path cwd =
      policy.resolveAccessWithCwd env path cwd := by
  unfold resolveAccessWithCwd
  rw [resolvedEntries_materialize]
  rfl

theorem isMetadataWriteDenied_materialize (path : PathBuf) :
    (policy.materializeProjectRootsWithCwd env cwd).isMetadataWriteDenied env path cwd =
      policy.isMetadataWriteDenied env path cwd := by
  unfold isMetadataWriteDenied metadataChildOfWritableRoot hasExplicitWriteEntryForMetadataPath
  rw [resolvedEntries_materialize]
  rfl

theorem hasRootAccess_materialize (predicate : FileSystemAccessMode → Bool) :
    (policy.materializeProjectRootsWithCwd env cwd).hasRootAccess predicate =
      policy.hasRootAccess predicate := by
  unfold hasRootAccess materializeProjectRootsWithCwd
  rw [List.any_map]
  congr 2
  funext entry
  obtain ⟨haccess, -, hroot, -⟩ := materializeEntry_spec env (fromAbsolutePath env cwd) entry
  rw [Function.comp_apply, haccess, hroot]

variable (entry : FileSystemSandboxEntry)

theorem hasSameTargetWriteOverride_iff :
    policy.hasSameTargetWriteOverride entry = true ↔
      entry.access = .read ∧ ∃ candidate ∈ policy.entries, candidate.access = .write ∧
        fileSystemPathsShareTarget candidate.path entry.path = true := by
  have hlt : entry.access < .write ↔ entry.access = .read := by
    cases entry.access <;> decide
  simp only [hasSameTargetWriteOverride, List.any_eq_true, Bool.and_eq_true,
    FileSystemAccessMode.canWrite, beq_iff_eq, decide_eq_true_eq]
  constructor
  · rintro ⟨candidate, hmem, ⟨hwrite, hless⟩, hshare⟩
    rw [hwrite, hlt] at hless
    exact ⟨hless, candidate, hmem, hwrite, hshare⟩
  · rintro ⟨hread, candidate, hmem, hwrite, hshare⟩
    exact ⟨candidate, hmem, ⟨hwrite, hwrite ▸ hlt.mpr hread⟩, hshare⟩

/-- Materialised, an entry is overridden also at the place of a project root. -/
theorem hasSameTargetWriteOverride_materialize :
    (policy.materializeProjectRootsWithCwd env cwd).hasSameTargetWriteOverride
        (materializeEntry env (fromAbsolutePath env cwd) entry) = true ↔
      policy.hasSameTargetWriteOverride entry = true ∨ OverriddenAt env policy cwd entry := by
  have haccess : ∀ entry, (materializeEntry env (fromAbsolutePath env cwd) entry).access =
      entry.access := fun entry => (materializeEntry_spec _ _ entry).1
  simp only [hasSameTargetWriteOverride_iff, OverriddenAt, materializeProjectRootsWithCwd,
    List.mem_map, exists_exists_and_eq_and, haccess, shareTarget_materializeEntry_iff,
    and_or_left, exists_or]

/-- Whether an entry narrows writes, told whether it is overridden. -/
def narrowsUnless (entry : FileSystemSandboxEntry) (overridden : Bool) : Bool :=
  match entry.path with
  | .globPattern _ => !entry.access.canWrite
  | .special .root => entry.access == .none
  | .special .minimal | .special (.unknown _ _) => false
  | _ => !entry.access.canWrite && !overridden

theorem narrowsWrites_eq :
    policy.narrowsWrites entry = narrowsUnless entry (policy.hasSameTargetWriteOverride entry) := by
  obtain ⟨_ | _ | (_ | _ | _ | _ | _ | _), _ | _ | _⟩ := entry <;> rfl

theorem narrowsUnless_materializeEntry (cwd : Option AbsolutePathBuf) (overridden : Bool) :
    narrowsUnless (materializeEntry env cwd entry) overridden = narrowsUnless entry overridden := by
  obtain ⟨_ | _ | (_ | _ | _ | _ | _ | _), access⟩ := entry <;> first | rfl | (cases cwd <;> rfl)

theorem narrowsWrites_materialize :
    (policy.materializeProjectRootsWithCwd env cwd).narrowsWrites
        (materializeEntry env (fromAbsolutePath env cwd) entry) = true ↔
      policy.narrowsWrites entry = true ∧ ¬ OverriddenAt env policy cwd entry := by
  have hoverride := hasSameTargetWriteOverride_materialize env policy cwd entry
  rw [narrowsWrites_eq, narrowsWrites_eq, narrowsUnless_materializeEntry]
  by_cases h : OverriddenAt env policy cwd entry
  · rw [hoverride.mpr (.inr h)]
    obtain ⟨hread, -, -, -, place, -, hplace⟩ := id h
    refine iff_of_false ?_ fun hn => hn.2 h
    obtain ⟨_ | _ | (_ | _ | _ | _ | _ | _), access⟩ := entry <;> cases hread <;>
      first | exact Bool.false_ne_true | exact nomatch hplace
  · rw [or_iff_left h] at hoverride
    rw [Bool.eq_iff_iff.mpr hoverride, and_iff_left h]

theorem hasWriteNarrowingEntries_materialize :
    (policy.materializeProjectRootsWithCwd env cwd).hasWriteNarrowingEntries = true ↔
      policy.kind = .restricted ∧ ∃ entry ∈ policy.entries, policy.narrowsWrites entry = true ∧
        ¬ OverriddenAt env policy cwd entry := by
  rw [hasWriteNarrowingEntries, Bool.and_eq_true, beq_iff_eq]
  refine and_congr_right' ?_
  simp only [← narrowsWrites_materialize, List.any_eq_true, materializeProjectRootsWithCwd,
    List.mem_map, exists_exists_and_eq_and]

/-- Materialising the project roots changes no decision exactly when, in a policy that grants
writes at the root and has entries that narrow them, one of these entries is not overridden
by a write entry at its place. -/
theorem materialized_policy_decides_alike_iff :
    SameDecisions env (policy.materializeProjectRootsWithCwd env cwd) policy cwd ↔
      (policy.hasRootAccess FileSystemAccessMode.canWrite = true →
        policy.hasWriteNarrowingEntries = true →
        ∃ entry ∈ policy.entries, policy.narrowsWrites entry = true ∧
          ¬ OverriddenAt env policy cwd entry) := by
  have hnarrows := hasWriteNarrowingEntries_materialize env policy cwd
  have hmode : (policy.materializeProjectRootsWithCwd env cwd).kind = policy.kind := rfl
  constructor
  · rintro ⟨h, -⟩ hroot hnarrow
    have hkind := beq_iff_eq.mp (Bool.and_eq_true_iff.mp hnarrow).1
    rw [hasFullDiskWriteAccess, hasFullDiskWriteAccess, hasRootAccess_materialize, hmode] at h
    simp only [hkind, hroot, hnarrow, Bool.true_and, Bool.not_true, Bool.not_eq_false'] at h
    exact (hnarrows.mp h).2
  · intro h
    have hsame : (policy.materializeProjectRootsWithCwd env cwd).hasFullDiskWriteAccess =
        policy.hasFullDiskWriteAccess := by
      rw [hasFullDiskWriteAccess, hasFullDiskWriteAccess, hasRootAccess_materialize, hmode]
      cases hkind : policy.kind with
      | restricted =>
        cases hroot : policy.hasRootAccess FileSystemAccessMode.canWrite with
        | false => rfl
        | true =>
          have hiff : (policy.materializeProjectRootsWithCwd env cwd).hasWriteNarrowingEntries =
              policy.hasWriteNarrowingEntries := by
            refine Bool.eq_iff_iff.mpr ⟨fun hn => ?_, fun hn => hnarrows.mpr ⟨hkind, h hroot hn⟩⟩
            obtain ⟨-, entry, hmem, hentry, -⟩ := hnarrows.mp hn
            rw [hasWriteNarrowingEntries, hkind]
            exact List.any_eq_true.mpr ⟨entry, hmem, hentry⟩
          rw [hiff]
      | _ => rfl
    refine ⟨hsame, fun path => ?_⟩
    have haccess := resolveAccess_materialize env policy cwd path
    refine ⟨haccess, ?_, ?_⟩
    · rw [canReadPathWithCwd, canReadPathWithCwd, haccess]
    · rw [canWritePathWithCwd, canWritePathWithCwd, haccess, hsame,
        isMetadataWriteDenied_materialize]

end Policies

/-- The workspace is readable by its symbol and writable by its path. -/
def rootedPolicy : FileSystemSandboxPolicy :=
  .restricted [⟨.special .root, .write⟩, ⟨.special (.projectRoots none), .read⟩,
    ⟨.path ⟨["w"]⟩, .write⟩]

theorem materialized_policy_writes_metadata :
    let env : Environment := ⟨none, none, none, fun _ => none⟩
    let cwd : PathBuf := ⟨true, [.normal "w"]⟩
    let hook : PathBuf := ⟨true, [.normal "w", .normal ".git", .normal "hook"]⟩
    rootedPolicy.hasFullDiskWriteAccess = false ∧
      (rootedPolicy.materializeProjectRootsWithCwd env cwd).hasFullDiskWriteAccess = true ∧
      rootedPolicy.canWritePathWithCwd env hook cwd = false ∧
      (rootedPolicy.materializeProjectRootsWithCwd env cwd).canWritePathWithCwd env hook cwd =
        true := by
  decide

end DeepseekX.SandboxPolicies
