import DeepseekX.SemanticSignatures
import DeepseekX.WritableRootAgreement

/-!
# What equal signatures say about two policies

Policies with equal signatures grant the same reads. They grant the same writes with two
exceptions: the signature does not tell the directory a `.git` file points to from an
entry that makes it read-only, and a policy counts as writable everywhere when its entry
for `/tmp` is overridden by one that stands for nothing.
-/

namespace DeepseekX.SandboxPolicies
open AbsolutePaths LongestPrefix FileSystemSandboxPolicy List

variable {env : Environment} {policy other : FileSystemSandboxPolicy} {cwd path : PathBuf}
  {target root : AbsolutePathBuf} {entries entries' : List ResolvedFileSystemEntry}

section Transfer
variable {protections : AbsolutePathBuf → List AbsolutePathBuf}

/-- The directory that the `.git` file below a root points to. -/
def gitdirOf (env : Environment) (root : AbsolutePathBuf) : Option AbsolutePathBuf :=
  if env.isFile (joinName env root ".git") && isGitPointerFile env (joinName env root ".git") then
    resolveGitdirFromFile env (joinName env root ".git")
  else none

variable {path decided : AbsolutePathBuf}

theorem defaultProtections_cases (h : path ∈ defaultProtections env cwd root) :
    (∃ name ∈ protectedMetadataPathNames, path = ⟨root.names ++ [name]⟩) ∨
      gitdirOf env root = some path := by
  have hguarded : ∀ name ∈ protectedMetadataPathNames, ∀ present : Bool,
      path ∈ (if present then [joinName env root name] else []) →
        ∃ name ∈ protectedMetadataPathNames, path = ⟨root.names ++ [name]⟩ := by
    intro name hname present h
    split at h
    · rw [mem_singleton.mp h, joinName_eq env root (ne_home_of_protected hname)]
      exact ⟨name, hname, rfl⟩
    · cases h
  unfold defaultProtections defaultReadOnlySubpathsForWritableRoot at h
  rw [mem_dedupAbsolutePaths] at h
  simp only [mem_append] at h
  rcases h with ((h | h) | h) | h
  · split at h
    · rcases mem_append.mp h with h | h
      · exact .inr (Option.mem_toList.mp h)
      · exact .inl (hguarded ".git" (by decide) true h)
    · cases h
  · exact .inl (hguarded ".agents" (by decide) _ h)
  · exact .inl (hguarded ".codex" (by decide) _ h)
  · exact .inl (hguarded ".deepseekx" (by decide) _ h)

/-- The same roots, with the same read-only paths and protected names. -/
structure SameRoots (env : Environment) (protections : AbsolutePathBuf → List AbsolutePathBuf)
    (entries entries' : List ResolvedFileSystemEntry) : Prop where
  granted : ∀ root : AbsolutePathBuf,
    Winning entries root.names .write ↔ Winning entries' root.names .write
  readOnly : ∀ root : AbsolutePathBuf, Winning entries root.names .write → ∀ path,
    ReadOnlyBelow protections entries root path ↔ ReadOnlyBelow protections entries' root path
  names : ∀ root : AbsolutePathBuf, Winning entries root.names .write →
    ∀ name ∈ protectedMetadataPathNames,
      Writes env entries ⟨root.names ++ [name]⟩ ↔ Writes env entries' ⟨root.names ++ [name]⟩

theorem SameRoots.symm (h : SameRoots env protections entries entries') :
    SameRoots env protections entries' entries where
  granted root := (h.granted root).symm
  readOnly root hroot path := (h.readOnly root ((h.granted root).mpr hroot) path).symm
  names root hroot name hname := (h.names root ((h.granted root).mpr hroot) name hname).symm

/-- A root that writes are granted at, next above the directory its `.git` file points to,
which has an entry of its own only in the other policy. -/
structure ExposesGitdir (env : Environment) (entries entries' : List ResolvedFileSystemEntry)
    (root gitdir : AbsolutePathBuf) : Prop where
  pointer : gitdirOf env root = some gitdir
  granted : Winning entries root.names .write
  below : StrictlyBelow root gitdir
  decided : DecidedAt entries root.names gitdir
  unguarded : guardedName env entries gitdir = none
  covered : HasEntry entries' gitdir

theorem Winning.hasEntry {access : FileSystemAccessMode} (h : Winning entries path.names access) :
    HasEntry entries path :=
  ⟨_, mem_of_winning h, rfl⟩

theorem hasEntry_of_decided (h : DecidedAt entries decided.names target) :
    HasEntry entries decided := by
  obtain ⟨entry, hentry, hnames⟩ := h.1
  exact ⟨entry, hentry, eq_of_names hnames⟩

theorem exists_decided_of_write (h : accessAt entries target = .write) :
    ∃ decided : AbsolutePathBuf, DecidedAt entries decided.names target ∧
      Winning entries decided.names .write := by
  obtain ⟨names, hdecided, hwinning⟩ := accessAt_eq_write_iff.mp h
  exact ⟨⟨names⟩, hdecided, hwinning⟩

theorem exists_decided_of_above (hentry : HasEntry entries root)
    (habove : root.names <+: target.names) :
    ∃ decided : AbsolutePathBuf, DecidedAt entries decided.names target ∧
      Winning entries decided.names (accessAt entries target) ∧ root.names <+: decided.names := by
  obtain ⟨entry, hmem, rfl⟩ := hentry
  rcases accessAt_cases entries target with ⟨names, hdecided, hwinning⟩ | ⟨hnone, -⟩
  · exact ⟨⟨names⟩, hdecided, hwinning, hdecided.2.2 entry hmem habove⟩
  · exact absurd habove (hnone entry hmem)

section Decided
variable {decided decided' : AbsolutePathBuf} (hdecided : DecidedAt entries decided.names target)
  (hwinning : Winning entries decided.names .write)
  (hguarded : guardedName env entries target = none)
include hdecided hwinning hguarded

theorem writes_between (hbelow : StrictlyBelow decided path) (hpath : path.names <+: target.names) :
    Writes env entries path := by
  refine ⟨accessAt_eq (hdecided.between hbelow.1 hpath) hwinning, ?_⟩
  rcases eq_or_exists_concat_prefix hbelow.1 with heq | ⟨name, hname⟩
  · exact absurd (eq_of_names heq) hbelow.2
  · rw [guardedName_between hdecided hname hpath, hguarded]

/-- Decided at the same root, a path is guarded under both policies or under neither. -/
theorem guardedName_of_same_root (hsame : SameRoots env protections entries entries')
    (hdecided' : DecidedAt entries' decided.names target) :
    guardedName env entries' target = none := by
  by_contra hsome
  obtain ⟨name, hprotected, hupper, hchild⟩ :=
    exists_guarded_child hdecided' ((hsame.granted decided).mp hwinning) hsome
  have hbelow : StrictlyBelow decided ⟨decided.names ++ [name]⟩ :=
    ⟨prefix_append _ _, fun h => by simpa using congrArg AbsolutePathBuf.names h⟩
  have hwrites := writes_between hdecided hwinning hguarded hbelow hupper
  exact hchild ((hsame.names decided hwinning name hprotected).mp hwrites).2

/-- Decided further down under the other policy, the path lies in an exposed directory. -/
theorem exposesGitdir_of_deeper
    (hsame : SameRoots env (defaultProtections env cwd) entries entries')
    (hdecided' : DecidedAt entries' decided'.names target)
    (hbelow : StrictlyBelow decided decided') :
    ExposesGitdir env entries entries' decided decided' := by
  obtain ⟨entry, hentry, rfl⟩ := hasEntry_of_decided hdecided'
  have hno := not_hasEntry_of_below hdecided hbelow hdecided'.2.1
  have hlost : ¬ Winning entries' entry.path.names .write := fun h =>
    hno (Winning.hasEntry ((hsame.granted entry.path).mpr h))
  have hwrites := writes_between hdecided hwinning hguarded hbelow hdecided'.2.1
  rcases (hsame.readOnly decided hwinning entry.path).mpr
    (.inr ⟨hbelow, ⟨entry, hentry, rfl⟩, hlost⟩) with ⟨hprotected, -⟩ | ⟨-, hhas, -⟩
  · rcases defaultProtections_cases hprotected with ⟨name, hname, hpath⟩ | hpointer
    · rw [hpath] at hwrites
      have hwrites' := (hsame.names decided hwinning name hname).mp hwrites
      rw [← hpath, writes_iff_winning hentry] at hwrites'
      exact absurd hwrites' hlost
    · exact ⟨hpointer, hwinning, hbelow, hdecided.between hbelow.1 hdecided'.2.1, hwrites.2,
        ⟨entry, hentry, rfl⟩⟩
  · exact absurd hhas hno

end Decided

/-- What only one of two policies with the same roots lets be written lies below an exposed
directory. -/
theorem exposesGitdir_of_writes
    (hsame : SameRoots env (defaultProtections env cwd) entries entries')
    (hwrites : Writes env entries target) (hnot : ¬ Writes env entries' target) :
    ∃ root gitdir, ExposesGitdir env entries entries' root gitdir := by
  obtain ⟨haccess, hguarded⟩ := hwrites
  obtain ⟨decided, hdecided, hwinning⟩ := exists_decided_of_write haccess
  have hwinning' := (hsame.granted decided).mp hwinning
  obtain ⟨decided', hdecided', haccess', habove⟩ :=
    exists_decided_of_above (Winning.hasEntry hwinning') hdecided.2.1
  by_cases heq : decided = decided'
  · subst heq
    exact absurd ⟨accessAt_eq hdecided' hwinning',
      guardedName_of_same_root hdecided hwinning hguarded hsame hdecided'⟩ hnot
  · exact ⟨decided, decided',
      exposesGitdir_of_deeper hdecided hwinning hguarded hsame hdecided' ⟨habove, heq⟩⟩

/-- An exposed directory is written under one policy only. -/
theorem ExposesGitdir.differs {gitdir : AbsolutePathBuf}
    (h : ExposesGitdir env entries entries' root gitdir)
    (hsame : SameRoots env protections entries entries') :
    Writes env entries gitdir ∧ ¬ Writes env entries' gitdir := by
  refine ⟨⟨accessAt_eq h.decided h.granted, h.unguarded⟩, fun hwrites => ?_⟩
  obtain ⟨entry, hentry, rfl⟩ := h.covered
  have hwinning := (hsame.granted entry.path).mpr ((writes_iff_winning hentry).mp hwrites)
  exact not_hasEntry_of_below h.decided h.below (prefix_refl _) (Winning.hasEntry hwinning)

/-- One policy lets be written what the other does, unless a directory is exposed. -/
theorem SameRoots.writes_iff (hsame : SameRoots env (defaultProtections env cwd) entries entries') :
    (∀ target, Writes env entries target → Writes env entries' target) ↔
      ∀ root gitdir, ¬ ExposesGitdir env entries entries' root gitdir := by
  constructor
  · intro h root gitdir hexposes
    obtain ⟨hwrites, hnot⟩ := hexposes.differs hsame
    exact hnot (h gitdir hwrites)
  · intro h target hwrites
    by_contra hnot
    obtain ⟨root, gitdir, hexposes⟩ := exposesGitdir_of_writes hsame hwrites hnot
    exact h root gitdir hexposes

end Transfer

section Signatures
variable {directory : AbsolutePathBuf}

theorem restricted_of_not_fullDiskRead (h : policy.hasFullDiskReadAccess = false) :
    policy.kind = .restricted := by
  unfold hasFullDiskReadAccess at h
  split at h
  · cases h
  · cases h
  · assumption

theorem mem_sortedAbsolutePaths {paths : List AbsolutePathBuf} :
    target ∈ sortedAbsolutePaths paths ↔ target ∈ paths :=
  mem_insertionSort _

theorem mem_congr_of_sorted {paths others : List AbsolutePathBuf}
    (h : sortedAbsolutePaths paths = sortedAbsolutePaths others) (path : AbsolutePathBuf) :
    path ∈ paths ↔ path ∈ others := by
  rw [← mem_sortedAbsolutePaths, h, mem_sortedAbsolutePaths]

theorem mem_sortedStrings {names : List String} {name : String} :
    name ∈ sortedStrings names ↔ name ∈ names := by
  unfold sortedStrings
  rw [mem_dedup, mem_insertionSort]

variable {writable : WritableRoot}

theorem mem_sortedWritableRoots {roots : List WritableRoot} :
    writable ∈ sortedWritableRoots roots ↔ ∃ root ∈ roots,
      writable = ⟨root.root, sortedAbsolutePaths root.readOnlySubpaths,
        sortedStrings root.protectedMetadataNames⟩ := by
  unfold sortedWritableRoots
  rw [mem_insertionSort, mem_map]
  exact exists_congr fun root => and_congr_right fun _ => eq_comm

variable (hfull : policy.hasFullDiskWriteAccess = false)
include hfull

variable (hfull' : other.hasFullDiskWriteAccess = false)
  (hroots : sortedWritableRoots (policy.getWritableRootsWithCwd env cwd) =
    sortedWritableRoots (other.getWritableRootsWithCwd env cwd))
include hfull' hroots

/-- A root of one policy is a root of the other, with the same read-only paths and names. -/
theorem root_of_signature
    (hroot : Winning (policy.resolvedEntriesWithCwd env cwd) root.names .write) :
    Winning (other.resolvedEntriesWithCwd env cwd) root.names .write ∧
      (∀ path, path ∈ (policy.writableRootAt env cwd root).readOnlySubpaths ↔
        path ∈ (other.writableRootAt env cwd root).readOnlySubpaths) ∧
      ∀ name, name ∈ (policy.writableRootAt env cwd root).protectedMetadataNames ↔
        name ∈ (other.writableRootAt env cwd root).protectedMetadataNames := by
  have hmem := mem_sortedWritableRoots.mpr
    ⟨_, (mem_getWritableRoots hfull).mpr ⟨root, hroot, rfl⟩, rfl⟩
  rw [hroots, mem_sortedWritableRoots] at hmem
  obtain ⟨_, hother, heq⟩ := hmem
  obtain ⟨root', hroot', rfl⟩ := (mem_getWritableRoots hfull').mp hother
  obtain ⟨hsame, hreadOnly, hnames⟩ := WritableRoot.mk.inj heq
  have hrootEq : root = root' := hsame
  subst hrootEq
  refine ⟨hroot', fun path => ?_, fun name => ?_⟩
  · exact mem_congr_of_sorted hreadOnly path
  · rw [← mem_sortedStrings, hnames, mem_sortedStrings]

theorem sameRoots_of_signature :
    SameRoots env (defaultProtections env cwd) (policy.resolvedEntriesWithCwd env cwd)
      (other.resolvedEntriesWithCwd env cwd) where
  granted root :=
    ⟨fun h => (root_of_signature hfull hfull' hroots h).1,
      fun h => (root_of_signature hfull' hfull hroots.symm h).1⟩
  readOnly root hroot path := by
    have hsame := (root_of_signature hfull hfull' hroots hroot).2.1 path
    rwa [mem_readOnlySubpaths hfull, mem_readOnlySubpaths hfull'] at hsame
  names root hroot name hname := by
    have hsame := (root_of_signature hfull hfull' hroots hroot).2.2 name
    rw [mem_protectedMetadataNames hfull, mem_protectedMetadataNames hfull',
      and_congr_right_iff] at hsame
    exact not_iff_not.mp (hsame hname)

end Signatures

theorem canRead_asPath_iff (hkind : policy.kind = .restricted) :
    policy.canReadPathWithCwd env (asPath target) cwd = true ↔
      accessAt (policy.resolvedEntriesWithCwd env cwd) target ≠ .none := by
  unfold canReadPathWithCwd FileSystemAccessMode.canRead
  rw [resolveAccess_eq hkind (resolveCandidatePath_asPath env target cwd), bne_iff_ne]

theorem mem_readableRoots (hread : policy.hasFullDiskReadAccess = false) :
    target ∈ policy.getReadableRootsWithCwd env cwd ↔
      ∃ access ≠ FileSystemAccessMode.none,
        Winning (policy.resolvedEntriesWithCwd env cwd) target.names access := by
  have hkind := restricted_of_not_fullDiskRead hread
  unfold getReadableRootsWithCwd
  simp only [hread, Bool.false_eq_true, if_false, mem_dedupAbsolutePaths, mem_map,
    mem_filter, canRead_asPath_iff hkind]
  constructor
  · rintro ⟨entry, ⟨⟨hentry, -⟩, haccess⟩, rfl⟩
    exact ⟨_, haccess, winning_accessAt hentry⟩
  · rintro ⟨access, hne, hwinning⟩
    refine ⟨_, ⟨⟨mem_of_winning hwinning, bne_iff_ne.mpr hne⟩, ?_⟩, rfl⟩
    rwa [accessAt_of_winning hwinning]

/-- What is readable under one policy is so under another with the same roots. -/
theorem readable_transfer
    (hreadable : ∀ path : AbsolutePathBuf,
      (∃ access ≠ FileSystemAccessMode.none, Winning entries path.names access) ↔
        ∃ access ≠ FileSystemAccessMode.none, Winning entries' path.names access)
    (hunreadable : ∀ path : AbsolutePathBuf, Winning entries' path.names .none ∧ path ≠ ⟨[]⟩ →
      Winning entries path.names .none ∧ path ≠ ⟨[]⟩)
    (h : accessAt entries target ≠ .none) : accessAt entries' target ≠ .none := by
  intro hnone
  rcases accessAt_cases entries target with ⟨names, hdecided, hwinning⟩ | ⟨-, hno⟩
  · obtain ⟨decided, rfl⟩ : ∃ decided : AbsolutePathBuf, decided.names = names := ⟨⟨names⟩, rfl⟩
    obtain ⟨access, hne, hwinning'⟩ := (hreadable decided).mp ⟨_, h, hwinning⟩
    obtain ⟨decided', hdecided', haccess', habove⟩ :=
      exists_decided_of_above (Winning.hasEntry hwinning') hdecided.2.1
    rw [hnone] at haccess'
    by_cases heq : decided = decided'
    · subst heq
      exact hne (hwinning'.unique haccess')
    · have hbelow : StrictlyBelow decided decided' := ⟨habove, heq⟩
      have hroot : decided' ≠ ⟨[]⟩ := by
        rintro rfl
        exact heq (eq_of_names (prefix_nil.mp habove))
      exact not_hasEntry_of_below hdecided hbelow hdecided'.2.1
        (Winning.hasEntry (hunreadable decided' ⟨haccess', hroot⟩).1)
  · exact h hno

theorem resolveAccess_of_not_restricted (hkind : policy.kind ≠ .restricted) :
    policy.resolveAccessWithCwd env path cwd = .write := by
  unfold resolveAccessWithCwd
  cases hk : policy.kind with
  | restricted => exact absurd hk hkind
  | unrestricted | externalSandbox => rfl

section FullDisk
variable {current : AbsolutePathBuf} {names : List String} {access : FileSystemAccessMode}

variable {raw : FileSystemSandboxEntry} {path resolved : AbsolutePathBuf}

theorem override_spec (h : policy.hasSameTargetWriteOverride raw = true) :
    ∃ candidate ∈ policy.entries, candidate.access = .write ∧ raw.access = .read ∧
      fileSystemPathsShareTarget candidate.path raw.path = true := by
  unfold hasSameTargetWriteOverride at h
  simp only [any_eq_true, Bool.and_eq_true, decide_eq_true_iff] at h
  obtain ⟨candidate, hmem, ⟨hwrite, hlt⟩, hshare⟩ := h
  have hcandidate : candidate.access = .write := eq_of_beq hwrite
  rw [hcandidate] at hlt
  refine ⟨candidate, hmem, hcandidate, ?_, hshare⟩
  cases hraw : raw.access with
  | read => rfl
  | write =>
    rw [hraw] at hlt
    exact absurd hlt (lt_irrefl _)
  | none =>
    rw [hraw] at hlt
    exact absurd hlt (by decide)

theorem eq_of_specialPathsShareTarget {left right : FileSystemSpecialPath}
    (h : specialPathsShareTarget left right = true) : left = right := by
  cases left <;> cases right <;> simp_all [specialPathsShareTarget]

theorem eq_root_of_matches (h : specialPathMatchesAbsolutePath .root path = true) :
    path = ⟨[]⟩ := by
  have hparent : path.parent.isNone = true := h
  unfold AbsolutePathBuf.parent at hparent
  split at hparent
  · next hnil => exact eq_of_names hnil
  · cases hparent

/-- A special path that matches an absolute one is the root or `/tmp`. -/
theorem special_cases_of_matches {value : FileSystemSpecialPath}
    (h : specialPathMatchesAbsolutePath value path = true) :
    value = .root ∧ path = ⟨[]⟩ ∨ value = .slashTmp ∧ path = slashTmpPath := by
  cases value with
  | root => exact .inl ⟨rfl, eq_root_of_matches h⟩
  | slashTmp => exact .inr ⟨rfl, eq_of_beq h⟩
  | _ => cases h

/-- Entries with one target resolve to one path, except that `/tmp` may stand for nothing. -/
theorem resolve_of_share {path other : FileSystemPath}
    (hshare : fileSystemPathsShareTarget path other = true)
    (hresolved : resolveEntryPath env other (some current) = some resolved) :
    resolveEntryPath env path (some current) = some resolved ∨
      resolved = slashTmpPath ∧ env.isDir slashTmpPath = false := by
  cases path with
  | globPattern left => cases other <;> first | cases hshare | cases hresolved
  | path left =>
    cases other with
    | globPattern right => cases hresolved
    | path right =>
      have heq : left = right := eq_of_beq hshare
      rw [heq]
      exact .inl hresolved
    | special value =>
      rcases special_cases_of_matches hshare with ⟨rfl, rfl⟩ | ⟨rfl, rfl⟩
      · exact .inl hresolved
      · left
        unfold resolveEntryPath resolveFileSystemPath resolveFileSystemSpecialPath at hresolved
        dsimp only at hresolved
        split at hresolved <;> cases hresolved
        rfl
  | special value =>
    cases other with
    | globPattern right => cases hresolved
    | path right =>
      cases hresolved
      rcases special_cases_of_matches hshare with ⟨rfl, rfl⟩ | ⟨rfl, rfl⟩
      · exact .inl rfl
      · cases hdir : env.isDir slashTmpPath with
        | true => exact .inl (if_pos hdir)
        | false => exact .inr ⟨rfl, rfl⟩
    | special other =>
      rw [eq_of_specialPathsShareTarget hshare]
      exact .inl hresolved

/-- Reads win at `/tmp`, in a policy that may have write access to the whole disk. -/
def ShadowsTmp (env : Environment) (policy : FileSystemSandboxPolicy) (cwd : PathBuf) : Prop :=
  policy.kind = .restricted ∧
    Winning (policy.resolvedEntriesWithCwd env cwd) slashTmpPath.names .read

/-- The target is decided at a `/tmp` that cannot be written. -/
def DeniedAtTmp (env : Environment) (policy : FileSystemSandboxPolicy) (cwd : PathBuf)
    (target : AbsolutePathBuf) : Prop :=
  ShadowsTmp env policy cwd ∧
    DecidedAt (policy.resolvedEntriesWithCwd env cwd) slashTmpPath.names target

section Cwd
variable (hcwd : fromAbsolutePath env cwd = some current)
include hcwd

theorem mem_resolvedEntries_iff {entry : ResolvedFileSystemEntry} :
    entry ∈ policy.resolvedEntriesWithCwd env cwd ↔ ∃ raw ∈ policy.entries,
      resolveEntryPath env raw.path (some current) = some entry.path ∧
        raw.access = entry.access := by
  unfold resolvedEntriesWithCwd
  simp only [mem_filterMap, hcwd, Option.map_eq_some_iff]
  constructor
  · rintro ⟨raw, hraw, path, hpath, rfl⟩
    exact ⟨raw, hraw, hpath, rfl⟩
  · rintro ⟨raw, hraw, hpath, haccess⟩
    exact ⟨raw, hraw, entry.path, hpath, by rw [haccess]⟩

theorem mem_unreadableRoots (hkind : policy.kind = .restricted) :
    target ∈ policy.getUnreadableRootsWithCwd env cwd ↔
      Winning (policy.resolvedEntriesWithCwd env cwd) target.names .none ∧ target ≠ ⟨[]⟩ := by
  have hcan : ∀ entry : ResolvedFileSystemEntry,
      policy.canReadPathWithCwd env (asPath entry.path) cwd = false ↔
        accessAt (policy.resolvedEntriesWithCwd env cwd) entry.path = .none := by
    intro entry
    rw [← Bool.not_eq_true, canRead_asPath_iff hkind, not_not]
  unfold getUnreadableRootsWithCwd
  rw [if_neg (not_not.mpr hkind)]
  simp only [mem_dedupAbsolutePaths, mem_map, mem_filter, Bool.not_eq_true', hcan, hcwd,
    Option.map_some, bne_iff_ne, ne_eq, Option.some.injEq]
  constructor
  · rintro ⟨entry, ⟨⟨⟨hentry, -⟩, haccess⟩, hroot⟩, rfl⟩
    exact ⟨haccess ▸ winning_accessAt hentry, fun h => hroot h.symm⟩
  · rintro ⟨hwinning, hroot⟩
    exact ⟨_, ⟨⟨⟨mem_of_winning hwinning, rfl⟩, accessAt_of_winning hwinning⟩,
      fun h => hroot h.symm⟩, rfl⟩

theorem hasEntry_of_hasRootAccess {predicate : FileSystemAccessMode → Bool}
    (h : policy.hasRootAccess predicate = true) :
    HasEntry (policy.resolvedEntriesWithCwd env cwd) ⟨[]⟩ := by
  simp only [hasRootAccess, Bool.and_eq_true, any_eq_true, beq_iff_eq] at h
  obtain ⟨-, raw, hraw, hroot, -⟩ := h
  exact ⟨⟨⟨[]⟩, raw.access⟩, (mem_resolvedEntries_iff hcwd).mpr
    ⟨raw, hraw, by rw [hroot]; rfl, rfl⟩, rfl⟩

theorem accessAt_of_fullDiskRead (hkind : policy.kind = .restricted)
    (hread : policy.hasFullDiskReadAccess = true) :
    accessAt (policy.resolvedEntriesWithCwd env cwd) target ≠ .none := by
  rw [hasFullDiskReadAccess, hkind, Bool.and_eq_true] at hread
  obtain ⟨hroot, hdenied⟩ := hread
  simp only [hasDeniedReadRestrictions, hkind, beq_self_eq_true, Bool.true_and,
    Bool.not_eq_true', any_eq_false, beq_iff_eq] at hdenied
  obtain ⟨decided, -, hwinning, -⟩ :=
    exists_decided_of_above (hasEntry_of_hasRootAccess hcwd hroot) nil_prefix
  obtain ⟨raw, hraw, -, haccess⟩ := (mem_resolvedEntries_iff hcwd).mp (mem_of_winning hwinning)
  exact fun hnone => hdenied raw hraw (haccess.trans hnone)

theorem canRead_of_fullDiskRead (hread : policy.hasFullDiskReadAccess = true) :
    policy.canReadPathWithCwd env (asPath target) cwd = true := by
  by_cases hkind : policy.kind = .restricted
  · exact (canRead_asPath_iff hkind).mpr (accessAt_of_fullDiskRead hcwd hkind hread)
  · rw [canReadPathWithCwd, resolveAccess_of_not_restricted hkind]
    rfl

/-- An entry that wins in spite of an override stands at a `/tmp` that is no directory. -/
theorem tmp_of_override (hresolved : resolveEntryPath env raw.path (some current) = some resolved)
    (hwins : Winning (policy.resolvedEntriesWithCwd env cwd) resolved.names raw.access)
    (hoverride : policy.hasSameTargetWriteOverride raw = true) :
    raw.access = .read ∧ resolved = slashTmpPath ∧ env.isDir slashTmpPath = false := by
  obtain ⟨candidate, hmem, hwrite, hread, hshare⟩ := override_spec hoverride
  refine ⟨hread, (resolve_of_share hshare hresolved).resolve_left fun hsame => ?_⟩
  have hentry : (⟨resolved, .write⟩ : ResolvedFileSystemEntry) ∈
      policy.resolvedEntriesWithCwd env cwd :=
    (mem_resolvedEntries_iff hcwd).mpr ⟨candidate, hmem, hsame, hwrite⟩
  have hle : FileSystemAccessMode.write ≤ raw.access := hwins.2 _ hentry rfl
  rw [hread] at hle
  exact absurd hle (by decide)

variable (hfull : policy.hasFullDiskWriteAccess = true)
include hfull

/-- With write access to the whole disk, writes win everywhere but at a `/tmp` that is no
directory. -/
theorem winning_of_fullDiskWrite (hkind : policy.kind = .restricted)
    (hwins : Winning (policy.resolvedEntriesWithCwd env cwd) resolved.names access) :
    access = .write ∨
      access = .read ∧ resolved = slashTmpPath ∧ env.isDir slashTmpPath = false := by
  unfold hasFullDiskWriteAccess hasRootAccess hasWriteNarrowingEntries at hfull
  simp only [hkind, beq_self_eq_true, Bool.true_and, Bool.and_eq_true, any_eq_true,
    beq_iff_eq, Bool.not_eq_true', any_eq_false, Bool.not_eq_true] at hfull
  obtain ⟨⟨root, hroot, hrootPath, hrootWrite⟩, hnarrows⟩ := hfull
  obtain ⟨raw, hraw, hresolved, rfl⟩ := (mem_resolvedEntries_iff hcwd).mp (mem_of_winning hwins)
  by_cases hwrite : raw.access = .write
  · exact .inl hwrite
  · right
    have hnarrow := hnarrows raw hraw
    unfold narrowsWrites at hnarrow
    rw [if_neg (by simpa [FileSystemAccessMode.canWrite] using hwrite)] at hnarrow
    have hoverride : (!policy.hasSameTargetWriteOverride raw) = false →
        raw.access = .read ∧ resolved = slashTmpPath ∧ env.isDir slashTmpPath = false := fun h =>
      tmp_of_override hcwd hresolved hwins (by simpa using h)
    cases hrawPath : raw.path with
    | globPattern pattern =>
      rw [hrawPath] at hresolved
      cases hresolved
    | path path =>
      rw [hrawPath] at hnarrow
      exact hoverride hnarrow
    | special value =>
      rw [hrawPath] at hnarrow hresolved
      cases value with
      | minimal | unknown => cases hresolved
      | projectRoots | tmpdir | slashTmp => exact hoverride hnarrow
      | root =>
        have hrootEntry : (⟨resolved, .write⟩ : ResolvedFileSystemEntry) ∈
            policy.resolvedEntriesWithCwd env cwd :=
          (mem_resolvedEntries_iff hcwd).mpr
            ⟨root, hroot, by rw [hrootPath]; exact hresolved, eq_of_beq hrootWrite⟩
        have hle : FileSystemAccessMode.write ≤ raw.access := hwins.2 _ hrootEntry rfl
        have hnone : raw.access ≠ .none := beq_eq_false_iff_ne.mp hnarrow
        cases hmode : raw.access with
        | read =>
          rw [hmode] at hle
          exact absurd hle (by decide)
        | write => exact absurd hmode hwrite
        | none => exact absurd hmode hnone

theorem canWrite_of_fullDiskWrite :
    policy.canWritePathWithCwd env (asPath target) cwd = true ↔
      ¬ DeniedAtTmp env policy cwd target := by
  by_cases hkind : policy.kind = .restricted
  · rw [canWritePath_iff hkind (resolveCandidatePath_asPath env target cwd), hfull,
      and_iff_left (.inl rfl)]
    constructor
    · rintro haccess ⟨⟨-, hread⟩, hdecided⟩
      rw [accessAt_eq hdecided hread] at haccess
      cases haccess
    · intro hnot
      have hroot := hfull
      rw [hasFullDiskWriteAccess, hkind, Bool.and_eq_true] at hroot
      obtain ⟨decided, hdecided, hwins, -⟩ :=
        exists_decided_of_above (hasEntry_of_hasRootAccess hcwd hroot.1) nil_prefix
      rcases winning_of_fullDiskWrite hcwd hfull hkind hwins with hwrite | ⟨hread, rfl, -⟩
      · exact hwrite
      · rw [hread] at hwins
        exact absurd ⟨⟨hkind, hwins⟩, hdecided⟩ hnot
  · refine iff_of_true ?_ fun h => hkind h.1.1
    rw [canWritePathWithCwd, resolveAccess_of_not_restricted hkind, hfull]
    rfl

theorem not_deniedAtTmp (hdir : env.isDir slashTmpPath = true) :
    ¬ DeniedAtTmp env policy cwd target := by
  rintro ⟨⟨hkind, hread⟩, -⟩
  rcases winning_of_fullDiskWrite hcwd hfull hkind hread with hwrite | ⟨-, -, hnot⟩
  · cases hwrite
  · rw [hdir] at hnot
    cases hnot

omit hfull

theorem unreadableRoots_of_fullDiskRead (hread : policy.hasFullDiskReadAccess = true) :
    policy.getUnreadableRootsWithCwd env cwd = [] := by
  by_cases hkind : policy.kind = .restricted
  · refine eq_nil_iff_forall_not_mem.mpr fun root hroot => ?_
    exact accessAt_of_fullDiskRead hcwd hkind hread
      (accessAt_of_winning ((mem_unreadableRoots hcwd hkind).mp hroot).1)
  · exact if_pos hkind

end Cwd

/-- Every entry below `/tmp` has one of the others above it there. -/
def CoveredBelowTmp (entries entries' : List ResolvedFileSystemEntry) : Prop :=
  ∀ entry ∈ entries, StrictlyBelow slashTmpPath entry.path →
    ∃ other ∈ entries', StrictlyBelow slashTmpPath other.path ∧ other.names <+: entry.names

/-- `/tmp` is writable under both policies, or under neither, and then they have the same
exceptions below it. -/
def TmpAgrees (env : Environment) (policy other : FileSystemSandboxPolicy) (cwd : PathBuf) : Prop :=
  (ShadowsTmp env policy cwd ↔ ShadowsTmp env other cwd) ∧
    (ShadowsTmp env policy cwd →
      CoveredBelowTmp (policy.resolvedEntriesWithCwd env cwd)
          (other.resolvedEntriesWithCwd env cwd) ∧
        CoveredBelowTmp (other.resolvedEntriesWithCwd env cwd)
          (policy.resolvedEntriesWithCwd env cwd))

theorem not_decidedAt_tmp_iff (hentry : HasEntry entries slashTmpPath)
    (habove : slashTmpPath.names <+: target.names) :
    ¬ DecidedAt entries slashTmpPath.names target ↔
      ∃ entry ∈ entries, StrictlyBelow slashTmpPath entry.path ∧ entry.names <+: target.names := by
  constructor
  · intro hnot
    obtain ⟨decided, hdecided, -, hbelow⟩ := exists_decided_of_above hentry habove
    obtain ⟨entry, hmem, rfl⟩ := hasEntry_of_decided hdecided
    refine ⟨entry, hmem, ⟨hbelow, ?_⟩, hdecided.2.1⟩
    intro heq
    rw [← heq] at hdecided
    exact hnot hdecided
  · rintro ⟨entry, hmem, hbelow, hupper⟩ hdecided
    exact not_hasEntry_of_below hdecided hbelow hupper ⟨entry, hmem, rfl⟩

theorem coveredBelowTmp_iff (h : HasEntry entries slashTmpPath)
    (h' : HasEntry entries' slashTmpPath) :
    CoveredBelowTmp entries' entries ↔
      ∀ target, DecidedAt entries slashTmpPath.names target →
        DecidedAt entries' slashTmpPath.names target := by
  constructor
  · intro hcovered target hdecided
    by_contra hnot
    obtain ⟨entry, hentry, hbelow, hupper⟩ := (not_decidedAt_tmp_iff h' hdecided.2.1).mp hnot
    obtain ⟨cover, hcover, hcoverBelow, hcoverUpper⟩ := hcovered entry hentry hbelow
    exact (not_decidedAt_tmp_iff h hdecided.2.1).mpr
      ⟨cover, hcover, hcoverBelow, hcoverUpper.trans hupper⟩ hdecided
  · intro himp entry hentry hbelow
    refine (not_decidedAt_tmp_iff h hbelow.1).mp fun hdecided => ?_
    exact (not_decidedAt_tmp_iff h' hbelow.1).mpr ⟨entry, hentry, hbelow, prefix_refl _⟩
      (himp _ hdecided)

/-- What one policy denies at `/tmp` the other does, if it denies `/tmp` too and has no entry
below it that this one does not cover. -/
theorem denied_imp_iff :
    (∀ target, DeniedAtTmp env policy cwd target → DeniedAtTmp env other cwd target) ↔
      (ShadowsTmp env policy cwd → ShadowsTmp env other cwd ∧
        CoveredBelowTmp (other.resolvedEntriesWithCwd env cwd)
          (policy.resolvedEntriesWithCwd env cwd)) := by
  constructor
  · intro h hshadows
    have hshadows' := (h slashTmpPath ⟨hshadows, decides_self (mem_of_winning hshadows.2) rfl⟩).1
    refine ⟨hshadows', (coveredBelowTmp_iff hshadows.2.hasEntry hshadows'.2.hasEntry).mpr ?_⟩
    exact fun target hdecided => (h target ⟨hshadows, hdecided⟩).2
  · intro h target hdenied
    obtain ⟨hshadows', hcovered⟩ := h hdenied.1
    have himp := coveredBelowTmp_iff hdenied.1.2.hasEntry hshadows'.2.hasEntry
    exact ⟨hshadows', himp.mp hcovered target hdenied.2⟩

/-- The same paths are denied at `/tmp` exactly when the two policies agree about it. -/
theorem denied_iff_tmpAgrees :
    (∀ target, DeniedAtTmp env policy cwd target ↔ DeniedAtTmp env other cwd target) ↔
      TmpAgrees env policy other cwd := by
  simp only [iff_def, forall_and, denied_imp_iff, TmpAgrees]
  tauto

end FullDisk

section Equivalence

/-- Two policies grant the same reads and writes. -/
def DecidesAlike (env : Environment) (policy other : FileSystemSandboxPolicy) (cwd : PathBuf) :
    Prop :=
  ∀ path : PathBuf, path.isAbsolute = true →
    policy.canReadPathWithCwd env path cwd = other.canReadPathWithCwd env path cwd ∧
      policy.canWritePathWithCwd env path cwd = other.canWritePathWithCwd env path cwd

variable (env) in
theorem exists_fromAbsolutePath (h : path.isAbsolute = true) :
    ∃ target, fromAbsolutePath env path = some target := by
  have hexpand : maybeExpandHomeDirectory env.home path = path := by
    unfold maybeExpandHomeDirectory
    rw [h]
    cases env.home <;> rfl
  unfold fromAbsolutePath
  rw [hexpand, if_pos h]
  exact ⟨_, rfl⟩

variable (env) in
theorem exists_resolveCandidatePath (h : path.isAbsolute = true) (cwd : PathBuf) :
    ∃ target, resolveCandidatePath env path cwd = some target := by
  rw [resolveCandidatePath, if_pos h]
  exact exists_fromAbsolutePath env h

theorem resolveAccess_asPath (h : resolveCandidatePath env path cwd = some target) :
    policy.resolveAccessWithCwd env path cwd =
      policy.resolveAccessWithCwd env (asPath target) cwd := by
  unfold resolveAccessWithCwd
  rw [h, resolveCandidatePath_asPath]

theorem canWrite_asPath (h : resolveCandidatePath env path cwd = some target) :
    policy.canWritePathWithCwd env path cwd =
      policy.canWritePathWithCwd env (asPath target) cwd := by
  unfold canWritePathWithCwd isMetadataWriteDenied
  rw [resolveAccess_asPath h, h, resolveCandidatePath_asPath]

theorem decidesAlike_iff :
    DecidesAlike env policy other cwd ↔ ∀ target,
      policy.canReadPathWithCwd env (asPath target) cwd =
          other.canReadPathWithCwd env (asPath target) cwd ∧
        policy.canWritePathWithCwd env (asPath target) cwd =
          other.canWritePathWithCwd env (asPath target) cwd := by
  constructor
  · intro h target
    exact h (asPath target) rfl
  · intro h path habsolute
    obtain ⟨target, htarget⟩ := exists_resolveCandidatePath env habsolute cwd
    unfold canReadPathWithCwd at h ⊢
    rw [resolveAccess_asPath htarget, resolveAccess_asPath htarget, canWrite_asPath htarget,
      canWrite_asPath htarget]
    exact h target

/-- Equal signatures are sound for two policies: with write access to the whole disk they
agree about `/tmp`, and without it none of them exposes the directory of a `.git` file that
has an entry in the other. -/
def EquivalenceSound (env : Environment) (policy other : FileSystemSandboxPolicy)
    (cwd : PathBuf) : Prop :=
  if policy.hasFullDiskWriteAccess then TmpAgrees env policy other cwd
  else
    ∀ root gitdir,
      ¬ ExposesGitdir env (policy.resolvedEntriesWithCwd env cwd)
          (other.resolvedEntriesWithCwd env cwd) root gitdir ∧
        ¬ ExposesGitdir env (other.resolvedEntriesWithCwd env cwd)
          (policy.resolvedEntriesWithCwd env cwd) root gitdir

variable {current : AbsolutePathBuf}

variable (hsignature : policy.semanticSignature env cwd = other.semanticSignature env cwd)
include hsignature

theorem canRead_eq_of_signature (hcwd : fromAbsolutePath env cwd = some current)
    (target : AbsolutePathBuf) :
    policy.canReadPathWithCwd env (asPath target) cwd =
      other.canReadPathWithCwd env (asPath target) cwd := by
  have hread : policy.hasFullDiskReadAccess = other.hasFullDiskReadAccess :=
    congrArg FileSystemSemanticSignature.hasFullDiskReadAccess hsignature
  by_cases hfull : policy.hasFullDiskReadAccess = true
  · rw [canRead_of_fullDiskRead hcwd hfull, canRead_of_fullDiskRead hcwd (hread ▸ hfull)]
  · rw [Bool.not_eq_true] at hfull
    have hfull' := hread ▸ hfull
    have hkind := restricted_of_not_fullDiskRead hfull
    have hkind' := restricted_of_not_fullDiskRead hfull'
    have hreadable := mem_congr_of_sorted
      (congrArg FileSystemSemanticSignature.readableRoots hsignature)
    have hunreadable := mem_congr_of_sorted
      (congrArg FileSystemSemanticSignature.unreadableRoots hsignature)
    simp only [mem_readableRoots hfull, mem_readableRoots hfull'] at hreadable
    simp only [mem_unreadableRoots hcwd hkind, mem_unreadableRoots hcwd hkind'] at hunreadable
    rw [Bool.eq_iff_iff, canRead_asPath_iff hkind, canRead_asPath_iff hkind']
    exact ⟨readable_transfer hreadable fun path => (hunreadable path).mpr,
      readable_transfer (fun path => (hreadable path).symm) fun path => (hunreadable path).mp⟩

theorem canWrite_eq_iff_of_signature (hcwd : fromAbsolutePath env cwd = some current) :
    (∀ target, policy.canWritePathWithCwd env (asPath target) cwd =
        other.canWritePathWithCwd env (asPath target) cwd) ↔
      EquivalenceSound env policy other cwd := by
  have hwrite : policy.hasFullDiskWriteAccess = other.hasFullDiskWriteAccess :=
    congrArg FileSystemSemanticSignature.hasFullDiskWriteAccess hsignature
  unfold EquivalenceSound
  by_cases hfull : policy.hasFullDiskWriteAccess = true
  · rw [if_pos hfull, ← denied_iff_tmpAgrees]
    refine forall_congr' fun target => ?_
    rw [Bool.eq_iff_iff, canWrite_of_fullDiskWrite hcwd hfull,
      canWrite_of_fullDiskWrite hcwd (hwrite ▸ hfull), not_iff_not]
  · rw [if_neg hfull]
    rw [Bool.not_eq_true] at hfull
    have hfull' := hwrite ▸ hfull
    have hsame := sameRoots_of_signature hfull hfull'
      (congrArg FileSystemSemanticSignature.writableRoots hsignature)
    simp only [Bool.eq_iff_iff, canWrite_asPath_iff hfull, canWrite_asPath_iff hfull',
      iff_def, forall_and, hsame.writes_iff, hsame.symm.writes_iff]

theorem decidesAlike_iff_of_signature (habsolute : cwd.isAbsolute = true) :
    DecidesAlike env policy other cwd ↔ EquivalenceSound env policy other cwd := by
  obtain ⟨current, hcwd⟩ := exists_fromAbsolutePath env habsolute
  rw [decidesAlike_iff, ← canWrite_eq_iff_of_signature hsignature hcwd]
  exact ⟨fun h target => (h target).2,
    fun h target => ⟨canRead_eq_of_signature hsignature hcwd target, h target⟩⟩

omit hsignature

/-- A policy that needs no direct enforcement has the signature of its legacy policy. -/
theorem signature_of_no_direct_enforcement {networkPolicy : NetworkSandboxPolicy}
    (hkind : policy.kind = .restricted)
    (h : policy.needsDirectRuntimeEnforcement env networkPolicy cwd = false) :
    ∃ legacyPolicy, policy.toLegacySandboxPolicy env networkPolicy cwd = .ok legacyPolicy ∧
      policy.semanticSignature env cwd =
        (legacyRuntimeFileSystemPolicyForCwd env legacyPolicy cwd).semanticSignature env cwd := by
  unfold needsDirectRuntimeEnforcement at h
  rw [if_neg (not_not.mpr hkind)] at h
  split at h
  · cases h
  · next legacyPolicy hlegacy =>
    rw [Bool.or_eq_false_iff, bne_eq_false_iff_eq] at h
    exact ⟨legacyPolicy, hlegacy, h.2⟩

/-- Equivalent policies decide alike exactly where equal signatures are sound, and so do a
policy and the legacy policy that replaces it. -/
theorem equivalent_policies_decide_alike_iff (policy : FileSystemSandboxPolicy)
    (habsolute : cwd.isAbsolute = true) :
    (∀ other : FileSystemSandboxPolicy,
        policy.isSemanticallyEquivalentTo env other cwd = true →
          (DecidesAlike env policy other cwd ↔ EquivalenceSound env policy other cwd)) ∧
      ∀ networkPolicy, policy.kind = .restricted →
        policy.needsDirectRuntimeEnforcement env networkPolicy cwd = false →
        ∃ legacyPolicy, policy.toLegacySandboxPolicy env networkPolicy cwd = .ok legacyPolicy ∧
          (DecidesAlike env policy (legacyRuntimeFileSystemPolicyForCwd env legacyPolicy cwd) cwd ↔
            EquivalenceSound env policy
              (legacyRuntimeFileSystemPolicyForCwd env legacyPolicy cwd) cwd) := by
  refine ⟨fun other hequivalent => ?_, fun networkPolicy hkind hneeds => ?_⟩
  · exact decidesAlike_iff_of_signature (eq_of_beq hequivalent) habsolute
  · obtain ⟨legacyPolicy, hlegacy, hsignature⟩ := signature_of_no_direct_enforcement hkind hneeds
    exact ⟨legacyPolicy, hlegacy, decidesAlike_iff_of_signature hsignature habsolute⟩

/-- Without files, an entry below the root is no difference for reads. -/
theorem workspacePolicy_with_readable_decides_alike :
    DecidesAlike emptyDisk workspacePolicy
      (.restricted (⟨.path ⟨["etc"]⟩, .read⟩ :: workspacePolicy.entries)) (asPath ⟨["w"]⟩) := by
  refine ((equivalent_policies_decide_alike_iff workspacePolicy rfl).1 _ (by decide +kernel)).mpr ?_
  have hpointer : ∀ root gitdir, gitdirOf emptyDisk root ≠ some gitdir := nofun
  intro root gitdir
  exact ⟨fun h => hpointer root gitdir h.pointer, fun h => hpointer root gitdir h.pointer⟩

/-- A working tree whose `.git` file points into it, with a directory for agents. -/
def agentsDisk : Environment where
  home := none
  currentDir := none
  tmpdir := none
  files path :=
    if path = ⟨["w", ".git"]⟩ then some (.file (some "gitdir: real\n"))
    else if path = ⟨["w", "real"]⟩ ∨ path = ⟨["w", ".agents"]⟩ then some .directory
    else none

/-- The workspace policy needs no direct enforcement, but its legacy policy makes the
directory of the `.git` file read-only; and where `/tmp` is no directory, a read entry for
it does not keep a policy from counting as writable everywhere. -/
theorem equal_signatures_differ :
    let cwd := asPath ⟨["w"]⟩
    let legacy := legacyRuntimeFileSystemPolicyForCwd agentsDisk
      (.workspaceWrite [] false true true) cwd
    let full := restricted [⟨.special .root, .write⟩]
    let shadowed := restricted
      [⟨.special .root, .write⟩, ⟨.path ⟨["tmp"]⟩, .read⟩, ⟨.special .slashTmp, .write⟩]
    workspacePolicy.needsDirectRuntimeEnforcement agentsDisk .restricted cwd = false ∧
      (workspacePolicy.toLegacySandboxPolicy agentsDisk .restricted cwd).toOption =
        some (.workspaceWrite [] false true true) ∧
      workspacePolicy.isSemanticallyEquivalentTo agentsDisk legacy cwd = true ∧
      workspacePolicy.canWritePathWithCwd agentsDisk (asPath ⟨["w", "real"]⟩) cwd = true ∧
      legacy.canWritePathWithCwd agentsDisk (asPath ⟨["w", "real"]⟩) cwd = false ∧
      full.isSemanticallyEquivalentTo agentsDisk shadowed cwd = true ∧
      full.canWritePathWithCwd agentsDisk (asPath ⟨["tmp"]⟩) cwd = true ∧
      shadowed.canWritePathWithCwd agentsDisk (asPath ⟨["tmp"]⟩) cwd = false := by
  decide +kernel

end Equivalence

theorem unreadableGlobs_of_fullDiskRead (hread : policy.hasFullDiskReadAccess = true) :
    policy.getUnreadableGlobsWithCwd env cwd = [] := by
  unfold getUnreadableGlobsWithCwd
  split
  · rfl
  · next hkind =>
    have hdenied : policy.hasDeniedReadRestrictions = false := by
      rw [hasFullDiskReadAccess, not_not.mp hkind, Bool.and_eq_true] at hread
      simpa using hread.2
    have hnone : policy.entries.filter (·.access == .none) = [] := by
      rw [hasDeniedReadRestrictions, not_not.mp hkind] at hdenied
      simpa using hdenied
    rw [hnone]
    rfl

/-- Where `/tmp` is a directory, the flags for the whole disk mean what they say. -/
theorem full_disk_flags_sound (env : Environment) (policy : FileSystemSandboxPolicy) (cwd : PathBuf)
    (habsolute : cwd.isAbsolute = true) (hdir : env.isDir slashTmpPath = true) :
    (policy.hasFullDiskWriteAccess = true → ∀ path : PathBuf, path.isAbsolute = true →
        policy.canWritePathWithCwd env path cwd = true) ∧
      (policy.hasFullDiskReadAccess = true →
        (∀ path : PathBuf, path.isAbsolute = true → policy.canReadPathWithCwd env path cwd = true) ∧
          policy.getUnreadableRootsWithCwd env cwd = [] ∧
          policy.getUnreadableGlobsWithCwd env cwd = []) := by
  obtain ⟨current, hcwd⟩ := exists_fromAbsolutePath env habsolute
  refine ⟨fun hfull path hpath => ?_, fun hread => ⟨fun path hpath => ?_,
    unreadableRoots_of_fullDiskRead hcwd hread, unreadableGlobs_of_fullDiskRead hread⟩⟩
  · obtain ⟨target, htarget⟩ := exists_resolveCandidatePath env hpath cwd
    rw [canWrite_asPath htarget, canWrite_of_fullDiskWrite hcwd hfull]
    exact not_deniedAtTmp hcwd hfull hdir
  · obtain ⟨target, htarget⟩ := exists_resolveCandidatePath env hpath cwd
    rw [canReadPathWithCwd, resolveAccess_asPath htarget]
    exact canRead_of_fullDiskRead hcwd hread

def tmpDisk : Environment := { emptyDisk with
  files := fun path => if path = slashTmpPath then some .directory else none }

/-- An entry for reading `/tmp` only, overridden where `/tmp` is a directory. -/
theorem overridden_tmp_written :
    (restricted [⟨.special .root, .write⟩, ⟨.path slashTmpPath, .read⟩,
      ⟨.special .slashTmp, .write⟩]).canWritePathWithCwd tmpDisk (asPath slashTmpPath)
        (asPath ⟨["w"]⟩) = true :=
  (full_disk_flags_sound tmpDisk _ (asPath ⟨["w"]⟩) rfl (by decide)).1 (by decide)
    (asPath slashTmpPath) rfl

end DeepseekX.SandboxPolicies
