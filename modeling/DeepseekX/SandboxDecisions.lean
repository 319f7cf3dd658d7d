import DeepseekX.SandboxPolicies

/-!
# What a sandbox policy decides

The access of a restricted policy to a path depends only on its resolved entries: on the
longest prefix of the path that has entries, on the access that wins there, and on the
write entry that guards a metadata directory above the path.
-/

namespace DeepseekX.SandboxPolicies
open AbsolutePaths LongestPrefix List

variable {env : Environment} {policy : FileSystemSandboxPolicy} {path cwd : PathBuf}
  {target : AbsolutePathBuf} {entries entries' : List ResolvedFileSystemEntry}

theorem eq_of_names {path other : AbsolutePathBuf} (h : path.names = other.names) : path = other :=
  congrArg AbsolutePathBuf.mk h

theorem normalizePath_normal (names : List String) :
    normalizePath (names.map Component.normal) = names := by
  have h := absolutizeFrom_intoComponents ⟨names⟩ ⟨[]⟩
  exact congrArg AbsolutePathBuf.names h

theorem fromAbsolutePath_asPath (env : Environment) (target : AbsolutePathBuf) :
    fromAbsolutePath env (asPath target) = some target := by
  have hexpand : maybeExpandHomeDirectory env.home (asPath target) = asPath target := by
    cases env.home <;> rfl
  unfold fromAbsolutePath
  rw [hexpand]
  exact congrArg (fun names => some (AbsolutePathBuf.mk names)) (normalizePath_normal target.names)

theorem resolveCandidatePath_asPath (env : Environment) (target : AbsolutePathBuf)
    (cwd : PathBuf) : resolveCandidatePath env (asPath target) cwd = some target := by
  unfold resolveCandidatePath
  rw [if_pos (show (asPath target).isAbsolute = true from rfl), fromAbsolutePath_asPath]

theorem joinName_eq (env : Environment) (path : AbsolutePathBuf) {name : String}
    (hname : name ≠ "~") : joinName env path name = ⟨path.names ++ [name]⟩ := by
  have hexpand : maybeExpandHomeDirectory env.home (.relative [name]) = .relative [name] := by
    unfold maybeExpandHomeDirectory PathBuf.relative
    cases env.home with
    | none => rfl
    | some home =>
      simp only [map_cons]
      split
      · next heq =>
        simp only [cons.injEq, Component.normal.injEq] at heq
        exact absurd heq.1 hname
      · rfl
  unfold joinName AbsolutePathBuf.join AbsolutePathBuf.resolvePathAgainstBase
  rw [hexpand]
  have hnormal := normalizePath_normal (path.names ++ [name])
  rw [map_append] at hnormal
  exact congrArg AbsolutePathBuf.mk hnormal

theorem startsWith_iff {base : AbsolutePathBuf} :
    startsWith target base = true ↔ base.names <+: target.names := decide_eq_true_iff

/-- The path whose entries decide about the target. -/
abbrev DecidedAt (entries : List ResolvedFileSystemEntry) (names : List String)
    (target : AbsolutePathBuf) : Prop :=
  Decides ResolvedFileSystemEntry.names entries names target.names

/-- The access that wins among the entries at a path. -/
abbrev Winning (entries : List ResolvedFileSystemEntry) (names : List String)
    (access : FileSystemAccessMode) : Prop :=
  WinsAt ResolvedFileSystemEntry.names ResolvedFileSystemEntry.access entries names access

theorem accessAt_cases (entries : List ResolvedFileSystemEntry) (target : AbsolutePathBuf) :
    (∃ names, DecidedAt entries names target ∧ Winning entries names (accessAt entries target)) ∨
      (∀ entry ∈ entries, ¬ entry.names <+: target.names) ∧ accessAt entries target = .none := by
  unfold accessAt
  cases hmax : maxByKey resolvedEntryPrecedence (entries.filter (startsWith target ·.path)) with
  | none =>
    refine .inr ⟨fun entry hentry hupper => ?_, rfl⟩
    rw [maxByKey_eq_none_iff, filter_eq_nil_iff] at hmax
    exact hmax entry hentry (startsWith_iff.mpr hupper)
  | some entry =>
    obtain ⟨hmem, hbound⟩ := maxByKey_spec hmax
    rw [mem_filter, startsWith_iff] at hmem
    refine .inl ⟨entry.names, decides_winsAt_of_max hmem.1 hmem.2 fun other hother hupper => ?_⟩
    have hle := hbound other (mem_filter.mpr ⟨hother, startsWith_iff.mpr hupper⟩)
    unfold resolvedEntryPrecedence at hle
    rw [Prod.Lex.toLex_le_toLex] at hle ⊢
    exact hle.imp Nat.lt_of_succ_lt_succ fun h => ⟨Nat.succ.inj h.1, h.2⟩

theorem accessAt_eq {names : List String} {access : FileSystemAccessMode}
    (hdecided : DecidedAt entries names target) (hwinning : Winning entries names access) :
    accessAt entries target = access := by
  rcases accessAt_cases entries target with ⟨names', hdecided', hwinning'⟩ | ⟨hnone, -⟩
  · obtain rfl := hdecided.unique hdecided'
    exact hwinning'.unique hwinning
  · obtain ⟨⟨entry, hentry, rfl⟩, hupper, -⟩ := hdecided
    exact absurd hupper (hnone entry hentry)

theorem accessAt_eq_write_iff :
    accessAt entries target = .write ↔
      ∃ names, DecidedAt entries names target ∧ Winning entries names .write := by
  constructor
  · intro h
    rcases accessAt_cases entries target with ⟨names, hdecided, hwinning⟩ | ⟨-, hnone⟩
    · rw [h] at hwinning
      exact ⟨names, hdecided, hwinning⟩
    · rw [h] at hnone
      cases hnone
  · rintro ⟨names, hdecided, hwinning⟩
    exact accessAt_eq hdecided hwinning

theorem accessAt_congr (h : ∀ entry, entry ∈ entries ↔ entry ∈ entries') :
    accessAt entries target = accessAt entries' target := by
  rcases accessAt_cases entries target with ⟨names, hdecided, hwinning⟩ | ⟨hnone, heq⟩
  · exact (accessAt_eq ((decides_congr h).mp hdecided) ((winsAt_congr h).mp hwinning)).symm
  · rcases accessAt_cases entries' target with ⟨names, ⟨⟨entry, hentry, hnames⟩, hupper, -⟩, -⟩ |
      ⟨-, heq'⟩
    · rw [← hnames] at hupper
      exact absurd hupper (hnone entry ((h entry).mpr hentry))
    · rw [heq, heq']

/-- A write entry with a metadata directory above the target. -/
def Guards (target : AbsolutePathBuf) (entry : ResolvedFileSystemEntry) (name : String) : Prop :=
  entry.access = .write ∧ name ∈ protectedMetadataPathNames ∧ entry.names ++ [name] <+: target.names

instance (target : AbsolutePathBuf) (entry : ResolvedFileSystemEntry) (name : String) :
    Decidable (Guards target entry name) :=
  inferInstanceAs (Decidable (_ ∧ _ ∧ _))

/-- A write entry at or below a metadata directory, above the target. -/
def Excepts (entries : List ResolvedFileSystemEntry) (target : AbsolutePathBuf)
    (directory : List String) : Prop :=
  ∃ entry ∈ entries, entry.access = .write ∧ entry.names <+: target.names ∧
    directory <+: entry.names

instance (entries : List ResolvedFileSystemEntry) (target : AbsolutePathBuf)
    (directory : List String) : Decidable (Excepts entries target directory) :=
  inferInstanceAs (Decidable (∃ entry ∈ entries, _))

/-- The name of the metadata directory below the first guard, if nothing excepts it. -/
def guardedName (env : Environment) (entries : List ResolvedFileSystemEntry)
    (target : AbsolutePathBuf) : Option String :=
  (((entries.filter (·.access.canWrite)).filterMap (metadataChild env target)).head?).bind
    fun (directory, name) => if Excepts entries target directory.names then none else some name

theorem metadataPathName_eq_some {first name : String} :
    metadataPathName first = some name ↔ first = name ∧ name ∈ protectedMetadataPathNames := by
  unfold metadataPathName
  constructor
  · intro h
    exact ⟨eq_of_beq (find?_some h), mem_of_find?_eq_some h⟩
  · rintro ⟨rfl, hmem⟩
    cases hfind : protectedMetadataPathNames.find? (first == ·) with
    | none => exact absurd (beq_self_eq_true first) (by simpa using find?_eq_none.mp hfind _ hmem)
    | some other =>
      have hother := find?_some hfind
      rw [eq_of_beq hother]

theorem ne_home_of_protected {name : String} (h : name ∈ protectedMetadataPathNames) :
    name ≠ "~" := by
  rintro rfl
  exact absurd h (by decide)

theorem metadataChild_eq_some {entry : ResolvedFileSystemEntry} {directory : AbsolutePathBuf}
    {name : String} :
    metadataChild env target entry = some (directory, name) ↔
      name ∈ protectedMetadataPathNames ∧ entry.names ++ [name] <+: target.names ∧
        directory = ⟨entry.names ++ [name]⟩ := by
  unfold metadataChild stripBase
  constructor
  · intro h
    simp only [Option.bind_eq_some_iff, Option.map_eq_some_iff] at h
    obtain ⟨relative, hrelative, first, hfirst, name', hname, heq⟩ := h
    obtain ⟨rfl, hmem⟩ := metadataPathName_eq_some.mp hname
    obtain ⟨rfl, rfl⟩ := Prod.mk.inj heq
    split at hrelative
    · next hupper =>
      cases hrelative
      refine ⟨hmem, ?_, joinName_eq env entry.path (ne_home_of_protected hmem)⟩
      obtain ⟨rest, hrest⟩ := hupper
      rw [← hrest, drop_left] at hfirst
      refine ⟨rest.tail, ?_⟩
      rw [← hrest, append_assoc, singleton_append, ← eq_cons_of_mem_head? hfirst]
      rfl
    · cases hrelative
  · rintro ⟨hmem, ⟨rest, hrest⟩, rfl⟩
    have hupper : entry.path.names <+: target.names :=
      ⟨name :: rest, by rw [← hrest]; simp [ResolvedFileSystemEntry.names]⟩
    have hdrop : target.names.drop entry.path.names.length = name :: rest := by
      rw [← hrest, append_assoc]
      exact drop_left
    have hname := metadataPathName_eq_some.mpr ⟨rfl, hmem⟩
    rw [if_pos hupper, Option.bind_some, hdrop, head?_cons, Option.bind_some, hname,
      Option.map_some, joinName_eq env entry.path (ne_home_of_protected hmem)]
    rfl

theorem guardedName_cases (env : Environment) (entries : List ResolvedFileSystemEntry)
    (target : AbsolutePathBuf) :
    (guardedName env entries target = none ∧
        ∀ entry ∈ entries, ∀ name, ¬ Guards target entry name) ∨
      ∃ entry ∈ entries, ∃ name, Guards target entry name ∧ guardedName env entries target =
        if Excepts entries target (entry.names ++ [name]) then none else some name := by
  unfold guardedName
  cases hhead : ((entries.filter (·.access.canWrite)).filterMap
      (metadataChild env target)).head? with
  | none =>
    refine .inl ⟨rfl, fun entry hentry name ⟨hwrite, hmem, hupper⟩ => ?_⟩
    rw [head?_eq_none_iff, filterMap_eq_nil_iff] at hhead
    have hnone := hhead entry (mem_filter.mpr ⟨hentry, by rw [hwrite]; rfl⟩)
    rw [metadataChild_eq_some.mpr ⟨hmem, hupper, rfl⟩] at hnone
    cases hnone
  | some first =>
    obtain ⟨directory, name⟩ := first
    obtain ⟨entry, hentry, hchild⟩ := mem_filterMap.mp (mem_of_mem_head? hhead)
    obtain ⟨hmem, hupper, rfl⟩ := metadataChild_eq_some.mp hchild
    rw [mem_filter] at hentry
    exact .inr ⟨entry, hentry.1, name, ⟨eq_of_beq hentry.2, hmem, hupper⟩, rfl⟩

/-- A deeper guard excepts the target from the metadata directory of the other. -/
theorem excepts_of_deeper {entry other : ResolvedFileSystemEntry} {name name' : String}
    (hguards : Guards target entry name) (hother : other ∈ entries)
    (hguards' : Guards target other name') (hlength : entry.names.length < other.names.length) :
    Excepts entries target (entry.names ++ [name]) := by
  have hupper : other.names <+: target.names := (prefix_append _ _).trans hguards'.2.2
  exact ⟨other, hother, hguards'.1, hupper, concat_prefix_of_length_lt hguards.2.2 hupper hlength⟩

theorem hasExplicitWriteEntry_eq (directory : AbsolutePathBuf) :
    hasExplicitWriteEntryForMetadataPath env policy directory target cwd =
      decide (Excepts (policy.resolvedEntriesWithCwd env cwd) target directory.names) := by
  rw [Bool.eq_iff_iff, decide_eq_true_iff]
  unfold hasExplicitWriteEntryForMetadataPath Excepts
  simp only [any_eq_true, Bool.and_eq_true, startsWith_iff, FileSystemAccessMode.canWrite,
    beq_iff_eq, and_assoc]
  rfl

section Restricted
variable (hkind : policy.kind = .restricted)
  (htarget : resolveCandidatePath env path cwd = some target)
include hkind htarget

theorem resolveAccess_eq :
    policy.resolveAccessWithCwd env path cwd =
      accessAt (policy.resolvedEntriesWithCwd env cwd) target := by
  unfold FileSystemSandboxPolicy.resolveAccessWithCwd
  rw [hkind, htarget]

theorem isMetadataWriteDenied_eq :
    policy.isMetadataWriteDenied env path cwd =
      (guardedName env (policy.resolvedEntriesWithCwd env cwd) target).isSome := by
  unfold FileSystemSandboxPolicy.isMetadataWriteDenied guardedName metadataChildOfWritableRoot
  rw [if_neg (not_not.mpr hkind), htarget]
  dsimp only
  generalize ((policy.resolvedEntriesWithCwd env cwd).filter _).filterMap _ = guards
  cases guards.head? with
  | none => rfl
  | some first =>
    rw [Option.bind_some]
    dsimp only
    rw [hasExplicitWriteEntry_eq]
    split
    · next h => rw [decide_eq_true h]; rfl
    · next h => rw [decide_eq_false h]; rfl

theorem canWritePath_iff :
    policy.canWritePathWithCwd env path cwd = true ↔
      accessAt (policy.resolvedEntriesWithCwd env cwd) target = .write ∧
        (policy.hasFullDiskWriteAccess = true ∨
          guardedName env (policy.resolvedEntriesWithCwd env cwd) target = none) := by
  unfold FileSystemSandboxPolicy.canWritePathWithCwd
  rw [resolveAccess_eq hkind htarget, isMetadataWriteDenied_eq hkind htarget]
  unfold FileSystemAccessMode.canWrite
  by_cases haccess : accessAt (policy.resolvedEntriesWithCwd env cwd) target = .write
  · by_cases hfull : policy.hasFullDiskWriteAccess = true <;> simp [haccess, hfull]
  · simp [haccess]

theorem forbiddenAgentMetadataWrite_eq :
    forbiddenAgentMetadataWrite env path cwd policy =
      if policy.canWritePathWithCwd env (asPath target) cwd = true then none
      else guardedName env (policy.resolvedEntriesWithCwd env cwd) target := by
  unfold forbiddenAgentMetadataWrite guardedName metadataChildOfWritableRoot
  rw [if_neg (not_not.mpr hkind), htarget, Option.bind_some]
  generalize ((policy.resolvedEntriesWithCwd env cwd).filter _).filterMap _ = guards
  cases guards.head? with
  | none => simp
  | some first =>
    simp only [hasExplicitWriteEntry_eq]
    cases policy.canWritePathWithCwd env (asPath target) cwd <;> simp

end Restricted

end DeepseekX.SandboxPolicies
