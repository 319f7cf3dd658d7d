import DeepseekX.SandboxDecisions
import DeepseekX.WritableRoots

/-!
# Writable roots and the check of a path

A root leaves a path open if no carved out entry, no default protection and no protected
name lies between them. The innermost root above a path agrees with the check of the path,
up to default protections the check does not know. But the roots further out do not know
the metadata of the inner one: they leave open what the check denies.
-/

namespace DeepseekX.SandboxPolicies
open AbsolutePaths LongestPrefix FileSystemSandboxPolicy List

variable {env : Environment} {policy : FileSystemSandboxPolicy} {cwd : PathBuf}
  {target root path : AbsolutePathBuf} {entries : List ResolvedFileSystemEntry}

theorem normalizeEffectiveAbsolutePath_eq (env : Environment) (path : AbsolutePathBuf) :
    normalizeEffectiveAbsolutePath env path = path := by
  unfold normalizeEffectiveAbsolutePath
  cases hfind : path.names.inits.reverse.findSome? fun ancestor =>
      if env.pathExists ⟨ancestor⟩ then
        some (AbsolutePathBuf.mk (ancestor ++ path.names.drop ancestor.length))
      else none with
  | none => rfl
  | some result =>
    obtain ⟨ancestor, hmem, hresult⟩ := exists_of_findSome?_eq_some hfind
    rw [mem_reverse, mem_inits] at hmem
    split at hresult
    · cases hresult
      rw [Option.getD_some]
      exact eq_of_names (by rw [prefix_iff_eq_append.mp hmem])
    · cases hresult

theorem mem_dedupAbsolutePaths {paths : List AbsolutePathBuf} {normalize : Bool} :
    path ∈ dedupAbsolutePaths env paths normalize ↔ path ∈ paths := by
  have hfold : ∀ deduped : List AbsolutePathBuf, path ∈ paths.foldl (fun deduped path =>
      let path := if normalize then normalizeEffectiveAbsolutePath env path else path
      if path ∈ deduped then deduped else deduped ++ [path]) deduped ↔
        path ∈ deduped ∨ path ∈ paths := by
    induction paths with
    | nil => simp
    | cons first paths ih =>
      intro deduped
      rw [foldl_cons, ih]
      simp only [normalizeEffectiveAbsolutePath_eq, ite_self, mem_cons]
      split
      · next hmem =>
        constructor
        · exact Or.imp_right .inr
        · rintro (h | rfl | h)
          · exact .inl h
          · exact .inl hmem
          · exact .inr h
      · simp [or_assoc]
  exact (hfold []).trans (by simp)

def Writes (env : Environment) (entries : List ResolvedFileSystemEntry)
    (target : AbsolutePathBuf) : Prop :=
  accessAt entries target = .write ∧ guardedName env entries target = none

theorem restricted_of_not_fullDiskWrite (h : policy.hasFullDiskWriteAccess = false) :
    policy.kind = .restricted := by
  unfold hasFullDiskWriteAccess at h
  split at h
  · cases h
  · cases h
  · assumption

theorem canWrite_asPath_iff (hfull : policy.hasFullDiskWriteAccess = false) :
    policy.canWritePathWithCwd env (asPath target) cwd = true ↔
      Writes env (policy.resolvedEntriesWithCwd env cwd) target := by
  rw [canWritePath_iff (restricted_of_not_fullDiskWrite hfull)
    (resolveCandidatePath_asPath env target cwd), hfull]
  simp [Writes]

variable {access : FileSystemAccessMode} {entry : ResolvedFileSystemEntry}

theorem mem_of_winning (h : Winning entries target.names access) : ⟨target, access⟩ ∈ entries := by
  obtain ⟨⟨entry, hentry, hnames, rfl⟩, -⟩ := h
  rwa [← eq_of_names hnames]

theorem accessAt_of_winning (h : Winning entries target.names access) :
    accessAt entries target = access :=
  accessAt_eq (decides_self (mem_of_winning h) rfl) h

theorem winning_accessAt (hentry : entry ∈ entries) :
    Winning entries entry.names (accessAt entries entry.path) := by
  rcases accessAt_cases entries entry.path with ⟨names, hdecided, hwinning⟩ | ⟨hnone, -⟩
  · rwa [hdecided.unique (decides_self hentry rfl)] at hwinning
  · exact absurd prefix_rfl (hnone entry hentry)

/-- A write entry at the target itself excepts it from every metadata directory. -/
theorem guardedName_of_winning (h : Winning entries target.names .write) :
    guardedName env entries target = none := by
  rcases guardedName_cases env entries target with ⟨hnone, -⟩ | ⟨guard, -, name, hguards, hfirst⟩
  · exact hnone
  · rw [hfirst, if_pos ⟨_, mem_of_winning h, rfl, prefix_rfl, hguards.2.2⟩]

theorem writes_iff_winning (hentry : entry ∈ entries) :
    Writes env entries entry.path ↔ Winning entries entry.names .write := by
  constructor
  · rintro ⟨haccess, -⟩
    rw [← haccess]
    exact winning_accessAt hentry
  · intro h
    exact ⟨accessAt_of_winning h, guardedName_of_winning h⟩

section Roots

def StrictlyBelow (root path : AbsolutePathBuf) : Prop :=
  root.names <+: path.names ∧ root ≠ path

def HasEntry (entries : List ResolvedFileSystemEntry) (path : AbsolutePathBuf) : Prop :=
  ∃ entry ∈ entries, entry.path = path

/-- The read-only paths of a root. -/
def ReadOnlyBelow (protections : AbsolutePathBuf → List AbsolutePathBuf)
    (entries : List ResolvedFileSystemEntry) (root path : AbsolutePathBuf) : Prop :=
  (path ∈ protections root ∧ ¬ HasEntry entries path) ∨
    StrictlyBelow root path ∧ HasEntry entries path ∧ ¬ Winning entries path.names .write

/-- The paths below a root that are read-only by default. -/
def defaultProtections (env : Environment) (cwd : PathBuf) (root : AbsolutePathBuf) :
    List AbsolutePathBuf :=
  defaultReadOnlySubpathsForWritableRoot env root
    ((fromAbsolutePath env cwd).any fun cwd => normalizeEffectiveAbsolutePath env cwd == root)

theorem mem_writableEntries (hfull : policy.hasFullDiskWriteAccess = false) :
    path ∈ policy.writableEntries env cwd ↔
      Winning (policy.resolvedEntriesWithCwd env cwd) path.names .write := by
  unfold writableEntries
  simp only [mem_map, mem_filter, canWrite_asPath_iff hfull]
  constructor
  · rintro ⟨entry, ⟨⟨hentry, -⟩, hwrites⟩, rfl⟩
    exact (writes_iff_winning hentry).mp hwrites
  · intro hwinning
    have hentry := mem_of_winning hwinning
    exact ⟨_, ⟨⟨hentry, rfl⟩, (writes_iff_winning hentry).mpr hwinning⟩, rfl⟩

variable {rawRoots : List AbsolutePathBuf}

theorem carveout_eq (hraw : ∀ raw ∈ rawRoots, raw = root) (entry : ResolvedFileSystemEntry) :
    carveout env root rawRoots entry =
      if entry.path ≠ root ∧ root.names <+: entry.names then some entry.path else none := by
  have hnone : ¬ root.names <+: entry.path.names → rawRoots.findSome? (fun rawRoot =>
      (stripBase entry.path rawRoot).bind fun suffix =>
        if suffix = [] then none
        else some (AbsolutePathBuf.join env.home root (.relative suffix))) = none := by
    intro hbelow
    rw [findSome?_eq_none_iff]
    intro raw hmem
    rw [hraw raw hmem, stripBase, if_neg hbelow]
    rfl
  unfold carveout
  simp only [normalizeEffectiveAbsolutePath_eq, startsWith]
  change _ = if entry.path ≠ root ∧ root.names <+: entry.path.names then _ else _
  by_cases hroot : entry.path = root
  · simp [hroot]
  · by_cases hbelow : root.names <+: entry.path.names
    · by_cases hparent : root.parent.isSome = true <;> simp [hroot, hbelow, hparent]
    · by_cases hparent : root.parent.isSome = true <;> simp [hbelow, hnone]

/-- The roots a path is written under in the policy are the root itself. -/
theorem eq_of_mem_rawWritableRoots {raw : AbsolutePathBuf}
    (h : raw ∈ (policy.writableEntries env cwd).filter fun path =>
      normalizeEffectiveAbsolutePath env path == root) : raw = root := by
  rw [mem_filter, normalizeEffectiveAbsolutePath_eq] at h
  exact eq_of_beq h.2

variable (env) in
/-- An entry that does not grant writes, at a path where writes do not win. -/
theorem exists_denying_entry_iff :
    (∃ entry ∈ entries, entry.access.canWrite = false ∧ ¬ Writes env entries entry.path ∧
        entry.path = path) ↔
      HasEntry entries path ∧ ¬ Winning entries path.names .write := by
  constructor
  · rintro ⟨entry, hentry, -, hwrites, rfl⟩
    exact ⟨⟨entry, hentry, rfl⟩, fun h => hwrites ((writes_iff_winning hentry).mpr h)⟩
  · rintro ⟨⟨entry, hentry, rfl⟩, hnot⟩
    have hwinning : Winning entries entry.path.names _ := winning_accessAt hentry
    refine ⟨_, mem_of_winning hwinning, ?_, fun h => hnot ((writes_iff_winning hentry).mp h), rfl⟩
    cases haccess : accessAt entries entry.path with
    | write => exact absurd (haccess ▸ hwinning) hnot
    | read | none => rfl

variable (hfull : policy.hasFullDiskWriteAccess = false)
include hfull

theorem mem_carveouts (hraw : ∀ raw ∈ rawRoots, raw = root) :
    path ∈ (((policy.resolvedEntriesWithCwd env cwd).filter fun entry =>
        !entry.access.canWrite).filter fun entry =>
          !policy.canWritePathWithCwd env (asPath entry.path) cwd).filterMap
            (carveout env root rawRoots) ↔
      StrictlyBelow root path ∧ HasEntry (policy.resolvedEntriesWithCwd env cwd) path ∧
        ¬ Winning (policy.resolvedEntriesWithCwd env cwd) path.names .write := by
  have hcan : ∀ entry : ResolvedFileSystemEntry,
      policy.canWritePathWithCwd env (asPath entry.path) cwd = false ↔
        ¬ Writes env (policy.resolvedEntriesWithCwd env cwd) entry.path := by
    intro entry
    rw [← Bool.not_eq_true, canWrite_asPath_iff hfull]
  rw [← exists_denying_entry_iff env]
  simp only [mem_filterMap, mem_filter, carveout_eq hraw, Bool.not_eq_true', hcan]
  constructor
  · rintro ⟨entry, ⟨⟨hentry, haccess⟩, hwrites⟩, hpath⟩
    split at hpath
    · next hbelow =>
      cases hpath
      exact ⟨⟨hbelow.2, hbelow.1.symm⟩, entry, hentry, haccess, hwrites, rfl⟩
    · cases hpath
  · rintro ⟨hbelow, entry, hentry, haccess, hwrites, rfl⟩
    exact ⟨entry, ⟨⟨hentry, haccess⟩, hwrites⟩, if_pos ⟨hbelow.2.symm, hbelow.1⟩⟩

theorem mem_readOnlySubpaths :
    path ∈ (policy.writableRootAt env cwd root).readOnlySubpaths ↔
      ReadOnlyBelow (defaultProtections env cwd) (policy.resolvedEntriesWithCwd env cwd) root
        path := by
  have hdefault : hasExplicitResolvedPathEntry (policy.resolvedEntriesWithCwd env cwd) path =
      false ↔ ¬ HasEntry (policy.resolvedEntriesWithCwd env cwd) path := by
    simp [hasExplicitResolvedPathEntry, HasEntry]
  unfold writableRootAt
  rw [mem_dedupAbsolutePaths, mem_append, mem_filter, Bool.not_eq_true', hdefault,
    mem_carveouts hfull fun _ => eq_of_mem_rawWritableRoots]
  rfl

theorem mem_protectedMetadataNames {name : String} :
    name ∈ (policy.writableRootAt env cwd root).protectedMetadataNames ↔
      name ∈ protectedMetadataPathNames ∧
        ¬ Writes env (policy.resolvedEntriesWithCwd env cwd) ⟨root.names ++ [name]⟩ := by
  have hcan : policy.canWritePathWithCwd env (asPath ⟨root.names ++ [name]⟩) cwd = true ↔ _ :=
    canWrite_asPath_iff hfull
  unfold writableRootAt protectedMetadataNamesForWritableRoot
  rw [mem_filter]
  refine and_congr_right fun hname => ?_
  have hjoin : ∀ path ∈ root :: (policy.writableEntries env cwd).filter (fun path =>
      normalizeEffectiveAbsolutePath env path == root),
      joinName env path name = ⟨root.names ++ [name]⟩ := by
    intro path hpath
    have hroot : path = root := by
      rcases mem_cons.mp hpath with h | h
      · exact h
      · exact eq_of_mem_rawWritableRoots h
    rw [hroot, joinName_eq env root (ne_home_of_protected hname)]
  rw [map_congr_left hjoin, ← hcan, all_map, all_eq_true, Bool.not_eq_true]
  constructor
  · intro h
    exact Bool.not_eq_true' _ ▸ h root mem_cons_self
  · intro h path _
    exact Bool.not_eq_true' _ ▸ h

end Roots

theorem isPathWritable_iff (writable : WritableRoot) :
    writable.isPathWritable target = true ↔
      writable.root.names <+: target.names ∧
        (∀ path ∈ writable.readOnlySubpaths, ¬ path.names <+: target.names) ∧
        ∀ name ∈ writable.protectedMetadataNames,
          ¬ writable.root.names ++ [name] <+: target.names := by
  unfold WritableRoot.isPathWritable WritableRoot.pathContainsProtectedMetadataName stripBase
    startsWith
  by_cases habove : writable.root.names <+: target.names
  · obtain ⟨rest, hrest⟩ := id habove
    have hdrop : target.names.drop writable.root.names.length = rest := by
      rw [← hrest, drop_left]
    have hname : ∀ name, writable.root.names ++ [name] <+: target.names ↔
        rest.head? = some name := by
      intro name
      rw [← hrest, prefix_append_right_inj]
      cases rest <;> simp [eq_comm]
    simp only [habove, hdrop, hname]
    cases rest with
    | nil => simp
    | cons first rest =>
      by_cases hmem : first ∈ writable.protectedMetadataNames
      · simp [hmem]
      · have hne : ∀ name ∈ writable.protectedMetadataNames, first ≠ name := by
          rintro _ h rfl
          exact hmem h
        simp +contextual [hmem, hne]
  · simp [habove]

theorem strictlyBelow_of_concat {entry : ResolvedFileSystemEntry} {name : String}
    (h : entry.names = root.names ++ [name]) : StrictlyBelow root entry.path := by
  refine ⟨⟨[name], h.symm⟩, ?_⟩
  rintro rfl
  exact absurd (congrArg length h) (by simp [ResolvedFileSystemEntry.names])

/-- A root grants the target and nothing between them takes the grant back. -/
structure LeavesOpen (env : Environment) (entries : List ResolvedFileSystemEntry)
    (protections : AbsolutePathBuf → List AbsolutePathBuf) (root target : AbsolutePathBuf) :
    Prop where
  above : root.names <+: target.names
  granted : Winning entries root.names .write
  uncarved : ∀ entry ∈ entries, StrictlyBelow root entry.path → entry.names <+: target.names →
    Winning entries entry.names .write
  unprotected : ∀ path ∈ protections root, path.names <+: target.names → HasEntry entries path
  unguarded : ∀ name ∈ protectedMetadataPathNames, root.names ++ [name] <+: target.names →
    guardedName env entries ⟨root.names ++ [name]⟩ = none

theorem writes_name_iff {name : String} (hgranted : Winning entries root.names .write)
    (huncarved : ∀ entry ∈ entries, StrictlyBelow root entry.path →
      entry.names <+: target.names → Winning entries entry.names .write)
    (hname : root.names ++ [name] <+: target.names) :
    Writes env entries ⟨root.names ++ [name]⟩ ↔
      guardedName env entries ⟨root.names ++ [name]⟩ = none := by
  refine and_iff_right ?_
  by_cases hentry : ∃ entry ∈ entries, entry.names = root.names ++ [name]
  · obtain ⟨entry, hmem, hnames⟩ := hentry
    have hwinning := huncarved entry hmem (strictlyBelow_of_concat hnames) (hnames ▸ hname)
    rw [hnames] at hwinning
    have h : accessAt entries ⟨root.names ++ [name]⟩ = .write := accessAt_of_winning hwinning
    exact h
  · refine accessAt_eq ⟨⟨_, mem_of_winning hgranted, rfl⟩, prefix_append _ _, ?_⟩ hgranted
    intro entry hmem hupper
    rcases prefix_concat_iff.mp hupper with heq | hupper
    · exact absurd ⟨entry, hmem, heq⟩ hentry
    · exact hupper

theorem mem_getWritableRoots (hfull : policy.hasFullDiskWriteAccess = false)
    {writable : WritableRoot} :
    writable ∈ policy.getWritableRootsWithCwd env cwd ↔
      ∃ root : AbsolutePathBuf, Winning (policy.resolvedEntriesWithCwd env cwd) root.names .write ∧
        policy.writableRootAt env cwd root = writable := by
  unfold getWritableRootsWithCwd
  simp only [hfull, Bool.false_eq_true, if_false, mem_map, mem_dedupAbsolutePaths,
    mem_writableEntries hfull]

theorem exists_writable_root_iff (hfull : policy.hasFullDiskWriteAccess = false) :
    (∃ writable ∈ policy.getWritableRootsWithCwd env cwd, writable.isPathWritable target = true) ↔
      ∃ root, LeavesOpen env (policy.resolvedEntriesWithCwd env cwd)
        (defaultProtections env cwd) root target := by
  simp only [mem_getWritableRoots hfull]
  constructor
  · rintro ⟨_, ⟨root, hgranted, rfl⟩, hwritable⟩
    obtain ⟨habove, hreadOnly, hnames⟩ := (isPathWritable_iff _).mp hwritable
    have huncarved : ∀ entry ∈ policy.resolvedEntriesWithCwd env cwd,
        StrictlyBelow root entry.path → entry.names <+: target.names →
        Winning (policy.resolvedEntriesWithCwd env cwd) entry.names .write := by
      intro entry hentry hbelow hupper
      by_contra hnot
      exact hreadOnly entry.path ((mem_readOnlySubpaths hfull).mpr
        (.inr ⟨hbelow, ⟨entry, hentry, rfl⟩, hnot⟩)) hupper
    refine ⟨root, habove, hgranted, huncarved, ?_, ?_⟩
    · intro path hpath hupper
      by_contra hnot
      exact hreadOnly path ((mem_readOnlySubpaths hfull).mpr (.inl ⟨hpath, hnot⟩)) hupper
    · intro name hname hupper
      rw [← writes_name_iff hgranted huncarved hupper]
      by_contra hnot
      exact hnames name ((mem_protectedMetadataNames hfull).mpr ⟨hname, hnot⟩) hupper
  · rintro ⟨root, hopen⟩
    refine ⟨_, ⟨root, hopen.granted, rfl⟩, (isPathWritable_iff _).mpr ⟨hopen.above, ?_, ?_⟩⟩
    · intro path hpath hupper
      rcases (mem_readOnlySubpaths hfull).mp hpath with ⟨hprotected, hnot⟩ |
        ⟨hbelow, ⟨entry, hentry, rfl⟩, hnot⟩
      · exact hnot (hopen.unprotected path hprotected hupper)
      · exact hnot (hopen.uncarved entry hentry hbelow hupper)
    · intro name hname hupper
      obtain ⟨hprotected, hnot⟩ := (mem_protectedMetadataNames hfull).mp hname
      apply hnot
      rw [writes_name_iff hopen.granted hopen.uncarved hupper]
      exact hopen.unguarded name hprotected hupper

section Agreement
variable {protections : AbsolutePathBuf → List AbsolutePathBuf}

/-- What a root leaves open is granted by the most specific entry. -/
theorem LeavesOpen.accessAt_eq_write (h : LeavesOpen env entries protections root target) :
    accessAt entries target = .write := by
  have hrooted := mem_of_winning h.granted
  rcases accessAt_cases entries target with ⟨names, hdecided, hwinning⟩ | ⟨hnone, -⟩
  · refine accessAt_eq hdecided ?_
    obtain ⟨⟨entry, hentry, rfl⟩, hupper, hlongest⟩ := hdecided
    by_cases hroot : entry.path = root
    · have hentryNames : entry.names = root.names := congrArg AbsolutePathBuf.names hroot
      rw [hentryNames]
      exact h.granted
    · exact h.uncarved entry hentry ⟨hlongest _ hrooted h.above, Ne.symm hroot⟩ hupper
  · exact absurd h.above (hnone _ hrooted)

variable {decided : AbsolutePathBuf}

variable (hdecided : DecidedAt entries decided.names target)
include hdecided

theorem not_hasEntry_of_below (hbelow : StrictlyBelow decided path)
    (hpath : path.names <+: target.names) : ¬ HasEntry entries path := by
  rintro ⟨entry, hentry, rfl⟩
  exact hbelow.2 (eq_of_names (prefix_antisymm hbelow.1 (hdecided.2.2 entry hentry hpath)))

/-- Below the deciding path the guarded name does not change. -/
theorem guardedName_between {name : String} (hname : decided.names ++ [name] <+: path.names)
    (hpath : path.names <+: target.names) :
    guardedName env entries path = guardedName env entries target := by
  have hupper : ∀ entry ∈ entries, (entry.names <+: path.names ↔ entry.names <+: target.names) := by
    intro entry hentry
    refine ⟨fun h => h.trans hpath, fun h => ?_⟩
    exact (hdecided.2.2 entry hentry h).trans ((prefix_append _ _).trans hname)
  have hchild : ∀ entry ∈ entries,
      metadataChild env path entry = metadataChild env target entry := by
    intro entry hentry
    refine Option.ext fun child => ?_
    rw [metadataChild_eq_some, metadataChild_eq_some]
    refine and_congr_right fun _ => and_congr_left fun _ => ⟨fun h => h.trans hpath, fun h => ?_⟩
    have habove := hdecided.2.2 entry hentry ((prefix_append _ _).trans h)
    refine prefix_of_prefix_length_le h hpath ?_
    have hlength := habove.length_le
    have hlength' := hname.length_le
    simp only [length_append, length_singleton] at hlength' ⊢
    omega
  have hexcepts : ∀ directory,
      Excepts entries path directory ↔ Excepts entries target directory := by
    intro directory
    refine exists_congr fun entry => and_congr_right fun hentry => ?_
    rw [hupper entry hentry]
  have hfilter : ((entries.filter (·.access.canWrite)).filterMap (metadataChild env path)) =
      (entries.filter (·.access.canWrite)).filterMap (metadataChild env target) :=
    filterMap_congr fun entry hentry => hchild entry (mem_filter.mp hentry).1
  unfold guardedName
  simp only [hfilter, hexcepts]

/-- A guarded target has a guarded directory below the path that decides about it. -/
theorem exists_guarded_child (hwinning : Winning entries decided.names .write)
    (hguarded : guardedName env entries target ≠ none) :
    ∃ name ∈ protectedMetadataPathNames, decided.names ++ [name] <+: target.names ∧
      guardedName env entries ⟨decided.names ++ [name]⟩ ≠ none := by
  rcases guardedName_cases env entries target with
    ⟨hnone, -⟩ | ⟨guard, hguard, name, hguards, hfirst⟩
  · exact absurd hnone hguarded
  · have habove : guard.names <+: decided.names :=
      hdecided.2.2 guard hguard ((prefix_append _ _).trans hguards.2.2)
    have hnot : ¬ guard.names ++ [name] <+: decided.names := fun h =>
      hguarded (hfirst.trans (if_pos ⟨_, mem_of_winning hwinning, rfl, hdecided.2.1, h⟩))
    have hsame : guard.names = decided.names := by
      by_contra hne
      refine hnot (concat_prefix_of_length_lt hguards.2.2 hdecided.2.1 ?_)
      exact lt_of_le_of_ne habove.length_le fun h => hne (habove.eq_of_length h)
    have hupper := hsame ▸ hguards.2.2
    refine ⟨name, hguards.2.1, hupper, fun hnone => hguarded ?_⟩
    exact (guardedName_between hdecided prefix_rfl hupper).symm.trans hnone

theorem LeavesOpen.above_decided (h : LeavesOpen env entries protections root target) :
    root.names <+: decided.names :=
  hdecided.2.2 _ (mem_of_winning h.granted) h.above

/-- The deciding root itself does not leave open what is guarded. -/
theorem LeavesOpen.strictlyBelow_decided (h : LeavesOpen env entries protections root target)
    (hguarded : guardedName env entries target ≠ none) : StrictlyBelow root decided := by
  refine ⟨h.above_decided hdecided, ?_⟩
  rintro rfl
  obtain ⟨name, hprotected, hupper, hchild⟩ := exists_guarded_child hdecided h.granted hguarded
  exact hchild (h.unguarded name hprotected hupper)

/-- The deciding root leaves open what is not guarded, up to its default protections. -/
theorem leavesOpen_decided
    (hwinning : Winning entries decided.names .write)
    (hguarded : guardedName env entries target = none)
    (hprotected : ∀ path ∈ protections decided, path.names <+: target.names →
      HasEntry entries path) :
    LeavesOpen env entries protections decided target where
  above := hdecided.2.1
  granted := hwinning
  uncarved entry hentry hbelow hupper :=
    absurd ⟨entry, hentry, rfl⟩ (not_hasEntry_of_below hdecided hbelow hupper)
  unprotected := hprotected
  unguarded _ _ hupper := (guardedName_between hdecided prefix_rfl hupper).trans hguarded

omit hdecided

/-- Where the root of the most specific entry and the roots around it agree with the check:
a guarded path is left open by no outer root, and a path that only a default protection
keeps read-only is left open by some outer root. -/
def RootsAgree (env : Environment) (entries : List ResolvedFileSystemEntry)
    (protections : AbsolutePathBuf → List AbsolutePathBuf) (target : AbsolutePathBuf) : Prop :=
  ∀ decided : AbsolutePathBuf, DecidedAt entries decided.names target →
    Winning entries decided.names .write →
      (guardedName env entries target ≠ none → ∀ root, StrictlyBelow root decided →
        ¬ LeavesOpen env entries protections root target) ∧
      (guardedName env entries target = none →
        (∃ path ∈ protections decided, path.names <+: target.names ∧ ¬ HasEntry entries path) →
          ∃ root, StrictlyBelow root decided ∧ LeavesOpen env entries protections root target)

theorem writes_iff_leavesOpen_iff :
    (Writes env entries target ↔ ∃ root, LeavesOpen env entries protections root target) ↔
      RootsAgree env entries protections target := by
  constructor
  · intro hiff decided hdecided hwinning
    refine ⟨fun hguarded root _ hopen => hguarded (hiff.mpr ⟨root, hopen⟩).2, ?_⟩
    rintro hguarded ⟨path, hpath, hupper, hnot⟩
    obtain ⟨root, hopen⟩ := hiff.mp ⟨accessAt_eq hdecided hwinning, hguarded⟩
    refine ⟨root, ⟨hopen.above_decided hdecided, ?_⟩, hopen⟩
    rintro rfl
    exact hnot (hopen.unprotected path hpath hupper)
  · intro hagree
    constructor
    · rintro ⟨haccess, hguarded⟩
      obtain ⟨names, hdecided, hwinning⟩ := accessAt_eq_write_iff.mp haccess
      by_cases hprotected : ∃ path ∈ protections ⟨names⟩, path.names <+: target.names ∧
          ¬ HasEntry entries path
      · obtain ⟨root, -, hopen⟩ := (hagree ⟨names⟩ hdecided hwinning).2 hguarded hprotected
        exact ⟨root, hopen⟩
      · refine ⟨⟨names⟩, leavesOpen_decided hdecided hwinning hguarded ?_⟩
        intro path hpath hupper
        by_contra hnot
        exact hprotected ⟨path, hpath, hupper, hnot⟩
    · rintro ⟨root, hopen⟩
      refine ⟨hopen.accessAt_eq_write, ?_⟩
      by_contra hguarded
      obtain ⟨names, hdecided, hwinning⟩ := accessAt_eq_write_iff.mp hopen.accessAt_eq_write
      exact (hagree ⟨names⟩ hdecided hwinning).1 hguarded root
        (hopen.strictlyBelow_decided hdecided hguarded) hopen

/-- The roots say what the check says, exactly where the roots agree. -/
theorem writable_roots_agree_iff (_hkind : policy.kind = .restricted)
    (hfull : policy.hasFullDiskWriteAccess = false) :
    (policy.canWritePathWithCwd env (asPath target) cwd = true ↔
        ∃ writable ∈ policy.getWritableRootsWithCwd env cwd,
          writable.isPathWritable target = true) ↔
      RootsAgree env (policy.resolvedEntriesWithCwd env cwd) (defaultProtections env cwd)
        target := by
  rw [canWrite_asPath_iff hfull, exists_writable_root_iff hfull]
  exact writes_iff_leavesOpen_iff

def emptyDisk : Environment := ⟨none, none, none, fun _ => none⟩

def workspacePolicy : FileSystemSandboxPolicy :=
  .restricted [⟨.special .root, .read⟩, ⟨.special (.projectRoots none), .write⟩]

/-- One root and a path that nothing protects. -/
theorem workspacePolicy_roots_agree :
    workspacePolicy.canWritePathWithCwd emptyDisk (asPath ⟨["w", "src"]⟩) (asPath ⟨["w"]⟩) = true ↔
      ∃ writable ∈ workspacePolicy.getWritableRootsWithCwd emptyDisk (asPath ⟨["w"]⟩),
        writable.isPathWritable ⟨["w", "src"]⟩ = true := by
  refine (writable_roots_agree_iff rfl (by decide)).mpr ?_
  rintro decided - ⟨⟨entry, hentry, hnames, hwrite⟩, -⟩
  have hdecided : decided = ⟨["w"]⟩ := by
    refine eq_of_names ?_
    rcases mem_pair.mp hentry with rfl | rfl
    · cases hwrite
    · exact hnames.symm
  subst hdecided
  refine ⟨fun h => absurd (by decide) h, ?_⟩
  rintro - ⟨path, hpath, hupper, -⟩
  have hnone : ∀ path ∈ defaultProtections emptyDisk (asPath ⟨["w"]⟩) ⟨["w"]⟩,
      ¬ path.names <+: ["w", "src"] := by decide
  exact absurd hupper (hnone path hpath)

/-- A working tree whose `.git` file points into the tree. -/
def pointerDisk : Environment where
  home := none
  currentDir := none
  tmpdir := none
  files path :=
    if path = ⟨["w", ".git"]⟩ then some (.file (some "gitdir: real\n"))
    else if path = ⟨["w", "real"]⟩ then some .directory
    else none

/-- The root around a nested root leaves the metadata of the inner one open, which the check
denies; and the directory a `.git` file points to is read-only below the root, but not for
the check. -/
theorem nested_root_grants_metadata :
    let nested := restricted [⟨.path ⟨["a"]⟩, .write⟩, ⟨.path ⟨["a", "b"]⟩, .write⟩]
    nested.canWritePathWithCwd emptyDisk (asPath ⟨["a", "b", ".git"]⟩) (asPath ⟨["a"]⟩) = false ∧
      ((nested.getWritableRootsWithCwd emptyDisk (asPath ⟨["a"]⟩)).any
        (·.isPathWritable ⟨["a", "b", ".git"]⟩)) = true ∧
      workspacePolicy.canWritePathWithCwd pointerDisk (asPath ⟨["w", "real"]⟩) (asPath ⟨["w"]⟩) =
        true ∧
      ((workspacePolicy.getWritableRootsWithCwd pointerDisk (asPath ⟨["w"]⟩)).any
        (·.isPathWritable ⟨["w", "real"]⟩)) = false := by
  decide +kernel

end Agreement

end DeepseekX.SandboxPolicies
