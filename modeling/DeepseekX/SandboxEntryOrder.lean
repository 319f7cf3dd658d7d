import DeepseekX.SandboxDecisions

/-!
# The order of the entries of a policy

The access to a path does not depend on the order of the entries. The metadata rule does:
it looks at the first write entry that guards a metadata directory above the path. When two
entries guard the path and nothing excepts it from the directory of the deeper one, the
write is denied if that entry comes first, and granted if the other does.
-/

namespace DeepseekX.SandboxPolicies
open AbsolutePaths LongestPrefix FileSystemSandboxPolicy List

variable {env : Environment} {policy : FileSystemSandboxPolicy} {path cwd : PathBuf}
  {target : AbsolutePathBuf} {entries entries' : List ResolvedFileSystemEntry}
  {reordered : List FileSystemSandboxEntry}

/-- Two write entries guard the target, and nothing excepts it from the metadata directory
of one of them. -/
def Contested (entries : List ResolvedFileSystemEntry) (target : AbsolutePathBuf) : Prop :=
  ∃ entry ∈ entries, ∃ other ∈ entries, ∃ name ∈ protectedMetadataPathNames,
    ∃ name' ∈ protectedMetadataPathNames, Guards target entry name ∧ Guards target other name' ∧
      entry.path ≠ other.path ∧ ¬ Excepts entries target (entry.names ++ [name])

instance (entries : List ResolvedFileSystemEntry) (target : AbsolutePathBuf) :
    Decidable (Contested entries target) :=
  inferInstanceAs (Decidable (∃ entry ∈ entries, ∃ other ∈ entries,
    ∃ name ∈ protectedMetadataPathNames, ∃ name' ∈ protectedMetadataPathNames, _))

theorem mem_resolvedEntries_perm (h : reordered.Perm policy.entries)
    (entry : ResolvedFileSystemEntry) :
    entry ∈ policy.resolvedEntriesWithCwd env cwd ↔
      entry ∈ resolvedEntriesWithCwd env ⟨policy.kind, reordered⟩ cwd :=
  (h.filterMap _).symm.mem_iff

theorem hasFullDiskWriteAccess_perm (h : reordered.Perm policy.entries) :
    hasFullDiskWriteAccess ⟨policy.kind, reordered⟩ = policy.hasFullDiskWriteAccess := by
  have hnarrows : ∀ entry, narrowsWrites ⟨policy.kind, reordered⟩ entry =
      policy.narrowsWrites entry := by
    intro entry
    unfold narrowsWrites hasSameTargetWriteOverride
    rw [h.any_eq]
  unfold hasFullDiskWriteAccess hasRootAccess hasWriteNarrowingEntries
  rw [h.any_eq, funext hnarrows, h.any_eq]

/-- Every resolved entry can be made the first one. -/
theorem exists_reordered_first {entry : ResolvedFileSystemEntry}
    (hentry : entry ∈ policy.resolvedEntriesWithCwd env cwd) :
    ∃ reordered rest, reordered.Perm policy.entries ∧
      resolvedEntriesWithCwd env ⟨policy.kind, reordered⟩ cwd = entry :: rest := by
  obtain ⟨raw, hraw, hresolved⟩ := mem_filterMap.mp hentry
  exact ⟨raw :: policy.entries.erase raw,
    resolvedEntriesWithCwd env ⟨policy.kind, policy.entries.erase raw⟩ cwd,
    (perm_cons_erase hraw).symm, filterMap_cons_some hresolved⟩

section Guarded

theorem excepts_congr (h : ∀ entry, entry ∈ entries ↔ entry ∈ entries') {directory : List String} :
    Excepts entries target directory ↔ Excepts entries' target directory := by
  simp only [Excepts, h]

variable {entry : ResolvedFileSystemEntry} {name : String}

theorem Guards.name_unique {other : ResolvedFileSystemEntry} {name' : String}
    (h : Guards target entry name) (h' : Guards target other name')
    (hpath : entry.path = other.path) : name = name' := by
  have hnames : entry.names = other.names := congrArg AbsolutePathBuf.names hpath
  have hsame := prefix_of_prefix_length_le h.2.2 h'.2.2 (by simp [hnames])
  rw [hnames] at hsame
  exact singleton_inj.mp (append_cancel_left (hsame.eq_of_length (by simp)))

theorem guardedName_cons {rest : List ResolvedFileSystemEntry} (h : Guards target entry name) :
    guardedName env (entry :: rest) target =
      if Excepts (entry :: rest) target (entry.names ++ [name]) then none else some name := by
  unfold guardedName
  rw [filter_cons_of_pos (by rw [h.1]; rfl),
    filterMap_cons_some (metadataChild_eq_some.mpr ⟨h.2.1, h.2.2, rfl⟩)]
  rfl

/-- Without a contest, every order has the same guarded name. -/
theorem guardedName_congr (h : ∀ entry, entry ∈ entries ↔ entry ∈ entries')
    (hcontested : ¬ Contested entries target) :
    guardedName env entries target = guardedName env entries' target := by
  have hexcepts : ∀ entry ∈ entries, ∀ other ∈ entries, ∀ name name', Guards target entry name →
      Guards target other name' → entry.path ≠ other.path →
      Excepts entries target (entry.names ++ [name]) := by
    intro entry hentry other hother name name' hguards hguards' hne
    by_contra hnot
    exact hcontested ⟨entry, hentry, other, hother, name, hguards.2.1, name', hguards'.2.1,
      hguards, hguards', hne, hnot⟩
  rcases guardedName_cases env entries target with
    ⟨hnone, hno⟩ | ⟨entry, hentry, name, hguards, hfirst⟩
  · rcases guardedName_cases env entries' target with
      ⟨hnone', -⟩ | ⟨other, hother, name', hguards', -⟩
    · rw [hnone, hnone']
    · exact absurd hguards' (hno other ((h other).mpr hother) name')
  · rcases guardedName_cases env entries' target with
      ⟨-, hno'⟩ | ⟨other, hother, name', hguards', hfirst'⟩
    · exact absurd hguards (hno' entry ((h entry).mp hentry) name)
    · rw [hfirst, hfirst']
      by_cases hpath : entry.path = other.path
      · obtain rfl := hguards.name_unique hguards' hpath
        have hnames : entry.names = other.names := congrArg AbsolutePathBuf.names hpath
        rw [hnames]
        simp only [excepts_congr h]
      · have hother' := (h other).mpr hother
        rw [if_pos (hexcepts entry hentry other hother' name name' hguards hguards' hpath),
          if_pos ((excepts_congr h).mp (hexcepts other hother' entry hentry name' name hguards'
            hguards (Ne.symm hpath)))]

/-- In a contest, the order decides whether there is a guarded name. -/
theorem exists_orders_of_contested (h : Contested (policy.resolvedEntriesWithCwd env cwd) target) :
    (∃ reordered, reordered.Perm policy.entries ∧ guardedName env
        (resolvedEntriesWithCwd env ⟨policy.kind, reordered⟩ cwd) target = none) ∧
      ∃ reordered name, reordered.Perm policy.entries ∧ guardedName env
        (resolvedEntriesWithCwd env ⟨policy.kind, reordered⟩ cwd) target = some name := by
  obtain ⟨entry, hentry, other, hother, name, -, name', -, hguards, hguards', hne, hnot⟩ := h
  have hexcepts : ∀ {reordered : List FileSystemSandboxEntry} {directory : List String},
      reordered.Perm policy.entries →
      (Excepts (policy.resolvedEntriesWithCwd env cwd) target directory ↔
        Excepts (resolvedEntriesWithCwd env ⟨policy.kind, reordered⟩ cwd) target directory) :=
    fun hperm => excepts_congr (mem_resolvedEntries_perm hperm)
  constructor
  · obtain ⟨reordered, rest, hperm, hfirst⟩ := exists_reordered_first hother
    refine ⟨reordered, hperm, ?_⟩
    have hlength : other.names.length < entry.names.length := by
      have hupper : entry.names <+: target.names := (prefix_append _ _).trans hguards.2.2
      have hupper' : other.names <+: target.names := (prefix_append _ _).trans hguards'.2.2
      rcases Nat.lt_trichotomy other.names.length entry.names.length with hlt | heq | hgt
      · exact hlt
      · have hnames : other.names = entry.names :=
          (prefix_of_prefix_length_le hupper' hupper heq.le).eq_of_length heq
        exact absurd (eq_of_names hnames) hne.symm
      · exact absurd (excepts_of_deeper hguards hother hguards' hgt) hnot
    have hexcepted := (hexcepts hperm).mp (excepts_of_deeper hguards' hentry hguards hlength)
    rw [hfirst] at hexcepted ⊢
    rw [guardedName_cons hguards', if_pos hexcepted]
  · obtain ⟨reordered, rest, hperm, hfirst⟩ := exists_reordered_first hentry
    refine ⟨reordered, name, hperm, ?_⟩
    have hnot' := fun h => hnot ((hexcepts hperm).mpr h)
    rw [hfirst] at hnot' ⊢
    rw [guardedName_cons hguards, if_neg hnot']

end Guarded

def SameAnswers (env : Environment) (path cwd : PathBuf)
    (policy policy' : FileSystemSandboxPolicy) : Prop :=
  policy.resolveAccessWithCwd env path cwd = policy'.resolveAccessWithCwd env path cwd ∧
    policy.canReadPathWithCwd env path cwd = policy'.canReadPathWithCwd env path cwd ∧
    policy.canWritePathWithCwd env path cwd = policy'.canWritePathWithCwd env path cwd ∧
    forbiddenAgentMetadataWrite env path cwd policy =
      forbiddenAgentMetadataWrite env path cwd policy'

/-- The entries let the target be written, whatever the metadata rule says. -/
def WritableEverywhere (env : Environment) (policy : FileSystemSandboxPolicy) (cwd : PathBuf)
    (target : AbsolutePathBuf) : Prop :=
  policy.hasFullDiskWriteAccess = true ∧
    ∃ names, DecidedAt (policy.resolvedEntriesWithCwd env cwd) names target ∧
      Winning (policy.resolvedEntriesWithCwd env cwd) names .write

theorem sameAnswers_of_candidate_none (hkind : policy.kind = .restricted)
    (htarget : resolveCandidatePath env path cwd = none) :
    SameAnswers env path cwd policy ⟨policy.kind, reordered⟩ := by
  have haccess : ∀ policy : FileSystemSandboxPolicy, policy.kind = .restricted →
      policy.resolveAccessWithCwd env path cwd = .none := by
    intro policy hkind
    unfold resolveAccessWithCwd
    rw [hkind, htarget]
  have haccess' := haccess ⟨policy.kind, reordered⟩ hkind
  unfold SameAnswers canReadPathWithCwd canWritePathWithCwd forbiddenAgentMetadataWrite
  rw [haccess policy hkind, haccess', htarget]
  simp [FileSystemAccessMode.canWrite]

section Answers
variable (hkind : policy.kind = .restricted) (hperm : reordered.Perm policy.entries)
  (htarget : resolveCandidatePath env path cwd = some target)
include hkind hperm htarget

section
variable (h : WritableEverywhere env policy cwd target ∨
  guardedName env (policy.resolvedEntriesWithCwd env cwd) target =
    guardedName env (resolvedEntriesWithCwd env ⟨policy.kind, reordered⟩ cwd) target)
include h

theorem canWrite_eq_of_guardedName :
    policy.canWritePathWithCwd env path cwd =
      canWritePathWithCwd env ⟨policy.kind, reordered⟩ path cwd := by
  have hkind' : (mk policy.kind reordered).kind = .restricted := hkind
  rw [Bool.eq_iff_iff, canWritePath_iff hkind htarget, canWritePath_iff hkind' htarget,
    hasFullDiskWriteAccess_perm hperm, accessAt_congr (mem_resolvedEntries_perm hperm)]
  rcases h with ⟨hfull, -⟩ | h
  · simp [hfull]
  · rw [h]

theorem sameAnswers_of_guardedName :
    SameAnswers env path cwd policy ⟨policy.kind, reordered⟩ := by
  have hkind' : (mk policy.kind reordered).kind = .restricted := hkind
  have haccess : policy.resolveAccessWithCwd env path cwd =
      resolveAccessWithCwd env ⟨policy.kind, reordered⟩ path cwd := by
    rw [resolveAccess_eq hkind htarget, resolveAccess_eq hkind' htarget,
      accessAt_congr (mem_resolvedEntries_perm hperm)]
  have hasPath := resolveCandidatePath_asPath env target cwd
  have hwrite := canWrite_eq_of_guardedName hkind hperm hasPath h
  refine ⟨haccess, ?_, canWrite_eq_of_guardedName hkind hperm htarget h, ?_⟩
  · unfold canReadPathWithCwd
    rw [haccess]
  · rw [forbiddenAgentMetadataWrite_eq hkind htarget, forbiddenAgentMetadataWrite_eq hkind' htarget,
      ← hwrite]
    rcases h with ⟨hfull, hnames⟩ | h
    · have hcan := (canWritePath_iff hkind hasPath).mpr
        ⟨accessAt_eq_write_iff.mpr hnames, .inl hfull⟩
      rw [if_pos hcan, if_pos hcan]
    · rw [h]

end

/-- The name that is guarded is forbidden, unless the path is writable everywhere. -/
theorem forbidden_of_guardedName {name : String}
    (heverywhere : ¬ WritableEverywhere env policy cwd target)
    (hname : guardedName env (resolvedEntriesWithCwd env ⟨policy.kind, reordered⟩ cwd) target =
      some name) :
    forbiddenAgentMetadataWrite env path cwd ⟨policy.kind, reordered⟩ = some name := by
  have hkind' : (mk policy.kind reordered).kind = .restricted := hkind
  have hasPath := resolveCandidatePath_asPath env target cwd
  rw [forbiddenAgentMetadataWrite_eq hkind' htarget, if_neg, hname]
  rw [canWritePath_iff hkind' hasPath, hasFullDiskWriteAccess_perm hperm,
    ← accessAt_congr (mem_resolvedEntries_perm hperm), hname]
  rintro ⟨haccess, hfull | hnone⟩
  · exact heverywhere ⟨hfull, accessAt_eq_write_iff.mp haccess⟩
  · cases hnone

end Answers

/-- No order of the entries changes an answer, exactly when the path is not contested or
writable everywhere. -/
theorem entry_order_irrelevant_iff (hkind : policy.kind = .restricted) :
    (∀ reordered : List FileSystemSandboxEntry, reordered.Perm policy.entries →
        SameAnswers env path cwd policy ⟨policy.kind, reordered⟩) ↔
      ∀ target ∈ resolveCandidatePath env path cwd,
        ¬ Contested (policy.resolvedEntriesWithCwd env cwd) target ∨
          WritableEverywhere env policy cwd target := by
  constructor
  · intro h target htarget
    rw [or_iff_not_imp_right]
    intro heverywhere hcontested
    obtain ⟨⟨orderly, hperm, hnone⟩, reordered, name, hperm', hname⟩ :=
      exists_orders_of_contested hcontested
    have hkind' : (mk policy.kind orderly).kind = .restricted := hkind
    have hsame : forbiddenAgentMetadataWrite env path cwd ⟨policy.kind, orderly⟩ =
        forbiddenAgentMetadataWrite env path cwd ⟨policy.kind, reordered⟩ :=
      (h orderly hperm).2.2.2.symm.trans (h reordered hperm').2.2.2
    rw [forbidden_of_guardedName hkind hperm' htarget heverywhere hname,
      forbiddenAgentMetadataWrite_eq hkind' htarget, hnone, ite_self] at hsame
    cases hsame
  · intro h reordered hperm
    cases htarget : resolveCandidatePath env path cwd with
    | none => exact sameAnswers_of_candidate_none hkind htarget
    | some target =>
      refine sameAnswers_of_guardedName hkind hperm htarget ?_
      exact (h target htarget).symm.imp_right fun hcontested =>
        guardedName_congr (mem_resolvedEntries_perm hperm) hcontested

/-- No home, no `TMPDIR` and no files. -/
def bareEnvironment : Environment := ⟨none, some ⟨[]⟩, none, fun _ => none⟩

def grant (names : List String) (access : FileSystemAccessMode) : FileSystemSandboxEntry :=
  ⟨.path ⟨names⟩, access⟩

def carvedPolicy : FileSystemSandboxPolicy :=
  .restricted [grant ["a"] .write, grant ["a", "private"] .read]

/-- One write entry is in nobody's way. -/
theorem carvedPolicy_order_irrelevant :
    SameAnswers bareEnvironment (asPath ⟨["a", ".git", "config"]⟩) (asPath ⟨["a"]⟩) carvedPolicy
      ⟨.restricted, [grant ["a", "private"] .read, grant ["a"] .write]⟩ := by
  have hkind : carvedPolicy.kind = .restricted := rfl
  refine (entry_order_irrelevant_iff hkind).mpr ?_ _ (List.Perm.swap _ _ _)
  intro target htarget
  rw [resolveCandidatePath_asPath, Option.mem_some_iff] at htarget
  subst htarget
  exact .inl (by decide)

/-- A writable directory inside of the metadata of another: with the outer entry first its
own metadata can be written, with the inner one first it cannot. -/
theorem nested_metadata_order_matters :
    let outer := grant ["a"] .write
    let inner := grant ["a", ".git", "x"] .write
    let path := asPath ⟨["a", ".git", "x", ".codex", "y"]⟩
    let cwd := asPath ⟨["a"]⟩
    canWritePathWithCwd bareEnvironment (.restricted [outer, inner]) path cwd = true ∧
      canWritePathWithCwd bareEnvironment (.restricted [inner, outer]) path cwd = false ∧
      forbiddenAgentMetadataWrite bareEnvironment path cwd (.restricted [outer, inner]) = none ∧
      forbiddenAgentMetadataWrite bareEnvironment path cwd (.restricted [inner, outer]) =
        some ".codex" := by
  decide

end DeepseekX.SandboxPolicies
