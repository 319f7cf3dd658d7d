import DeepseekX.ApplyPatchHunks

/-!
# Verifying a patch before it is applied

`verify_apply_patch_args` computes, for each hunk, the change it would make to the
file system as it stands, and collects the changes in a map from source path to
change. A later hunk on the same source path replaces the entry of an earlier one.
The unified diff of an entry comes from the `similar` crate and is a parameter.
-/

namespace DeepseekX.ApplyPatchVerification
open AbsolutePaths ExecutorFileSystems PatchReplacements ApplyPatchHunks

/-- The parsed patch and the directory of an optional `cd`. -/
structure ApplyPatchArgs where
  patch : String
  hunks : List Hunk
  workdir : Option PathBuf
  deriving DecidableEq, Repr

inductive ApplyPatchFileChange where
  | add (content : String)
  | delete (content : String)
  | update (unifiedDiff : String) (movePath : Option AbsolutePathBuf) (newContent : String)
  deriving DecidableEq, Repr

def ApplyPatchFileChange.movePath : ApplyPatchFileChange → Option AbsolutePathBuf
  | update _ movePath _ => movePath
  | _ => none

abbrev Changes := AList (fun _ : AbsolutePathBuf => ApplyPatchFileChange)

structure ApplyPatchAction where
  changes : Changes
  patch : String
  cwd : AbsolutePathBuf

inductive MaybeApplyPatchVerified where
  | body (action : ApplyPatchAction)
  | correctnessError (error : ApplyPatchError)

/-- `TextDiff::from_lines(..).unified_diff()` with the given context radius. -/
abbrev TextDiff := ℕ → String → String → String

variable {σ : Type}

def destPath (home : Option PathBuf) (cwd : AbsolutePathBuf) : Hunk → Option AbsolutePathBuf
  | .updateFile _ movePath _ => movePath.map (AbsolutePathBuf.join home cwd)
  | _ => none

structure ApplyPatchFileUpdate where
  unifiedDiff : String
  originalContent : String
  content : String
  deriving DecidableEq, Repr

variable (fs : ExecutorFileSystem σ) (diff : TextDiff)

def unifiedDiffFromChunks (path : AbsolutePathBuf) (chunks : List UpdateFileChunk) (s : σ) :
    Except ApplyPatchError ApplyPatchFileUpdate × σ :=
  match deriveNewContentsFromChunks fs path chunks s with
  | (.error e, s) => (.error e, s)
  | (.ok patch, s) =>
    (.ok ⟨diff 1 patch.originalContents patch.newContents, patch.originalContents,
      patch.newContents⟩, s)

def verifyHunk (home : Option PathBuf) (effectiveCwd : AbsolutePathBuf) (hunk : Hunk) (s : σ) :
    Except ApplyPatchError ApplyPatchFileChange × σ :=
  let path := hunk.resolvePath home effectiveCwd
  match hunk with
  | .addFile _ contents => (.ok (.add contents), s)
  | .deleteFile _ =>
    match fs.readFileText path s with
    | (.ok content, s) => (.ok (.delete content), s)
    | (.error e, s) => (.error (.ioError ("Failed to read " ++ path.display) e), s)
  | .updateFile _ _ chunks =>
    match unifiedDiffFromChunks fs diff path chunks s with
    | (.ok u, s) => (.ok (.update u.unifiedDiff (destPath home effectiveCwd hunk) u.content), s)
    | (.error e, s) => (.error e, s)

def verifyHunks (fs : ExecutorFileSystem σ) (diff : TextDiff) (home : Option PathBuf)
    (effectiveCwd : AbsolutePathBuf) :
    List Hunk → Changes → σ → Except ApplyPatchError Changes × σ
  | [], changes, s => (.ok changes, s)
  | hunk :: hunks, changes, s =>
    match verifyHunk fs diff home effectiveCwd hunk s with
    | (.error e, s) => (.error e, s)
    | (.ok change, s) =>
      verifyHunks fs diff home effectiveCwd hunks
        (changes.insert (hunk.resolvePath home effectiveCwd) change) s

def effectiveCwd (home : Option PathBuf) (args : ApplyPatchArgs) (cwd : AbsolutePathBuf) :
    AbsolutePathBuf :=
  (args.workdir.map (AbsolutePathBuf.join home cwd)).getD cwd

def verifyApplyPatchArgs (home : Option PathBuf) (args : ApplyPatchArgs) (cwd : AbsolutePathBuf)
    (s : σ) : MaybeApplyPatchVerified × σ :=
  let effectiveCwd := effectiveCwd home args cwd
  match verifyHunks fs diff home effectiveCwd args.hunks ∅ s with
  | (.ok changes, s) => (.body ⟨changes, args.patch, effectiveCwd⟩, s)
  | (.error e, s) => (.correctnessError e, s)

def lastHunkFor (home : Option PathBuf) (cwd path : AbsolutePathBuf) : List Hunk → Option Hunk
  | [] => none
  | hunk :: hunks => (lastHunkFor home cwd path hunks).or
      (if hunk.resolvePath home cwd = path then some hunk else none)

section Spec
variable {fs : ExecutorFileSystem σ} {diff : TextDiff} {home : Option PathBuf}
  {cwd : AbsolutePathBuf}
variable {hunks : List Hunk} {hunk : Hunk}

theorem lastHunkFor_eq_find? (path : AbsolutePathBuf) :
    lastHunkFor home cwd path hunks = hunks.reverse.find? (·.resolvePath home cwd = path) := by
  induction hunks with
  | nil => rfl
  | cons first hunks ih =>
    rw [lastHunkFor, ih, List.reverse_cons, List.find?_append, List.find?_singleton]
    simp

theorem lastHunkFor_some {path : AbsolutePathBuf}
    (h : lastHunkFor home cwd path hunks = some hunk) :
    hunk ∈ hunks ∧ hunk.resolvePath home cwd = path := by
  rw [lastHunkFor_eq_find?] at h
  exact ⟨List.mem_reverse.mp (List.mem_of_find?_eq_some h), by simpa using List.find?_some h⟩

theorem lastHunkFor_isSome (h : hunk ∈ hunks) :
    (lastHunkFor home cwd (hunk.resolvePath home cwd) hunks).isSome := by
  rw [lastHunkFor_eq_find?, List.find?_isSome]
  exact ⟨hunk, List.mem_reverse.mpr h, decide_eq_true rfl⟩

variable {R : Hunk → ApplyPatchFileChange → Prop}

/-- What holds of the change of every hunk, under an invariant of the states passed, holds of
the entry of every path and the last hunk for it. -/
theorem verifyHunks_spec {I : σ → Prop}
    (hstep : ∀ hunk s r t, I s → verifyHunk fs diff home cwd hunk s = (r, t) →
      I t ∧ ∀ change, r = .ok change → R hunk change) {changes changes' : Changes} {s t : σ}
    (hs : I s) (h : verifyHunks fs diff home cwd hunks changes s = (.ok changes', t))
    (path : AbsolutePathBuf) :
    match lastHunkFor home cwd path hunks with
    | some hunk => ∃ change, changes'.lookup path = some change ∧ R hunk change
    | none => changes'.lookup path = changes.lookup path := by
  induction hunks generalizing changes s with
  | nil =>
    obtain ⟨hc, -⟩ := Prod.mk.inj h
    obtain rfl := Except.ok.inj hc
    rfl
  | cons hunk hunks ih =>
    rw [verifyHunks] at h
    rcases hv : verifyHunk fs diff home cwd hunk s with ⟨e | change, u⟩
    · simp [hv] at h
    · obtain ⟨hu, hR⟩ := hstep hunk s _ u hs hv
      simp only [hv] at h
      have hrest := ih hu h
      rw [lastHunkFor]
      cases hl : lastHunkFor home cwd path hunks with
      | some last => simpa [hl] using hrest
      | none =>
        rw [hl] at hrest
        rw [Option.none_or]
        split_ifs with hp
        · subst hp
          exact ⟨change, by rw [hrest, AList.lookup_insert], hR change rfl⟩
        · rw [hrest, AList.lookup_insert_ne (Ne.symm hp)]

/-- The verified changes have an entry for a path exactly if there is a last hunk for it. -/
theorem verified_spec {I : σ → Prop}
    {args : ApplyPatchArgs} {action : ApplyPatchAction} {s s' : σ}
    (hstep : ∀ hunk s r t, I s → verifyHunk fs diff home action.cwd hunk s = (r, t) →
      I t ∧ ∀ change, r = .ok change → R hunk change) (hs : I s)
    (h : verifyApplyPatchArgs fs diff home args cwd s = (.body action, s')) :
    (∀ path hunk, lastHunkFor home action.cwd path args.hunks = some hunk →
      ∃ change, action.changes.lookup path = some change ∧ R hunk change) ∧
    ∀ path change, action.changes.lookup path = some change →
      ∃ hunk, lastHunkFor home action.cwd path args.hunks = some hunk ∧ R hunk change := by
  unfold verifyApplyPatchArgs at h
  rcases hv : verifyHunks fs diff home (effectiveCwd home args cwd) args.hunks ∅ s with
    ⟨e | changes, t⟩
  · simp [hv] at h
  simp only [hv] at h
  obtain ⟨rfl, -⟩ := h
  have hspec := verifyHunks_spec hstep hs hv
  constructor <;> intro path
  · intro hunk hlast
    have hpath := hspec path
    rwa [hlast] at hpath
  · intro change hlookup
    have hpath := hspec path
    split at hpath
    next hunk hlast =>
      obtain ⟨change', hlookup', hR⟩ := hpath
      cases hlookup.symm.trans hlookup'
      exact ⟨hunk, hlast, hR⟩
    next => cases hlookup.symm.trans hpath

theorem verifyHunk_movePath {s t : σ} {change : ApplyPatchFileChange}
    (h : verifyHunk fs diff home cwd hunk s = (.ok change, t)) :
    change.movePath = destPath home cwd hunk := by
  cases hunk with
  | addFile path contents =>
    obtain ⟨hc, -⟩ := Prod.mk.inj h
    obtain rfl := Except.ok.inj hc
    rfl
  | deleteFile | updateFile =>
    simp only [verifyHunk] at h
    split at h
    all_goals obtain ⟨hc, -⟩ := Prod.mk.inj h
    · obtain rfl := Except.ok.inj hc
      rfl
    · cases hc

end Spec
end DeepseekX.ApplyPatchVerification
