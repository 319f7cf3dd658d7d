import DeepseekX.ApplyPatchVerification

/-!
# Which mutated paths the verified changes cover

The writable-path check sees the keys of the verified changes and the destinations
of their moves. A run of the same hunks also writes the destination of a move whose
entry was replaced by a later hunk on the same source. The paths a run writes or
removes are read off the same code on a recording file system.
-/

namespace DeepseekX.ApplyPatchCoverage
open AbsolutePaths ExecutorFileSystems PatchReplacements ApplyPatchHunks
  ApplyPatchVerification ApplyState List

variable {σ : Type}

/-- The loop of the writable-path check over the verified changes. -/
def isWritePatchConstrainedToWritablePaths (isPathWritable : AbsolutePathBuf → Bool)
    (action : ApplyPatchAction) : Bool :=
  action.changes.entries.all fun entry =>
    match entry.2 with
    | .add _ | .delete _ => isPathWritable entry.1
    | .update _ movePath _ => isPathWritable entry.1 && movePath.all isPathWritable

/-- The keys of the changes and the destinations of their moves. -/
def checkedPaths (action : ApplyPatchAction) : List AbsolutePathBuf :=
  action.changes.entries.flatMap fun entry => entry.1 :: entry.2.movePath.toList

/-- The check asks about the checked paths and no others. -/
theorem isWritePatchConstrainedToWritablePaths_iff (isPathWritable : AbsolutePathBuf → Bool)
    (action : ApplyPatchAction) :
    isWritePatchConstrainedToWritablePaths isPathWritable action = true ↔
      ∀ p ∈ checkedPaths action, isPathWritable p = true := by
  have hentry : ∀ entry : (_ : AbsolutePathBuf) × ApplyPatchFileChange, (match entry.2 with
      | .add _ | .delete _ => isPathWritable entry.1
      | .update _ movePath _ => isPathWritable entry.1 && movePath.all isPathWritable) = true ↔
        ∀ p ∈ entry.1 :: entry.2.movePath.toList, isPathWritable p = true := by
    rintro ⟨path, _ | _ | ⟨_, _ | dest, _⟩⟩ <;> simp [ApplyPatchFileChange.movePath]
  simp only [isWritePatchConstrainedToWritablePaths, checkedPaths, all_eq_true, hentry,
    mem_flatMap, forall_exists_index, and_imp]
  exact ⟨fun h p entry hmem => h entry hmem p, fun h entry hmem p => h p entry hmem⟩

theorem mem_checkedPaths {action : ApplyPatchAction} {p : AbsolutePathBuf} :
    p ∈ checkedPaths action ↔ (action.changes.lookup p).isSome ∨
      ∃ key change, action.changes.lookup key = some change ∧ change.movePath = some p := by
  simp only [checkedPaths, mem_flatMap, mem_cons, Option.mem_toList]
  constructor
  · rintro ⟨⟨key, change⟩, hentry, rfl | hmove⟩
    · exact Or.inl (Option.isSome_iff_exists.mpr ⟨change, AList.mem_lookup_iff.mpr hentry⟩)
    · exact Or.inr ⟨key, change, AList.mem_lookup_iff.mpr hentry, hmove⟩
  · rintro (hsome | ⟨key, change, hlookup, hmove⟩)
    · obtain ⟨change, hchange⟩ := Option.isSome_iff_exists.mp hsome
      exact ⟨⟨p, change⟩, AList.mem_lookup_iff.mp hchange, Or.inl rfl⟩
    · exact ⟨⟨key, change⟩, AList.mem_lookup_iff.mp hlookup, Or.inr hmove⟩

/-- The paths on which a run of the hunks calls `write_file` or `remove`. -/
def mutatedPaths (fs : ExecutorFileSystem σ) (home : Option PathBuf) (hunks : List Hunk)
    (cwd : AbsolutePathBuf) (s : σ) : List AbsolutePathBuf :=
  (applyHunksToFiles (recording fs) home hunks cwd .empty (s, [])).2.2.2.map Mutation.path

def withLog (st : ApplyState σ) (log : List Mutation) : ApplyState (σ × List Mutation) :=
  ⟨(st.disk, log), st.delta, st.affected⟩

section Recording
variable (fs : ExecutorFileSystem σ) (log : List Mutation)
variable (affected : PathBuf) (p : AbsolutePathBuf)

@[simp] theorem readFileText_recording (s : σ) : (recording fs).readFileText p (s, log) =
    ((fs.readFileText p s).1, (fs.readFileText p s).2, log) := rfl

@[simp] theorem writeFile_recording (text : String) (s : σ) :
    (recording fs).writeFile p text (s, log) =
      ((fs.writeFile p text s).1, (fs.writeFile p text s).2, log ++ [.written p]) := rfl

@[simp] theorem remove_recording (o : RemoveOptions) (s : σ) : (recording fs).remove p o (s, log) =
    ((fs.remove p o s).1, (fs.remove p o s).2, log ++ [.removed p]) := rfl

@[simp] theorem ensureNotDirectory_recording (s : σ) :
    ensureNotDirectory (recording fs) p (s, log) =
      ((ensureNotDirectory fs p s).1, (ensureNotDirectory fs p s).2, log) := by
  rcases hm : fs.getMetadata p s with ⟨_ | m, t⟩ <;> simp [ensureNotDirectory, recording, hm]

@[simp] theorem noteExistingPathDeltaSupport_recording (x : Bool) (s : σ) :
    noteExistingPathDeltaSupport (recording fs) p x (s, log) =
      ((noteExistingPathDeltaSupport fs p x s).1, (noteExistingPathDeltaSupport fs p x s).2,
        log) := by
  rcases hm : fs.getMetadata p s with ⟨_ | m, t⟩ <;>
    simp [noteExistingPathDeltaSupport, recording, hm]

@[simp] theorem removeFailureWasSideEffectFree_recording (e : Option String) (s : σ) :
    removeFailureWasSideEffectFree (recording fs) p e (s, log) =
      ((removeFailureWasSideEffectFree fs p e s).1,
        (removeFailureWasSideEffectFree fs p e s).2, log) := by
  cases e with
  | none => rfl
  | some e =>
    rcases hr : fs.readFileText p s with ⟨_ | m, t⟩ <;>
      simp [removeFailureWasSideEffectFree, hr]

@[simp] theorem readOptionalFileTextForDelta_recording (x : Bool) (s : σ) :
    readOptionalFileTextForDelta (recording fs) p x (s, log) =
      ((readOptionalFileTextForDelta fs p x s).1, (readOptionalFileTextForDelta fs p x s).2.1,
        (readOptionalFileTextForDelta fs p x s).2.2, log) := by
  rcases hn : noteExistingPathDeltaSupport fs p x s with ⟨y, t⟩
  rcases hr : fs.readFileText p t with ⟨_ | m, u⟩ <;>
    simp [readOptionalFileTextForDelta, hn] <;> simp [hr]

@[simp] theorem deriveNewContentsFromChunks_recording (chunks : List UpdateFileChunk) (s : σ) :
    deriveNewContentsFromChunks (recording fs) p chunks (s, log) =
      ((deriveNewContentsFromChunks fs p chunks s).1,
        (deriveNewContentsFromChunks fs p chunks s).2, log) := by
  rcases hr : fs.readFileText p s with ⟨_ | m, t⟩
  · simp [deriveNewContentsFromChunks, hr]
  · cases hn : newContentsFromChunks m p chunks <;>
      simp [deriveNewContentsFromChunks, hr, hn]

@[simp] theorem createParentDirectories_recording (s : σ) :
    createParentDirectories (recording fs) p (s, log) =
      ((createParentDirectories fs p s).1, (createParentDirectories fs p s).2, log) := by
  cases hp : p.parent <;> simp [createParentDirectories, recording, hp]

/-- The write with retry calls `write_file` once or twice, always on its path. -/
theorem writeFileWithMissingParentRetry_recording (text : String) (s : σ) :
    ∃ n, writeFileWithMissingParentRetry (recording fs) p text (s, log) =
      ((writeFileWithMissingParentRetry fs p text s).1,
        (writeFileWithMissingParentRetry fs p text s).2,
        log ++ replicate (n + 1) (.written p)) := by
  rcases hw : fs.writeFile p text s with ⟨e | u, t⟩
  · by_cases hk : e.kind = .notFound
    · rcases hc : createParentDirectories fs p t with ⟨e' | u', b⟩
      · exact ⟨0, by simp [writeFileWithMissingParentRetry, hw, hk, hc]⟩
      · rcases hw' : fs.writeFile p text b with ⟨e'' | u'', c⟩
        · exact ⟨1, by simp [writeFileWithMissingParentRetry, hw, hk, hc, hw']⟩
        · exact ⟨1, by simp [writeFileWithMissingParentRetry, hw, hk, hc, hw']⟩
    · exact ⟨0, by simp [writeFileWithMissingParentRetry, hw, hk]⟩
  · exact ⟨0, by simp [writeFileWithMissingParentRetry, hw]⟩

theorem applyAddFile_recording (contents : String) (st : ApplyState σ) :
    ∃ ms, applyAddFile (recording fs) affected p contents (withLog st log) =
        ((applyAddFile fs affected p contents st).1,
          withLog (applyAddFile fs affected p contents st).2 (log ++ ms)) ∧
      ∀ m ∈ ms, m.path = p := by
  rcases hr : readOptionalFileTextForDelta fs p st.delta.exact st.disk with ⟨text, exact, s⟩
  obtain ⟨n, hn⟩ := writeFileWithMissingParentRetry_recording fs log p contents s
  refine ⟨replicate (n + 1) (.written p), ?_, ?_⟩
  · rcases hw : writeFileWithMissingParentRetry fs p contents s with ⟨e | u, t⟩ <;>
      simp [applyAddFile, withLog, hr, hn, hw, setExact]
  · intro m hm
    rw [eq_of_mem_replicate hm]
    rfl

theorem applyDeleteFile_recording (st : ApplyState σ) :
    ∃ ms, applyDeleteFile (recording fs) affected p (withLog st log) =
        ((applyDeleteFile fs affected p st).1,
          withLog (applyDeleteFile fs affected p st).2 (log ++ ms)) ∧
      ∀ m ∈ ms, m.path = p := by
  rcases hn : noteExistingPathDeltaSupport fs p st.delta.exact st.disk with ⟨exact, s⟩
  rcases hr : fs.readFileText p s with ⟨read, t⟩
  rcases he : ensureNotDirectory fs p t with ⟨e | u, a⟩
  · exact ⟨[], by simp [applyDeleteFile, withLog, hn, hr, he, setExact], by simp⟩
  · refine ⟨[.removed p], ?_, by simp [Mutation.path]⟩
    rcases hm : fs.remove p ⟨false, false⟩ a with ⟨e | u, b⟩ <;>
      simp [applyDeleteFile, withLog, hn, hr, he, hm, setExact]

theorem applyInPlace_recording (patch : AppliedPatch) (st : ApplyState σ) :
    applyInPlace (recording fs) affected p patch (withLog st log) =
      ((applyInPlace fs affected p patch st).1,
        withLog (applyInPlace fs affected p patch st).2 (log ++ [.written p])) := by
  rcases hw : fs.writeFile p patch.newContents st.disk with ⟨e | u, t⟩ <;>
    simp [applyInPlace, withLog, hw, setExact]

/-- A move always writes its destination, and removes its source if it gets that far. -/
theorem applyMove_recording (dest : AbsolutePathBuf) (patch : AppliedPatch) (st : ApplyState σ) :
    ∃ ms, applyMove (recording fs) affected p dest patch (withLog st log) =
        ((applyMove fs affected p dest patch st).1,
          withLog (applyMove fs affected p dest patch st).2 (log ++ .written dest :: ms)) ∧
      ∀ m ∈ ms, m.path = p ∨ m.path = dest := by
  rcases hr : readOptionalFileTextForDelta fs dest st.delta.exact st.disk with ⟨text, exact, s⟩
  obtain ⟨n, hn⟩ := writeFileWithMissingParentRetry_recording fs log dest patch.newContents s
  have hrep : ∀ m ∈ replicate n (Mutation.written dest), m.path = p ∨ m.path = dest := by
    intro m hm
    rw [eq_of_mem_replicate hm]
    exact Or.inr rfl
  have hrepl : replicate (n + 1) (Mutation.written dest) =
      .written dest :: replicate n (.written dest) := rfl
  rcases hw : writeFileWithMissingParentRetry fs dest patch.newContents s with ⟨e | u, t⟩
  · exact ⟨_, by simp [applyMove, withLog, hr, hn, hw, hrepl, setExact], hrep⟩
  · rcases he : ensureNotDirectory fs p t with ⟨e | u, a⟩
    · exact ⟨_, by simp [applyMove, withLog, hr, hn, hw, hrepl, he], hrep⟩
    · refine ⟨replicate n (.written dest) ++ [.removed p], ?_, ?_⟩
      · rcases hm : fs.remove p ⟨false, false⟩ a with ⟨e | u, b⟩ <;>
          simp [applyMove, withLog, hr, hn, hw, hrepl, he, hm, setExact]
      · intro m hm
        rcases mem_append.mp hm with hm | hm
        · exact hrep m hm
        · rw [mem_singleton.mp hm]
          exact Or.inl rfl

/-- The chunks match the file under `p`, read after its metadata. -/
def DerivesAt (p : AbsolutePathBuf) (chunks : List UpdateFileChunk) (st : ApplyState σ) : Prop :=
  ∃ patch, (deriveNewContentsFromChunks fs p chunks
    (noteExistingPathDeltaSupport fs p st.delta.exact st.disk).2).1 = .ok patch

theorem applyUpdateFile_recording (dest : Option AbsolutePathBuf) (chunks : List UpdateFileChunk)
    (st : ApplyState σ) :
    ∃ ms, applyUpdateFile (recording fs) affected p dest chunks (withLog st log) =
        ((applyUpdateFile fs affected p dest chunks st).1,
          withLog (applyUpdateFile fs affected p dest chunks st).2 (log ++ ms)) ∧
      (∀ m ∈ ms, m.path = p ∨ (dest = some m.path ∧ DerivesAt fs p chunks st)) ∧
      (DerivesAt fs p chunks st → ∀ d, dest = some d → ∃ m ∈ ms, m.path = d) := by
  rcases hn : noteExistingPathDeltaSupport fs p st.delta.exact st.disk with ⟨exact, s⟩
  rcases hd : deriveNewContentsFromChunks fs p chunks s with ⟨e | patch, t⟩
  · have hno : ¬ DerivesAt fs p chunks st := by
      rintro ⟨patch, hpatch⟩
      simp [hn, hd] at hpatch
    refine ⟨[], ?_, by simp, fun h => (hno h).elim⟩
    simp [applyUpdateFile, withLog, hn, hd, setExact]
  · have hyes : DerivesAt fs p chunks st := ⟨patch, by simp [hn, hd]⟩
    cases dest with
    | none =>
      have hin := applyInPlace_recording fs log affected p patch (st.setExact exact t)
      refine ⟨[.written p], ?_, by simp [Mutation.path], fun _ d hdest => by cases hdest⟩
      simpa [applyUpdateFile, withLog, hn, hd, setExact] using hin
    | some dest =>
      obtain ⟨ms, heq, hms⟩ :=
        applyMove_recording fs log affected p dest patch (st.setExact exact t)
      refine ⟨.written dest :: ms, ?_, ?_, ?_⟩
      · simpa [applyUpdateFile, withLog, hn, hd, setExact] using heq
      · refine forall_mem_cons.mpr ⟨Or.inr ⟨rfl, hyes⟩, fun m hm => ?_⟩
        exact (hms m hm).imp id fun h => ⟨by rw [h], hyes⟩
      · intro _ d hd'
        obtain rfl := Option.some.inj hd'
        exact ⟨_, mem_cons_self, rfl⟩

end Recording

variable (fs : ExecutorFileSystem σ)

/-- The hunk is an update whose chunks match the file it is applied to. -/
def ChunksMatch (home : Option PathBuf) (cwd : AbsolutePathBuf)
    (st : ApplyState σ) (hunk : Hunk) : Prop :=
  match hunk with
  | .updateFile _ _ chunks => DerivesAt fs (hunk.resolvePath home cwd) chunks st
  | _ => False

/-- One hunk mutates its source at most, and its destination exactly if its chunks match. -/
theorem applyHunk_recording (home : Option PathBuf)
    (cwd : AbsolutePathBuf) (hunk : Hunk) (st : ApplyState σ) (log : List Mutation) :
    ∃ ms, applyHunk (recording fs) home cwd hunk (withLog st log) =
        ((applyHunk fs home cwd hunk st).1, withLog (applyHunk fs home cwd hunk st).2 (log ++ ms)) ∧
      (∀ m ∈ ms, m.path = hunk.resolvePath home cwd ∨
        (destPath home cwd hunk = some m.path ∧ ChunksMatch fs home cwd st hunk)) ∧
      (ChunksMatch fs home cwd st hunk → ∀ dest, destPath home cwd hunk = some dest →
        ∃ m ∈ ms, m.path = dest) := by
  cases hunk with
  | addFile path contents =>
    obtain ⟨ms, heq, hms⟩ := applyAddFile_recording fs log path
      ((Hunk.addFile path contents).resolvePath home cwd) contents st
    exact ⟨ms, heq, fun m hm => Or.inl (hms m hm), fun h => h.elim⟩
  | deleteFile path =>
    obtain ⟨ms, heq, hms⟩ := applyDeleteFile_recording fs log path
      ((Hunk.deleteFile path).resolvePath home cwd) st
    exact ⟨ms, heq, fun m hm => Or.inl (hms m hm), fun h => h.elim⟩
  | updateFile path movePath chunks =>
    exact applyUpdateFile_recording fs log (Hunk.updateFile path movePath chunks).path
      ((Hunk.updateFile path movePath chunks).resolvePath home cwd)
      (movePath.map (AbsolutePathBuf.join home cwd)) chunks st

def Reaches (home : Option PathBuf) (cwd : AbsolutePathBuf) (s : σ)
    (before : List Hunk) (st : ApplyState σ) : Prop :=
  applyHunkLoop fs home cwd before (.start s .empty) = (.ok (), st)

/-- The run gets to a hunk that moves its source to the path, with chunks that match. -/
def MovesTo (home : Option PathBuf) (cwd : AbsolutePathBuf) (st : ApplyState σ)
    (hunks : List Hunk) (dest : AbsolutePathBuf) : Prop :=
  ∃ before hunk after st', hunks = before ++ hunk :: after ∧ destPath home cwd hunk = some dest ∧
    applyHunkLoop fs home cwd before st = (.ok (), st') ∧ ChunksMatch fs home cwd st' hunk

variable {home : Option PathBuf} {cwd : AbsolutePathBuf}

theorem movesTo_cons {st : ApplyState σ} {first : Hunk} {hunks : List Hunk}
    {dest : AbsolutePathBuf} :
    MovesTo fs home cwd st (first :: hunks) dest ↔
      (destPath home cwd first = some dest ∧ ChunksMatch fs home cwd st first) ∨
        ∃ st', applyHunk fs home cwd first st = (.ok (), st') ∧
          MovesTo fs home cwd st' hunks dest := by
  constructor
  · rintro ⟨before, hunk, after, st', hsplit, hdest, hrun, hmatch⟩
    cases before with
    | nil =>
      obtain ⟨rfl, rfl⟩ := cons.inj hsplit
      obtain ⟨-, rfl⟩ := Prod.mk.inj hrun
      exact .inl ⟨hdest, hmatch⟩
    | cons b before =>
      obtain ⟨rfl, rfl⟩ := cons.inj hsplit
      rw [applyHunkLoop] at hrun
      rcases hh : applyHunk fs home cwd first st with ⟨e | u, next⟩ <;> rw [hh] at hrun
      · cases hrun
      · exact .inr ⟨next, rfl, before, hunk, after, st', rfl, hdest, hrun, hmatch⟩
  · rintro (⟨hdest, hmatch⟩ | ⟨next, hh, before, hunk, after, st', rfl, hdest, hrun, hmatch⟩)
    · exact ⟨[], first, hunks, st, rfl, hdest, rfl, hmatch⟩
    · refine ⟨first :: before, hunk, after, st', rfl, hdest, ?_, hmatch⟩
      rw [applyHunkLoop, hh]
      exact hrun

/-- The run mutates sources of hunks, and the destination of exactly those moves that it
reaches with chunks that match. -/
theorem applyHunkLoop_recording (hunks : List Hunk) (st : ApplyState σ) (log : List Mutation) :
    ∃ ms, applyHunkLoop (recording fs) home cwd hunks (withLog st log) =
        ((applyHunkLoop fs home cwd hunks st).1,
          withLog (applyHunkLoop fs home cwd hunks st).2 (log ++ ms)) ∧
      (∀ m ∈ ms, (∃ hunk ∈ hunks, m.path = hunk.resolvePath home cwd) ∨
        MovesTo fs home cwd st hunks m.path) ∧
      ∀ dest, MovesTo fs home cwd st hunks dest → ∃ m ∈ ms, m.path = dest := by
  induction hunks generalizing st log with
  | nil =>
    refine ⟨[], by simp [applyHunkLoop], by simp, ?_⟩
    rintro dest ⟨before, hunk, after, st', hsplit, -⟩
    simp at hsplit
  | cons first hunks ih =>
    obtain ⟨ms, heq, hms, hdest⟩ := applyHunk_recording fs home cwd first st log
    simp only [movesTo_cons]
    rcases hh : applyHunk fs home cwd first st with ⟨e | u, next⟩
    · refine ⟨ms, by simp [applyHunkLoop, heq, hh], fun m hm => ?_, ?_⟩
      · exact (hms m hm).imp (fun h => ⟨first, mem_cons_self, h⟩) .inl
      · rintro dest (⟨hd, hmatch⟩ | ⟨_, ⟨⟩, _⟩)
        exact hdest hmatch dest hd
    · obtain ⟨ms', heq', hms', hdest'⟩ := ih next (log ++ ms)
      refine ⟨ms ++ ms', by simpa [applyHunkLoop, heq, hh] using heq', fun m hm => ?_, ?_⟩
      · rcases mem_append.mp hm with hm | hm
        · exact (hms m hm).imp (fun h => ⟨first, mem_cons_self, h⟩) .inl
        · exact (hms' m hm).imp (fun ⟨hunk, hmem, hp⟩ => ⟨hunk, mem_cons_of_mem _ hmem, hp⟩)
            fun h => .inr ⟨next, rfl, h⟩
      · rintro dest (⟨hd, hmatch⟩ | ⟨_, ⟨⟩, hmoves⟩)
        · obtain ⟨m, hm, hp⟩ := hdest hmatch dest hd
          exact ⟨m, mem_append_left _ hm, hp⟩
        · obtain ⟨m, hm, hp⟩ := hdest' dest hmoves
          exact ⟨m, mem_append_right _ hm, hp⟩

/-- The path is the source of a hunk, or the destination of the last hunk for its source. -/
def Announced (home : Option PathBuf) (cwd : AbsolutePathBuf) (hunks : List Hunk)
    (p : AbsolutePathBuf) : Prop :=
  (∃ hunk ∈ hunks, hunk.resolvePath home cwd = p) ∨
    ∃ hunk ∈ hunks, lastHunkFor home cwd (hunk.resolvePath home cwd) hunks = some hunk ∧
      destPath home cwd hunk = some p

instance (home : Option PathBuf) (cwd : AbsolutePathBuf) (hunks : List Hunk)
    (p : AbsolutePathBuf) : Decidable (Announced home cwd hunks p) :=
  inferInstanceAs (Decidable (_ ∨ _))

/-- Which paths the check sees is decided by the hunks alone. -/
theorem mem_checkedPaths_iff_announced {fs : ExecutorFileSystem σ} {diff : TextDiff}
    {home : Option PathBuf} {args : ApplyPatchArgs} {cwd : AbsolutePathBuf} {s s' : σ}
    {action : ApplyPatchAction}
    (h : verifyApplyPatchArgs fs diff home args cwd s = (.body action, s'))
    (p : AbsolutePathBuf) :
    p ∈ checkedPaths action ↔ Announced home action.cwd args.hunks p := by
  obtain ⟨hentry, hhunk⟩ := verified_spec (I := fun _ => True)
    (R := fun hunk change => change.movePath = destPath home action.cwd hunk)
    (fun hunk s r t _ hr => ⟨trivial, fun change hc => verifyHunk_movePath (hc ▸ hr)⟩) trivial h
  rw [mem_checkedPaths]
  constructor
  · rintro (hsome | ⟨key, change, hlookup, hmove⟩)
    · obtain ⟨change, hlookup⟩ := Option.isSome_iff_exists.mp hsome
      obtain ⟨hunk, hl, -⟩ := hhunk p change hlookup
      exact Or.inl ⟨hunk, lastHunkFor_some hl⟩
    · obtain ⟨hunk, hl, hmove'⟩ := hhunk key change hlookup
      obtain ⟨hmem, rfl⟩ := lastHunkFor_some hl
      exact Or.inr ⟨hunk, hmem, hl, hmove'.symm.trans hmove⟩
  · rintro (⟨hunk, hmem, rfl⟩ | ⟨hunk, hmem, hlast, hdest⟩)
    · obtain ⟨last, hl⟩ :=
        Option.isSome_iff_exists.mp (@lastHunkFor_isSome home action.cwd _ _ hmem)
      obtain ⟨change, hlookup, -⟩ := hentry _ last hl
      exact Or.inl (by simp [hlookup])
    · obtain ⟨change, hlookup, hmove⟩ := hentry _ hunk hlast
      exact Or.inr ⟨_, change, hlookup, hmove.trans hdest⟩

/-- Every path that a run of a verified patch writes or removes, from the verified state or any
other, has been seen by the writable-path check, if and only if the run never gets to a move,
with chunks that match the file, whose destination is neither the source of a hunk nor the
destination of the last hunk for its source. -/
theorem verified_changes_cover_mutations_iff (diff : TextDiff)
    (home : Option PathBuf) (args : ApplyPatchArgs) (cwd : AbsolutePathBuf) (s s' start : σ)
    (action : ApplyPatchAction)
    (h : verifyApplyPatchArgs fs diff home args cwd s = (.body action, s')) :
    (∀ p ∈ mutatedPaths fs home args.hunks action.cwd start, p ∈ checkedPaths action) ↔
      ∀ before hunk after dest st, args.hunks = before ++ hunk :: after →
        destPath home action.cwd hunk = some dest →
        ¬ Announced home action.cwd args.hunks dest →
        Reaches fs home action.cwd start before st →
        ¬ ChunksMatch fs home action.cwd st hunk := by
  obtain ⟨ms, heq, hms, hdest⟩ :=
    @applyHunkLoop_recording σ fs home action.cwd args.hunks (.start start .empty) []
  have hpaths : ∀ p, p ∈ mutatedPaths fs home args.hunks action.cwd start ↔
      ∃ m ∈ ms, m.path = p := by
    cases hh : args.hunks with
    | nil =>
      have hnil : ms = [] := by
        apply eq_nil_iff_forall_not_mem.mpr
        intro m hm
        rcases hms m hm with ⟨hunk, hmem, -⟩ | ⟨before, hunk, after, st', hs, -⟩
        · simp [hh] at hmem
        · simp [hh] at hs
      simp [mutatedPaths, applyHunksToFiles, hnil]
    | cons first rest =>
      rw [hh] at heq
      change applyHunkLoop (recording fs) home action.cwd (first :: rest)
        (.start (start, []) .empty) = _ at heq
      simp [mutatedPaths, applyHunksToFiles, heq, withLog]
  simp only [hpaths, mem_checkedPaths_iff_announced h]
  constructor
  · intro hall before hunk after dest st hsplit hd hnot hreach hmatch
    obtain ⟨m, hm, rfl⟩ := hdest dest ⟨before, hunk, after, st, hsplit, hd, hreach, hmatch⟩
    exact hnot (hall m.path ⟨m, hm, rfl⟩)
  · rintro hnever p ⟨m, hm, rfl⟩
    rcases hms m hm with ⟨hunk, hmem, hp⟩ | ⟨before, hunk, after, st, hsplit, hd, hreach, hmatch⟩
    · exact Or.inl ⟨hunk, hmem, hp.symm⟩
    · by_contra hnot
      exact hnever before hunk after m.path st hsplit hd hnot hreach hmatch

def renameAndAdd (added : String) : ApplyPatchArgs :=
  ⟨"", [.updateFile (.relative ["a"]) (some (.relative ["b"])) [⟨none, ["x"], ["y"], false⟩],
    .addFile (.relative [added]) "z\n"], none⟩

def verifyRenameAndAdd (added : String) : MaybeApplyPatchVerified × TextDisk :=
  verifyApplyPatchArgs TextDisk.fileSystem (fun _ _ new => new) none (renameAndAdd added) ⟨["w"]⟩
    (.ofTexts [(⟨["w", "a"]⟩, "x\n")] [])

theorem verified_changes_cover_rename_and_add :
    ∃ action s', verifyRenameAndAdd "c" = (.body action, s') ∧
      ∀ p ∈ mutatedPaths TextDisk.fileSystem none (renameAndAdd "c").hunks action.cwd
        (.ofTexts [(⟨["w", "a"]⟩, "x\n")] []), p ∈ checkedPaths action := by
  obtain ⟨action, s', hv, hcwd⟩ : ∃ action s',
      verifyRenameAndAdd "c" = (.body action, s') ∧ action.cwd = ⟨["w"]⟩ := ⟨_, _, rfl, rfl⟩
  refine ⟨action, s', hv, (verified_changes_cover_mutations_iff _ _ _ _ _ _ _ _ _ hv).mpr ?_⟩
  intro before hunk after dest st hsplit hdest hnot
  have hannounced : ∀ hunk ∈ (renameAndAdd "c").hunks, ∀ dest ∈ destPath none ⟨["w"]⟩ hunk,
      Announced none ⟨["w"]⟩ (renameAndAdd "c").hunks dest := by decide
  rw [hcwd] at hdest hnot
  exact absurd (hannounced hunk (by simp [hsplit]) dest hdest) hnot

/-- A rename whose source is added again later writes a destination the check never sees. -/
theorem readded_rename_escapes_check :
    ∃ action s', verifyRenameAndAdd "a" = (.body action, s') ∧
      ⟨["w", "b"]⟩ ∈ mutatedPaths TextDisk.fileSystem none (renameAndAdd "a").hunks action.cwd
        (.ofTexts [(⟨["w", "a"]⟩, "x\n")] []) ∧
      ⟨["w", "b"]⟩ ∉ checkedPaths action :=
  ⟨_, _, rfl, by decide +kernel, by decide +kernel⟩

end DeepseekX.ApplyPatchCoverage
