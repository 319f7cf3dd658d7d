import DeepseekX.ApplyPatchEdits
import DeepseekX.LineSplitting
import DeepseekX.ListInsertions
import DeepseekX.Transducers

/-!
# When the previewed result is the applied result

The entries of a verified patch and the outcome of its run agree, for whatever texts
the hunks and the files hold, exactly if the paths of the hunks are coherent. For the
converse every hunk of an incoherent patch is given a text of its own to leave
behind, and every file starts with the same text.
-/

namespace DeepseekX.ApplyPatchPreview
open AbsolutePaths ExecutorFileSystems PatchReplacements KeyedStoreChanges ApplyPatchHunks
  TextDisk List ApplyPatchVerification ApplyPatchEdits EditScripts

def bodyLines (contents : String) : List String :=
  let lines := originalLines contents
  if endsWithEmptyLine lines then lines.dropLast else lines

def terminated (lines : List String) : String := "\n".intercalate (lines ++ [""])

def stampLine (n : ℕ) : String := String.ofList (replicate (n + 1) '*')

def stampChunk (n : ℕ) : UpdateFileChunk := ⟨none, [], [stampLine n], false⟩

theorem stampLine_ne_empty (n : ℕ) : stampLine n ≠ "" := by
  intro h
  have hlen := congrArg (fun s : String => s.toList.length) h
  simp [stampLine] at hlen

theorem endsWithEmptyLine_append (lines : List String) (line : String) :
    endsWithEmptyLine (lines ++ [line]) = (line == "") := by
  simp [endsWithEmptyLine]

variable {lines : List String} {contents : String}

theorem endsWithEmptyLine_iff : endsWithEmptyLine lines = true ↔ ∃ body, lines = body ++ [""] := by
  simp [endsWithEmptyLine, getLast?_eq_some_iff]

theorem bodyLines_eq {body : List String} (h : originalLines contents = body ++ [""]) :
    bodyLines contents = body := by
  simp [bodyLines, h, endsWithEmptyLine_append]

theorem newContentsFromChunks_stampChunk (contents : String) (path : AbsolutePathBuf) (n : ℕ) :
    newContentsFromChunks contents path [stampChunk n] =
      .ok (terminated (bodyLines contents ++ [stampLine n])) := by
  have hne : (stampLine n == "") = false := beq_eq_false_iff_ne.mpr (stampLine_ne_empty n)
  have hrepl : newContentsFromChunks contents path [stampChunk n] = .ok (joinLines
      ((originalLines contents).insertIdx (insertionIndex (originalLines contents))
        (stampLine n))) := rfl
  rw [hrepl]
  by_cases hend : endsWithEmptyLine (originalLines contents) = true
  · obtain ⟨body, hbody⟩ := endsWithEmptyLine_iff.mp hend
    have hinsert : (originalLines contents).insertIdx (insertionIndex (originalLines contents))
        (stampLine n) = body ++ [stampLine n] ++ [""] := by
      rw [insertionIndex, if_pos hend, hbody]
      simp [ListInsertions.insertIdx_append_length]
    rw [hinsert, bodyLines_eq hbody, joinLines, endsWithEmptyLine_append, terminated]
    simp
  · have hinsert : (originalLines contents).insertIdx (insertionIndex (originalLines contents))
        (stampLine n) = originalLines contents ++ [stampLine n] := by
      rw [insertionIndex, if_neg hend]
      simp
    rw [hinsert, joinLines, endsWithEmptyLine_append, hne, terminated, bodyLines]
    simp [hend]

theorem newline_notMem_bodyLines {line : String} (h : line ∈ bodyLines contents) :
    '\n' ∉ line.toList := by
  have hsplit : line ∈ (contents.toList.splitOn '\n').map String.ofList := by
    simp only [bodyLines, originalLines] at h
    split_ifs at h
    all_goals first
      | exact h
      | exact mem_of_mem_dropLast h
      | exact mem_of_mem_dropLast (mem_of_mem_dropLast h)
  obtain ⟨l, hl, rfl⟩ := mem_map.mp hsplit
  simpa using LineSplitting.notMem_of_mem_splitOn hl

/-- The lines of a terminated text are read back, unless the last one is empty. -/
theorem bodyLines_terminated {n : ℕ} (h : ∀ line ∈ lines, '\n' ∉ line.toList) :
    bodyLines (terminated (lines ++ [stampLine n])) = lines ++ [stampLine n] := by
  have hne : (stampLine n == "") = false := beq_eq_false_iff_ne.mpr (stampLine_ne_empty n)
  have hsplit : (terminated (lines ++ [stampLine n])).toList.splitOn '\n' =
      (lines ++ [stampLine n] ++ [""]).map String.toList := by
    rw [terminated, String.toList_intercalate]
    refine splitOn_intercalate '\n' ?_ (by simp)
    intro l hl
    obtain ⟨line, hline, rfl⟩ := mem_map.mp hl
    simp only [mem_append, mem_singleton] at hline
    rcases hline with (hline | rfl) | rfl
    · exact h line hline
    · simp [stampLine]
    · simp
  have hlines : originalLines (terminated (lines ++ [stampLine n])) = lines ++ [stampLine n] := by
    rw [originalLines, hsplit, map_map]
    have hid : String.ofList ∘ String.toList = id := by
      simp
    rw [hid, map_id, endsWithEmptyLine_append]
    simp
  rw [bodyLines, hlines, endsWithEmptyLine_append, hne]
  simp

def textMarking : Marking String where
  fresh n := terminated [stampLine n]
  tag n contents := terminated (bodyLines contents ++ [stampLine n])
  mark contents := ((bodyLines contents).getLast?.elim 0 fun line => line.toList.length - 1)
  mark_fresh n := by
    have h := @bodyLines_terminated [] n (by simp)
    rw [nil_append] at h
    rw [h]
    simp [stampLine]
  mark_tag n contents := by
    rw [bodyLines_terminated fun _ => newline_notMem_bodyLines]
    simp [stampLine]
  mark_eq_of_tag_eq n x y h := by
    have hlines := congrArg bodyLines h
    rw [bodyLines_terminated fun _ => newline_notMem_bodyLines,
      bodyLines_terminated fun _ => newline_notMem_bodyLines] at hlines
    rw [append_cancel_right hlines]

/-- The hunk with its paths, leaving a numbered line behind. -/
def stampHunk (n : ℕ) : Hunk → Hunk
  | .addFile path _ => .addFile path (terminated [stampLine n])
  | .deleteFile path => .deleteFile path
  | .updateFile path movePath _ => .updateFile path movePath [stampChunk n]

def stampHunks : ℕ → List Hunk → List Hunk
  | _, [] => []
  | n, hunk :: hunks => stampHunk n hunk :: stampHunks (n + 1) hunks

variable (home : Option PathBuf)
variable (cwd : AbsolutePathBuf)

theorem edit_stampHunk (n : ℕ) (hunk : Hunk) :
    edit home cwd (stampHunk n hunk) = textMarking.edit n (edit home cwd hunk).form := by
  cases hunk with
  | addFile | deleteFile => rfl
  | updateFile path movePath chunks =>
    change Edit.rework _ _ _ = Edit.rework _ _ _
    congr 1
    funext old
    rw [newContentsFromChunks_stampChunk]
    rfl

theorem map_edit_stampHunks (n : ℕ)
    (hunks : List Hunk) : (stampHunks n hunks).map (edit home cwd) =
      textMarking.stamp n ((hunks.map (edit home cwd)).map Edit.form) := by
  induction hunks generalizing n with
  | nil => rfl
  | cons hunk hunks ih => simp [stampHunks, Marking.stamp, edit_stampHunk, ih]

/-- Texts without directories, on which no call fails for other reasons than a missing file. -/
def storeFileSystem : ExecutorFileSystem Texts where
  readFileText p v := match v p with
    | some text => (.ok text, v)
    | none => (.error notFound, v)
  writeFile p text v := (.ok (), Function.update v p (some text))
  createDirectory _ _ v := (.ok (), v)
  getMetadata p v := match v p with
    | some _ => (.ok ⟨false, true, false⟩, v)
    | none => (.error notFound, v)
  remove p _ v := match v p with
    | some _ => (.ok (), Function.update v p none)
    | none => (.error notFound, v)

theorem storeFileSystem_regular : Regular storeFileSystem id where
  read_view p v := by cases h : v p <;> simp [storeFileSystem, h]
  read_ok p v text h := by cases hp : v p <;> simp_all [storeFileSystem]
  read_notFound p v e h _ := by cases hp : v p <;> simp_all [storeFileSystem]
  metadata_view p v := by cases h : v p <;> simp [storeFileSystem, h]
  createDirectory_view p o v := rfl
  write_ok p text v _ := rfl
  write_frame p text v q hq := by simp [storeFileSystem, hq]
  remove_ok p o v h := by cases hp : v p <;> simp_all [storeFileSystem]
  remove_frame p o v q hq := by cases hp : v p <;> simp [storeFileSystem, hp, hq]
  remove_self p o v := by cases hp : v p <;> simp [storeFileSystem, hp]
  remove_present p o v h := by cases hp : v p <;> simp_all [storeFileSystem]

section Store
variable {home : Option PathBuf} {cwd : AbsolutePathBuf}
variable {st : ApplyState Texts} {v : Texts}

theorem exists_applyMove_store {affected : PathBuf} {p dest : AbsolutePathBuf}
    {patch : AppliedPatch} (hp : (st.disk p).isSome) :
    ∃ st', applyMove storeFileSystem affected p dest patch st = (.ok (), st') := by
  have hwritten : ∃ text, Function.update st.disk dest (some patch.newContents) p = some text := by
    by_cases hd : p = dest
    · exact ⟨patch.newContents, by rw [hd, Function.update_self]⟩
    · rw [Function.update_of_ne hd]
      exact Option.isSome_iff_exists.mp hp
  obtain ⟨text, htext⟩ := hwritten
  cases hdest : st.disk dest <;>
    simp [applyMove, readOptionalFileTextForDelta, noteExistingPathDeltaSupport,
      writeFileWithMissingParentRetry, ensureNotDirectory, storeFileSystem, hdest, htext]

theorem exists_applyHunk_store {hunk : Hunk} (h : (edit home cwd hunk).run st.disk = some v) :
    ∃ st', applyHunk storeFileSystem home cwd hunk st = (.ok (), st') := by
  cases hunk with
  | addFile path contents =>
    cases hp : st.disk (Hunk.resolvePath home (.addFile path contents) cwd) <;>
      simp [applyHunk, applyAddFile, writeFileWithMissingParentRetry, storeFileSystem]
  | deleteFile path =>
    have hsome := (Option.ite_none_right_eq_some.mp h).1
    obtain ⟨text, htext⟩ := Option.isSome_iff_exists.mp hsome
    simp [applyHunk, applyDeleteFile, noteExistingPathDeltaSupport, ensureNotDirectory,
      storeFileSystem, htext]
  | updateFile path movePath chunks =>
    obtain ⟨new, hnew, -⟩ := Option.map_eq_some_iff.mp h
    obtain ⟨old, hold, hok⟩ := Option.bind_eq_some_iff.mp hnew
    have hderive := Transducers.toOption_eq_some.mp hok
    have hread : noteExistingPathDeltaSupport storeFileSystem
          (Hunk.resolvePath home (.updateFile path movePath chunks) cwd) st.delta.exact st.disk =
        (st.delta.exact, st.disk) ∧ deriveNewContentsFromChunks storeFileSystem
          (Hunk.resolvePath home (.updateFile path movePath chunks) cwd) chunks st.disk =
        (.ok ⟨old, new⟩, st.disk) := by
      simp [noteExistingPathDeltaSupport, deriveNewContentsFromChunks, storeFileSystem, hold,
        hderive]
    rw [applyHunk, applyUpdateFile, hread.1]
    simp only [hread.2]
    cases movePath with
    | none => simp [applyInPlace, storeFileSystem]
    | some dest => exact exists_applyMove_store (by simp [ApplyState.setExact, hold])

theorem exists_applyHunkLoop_store {hunks : List Hunk}
    (h : runAll (hunks.map (edit home cwd)) st.disk = some v) :
    ∃ st', applyHunkLoop storeFileSystem home cwd hunks st = (.ok (), st') := by
  induction hunks generalizing st with
  | nil => exact ⟨st, rfl⟩
  | cons hunk hunks ih =>
    obtain ⟨u, hu, hv⟩ := Option.bind_eq_some_iff.mp h
    obtain ⟨st', hst'⟩ := exists_applyHunk_store hu
    have hdisk : some st'.disk = some u :=
      (applyHunk_run storeFileSystem_regular hst').symm.trans hu
    rw [← Option.some.inj hdisk] at hv
    obtain ⟨st'', hst''⟩ := ih hv
    exact ⟨st'', by rw [applyHunkLoop, hst']; exact hst''⟩

theorem exists_verifyHunks_store {diff : TextDiff} (hv : ∀ p, (v p).isSome) (n : ℕ)
    (hunks : List Hunk) (changes : Changes) :
    ∃ changes', verifyHunks storeFileSystem diff home cwd (stampHunks n hunks) changes v =
      (.ok changes', v) := by
  induction hunks generalizing n changes with
  | nil => exact ⟨changes, rfl⟩
  | cons hunk hunks ih =>
    have hone : ∃ change, verifyHunk storeFileSystem diff home cwd (stampHunk n hunk) v =
        (.ok change, v) := by
      cases hunk with
      | addFile path contents => exact ⟨_, rfl⟩
      | deleteFile path =>
        obtain ⟨text, htext⟩ := Option.isSome_iff_exists.mp
          (hv (Hunk.resolvePath home (.deleteFile path) cwd))
        exact ⟨.delete text, by simp [stampHunk, verifyHunk, storeFileSystem, htext]⟩
      | updateFile path movePath chunks =>
        obtain ⟨text, htext⟩ := Option.isSome_iff_exists.mp
          (hv (Hunk.resolvePath home (.updateFile path movePath [stampChunk n]) cwd))
        simp [stampHunk, verifyHunk, unifiedDiffFromChunks, deriveNewContentsFromChunks,
          storeFileSystem, htext, newContentsFromChunks_stampChunk]
    obtain ⟨change, hchange⟩ := hone
    rw [stampHunks, verifyHunks, hchange]
    exact ih (n + 1) _

end Store

/-- The resolved paths of the hunks and what the hunks do with them. -/
def forms (hunks : List Hunk) : List (Form AbsolutePathBuf) :=
  (hunks.map (edit home cwd)).map Edit.form

theorem forms_stampHunks (n : ℕ)
    (hunks : List Hunk) : forms home cwd (stampHunks n hunks) = forms home cwd hunks := by
  rw [forms, map_edit_stampHunks, map_form_stamp, forms]

/-- For a patch with the paths of the given hunks, whatever texts it and the files hold: if it is
verified, and then applied with success to the same texts, the verified changes have been
performed and no other path has changed. This is so if and only if the paths are coherent or no
such patch can be applied with success, since some hunk needs a file removed before. -/
theorem preview_is_applied_result_iff
    (hunks : List Hunk) :
    (∀ (σ : Type) (fs : ExecutorFileSystem σ) (view : σ → Texts), Regular fs view →
      ∀ (diff : TextDiff) (args : ApplyPatchArgs) (base : AbsolutePathBuf) (s s' start t : σ)
        (action : ApplyPatchAction) (affected : AffectedPaths) (delta delta' : AppliedPatchDelta),
        forms home cwd args.hunks = forms home cwd hunks → action.cwd = cwd →
        verifyApplyPatchArgs fs diff home args base s = (.body action, s') →
        view start = view s →
        applyHunksToFiles fs home args.hunks cwd delta start = (.ok affected, delta', t) →
        Performed action.changes (view s) (view t)) ↔
      (Feasible (forms home cwd hunks) → Coherent (forms home cwd hunks)) := by
  constructor
  · intro hall hfeasible
    by_cases hnil : hunks = []
    · subst hnil
      exact atEach_iff.mpr (by simp [forms])
    · obtain ⟨t, ht⟩ := exists_runAll_stamp (M := textMarking) hfeasible
      rw [forms, ← map_edit_stampHunks] at ht
      obtain ⟨changes, hchanges⟩ := @exists_verifyHunks_store home cwd textMarking.initial
        (fun _ _ new => new) (fun _ => rfl) 1 hunks ∅
      have hverify : verifyApplyPatchArgs storeFileSystem (fun _ _ new => new) home
          ⟨"", stampHunks 1 hunks, none⟩ cwd textMarking.initial =
            (.body ⟨changes, "", cwd⟩, textMarking.initial) := by
        simp [verifyApplyPatchArgs, effectiveCwd, hchanges]
      obtain ⟨st, hst⟩ : ∃ st, applyHunkLoop storeFileSystem home cwd (stampHunks 1 hunks)
          (.start textMarking.initial .empty) = (.ok (), st) := exists_applyHunkLoop_store ht
      have hdisk : st.disk = t := Option.some.inj
        ((applyHunkLoop_runAll storeFileSystem_regular hst).symm.trans ht)
      have happly : applyHunksToFiles storeFileSystem home (stampHunks 1 hunks) cwd .empty
          textMarking.initial = (.ok st.affected, st.delta, t) := by
        have hne : stampHunks 1 hunks ≠ [] := by
          cases hunks with
          | nil => exact absurd rfl hnil
          | cons hunk hunks => simp [stampHunks]
        simp [applyHunksToFiles, hne, hst, hdisk, Except.map]
      have hperformed := hall Texts storeFileSystem id storeFileSystem_regular _ _ cwd _ _ _ _ _ _
        _ _ (forms_stampHunks home cwd 1 hunks) rfl hverify rfl happly
      rw [performed_iff_previewAchieved storeFileSystem_regular.toLawful hverify] at hperformed
      rw [map_edit_stampHunks] at ht
      exact coherent_of_previewAchieved ht (map_edit_stampHunks home cwd 1 hunks ▸ hperformed)
  · intro hc σ fs view hr diff args base s s' start t action affected delta delta' hforms hcwd hv
      hstart ha
    have hrun := applyHunksToFiles_runAll hr ha
    have hcoherent := hc (hforms ▸ feasible_of_runAll hrun)
    rw [← hforms] at hcoherent
    subst hcwd
    rw [performed_iff_previewAchieved hr.toLawful hv, ← hstart]
    exact previewAchieved_of_coherent hcoherent hrun

/-- Renames into fresh paths, additions and repeated rewrites are coherent, a second update of
one file is not. -/
example :
    Coherent (forms none ⟨["w"]⟩ [.updateFile (.relative ["a"]) (some (.relative ["b"])) [],
      .deleteFile (.relative ["c"]), .addFile (.relative ["c"]) ""]) ∧
    ¬ Coherent (forms none ⟨["w"]⟩ [.updateFile (.relative ["a"]) none [],
      .updateFile (.relative ["a"]) none []]) := by decide

theorem textDisk_regular : Regular fileSystem texts where
  toLawful := lawful
  remove_present p o d h := by
    cases hf : d.fault? with
    | some fault => simp [fileSystem, hf] at h
    | none =>
      have hremoved : (d.tick.removeText p).1 = .ok () := by simpa [fileSystem, hf] using h
      unfold removeText at hremoved
      split_ifs at hremoved with hsome
      exact hsome

def twoUpdates : List Hunk :=
  [.updateFile (.relative ["a"]) none [⟨none, ["x"], ["y"], false⟩],
    .updateFile (.relative ["a"]) none [⟨none, ["p"], ["q"], false⟩]]

def twoLineFile : TextDisk := .ofTexts [(⟨["w", "a"]⟩, "x\np\n")] []

/-- The preview keeps the second of two updates of one file, computed on the file as it was, but
the applied patch has made both. -/
theorem second_update_preview_differs :
    Regular fileSystem texts ∧ ∃ action s' affected delta t,
      verifyApplyPatchArgs fileSystem (fun _ _ new => new) none
        ⟨"", twoUpdates, none⟩ ⟨["w"]⟩ twoLineFile = (.body action, s') ∧
      applyHunksToFiles fileSystem none twoUpdates ⟨["w"]⟩ .empty twoLineFile =
        (.ok affected, delta, t) ∧
      ¬ Performed action.changes twoLineFile.texts t.texts := by
  refine ⟨textDisk_regular, _, _, _, _, _, rfl, rfl, fun h => ?_⟩
  have ha := h.1 ⟨["w", "a"]⟩ (.update "x\nq\n" none "x\nq\n") (by decide +kernel)
  exact absurd ha (by unfold PerformedAt; decide +kernel)

end DeepseekX.ApplyPatchPreview
