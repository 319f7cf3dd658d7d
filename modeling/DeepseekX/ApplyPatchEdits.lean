import DeepseekX.AppliedPatchDeltas
import DeepseekX.ApplyPatchVerification

/-!
# Hunks as edits of the texts on disk

A hunk is an edit of the store of texts: it writes, removes or reworks the text of
its source path. Carrying the hunks out runs the edits in order. Verifying them
computes what each edit announces on the texts as they stand, and keeps the last
announcement for each path.
-/

namespace DeepseekX.ApplyPatchEdits
open AbsolutePaths ExecutorFileSystems PatchReplacements KeyedStoreChanges ApplyPatchHunks Option
  ApplyPatchVerification EditScripts

/-- Every file is a text file: what can be removed has a text. -/
structure Regular {σ : Type} (fs : ExecutorFileSystem σ) (view : σ → Texts) : Prop
    extends Lawful fs view where
  remove_present : ∀ p o s, (fs.remove p o s).1 = .ok () → (view s p).isSome

def edit (home : Option PathBuf) (cwd : AbsolutePathBuf) (hunk : Hunk) :
    Edit AbsolutePathBuf String :=
  match hunk with
  | .addFile _ contents => .write (hunk.resolvePath home cwd) contents
  | .deleteFile _ => .erase (hunk.resolvePath home cwd)
  | .updateFile _ _ chunks =>
    .rework (hunk.resolvePath home cwd) (destPath home cwd hunk) fun old =>
      (newContentsFromChunks old (hunk.resolvePath home cwd) chunks).toOption

@[simp] theorem source_form_edit (home : Option PathBuf) (cwd : AbsolutePathBuf) (hunk : Hunk) :
    (edit home cwd hunk).form.source = hunk.resolvePath home cwd := by
  cases hunk <;> rfl

@[simp] theorem dest_form_edit (home : Option PathBuf) (cwd : AbsolutePathBuf) (hunk : Hunk) :
    (edit home cwd hunk).form.dest = destPath home cwd hunk := by
  cases hunk <;> rfl

variable {σ : Type} {fs : ExecutorFileSystem σ} {view : σ → Texts} {home : Option PathBuf}
  {cwd : AbsolutePathBuf} {hunks : List Hunk}

section Apply
variable (hr : Regular fs view)
include hr

variable {st st' : ApplyState σ}

theorem applyHunk_run {hunk : Hunk} (h : applyHunk fs home cwd hunk st = (.ok (), st')) :
    (edit home cwd hunk).run (view st.disk) = some (view st'.disk) := by
  cases hunk with
  | addFile path contents =>
    rw [(applyAddFile_carries hr.toLawful contents).texts_of_ok h]
    rfl
  | deleteFile path =>
    obtain ⟨hview, s, o, hs, hok⟩ := (applyDeleteFile_carries hr.toLawful).texts_of_ok h
    rw [hview, ← hs]
    exact if_pos (hr.remove_present _ o s hok)
  | updateFile path movePath chunks =>
    obtain ⟨old, new, hold, hnew, hview⟩ :=
      (applyUpdateFile_carries hr.toLawful _ chunks).texts_of_ok h
    have hold' : view st.disk (Hunk.resolvePath home (.updateFile path movePath chunks) cwd) =
      some old := hold
    rw [hview]
    simp only [edit, Edit.run, hold', bind_some]
    rw [show newContentsFromChunks old _ chunks = .ok new from hnew]
    rfl

theorem applyHunkLoop_runAll (h : applyHunkLoop fs home cwd hunks st = (.ok (), st')) :
    runAll (hunks.map (edit home cwd)) (view st.disk) = some (view st'.disk) := by
  induction hunks generalizing st with
  | nil =>
    obtain ⟨-, rfl⟩ := Prod.mk.inj h
    rfl
  | cons hunk hunks ih =>
    rw [applyHunkLoop] at h
    rcases hh : applyHunk fs home cwd hunk st with ⟨e | u, a⟩
    · simp [hh] at h
    · simp only [hh] at h
      rw [List.map_cons, runAll, applyHunk_run hr hh]
      exact ih h

theorem applyHunksToFiles_runAll {delta delta' : AppliedPatchDelta} {affected : AffectedPaths}
    {s t : σ} (h : applyHunksToFiles fs home hunks cwd delta s = (.ok affected, delta', t)) :
    runAll (hunks.map (edit home cwd)) (view s) = some (view t) := by
  unfold applyHunksToFiles at h
  split_ifs at h with hnil
  · simp at h
  rcases hloop : applyHunkLoop fs home cwd hunks (.start s delta) with ⟨e | u, st⟩
  · simp [hloop, Except.map] at h
  · simp only [hloop] at h
    obtain ⟨-, -, rfl⟩ := h
    exact applyHunkLoop_runAll hr hloop

end Apply

/-- The change describes the outcome of the edit on the texts `v`. -/
def Announces (v : Texts) : Edit AbsolutePathBuf String → ApplyPatchFileChange → Prop
  | .write _ contents, .add content => contents = content
  | .erase _, .delete _ => True
  | .rework key dest f, .update _ movePath newContent =>
      movePath = dest ∧ (v key).bind f = some newContent
  | _, _ => False

/-- The texts `t` show the change to have been performed at a path. -/
def PerformedAt (t : Texts) (path : AbsolutePathBuf) : ApplyPatchFileChange → Prop
  | .add content => t path = some content
  | .delete _ => t path = none
  | .update _ none newContent => t path = some newContent
  | .update _ (some dest) newContent => t path = none ∧ t dest = some newContent

/-- All the changes have been performed, and no other path has changed. -/
def Performed (changes : Changes) (v t : Texts) : Prop :=
  (∀ path change, changes.lookup path = some change → PerformedAt t path change) ∧
    ∀ path, changes.lookup path = none →
      (∀ key change, changes.lookup key = some change → change.movePath ≠ some path) →
      t path = v path

variable {e : Edit AbsolutePathBuf String} {change : ApplyPatchFileChange}

theorem performedAt_iff_achieved {v t : Texts} (h : Announces v e change) :
    PerformedAt t e.form.source change ↔ e.Achieved v t := by
  cases e with
  | write key contents =>
    cases change with
    | add content =>
      rw [show contents = content from h]
      rfl
    | _ => cases h
  | erase key =>
    cases change with
    | delete content => rfl
    | _ => cases h
  | rework key dest f =>
    cases change with
    | update diff movePath newContent =>
      obtain ⟨rfl, hnew⟩ := h
      cases movePath <;> simp [PerformedAt, Edit.Achieved, Edit.form, Form.source, hnew]
    | _ => cases h

theorem movePath_of_announces {v : Texts} (h : Announces v e change) :
    change.movePath = e.form.dest := by
  cases e <;> cases change <;> first | cases h; done | rfl | exact h.1

section Verify
variable {diff : TextDiff}

theorem verifyHunk_announces (hl : Lawful fs view) {hunk : Hunk} {s t : σ}
    {r : Except ApplyPatchError ApplyPatchFileChange}
    (h : verifyHunk fs diff home cwd hunk s = (r, t)) :
    view t = view s ∧
      ∀ change, r = .ok change → Announces (view s) (edit home cwd hunk) change := by
  cases hunk with
  | addFile path contents =>
    obtain ⟨rfl, rfl⟩ := Prod.mk.inj h
    refine ⟨rfl, fun change hc => ?_⟩
    obtain rfl := Except.ok.inj hc
    rfl
  | deleteFile path =>
    simp only [verifyHunk] at h
    rcases hread : fs.readFileText (Hunk.resolvePath home (.deleteFile path) cwd) s with
      ⟨e | content, u⟩
    all_goals
      rw [hread] at h
      obtain ⟨rfl, rfl⟩ := Prod.mk.inj h
      refine ⟨(readFileText_spec hl hread).1, fun change hc => ?_⟩
    · cases hc
    · obtain rfl := Except.ok.inj hc
      trivial
  | updateFile path movePath chunks =>
    simp only [verifyHunk, unifiedDiffFromChunks] at h
    rcases hd : deriveNewContentsFromChunks fs
      (Hunk.resolvePath home (.updateFile path movePath chunks) cwd) chunks s with ⟨e | patch, u⟩
    all_goals
      obtain ⟨hu, hpatch⟩ := deriveNewContentsFromChunks_spec hl hd
      rw [hd] at h
      obtain ⟨rfl, rfl⟩ := Prod.mk.inj h
      refine ⟨hu, fun change hc => ?_⟩
    · cases hc
    · obtain rfl := Except.ok.inj hc
      obtain ⟨hold, hnew⟩ := hpatch patch rfl
      exact ⟨rfl, by rw [hold, bind_some, hnew]; rfl⟩

end Verify

section Kept

theorem lastHunkFor_eq_some_iff {path : AbsolutePathBuf} {hunk : Hunk} :
    lastHunkFor home cwd path hunks = some hunk ↔
      ∃ before after, hunks = before ++ hunk :: after ∧ hunk.resolvePath home cwd = path ∧
        ∀ g ∈ after, g.resolvePath home cwd ≠ path := by
  rw [lastHunkFor_eq_find?, List.find?_eq_some_iff_append]
  constructor
  · rintro ⟨hp, after, before, hsplit, hafter⟩
    rw [List.reverse_eq_iff, List.reverse_append, List.reverse_cons, List.append_assoc] at hsplit
    exact ⟨before.reverse, after.reverse, hsplit, by simpa using hp, by simpa using hafter⟩
  · rintro ⟨before, after, rfl, hp, hafter⟩
    exact ⟨decide_eq_true hp, after.reverse, before.reverse, by simp, by simpa using hafter⟩

theorem kept_iff {e : Edit AbsolutePathBuf String} :
    Kept (hunks.map (edit home cwd)) e ↔
      ∃ path hunk, lastHunkFor home cwd path hunks = some hunk ∧ e = edit home cwd hunk := by
  constructor
  · rintro ⟨bs, as, hsplit, hkept⟩
    obtain ⟨before, rest, rfl, rfl, hrest⟩ := List.map_eq_append_iff.mp hsplit
    obtain ⟨hunk, after, rfl, rfl, rfl⟩ := List.map_eq_cons_iff.mp hrest
    refine ⟨_, hunk, lastHunkFor_eq_some_iff.mpr ⟨before, after, rfl, rfl, fun g hg => ?_⟩, rfl⟩
    have := hkept (edit home cwd g).form (by simpa using ⟨g, hg, rfl⟩)
    simpa using this
  · rintro ⟨path, hunk, hlast, rfl⟩
    obtain ⟨before, after, rfl, rfl, hafter⟩ := lastHunkFor_eq_some_iff.mp hlast
    refine ⟨before.map (edit home cwd), after.map (edit home cwd), by simp, ?_⟩
    intro g hg
    obtain ⟨x, hx, rfl⟩ := by simpa using hg
    simpa using hafter x hx

/-- The verified changes have been performed when their preview is achieved. -/
theorem performed_iff_previewAchieved {σ : Type} {fs : ExecutorFileSystem σ} {view : σ → Texts}
    (hl : Lawful fs view) {diff : TextDiff} {args : ApplyPatchArgs} {cwd : AbsolutePathBuf}
    {s s' : σ} {action : ApplyPatchAction}
    (h : verifyApplyPatchArgs fs diff home args cwd s = (.body action, s')) {t : Texts} :
    Performed action.changes (view s) t ↔
      PreviewAchieved (args.hunks.map (edit home action.cwd)) (view s) t := by
  obtain ⟨hentry, hlookup⟩ := verified_spec (I := fun u => view u = view s)
    (R := fun hunk change => Announces (view s) (edit home action.cwd hunk) change)
    (fun hunk a r b ha hr => by
      obtain ⟨hb, hann⟩ := verifyHunk_announces hl hr
      exact ⟨hb.trans ha, ha ▸ hann⟩) rfl h
  constructor
  · rintro ⟨hperf, hframe⟩
    refine ⟨fun e he => ?_, fun k hk => ?_⟩
    · obtain ⟨path, hunk, hlast, rfl⟩ := kept_iff.mp he
      obtain ⟨change, hc, hann⟩ := hentry path hunk hlast
      obtain ⟨-, rfl⟩ := lastHunkFor_some hlast
      refine (performedAt_iff_achieved hann).mp ?_
      rw [source_form_edit]
      exact hperf _ change hc
    · refine hframe k ?_ ?_
      · by_contra hne
        obtain ⟨change, hc⟩ := ne_none_iff_exists'.mp hne
        obtain ⟨hunk, hlast, -⟩ := hlookup k change hc
        obtain ⟨-, rfl⟩ := lastHunkFor_some hlast
        exact hk _ (kept_iff.mpr ⟨_, hunk, hlast, rfl⟩) (by simp [Form.mem_keys_iff])
      · intro key change hc hmove
        obtain ⟨hunk, hlast, hann⟩ := hlookup key change hc
        refine hk _ (kept_iff.mpr ⟨key, hunk, hlast, rfl⟩) (Form.mem_keys_iff.mpr (Or.inr ?_))
        rw [← movePath_of_announces hann, hmove]
  · rintro ⟨hach, hframe⟩
    refine ⟨fun path change hc => ?_, fun path hnone hmoves => ?_⟩
    · obtain ⟨hunk, hlast, hann⟩ := hlookup path change hc
      have hkept := hach _ (kept_iff.mpr ⟨path, hunk, hlast, rfl⟩)
      obtain ⟨-, rfl⟩ := lastHunkFor_some hlast
      rw [← source_form_edit]
      exact (performedAt_iff_achieved hann).mpr hkept
    · refine hframe path fun e he hmem => ?_
      obtain ⟨key, hunk, hlast, rfl⟩ := kept_iff.mp he
      obtain ⟨change, hc, hann⟩ := hentry key hunk hlast
      rw [Form.mem_keys_iff, source_form_edit] at hmem
      rcases hmem with rfl | hdest
      · obtain ⟨-, rfl⟩ := lastHunkFor_some hlast
        exact absurd (hnone.symm.trans hc) (by simp)
      · exact hmoves key change hc ((movePath_of_announces hann).trans hdest)

end Kept
end DeepseekX.ApplyPatchEdits
