import DeepseekX.ApplyPatchHunks
import DeepseekX.EditScripts

/-!
# Exact deltas describe the disk

As long as the accumulated delta is exact, its changes are a faithful run from the
texts on disk before the patch to the texts on disk now. This holds after every
hunk, whether it was carried out or failed halfway, for every file system that keeps
the promises of the interface.
-/

namespace DeepseekX.ApplyPatchHunks
open AbsolutePaths ExecutorFileSystems PatchReplacements KeyedStoreChanges AppliedPatchDelta
  EditScripts

def AppliedPatchChange.toChange (c : AppliedPatchChange) : Change AbsolutePathBuf String :=
  match c.change with
  | .add content overwritten => .put c.path content overwritten
  | .delete content => .drop c.path content
  | .update none old _ new => .revise c.path old new
  | .update (some dest) old overwritten new => .move c.path dest old overwritten new

def AppliedPatchDelta.log (delta : AppliedPatchDelta) : List (Change AbsolutePathBuf String) :=
  delta.changes.map AppliedPatchChange.toChange

@[simp] theorem AppliedPatchDelta.log_push (delta : AppliedPatchDelta) (c : AppliedPatchChange) :
    (delta.push c).log = delta.log ++ [c.toChange] := by
  simp [log, push]

variable {σ : Type} {fs : ExecutorFileSystem σ} {view : σ → Texts}

section Calls
variable (hl : Lawful fs view)
include hl

variable {p : AbsolutePathBuf} {s t : σ} {o : RemoveOptions} {r : Except IoError Unit}

theorem getMetadata_spec {r : Except IoError FileMetadata} (h : fs.getMetadata p s = (r, t)) :
    view t = view s := by
  simpa [h] using hl.metadata_view p s

theorem readFileText_spec {r : Except IoError String} (h : fs.readFileText p s = (r, t)) :
    view t = view s ∧ (∀ text, r = .ok text → view s p = some text) ∧
      (∀ e, r = .error e → e.kind = .notFound → view s p = none) := by
  refine ⟨by simpa [h] using hl.read_view p s, ?_, ?_⟩
  · intro text hr
    exact hl.read_ok p s text (by rw [h, hr])
  · intro e hr hk
    exact hl.read_notFound p s e (by rw [h, hr]) hk

theorem writeFile_spec {text : String} (h : fs.writeFile p text s = (.ok (), t)) :
    view t = Function.update (view s) p (some text) := by
  simpa [h] using hl.write_ok p text s (by rw [h])

theorem remove_spec (h : fs.remove p o s = (.ok (), t)) :
    view t = Function.update (view s) p none := by
  simpa [h] using hl.remove_ok p o s (by rw [h])

/-- A failed removal that left the expected text under its path changed nothing. -/
theorem remove_error_spec (h : fs.remove p o s = (r, t)) (ht : view t p = view s p) :
    view t = view s := by
  funext q
  by_cases hq : q = p
  · rw [hq, ht]
  · simpa [h] using hl.remove_frame p o s q hq

theorem remove_self_spec (h : fs.remove p o s = (r, t)) :
    view t p = view s p ∨ view t p = none := by
  simpa [h] using hl.remove_self p o s

theorem ensureNotDirectory_spec (h : ensureNotDirectory fs p s = (r, t)) : view t = view s := by
  unfold ensureNotDirectory at h
  rcases hm : fs.getMetadata p s with ⟨_ | m, u⟩ <;> rw [hm] at h <;>
    obtain ⟨-, rfl⟩ := Prod.mk.inj h <;> exact getMetadata_spec hl hm

theorem noteExistingPathDeltaSupport_spec {exact exact' : Bool}
    (h : noteExistingPathDeltaSupport fs p exact s = (exact', t)) :
    view t = view s ∧ (exact' = true → exact = true) := by
  unfold noteExistingPathDeltaSupport at h
  rcases hm : fs.getMetadata p s with ⟨_ | m, u⟩ <;> rw [hm] at h <;>
    obtain ⟨rfl, rfl⟩ := Prod.mk.inj h
  · exact ⟨getMetadata_spec hl hm, by simp⟩
  · exact ⟨getMetadata_spec hl hm, by simp⟩

/-- A removal that is reported as free of side effects left the expected text. -/
theorem removeFailureWasSideEffectFree_spec {e : Option String} {clean : Bool}
    (h : removeFailureWasSideEffectFree fs p e s = (clean, t)) :
    view t = view s ∧ (clean = true → view s p = e) := by
  cases e with
  | none =>
    obtain ⟨rfl, rfl⟩ := Prod.mk.inj h
    exact ⟨rfl, by simp⟩
  | some e =>
    simp only [removeFailureWasSideEffectFree] at h
    rcases hr : fs.readFileText p s with ⟨_ | m, u⟩ <;> rw [hr] at h <;>
      obtain ⟨rfl, rfl⟩ := Prod.mk.inj h
    · exact ⟨(readFileText_spec hl hr).1, by simp⟩
    · refine ⟨(readFileText_spec hl hr).1, fun hm => ?_⟩
      exact (readFileText_spec hl hr).2.1 e (by rw [beq_iff_eq.mp hm])

/-- An exact delta has seen the text, or the absence, of the path. -/
theorem readOptionalFileTextForDelta_spec {exact exact' : Bool} {text : Option String}
    (h : readOptionalFileTextForDelta fs p exact s = (text, exact', t)) :
    view t = view s ∧ (exact' = true → exact = true ∧ view s p = text) := by
  unfold readOptionalFileTextForDelta at h
  rcases hn : noteExistingPathDeltaSupport fs p exact s with ⟨x, u⟩
  obtain ⟨hu, hx⟩ := noteExistingPathDeltaSupport_spec hl hn
  simp only [hn] at h
  rcases hr : fs.readFileText p u with ⟨e | m, v⟩
  all_goals
    obtain ⟨hv, hok, hnf⟩ := readFileText_spec hl hr
    simp only [hr] at h
    obtain ⟨rfl, rfl, rfl⟩ := h
    refine ⟨hv.trans hu, fun he => ?_⟩
  · simp only [Bool.if_false_right, Bool.and_eq_true, decide_eq_true_eq] at he
    exact ⟨hx he.2, by rw [← hu]; exact hnf e rfl he.1⟩
  · exact ⟨hx he, by rw [← hu]; exact hok m rfl⟩

theorem createParentDirectories_spec (h : createParentDirectories fs p s = (r, t)) :
    view t = view s := by
  unfold createParentDirectories at h
  cases hp : p.parent with
  | none =>
    rw [hp] at h
    obtain ⟨-, rfl⟩ := Prod.mk.inj h
    rfl
  | some parent =>
    simp only [hp] at h
    simpa [h] using hl.createDirectory_view parent ⟨true⟩ s

/-- The first attempt may have left anything under the path: the second one replaces it. -/
theorem writeFileWithMissingParentRetry_spec {text : String}
    (h : writeFileWithMissingParentRetry fs p text s = (.ok (), t)) :
    view t = Function.update (view s) p (some text) := by
  unfold writeFileWithMissingParentRetry at h
  rcases hw : fs.writeFile p text s with ⟨e | u, a⟩
  · simp only [hw] at h
    split_ifs at h with hk
    · rcases hc : createParentDirectories fs p a with ⟨e' | u', b⟩
      · simp [hc] at h
      · simp only [hc] at h
        rcases hw' : fs.writeFile p text b with ⟨e'' | u'', c⟩
        · simp [hw'] at h
        · simp only [hw', Prod.mk.injEq, true_and] at h
          subst h
          funext q
          rw [writeFile_spec hl hw', createParentDirectories_spec hl hc]
          by_cases hq : q = p
          · simp [hq]
          · simpa [hq, hw] using hl.write_frame p text s q hq
    · simp at h
  · simp only [hw, Prod.mk.injEq, true_and] at h
    subst h
    exact writeFile_spec hl hw

theorem deriveNewContentsFromChunks_spec {chunks : List UpdateFileChunk}
    {r : Except ApplyPatchError AppliedPatch}
    (h : deriveNewContentsFromChunks fs p chunks s = (r, t)) :
    view t = view s ∧ ∀ patch, r = .ok patch → view s p = some patch.originalContents ∧
      newContentsFromChunks patch.originalContents p chunks = .ok patch.newContents := by
  unfold deriveNewContentsFromChunks at h
  rcases hr : fs.readFileText p s with ⟨e | m, u⟩
  all_goals
    obtain ⟨hu, hok, -⟩ := readFileText_spec hl hr
    simp only [hr] at h
  · obtain ⟨rfl, rfl⟩ := Prod.mk.inj h
    exact ⟨hu, by simp⟩
  · cases hn : newContentsFromChunks m p chunks with
    | error message =>
      rw [hn] at h
      obtain ⟨rfl, rfl⟩ := Prod.mk.inj h
      exact ⟨hu, by simp⟩
    | ok new =>
      rw [hn] at h
      obtain ⟨rfl, rfl⟩ := Prod.mk.inj h
      refine ⟨hu, fun patch hp => ?_⟩
      obtain rfl := Except.ok.inj hp
      exact ⟨hok m rfl, hn⟩

end Calls

/-- If the delta is exact, it leads from the texts `v` to the texts on disk. -/
def Describes (view : σ → Texts) (v : Texts) (st : ApplyState σ) : Prop :=
  st.delta.exact = true → FaithfulRun v st.delta.log (view st.disk)

theorem Describes.setExact {v : Texts} {st : ApplyState σ} (h : Describes view v st) {exact : Bool}
    {s : σ} (hs : exact = true → st.delta.exact = true ∧ view s = view st.disk) :
    Describes view v (st.setExact exact s) := by
  intro he
  obtain ⟨hx, hv⟩ := hs he
  have hr := h hx
  rw [← hv] at hr
  exact hr

theorem describes_inexact {v : Texts} (st : ApplyState σ) (s : σ) :
    Describes view v (st.setExact false s) := by
  intro he
  cases he

variable {p : AbsolutePathBuf} {st : ApplyState σ} {done : Texts → Prop}

/-- A step keeps the description of the disk. Where it succeeds it leaves such texts. -/
structure Carries (view : σ → Texts) (st : ApplyState σ) (done : Texts → Prop)
    (outcome : Except AnyhowError Unit × ApplyState σ) : Prop where
  describes : ∀ v, Describes view v st → Describes view v outcome.2
  texts : outcome.1 = .ok () → done (view outcome.2.disk)

theorem Carries.error {e : AnyhowError} {st' : ApplyState σ}
    (h : ∀ v, Describes view v st → Describes view v st') :
    Carries view st done (.error e, st') :=
  ⟨h, nofun⟩

theorem Carries.texts_of_ok {outcome : Except AnyhowError Unit × ApplyState σ} {st' : ApplyState σ}
    (hc : Carries view st done outcome) (h : outcome = (.ok (), st')) : done (view st'.disk) := by
  subst h
  exact hc.texts rfl

section Steps
variable (hl : Lawful fs view)
include hl

variable {affected : PathBuf} {patch : AppliedPatch}

theorem applyAddFile_carries (contents : String) :
    Carries view st (· = Function.update (view st.disk) p (some contents))
      (applyAddFile fs affected p contents st) := by
  unfold applyAddFile
  rcases hr : readOptionalFileTextForDelta fs p st.delta.exact st.disk with ⟨text, exact, s⟩
  obtain ⟨hs, hx⟩ := readOptionalFileTextForDelta_spec hl hr
  dsimp only
  rcases hw : writeFileWithMissingParentRetry fs p contents s with ⟨e | u, t⟩
  · exact .error fun _ _ => describes_inexact st t
  · have ht : view t = Function.update (view st.disk) p (some contents) := by
      rw [writeFileWithMissingParentRetry_spec hl hw, hs]
    refine ⟨fun v hd he => ?_, fun _ => ht⟩
    obtain ⟨hex, htext⟩ := hx he
    have hrun := (hd hex).snoc (c := .put p contents text) htext
    rw [log_push, ht]
    exact hrun

theorem applyDeleteFile_carries :
    Carries view st (fun t => t = Function.update (view st.disk) p none ∧
        ∃ s o, view s = view st.disk ∧ (fs.remove p o s).1 = .ok ())
      (applyDeleteFile fs affected p st) := by
  unfold applyDeleteFile
  rcases hn : noteExistingPathDeltaSupport fs p st.delta.exact st.disk with ⟨exact, s⟩
  obtain ⟨hs, hx⟩ := noteExistingPathDeltaSupport_spec hl hn
  rcases hr : fs.readFileText p s with ⟨read, t⟩
  obtain ⟨ht, hok, -⟩ := readFileText_spec hl hr
  have hts : view t = view st.disk := ht.trans hs
  -- The flag survives only if the read returned the text that is about to be deleted.
  have hread : (if read.toOption.isNone then false else exact) = true →
      st.delta.exact = true ∧ ∃ text, read = .ok text ∧ view st.disk p = some text := by
    intro he
    cases read with
    | error e => simp [Except.toOption] at he
    | ok text => exact ⟨hx (by simpa [Except.toOption] using he), text, rfl, hs ▸ hok text rfl⟩
  simp only [hr]
  rcases he : ensureNotDirectory fs p t with ⟨e | u, a⟩
  · exact .error fun v hd => hd.setExact fun hb =>
      ⟨(hread hb).1, (ensureNotDirectory_spec hl he).trans hts⟩
  · have ha : view a = view st.disk := (ensureNotDirectory_spec hl he).trans hts
    dsimp only
    rcases hm : fs.remove p ⟨false, false⟩ a with ⟨e | u, b⟩
    · dsimp only
      rcases hc : removeFailureWasSideEffectFree fs p read.toOption b with ⟨clean, c⟩
      obtain ⟨hb, hclean⟩ := removeFailureWasSideEffectFree_spec hl hc
      refine .error fun v hd => hd.setExact fun hboth => ?_
      obtain ⟨hex, hcl⟩ := Bool.and_eq_true_iff.mp hboth
      obtain ⟨hst, text, rfl, htext⟩ := hread hex
      have hsame : view b p = view a p := by
        rw [hclean hcl, ha, htext]
        rfl
      exact ⟨hst, hb.trans ((remove_error_spec hl hm hsame).trans ha)⟩
    · have hb : view b = Function.update (view st.disk) p none := by rw [remove_spec hl hm, ha]
      refine ⟨fun v hd hex => ?_, fun _ => ⟨hb, a, _, ha, by rw [hm]⟩⟩
      obtain ⟨hst, text, rfl, htext⟩ := hread (by cases read <;> exact hex)
      have hrun := (hd hst).snoc (c := .drop p text) htext
      rw [hb]
      exact (log_push _ _).symm ▸ hrun

variable (affected) in
theorem applyInPlace_carries (hp : view st.disk p = some patch.originalContents) :
    Carries view st (· = Function.update (view st.disk) p (some patch.newContents))
      (applyInPlace fs affected p patch st) := by
  unfold applyInPlace
  rcases hw : fs.writeFile p patch.newContents st.disk with ⟨e | u, t⟩
  · exact .error fun _ _ => describes_inexact st t
  · refine ⟨fun v hd he => ?_, fun _ => writeFile_spec hl hw⟩
    have hrun := (hd he).snoc (c := .revise p patch.originalContents patch.newContents) hp
    rw [log_push, writeFile_spec hl hw]
    exact hrun

variable (affected) in
/-- Until the source is removed, the record of a move is that of an addition. -/
theorem applyMove_carries (dest : AbsolutePathBuf)
    (hp : view st.disk p = some patch.originalContents) :
    Carries view st
      (· = Function.update (Function.update (view st.disk) dest (some patch.newContents)) p none)
      (applyMove fs affected p dest patch st) := by
  unfold applyMove
  rcases hr : readOptionalFileTextForDelta fs dest st.delta.exact st.disk with ⟨text, exact, s⟩
  obtain ⟨hs, hx⟩ := readOptionalFileTextForDelta_spec hl hr
  dsimp only
  rcases hw : writeFileWithMissingParentRetry fs dest patch.newContents s with ⟨e | u, t⟩
  · exact .error fun _ _ => describes_inexact st t
  · have ht : view t = Function.update (view st.disk) dest (some patch.newContents) := by
      rw [writeFileWithMissingParentRetry_spec hl hw, hs]
    set added : AppliedPatchChange := ⟨dest, .add patch.newContents text⟩ with hadded
    set written : ApplyState σ :=
      { st with disk := t, delta := { st.delta with exact := exact }.push added } with hwritten
    have hdw (v : Texts) (hd : Describes view v st) : Describes view v written := by
      intro he
      obtain ⟨hex, htext⟩ := hx he
      have hrun := (hd hex).snoc (c := .put dest patch.newContents text) htext
      rw [log_push, ht]
      exact hrun
    dsimp only
    rcases he : ensureNotDirectory fs p t with ⟨e | u, a⟩
    · have hdir : view a = view written.disk := ensureNotDirectory_spec hl he
      exact .error fun v hd => (hdw v hd).setExact fun hb => ⟨hb, hdir⟩
    · have ha : view a = view t := ensureNotDirectory_spec hl he
      dsimp only
      rcases hm : fs.remove p ⟨false, false⟩ a with ⟨e | u, b⟩
      · dsimp only
        rcases hc : removeFailureWasSideEffectFree fs p (some patch.originalContents) b with
          ⟨clean, c⟩
        obtain ⟨hb, hclean⟩ := removeFailureWasSideEffectFree_spec hl hc
        refine .error fun v hd => (hdw v hd).setExact fun hboth => ?_
        obtain ⟨hex, hcl⟩ := Bool.and_eq_true_iff.mp hboth
        have hsame : view b p = view a p := by
          rcases remove_self_spec hl hm with hb' | hb'
          · exact hb'
          · rw [hclean hcl] at hb'
            cases hb'
        exact ⟨hex, hb.trans ((remove_error_spec hl hm hsame).trans ha)⟩
      · have hb := remove_spec hl hm
        rw [ha, ht] at hb
        refine ⟨fun v hd hex => ?_, fun _ => hb⟩
        obtain ⟨hst, htext⟩ := hx hex
        have hrun := (hd hst).snoc
          (c := .move p dest patch.originalContents text patch.newContents) ⟨hp, htext⟩
        have hlog : (st.delta.changes ++ [added]).set st.delta.changes.length
            ⟨p, .update (some dest) patch.originalContents text patch.newContents⟩ =
            st.delta.changes ++
              [⟨p, .update (some dest) patch.originalContents text patch.newContents⟩] := by
          simp
        rw [hb]
        simp only [log, push, hlog, List.map_append]
        exact hrun

theorem applyUpdateFile_carries (dest : Option AbsolutePathBuf) (chunks : List UpdateFileChunk) :
    Carries view st (fun t => ∃ old new, view st.disk p = some old ∧
        newContentsFromChunks old p chunks = .ok new ∧ t = relocate p new (view st.disk) dest)
      (applyUpdateFile fs affected p dest chunks st) := by
  unfold applyUpdateFile
  rcases hn : noteExistingPathDeltaSupport fs p st.delta.exact st.disk with ⟨exact, s⟩
  obtain ⟨hs, hx⟩ := noteExistingPathDeltaSupport_spec hl hn
  rcases hr : deriveNewContentsFromChunks fs p chunks s with ⟨e | patch, t⟩
  all_goals
    obtain ⟨ht, hpatch⟩ := deriveNewContentsFromChunks_spec hl hr
    have hview : view t = view st.disk := ht.trans hs
    have hd' (v : Texts) (hd : Describes view v st) : Describes view v (st.setExact exact t) :=
      hd.setExact fun hb => ⟨hx hb, hview⟩
    simp only [hr]
  · exact .error hd'
  · obtain ⟨hold, hnew⟩ := hpatch patch rfl
    rw [hs] at hold
    have hp : view (st.setExact exact t).disk p = some patch.originalContents :=
      (congrFun hview p).trans hold
    cases dest with
    | some dest =>
      have hmove := applyMove_carries hl affected dest hp
      exact ⟨fun v hd => hmove.describes v (hd' v hd), fun hok =>
        ⟨_, _, hold, hnew, hview ▸ hmove.texts hok⟩⟩
    | none =>
      have hwrite := applyInPlace_carries hl affected hp
      exact ⟨fun v hd => hwrite.describes v (hd' v hd), fun hok =>
        ⟨_, _, hold, hnew, hview ▸ hwrite.texts hok⟩⟩

variable {v : Texts}

theorem applyHunk_describes (home : Option PathBuf) (cwd : AbsolutePathBuf) (hunk : Hunk)
    (hd : Describes view v st) : Describes view v (applyHunk fs home cwd hunk st).2 := by
  cases hunk with
  | addFile path contents => exact (applyAddFile_carries hl contents).describes v hd
  | deleteFile path => exact (applyDeleteFile_carries hl).describes v hd
  | updateFile path movePath chunks =>
    exact (applyUpdateFile_carries hl _ chunks).describes v hd

theorem applyHunkLoop_describes (home : Option PathBuf) (cwd : AbsolutePathBuf) (hunks : List Hunk)
    (st : ApplyState σ) (hd : Describes view v st) :
    Describes view v (applyHunkLoop fs home cwd hunks st).2 := by
  induction hunks generalizing st with
  | nil => exact hd
  | cons hunk hunks ih =>
    have hone := applyHunk_describes hl home cwd hunk hd
    rw [applyHunkLoop]
    rcases hh : applyHunk fs home cwd hunk st with ⟨e | u, st'⟩ <;> rw [hh] at hone
    · exact hone
    · exact ih st' hone

/-- Whenever a patch ends, with success or with an error, and its delta is exact, replaying
the recorded changes on the texts before the patch gives the texts left on disk, and every
recorded old content is the one its path had just before that change. -/
theorem exact_delta_describes_disk (home : Option PathBuf) (hunks : List Hunk)
    (cwd : AbsolutePathBuf) (s : σ) (result : Except AnyhowError AffectedPaths)
    (delta : AppliedPatchDelta) (s' : σ)
    (h : applyHunksToFiles fs home hunks cwd .empty s = (result, delta, s'))
    (hexact : delta.exact = true) :
    replay delta.log (view s) = view s' ∧
      ∀ before c after, delta.log = before ++ c :: after → c.Faithful (replay before (view s)) := by
  have hstart : Describes view (view s) (ApplyState.start s .empty) := fun _ => rfl
  have hrun : FaithfulRun (view s) delta.log (view s') := by
    unfold applyHunksToFiles at h
    split_ifs at h with hnil
    · obtain ⟨-, rfl, rfl⟩ := h
      rfl
    · have hd := applyHunkLoop_describes hl home cwd hunks _ hstart
      obtain ⟨-, rfl, rfl⟩ := h
      exact hd hexact
  exact hrun.replay_eq

end Steps

def tenthCallFails : TextDisk :=
  .ofTexts [(⟨["w", "a"]⟩, "x\n")] (List.replicate 9 none ++ [some ⟨.other, none, false⟩])

/-- A file is added, then a rename writes its destination and cannot remove its source. -/
def failedRename : Except AnyhowError AffectedPaths × AppliedPatchDelta × TextDisk :=
  applyHunksToFiles TextDisk.fileSystem none
    [.addFile (.relative ["n"]) "z\n",
      .updateFile (.relative ["a"]) (some (.relative ["b"])) [⟨none, ["x"], ["y"], false⟩]]
    ⟨["w"]⟩ .empty tenthCallFails

theorem exact_delta_describes_failed_rename :
    failedRename.2.1 = ⟨[⟨⟨["w", "n"]⟩, .add "z\n" none⟩, ⟨⟨["w", "b"]⟩, .add "y\n" none⟩], true⟩ ∧
      replay failedRename.2.1.log tenthCallFails.texts = failedRename.2.2.texts := by
  have hdelta : failedRename.2.1 =
      ⟨[⟨⟨["w", "n"]⟩, .add "z\n" none⟩, ⟨⟨["w", "b"]⟩, .add "y\n" none⟩], true⟩ := by
    decide +kernel
  exact ⟨hdelta, (exact_delta_describes_disk TextDisk.lawful none
    [.addFile (.relative ["n"]) "z\n",
      .updateFile (.relative ["a"]) (some (.relative ["b"])) [⟨none, ["x"], ["y"], false⟩]]
    ⟨["w"]⟩ tenthCallFails failedRename.1 failedRename.2.1 failedRename.2.2 rfl
    (by rw [hdelta])).1⟩

end DeepseekX.ApplyPatchHunks
