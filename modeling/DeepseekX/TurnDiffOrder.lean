import DeepseekX.StableSorting
import DeepseekX.TurnDiffRefinement
import Mathlib.Data.String.Basic

/-!
# The turn diff and the order of the maps

The maps of the tracker are enumerated in any order. Where no two tracked paths are displayed
alike, the order shows in the diff exactly if two new files come from one origin that is gone:
the file that is enumerated last is rendered as the renamed one.
-/

namespace DeepseekX.TurnDiffs
open AbsolutePaths ApplyPatchHunks StableSorting List Option
namespace TurnDiffTracker

variable (t : TurnDiffTracker)

section Order
variable {t : TurnDiffTracker}

def Tracked (p : AbsolutePathBuf) : Prop :=
  (t.baselineByPath.lookup p).isSome ∨ (t.currentByPath.lookup p).isSome

def DisplayedApart : Prop :=
  ∀ p q, t.Tracked p → t.Tracked q → t.displayPath p = t.displayPath q → p = q

theorem tracked_iff {p : AbsolutePathBuf} :
    t.Tracked p ↔ p ∈ t.baselineByPath.keys ++ t.currentByPath.keys := by
  rw [Tracked, mem_append, AList.lookup_isSome, AList.lookup_isSome]
  rfl

/-- A file that is new at its path has come from an origin that is gone. -/
structure NewFrom (originPath destPath : AbsolutePathBuf) : Prop where
  origin : t.originByCurrentPath.lookup destPath = some originPath
  gone : t.currentByPath.lookup originPath = none
  present : (t.currentByPath.lookup destPath).isSome
  before : (t.baselineByPath.lookup originPath).isSome
  new : t.baselineByPath.lookup destPath = none

def OriginsApart : Prop :=
  ∀ origin dest dest', t.NewFrom origin dest → t.NewFrom origin dest' → dest = dest'

variable {o d leftPath rightPath d' : AbsolutePathBuf} {it : t.Iteration}

theorem NewFrom.renamePair (h : t.NewFrom o d) : t.renamePair ⟨d, o⟩ = some (o, d) := by
  have hne : d ≠ o := by
    rintro rfl
    have hbefore := h.before
    simp [h.new] at hbefore
  have hpresent := isSome_iff_ne_none.mp h.present
  have hbefore := isSome_iff_ne_none.mp h.before
  simp [TurnDiffTracker.renamePair, hne, h.gone, h.new, hpresent, hbefore]

theorem isSome_lookup_foldl_insert {ps : List (AbsolutePathBuf × AbsolutePathBuf)} {pairs : Paths}
    (h : (o, d) ∈ ps ∨ (pairs.lookup o).isSome) :
    ((ps.foldl (fun pairs pair => pairs.insert pair.1 pair.2) pairs).lookup o).isSome := by
  induction ps generalizing pairs with
  | nil => exact h.resolve_left not_mem_nil
  | cons p ps ih =>
    refine ih ?_
    by_cases ho : o = p.1
    · subst ho
      exact .inr (by simp)
    · refine h.imp (fun hmem => ?_) fun hsome => ?_
      · exact (mem_cons.mp hmem).resolve_left fun heq => ho (congrArg Prod.fst heq)
      · rwa [AList.lookup_insert_ne ho]

/-- If every origin has one new file, the pairs are these. -/
theorem lookup_renamePairs (h : t.OriginsApart) (it : t.Iteration) :
    (t.renamePairs it).lookup o = some d ↔ t.NewFrom o d := by
  have hnew {d' : AbsolutePathBuf} (hd : (t.renamePairs it).lookup o = some d') : t.NewFrom o d' :=
    have ⟨horigin, hgone, hpresent, hbefore, hnew⟩ := renamePairs_spec hd
    ⟨horigin, hgone, hpresent, hbefore, hnew⟩
  refine ⟨hnew, fun hd => ?_⟩
  have hentry : (⟨d, o⟩ : Σ _ : AbsolutePathBuf, AbsolutePathBuf) ∈ it.origins :=
    it.origins_perm.mem_iff.mpr (AList.mem_lookup_iff.mp hd.origin)
  have hsome : ((t.renamePairs it).lookup o).isSome :=
    isSome_lookup_foldl_insert (.inl (mem_filterMap.mpr ⟨_, hentry, hd.renamePair⟩))
  obtain ⟨d', hd'⟩ := isSome_iff_exists.mp hsome
  rw [hd', h o d' d (hnew hd') hd]

/-- The loop sees of the pairs and of the rendering only the sections. -/
theorem renderPaths_congr {r r' : Rendering} {pairs pairs' : Paths}
    {dests dests' : List AbsolutePathBuf} (hpairs : ∀ p, pairs'.lookup p = pairs.lookup p)
    (hdests : ∀ p, p ∈ dests' ↔ p ∈ dests)
    (hsections : ∀ p ∉ dests, t.renderSection r' (sectionOf pairs p) =
      t.renderSection r (sectionOf pairs p)) (paths handled : List AbsolutePathBuf) :
    t.renderPaths r' pairs' dests' paths handled = t.renderPaths r pairs dests paths handled := by
  induction paths generalizing handled with
  | nil => rfl
  | cons path paths ih =>
    rw [renderPaths, renderPaths]
    simp only [hpairs, hdests, ih]
    split_ifs with hhandled hdest
    · rfl
    · rfl
    · have hsection := hsections path hdest
      unfold sectionOf at hsection
      cases hl : pairs.lookup path <;> simp [hl] at hsection ⊢ <;> rw [hsection]

theorem sortedPaths_eq (h : t.DisplayedApart) (it it' : t.Iteration) :
    t.sortedPaths it = t.sortedPaths it' := by
  have hperm : (it.baselineKeys ++ it.currentKeys).Perm (it'.baselineKeys ++ it'.currentKeys) :=
    (it.baselineKeys_perm.trans it'.baselineKeys_perm.symm).append
      (it.currentKeys_perm.trans it'.currentKeys_perm.symm)
  have htracked (p : AbsolutePathBuf) (hp : p ∈ it.baselineKeys ++ it.currentKeys) :
      t.Tracked p := by
    rwa [tracked_iff, ← (it.baselineKeys_perm.append it.currentKeys_perm).mem_iff]
  have hsort := @insertionSort_eq_of_perm _ String _ t.displayPath _ _ hperm
    fun p hp q hq => h p q (htracked p hp) (htracked q hq)
  unfold sortedPaths
  congr 1

theorem renderedSections_congr (hdisplay : t.DisplayedApart) (horigins : t.OriginsApart)
    (r : Rendering) (it it' : t.Iteration) :
    t.renderedSections r it = t.renderedSections r it' := by
  have hlookup (p : AbsolutePathBuf) : (t.renamePairs it).lookup p = (t.renamePairs it').lookup p :=
    ext fun d =>
      (lookup_renamePairs horigins it).trans (lookup_renamePairs horigins it').symm
  have hdests (p : AbsolutePathBuf) :
      p ∈ t.pairedDestinations it ↔ p ∈ t.pairedDestinations it' := by
    simp only [mem_pairedDestinations, hlookup]
  rw [renderedSections, sortedPaths_eq hdisplay it it']
  exact renderPaths_congr hlookup hdests (fun _ _ => rfl) _ _

/-- Some order enumerates the file last and so renders it as renamed. -/
theorem NewFrom.exists_iteration (h : t.NewFrom o d) :
    ∃ it : t.Iteration, (t.renamePairs it).lookup o = some d := by
  have hentry := AList.mem_lookup_iff.mp h.origin
  refine ⟨⟨_, _, t.originByCurrentPath.entries.erase ⟨d, o⟩ ++ [⟨d, o⟩], .refl _, .refl _, ?_⟩, ?_⟩
  · exact perm_append_comm.trans (perm_cons_erase hentry).symm
  · simp [renamePairs, h.renamePair]

/-- A rendering in which the section of a file that is displayed as new under this name is
`size` characters longer. -/
def marking (display : String) (size : ℕ) : Rendering where
  gitBlobOid _ := ""
  unifiedDiff _ _ _ oldHeader newHeader :=
    if oldHeader = devNull ∧ newHeader = "b/" ++ display then
      String.ofList (replicate size 'x')
    else ""

theorem renderDiff_marking {display : String} {size : ℕ} {leftContent rightContent : Option String}
    (h : leftContent.isSome ∨ t.displayPath rightPath ≠ display) :
    t.renderDiff (marking display size) leftPath leftContent rightPath rightContent =
      t.renderDiff (marking display 0) leftPath leftContent rightPath rightContent := by
  have hunmarked : ¬ ((if leftContent.isSome then "a/" ++ t.displayPath leftPath else devNull) =
      devNull ∧ (if rightContent.isSome then "b/" ++ t.displayPath rightPath else devNull) =
        "b/" ++ display) := by
    rintro ⟨hleft, hright⟩
    rcases h with hsome | hne
    · rw [if_pos hsome] at hleft
      simpa [devNull] using congrArg String.toList hleft
    · split at hright
      · exact hne (by simpa using hright)
      · simpa [devNull] using congrArg String.toList hright
  unfold renderDiff
  simp only [marking, if_neg hunmarked]

theorem renderDiff_self {r : Rendering} {content : Option String} :
    t.renderDiff r leftPath content rightPath content = none :=
  if_pos rfl

theorem length_le_foldl_aggregate (diffs : List String) (aggregated : String) :
    aggregated.length ≤ (diffs.foldl (fun aggregated diff =>
      let aggregated := aggregated ++ diff
      if aggregated.toList.getLast? = some '\n' then aggregated
      else aggregated ++ "\n") aggregated).length := by
  induction diffs generalizing aggregated with
  | nil => exact le_rfl
  | cons diff diffs ih =>
    refine le_trans ?_ (ih _)
    dsimp only
    split <;> simp only [String.length_append] <;> omega

theorem length_le_aggregate {diffs : List String} {diff : String} (h : diff ∈ diffs) :
    diff.length ≤ (aggregate diffs).length := by
  obtain ⟨before, after, rfl⟩ := append_of_mem h
  rw [aggregate, foldl_append, foldl_cons]
  refine le_trans ?_ (length_le_foldl_aggregate _ _)
  dsimp only
  split <;> simp only [String.length_append] <;> omega

/-- Where the file is rendered as renamed, no section is marked. -/
theorem renderedSections_marking (hdisplay : t.DisplayedApart)
    (h : (t.renamePairs it).lookup o = some d) (size : ℕ) :
    t.renderedSections (marking (t.displayPath d) size) it =
      t.renderedSections (marking (t.displayPath d) 0) it := by
  refine renderPaths_congr (fun _ => rfl) (fun _ => .rfl) (fun p hp => ?_) _ _
  unfold sectionOf
  split
  next dest hdest => exact renderDiff_marking (.inl (renamePairs_spec hdest).2.2.2.1)
  next =>
    by_cases hcurrent : (t.currentByPath.lookup p).isSome
    · refine renderDiff_marking (.inr fun heq => hp ?_)
      rw [hdisplay p d (.inr hcurrent) (.inr (renamePairs_spec h).2.2.1) heq]
      exact mem_pairedDestinations.mpr ⟨o, h⟩
    · cases hbaseline : t.baselineByPath.lookup p with
      | some content => exact renderDiff_marking (.inl (by simp [hbaseline]))
      | none =>
        rw [not_isSome_iff_eq_none] at hcurrent
        rw [renderSection, renderSection, hbaseline, hcurrent, renderDiff_self, renderDiff_self]

/-- Where another file is rendered as renamed, the section of the new file is marked. -/
theorem NewFrom.length_le (h : t.NewFrom o d) (h' : (t.renamePairs it).lookup o = some d')
    (hne : d' ≠ d) (size : ℕ) :
    size ≤ (aggregate ((t.renderedSections (marking (t.displayPath d) size) it).map
      (·.2))).length := by
  obtain ⟨visited, -, hvisited, heq⟩ := renderedSections_eq (r := marking (t.displayPath d) size) it
  have hdest : d ∉ t.pairedDestinations it := fun hmem => by
    obtain ⟨o', ho'⟩ := mem_pairedDestinations.mp hmem
    obtain rfl := some.inj ((renamePairs_spec ho').1.symm.trans h.origin)
    exact hne (some.inj (h'.symm.trans ho'))
  have hpair : (t.renamePairs it).lookup d = none := by
    by_contra hsome
    obtain ⟨d'', hd''⟩ := ne_none_iff_exists'.mp hsome
    have hbefore := (renamePairs_spec hd'').2.2.2.1
    simp [h.new] at hbefore
  obtain ⟨content, hcontent⟩ := isSome_iff_exists.mp h.present
  obtain ⟨text, htext⟩ : ∃ text, t.renderSection (marking (t.displayPath d) size) (.path d) =
      some (text ++ String.ofList (replicate size 'x')) := by
    rw [renderSection, h.new, hcontent]
    unfold renderDiff
    exact ⟨_, by simp [marking]; rfl⟩
  have hmem : (Section.path d, text ++ String.ofList (replicate size 'x')) ∈
      t.renderedSections (marking (t.displayPath d) size) it := by
    rw [heq, mem_filterMap]
    refine ⟨d, (hvisited d).mpr ⟨.inr h.present, hdest⟩, ?_⟩
    simp [renderedOf, sectionOf, hpair, htext]
  refine le_trans ?_ (length_le_aggregate (mem_map_of_mem hmem))
  simp

theorem getD_getUnifiedDiff (hvalid : t.valid = true) (r : Rendering) (it : t.Iteration) :
    (t.getUnifiedDiff r it).getD "" = aggregate ((t.renderedSections r it).map (·.2)) := by
  simp only [getUnifiedDiff, hvalid, Bool.not_true, Bool.false_eq_true, if_false]
  split
  next hempty => rw [hempty, getD_none]
  next => rfl

theorem exists_dependent_of_shared (hvalid : t.valid = true) (hdisplay : t.DisplayedApart)
    (hd : t.NewFrom o d) (hd' : t.NewFrom o d') (hne : d ≠ d') :
    ∃ (r : Rendering) (it it' : t.Iteration), t.getUnifiedDiff r it ≠ t.getUnifiedDiff r it' := by
  obtain ⟨it, hit⟩ := hd.exists_iteration
  obtain ⟨it', hit'⟩ := hd'.exists_iteration
  -- the mark is longer than the whole text without it
  generalize hsize : (aggregate ((t.renderedSections (marking (t.displayPath d) 0) it).map
    (·.2))).length + 1 = size
  refine ⟨marking (t.displayPath d) size, it, it', fun heq => ?_⟩
  have htexts := congrArg (getD · "") heq
  rw [getD_getUnifiedDiff hvalid, getD_getUnifiedDiff hvalid,
    renderedSections_marking hdisplay hit] at htexts
  have hlong := hd.length_le hit' hne.symm size
  rw [← htexts] at hlong
  omega

theorem valid_applyChange (c : AppliedPatchChange) : (t.applyChange c).valid = t.valid := by
  unfold applyChange
  split
  · simp [applyAdd]
  · simp [applyDelete]
  · unfold applyUpdate
    split <;> simp

theorem valid_trackDelta {delta : AppliedPatchDelta} (hexact : delta.exact = true) :
    (t.trackDelta delta).valid = t.valid := by
  rw [trackDelta, hexact]
  exact foldlRecOn (motive := fun u => u.valid = t.valid) delta.changes applyChange rfl
    fun u hu c _ => (valid_applyChange c).trans hu

theorem valid_foldl_trackDelta (deltas : List AppliedPatchDelta)
    (hexact : ∀ delta ∈ deltas, delta.exact = true) :
    (deltas.foldl trackDelta t).valid = t.valid :=
  foldlRecOn (motive := fun u => u.valid = t.valid) deltas trackDelta rfl
    fun _ hu delta hdelta => (valid_trackDelta (hexact delta hdelta)).trans hu

end Order

/-- After every run of exact deltas that leaves no two tracked paths displayed alike, the diff
is the same for every order of the maps exactly if no two new files come from one origin that
is gone. -/
theorem diff_independent_of_order_iff (root : Option PathBuf) (deltas : List AppliedPatchDelta)
    (hexact : ∀ delta ∈ deltas, delta.exact = true)
    (hdisplay : (deltas.foldl trackDelta (withDisplayRoot root)).DisplayedApart) :
    let t := deltas.foldl trackDelta (withDisplayRoot root)
    (∀ (r : Rendering) (it it' : t.Iteration), t.getUnifiedDiff r it = t.getUnifiedDiff r it') ↔
      t.OriginsApart := by
  intro t
  constructor
  · intro hsame o d d' hd hd'
    by_contra hne
    have hvalid : t.valid = true := valid_foldl_trackDelta deltas hexact
    obtain ⟨r, it, it', hdiffer⟩ := exists_dependent_of_shared hvalid hdisplay hd hd' hne
    exact hdiffer (hsame r it it')
  · intro horigins r it it'
    rw [getUnifiedDiff, getUnifiedDiff, renderedSections_congr hdisplay horigins r it it']

def Iteration.reversed : t.Iteration :=
  ⟨_, _, _, reverse_perm _, reverse_perm _, reverse_perm _⟩

def diffIn (order : ∀ t : TurnDiffTracker, t.Iteration) (deltas : List AppliedPatchDelta) :
    Option String :=
  getUnifiedDiff _ ⟨id, fun _ _ new _ _ => new⟩
    (order (deltas.foldl trackDelta (withDisplayRoot none)))

theorem rename_independent_of_order : diffIn .stored renameTurn = diffIn .reversed renameTurn := by
  let t := renameTurn.foldl trackDelta (withDisplayRoot none)
  have hapart : ∀ p ∈ t.baselineByPath.keys ++ t.currentByPath.keys,
      ∀ q ∈ t.baselineByPath.keys ++ t.currentByPath.keys,
        t.displayPath p = t.displayPath q → p = q := by decide +kernel
  have hdisplay : t.DisplayedApart := fun p q hp hq =>
    hapart p (tracked_iff.mp hp) q (tracked_iff.mp hq)
  have hdest (o d : AbsolutePathBuf) (h : t.NewFrom o d) : d = ⟨["b"]⟩ :=
    mem_singleton.mp (AList.lookup_isSome.mp (isSome_of_eq_some h.origin))
  refine (diff_independent_of_order_iff none renameTurn (by decide) hdisplay).mpr ?_ _ _ _
  intro o d d' hd hd'
  rw [hdest o d hd, hdest o d' hd']

def movedTwice : List AppliedPatchDelta :=
  [⟨[⟨⟨["a"]⟩, .update (some ⟨["b"]⟩) "x" none "y"⟩, ⟨⟨["a"]⟩, .add "x" none⟩,
    ⟨⟨["a"]⟩, .update (some ⟨["c"]⟩) "x" none "z"⟩], true⟩]

def displayedAlike : List AppliedPatchDelta :=
  [⟨[⟨⟨["a", "b"]⟩, .update none "" none "x"⟩, ⟨⟨["a\\b"]⟩, .update none "" none "y"⟩], true⟩]

theorem diff_depends_on_order : diffIn .stored movedTwice ≠ diffIn .reversed movedTwice ∧
    diffIn .stored displayedAlike ≠ diffIn .reversed displayedAlike := by
  decide +kernel

end TurnDiffTracker
end DeepseekX.TurnDiffs
