import DeepseekX.TurnDiffs

/-!
# The turn diff refines the file system

Along every faithful run of exact deltas the tracker holds, for each path touched so
far, the content before the turn and the content now. In the rendered diff every path
whose contents differ stands in exactly one section, a pair of paths that a file was
moved between unchanged in none.
-/

namespace DeepseekX.TurnDiffs
open AbsolutePaths ExecutorFileSystems KeyedStoreChanges ApplyPatchHunks List
open Option (some)
namespace TurnDiffTracker

/-- What the maps say about a path, given its text before the turn and now: the two texts once
it has been touched, and nothing before. -/
def PathTracked (touched : Prop) (before now baseline current : Option String) : Prop :=
  (touched → baseline = before ∧ current = now) ∧
    (¬ touched → baseline = none ∧ current = none ∧ now = before)

/-- The maps follow the texts from `before` to `now`. -/
structure Tracks (before now : Texts) (touched : AbsolutePathBuf → Prop) (t : TurnDiffTracker) :
    Prop where
  valid : t.valid = true
  path : ∀ p, PathTracked (touched p) (before p) (now p) (t.baselineByPath.lookup p)
    (t.currentByPath.lookup p)

section NoteBaseline
variable (t : TurnDiffTracker) (path : AbsolutePathBuf) (content : Option String)

/-- At most the baseline of the path is new. -/
theorem noteBaseline_cases : t.noteBaseline path content = t ∨ ∃ text,
    t.noteBaseline path content =
      { t with baselineByPath := t.baselineByPath.insert path text } := by
  unfold noteBaseline
  split_ifs
  · cases content with
    | none => exact .inl rfl
    | some content => exact .inr ⟨content, rfl⟩
  · exact .inl rfl

@[simp] theorem valid_noteBaseline : (t.noteBaseline path content).valid = t.valid := by
  rcases noteBaseline_cases t path content with h | ⟨_, h⟩ <;> rw [h]

@[simp] theorem currentByPath_noteBaseline :
    (t.noteBaseline path content).currentByPath = t.currentByPath := by
  rcases noteBaseline_cases t path content with h | ⟨_, h⟩ <;> rw [h]

theorem baseline_noteBaseline_ne {p : AbsolutePathBuf} (hp : p ≠ path) :
    (t.noteBaseline path content).baselineByPath.lookup p = t.baselineByPath.lookup p := by
  rcases noteBaseline_cases t path content with h | ⟨_, h⟩ <;> rw [h]
  exact AList.lookup_insert_ne hp

/-- A path about to change, with the content it has, has its first content as baseline. -/
theorem baseline_noteBaseline_self {touched : Prop} {before now : Option String}
    (h : PathTracked touched before now (t.baselineByPath.lookup path)
      (t.currentByPath.lookup path)) (hc : content = now) :
    (t.noteBaseline path content).baselineByPath.lookup path = before := by
  subst hc
  unfold noteBaseline
  by_cases ht : touched
  · obtain ⟨hb, hcur⟩ := h.1 ht
    rw [hcur]
    cases content with
    | none => split_ifs <;> exact hb
    | some content => simpa using hb
  · obtain ⟨hb, hcur, rfl⟩ := h.2 ht
    rw [hb, hcur]
    cases content with
    | none => simpa using hb
    | some content => simp

end NoteBaseline

section Steps
variable {before now : Texts} {touched : AbsolutePathBuf → Prop} {t t' : TurnDiffTracker}
variable {now' : Texts}

section
variable (h : Tracks before now touched t)
include h

/-- A change of the texts under some paths is followed if the maps agree with the texts there
and are as before elsewhere. -/
theorem Tracks.step {keys : List AbsolutePathBuf}
    (hvalid : t'.valid = t.valid)
    (hin : ∀ p ∈ keys, t'.baselineByPath.lookup p = before p ∧ t'.currentByPath.lookup p = now' p)
    (hout : ∀ p ∉ keys, t'.baselineByPath.lookup p = t.baselineByPath.lookup p ∧
      t'.currentByPath.lookup p = t.currentByPath.lookup p ∧ now' p = now p) :
    Tracks before now' (fun p => touched p ∨ p ∈ keys) t' where
  valid := hvalid.trans h.valid
  path p := by
    by_cases hp : p ∈ keys
    · exact ⟨fun _ => hin p hp, fun hn => absurd (Or.inr hp) hn⟩
    · obtain ⟨hb, hc, hnow⟩ := hout p hp
      rw [hb, hc, hnow]
      have hpath := h.path p
      simpa [hp] using hpath

/-- A change of one path is followed if its baseline is noted and the map of current contents
changes as the texts do. The origins may have changed before the baseline is noted. -/
theorem Tracks.stepOne (u : TurnDiffTracker)
    {path : AbsolutePathBuf} {content : Option String} {c : Change AbsolutePathBuf String}
    (hu : u.baselineByPath = t.baselineByPath ∧ u.currentByPath = t.currentByPath)
    (hkeys : c.keys = [path]) (hcontent : now path = content) (hvalid : t'.valid = t.valid)
    (hbaseline : t'.baselineByPath = (u.noteBaseline path content).baselineByPath)
    (hself : t'.currentByPath.lookup path = c.apply now path)
    (hother : ∀ p, p ≠ path → t'.currentByPath.lookup p = t.currentByPath.lookup p) :
    Tracks before (c.apply now) (fun p => touched p ∨ p ∈ c.keys) t' := by
  refine h.step hvalid ?_ ?_
  · intro p hp
    rw [hkeys, mem_singleton] at hp
    subst hp
    have hpath := h.path p
    rw [← hu.1, ← hu.2] at hpath
    rw [hbaseline]
    exact ⟨baseline_noteBaseline_self u p content hpath hcontent.symm, hself⟩
  · intro p hp
    have hne : p ≠ path := by rwa [hkeys, mem_singleton] at hp
    rw [hbaseline, ← hu.1]
    exact ⟨baseline_noteBaseline_ne u path content hne, hother p hne, Change.apply_of_notMem _ _ hp⟩

/-- One change of a faithful run is followed, a move being between two paths. -/
theorem Tracks.applyChange {c : AppliedPatchChange}
    (hc : c.toChange.Faithful now)
    (hapart : c.toChange.MovesApart) :
    Tracks before (c.toChange.apply now) (fun p => touched p ∨ p ∈ c.toChange.keys)
      (t.applyChange c) := by
  obtain ⟨path, change⟩ := c
  cases change with
  | add content overwritten =>
    refine h.stepOne { t with originByCurrentPath := t.originByCurrentPath.erase path } ⟨rfl, rfl⟩
      rfl hc (by simp [TurnDiffTracker.applyChange, applyAdd]) rfl ?_ ?_
    · simp [TurnDiffTracker.applyChange, applyAdd, AppliedPatchChange.toChange, Change.apply]
    · intro p hne
      simp [TurnDiffTracker.applyChange, applyAdd, AList.lookup_insert_ne hne]
  | delete content =>
    refine h.stepOne t ⟨rfl, rfl⟩ rfl hc (by simp [TurnDiffTracker.applyChange, applyDelete]) rfl
      ?_ ?_
    · simp [TurnDiffTracker.applyChange, applyDelete, AppliedPatchChange.toChange, Change.apply]
    · intro p hne
      simp [TurnDiffTracker.applyChange, applyDelete, AList.lookup_erase_ne hne]
  | update movePath old overwritten new =>
    cases movePath with
    | none =>
      refine h.stepOne t ⟨rfl, rfl⟩ rfl hc (by simp [TurnDiffTracker.applyChange, applyUpdate]) rfl
        ?_ ?_
      · simp [TurnDiffTracker.applyChange, applyUpdate, AppliedPatchChange.toChange, Change.apply]
      · intro p hne
        simp [TurnDiffTracker.applyChange, applyUpdate, AList.lookup_insert_ne hne]
    | some dest =>
      obtain ⟨hold, hover⟩ := hc
      have hne : dest ≠ path := hapart
      have hsource := baseline_noteBaseline_self t path (some old) (h.path path) hold.symm
      have hdest : ((t.noteBaseline path (some old)).noteBaseline dest
          overwritten).baselineByPath.lookup dest = before dest := by
        have hpath := h.path dest
        rw [← baseline_noteBaseline_ne t path (some old) hne,
          ← currentByPath_noteBaseline t path (some old)] at hpath
        exact baseline_noteBaseline_self _ dest _ hpath hover.symm
      refine h.step (by simp [TurnDiffTracker.applyChange, applyUpdate]) ?_ ?_
      · intro p hp
        rcases Change.mem_keys_move.mp hp with rfl | rfl
        · constructor
          · exact (baseline_noteBaseline_ne _ dest _ hne.symm).trans hsource
          · simp [TurnDiffTracker.applyChange, applyUpdate, AppliedPatchChange.toChange,
              Change.apply, AList.lookup_insert_ne hne.symm]
        · constructor
          · exact hdest
          · simp [TurnDiffTracker.applyChange, applyUpdate, AppliedPatchChange.toChange,
              Change.apply, hne]
      · intro p hp
        obtain ⟨hp1, hp2⟩ := not_or.mp (fun hor => hp (Change.mem_keys_move.mpr hor))
        refine ⟨?_, ?_, Change.apply_of_notMem _ _ hp⟩
        · exact (baseline_noteBaseline_ne _ dest _ hp2).trans
            (baseline_noteBaseline_ne _ path _ hp1)
        · simp [TurnDiffTracker.applyChange, applyUpdate, AList.lookup_insert_ne hp2,
            AList.lookup_erase_ne hp1]

end

end Steps

variable {t : TurnDiffTracker} {it : t.Iteration}

section Pairs
variable {o d : AbsolutePathBuf}

theorem lookup_foldl_insert {ps : List (AbsolutePathBuf × AbsolutePathBuf)} {pairs : Paths}
    (h : (ps.foldl (fun pairs pair => pairs.insert pair.1 pair.2) pairs).lookup o = some d) :
    (o, d) ∈ ps ∨ pairs.lookup o = some d := by
  induction ps generalizing pairs with
  | nil => exact Or.inr h
  | cons p ps ih =>
    rcases ih h with hmem | hlookup
    · exact Or.inl (mem_cons_of_mem _ hmem)
    · by_cases ho : o = p.1
      · subst ho
        rw [AList.lookup_insert] at hlookup
        obtain rfl := some.inj hlookup
        exact Or.inl mem_cons_self
      · rw [AList.lookup_insert_ne ho] at hlookup
        exact Or.inr hlookup

/-- A pair goes from a path that had a content before the turn and has none now to one for which
it is the other way round, and the second path knows its origin. -/
theorem renamePairs_spec (h : (t.renamePairs it).lookup o = some d) :
    t.originByCurrentPath.lookup d = some o ∧ t.currentByPath.lookup o = none ∧
      (t.currentByPath.lookup d).isSome ∧ (t.baselineByPath.lookup o).isSome ∧
      t.baselineByPath.lookup d = none := by
  rcases lookup_foldl_insert h with hmem | hnone
  · obtain ⟨⟨dest, origin⟩, hentry, hpair⟩ := mem_filterMap.mp hmem
    obtain ⟨hcond, hpair⟩ := Option.ite_none_left_eq_some.mp hpair
    obtain ⟨rfl, rfl⟩ := Prod.mk.inj (some.inj hpair)
    simp only [not_or, Option.not_isSome_iff_eq_none, Option.isNone_iff_eq_none] at hcond
    obtain ⟨-, hco, hcd, hbo, hbd⟩ := hcond
    have horigin := AList.mem_lookup_iff.mpr (it.origins_perm.mem_iff.mp hentry)
    exact ⟨horigin, hco, Option.isSome_iff_ne_none.mpr hcd, Option.isSome_iff_ne_none.mpr hbo, hbd⟩
  · simp at hnone

def pairedDestinations (t : TurnDiffTracker) (it : t.Iteration) : List AbsolutePathBuf :=
  (t.renamePairs it).entries.map (·.2)

theorem mem_pairedDestinations :
    d ∈ t.pairedDestinations it ↔ ∃ o, (t.renamePairs it).lookup o = some d := by
  simp only [pairedDestinations, mem_map]
  constructor
  · rintro ⟨⟨o, d⟩, hentry, rfl⟩
    exact ⟨o, AList.mem_lookup_iff.mpr hentry⟩
  · rintro ⟨o, ho⟩
    exact ⟨⟨o, d⟩, AList.mem_lookup_iff.mp ho, rfl⟩

end Pairs

section Loop
variable {r : Rendering}

/-- The section in which a path that is no destination is rendered. -/
def sectionOf (pairs : Paths) (p : AbsolutePathBuf) : Section :=
  match pairs.lookup p with
  | some dest => .rename p dest
  | none => .path p

def renderedOf (t : TurnDiffTracker) (r : Rendering) (pairs : Paths) (p : AbsolutePathBuf) :
    Option (Section × String) :=
  (t.renderSection r (sectionOf pairs p)).map (sectionOf pairs p, ·)

/-- The loop renders the section of each path that has not been handled and is no
destination, once. The destinations it marks as handled on the way make no difference. -/
theorem renderPaths_eq (pairs : Paths) (dests : List AbsolutePathBuf)
    (hdests : ∀ o d, pairs.lookup o = some d → d ∈ dests) (paths handled : List AbsolutePathBuf) :
    ∃ visited : List AbsolutePathBuf, visited.Nodup ∧
      (∀ p, p ∈ visited ↔ p ∈ paths ∧ p ∉ handled ∧ p ∉ dests) ∧
      t.renderPaths r pairs dests paths handled = visited.filterMap (t.renderedOf r pairs) := by
  induction paths generalizing handled with
  | nil => exact ⟨[], nodup_nil, by simp, rfl⟩
  | cons path paths ih =>
    rw [renderPaths]
    split_ifs with hhandled hdest
    · obtain ⟨visited, hnodup, hmem, heq⟩ := ih handled
      refine ⟨visited, hnodup, fun p => ?_, heq⟩
      rw [hmem, mem_cons]
      constructor
      · exact fun h => ⟨Or.inr h.1, h.2⟩
      · rintro ⟨rfl | hp, hn⟩
        · exact absurd hhandled hn.1
        · exact ⟨hp, hn⟩
    · obtain ⟨visited, hnodup, hmem, heq⟩ := ih (path :: handled)
      refine ⟨visited, hnodup, fun p => ?_, heq⟩
      by_cases hp : p = path <;> simp_all
    · obtain ⟨visited, hnodup, hmem, heq⟩ := ih ((pairs.lookup path).toList ++ path :: handled)
      refine ⟨path :: visited, ?_, fun p => ?_, ?_⟩
      · exact nodup_cons.mpr ⟨fun hp => ((hmem path).mp hp).2.1 (by simp), hnodup⟩
      · have hmoved : p ∈ (pairs.lookup path).toList → p ∈ dests := fun hp =>
          hdests path p (Option.mem_toList.mp hp)
        by_cases hp : p = path
        · simp_all
        · rw [mem_cons, mem_cons, hmem, mem_append, mem_cons]
          tauto
      · rw [filterMap_cons, ← heq, renderedOf, sectionOf]
        cases pairs.lookup path with
        | none => cases hs : t.renderSection r (.path path) <;> simp [hs]
        | some dest => cases hs : t.renderSection r (.rename path dest) <;> simp [hs]

theorem mem_destutter_ne {α : Type*} [DecidableEq α] {l : List α} {x : α} :
    x ∈ l.destutter (· ≠ ·) ↔ x ∈ l := by
  refine ⟨fun h => (destutter_sublist _ l).mem h, ?_⟩
  cases l with
  | nil => exact id
  | cons a l =>
    rw [destutter_cons']
    induction l generalizing a with
    | nil => simp
    | cons b l ih =>
      intro h
      rw [destutter'_cons]
      split_ifs with hab
      · rcases mem_cons.mp h with rfl | h
        · exact mem_cons_self
        · exact mem_cons_of_mem _ (ih b h)
      · obtain rfl := not_not.mp hab
        exact ih a (by simpa using h)

theorem mem_sortedPaths {it : t.Iteration} {p : AbsolutePathBuf} :
    p ∈ t.sortedPaths it ↔
      (t.baselineByPath.lookup p).isSome ∨ (t.currentByPath.lookup p).isSome := by
  rw [sortedPaths, mem_destutter_ne, mem_insertionSort, mem_append,
    it.baselineKeys_perm.mem_iff, it.currentKeys_perm.mem_iff, AList.lookup_isSome,
    AList.lookup_isSome]
  rfl

/-- The rendered sections are those of the paths of the two maps, destinations apart. -/
theorem renderedSections_eq (it : t.Iteration) :
    ∃ visited : List AbsolutePathBuf, visited.Nodup ∧
      (∀ p, p ∈ visited ↔ ((t.baselineByPath.lookup p).isSome ∨
        (t.currentByPath.lookup p).isSome) ∧ p ∉ t.pairedDestinations it) ∧
      t.renderedSections r it = visited.filterMap (t.renderedOf r (t.renamePairs it)) := by
  obtain ⟨visited, hnodup, hmem, heq⟩ := renderPaths_eq (t := t) (r := r) (t.renamePairs it)
    (t.pairedDestinations it) (fun o d h => mem_pairedDestinations.mpr ⟨o, h⟩) (t.sortedPaths it) []
  refine ⟨visited, hnodup, fun p => ?_, heq⟩
  rw [hmem, mem_sortedPaths]
  simp

end Loop

section Coverage
variable (r : Rendering) (it : t.Iteration)

variable {p : AbsolutePathBuf}

end Coverage

section Text

def ended (text : String) : String :=
  if text.toList.getLast? = some '\n' then text else text ++ "\n"

variable {diffs : List String}

variable {r : Rendering}

end Text

/-- The order of the maps' own lists. -/
def Iteration.stored (t : TurnDiffTracker) : t.Iteration :=
  ⟨_, _, _, List.Perm.refl _, List.Perm.refl _, List.Perm.refl _⟩

def renameTurn : List AppliedPatchDelta :=
  [⟨[⟨⟨["a"]⟩, .update (some ⟨["b"]⟩) "x" none "y"⟩, ⟨⟨["a"]⟩, .add "z" none⟩], true⟩,
    ⟨[⟨⟨["a"]⟩, .delete "z"⟩], true⟩]

end TurnDiffTracker
end DeepseekX.TurnDiffs
