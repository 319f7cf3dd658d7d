import Mathlib.Data.List.DropRight
import DeepseekX.GuardedRuns

/-!
# The two regions of a streamed message

The markdown of a message is rendered anew for each line that has arrived. Rendered lines that
stay go to a queue, from which they are emitted; the lines of a table that may still grow are held
back. When the layout changes, the queue is made again from the lines not yet emitted.
-/

namespace DeepseekX.StreamRegions
open GuardedRuns List

inductive HistoryRenderMode where
  | rich
  | raw
  deriving DecidableEq

/-- The renderer, and where the scanner finds the table that the source ends with. -/
structure Markdown (L : Type*) where
  render : HistoryRenderMode → Option ℕ → List Char → List L
  tableStart : List Char → Option ℕ

/-- Of the collector's buffer this has the part not yet committed. -/
structure StreamCore (L : Type*) where
  uncommitted : List Char
  queuedLines : List L
  width : Option ℕ
  renderMode : HistoryRenderMode
  rawSource : List Char
  renderedLines : List L
  enqueuedStableLen : ℕ
  emittedStableLen : ℕ

inductive Operation where
  | pushDelta (delta : List Char)
  | tick
  | tickBatch (maxLines : ℕ)
  | setWidth (width : Option ℕ)
  | setRenderMode (mode : HistoryRenderMode)

def Operation.delta : Operation → List Char
  | pushDelta delta => delta
  | _ => []

namespace StreamCore
variable {L : Type*}

def new (width : Option ℕ) (mode : HistoryRenderMode) : StreamCore L :=
  ⟨[], [], width, mode, [], [], 0, 0⟩

variable (md : Markdown L) (core : StreamCore L)

def renderSource (source : List Char) : List L := md.render core.renderMode core.width source

def hasTail : Bool := core.enqueuedStableLen < core.renderedLines.length

def activeTailBudgetLines : ℕ :=
  match core.renderMode, md.tableStart core.rawSource with
  | .rich, some 0 => core.renderedLines.length
  | .rich, some start =>
    core.renderedLines.length - (core.renderSource md (core.rawSource.take start)).length
  | _, _ => 0

def computeTargetStableLen : ℕ :=
  max (core.renderedLines.length - core.activeTailBudgetLines md) core.emittedStableLen

/-- `rendered_lines[start..stop]`. -/
def lines (start stop : ℕ) : List L := (core.renderedLines.take stop).drop start

def rebuildStableQueueFromRender : StreamCore L :=
  let target := core.computeTargetStableLen md
  { core with
    queuedLines :=
      if core.emittedStableLen < target then core.lines core.emittedStableLen target else []
    enqueuedStableLen := target }

def syncStableQueue : StreamCore L :=
  let target := core.computeTargetStableLen md
  if target < core.enqueuedStableLen then core.rebuildStableQueueFromRender md
  else if target = core.enqueuedStableLen then core
  else
    { core with
      queuedLines := core.queuedLines ++ core.lines core.enqueuedStableLen target
      enqueuedStableLen := target }

/-- Only complete lines are committed. -/
def pushDelta (delta : List Char) : StreamCore L :=
  let buffer := core.uncommitted ++ delta
  if '\n' ∈ delta then
    let source := core.rawSource ++ buffer.rdropWhile (· ≠ '\n')
    { core with
      uncommitted := buffer.rtakeWhile (· ≠ '\n')
      rawSource := source
      renderedLines := core.renderSource md source }.syncStableQueue md
  else { core with uncommitted := buffer }

def drain (maxLines : ℕ) : StreamCore L :=
  { core with
    queuedLines := core.queuedLines.drop maxLines
    emittedStableLen := core.emittedStableLen + (core.queuedLines.take maxLines).length }

/-- `set_width` and `set_render_mode`, where the layout is another one. -/
def setLayout (width : Option ℕ) (renderMode : HistoryRenderMode) : StreamCore L :=
  let renderedLines := md.render renderMode width core.rawSource
  let emitted := min core.emittedStableLen renderedLines.length
  let emittedStableLen :=
    if core.queuedLines ≠ [] ∧ emitted = renderedLines.length ∧ 0 < emitted then emitted - 1
    else emitted
  if core.rawSource = [] then { core with width, renderMode }
  else if 0 < emittedStableLen ∧ core.queuedLines = [] ∧ core.hasTail = false then
    { core with
      width, renderMode, renderedLines, emittedStableLen, queuedLines := []
      enqueuedStableLen := renderedLines.length }
  else
    { core with width, renderMode, renderedLines, emittedStableLen }.rebuildStableQueueFromRender md

def step : Operation → StreamCore L
  | .pushDelta delta => core.pushDelta md delta
  | .tick => core.drain 1
  | .tickBatch maxLines => core.drain maxLines
  | .setWidth width =>
    if core.width = width then core else core.setLayout md width core.renderMode
  | .setRenderMode mode =>
    if core.renderMode = mode then core else core.setLayout md core.width mode

def output : Operation → List L
  | .tick => core.queuedLines.take 1
  | .tickBatch maxLines => core.queuedLines.take maxLines
  | _ => []

def outputs (core : StreamCore L) : List Operation → List L
  | [] => []
  | op :: ops => core.output op ++ outputs (core.step md op) ops

/-- What `finalize_and_drain_source` returns for the rest of the source. -/
def terminated (rest : List Char) : List Char :=
  if rest = [] ∨ rest.getLast? = some '\n' then rest else rest ++ ['\n']

def finalizeRemaining : List L :=
  (core.renderSource md (core.rawSource ++ terminated core.uncommitted)).drop core.emittedStableLen

end StreamCore

open StreamCore

section Regions
variable {L : Type*} (md : Markdown L) (core : StreamCore L)

/-- The stable lines are the first ones for every longer source. -/
def Stable : Prop :=
  ∀ more, core.renderedLines.take (core.computeTargetStableLen md) <+:
    core.renderSource md (core.rawSource ++ more)

def KeepsLayout : Operation → Prop
  | .setWidth width => core.width = width
  | .setRenderMode mode => core.renderMode = mode
  | _ => True

/-- In the layout there are not more lines than were emitted, where those are all there were. -/
def Counted (width : Option ℕ) (mode : HistoryRenderMode) : Prop :=
  core.emittedStableLen = 0 ∨ core.queuedLines ≠ [] ∨ core.hasTail = true ∨
    (md.render mode width core.rawSource).length ≤ core.emittedStableLen

def KeepsCount : Operation → Prop
  | .setWidth width => core.width = width ∨ Counted md core width core.renderMode
  | .setRenderMode mode => core.renderMode = mode ∨ Counted md core core.width mode
  | _ => True

/-- The queue holds the stable lines that are not yet emitted. -/
structure TwoRegions : Prop where
  emitted : core.emittedStableLen ≤ core.enqueuedStableLen
  enqueued : core.enqueuedStableLen ≤ core.renderedLines.length
  queued : core.queuedLines = core.lines core.emittedStableLen core.enqueuedStableLen

/-- The queue continues the lines that are shown, and both together are the stable region. -/
structure Inv (source : List Char) (shown : List L) : Prop where
  source : core.rawSource ++ core.uncommitted = source
  committed : core.rawSource = [] ∧ core.renderedLines = [] ∨ core.rawSource.getLast? = some '\n'
  length : shown.length = core.emittedStableLen
  split : shown ++ core.queuedLines = core.renderedLines.take core.enqueuedStableLen
  enqueued : core.enqueuedStableLen ≤ core.renderedLines.length
  target : core.enqueuedStableLen = core.computeTargetStableLen md

variable {md core} {source : List Char} {shown : List L}

theorem prefix_lines {stop : ℕ} {front : List L} (hfront : front <+: core.renderedLines)
    (hstop : front.length ≤ stop) :
    front ++ core.lines front.length stop = core.renderedLines.take stop :=
  prefix_iff_eq_append.mp (prefix_take_iff.mpr ⟨hfront, hstop⟩)

section Sync
variable (hsource : core.rawSource ++ core.uncommitted = source)
  (hcommitted : core.rawSource.getLast? = some '\n')
  (hlength : shown.length = core.emittedStableLen)
include hsource hcommitted hlength

theorem inv_rebuild (hshown : shown <+: core.renderedLines) :
    Inv md (core.rebuildStableQueueFromRender md) source shown := by
  have hle : core.emittedStableLen ≤ core.computeTargetStableLen md := le_max_right _ _
  refine ⟨hsource, .inr hcommitted, hlength, ?_,
    max_le (Nat.sub_le _ _) (hlength ▸ hshown.length_le), rfl⟩
  dsimp only [rebuildStableQueueFromRender]
  split
  · rw [← hlength] at hle ⊢
    exact prefix_lines hshown hle
  next hge => rw [append_nil, ← hle.eq_of_not_lt hge, ← hlength, ← prefix_iff_eq_take.mp hshown]

theorem inv_sync (hstable : shown ++ core.queuedLines <+: core.renderedLines)
    (henqueued : (shown ++ core.queuedLines).length = core.enqueuedStableLen) :
    Inv md (core.syncStableQueue md) source shown := by
  have hshown := (prefix_append shown core.queuedLines).trans hstable
  unfold syncStableQueue
  dsimp only
  split
  · exact inv_rebuild hsource hcommitted hlength hshown
  next hge =>
    rw [← henqueued] at hge
    split
    next heq =>
      refine ⟨hsource, .inr hcommitted, hlength, ?_, henqueued ▸ hstable.length_le, heq.symm⟩
      rw [← henqueued, ← prefix_iff_eq_take.mp hstable]
    next =>
      refine ⟨hsource, .inr hcommitted, hlength, ?_,
        max_le (Nat.sub_le _ _) (hlength ▸ hshown.length_le), rfl⟩
      dsimp only
      rw [← append_assoc, ← henqueued]
      exact prefix_lines hstable (not_lt.mp hge)

end Sync

theorem inv_new (width : Option ℕ) (mode : HistoryRenderMode) :
    Inv md (.new width mode) [] ([] : List L) :=
  ⟨rfl, .inl ⟨rfl, rfl⟩, rfl, rfl, le_rfl, by simp [new, computeTargetStableLen]⟩

theorem getLast?_rdropWhile {buffer : List Char} (hnewline : '\n' ∈ buffer) :
    (buffer.rdropWhile (· ≠ '\n')).getLast? = some '\n' := by
  have hne : buffer.rdropWhile (· ≠ '\n') ≠ [] := by
    rw [Ne, rdropWhile_eq_nil_iff]
    exact fun hnone => by simpa using hnone '\n' hnewline
  have hlast := rdropWhile_last_not _ _ hne
  rw [getLast?_eq_some_getLast hne]
  simpa using hlast

theorem terminated_append {committed rest : List Char}
    (hcommitted : committed = [] ∨ committed.getLast? = some '\n') :
    committed ++ terminated rest = terminated (committed ++ rest) := by
  rcases eq_or_ne rest [] with rfl | hrest
  · simp [terminated, hcommitted]
  · unfold terminated
    rw [getLast?_append_of_ne_nil _ hrest]
    simp [hrest]
    split <;> simp

variable (h : Inv md core source shown)
include h

theorem Inv.twoRegions : TwoRegions core := by
  refine ⟨?_, h.enqueued, ?_⟩
  · rw [h.target]
    exact le_max_right _ _
  · rw [lines, ← h.split, ← h.length, drop_left]

theorem Inv.pushDelta (hstable : Stable md core) (delta : List Char) :
    Inv md (core.pushDelta md delta) (source ++ delta) shown := by
  rw [← h.source, append_assoc]
  unfold StreamCore.pushDelta
  dsimp only
  split
  next hnewline =>
    have hlast := getLast?_rdropWhile (mem_append_right core.uncommitted hnewline)
    refine inv_sync (by simp [rdropWhile_append_rtakeWhile]) ?_ h.length ?_ ?_ <;>
      dsimp only
    · rw [getLast?_append, hlast]
      rfl
    · rw [h.split, h.target]
      exact hstable _
    · rw [h.split]
      exact length_take_of_le h.enqueued
  next => exact { h with source := rfl }

theorem Inv.drain (maxLines : ℕ) :
    Inv md (core.drain maxLines) (source ++ []) (shown ++ core.queuedLines.take maxLines) := by
  have hsplit : shown ++ core.queuedLines.take maxLines ++ core.queuedLines.drop maxLines =
      core.renderedLines.take core.enqueuedStableLen := by
    rw [append_assoc, take_append_drop, h.split]
  have hle := congrArg List.length hsplit
  rw [length_append, length_append, length_take_of_le h.enqueued, h.length] at hle
  have htarget := h.target
  rw [computeTargetStableLen] at htarget
  refine ⟨h.source.trans (append_nil _).symm, h.committed, ?_, hsplit, h.enqueued, ?_⟩
  · rw [length_append, h.length]
    rfl
  · change core.enqueuedStableLen =
      max (core.renderedLines.length - core.activeTailBudgetLines md) _
    dsimp only [StreamCore.drain]
    omega

theorem Inv.setLayout {width : Option ℕ} {mode : HistoryRenderMode}
    (hcount : Counted md core width mode) :
    ∃ shown, Inv md (core.setLayout md width mode) source shown := by
  unfold StreamCore.setLayout
  extract_lets rendered emitted emittedStableLen
  have hle : emittedStableLen ≤ rendered.length := by
    dsimp only [emittedStableLen, emitted]
    split <;> omega
  have hlength := length_take_of_le hle
  split
  next hnil =>
    have hrendered := (h.committed.resolve_right fun hlast => by simp [hnil] at hlast).2
    refine ⟨shown, h.source, h.committed, h.length, h.split, h.enqueued, ?_⟩
    simpa [computeTargetStableLen, hrendered] using h.target
  next hsource =>
    have hcommitted := h.committed.resolve_left fun hnil => hsource hnil.1
    refine ⟨rendered.take emittedStableLen, ?_⟩
    split
    next hskips =>
      obtain ⟨hpos, hnone, htail⟩ := hskips
      have hfew := hcount.resolve_left fun hzero => by
        simp [emittedStableLen, emitted, hzero] at hpos
      have hmin : min core.emittedStableLen rendered.length = rendered.length :=
        min_eq_right (by simpa [hnone, htail] using hfew)
      have hsame : emittedStableLen = rendered.length := by
        simpa [emittedStableLen, emitted, hnone] using hmin
      refine ⟨h.source, .inr hcommitted, hlength, by simp [hsame], le_rfl, ?_⟩
      simp [computeTargetStableLen, hsame]
    next => exact inv_rebuild h.source hcommitted hlength <| take_prefix _ _

theorem Inv.step_of_keepsLayout {op : Operation} (hstable : Stable md core)
    (hkeeps : KeepsLayout core op) :
    Inv md (core.step md op) (source ++ op.delta) (shown ++ core.output op) := by
  cases op with
  | pushDelta delta =>
    simpa [StreamCore.step, output, Operation.delta] using h.pushDelta hstable delta
  | tick => exact h.drain 1
  | tickBatch maxLines => exact h.drain maxLines
  | setWidth | setRenderMode =>
    rw [KeepsLayout] at hkeeps
    simpa [StreamCore.step, hkeeps, Operation.delta, output] using h

theorem Inv.step {op : Operation} (hstable : Stable md core) (hcount : KeepsCount md core op) :
    ∃ source shown, Inv md (core.step md op) source shown := by
  by_cases hkeeps : KeepsLayout core op
  · exact ⟨_, _, h.step_of_keepsLayout hstable hkeeps⟩
  cases op with
  | setWidth | setRenderMode =>
    rw [KeepsLayout] at hkeeps
    rw [StreamCore.step, if_neg hkeeps]
    exact ⟨source, h.setLayout (hcount.resolve_left hkeeps)⟩
  | _ => exact absurd trivial hkeeps

/-- Where there are more lines in the layout, they are neither queued nor emitted. -/
theorem Inv.counted {width : Option ℕ} {mode : HistoryRenderMode}
    (hregions : TwoRegions (core.setLayout md width mode)) : Counted md core width mode := by
  by_contra hnot
  obtain ⟨hpos, hnone, htail, hmore⟩ : core.emittedStableLen ≠ 0 ∧ core.queuedLines = [] ∧
      core.hasTail = false ∧
        core.emittedStableLen < (md.render mode width core.rawSource).length := by
    simpa [Counted] using hnot
  have hsource : core.rawSource ≠ [] := fun hnil => hpos <| by
    rw [← h.length, length_eq_zero_iff]
    simpa [hnone, (h.committed.resolve_right fun hlast => by simp [hnil] at hlast).2] using h.split
  refine hmore.not_ge ?_
  simpa [StreamCore.setLayout, hsource, hnone, htail, Nat.pos_of_ne_zero hpos, hmore.le, lines]
    using hregions.queued

theorem Inv.keepsCount {op : Operation} (hregions : TwoRegions (core.step md op)) :
    KeepsCount md core op := by
  cases op with
  | setWidth | setRenderMode =>
    refine or_iff_not_imp_left.mpr fun hkeeps => ?_
    rw [StreamCore.step, if_neg hkeeps] at hregions
    exact h.counted hregions
  | _ => trivial

theorem Inv.run {ops : List Operation}
    (hstable : Always (StreamCore.step md) (Stable md) core ops) :
    Always (StreamCore.step md) TwoRegions core ops ↔
      Along (StreamCore.step md) (KeepsCount md) core ops := by
  induction ops generalizing core source shown with
  | nil => exact iff_of_true h.twoRegions trivial
  | cons op ops ih =>
    constructor
    · rintro ⟨-, hregions⟩
      have hcount := h.keepsCount hregions.first
      obtain ⟨source, shown, hnext⟩ := h.step hstable.1 hcount
      exact ⟨hcount, (ih hnext hstable.2).mp hregions⟩
    · rintro ⟨hcount, hcounts⟩
      obtain ⟨source, shown, hnext⟩ := h.step hstable.1 hcount
      exact ⟨h.twoRegions, (ih hnext hstable.2).mpr hcounts⟩

theorem Inv.finalizeRemaining (hstable : Stable md core) :
    shown ++ core.finalizeRemaining md = core.renderSource md (terminated source) := by
  have hwhole : core.rawSource ++ terminated core.uncommitted = terminated source :=
    h.source ▸ terminated_append (h.committed.imp_left And.left)
  rw [StreamCore.finalizeRemaining, ← h.length, hwhole, ← prefix_iff_eq_append, ← hwhole]
  refine (prefix_append _ _).trans (?_ : _ ++ core.queuedLines <+: _)
  rw [h.split, h.target]
  exact hstable _

theorem Inv.run_of_keepsLayout {ops : List Operation}
    (hstable : Always (StreamCore.step md) (Stable md) core ops)
    (hkeeps : Along (StreamCore.step md) KeepsLayout core ops) :
    let last := ops.foldl (StreamCore.step md) core
    shown ++ core.outputs md ops ++ last.finalizeRemaining md =
      last.renderSource md (terminated (source ++ ops.flatMap Operation.delta)) := by
  induction ops generalizing core source shown with
  | nil => simpa [outputs] using h.finalizeRemaining hstable
  | cons op ops ih =>
    simpa [outputs] using ih (h.step_of_keepsLayout hstable.1 hkeeps.1) hstable.2 hkeeps.2

omit h

/-- Along a run the regions and the queue agree if and only if no change of the layout finds all
lines emitted and renders more of them. While the layout stays, the lines that are emitted and
those left at the end are the rendering of the source. -/
theorem two_regions_and_nothing_replayed (width : Option ℕ) (mode : HistoryRenderMode)
    (ops : List Operation)
    (hstable : Always (StreamCore.step md) (Stable md) (.new width mode) ops) :
    (Always (StreamCore.step md) TwoRegions (.new width mode) ops ↔
      Along (StreamCore.step md) (KeepsCount md) (.new width mode) ops) ∧
    (Along (StreamCore.step md) KeepsLayout (.new width mode) ops →
      let core := ops.foldl (StreamCore.step md) (.new width mode)
      outputs md (.new width mode) ops ++ core.finalizeRemaining md =
        core.renderSource md (terminated (ops.flatMap Operation.delta))) :=
  ⟨(inv_new width mode).run hstable, (inv_new width mode).run_of_keepsLayout hstable⟩

end Regions

/-- Without a width each line of the source is one line, else each of its characters. -/
def linesOrChars : Markdown Char where
  render _ width source := source.filter fun c => (c = '\n') = (width = none)
  tableStart _ := none

theorem stable_linesOrChars {core : StreamCore Char}
    (h : core.renderedLines = core.renderSource linesOrChars core.rawSource) :
    Stable linesOrChars core := by
  intro more
  rw [h]
  exact IsPrefix.trans (by exact take_prefix _ _) ((prefix_append _ more).filter _)

theorem two_regions_after_resize :
    Always (StreamCore.step linesOrChars) TwoRegions (.new none .rich)
      [.pushDelta ['a', 'b', '\n'], .setWidth (some 1), .tick] := by
  refine (two_regions_and_nothing_replayed none .rich _ ?_).1.mpr
    ⟨trivial, .inr (.inl rfl), trivial, trivial⟩
  refine ⟨?_, ?_, ?_, ?_⟩ <;> exact stable_linesOrChars rfl

/-- The line that was emitted is two lines in the new layout, and the second is neither queued nor
emitted. -/
theorem emitted_line_wraps_after_resize :
    let ops := [.pushDelta ['a', 'b', '\n'], .tick, .setWidth (some 1)]
    Always (StreamCore.step linesOrChars) (Stable linesOrChars) (.new none .rich) ops ∧
      ¬ Always (StreamCore.step linesOrChars) TwoRegions (.new none .rich) ops := by
  constructor
  · refine ⟨?_, ?_, ?_, ?_⟩ <;> exact stable_linesOrChars rfl
  · rintro ⟨-, -, -, hregions⟩
    cases hregions.queued

end DeepseekX.StreamRegions
