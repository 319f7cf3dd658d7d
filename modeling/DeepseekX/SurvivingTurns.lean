import DeepseekX.LineSplitting
import DeepseekX.RolloutReplays
import DeepseekX.UndoLogs
import Mathlib.Algebra.GroupWithZero.Nat

/-!
# Rollbacks and the turns that survive them

The rollout of a thread is a log of turns and rollback markers. What reconstruction should
return is the replay of the turns that survive the markers. A rollback cuts at an instruction,
so what the oldest turn it drops recorded before its first one stays, but for context updates
that are trimmed; the replay of the pieces of the log says where.
-/

namespace DeepseekX.RolloutReplays
open ContextHistory GuardedRuns LineSplitting ResponseItems UndoLogs List

section Turns

inductive TurnItem where
  | turnContext (model : String) (realtimeActive : Option Bool)
  | userMessage
  | responseItem (item : ResponseItem)
  | compacted (message : String) (replacementHistory : List ResponseItem)
  deriving DecidableEq

namespace TurnItem

def isTurnContext : TurnItem → Bool
  | turnContext _ _ => true
  | _ => false

def isRealUserMessage (reading : TextReading) : TurnItem → Bool
  | responseItem item => ContextHistory.isRealUserMessage reading item
  | _ => false

def replacementHistory : TurnItem → Option (List ResponseItem)
  | compacted _ replacementHistory => some replacementHistory
  | _ => none

def toRollout (turnId : String) : TurnItem → RolloutItem
  | turnContext model realtimeActive => .turnContext ⟨some turnId, model, realtimeActive⟩
  | userMessage => .eventMsg .userMessage
  | responseItem item => .responseItem item
  | compacted message replacementHistory => .compacted message (some replacementHistory)

end TurnItem

/-- A completed turn: it has a turn context and one real user message with its event. -/
structure Turn (reading : TextReading) where
  id : String
  body : List TurnItem
  hasContext : body.any TurnItem.isTurnContext = true
  oneUserMessage : body.countP (TurnItem.isRealUserMessage reading) = 1
  oneUserMessageEvent : body.count .userMessage = 1

variable {reading : TextReading}

def Turn.items (turn : Turn reading) : List RolloutItem :=
  .eventMsg (.turnStarted turn.id) ::
    (turn.body.map (TurnItem.toRollout turn.id) ++ [.eventMsg (.turnComplete turn.id)])

def entryItems : Entry (Turn reading) → List RolloutItem
  | .action turn => turn.items
  | .undo numTurns => [.eventMsg (.threadRolledBack numTurns)]

def rollout (log : List (Entry (Turn reading))) : List RolloutItem := log.flatMap entryItems

theorem rollout_cons (entry : Entry (Turn reading)) (log : List (Entry (Turn reading))) :
    rollout (entry :: log) = entryItems entry ++ rollout log := flatMap_cons

theorem rollout_append (older log : List (Entry (Turn reading))) :
    rollout (older ++ log) = rollout older ++ rollout log := flatMap_append

end Turns

section Replaying
variable (reading : TextReading) (history : List ResponseItem)

def TurnItem.replay : TurnItem → List ResponseItem
  | responseItem item => recordItem reading history item
  | compacted _ replacementHistory => replacementHistory
  | _ => history

def recordedItems (items : List TurnItem) : List ResponseItem :=
  items.filterMap fun
    | .responseItem item => if isApiMessage item then some (processItem reading item) else none
    | _ => none

/-- The newest replacement history of a turn, with the items behind it. -/
def newestCompaction : List TurnItem → Option (List ResponseItem × List TurnItem)
  | [] => none
  | item :: items => (newestCompaction items).or (item.replacementHistory.map (·, items))

variable {reading} (turn : Turn reading)

def Turn.replay : List ResponseItem :=
  turn.body.foldl (TurnItem.replay reading) history

def Turn.recorded : List ResponseItem := recordedItems reading turn.body

/-- What a turn records before its first instruction. -/
def Turn.preamble : List ResponseItem :=
  turn.recorded.takeWhile fun item => !isUserTurnBoundary reading item

def Turn.compacts : Bool := (newestCompaction turn.body).isSome

def replayTurns (turns : List (Turn reading)) : List ResponseItem := turns.foldl Turn.replay []

/-- Of turns that were rolled back together, what the oldest recorded before its first
instruction stays; where an instruction is left, context updates at its end are trimmed. -/
def replayPiece : Piece (Turn reading) → List ResponseItem
  | .kept turn => turn.replay history
  | .erased turn =>
    if history.any (isUserTurnBoundary reading) then
      (history ++ turn.preamble).rdropWhile (isContextUpdate reading)
    else history ++ turn.preamble

def withoutContextUpdates (reading : TextReading) (history : List ResponseItem) :
    List ResponseItem :=
  history.filter fun item => !isContextUpdate reading item

end Replaying

variable {reading : TextReading} {turn : Turn reading} {history : List ResponseItem}

section TurnReplays
variable {items : List TurnItem}

theorem recordItem_eq (item : ResponseItem) :
    recordItem reading history item = history ++ recordedItems reading [.responseItem item] := by
  by_cases h : isApiMessage item <;> simp [recordItem, recordedItems, h]

theorem recordedItems_cons (item : TurnItem) (items : List TurnItem) :
    recordedItems reading (item :: items) =
      recordedItems reading [item] ++ recordedItems reading items := by
  rw [recordedItems, recordedItems, recordedItems, ← filterMap_append]
  rfl

theorem foldl_replay (items : List TurnItem) (history : List ResponseItem) :
    items.foldl (TurnItem.replay reading) history =
      match newestCompaction items with
      | none => history ++ recordedItems reading items
      | some (replacementHistory, rest) => replacementHistory ++ recordedItems reading rest := by
  induction items generalizing history with
  | nil => simp [newestCompaction, recordedItems]
  | cons item items ih =>
    rw [foldl_cons, ih, newestCompaction]
    cases newestCompaction items with
    | some found => rfl
    | none =>
      rw [recordedItems_cons]
      cases item with
      | responseItem item =>
        change recordItem reading history item ++ _ = _ ++ (_ ++ _)
        rw [recordItem_eq, append_assoc]
      | compacted | turnContext | userMessage => rfl

theorem foldl_replayItem_map (items : List TurnItem) (turnId : String)
    (history : List ResponseItem) :
    (items.map (TurnItem.toRollout turnId)).foldl (replayItem reading) history =
      items.foldl (TurnItem.replay reading) history := by
  have hitem : ∀ (history : List ResponseItem) (item : TurnItem),
      replayItem reading history (item.toRollout turnId) = item.replay reading history := by
    intro history item
    cases item <;> rfl
  rw [foldl_map]
  simp only [hitem]

theorem foldl_replayItem_items (turn : Turn reading) (history : List ResponseItem) :
    turn.items.foldl (replayItem reading) history = turn.replay history := by
  rw [Turn.items, foldl_cons, foldl_append]
  exact foldl_replayItem_map turn.body turn.id history

end TurnReplays

section Rollbacks
variable {ps : List (Piece (Turn reading))}

def Turn.instructions (turn : Turn reading) : ℕ :=
  turn.recorded.countP (isUserTurnBoundary reading)

/-- A rollback marker that cuts at the first instruction of the oldest turn it removes: no turn it
removes replaces the history, and they hold no more instructions than it counts turns. -/
def CutsAtTurn (stack : List (Turn reading)) : Entry (Turn reading) → Prop
  | .action _ => True
  | .undo n =>
    (∀ turn ∈ stack.drop (stack.length - n), turn.compacts = false) ∧
      ((stack.drop (stack.length - n)).map Turn.instructions).sum ≤ n

instance (stack : List (Turn reading)) :
    (entry : Entry (Turn reading)) → Decidable (CutsAtTurn stack entry)
  | .action _ => isTrue trivial
  | .undo _ => inferInstanceAs (Decidable (_ ∧ _))

theorem Turn.instructions_pos (turn : Turn reading) : 0 < turn.instructions := by
  obtain ⟨item, hitem, hreal⟩ : ∃ item ∈ turn.body, item.isRealUserMessage reading = true :=
    countP_pos_iff.mp (turn.oneUserMessage ▸ Nat.one_pos)
  cases item with
  | responseItem item =>
    have hrecord := @filter_recordItem reading [] item
    rw [if_pos (by exact hreal), recordItem_eq, nil_append, filter_nil, nil_append] at hrecord
    have hmem : item ∈ recordedItems reading [.responseItem item] :=
      mem_of_mem_filter (hrecord ▸ mem_cons_self)
    exact countP_pos_iff.mpr ⟨item, ((singleton_sublist.mpr hitem).filterMap _).subset hmem,
      isUserTurnBoundary_of_isRealUserMessage hreal⟩
  | _ => cases hreal

theorem length_le_instructions (turns : List (Turn reading)) :
    turns.length ≤ (turns.map Turn.instructions).sum := by
  induction turns with
  | nil => exact Nat.zero_le _
  | cons turn turns ih =>
    have hpos := turn.instructions_pos
    rw [length_cons, map_cons, sum_cons]
    omega

theorem countP_preamble (turn : Turn reading) :
    turn.preamble.countP (isUserTurnBoundary reading) = 0 := by
  refine countP_eq_zero.mpr fun item hitem => ?_
  have hnot := mem_takeWhile_imp hitem
  simpa using hnot

theorem Turn.replay_of_compacts_eq_false (h : turn.compacts = false) :
    turn.replay history = history ++ turn.recorded := by
  rw [Turn.compacts, Option.isSome_eq_false_iff, Option.isNone_iff_eq_none] at h
  rw [Turn.replay, foldl_replay, h]
  rfl

theorem Turn.exists_split (turn : Turn reading) :
    ∃ item rest, turn.recorded = turn.preamble ++ item :: rest ∧
      isUserTurnBoundary reading item = true ∧
      turn.instructions = rest.countP (isUserTurnBoundary reading) + 1 := by
  have hsplit : turn.preamble ++
      turn.recorded.dropWhile (fun item => !isUserTurnBoundary reading item) = turn.recorded :=
    takeWhile_append_dropWhile
  have hcount : turn.instructions = (turn.recorded.dropWhile
      fun item => !isUserTurnBoundary reading item).countP (isUserTurnBoundary reading) := by
    rw [Turn.instructions, ← hsplit, countP_append, countP_preamble, Nat.zero_add, hsplit]
  cases hrest : turn.recorded.dropWhile fun item => !isUserTurnBoundary reading item with
  | nil =>
    rw [hrest] at hcount
    exact absurd hcount turn.instructions_pos.ne'
  | cons item rest =>
    have hitem : isUserTurnBoundary reading item = true := by
      have hhead := head?_dropWhile_not (fun item => !isUserTurnBoundary reading item) turn.recorded
      rw [hrest] at hhead
      simpa using hhead
    rw [hrest, countP_cons_of_pos hitem] at hcount
    exact ⟨item, rest, by rw [← hrest, hsplit], hitem, hcount⟩

theorem countP_rdropWhile_isContextUpdate (items : List ResponseItem) :
    (items.rdropWhile (isContextUpdate reading)).countP (isUserTurnBoundary reading) =
      items.countP (isUserTurnBoundary reading) := by
  rw [countP_eq_length_filter, countP_eq_length_filter, filter_rdropWhile_isContextUpdate]

/-- Above an instruction, kept turns add their instructions and what was erased adds none. -/
theorem foldl_replayPiece_above {item : ResponseItem} {front back : List ResponseItem}
    (hitem : isUserTurnBoundary reading item = true)
    (hkept : ∀ turn ∈ keptOf ps, turn.compacts = false) :
    ∃ rest, ps.foldl replayPiece (front ++ item :: back) = front ++ item :: rest ∧
      rest.countP (isUserTurnBoundary reading) =
        back.countP (isUserTurnBoundary reading) + ((keptOf ps).map Turn.instructions).sum := by
  induction ps generalizing back with
  | nil => exact ⟨back, rfl, rfl⟩
  | cons piece ps ih =>
    rw [foldl_cons]
    cases piece with
    | kept turn =>
      rw [keptOf_cons_kept, forall_mem_cons] at hkept
      obtain ⟨rest, hrest, hcount⟩ := @ih (back ++ turn.recorded) hkept.2
      refine ⟨rest, ?_, ?_⟩
      · rw [replayPiece, Turn.replay_of_compacts_eq_false hkept.1, append_assoc,
          cons_append, hrest]
      · rw [hcount, countP_append, keptOf_cons_kept, map_cons, sum_cons, Nat.add_assoc]
        rfl
    | erased turn =>
      obtain ⟨rest, hrest, hcount⟩ :=
        @ih ((back ++ turn.preamble).rdropWhile (isContextUpdate reading)) hkept
      refine ⟨rest, ?_, ?_⟩
      · rw [replayPiece, if_pos (any_eq_true.mpr ⟨item, by simp, hitem⟩), append_assoc,
          cons_append, rdropWhile_append_cons (isContextUpdate_of_boundary hitem), hrest]
      · rw [hcount, countP_rdropWhile_isContextUpdate, countP_append, countP_preamble,
          keptOf_cons_erased]
        rfl

theorem countP_foldl_replayPiece_of_none (hkept : keptOf ps = [])
    (h : history.countP (isUserTurnBoundary reading) = 0) :
    (ps.foldl replayPiece history).countP (isUserTurnBoundary reading) = 0 := by
  induction ps generalizing history with
  | nil => exact h
  | cons piece ps ih =>
    cases piece with
    | kept turn => cases hkept
    | erased turn =>
      refine ih hkept ?_
      rw [replayPiece]
      split
      · rw [countP_rdropWhile_isContextUpdate, countP_append, h, countP_preamble]
      · rw [countP_append, h, countP_preamble]

theorem any_append_preamble (turn : Turn reading) :
    (history ++ turn.preamble).any (isUserTurnBoundary reading) =
      history.any (isUserTurnBoundary reading) := by
  have hnone : turn.preamble.any (isUserTurnBoundary reading) = false := by
    rw [any_eq_false]
    exact countP_eq_zero.mp (countP_preamble turn)
  rw [any_append, hnone, Bool.or_false]

/-- The turns that a rollback removes, at the piece where it cuts. -/
theorem drop_keptOf_cut {n : ℕ} {front back : List (Piece (Turn reading))}
    (hback : (keptOf back).length < n) (hfront : n = (keptOf back).length + 1 ∨ keptOf front = []) :
    (keptOf (front ++ .kept turn :: back)).drop
        ((keptOf (front ++ .kept turn :: back)).length - n) = turn :: keptOf back := by
  rw [keptOf_append, keptOf_cons_kept, length_append, length_cons,
    show (keptOf front).length + ((keptOf back).length + 1) - n = (keptOf front).length by
      rcases hfront with hone | hnil
      · omega
      · rw [hnil, length_nil]
        omega,
    drop_left]

/-- A rollback that cuts at a turn does to the replayed history what it does to the pieces. -/
theorem dropLastNUserTurns_foldl_replayPiece {n : ℕ} (h : CutsAtTurn (keptOf ps) (.undo n)) :
    dropLastNUserTurns reading (ps.foldl replayPiece []) n =
      (cutBack n ps).foldl replayPiece [] := by
  rcases cutBack_cases n ps with ⟨hsame, hnone⟩ | ⟨front, turn, back, rfl, hcut, hback, hfront⟩
  · rw [hsame]
    rcases hnone with hzero | hkept
    · rw [hzero, dropLastNUserTurns, if_pos rfl]
    · exact dropLastNUserTurns_of_none n (countP_foldl_replayPiece_of_none hkept rfl)
  · rw [CutsAtTurn, drop_keptOf_cut hback hfront, forall_mem_cons, map_cons, sum_cons] at h
    obtain ⟨⟨hturn, hlater⟩, hsum⟩ := h
    obtain ⟨item, rest, hrecorded, hitem, hcount⟩ := turn.exists_split
    have hlength := length_le_instructions (keptOf back)
    have hfree : n = (keptOf back).length + 1 ∨
        (front.foldl replayPiece []).countP (isUserTurnBoundary reading) = 0 :=
      hfront.imp_right fun hnil => countP_foldl_replayPiece_of_none hnil rfl
    rw [hcut, foldl_append, foldl_append, foldl_cons, foldl_cons, foldl_nil]
    generalize front.foldl replayPiece [] = older at hfree ⊢
    obtain ⟨newer, hnewer, hnewerCount⟩ :=
      @foldl_replayPiece_above _ back item (older ++ turn.preamble) rest hitem hlater
    rw [replayPiece, replayPiece, Turn.replay_of_compacts_eq_false hturn, hrecorded,
      ← append_assoc, hnewer, dropLastNUserTurns_append hitem]
    · rw [any_append_preamble]
    · rw [countP_cons_of_pos hitem]
      omega
    · rw [countP_cons_of_pos hitem, countP_append, countP_preamble]
      omega

theorem withoutContextUpdates_append (front back : List ResponseItem) :
    withoutContextUpdates reading (front ++ back) =
      withoutContextUpdates reading front ++ withoutContextUpdates reading back :=
  filter_append ..

theorem withoutContextUpdates_eq_nil_iff {items : List ResponseItem} :
    withoutContextUpdates reading items = [] ↔
      ∀ item ∈ items, isContextUpdate reading item = true := by
  simp [withoutContextUpdates]

theorem withoutContextUpdates_rdropWhile (items : List ResponseItem) :
    withoutContextUpdates reading (items.rdropWhile (isContextUpdate reading)) =
      withoutContextUpdates reading items := by
  have hsplit : items.rdropWhile (isContextUpdate reading) ++
      items.rtakeWhile (isContextUpdate reading) = items := rdropWhile_append_rtakeWhile
  conv_rhs => rw [← hsplit]
  rw [withoutContextUpdates_append, withoutContextUpdates_eq_nil_iff.mpr fun _ hitem =>
    mem_rtakeWhile_imp hitem, append_nil]

variable (history)

theorem withoutContextUpdates_foldl_replay {turns : List (Turn reading)}
    (h : ∀ turn ∈ turns, turn.compacts = false) :
    withoutContextUpdates reading (turns.foldl Turn.replay history) =
      withoutContextUpdates reading history ++
        turns.flatMap fun turn => withoutContextUpdates reading turn.recorded := by
  induction turns generalizing history with
  | nil => exact (append_nil _).symm
  | cons turn turns ih =>
    rw [forall_mem_cons] at h
    rw [foldl_cons, ih _ h.2, Turn.replay_of_compacts_eq_false h.1, withoutContextUpdates_append,
      append_assoc, flatMap_cons]

theorem withoutContextUpdates_foldl_replayPiece (h : ∀ turn ∈ keptOf ps, turn.compacts = false) :
    withoutContextUpdates reading (ps.foldl replayPiece history) =
      withoutContextUpdates reading history ++
        leftBy (fun turn => withoutContextUpdates reading turn.recorded)
          (fun turn => withoutContextUpdates reading turn.preamble) ps := by
  induction ps generalizing history with
  | nil => exact (append_nil _).symm
  | cons piece ps ih =>
    rw [foldl_cons]
    cases piece with
    | kept turn =>
      rw [keptOf_cons_kept, forall_mem_cons] at h
      rw [ih _ h.2, replayPiece, Turn.replay_of_compacts_eq_false h.1,
        withoutContextUpdates_append, append_assoc, leftBy]
    | erased turn =>
      have hpiece : withoutContextUpdates reading (replayPiece history (.erased turn)) =
          withoutContextUpdates reading history ++ withoutContextUpdates reading turn.preamble := by
        rw [replayPiece, ← withoutContextUpdates_append]
        split
        · exact withoutContextUpdates_rdropWhile _
        · rfl
      rw [ih _ h, hpiece, append_assoc, leftBy]

/-- Up to context updates, pieces replay as the turns that are kept exactly if context updates
are all that the erased turns recorded before their first instruction. -/
theorem replay_pieces_iff (h : ∀ turn ∈ keptOf ps, turn.compacts = false) :
    withoutContextUpdates reading (ps.foldl replayPiece history) =
        withoutContextUpdates reading ((keptOf ps).foldl Turn.replay history) ↔
      ∀ turn, .erased turn ∈ ps → ∀ item ∈ turn.preamble, isContextUpdate reading item = true := by
  rw [withoutContextUpdates_foldl_replayPiece history h, withoutContextUpdates_foldl_replay _ h,
    append_cancel_left_eq, leftBy_eq_iff]
  simp only [withoutContextUpdates_eq_nil_iff]

end Rollbacks

section ForwardReplay
variable {log : List (Entry (Turn reading))}

/-- Forward replay of a log whose rollback markers cut at turns. -/
theorem foldl_replayItem_rollout (ps : List (Piece (Turn reading)))
    (h : Along Entry.applyTo CutsAtTurn (keptOf ps) log) :
    (rollout log).foldl (replayItem reading) (ps.foldl replayPiece []) =
      (log.foldl Entry.placeIn ps).foldl replayPiece [] := by
  rw [rollout, foldl_flatMap]
  refine simulate_pieces (R := fun history ps => history = ps.foldl replayPiece []) ?_ ?_ h rfl
  · rintro _ ps turn rfl
    rw [foldl_append, entryItems, foldl_replayItem_items]
    rfl
  · rintro _ ps n rfl hcuts
    exact dropLastNUserTurns_foldl_replayPiece hcuts

end ForwardReplay

end DeepseekX.RolloutReplays
