import DeepseekX.RolloutReplays
import DeepseekX.UndoLogs

/-!
# Positions of user messages in a rollout

A fork cuts a rollout at a position of `user_message_positions_in_rollout`, a stack of the
messages of the user from which a rollback marker takes as many as it counts turns. In the
history a rollback counts instructions of other agents as well.
-/

namespace DeepseekX.RolloutReplays
open ContextHistory ResponseItems UndoLogs GuardedRuns List

section Positions
variable (reading : TextReading)

def notePosition (positions : List ℕ) (entry : RolloutItem × ℕ) : List ℕ :=
  match entry.1 with
  | .responseItem item =>
    if isRealUserMessage reading item then positions ++ [entry.2] else positions
  | .eventMsg (.threadRolledBack numTurns) => positions.take (positions.length - numTurns)
  | _ => positions

def userMessagePositionsInRollout (items : List RolloutItem) : List ℕ :=
  items.zipIdx.foldl (notePosition reading) []

def entryItem : Entry ResponseItem → RolloutItem
  | .action item => .responseItem item
  | .undo numTurns => .eventMsg (.threadRolledBack numTurns)

def replayed (log : List (Entry ResponseItem)) : List ResponseItem :=
  (log.map entryItem).foldl (replayItem reading) []

/-- The items at the positions are the messages of the user in the replayed history. -/
def PositionsAgree (log : List (Entry ResponseItem)) : Prop :=
  (userMessagePositionsInRollout reading (log.map entryItem)).map ((log.map entryItem)[·]?) =
    ((replayed reading log).filter (isRealUserMessage reading)).map (some ∘ .responseItem)

/-- The newest `n` instructions are all messages of the user, or none of those before them is. -/
def CountsUserMessages (history : List ResponseItem) (n : ℕ) : Prop :=
  let instructions := history.filter (isUserTurnBoundary reading)
  (∀ item ∈ instructions.drop (instructions.length - n), isRealUserMessage reading item = true) ∨
    ∀ item ∈ instructions.take (instructions.length - n), isRealUserMessage reading item = false

variable {reading} {items : List RolloutItem} {history : List ResponseItem}

theorem userMessagePositionsInRollout_concat (items : List RolloutItem) (item : RolloutItem) :
    userMessagePositionsInRollout reading (items ++ [item]) =
      notePosition reading (userMessagePositionsInRollout reading items) (item, items.length) := by
  rw [userMessagePositionsInRollout, zipIdx_append, foldl_append, Nat.zero_add]
  rfl

theorem lt_of_mem_positions {position : ℕ}
    (h : position ∈ userMessagePositionsInRollout reading items) : position < items.length := by
  induction items using reverseRecOn with
  | nil => cases h
  | append_singleton items item ih =>
    rw [userMessagePositionsInRollout_concat] at h
    rw [length_append, length_singleton]
    have hold : ∀ {p}, p ∈ userMessagePositionsInRollout reading items → p = position →
        position < items.length + 1 := by
      rintro _ hp rfl
      exact Nat.lt_succ_of_lt (ih hp)
    unfold notePosition at h
    split at h
    · split at h
      · rcases mem_append.mp h with h | h
        · exact hold h rfl
        · rw [mem_singleton.mp h]
          exact Nat.lt_succ_self _
      · exact hold h rfl
    · exact hold (mem_of_mem_take h) rfl
    · exact hold h rfl

theorem map_positions_append (items more : List RolloutItem) :
    (userMessagePositionsInRollout reading items).map ((items ++ more)[·]?) =
      (userMessagePositionsInRollout reading items).map (items[·]?) :=
  map_congr_left fun _ h => getElem?_append_left (lt_of_mem_positions h)

/-- A rollback takes the last `n` messages of the user from the history exactly if it counts
nothing else. -/
theorem filter_rollback_iff (history : List ResponseItem) (n : ℕ) :
    (history.filter (isRealUserMessage reading)).take
        ((history.filter (isRealUserMessage reading)).length - n) =
      (dropLastNUserTurns reading history n).filter (isRealUserMessage reading) ↔
      CountsUserMessages reading history n := by
  rw [← filter_filter_boundary history, ← filter_filter_boundary (dropLastNUserTurns ..),
    filter_dropLastNUserTurns, CountsUserMessages]
  generalize history.filter (isUserTurnBoundary reading) = instructions
  generalize hkept : instructions.take (instructions.length - n) = kept
  generalize hlast : instructions.drop (instructions.length - n) = last
  have hsplit : kept ++ last = instructions := by
    rw [← hkept, ← hlast, take_append_drop]
  have hlength : last.length = min n (kept.length + last.length) := by
    rw [← length_append, hsplit, ← hlast, length_drop]
    omega
  have hle : last.countP (isRealUserMessage reading) ≤ last.length := countP_le_length
  have hkeptle : kept.countP (isRealUserMessage reading) ≤ kept.length := countP_le_length
  have hall : _ ↔ ∀ item ∈ last, isRealUserMessage reading item = true := countP_eq_length
  have hnone : kept.countP (isRealUserMessage reading) = 0 ↔
      ∀ item ∈ kept, isRealUserMessage reading item = false := by
    simp
  rw [← hsplit, filter_append, ← hall, ← hnone, length_append,
    ← countP_eq_length_filter, ← countP_eq_length_filter]
  constructor
  · intro h
    have h := congrArg length h
    rw [length_take, length_append, ← countP_eq_length_filter, ← countP_eq_length_filter] at h
    omega
  · intro h
    refine take_left' ?_
    rw [← countP_eq_length_filter]
    omega

theorem positionsAgree_concat_iff {log : List (Entry ResponseItem)}
    (hagree : PositionsAgree reading log) (entry : Entry ResponseItem) :
    PositionsAgree reading (log ++ [entry]) ↔
      ∀ n, entry = .undo n → CountsUserMessages reading (replayed reading log) n := by
  have hinj : (some ∘ RolloutItem.responseItem).Injective :=
    (Option.some_injective _).comp fun _ _ => RolloutItem.responseItem.inj
  unfold PositionsAgree at hagree ⊢
  rw [replayed, map_append, foldl_append, map_singleton, foldl_cons,
    foldl_nil, ← replayed, userMessagePositionsInRollout_concat]
  generalize log.map entryItem = items at hagree ⊢
  cases entry with
  | action item =>
    refine iff_of_true ?_ nofun
    have hnote (positions : List ℕ) (k : ℕ) :
        notePosition reading positions (entryItem (.action item), k) =
          positions ++ if isRealUserMessage reading item then [k] else [] := by
      change ite .. = _
      split <;> simp
    have hreplay : replayItem reading (replayed reading log) (entryItem (.action item)) =
      recordItem reading (replayed reading log) item := rfl
    rw [hnote, hreplay, filter_recordItem, map_append, map_append, map_positions_append, hagree]
    split
    · rw [map_singleton, getElem?_concat_length]
      rfl
    · rfl
  | undo n =>
    have hcount := congrArg length hagree
    rw [length_map, length_map] at hcount
    change (take _ _).map _ = map _ (filter _ (dropLastNUserTurns ..)) ↔ _
    rw [map_take, map_positions_append, hagree, hcount, ← map_take,
      hinj.list_map.eq_iff, filter_rollback_iff]
    simp

/-- The positions name the messages of the user after every prefix of a rollout exactly if every
rollback marker finds only such messages to count. -/
theorem fork_positions_agree_iff (reading : TextReading) (log : List (Entry ResponseItem)) :
    Always (fun older entry => older ++ [entry]) (PositionsAgree reading) [] log ↔
      Along (fun older entry => older ++ [entry])
        (fun older entry => ∀ n, entry = .undo n →
          CountsUserMessages reading (replayed reading older) n) [] log :=
  @always_iff_along _ _ _ _ _ (fun _ => True) _ _ (fun _ => True) (fun _ _ _ _ => trivial)
    (fun _ entry _ _ hagree => positionsAgree_concat_iff hagree entry) (fun _ _ => trivial)
    trivial rfl

end Positions

/-- A message of the user, an instruction of another agent, and a marker for one turn: the history
keeps the message, the positions lose it. -/
theorem agent_instruction_rolled_back :
    let reading : TextReading := ⟨fun _ => false, (· == "instruction"), id, fun text _ => text⟩
    let question : ResponseItem := .message none "user" [.inputText "question"] none
    let log : List (Entry ResponseItem) := [.action question,
      .action (.message none "assistant" [.inputText "instruction"] none), .undo 1]
    userMessagePositionsInRollout reading (log.map entryItem) = [] ∧
      (replayed reading log).filter (isRealUserMessage reading) = [question] := by
  decide

end DeepseekX.RolloutReplays
