import DeepseekX.GuardedRuns

/-!
# Logs with undo entries

A log holds actions and entries that undo the newest actions still standing. Read forward,
the standing actions form a stack. Read backward, a counter of pending undos tells which
actions stand. The places where actions were undone can be kept as well: an undo leaves a
mark in place of the oldest action it removes.
-/

namespace DeepseekX.UndoLogs
open GuardedRuns List
variable {α : Type*}

inductive Entry (α : Type*) where
  | action (a : α)
  | undo (n : ℕ)
  deriving DecidableEq

section Survivors

def Entry.applyTo (stack : List α) : Entry α → List α
  | action a => stack ++ [a]
  | undo n => stack.take (stack.length - n)

def survivors (log : List (Entry α)) : List α := log.foldl Entry.applyTo []

/-- The undos of the log that reach further back than it does. -/
def pending : List (Entry α) → ℕ
  | [] => 0
  | .action _ :: log => pending log - 1
  | .undo n :: log => pending log + n

def survivorsFrom : List (Entry α) → List α
  | [] => []
  | .action a :: log => if pending log = 0 then a :: survivorsFrom log else survivorsFrom log
  | .undo _ :: log => survivorsFrom log

variable (log : List (Entry α))

theorem foldl_applyTo (stack : List α) :
    log.foldl Entry.applyTo stack =
      stack.take (stack.length - pending log) ++ survivorsFrom log := by
  induction log generalizing stack with
  | nil => simp [pending, survivorsFrom]
  | cons entry log ih =>
    rw [foldl_cons, ih]
    cases entry with
    | action a =>
      rw [Entry.applyTo, pending, survivorsFrom, length_append, length_singleton]
      by_cases hpending : pending log = 0
      · rw [hpending, take_of_length_le (by simp), take_of_length_le (by simp), append_assoc]
        rfl
      · rw [if_neg hpending, take_append_of_le_length (by omega),
          show stack.length + 1 - pending log = stack.length - (pending log - 1) by omega]
    | undo n =>
      rw [Entry.applyTo, pending, survivorsFrom, take_take, length_take,
        show min (min (stack.length - n) stack.length - pending log) (stack.length - n) =
          stack.length - (pending log + n) by omega]

theorem survivors_eq : survivors log = survivorsFrom log := by
  rw [survivors, foldl_applyTo, take_nil, nil_append]

theorem survivors_cons_action (a : α) (log : List (Entry α)) :
    survivors (.action a :: log) =
      if pending log = 0 then a :: survivors log else survivors log := by
  rw [survivors_eq, survivors_eq, survivorsFrom]

theorem survivors_cons_undo (n : ℕ) (log : List (Entry α)) :
    survivors (.undo n :: log) = survivors log := by
  rw [survivors_eq, survivors_eq, survivorsFrom]

theorem action_mem_of_mem_survivors {log : List (Entry α)} {a : α} (h : a ∈ survivors log) :
    .action a ∈ log := by
  induction log with
  | nil => cases h
  | cons entry log ih =>
    cases entry with
    | action b =>
      rw [survivors_cons_action] at h
      split at h
      · rcases mem_cons.mp h with rfl | h
        · exact mem_cons_self
        · exact mem_cons_of_mem _ (ih h)
      · exact mem_cons_of_mem _ (ih h)
    | undo n =>
      rw [survivors_cons_undo] at h
      exact mem_cons_of_mem _ (ih h)

theorem survivors_append_undone (a : α) :
    survivors (log ++ [.action a, .undo 1]) = survivors log := by
  rw [survivors, foldl_append]
  change (survivors log ++ [a]).take ((survivors log ++ [a]).length - 1) = _
  rw [length_append, length_singleton, Nat.add_sub_cancel, take_left]

theorem survivors_append_action {before after : List (Entry α)} {a : α}
    (h : pending after = 0) :
    survivors (before ++ .action a :: after) = survivors before ++ a :: survivors after := by
  rw [survivors, foldl_append, foldl_applyTo, pending, h, survivorsFrom, if_pos h,
    take_of_length_le (by simp), survivors_eq after]
  rfl

variable {log} {cond : List α → Entry α → Prop} {P : α → Prop}

/-- If every undo of a log removes actions that satisfy `P` only, so do all of them together. -/
theorem forall_removed (hcond : ∀ stack n, cond stack (.undo n) →
      ∀ a ∈ stack.drop (stack.length - n), P a) {stack : List α}
    (h : Along Entry.applyTo cond stack log) :
    ∀ a ∈ stack.drop (stack.length - pending log), P a := by
  induction log generalizing stack with
  | nil => simp [pending]
  | cons entry log ih =>
    intro b hb
    have hlater := ih h.2
    cases entry with
    | action a =>
      rw [pending] at hb
      have hpos : pending log ≠ 0 := by
        rintro hzero
        rw [hzero, Nat.sub_zero, drop_length] at hb
        cases hb
      refine hlater b ?_
      rw [Entry.applyTo, length_append, length_singleton, drop_append]
      exact mem_append_left _ (drop_subset_drop_left _ (by omega) hb)
    | undo n =>
      rw [pending, ← take_append_drop (stack.length - n) stack, drop_append, mem_append] at hb
      rcases hb with hb | hb
      · refine hlater b ?_
        rw [Entry.applyTo, length_take]
        exact drop_subset_drop_left _ (by simp; omega) hb
      · exact hcond stack n h.1 b (mem_of_mem_drop hb)

end Survivors

section Pieces

/-- An action that stands, or the oldest of some that were undone together. -/
inductive Piece (α : Type*) where
  | kept (a : α)
  | erased (a : α)

def keptOf (pieces : List (Piece α)) : List α :=
  pieces.filterMap fun
    | .kept a => some a
    | .erased _ => none

/-- Undoes the `n` newest standing actions, or all if there are fewer. -/
def cutBack (n : ℕ) : List (Piece α) → List (Piece α)
  | [] => []
  | .kept a :: pieces =>
    if (keptOf pieces).length < n then [.erased a] else .kept a :: cutBack n pieces
  | .erased a :: pieces => .erased a :: cutBack n pieces

def Entry.placeIn (pieces : List (Piece α)) : Entry α → List (Piece α)
  | action a => pieces ++ [.kept a]
  | undo n => cutBack n pieces

/-- The standing actions of a log, with the places where others were undone. -/
def pieces (log : List (Entry α)) : List (Piece α) := log.foldl Entry.placeIn []

theorem keptOf_cons_kept (a : α) (ps : List (Piece α)) :
    keptOf (.kept a :: ps) = a :: keptOf ps := rfl

theorem keptOf_cons_erased (a : α) (ps : List (Piece α)) :
    keptOf (.erased a :: ps) = keptOf ps := rfl

theorem keptOf_append (ps qs : List (Piece α)) : keptOf (ps ++ qs) = keptOf ps ++ keptOf qs :=
  filterMap_append

theorem keptOf_cutBack (n : ℕ) (ps : List (Piece α)) :
    keptOf (cutBack n ps) = (keptOf ps).take ((keptOf ps).length - n) := by
  induction ps with
  | nil => exact take_nil.symm
  | cons piece ps ih =>
    cases piece with
    | kept a =>
      rw [cutBack, keptOf_cons_kept, length_cons]
      split
      · rw [show (keptOf ps).length + 1 - n = 0 by omega]
        rfl
      · rw [keptOf_cons_kept, ih,
          show (keptOf ps).length + 1 - n = (keptOf ps).length - n + 1 by omega, take_succ_cons]
    | erased a => rw [cutBack, keptOf_cons_erased, keptOf_cons_erased, ih]

theorem keptOf_placeIn (entry : Entry α) (ps : List (Piece α)) :
    keptOf (entry.placeIn ps) = entry.applyTo (keptOf ps) := by
  cases entry with
  | action a => exact keptOf_append ps _
  | undo n => exact keptOf_cutBack n ps

theorem keptOf_foldl_placeIn (log : List (Entry α)) (ps : List (Piece α)) :
    keptOf (log.foldl Entry.placeIn ps) = log.foldl Entry.applyTo (keptOf ps) := by
  induction log generalizing ps with
  | nil => rfl
  | cons entry log ih => rw [foldl_cons, ih, keptOf_placeIn, foldl_cons]

/-- The pieces that are kept are the standing actions. -/
theorem keptOf_pieces (log : List (Entry α)) : keptOf (pieces log) = survivors log :=
  keptOf_foldl_placeIn log []

variable {n : ℕ} {ps : List (Piece α)} {log : List (Entry α)} {a : α}

theorem cutBack_append (h : n ≤ (keptOf ps).length) (front : List (Piece α)) :
    cutBack n (front ++ ps) = front ++ cutBack n ps := by
  induction front with
  | nil => rfl
  | cons piece front ih =>
    cases piece with
    | kept a =>
      rw [cons_append, cutBack, keptOf_append, length_append, if_neg (by omega), ih]
      rfl
    | erased a =>
      rw [cons_append, cutBack, ih]
      rfl

/-- A log whose undos stay within itself and the pieces given leaves older pieces alone. -/
theorem foldl_placeIn_append (h : pending log ≤ (keptOf ps).length) (front : List (Piece α)) :
    log.foldl Entry.placeIn (front ++ ps) = front ++ log.foldl Entry.placeIn ps := by
  induction log generalizing ps with
  | nil => rfl
  | cons entry log ih =>
    rw [foldl_cons, foldl_cons]
    cases entry with
    | action a =>
      rw [pending] at h
      rw [Entry.placeIn, Entry.placeIn, append_assoc, ih]
      rw [keptOf_append, length_append]
      change _ ≤ _ + 1
      omega
    | undo n =>
      rw [pending] at h
      rw [Entry.placeIn, Entry.placeIn, cutBack_append (by omega), ih]
      rw [keptOf_cutBack, length_take]
      omega

theorem pieces_append_action (before : List (Entry α)) {after : List (Entry α)}
    (h : pending after = 0) :
    pieces (before ++ .action a :: after) = pieces before ++ .kept a :: pieces after := by
  rw [pieces, foldl_append]
  change after.foldl Entry.placeIn (pieces before ++ [.kept a]) = _
  have hrest : after.foldl Entry.placeIn ((pieces before ++ [.kept a]) ++ []) =
      (pieces before ++ [.kept a]) ++ pieces after :=
    foldl_placeIn_append (by omega) _
  rw [append_nil] at hrest
  rw [hrest, append_assoc]
  rfl

/-- An undo either finds nothing to remove, or cuts at the oldest action it removes. -/
theorem cutBack_cases (n : ℕ) (ps : List (Piece α)) :
    (cutBack n ps = ps ∧ (n = 0 ∨ keptOf ps = [])) ∨
    ∃ front a back, ps = front ++ .kept a :: back ∧ cutBack n ps = front ++ [.erased a] ∧
      (keptOf back).length < n ∧ (n = (keptOf back).length + 1 ∨ keptOf front = []) := by
  induction ps with
  | nil => exact .inl ⟨rfl, .inr rfl⟩
  | cons piece ps ih =>
    cases piece with
    | kept a =>
      rw [cutBack]
      split
      · rename_i hcount
        exact .inr ⟨[], a, ps, rfl, rfl, hcount, .inr rfl⟩
      · rename_i hcount
        rcases ih with ⟨hsame, hnone⟩ | ⟨front, b, back, rfl, hcut, hback, hfront⟩
        · refine .inl ⟨by rw [hsame], .inl ?_⟩
          rcases hnone with hzero | hnil
          · exact hzero
          · rw [hnil, length_nil] at hcount
            omega
        · refine .inr ⟨.kept a :: front, b, back, rfl, by rw [hcut]; rfl, hback, .inl ?_⟩
          rcases hfront with hone | hnil
          · exact hone
          · rw [keptOf_append, hnil, nil_append, keptOf_cons_kept, length_cons] at hcount
            omega
    | erased a =>
      rw [cutBack]
      rcases ih with ⟨hsame, hnone⟩ | ⟨front, b, back, rfl, hcut, hback, hfront⟩
      · exact .inl ⟨by rw [hsame], hnone⟩
      · exact .inr ⟨.erased a :: front, b, back, rfl, by rw [hcut]; rfl, hback, hfront⟩

/-- The simulation rule: a reading of the log agrees with its pieces if it agrees after every
action and after every undo that meets the condition. -/
theorem simulate_pieces {σ : Type*} {f : σ → Entry α → σ} {R : σ → List (Piece α) → Prop}
    {cond : List α → Entry α → Prop}
    (haction : ∀ s ps a, R s ps → R (f s (.action a)) (ps ++ [.kept a]))
    (hundo : ∀ s ps n, R s ps → cond (keptOf ps) (.undo n) → R (f s (.undo n)) (cutBack n ps))
    {s : σ} (hlog : Along Entry.applyTo cond (keptOf ps) log) (h : R s ps) :
    R (log.foldl f s) (log.foldl Entry.placeIn ps) := by
  induction log generalizing ps s with
  | nil => exact h
  | cons entry log ih =>
    obtain ⟨hentry, hlog⟩ := hlog
    rw [← keptOf_placeIn] at hlog
    refine ih hlog ?_
    cases entry with
    | action a => exact haction s ps a h
    | undo n => exact hundo s ps n h hentry

/-- What the pieces leave, where a kept action leaves `f` and an erased one `g`. -/
def leftBy {β : Type*} (f g : α → List β) : List (Piece α) → List β
  | [] => []
  | .kept a :: pieces => f a ++ leftBy f g pieces
  | .erased a :: pieces => g a ++ leftBy f g pieces

variable {β : Type*} {f g : α → List β}

theorem length_flatMap_keptOf_le (ps : List (Piece α)) :
    ((keptOf ps).flatMap f).length ≤ (leftBy f g ps).length := by
  induction ps with
  | nil => exact Nat.zero_le _
  | cons piece ps ih =>
    cases piece with
    | kept a =>
      rw [keptOf_cons_kept, flatMap_cons, leftBy, length_append, length_append]
      omega
    | erased a =>
      rw [keptOf_cons_erased, leftBy, length_append]
      omega

/-- The pieces leave what the kept actions leave if and only if the erased ones leave nothing. -/
theorem leftBy_eq_iff :
    leftBy f g ps = (keptOf ps).flatMap f ↔ ∀ a, .erased a ∈ ps → g a = [] := by
  induction ps with
  | nil => simp [leftBy, keptOf]
  | cons piece ps ih =>
    cases piece with
    | kept a =>
      rw [keptOf_cons_kept, flatMap_cons, leftBy, append_cancel_left_eq, ih]
      simp
    | erased a =>
      rw [keptOf_cons_erased, leftBy]
      constructor
      · intro heq b hb
        have hlength := congrArg length heq
        have hle : ((keptOf ps).flatMap f).length ≤ (leftBy f g ps).length :=
          length_flatMap_keptOf_le ps
        rw [length_append] at hlength
        have hnil : g a = [] := length_eq_zero_iff.mp (by omega)
        rw [hnil] at heq
        rcases mem_cons.mp hb with hb | hb
        · rwa [Piece.erased.inj hb]
        · exact ih.mp heq b hb
      · intro hnil
        rw [hnil a mem_cons_self]
        exact ih.mpr fun b hb => hnil b (mem_cons_of_mem _ hb)

end Pieces

end DeepseekX.UndoLogs
