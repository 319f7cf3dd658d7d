import DeepseekX.BoundedStores

/-!
# Putting numbered items back in order

Items numbered from one on arrive in any order and with repetitions. A resequencer keeps an
item back until every item before it has been passed on, and refuses a number it has passed.
-/

namespace DeepseekX.Resequencers
open BoundedStores

/-- The number of the last item passed on, and the items kept back. -/
structure Resequencer (α : Type*) where
  last : ℕ
  waiting : Store ℕ α

namespace Resequencer
variable {α : Type*}

def empty : Resequencer α := ⟨0, ∅⟩

variable (r : Resequencer α)

def next : Resequencer α := ⟨r.last + 1, r.waiting.erase (r.last + 1)⟩

@[simp] theorem next_last : r.next.last = r.last + 1 := rfl

@[simp] theorem next_waiting : r.next.waiting = r.waiting.erase (r.last + 1) := rfl

/-- Passes on the items that follow the last one, `bound` of them at most. -/
def release : ℕ → Resequencer α → Resequencer α × List α
  | 0, r => (r, [])
  | bound + 1, r =>
    match r.waiting.lookup (r.last + 1) with
    | none => (r, [])
    | some a => ((release bound r.next).1, a :: (release bound r.next).2)

def store (seq : ℕ) (a : α) : Resequencer α :=
  ⟨r.last, if seq ∈ r.waiting then r.waiting else r.waiting.insert seq a⟩

/-- An item arrives. The first of two items with one number is kept. -/
def accept (seq : ℕ) (a : α) : Resequencer α × List α :=
  if seq ≤ r.last then (r, [])
  else release (r.store seq a).waiting.entries.length (r.store seq a)

variable {item : ℕ → α} {arrived : ℕ → Prop} {r : Resequencer α} {seq bound : ℕ}

/-- What has arrived is what has been passed on and what is kept back. -/
structure Keeps (item : ℕ → α) (arrived : ℕ → Prop) (r : Resequencer α) : Prop where
  passed : ∀ k, 1 ≤ k → k ≤ r.last → arrived k
  waiting : ∀ k a, r.waiting.lookup k = some a ↔ r.last < k ∧ arrived k ∧ item k = a

/-- Moreover the next item to pass on has not arrived. -/
structure Holds (item : ℕ → α) (arrived : ℕ → Prop) (r : Resequencer α) : Prop
    extends Keeps item arrived r where
  missing : ¬ arrived (r.last + 1)

/-- The items passed on between two states. -/
def Passes (item : ℕ → α) (r r' : Resequencer α) (items : List α) : Prop :=
  ∃ count, r'.last = r.last + count ∧ items = (List.range' (r.last + 1) count).map item

theorem holds_empty (h : ∀ k, ¬ arrived k) : (empty : Resequencer α).Holds item arrived where
  passed k hk hlast := absurd (Nat.le_trans hk hlast) (Nat.not_succ_le_zero 0)
  waiting k a := by simp [empty, h k]
  missing := h _

theorem passes_refl : Passes item r r [] := ⟨0, rfl, rfl⟩

theorem Keeps.next (h : r.Keeps item arrived) (hnext : arrived (r.last + 1)) :
    r.next.Keeps item arrived where
  passed k hk hlast := by
    rcases Nat.le_succ_iff.mp hlast with hlast | heq
    · exact h.passed k hk hlast
    · exact heq ▸ hnext
  waiting k a := by
    by_cases hk : k = r.last + 1
    · subst hk
      simp
    · rw [next_waiting, next_last, AList.lookup_erase_ne hk, h.waiting]
      exact and_congr_left fun _ => ⟨fun hlt => by omega, fun hlt => by omega⟩

theorem Keeps.missing_of_lookup (h : r.Keeps item arrived)
    (hlookup : r.waiting.lookup (r.last + 1) = none) : ¬ arrived (r.last + 1) := by
  intro hnext
  have hwaits := (h.waiting (r.last + 1) _).mpr ⟨Nat.lt_succ_self _, hnext, rfl⟩
  rw [hlookup] at hwaits
  cases hwaits

theorem Passes.cons {r' : Resequencer α} {items : List α} (h : Passes item r.next r' items) :
    Passes item r r' (item (r.last + 1) :: items) := by
  obtain ⟨count, hlast, rfl⟩ := h
  refine ⟨count + 1, ?_, rfl⟩
  rw [hlast, next_last]
  omega

/-- The loop ends for want of an item, not of its bound. -/
theorem Keeps.release (h : r.Keeps item arrived) (hbound : r.waiting.entries.length ≤ bound) :
    (release bound r).1.Holds item arrived ∧
      Passes item r (release bound r).1 (release bound r).2 := by
  induction bound generalizing r with
  | zero =>
    have hempty : r.waiting = ∅ := AList.ext (List.length_eq_zero_iff.mp (Nat.le_zero.mp hbound))
    exact ⟨⟨h, h.missing_of_lookup (by rw [hempty]; rfl)⟩, passes_refl⟩
  | succ bound ih =>
    unfold Resequencer.release
    cases hlookup : r.waiting.lookup (r.last + 1) with
    | none => exact ⟨⟨h, h.missing_of_lookup hlookup⟩, passes_refl⟩
    | some a =>
      obtain ⟨-, hnext, rfl⟩ := (h.waiting _ _).mp hlookup
      have hlength := length_erase_of_mem (AList.lookup_isSome.mp (by rw [hlookup]; rfl))
      obtain ⟨hholds, hpasses⟩ := ih (h.next hnext) (by rw [next_waiting]; omega)
      exact ⟨hholds, hpasses.cons⟩

theorem Keeps.store (h : r.Keeps item arrived) (hseq : r.last < seq) :
    (r.store seq (item seq)).Keeps item fun k => k = seq ∨ arrived k where
  passed k hk hlast := .inr (h.passed k hk hlast)
  waiting k a := by
    unfold Resequencer.store
    split
    next hmem =>
      obtain ⟨b, hb⟩ := Option.isSome_iff_exists.mp (AList.lookup_isSome.mpr hmem)
      have harrived := ((h.waiting seq b).mp hb).2.1
      rw [h.waiting, or_iff_right_of_imp fun heq => heq ▸ harrived]
    next =>
      by_cases hk : k = seq
      · subst hk
        simp [hseq]
      · simp [h.waiting, hk]

/-- After every arrival the items up to the first gap have been passed on. -/
theorem Holds.accept (h : r.Holds item arrived) (hseq : 1 ≤ seq) :
    (r.accept seq (item seq)).1.Holds item (fun k => k = seq ∨ arrived k) ∧
      Passes item r (r.accept seq (item seq)).1 (r.accept seq (item seq)).2 := by
  unfold Resequencer.accept
  split
  next hle =>
    have harrived : (fun k => k = seq ∨ arrived k) = arrived :=
      funext fun k => propext (or_iff_right_of_imp fun heq => heq ▸ h.passed seq hseq hle)
    rw [harrived]
    exact ⟨h, passes_refl⟩
  next hlt => exact (h.toKeeps.store (Nat.lt_of_not_le hlt)).release (Nat.le_refl _)

/-- When the items from one to `n` have arrived and no other, all are passed on. -/
theorem Holds.last_eq {n : ℕ} (h : r.Holds item arrived)
    (harrived : ∀ k, arrived k ↔ 1 ≤ k ∧ k ≤ n) : r.last = n := by
  have hmissing := h.missing
  rw [harrived] at hmissing
  rcases Nat.eq_zero_or_pos r.last with hzero | hpos
  · omega
  · have hlast := (harrived _).mp (h.passed r.last hpos (Nat.le_refl _))
    omega

end Resequencer

end DeepseekX.Resequencers
