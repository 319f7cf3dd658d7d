import Mathlib.Data.Finset.Card

/-!
# Interleaved tasks over a shared state

Any number of tasks act on one shared state. A task moves by atomic steps; between two of
its steps the others may move. A schedule says which task moves next and what the
environment answers it.
-/

namespace DeepseekX.Interleavings
open Function

/-- The shared state and what each task is about to do. -/
structure System (ι σ τ : Type*) where
  shared : σ
  tasks : ι → τ

section Runs
variable {ι σ τ ρ : Type*} [DecidableEq ι] (step : ρ → σ → τ → σ × τ)

def System.move (system : System ι σ τ) (event : ι × ρ) : System ι σ τ :=
  let moved := step event.2 system.shared (system.tasks event.1)
  ⟨moved.1, update system.tasks event.1 moved.2⟩

def System.run (system : System ι σ τ) (schedule : List (ι × ρ)) : System ι σ τ :=
  schedule.foldl (System.move step) system

theorem System.move_tasks (system : System ι σ τ) (event : ι × ρ) :
    (system.move step event).tasks = update system.tasks event.1
      (step event.2 system.shared (system.tasks event.1)).2 := rfl

variable {step} {I : σ → Prop} {J : τ → Prop} {R : ρ → Prop}
variable (hstep : ∀ reply shared task, R reply → I shared → J task →
  I (step reply shared task).1 ∧ J (step reply shared task).2)
include hstep

theorem System.move_invariant
    {system : System ι σ τ} {event : ι × ρ} (hreply : R event.2) (hshared : I system.shared)
    (htasks : ∀ i, J (system.tasks i)) :
    I (system.move step event).shared ∧ ∀ i, J ((system.move step event).tasks i) := by
  have hmoved := hstep event.2 system.shared (system.tasks event.1) hreply hshared (htasks event.1)
  refine ⟨hmoved.1, fun i => ?_⟩
  by_cases hi : i = event.1
  · rw [hi, System.move_tasks, update_self]
    exact hmoved.2
  · rw [System.move_tasks, update_of_ne hi]
    exact htasks i

/-- What every step keeps, of the shared state and of the task that moves, holds along every
schedule. -/
theorem System.run_invariant
    {system : System ι σ τ} {schedule : List (ι × ρ)} (hreplies : ∀ event ∈ schedule, R event.2)
    (hshared : I system.shared) (htasks : ∀ i, J (system.tasks i)) :
    I (system.run step schedule).shared ∧ ∀ i, J ((system.run step schedule).tasks i) := by
  induction schedule generalizing system with
  | nil => exact ⟨hshared, htasks⟩
  | cons event schedule ih =>
    rw [List.forall_mem_cons] at hreplies
    obtain ⟨hmoved, htasks⟩ := System.move_invariant hstep hreplies.1 hshared htasks
    exact ih hreplies.2 hmoved htasks

end Runs

section Counting
variable {ι τ : Type*} {p : τ → Prop} {tasks : ι → τ} {n : ℕ} {i : ι} {task : τ}

def Counted (p : τ → Prop) (tasks : ι → τ) (n : ℕ) : Prop :=
  ∃ members : Finset ι, (∀ i, i ∈ members ↔ p (tasks i)) ∧ members.card = n

theorem counted_zero (h : ∀ i, ¬ p (tasks i)) : Counted p tasks 0 :=
  ⟨∅, fun i => ⟨fun hi => absurd hi (Finset.notMem_empty i), fun hi => absurd hi (h i)⟩, rfl⟩

theorem Counted.none_of_zero (h : Counted p tasks 0) (i : ι) : ¬ p (tasks i) := by
  obtain ⟨members, hmembers, hcard⟩ := h
  rw [← hmembers, Finset.card_eq_zero.mp hcard]
  exact Finset.notMem_empty i

variable (h : Counted p tasks n)
include h

theorem Counted.unique {m : ℕ} (h' : Counted p tasks m) : n = m := by
  obtain ⟨members, hmembers, rfl⟩ := h
  obtain ⟨members', hmembers', rfl⟩ := h'
  rw [Finset.ext fun i => (hmembers i).trans (hmembers' i).symm]

variable [DecidableEq ι]

theorem Counted.update_of_iff (hiff : p task ↔ p (tasks i)) :
    Counted p (update tasks i task) n := by
  obtain ⟨members, hmembers, hcard⟩ := h
  refine ⟨members, fun j => ?_, hcard⟩
  by_cases hj : j = i
  · rw [hj, update_self, hiff, hmembers]
  · rw [update_of_ne hj, hmembers]

theorem Counted.update_gain (hold : ¬ p (tasks i)) (hnew : p task) :
    Counted p (update tasks i task) (n + 1) := by
  obtain ⟨members, hmembers, hcard⟩ := h
  have hi : i ∉ members := fun hi => hold ((hmembers i).mp hi)
  refine ⟨insert i members, fun j => ?_, by rw [Finset.card_insert_of_notMem hi, hcard]⟩
  by_cases hj : j = i
  · simp [hj, hnew]
  · rw [update_of_ne hj, Finset.mem_insert, hmembers, or_iff_right hj]

theorem Counted.update_lose (hold : p (tasks i)) (hnew : ¬ p task) :
    Counted p (update tasks i task) (n - 1) := by
  obtain ⟨members, hmembers, hcard⟩ := h
  have hi : i ∈ members := (hmembers i).mpr hold
  refine ⟨members.erase i, fun j => ?_, by rw [Finset.card_erase_of_mem hi, hcard]⟩
  by_cases hj : j = i
  · simp [hj, hnew]
  · rw [update_of_ne hj, Finset.mem_erase, hmembers, and_iff_right hj]

end Counting

end DeepseekX.Interleavings
