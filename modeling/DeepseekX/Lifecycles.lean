import Mathlib.Data.List.Basic

/-!
# Life cycles seen through a log

A log holds events about many subjects. What may happen to one subject is said by phases:
an event about it leads from one phase to another, or must not come. The phase of a subject
depends on the events about it only.
-/

namespace DeepseekX.Lifecycles

structure Lifecycle (ι ε φ : Type*) where
  subject : ε → ι
  start : φ
  advance : φ → ε → Option φ

variable {ι ε φ : Type*} [DecidableEq ι] (cycle : Lifecycle ι ε φ) (i : ι) (log : List ε)

def Lifecycle.seen : List ε := log.filter fun event => cycle.subject event = i

/-- The phase a subject has reached, if all events about it came in their place. -/
def Lifecycle.phase : Option φ := (cycle.seen i log).foldlM cycle.advance cycle.start

variable {cycle i log} {event : ε}

theorem Lifecycle.subject_of_mem_seen (h : event ∈ cycle.seen i log) : cycle.subject event = i :=
  of_decide_eq_true (List.mem_filter.mp h).2

theorem Lifecycle.phase_concat_ne (h : cycle.subject event ≠ i) :
    cycle.phase i (log ++ [event]) = cycle.phase i log := by
  have hseen : cycle.seen i (log ++ [event]) = cycle.seen i log := by
    simp [Lifecycle.seen, h]
  rw [Lifecycle.phase, hseen, Lifecycle.phase]

theorem Lifecycle.phase_concat_self :
    cycle.phase (cycle.subject event) (log ++ [event]) =
      (cycle.phase (cycle.subject event) log).bind fun reached => cycle.advance reached event := by
  have hseen : cycle.seen (cycle.subject event) (log ++ [event]) =
      cycle.seen (cycle.subject event) log ++ [event] := by
    simp [Lifecycle.seen]
  rw [Lifecycle.phase, hseen]
  cases h : (cycle.seen (cycle.subject event) log).foldlM cycle.advance cycle.start with
  | none | some => simp [Lifecycle.phase, h]

end DeepseekX.Lifecycles
