import Mathlib.Data.List.Basic

/-!
# Runs whose steps meet a condition

A step function takes a state and an event to the next state. A condition on the events may
depend on the state they find. A property of the states may have to hold in every state that a
run reaches, the first and the last one included.
-/

namespace DeepseekX.GuardedRuns
variable {σ ε : Type*} (step : σ → ε → σ)

/-- Every event meets the condition in the state it finds. -/
def Along (cond : σ → ε → Prop) : σ → List ε → Prop
  | _, [] => True
  | s, e :: es => cond s e ∧ Along cond (step s e) es

/-- Every state of the run has the property. -/
def Always (inv : σ → Prop) : σ → List ε → Prop
  | s, [] => inv s
  | s, e :: es => inv s ∧ Always inv (step s e) es

instance decidableAlong (cond : σ → ε → Prop) [∀ s e, Decidable (cond s e)] :
    ∀ s es, Decidable (Along step cond s es)
  | _, [] => inferInstanceAs (Decidable True)
  | s, e :: es =>
    have := decidableAlong cond (step s e) es
    inferInstanceAs (Decidable (cond s e ∧ Along step cond (step s e) es))

variable {step} {cond : σ → ε → Prop} {inv good : σ → Prop} {s : σ} {es : List ε}

theorem Along.of_append {es' : List ε} (h : Along step cond s (es ++ es')) :
    Along step cond (es.foldl step s) es' := by
  induction es generalizing s with
  | nil => exact h
  | cons e es ih => exact ih h.2

theorem Always.first (h : Always step inv s es) : inv s := by
  cases es with
  | nil => exact h
  | cons e es => exact h.1

theorem Always.mono {inv' : σ → Prop} (h : Always step inv s es) (himp : ∀ s, inv s → inv' s) :
    Always step inv' s es := by
  induction es generalizing s with
  | nil => exact himp s h
  | cons e es ih => exact ⟨himp s h.1, ih h.2⟩

/-- What an allowed step that meets the condition keeps holds in every state of the run. -/
theorem Along.always_of_allowed {allowed : ε → Prop}
    (hstep : ∀ s e, allowed e → cond s e → inv s → inv (step s e)) (hes : ∀ e ∈ es, allowed e)
    (hs : inv s) (h : Along step cond s es) : Always step inv s es := by
  induction es generalizing s with
  | nil => exact hs
  | cons e es ih =>
    rw [List.forall_mem_cons] at hes
    exact ⟨hs, ih hes.2 (hstep s e hes.1 h.1 hs) h.2⟩

theorem Along.always (hstep : ∀ s e, cond s e → inv s → inv (step s e)) (hs : inv s)
    (h : Along step cond s es) : Always step inv s es :=
  h.always_of_allowed (fun s e (_ : True) => hstep s e) (fun _ _ => trivial) hs

/-- If a step keeps the property exactly when it meets the condition, a run keeps it exactly
when all its steps do. -/
theorem always_iff_along {allowed : ε → Prop} (hgood : ∀ s e, allowed e → good s → good (step s e))
    (hstep : ∀ s e, allowed e → good s → inv s → (inv (step s e) ↔ cond s e))
    (hes : ∀ e ∈ es, allowed e) (hs : good s) (hinv : inv s) :
    Always step inv s es ↔ Along step cond s es := by
  induction es generalizing s with
  | nil => exact ⟨fun _ => trivial, fun _ => hinv⟩
  | cons e es ih =>
    rw [List.forall_mem_cons] at hes
    obtain ⟨he, hes⟩ := hes
    constructor
    · rintro ⟨-, hrest⟩
      have hnext := hrest.first
      exact ⟨(hstep s e he hs hinv).mp hnext, (ih hes (hgood s e he hs) hnext).mp hrest⟩
    · rintro ⟨hcond, hrest⟩
      have hnext := (hstep s e he hs hinv).mpr hcond
      exact ⟨hinv, (ih hes (hgood s e he hs) hnext).mpr hrest⟩

end DeepseekX.GuardedRuns
