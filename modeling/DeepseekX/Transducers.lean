import Mathlib.Data.List.Basic

/-!
# Fallible transducers and patterns in their inputs

A step takes a state and an input to a new state and some outputs, or fails. A run
feeds a list of inputs to the steps and concatenates the outputs. Conditions on the
inputs of a run are stated as patterns: a list of predicates that are met, in this
order, by some of the inputs.
-/

namespace DeepseekX.Transducers

section Fallible
variable {ε α β γ : Type*}

@[simp] theorem ok_bind (a : α) (f : α → Except ε β) : (Except.ok a).bind f = f a := rfl

@[simp] theorem error_bind (e : ε) (f : α → Except ε β) : (Except.error e).bind f = .error e := rfl

@[simp] theorem ok_map (a : α) (f : α → β) : (Except.ok a : Except ε α).map f = .ok (f a) := rfl

@[simp] theorem error_map (e : ε) (f : α → β) :
    (Except.error e : Except ε α).map f = .error e := rfl

@[simp] theorem map_self (x : Except ε α) : (x.map fun a => a) = x := by
  cases x <;> rfl

theorem map_map (x : Except ε α) (f : α → β) (g : β → γ) :
    (x.map f).map g = x.map fun a => g (f a) := by
  cases x <;> rfl

theorem map_bind (x : Except ε α) (f : α → β) (g : β → Except ε γ) :
    (x.map f).bind g = x.bind fun a => g (f a) := by
  cases x <;> rfl

theorem bind_map (x : Except ε α) (f : α → Except ε β) (g : β → γ) :
    (x.bind f).map g = x.bind fun a => (f a).map g := by
  cases x <;> rfl

theorem bind_bind (x : Except ε α) (f : α → Except ε β) (g : β → Except ε γ) :
    (x.bind f).bind g = x.bind fun a => (f a).bind g := by
  cases x <;> rfl

variable {x : Except ε α}

theorem bind_eq_ok {f : α → Except ε β} {b : β} :
    x.bind f = .ok b ↔ ∃ a, x = .ok a ∧ f a = .ok b := by
  cases x <;> simp

theorem mapError_eq_ok {δ : Type*} {f : ε → δ} {a : α} : x.mapError f = .ok a ↔ x = .ok a := by
  cases x <;> simp [Except.mapError]

theorem toOption_map (f : α → β) : (x.map f).toOption = x.toOption.map f := by
  cases x <;> rfl

theorem toOption_eq_some {a : α} : x.toOption = some a ↔ x = .ok a := by
  cases x <;> simp [Except.toOption]

theorem map_eq_ok {f : α → β} {b : β} : x.map f = .ok b ↔ ∃ a, x = .ok a ∧ f a = b := by
  cases x <;> simp

end Fallible

section Runs
variable {σ ι ε ο : Type*}

def run (step : σ → ι → Except ε (σ × List ο)) : σ → List ι → Except ε (σ × List ο)
  | s, [] => .ok (s, [])
  | s, x :: xs =>
    match step s x with
    | .error e => .error e
    | .ok (t, out) =>
      match run step t xs with
      | .error e => .error e
      | .ok (u, rest) => .ok (u, out ++ rest)

variable {step : σ → ι → Except ε (σ × List ο)}

@[simp] theorem run_nil (s : σ) : run step s [] = .ok (s, []) := rfl

theorem run_cons_eq_ok {s u : σ} {x : ι} {xs : List ι} {out : List ο} :
    run step s (x :: xs) = .ok (u, out) ↔ ∃ t first rest, step s x = .ok (t, first) ∧
      run step t xs = .ok (u, rest) ∧ out = first ++ rest := by
  rw [run]
  cases hs : step s x with
  | error e => simp
  | ok r =>
    obtain ⟨t, first⟩ := r
    cases hr : run step t xs with
    | error e => simp [hr]
    | ok r =>
      obtain ⟨v, rest⟩ := r
      simp [hr, eq_comm]

theorem run_append (s : σ) (xs ys : List ι) :
    run step s (xs ++ ys) = match run step s xs with
      | .error e => .error e
      | .ok (t, first) => match run step t ys with
        | .error e => .error e
        | .ok (u, rest) => .ok (u, first ++ rest) := by
  induction xs generalizing s with
  | nil =>
    rcases hr : run step s ys with e | ⟨u, rest⟩ <;> simp [hr]
  | cons x xs ih =>
    rw [List.cons_append, run, run]
    rcases step s x with e | ⟨t, out⟩
    · rfl
    · simp only [ih]
      rcases run step t xs with e | ⟨u, first⟩
      · rfl
      · rcases hr : run step u ys with e | ⟨v, rest⟩ <;> simp [hr]

theorem run_append_eq_ok {s u : σ} {xs ys : List ι} {out : List ο} :
    run step s (xs ++ ys) = .ok (u, out) ↔ ∃ t first rest, run step s xs = .ok (t, first) ∧
      run step t ys = .ok (u, rest) ∧ out = first ++ rest := by
  rw [run_append]
  cases hx : run step s xs with
  | error e => simp
  | ok r =>
    obtain ⟨t, first⟩ := r
    cases hy : run step t ys with
    | error e => simp [hy]
    | ok r =>
      obtain ⟨v, rest⟩ := r
      simp [hy, eq_comm]

/-- What holds of the state and the outputs so far, and is kept by every step, holds at the
end. The inputs consumed so far may be referred to. -/
theorem run_invariant {I : List ι → σ → List ο → Prop}
    (hstep : ∀ xs s out x t new, I xs s out → step s x = .ok (t, new) →
      I (xs ++ [x]) t (out ++ new))
    (seen : List ι) {s u : σ} {out rest : List ο} {xs : List ι} (hs : I seen s out)
    (h : run step s xs = .ok (u, rest)) : I (seen ++ xs) u (out ++ rest) := by
  induction xs generalizing seen s out rest with
  | nil =>
    obtain ⟨rfl, rfl⟩ := h
    simpa using hs
  | cons x xs ih =>
    obtain ⟨t, first, later, hx, hrest, rfl⟩ := run_cons_eq_ok.mp h
    simpa using ih (seen ++ [x]) (hstep seen s out x t first hs hx) hrest

variable (step) in
/-- A run succeeds if a view of it does, where an input stands for some inputs of the view. -/
theorem run_of_view {σ' ι' ε' ο' : Type*} (view : σ' → ι' → Except ε' (σ' × List ο'))
    (f : σ → σ') (g : ι → List ι')
    (hstep : ∀ s x t' out', run view (f s) (g x) = .ok (t', out') →
      ∃ t out, step s x = .ok (t, out) ∧ f t = t') {s : σ} {xs : List ι} {t' : σ'}
    {out' : List ο'} (h : run view (f s) (xs.flatMap g) = .ok (t', out')) :
    ∃ t out, run step s xs = .ok (t, out) ∧ f t = t' := by
  induction xs generalizing s out' with
  | nil =>
    simp only [List.flatMap_nil, run_nil, Except.ok.injEq, Prod.mk.injEq] at h
    exact ⟨s, [], rfl, h.1⟩
  | cons x xs ih =>
    obtain ⟨u', first, rest, hx, hxs, -⟩ := run_append_eq_ok.mp h
    obtain ⟨u, out, hu, rfl⟩ := hstep s x u' first hx
    obtain ⟨t, later, ht, hf⟩ := ih hxs
    exact ⟨t, out ++ later, run_cons_eq_ok.mpr ⟨u, out, later, hu, ht, rfl⟩, hf⟩

end Runs

section Patterns
variable {α : Type*}

/-- Some elements of the list satisfy the predicates, in this order. -/
def HasPattern : List (α → Bool) → List α → Prop
  | [], _ => True
  | _ :: _, [] => False
  | p :: ps, x :: xs => p x = true ∧ HasPattern ps xs ∨ HasPattern (p :: ps) xs

instance HasPattern.decidable : ∀ (ps : List (α → Bool)) (xs : List α), Decidable (HasPattern ps xs)
  | [], [] | [], _ :: _ => isTrue trivial
  | _ :: _, [] => isFalse not_false
  | p :: ps, x :: xs =>
    have := HasPattern.decidable ps xs
    have := HasPattern.decidable (p :: ps) xs
    inferInstanceAs (Decidable (p x = true ∧ HasPattern ps xs ∨ HasPattern (p :: ps) xs))

@[simp] theorem hasPattern_nil (xs : List α) : HasPattern [] xs := by cases xs <;> trivial

@[simp] theorem not_hasPattern_cons_nil (p : α → Bool) (ps : List (α → Bool)) :
    ¬ HasPattern (p :: ps) [] := not_false

@[simp] theorem hasPattern_cons_cons (p : α → Bool) (ps : List (α → Bool)) (x : α) (xs : List α) :
    HasPattern (p :: ps) (x :: xs) ↔ p x = true ∧ HasPattern ps xs ∨ HasPattern (p :: ps) xs :=
  Iff.rfl

variable {ps : List (α → Bool)} {xs : List α}

theorem HasPattern.tail {p : α → Bool} (h : HasPattern (p :: ps) xs) : HasPattern ps xs := by
  induction xs with
  | nil => exact absurd h (not_hasPattern_cons_nil p ps)
  | cons x xs ih =>
    have htail : HasPattern ps xs := by
      rcases (hasPattern_cons_cons p ps x xs).mp h with ⟨-, hps⟩ | hlater
      · exact hps
      · exact ih hlater
    cases ps with
    | nil => trivial
    | cons q qs => exact Or.inr htail

theorem HasPattern.init (ps : List (α → Bool)) {p : α → Bool} (h : HasPattern (ps ++ [p]) xs) :
    HasPattern ps xs := by
  induction xs generalizing ps with
  | nil => cases ps with
    | nil => trivial
    | cons q qs => exact h
  | cons x xs ih => cases ps with
    | nil => trivial
    | cons q qs => exact Or.imp (And.imp_right (ih qs)) (ih (q :: qs)) h

theorem HasPattern.mono {qs : List (α → Bool)} (h : HasPattern ps xs)
    (hpq : List.Forall₂ (fun p q => ∀ x, p x = true → q x = true) ps qs) : HasPattern qs xs := by
  induction xs generalizing ps qs with
  | nil => cases hpq with
    | nil => trivial
    | cons hp hps => exact h
  | cons x xs ih => cases hpq with
    | nil => trivial
    | cons hp hps =>
      refine Or.imp (And.imp (hp x) fun h => ?_) (fun h => ?_) h
      · exact ih h hps
      · exact ih h (.cons hp hps)

/-- A last element either completes the pattern or does not matter. -/
theorem hasPattern_append_singleton (ps : List (α → Bool)) (p : α → Bool) (xs : List α) (x : α) :
    HasPattern (ps ++ [p]) (xs ++ [x]) ↔
      HasPattern (ps ++ [p]) xs ∨ HasPattern ps xs ∧ p x = true := by
  induction xs generalizing ps with
  | nil => cases ps with
    | nil => simp
    | cons q qs => cases qs <;> simp
  | cons y ys ih => cases ps with
    | nil =>
      have hih := ih []
      simp only [List.nil_append, List.cons_append, hasPattern_cons_cons, hasPattern_nil] at hih ⊢
      rw [hih, or_assoc]
    | cons q qs =>
      have hih := ih (q :: qs)
      simp only [List.cons_append, hasPattern_cons_cons] at hih ⊢
      rw [ih qs]
      tauto

section Short
variable (p q r : α → Bool) (xs : List α) (x : α)

theorem hasPattern_one_append : HasPattern [p] (xs ++ [x]) ↔ HasPattern [p] xs ∨ p x = true := by
  simpa using hasPattern_append_singleton [] p xs x

theorem hasPattern_two_append :
    HasPattern [p, q] (xs ++ [x]) ↔ HasPattern [p, q] xs ∨ HasPattern [p] xs ∧ q x = true :=
  hasPattern_append_singleton [p] q xs x

theorem hasPattern_three_append :
    HasPattern [p, q, r] (xs ++ [x]) ↔
      HasPattern [p, q, r] xs ∨ HasPattern [p, q] xs ∧ r x = true :=
  hasPattern_append_singleton [p, q] r xs x

end Short

section Alternation
variable {p q : α → Bool} (hdisjoint : ∀ x, p x = true → q x = false)
include hdisjoint

theorem HasPattern.pair {xs : List α} (hp : HasPattern [p] xs) (hq : HasPattern [q] xs) :
    HasPattern [p, q] xs ∨ HasPattern [q, p] xs := by
  induction xs with
  | nil => exact absurd hp (not_hasPattern_cons_nil p [])
  | cons x xs ih =>
    have hx := hdisjoint x
    simp only [hasPattern_cons_cons, hasPattern_nil, and_true] at hp hq ⊢
    rcases hp with hp | hp <;> rcases hq with hq | hq
    · simp [hx hp] at hq
    · exact Or.inl (Or.inl ⟨hp, hq⟩)
    · exact Or.inr (Or.inl ⟨hq, hp⟩)
    · exact (ih hp hq).imp Or.inr Or.inr

/-- Both orders together alternate. -/
theorem HasPattern.alternate {xs : List α} (hpq : HasPattern [p, q] xs)
    (hqp : HasPattern [q, p] xs) : HasPattern [p, q, p] xs ∨ HasPattern [q, p, q] xs := by
  induction xs with
  | nil => exact absurd hpq (not_hasPattern_cons_nil p [q])
  | cons x xs ih =>
    have hx := hdisjoint x
    rcases (hasPattern_cons_cons p [q] x xs).mp hpq with ⟨hp, -⟩ | hpq <;>
      rcases (hasPattern_cons_cons q [p] x xs).mp hqp with ⟨hq, -⟩ | hqp
    · simp [hx hp] at hq
    · exact Or.inl (Or.inl ⟨hp, hqp⟩)
    · exact Or.inr (Or.inl ⟨hq, hpq⟩)
    · exact (ih hpq hqp).imp Or.inr Or.inr

end Alternation

end Patterns
end DeepseekX.Transducers
