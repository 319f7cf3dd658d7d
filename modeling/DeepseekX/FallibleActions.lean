import Mathlib.Tactic.TypeStar

/-!
# Actions that may fail

An action changes a state and reports success or an error; the state it leaves counts in
both cases. The rules below carry an invariant through sequences of actions, together with
what holds where all of them succeed, as long as the states are fine.
-/

namespace DeepseekX.FallibleActions
variable {σ ε : Type*}

abbrev Action (σ ε : Type*) := σ → σ × Except ε Unit

/-- Runs the second action if the first one succeeded. -/
def andThen (first next : Action σ ε) : Action σ ε := fun state =>
  match first state with
  | (state, .error error) => (state, .error error)
  | (state, .ok ()) => next state

/-- Runs the action, and once more from the recovered state if it failed. -/
def retrying (recover : σ → σ) (action : Action σ ε) : Action σ ε := fun state =>
  match action state with
  | (state, .ok ()) => (state, .ok ())
  | (state, .error _) =>
    match action (recover state) with
    | (state, .ok ()) => (state, .ok ())
    | (state, .error error) => (recover state, .error error)

/-- An action that leaves a fine state has found one. From a state with the invariant and the
precondition, it then keeps the invariant and leaves the postcondition where it succeeds. -/
def Keeps (fine I pre post : σ → Prop) (action : Action σ ε) : Prop :=
  ∀ state, fine (action state).1 → fine state ∧ (I state → pre state →
    I (action state).1 ∧ ((action state).2 = .ok () → post (action state).1))

theorem andThen_cases (first next : Action σ ε) (state : σ) :
    (∃ error, andThen first next state = ((first state).1, .error error)) ∨
      ((first state).2 = .ok () ∧ andThen first next state = next (first state).1) := by
  unfold andThen
  split
  · rename_i after error hresult
    exact .inl ⟨error, by rw [hresult]⟩
  · rename_i after hresult
    rw [hresult]
    exact .inr ⟨rfl, rfl⟩

section Rules
variable {fine I pre mid post : σ → Prop} {first next action : Action σ ε}

theorem Keeps.andThen (hfirst : Keeps fine I pre mid first) (hnext : Keeps fine I mid post next) :
    Keeps fine I pre post (andThen first next) := by
  intro state
  rcases andThen_cases first next state with ⟨error, heq⟩ | ⟨hok, heq⟩ <;> rw [heq] <;> intro hfine
  · obtain ⟨hfine, hkeeps⟩ := hfirst state hfine
    exact ⟨hfine, fun hstate hpre => ⟨(hkeeps hstate hpre).1, nofun⟩⟩
  · obtain ⟨hfine, hrest⟩ := hnext _ hfine
    obtain ⟨hfine, hkeeps⟩ := hfirst state hfine
    refine ⟨hfine, fun hstate hpre => ?_⟩
    obtain ⟨hkept, hmid⟩ := hkeeps hstate hpre
    exact hrest hkept (hmid hok)

theorem Keeps.retrying {recover : σ → σ} (haction : Keeps fine I (fun _ => True) post action)
    (hrecover : ∀ state, (fine (recover state) ↔ fine state) ∧ (I state → I (recover state))) :
    Keeps fine I (fun _ => True) post (retrying recover action) := by
  intro state
  have hfirst := haction state
  unfold FallibleActions.retrying
  split
  · rename_i after hresult
    rwa [hresult] at hfirst
  · rename_i after error hresult
    rw [hresult] at hfirst
    have hagain := haction (recover after)
    split
    · rename_i last hlast
      rw [hlast] at hagain
      intro hfine
      obtain ⟨hfine, hkeeps⟩ := hagain hfine
      obtain ⟨hfine, hbefore⟩ := hfirst ((hrecover after).1.mp hfine)
      exact ⟨hfine, fun hstate hpre =>
        hkeeps ((hrecover after).2 (hbefore hstate hpre).1) trivial⟩
    · rename_i last _ hlast
      rw [hlast] at hagain
      intro hfine
      obtain ⟨hfine, hkeeps⟩ := hagain ((hrecover last).1.mp hfine)
      obtain ⟨hfine, hbefore⟩ := hfirst ((hrecover after).1.mp hfine)
      exact ⟨hfine, fun hstate hpre => ⟨(hrecover last).2
        (hkeeps ((hrecover after).2 (hbefore hstate hpre).1) trivial).1, nofun⟩⟩

end Rules

end DeepseekX.FallibleActions
