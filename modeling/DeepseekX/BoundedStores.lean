import Mathlib.Data.List.AList
import Mathlib.Data.List.MinMax
import Mathlib.Data.Finset.Card

/-!
# Stores that evict their oldest entries

A store that has reached its limit gives up its oldest entry until it has room again. Of
entries of the same age the first one in the order of iteration goes, and that order is
any one. An entry stays as long as fewer keys than the limit are as young as it.
-/

namespace DeepseekX.BoundedStores

abbrev Store (κ ν : Type*) := AList fun _ : κ => ν

structure IterationOrder (κ ν : Type*) where
  visit : List (Σ _ : κ, ν) → List (Σ _ : κ, ν)
  perm : ∀ entries, (visit entries).Perm entries

def IterationOrder.listed (κ ν : Type*) : IterationOrder κ ν := ⟨id, fun _ => .refl _⟩

variable {κ ν : Type*} [DecidableEq κ] (order : IterationOrder κ ν) (age : ν → ℕ) (limit : ℕ)

def oldest (store : Store κ ν) : Option κ :=
  ((order.visit store.entries).argmin fun entry => age entry.2).map Sigma.fst

/-- The loop, with a bound on its iterations: each takes an entry away. -/
def evictLoop : ℕ → Store κ ν → Store κ ν
  | 0, store => store
  | bound + 1, store =>
    if limit ≤ store.entries.length then
      match oldest order age store with
      | none => store
      | some key => evictLoop bound (store.erase key)
    else store

def evictIfFull (store : Store κ ν) : Store κ ν :=
  evictLoop order age limit store.entries.length store

variable {order age limit} {store : Store κ ν} {key : κ}

omit [DecidableEq κ] in
theorem oldest_spec (h : oldest order age store = some key) :
    ∃ value, ⟨key, value⟩ ∈ store.entries ∧ ∀ entry ∈ store.entries, age value ≤ age entry.2 := by
  obtain ⟨⟨key', value⟩, hmin, rfl⟩ := Option.map_eq_some_iff.mp h
  refine ⟨value, (order.perm _).mem_iff.mp (List.argmin_mem hmin), fun entry hentry => ?_⟩
  have hle := @List.le_of_mem_argmin _ _ _ (fun entry : Σ _ : κ, ν => age entry.2) _ _ _
    ((order.perm _).mem_iff.mpr hentry) hmin
  exact hle

theorem length_erase_of_mem (h : key ∈ store) :
    (store.erase key).entries.length + 1 = store.entries.length := by
  have hkey : key ∈ store.keys := AList.mem_keys.mp h
  have hlength := List.length_erase_of_mem hkey
  have hpos := List.length_pos_of_mem hkey
  rw [← AList.keys_erase] at hlength
  simp only [AList.keys, List.keys, List.length_map] at hlength hpos ⊢
  omega

variable {gone : κ} {value : ν}

theorem lookup_of_lookup_erase (h : (store.erase gone).lookup key = some value) :
    key ≠ gone ∧ store.lookup key = some value := by
  by_cases heq : key = gone
  · rw [heq, AList.lookup_erase] at h
    cases h
  · rw [AList.lookup_erase_ne heq] at h
    exact ⟨heq, h⟩

theorem lookup_evictLoop {bound : ℕ}
    (h : (evictLoop order age limit bound store).lookup key = some value) :
    store.lookup key = some value := by
  induction bound generalizing store with
  | zero => exact h
  | succ bound ih =>
    rw [evictLoop] at h
    split at h
    · split at h
      · exact h
      · exact (lookup_of_lookup_erase (ih h)).2
    · exact h

theorem lookup_of_lookup_evictIfFull
    (h : (evictIfFull order age limit store).lookup key = some value) :
    store.lookup key = some value := lookup_evictLoop h

/-- Fewer keys than the limit are as young as the entry. -/
structure Young (age : ν → ℕ) (limit : ℕ) (young : Finset κ) (key : κ) (value : ν)
    (store : Store κ ν) : Prop where
  card : young.card < limit
  mem : key ∈ young
  lookup : store.lookup key = some value
  older : ∀ other entry, store.lookup other = some entry → other ∉ young → age entry < age value

variable {young : Finset κ} (h : Young age limit young key value store)
include h

theorem Young.ne_oldest (hfull : limit ≤ store.entries.length)
    (hgone : oldest order age store = some gone) : key ≠ gone := by
  rintro rfl
  obtain ⟨value', hmem, hmin⟩ := oldest_spec hgone
  have hvalue : value' = value := by
    have hlookup := AList.mem_lookup_iff.mpr hmem
    rw [h.lookup] at hlookup
    exact (Option.some.inj hlookup).symm
  have hcard : young.card < store.keys.toFinset.card := by
    rw [List.toFinset_card_of_nodup store.keys_nodup, AList.keys, List.keys, List.length_map]
    exact lt_of_lt_of_le h.card hfull
  obtain ⟨other, hother, hyoung⟩ := Finset.exists_mem_notMem_of_card_lt_card hcard
  rw [List.mem_toFinset] at hother
  obtain ⟨entry, hentry⟩ := List.exists_of_mem_keys hother
  have hlt := h.older other entry (AList.mem_lookup_iff.mpr hentry) hyoung
  have hle := hmin ⟨other, entry⟩ hentry
  rw [hvalue] at hle
  exact absurd hlt (Nat.not_lt.mpr hle)

theorem Young.erase (hne : key ≠ gone) : Young age limit young key value (store.erase gone) := by
  refine ⟨h.card, h.mem, ?_, fun other entry hentry hyoung => ?_⟩
  · rw [AList.lookup_erase_ne hne, h.lookup]
  · exact h.older other entry (lookup_of_lookup_erase hentry).2 hyoung

theorem Young.evictIfFull :
    Young age limit young key value (evictIfFull order age limit store) := by
  have hloop (bound : ℕ) (store : Store κ ν) (h : Young age limit young key value store) :
      Young age limit young key value (evictLoop order age limit bound store) := by
    induction bound generalizing store with
    | zero => exact h
    | succ bound ih =>
      rw [evictLoop]
      split
      · next hfull =>
        cases holdest : oldest order age store with
        | none => exact h
        | some gone => exact ih _ (h.erase (h.ne_oldest hfull holdest))
      · exact h
  exact hloop _ store h

end DeepseekX.BoundedStores
