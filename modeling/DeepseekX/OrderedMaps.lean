import Mathlib.Order.Lattice
import Mathlib.Data.List.Basic

/-!
# Maps that are iterated in the order of their keys

Association lists with strictly increasing keys. The order is part of the type, so
that two maps with the same entries are equal and the values come in key order.
-/

namespace DeepseekX.OrderedMaps
open List

structure OrderedMap (κ ν : Type*) [LinearOrder κ] where
  entries : List (κ × ν)
  sorted : entries.Pairwise (fun a b => a.1 < b.1)

namespace OrderedMap
variable {κ ν : Type*} [LinearOrder κ]

def empty : OrderedMap κ ν := ⟨[], List.Pairwise.nil⟩

def lookup (k : κ) (m : OrderedMap κ ν) : Option ν :=
  (m.entries.find? fun entry => decide (entry.1 = k)).map (·.2)

def values (m : OrderedMap κ ν) : List ν := m.entries.map (·.2)

/-- Puts the entry in its place, replacing one with the same key. -/
def insertEntry (k : κ) (v : ν) : List (κ × ν) → List (κ × ν)
  | [] => [(k, v)]
  | entry :: rest =>
    if k < entry.1 then (k, v) :: entry :: rest
    else if k = entry.1 then (k, v) :: rest
    else entry :: insertEntry k v rest

variable {entries : List (κ × ν)}

theorem mem_insertEntry {k : κ} {v : ν} {e : κ × ν} (h : e ∈ insertEntry k v entries) :
    e = (k, v) ∨ e ∈ entries := by
  induction entries with
  | nil => simpa [insertEntry] using h
  | cons entry rest ih =>
    rw [insertEntry] at h
    split_ifs at h with hlt heq
    · simpa using h
    · rcases mem_cons.mp h with rfl | h
      · exact Or.inl rfl
      · exact Or.inr (mem_cons_of_mem _ h)
    · rcases mem_cons.mp h with rfl | h
      · exact Or.inr mem_cons_self
      · rcases ih h with rfl | h
        · exact Or.inl rfl
        · exact Or.inr (mem_cons_of_mem _ h)

theorem sorted_insertEntry (k : κ) (v : ν) (h : entries.Pairwise (fun a b => a.1 < b.1)) :
    (insertEntry k v entries).Pairwise (fun a b => a.1 < b.1) := by
  induction entries with
  | nil => simp [insertEntry]
  | cons entry rest ih =>
    obtain ⟨hentry, hrest⟩ := pairwise_cons.mp h
    rw [insertEntry]
    split_ifs with hlt heq
    · refine pairwise_cons.mpr ⟨fun e he => ?_, h⟩
      rcases mem_cons.mp he with rfl | he
      · exact hlt
      · exact lt_trans hlt (hentry e he)
    · refine pairwise_cons.mpr ⟨fun e he => ?_, hrest⟩
      exact heq ▸ hentry e he
    · refine pairwise_cons.mpr ⟨fun e he => ?_, ih hrest⟩
      rcases mem_insertEntry he with rfl | he
      · exact lt_of_le_of_ne (not_lt.mp hlt) (Ne.symm heq)
      · exact hentry e he

def insert (k : κ) (v : ν) (m : OrderedMap κ ν) : OrderedMap κ ν :=
  ⟨insertEntry k v m.entries, sorted_insertEntry k v m.sorted⟩

theorem insertEntry_append {k : κ} (v : ν) (rest : List (κ × ν)) (h : ∀ e ∈ entries, e.1 < k) :
    insertEntry k v (entries ++ rest) = entries ++ insertEntry k v rest := by
  induction entries with
  | nil => rfl
  | cons entry entries ih =>
    have hentry : entry.1 < k := h entry mem_cons_self
    rw [cons_append, insertEntry, if_neg (lt_asymm hentry), if_neg (ne_of_gt hentry),
      ih (forall_mem_cons.mp h).2]
    rfl

theorem find_eq_none_of_lt {k : κ} (h : ∀ e ∈ entries, e.1 < k) :
    entries.find? (fun entry => decide (entry.1 = k)) = none := by
  rw [find?_eq_none]
  intro e he
  simpa using ne_of_lt (h e he)

variable {m : OrderedMap κ ν} {entries : List (κ × ν)} {k : κ} {v : ν}

theorem lt_of_entries_eq (h : m.entries = entries ++ [(k, v)]) : ∀ e ∈ entries, e.1 < k := by
  have hs := m.sorted
  rw [h, pairwise_append] at hs
  exact fun e he => hs.2.2 e he (k, v) (by simp)

theorem entries_insert_of_lt (v : ν) (h : ∀ e ∈ m.entries, e.1 < k) :
    (m.insert k v).entries = m.entries ++ [(k, v)] := by
  have happend := insertEntry_append v [] h
  rw [append_nil] at happend
  exact happend

theorem entries_insert_last (w : ν) (h : m.entries = entries ++ [(k, v)]) :
    (m.insert k w).entries = entries ++ [(k, w)] := by
  change insertEntry k w m.entries = _
  rw [h, insertEntry_append w _ (lt_of_entries_eq h)]
  simp [insertEntry]

theorem lookup_last (h : m.entries = entries ++ [(k, v)]) : m.lookup k = some v := by
  simp [lookup, h, find_eq_none_of_lt (lt_of_entries_eq h)]

theorem lookup_of_lt (h : ∀ e ∈ m.entries, e.1 < k) : m.lookup k = none := by
  simp [lookup, find_eq_none_of_lt h]

end OrderedMap
end DeepseekX.OrderedMaps
