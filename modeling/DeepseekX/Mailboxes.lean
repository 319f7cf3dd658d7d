import DeepseekX.GuardedRuns
import Mathlib.Data.List.Perm.Subperm
import Mathlib.Data.List.Range

/-!
# The mailbox of an agent

A send takes a number, puts its mail into the channel and publishes its number on the watch
channel. Each of the three is one atomic step, and other sends may come in between. What
observers see is in order exactly in the runs where no send overtakes another one.
-/

namespace DeepseekX.Mailboxes
open GuardedRuns List

/-- The channels of a mailbox and its receiver. The sends under way and all that was received and
published so far are kept with the numbers of the sends. -/
structure Mailbox (Mail : Type) where
  nextSeq : ℕ := 0
  numbered : List (ℕ × Mail) := []
  enqueued : List ℕ := []
  channel : List (ℕ × Mail) := []
  pendingMails : List (ℕ × Mail) := []
  received : List (ℕ × Mail) := []
  published : List ℕ := []

inductive Event (Mail : Type) where
  | takeNumber (mail : Mail)
  | enqueue (seq : ℕ)
  | publish (seq : ℕ)
  | hasPending
  | drain

variable {Mail : Type}

namespace Mailbox

variable (mailbox : Mailbox Mail)

def syncPendingMails : Mailbox Mail :=
  { mailbox with
    pendingMails := mailbox.pendingMails ++ mailbox.channel
    channel := [] }

def step : Event Mail → Mailbox Mail
  | .takeNumber mail =>
    { mailbox with
      nextSeq := mailbox.nextSeq + 1
      numbered := mailbox.numbered ++ [(mailbox.nextSeq + 1, mail)] }
  | .enqueue seq =>
    match mailbox.numbered.find? (·.1 = seq) with
    | none => mailbox
    | some send =>
      { mailbox with
        numbered := mailbox.numbered.eraseP (·.1 = seq)
        channel := mailbox.channel ++ [send]
        enqueued := mailbox.enqueued ++ [seq] }
  | .publish seq =>
    if seq ∈ mailbox.enqueued then
      { mailbox with
        enqueued := mailbox.enqueued.erase seq
        published := mailbox.published ++ [seq] }
    else mailbox
  | .hasPending => mailbox.syncPendingMails
  | .drain =>
    let synced := mailbox.syncPendingMails
    { synced with
      received := synced.received ++ synced.pendingMails
      pendingMails := [] }

def delivered : List ℕ := (mailbox.received ++ mailbox.pendingMails ++ mailbox.channel).map (·.1)

def underWay : List ℕ := mailbox.enqueued ++ mailbox.numbered.map (·.1)

/-- The published numbers increase, the last one is that of the completed sends, and the mails
come in the order of their numbers. -/
structure InOrder : Prop where
  increasing : (0 :: mailbox.published).Pairwise (· < ·)
  last : mailbox.published.getLastD 0 = mailbox.published.length
  delivered : mailbox.delivered.Pairwise (· < ·)

/-- No send puts its mail behind that of a later send, and none publishes its number before an
earlier send. -/
def Undisturbed : Event Mail → Prop
  | .enqueue seq => seq ∈ mailbox.numbered.map (·.1) → ∀ other ∈ mailbox.delivered, other < seq
  | .publish seq => seq ∈ mailbox.enqueued → ∀ other ∈ mailbox.underWay, seq ≤ other
  | _ => True

/-- Every number that was taken is published or under way, once. -/
def Numbered : Prop := mailbox.published ++ mailbox.underWay ~ range' 1 mailbox.nextSeq

variable {mailbox}

theorem perm_underWay_of_find {seq : ℕ} {send : ℕ × Mail}
    (h : mailbox.numbered.find? (·.1 = seq) = some send) :
    mailbox.enqueued ++ [seq] ++ (mailbox.numbered.eraseP (·.1 = seq)).map (·.1) ~
      mailbox.underWay := by
  obtain ⟨hseq, before, after, hsplit, hbefore⟩ := find?_eq_some_iff_append.mp h
  obtain rfl : send.1 = seq := of_decide_eq_true hseq
  have herase : mailbox.numbered.eraseP (·.1 = send.1) = before ++ after := by
    rw [hsplit, eraseP_append_right _ fun other hother => by simpa using hbefore other hother]
    simp
  rw [underWay, herase, hsplit, append_assoc, perm_append_left_iff]
  simpa using perm_middle.symm

theorem Numbered.step (h : mailbox.Numbered) (event : Event Mail) :
    (mailbox.step event).Numbered := by
  unfold Mailbox.step
  cases event with
  | takeNumber mail =>
    have htaken := h.append_right [mailbox.nextSeq + 1]
    rwa [Numbered, underWay, range'_concat, map_append, ← append_assoc, ← append_assoc,
      Nat.one_mul, Nat.add_comm 1, append_assoc mailbox.published]
  | enqueue seq =>
    dsimp only
    split
    · exact h
    · next send hfind => exact ((perm_underWay_of_find hfind).append_left _).trans h
  | publish seq =>
    dsimp only
    split
    · next hmem =>
      refine Perm.trans ?_ h
      rw [underWay, underWay, append_assoc, perm_append_left_iff, ← append_assoc,
        perm_append_right_iff]
      exact (perm_cons_erase hmem).symm
    · exact h
  | hasPending | drain => exact h

theorem InOrder.published_perm (h : mailbox.InOrder) :
    mailbox.published ~ range' 1 mailbox.published.length := by
  obtain ⟨hpos, hincreasing⟩ := pairwise_cons.mp h.increasing
  have hsub : mailbox.published ⊆ range' 1 mailbox.published.length := by
    intro seq hseq
    have hle := (hincreasing.imp Nat.le_of_lt).rel_getLast hseq
    have hlast := h.last
    rw [getLastD_eq_getLast?, getLast?_eq_some_getLast (ne_nil_of_mem hseq)] at hlast
    have hseqPos := hpos seq hseq
    rw [mem_range'_1]
    simp only [Option.getD_some] at hlast
    omega
  exact (subperm_of_subset (hincreasing.imp Nat.ne_of_lt) hsub).perm_of_length_le (by simp)

/-- In a mailbox in order the number published next is the least one under way. -/
theorem publish_least_iff (hnumbered : mailbox.Numbered) (h : mailbox.InOrder) {seq : ℕ}
    (hseq : seq ∈ mailbox.underWay) :
    (∀ other ∈ mailbox.underWay, seq ≤ other) ↔ seq = mailbox.published.length + 1 := by
  have hperm := (h.published_perm.symm.append_right mailbox.underWay).trans hnumbered
  have hlength := hperm.length_eq
  rw [length_append, length_range', length_range'] at hlength
  have hsplit : mailbox.underWay ~
      range' (mailbox.published.length + 1) mailbox.underWay.length := by
    refine (perm_append_left_iff (range' 1 mailbox.published.length)).mp (hperm.trans ?_)
    rw [← hlength, Nat.add_comm _ 1, range'_append_1]
  simp only [hsplit.mem_iff, mem_range'_1] at hseq ⊢
  constructor
  · intro hleast
    have hfirst := hleast (mailbox.published.length + 1) (by omega)
    omega
  · rintro rfl other hother
    exact hother.1

theorem inOrder_step_iff (hnumbered : mailbox.Numbered) (h : mailbox.InOrder)
    (event : Event Mail) : (mailbox.step event).InOrder ↔ mailbox.Undisturbed event := by
  unfold Mailbox.step
  cases event with
  | takeNumber mail => exact iff_of_true ⟨h.increasing, h.last, h.delivered⟩ trivial
  | enqueue seq =>
    rw [Undisturbed, mem_map]
    dsimp only
    split
    · next hfind =>
      refine iff_of_true h ?_
      rintro ⟨send, hsend, rfl⟩
      exact absurd (decide_eq_true rfl) (find?_eq_none.mp hfind send hsend)
    · next send hfind =>
      obtain rfl : send.1 = seq := of_decide_eq_true (find?_some hfind :)
      have hsorted : (mailbox.delivered ++ [send.1]).Pairwise (· < ·) ↔
          ∀ other ∈ mailbox.delivered, other < send.1 := by
        simp [pairwise_append, h.delivered]
      rw [forall_prop_of_true ⟨send, mem_of_find?_eq_some hfind, rfl⟩, ← hsorted]
      constructor
      · intro hnext
        simpa [delivered] using hnext.delivered
      · intro hnext
        exact ⟨h.increasing, h.last, by simpa [delivered] using hnext⟩
  | publish seq =>
    rw [Undisturbed]
    dsimp only
    split
    · next hmem =>
      rw [forall_prop_of_true hmem, publish_least_iff hnumbered h (mem_append_left _ hmem)]
      constructor
      · intro hnext
        simpa using hnext.last
      · intro hseq
        refine ⟨?_, by simp [hseq], h.delivered⟩
        rw [← cons_append, pairwise_append]
        refine ⟨h.increasing, pairwise_singleton _ _, forall_mem_cons.mpr ⟨by simp [hseq], ?_⟩⟩
        intro other hother
        have hrange := h.published_perm.mem_iff.mp hother
        rw [mem_range'_1] at hrange
        simp only [mem_singleton, forall_eq]
        omega
    · next hmem => exact iff_of_true h fun hseq => absurd hseq hmem
  | hasPending | drain =>
    refine iff_of_true ⟨h.increasing, h.last, ?_⟩ trivial
    simpa [delivered, syncPendingMails] using h.delivered

/-- In a run from an empty mailbox observers see everything in order, exactly if no send overtakes
another one. -/
theorem observed_in_order_iff (events : List (Event Mail)) :
    Always step InOrder ({} : Mailbox Mail) events ↔ Along step Undisturbed {} events :=
  always_iff_along
    (fun _ event (_ : True) (hnumbered : Numbered _) => hnumbered.step event)
    (fun _ event _ hnumbered h => inOrder_step_iff hnumbered h event) (fun _ _ => trivial)
    (Perm.refl []) ⟨pairwise_singleton _ _, rfl, .nil⟩

def overtaken : List (Event Char) :=
  [.takeNumber 'a', .takeNumber 'b', .enqueue 2, .publish 2, .enqueue 1, .publish 1]

theorem overtaken_out_of_order :
    (overtaken.foldl step {}).published = [2, 1] ∧ (overtaken.foldl step {}).delivered = [2, 1] ∧
      ¬(overtaken.foldl step {}).InOrder :=
  ⟨rfl, rfl, fun h => absurd h.delivered (by decide)⟩

end Mailbox

end DeepseekX.Mailboxes
