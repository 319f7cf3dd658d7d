import DeepseekX.ClientTracker
import DeepseekX.Lifecycles

/-!
# The table of remote connections

What the transport sees of a tracker is a table: the connection held under each key, the next
connection id and the events reported so far. All a tracker does to it is made of a few moves.
Along any moves each connection is opened, then receives messages, then is closed at most once.
-/

namespace DeepseekX.RemoteControl
open Lifecycles Relation Function

variable {M : Type}

section Phases

inductive Phase where
  | idle
  | opened
  | closed
  deriving DecidableEq

def connectionLife (M : Type) : Lifecycle ℕ (TransportEvent M) Phase where
  subject := TransportEvent.connectionId
  start := .idle
  advance
    | .idle, .connectionOpened _ => some .opened
    | .opened, .incomingMessage _ _ => some .opened
    | .opened, .connectionClosed _ => some .closed
    | _, _ => none

/-- The events of one connection: none, or it is opened, then messages come in, and then it is
closed at most once. -/
def Orderly (connectionId : ℕ) (events : List (TransportEvent M)) : Prop :=
  let seen := events.filter fun event => event.connectionId = connectionId
  seen = [] ∨ ∃ messages : List M,
    seen = .connectionOpened connectionId :: messages.map (.incomingMessage connectionId) ∨
    seen = .connectionOpened connectionId ::
      (messages.map (.incomingMessage connectionId) ++ [.connectionClosed connectionId])

def Phase.History (connectionId : ℕ) (seen : List (TransportEvent M)) : Phase → Prop
  | .idle => seen = []
  | .opened => ∃ messages : List M,
      seen = .connectionOpened connectionId :: messages.map (.incomingMessage connectionId)
  | .closed => ∃ messages : List M, seen = .connectionOpened connectionId ::
      (messages.map (.incomingMessage connectionId) ++ [.connectionClosed connectionId])

variable {connectionId : ℕ} {seen : List (TransportEvent M)}

theorem Phase.History.advance {before after : Phase} {event : TransportEvent M}
    (h : before.History connectionId seen) (hevent : event.connectionId = connectionId)
    (hadvance : (connectionLife M).advance before event = some after) :
    after.History connectionId (seen ++ [event]) := by
  subst hevent
  cases before with
  | idle =>
    cases event <;> cases hadvance
    rw [show seen = [] from h]
    exact ⟨[], rfl⟩
  | opened =>
    obtain ⟨messages, rfl⟩ := h
    cases event with
    | connectionOpened _ => cases hadvance
    | incomingMessage _ message =>
      cases hadvance
      exact ⟨messages ++ [message], by simp [TransportEvent.connectionId]⟩
    | connectionClosed _ =>
      cases hadvance
      exact ⟨messages, rfl⟩
  | closed => cases event <;> cases hadvance

theorem history_of_foldlM {reached : Phase}
    (hseen : ∀ event ∈ seen, event.connectionId = connectionId)
    (h : seen.foldlM (connectionLife M).advance .idle = some reached) :
    reached.History connectionId seen := by
  induction seen using List.reverseRecOn generalizing reached with
  | nil =>
    cases h
    rfl
  | append_singleton seen event ih =>
    rw [List.foldlM_append] at h
    obtain ⟨before, hbefore, hadvance⟩ := Option.bind_eq_some_iff.mp h
    obtain ⟨after, hadvance, hreached⟩ := Option.bind_eq_some_iff.mp hadvance
    cases hreached
    refine (ih (fun event hmem => hseen event (List.mem_append_left _ hmem)) hbefore).advance
      (hseen event (List.mem_append_right _ (List.mem_singleton_self _))) hadvance

theorem orderly_of_phase {events : List (TransportEvent M)}
    (h : (connectionLife M).phase connectionId events ≠ none) : Orderly connectionId events := by
  obtain ⟨reached, hreached⟩ := Option.ne_none_iff_exists'.mp h
  have hhistory := history_of_foldlM (fun event hmem => Lifecycle.subject_of_mem_seen hmem) hreached
  cases reached with
  | idle => exact .inl hhistory
  | opened =>
    obtain ⟨messages, hmessages⟩ := hhistory
    exact .inr ⟨messages, .inl hmessages⟩
  | closed =>
    obtain ⟨messages, hmessages⟩ := hhistory
    exact .inr ⟨messages, .inr hmessages⟩

end Phases

section Moves

/-- The connections held, the next id, and what has been reported. -/
structure ConnectionTable (M : Type) where
  held : ClientKey → Option ℕ
  nextConnectionId : ℕ
  transportEvents : List (TransportEvent M)

/-- The moves on a table. A connection is given up without a report where the transport is
gone; the reports of closed connections meet `reason`. -/
inductive Move (reason : ℕ → Prop) : ConnectionTable M → ConnectionTable M → Prop
  | idTaken (held next events) : Move reason ⟨held, next, events⟩ ⟨held, next + 1, events⟩
  | opened (held next events) (clientKey : ClientKey) :
      Move reason ⟨held, next, events⟩
        ⟨update held clientKey (some next), next + 1, events ++ [.connectionOpened next]⟩
  | forwarded (held next events) (clientKey : ClientKey) (connectionId : ℕ) (message : M)
      (hheld : held clientKey = some connectionId) :
      Move reason ⟨held, next, events⟩
        ⟨held, next, events ++ [.incomingMessage connectionId message]⟩
  | givenUp (held next events) (clientKey : ClientKey) :
      Move reason ⟨held, next, events⟩ ⟨update held clientKey none, next, events⟩
  | closed (held next events) (clientKey : ClientKey) (connectionId : ℕ)
      (hheld : held clientKey = some connectionId) (hreason : reason connectionId) :
      Move reason ⟨held, next, events⟩
        ⟨update held clientKey none, next, events ++ [.connectionClosed connectionId]⟩

abbrev Moves (reason : ℕ → Prop) : ConnectionTable M → ConnectionTable M → Prop :=
  ReflTransGen (Move reason)

variable {reason : ℕ → Prop} {table after : ConnectionTable M} {connectionId : ℕ}
  {clientKey : ClientKey}

theorem Moves.of_eq (h : after = table) : Moves reason table after := by
  rw [h]

theorem Moves.mono {weaker : ℕ → Prop} (h : Moves reason table after)
    (hweaker : ∀ connectionId, reason connectionId → weaker connectionId) :
    Moves weaker table after := by
  refine ReflTransGen.mono (fun before after hmove => ?_) _ _ h
  cases hmove with
  | idTaken => exact .idTaken ..
  | opened => exact .opened ..
  | forwarded _ _ _ clientKey _ message hheld => exact .forwarded _ _ _ clientKey _ message hheld
  | givenUp => exact .givenUp ..
  | closed _ _ _ clientKey _ hheld hreason =>
    exact .closed _ _ _ clientKey _ hheld (hweaker _ hreason)

theorem Moves.reports (h : Moves reason table after) :
    ∃ reports, after.transportEvents = table.transportEvents ++ reports ∧
      ∀ connectionId, .connectionClosed connectionId ∈ reports → reason connectionId := by
  induction h with
  | refl => exact ⟨[], (List.append_nil _).symm, nofun⟩
  | tail _ hmove ih =>
    obtain ⟨reports, hreports, hclosed⟩ := ih
    cases hmove with
    | idTaken => exact ⟨reports, hreports, hclosed⟩
    | opened _ next =>
      refine ⟨reports ++ [.connectionOpened next], by simp_all, fun connectionId hmem => ?_⟩
      exact hclosed connectionId (by simpa using hmem)
    | forwarded _ _ _ _ receiver message =>
      refine ⟨reports ++ [.incomingMessage receiver message], by simp_all,
        fun connectionId hmem => ?_⟩
      exact hclosed connectionId (by simpa using hmem)
    | givenUp => exact ⟨reports, hreports, hclosed⟩
    | closed _ _ _ _ gone _ hreason =>
      refine ⟨reports ++ [.connectionClosed gone], by simp_all, fun connectionId hmem => ?_⟩
      rcases List.mem_append.mp hmem with hmem | hmem
      · exact hclosed connectionId hmem
      · cases List.mem_singleton.mp hmem
        exact hreason

/-- The connections held are open, each is held once, and ids not yet given have no events. -/
structure Coherent (table : ConnectionTable M) : Prop where
  held : ∀ clientKey connectionId, table.held clientKey = some connectionId →
    (connectionLife M).phase connectionId table.transportEvents = some .opened
  injective : ∀ clientKey other connectionId, table.held clientKey = some connectionId →
    table.held other = some connectionId → clientKey = other
  fresh : ∀ connectionId, table.nextConnectionId ≤ connectionId →
    (connectionLife M).phase connectionId table.transportEvents = some .idle
  orderly : ∀ connectionId, (connectionLife M).phase connectionId table.transportEvents ≠ none

variable {held : ClientKey → Option ℕ} {next : ℕ} {events : List (TransportEvent M)}

theorem phase_reported {event : TransportEvent M} {before after : Phase}
    (hevent : event.connectionId = connectionId)
    (hbefore : (connectionLife M).phase connectionId events = some before)
    (hadvance : (connectionLife M).advance before event = some after) :
    (connectionLife M).phase connectionId (events ++ [event]) = some after := by
  subst hevent
  have hphase : (connectionLife M).phase event.connectionId (events ++ [event]) = _ :=
    Lifecycle.phase_concat_self
  rw [hphase]
  exact Option.bind_eq_some_iff.mpr ⟨before, hbefore, hadvance⟩

section
variable (h : Coherent ⟨held, next, events⟩)
include h

theorem Coherent.lt_next
    (hheld : held clientKey = some connectionId) : connectionId < next := by
  by_contra hle
  have hopened := h.held clientKey connectionId hheld
  rw [h.fresh connectionId (Nat.not_lt.mp hle)] at hopened
  cases hopened

theorem Coherent.idTaken : Coherent ⟨held, next + 1, events⟩ :=
  ⟨h.held, h.injective, fun connectionId hle => h.fresh connectionId (Nat.le_of_succ_le hle),
    h.orderly⟩

theorem Coherent.givenUp (clientKey : ClientKey) :
    Coherent ⟨update held clientKey none, next, events⟩ := by
  have hold (other : ClientKey) (connectionId : ℕ)
      (hother : update held clientKey none other = some connectionId) :
      held other = some connectionId := by
    by_cases heq : other = clientKey
    · rw [heq, update_self] at hother
      cases hother
    · rwa [update_of_ne heq] at hother
  exact ⟨fun other connectionId hother => h.held other connectionId (hold _ _ hother),
    fun key other connectionId hkey hother =>
      h.injective key other connectionId (hold _ _ hkey) (hold _ _ hother), h.fresh, h.orderly⟩

theorem Coherent.forwarded
    (hheld : held clientKey = some connectionId) (message : M) :
    Coherent ⟨held, next, events ++ [.incomingMessage connectionId message]⟩ := by
  have hphase (other : ℕ) :
      (connectionLife M).phase other (events ++ [.incomingMessage connectionId message]) =
        (connectionLife M).phase other events := by
    by_cases heq : connectionId = other
    · have hopened := h.held clientKey connectionId hheld
      rw [← heq, hopened]
      exact phase_reported rfl hopened rfl
    · exact Lifecycle.phase_concat_ne heq
  refine ⟨fun key other hkey => ?_, h.injective, fun other hle => ?_, fun other => ?_⟩
  · exact (hphase other).trans (h.held key other hkey)
  · exact (hphase other).trans (h.fresh other hle)
  · exact (hphase other).trans_ne (h.orderly other)

theorem Coherent.opened (clientKey : ClientKey) :
    Coherent ⟨update held clientKey (some next), next + 1, events ++ [.connectionOpened next]⟩ := by
  have hself : (connectionLife M).phase next (events ++ [.connectionOpened next]) =
      some .opened := phase_reported rfl (h.fresh next le_rfl) rfl
  have hothers (other : ℕ) (hne : next ≠ other) :
      (connectionLife M).phase other (events ++ [.connectionOpened next]) =
        (connectionLife M).phase other events :=
    Lifecycle.phase_concat_ne hne
  -- Every key but the new one holds what it held before, and an older connection.
  have hold (key : ClientKey) (other : ℕ)
      (hkey : update held clientKey (some next) key = some other) :
      (key = clientKey ∧ other = next) ∨ (held key = some other ∧ other < next) := by
    by_cases heq : key = clientKey
    · rw [heq, update_self] at hkey
      exact .inl ⟨heq, (Option.some.inj hkey).symm⟩
    · rw [update_of_ne heq] at hkey
      exact .inr ⟨hkey, h.lt_next hkey⟩
  refine ⟨fun key other hkey => ?_, fun key other id hkey hother => ?_, fun other hle => ?_,
    fun other => ?_⟩
  · rcases hold key other hkey with ⟨-, rfl⟩ | ⟨hkey, hlt⟩
    · exact hself
    · exact (hothers other hlt.ne').trans (h.held key other hkey)
  · rcases hold key id hkey with ⟨rfl, rfl⟩ | ⟨hkey, hlt⟩ <;>
      rcases hold other id hother with ⟨rfl, hid⟩ | ⟨hother, hlt'⟩
    · rfl
    · exact absurd hlt' (lt_irrefl _)
    · exact absurd hlt (hid ▸ lt_irrefl _)
    · exact h.injective key other id hkey hother
  · have hlt : next < other := hle
    exact (hothers other hlt.ne).trans (h.fresh other hlt.le)
  · by_cases heq : next = other
    · rw [← heq, hself]
      nofun
    · exact (hothers other heq).trans_ne (h.orderly other)

theorem Coherent.closed
    (hheld : held clientKey = some connectionId) :
    Coherent ⟨update held clientKey none, next, events ++ [.connectionClosed connectionId]⟩ := by
  have hself : (connectionLife M).phase connectionId (events ++ [.connectionClosed connectionId]) =
      some .closed := phase_reported rfl (h.held clientKey connectionId hheld) rfl
  have hothers (other : ℕ) (hne : connectionId ≠ other) :
      (connectionLife M).phase other (events ++ [.connectionClosed connectionId]) =
        (connectionLife M).phase other events :=
    Lifecycle.phase_concat_ne hne
  have hgiven := h.givenUp clientKey
  refine ⟨fun key other hkey => ?_, hgiven.injective, fun other hle => ?_, fun other => ?_⟩
  · have hne : connectionId ≠ other := by
      rintro rfl
      dsimp only at hkey
      by_cases heq : key = clientKey
      · rw [heq, update_self] at hkey
        cases hkey
      · rw [update_of_ne heq] at hkey
        exact heq (h.injective key clientKey connectionId hkey hheld)
    exact (hothers other hne).trans (hgiven.held key other hkey)
  · exact (hothers other ((h.lt_next hheld).trans_le hle).ne).trans (h.fresh other hle)
  · by_cases heq : connectionId = other
    · rw [← heq, hself]
      nofun
    · exact (hothers other heq).trans_ne (h.orderly other)

end

theorem Coherent.moves (h : Coherent table) (hmoves : Moves reason table after) :
    Coherent after := by
  induction hmoves with
  | refl => exact h
  | tail _ hmove ih =>
    cases hmove with
    | idTaken => exact ih.idTaken
    | opened _ _ _ clientKey => exact ih.opened clientKey
    | forwarded _ _ _ _ _ message hheld => exact ih.forwarded hheld message
    | givenUp _ _ _ clientKey => exact ih.givenUp clientKey
    | closed _ _ _ _ _ hheld _ => exact ih.closed hheld

end Moves

end DeepseekX.RemoteControl
