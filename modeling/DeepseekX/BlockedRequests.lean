import DeepseekX.GuardedRuns
import DeepseekX.ProxyRuntime

/-!
# The log of blocked requests

The log is part of the live state. A reload and an update of a domain list copy it with the
rest of the state and install the copy later, whatever has been recorded or drained by then;
a forced reload keeps the entries, but not their total. While nobody records or drains behind
such a copy, every entry is counted, and returned once.
-/

namespace DeepseekX.ProxyRuntime
open DomainPatterns ProxyConstraints Interleavings GuardedRuns List

variable {E : GlobEngine} {Mitm Request : Type} {ι : Type*}

def ConfigState.log (state : ConfigState E Mitm Request) : List Request × ℕ :=
  (state.blocked, state.blockedTotal)

/-- What the calls have recorded, and what the drains have returned. -/
structure Account (Request : Type) where
  recorded : List Request := []
  sinceDrain : List Request := []
  drained : List Request := []

/-- A drain returns the entries that it finds. -/
def Account.note (account : Account Request) (shared : ConfigState E Mitm Request) :
    Task E Mitm Request → Account Request
  | .act (.recordBlocked entry) =>
    { account with
      recorded := account.recorded ++ [entry]
      sinceDrain := account.sinceDrain ++ [entry] }
  | .act .drainBlocked =>
    { account with sinceDrain := [], drained := account.drained ++ shared.blocked }
  | _ => account

/-- The buffer has the newest entries since the last drain, the total counts all entries, and
no entry is returned twice. -/
structure Exact (account : Account Request) (log : List Request × ℕ) : Prop where
  buffer : log.1 = account.sinceDrain.drop (account.sinceDrain.length - maxBlockedEvents)
  total : log.2 = account.recorded.length
  once : (account.drained ++ account.sinceDrain).Sublist account.recorded

abbrev Accounted (ι : Type*) (E : GlobEngine) (Mitm Request : Type) :=
  System ι (ConfigState E Mitm Request) (Task E Mitm Request) × Account Request

def opened (initial : ConfigState E Mitm Request) (operations : ι → Operation E Mitm Request) :
    Accounted ι E Mitm Request :=
  (⟨{ initial with blocked := [], blockedTotal := 0 }, fun i => (operations i).begin⟩, {})

def accountStep [DecidableEq ι] (urlHost : Text → Option Text)
    (newMitm : MitmUpstreamConfig → Except String Mitm) (state : Accounted ι E Mitm Request)
    (event : ι × Reply E Mitm Request) : Accounted ι E Mitm Request :=
  (state.1.move (step urlHost newMitm) event,
    state.2.note state.1.shared (state.1.tasks event.1))

/-- The call is about to install a copy of the log. -/
def Task.holdsCopy : Task E Mitm Request → Bool
  | .reloadInstall _ _ | .domainInstall _ _ _ _ _ => true
  | _ => false

/-- A call records below the bound of the total and drains only while there are no copies, and
a forced reload comes with the total that is installed. -/
def Permitted (noCopies : Prop) (shared : ConfigState E Mitm Request) :
    Task E Mitm Request → Prop
  | .act (.recordBlocked _) => noCopies ∧ shared.blockedTotal + 1 < 2 ^ 64
  | .act .drainBlocked => noCopies
  | .forceInstall newState => newState.blockedTotal = shared.blockedTotal
  | _ => True

def Undisturbed (state : Accounted ι E Mitm Request) (event : ι × Reply E Mitm Request) : Prop :=
  Permitted (∀ i, (state.1.tasks i).holdsCopy = false) state.1.shared (state.1.tasks event.1)

/-- A copy that the call is about to install is one of this log. -/
def Copied (log : List Request × ℕ) : Task E Mitm Request → Prop
  | .reloadInstall _ newState | .domainInstall _ _ _ _ newState => newState.log = log
  | _ => True

section Steps
variable {urlHost : Text → Option Text} {newMitm : MitmUpstreamConfig → Except String Mitm}
  {shared : ConfigState E Mitm Request} {task : Task E Mitm Request} {account : Account Request}

theorem copied_of_not_holdsCopy (h : task.holdsCopy = false) (log : List Request × ℕ) :
    Copied log task := by
  cases task with
  | reloadInstall | domainInstall => cases h
  | _ => trivial

theorem holdsCopy_begin (operation : Operation E Mitm Request) :
    operation.begin.holdsCopy = false := by
  cases operation with
  | addAllowedDomain host | addDeniedDomain host =>
    change (updateDomainList host _).holdsCopy = false
    unfold updateDomainList
    split <;> rfl
  | _ => rfl

theorem prepareMode_copied (mode : NetworkMode) :
    Copied shared.log (prepareMode urlHost shared mode) := by
  unfold prepareMode
  split <;> trivial

theorem prepareDomain_copied (host : Text) (target : DomainListKind) :
    Copied shared.log (prepareDomain urlHost newMitm shared host target) := by
  unfold prepareDomain
  dsimp only
  split
  · trivial
  · split
    · trivial
    · split
      · trivial
      · rfl

theorem pushBlocked_drop (entries : List Request) (entry : Request) :
    pushBlocked (entries.drop (entries.length - maxBlockedEvents)) entry =
      (entries ++ [entry]).drop ((entries ++ [entry]).length - maxBlockedEvents) := by
  rw [pushBlocked, ← drop_append_of_le_length (Nat.sub_le _ _), drop_drop]
  generalize maxBlockedEvents = bound
  congr 1
  simp only [length_drop, length_append, length_singleton]
  omega

theorem Exact.record {log : List Request × ℕ} (h : Exact account log) (entry : Request) {total : ℕ}
    (htotal : total = log.2 + 1) :
    Exact ⟨account.recorded ++ [entry], account.sinceDrain ++ [entry], account.drained⟩
      (pushBlocked log.1 entry, total) where
  buffer := by rw [h.buffer, pushBlocked_drop]
  total := by rw [htotal, length_append, length_singleton, h.total]
  once := by
    rw [← append_assoc]
    exact h.once.append (.refl _)

theorem Exact.drain {log : List Request × ℕ} (h : Exact account log) :
    Exact ⟨account.recorded, [], account.drained ++ log.1⟩ ([], log.2) where
  buffer := drop_nil.symm
  total := h.total
  once := by
    have hreturned : log.1.Sublist account.sinceDrain := by
      rw [h.buffer]
      exact drop_sublist _ _
    rw [append_nil]
    exact ((Sublist.refl _).append hreturned).trans h.once

/-- A permitted step keeps the account exact, and changes the log only while there are no
copies of it. -/
theorem step_exact {noCopies : Prop} (reply : Reply E Mitm Request)
    (h : Exact account shared.log) (hcopied : Copied shared.log task)
    (hpermitted : Permitted noCopies shared task) :
    Exact (account.note shared task) (step urlHost newMitm reply shared task).1.log ∧
      Copied (step urlHost newMitm reply shared task).1.log
        (step urlHost newMitm reply shared task).2 ∧
      (noCopies ∨ (step urlHost newMitm reply shared task).1.log = shared.log) := by
  cases task with
  | act call =>
    cases call with
    | recordBlocked entry =>
      have hrecord := h.record entry (Nat.min_eq_left (Nat.le_sub_one_of_lt hpermitted.2))
      dsimp only [step, act, ConfigState.log, Account.note] at hrecord ⊢
      exact ⟨hrecord, trivial, .inl hpermitted.1⟩
    | drainBlocked => exact ⟨h.drain, trivial, .inl hpermitted⟩
    | setNetworkMode mode => exact ⟨h, prepareMode_copied mode, .inr rfl⟩
    | updateDomainList host target => exact ⟨h, prepareDomain_copied host target, .inr rfl⟩
    | replaceConfigState | inspect => exact ⟨h, trivial, .inr rfl⟩
  | reloadSnapshot call newState => exact ⟨h, rfl, .inr rfl⟩
  | reloadInstall call newState =>
    have hlog : newState.log = shared.log := hcopied
    exact ⟨hlog ▸ h, trivial, .inr hlog⟩
  | domainInstall host target previousCfg constraints newState =>
    have hlog : newState.log = shared.log := hcopied
    unfold step
    dsimp only
    split
    · exact ⟨h, trivial, .inr rfl⟩
    · exact ⟨hlog ▸ h, trivial, .inr hlog⟩
  | forceInstall newState =>
    have htotal : newState.blockedTotal = shared.blockedTotal := hpermitted
    have hlog : (step urlHost newMitm reply shared (.forceInstall newState)).1.log =
      shared.log := Prod.ext rfl htotal
    exact ⟨hlog ▸ h, trivial, .inr hlog⟩
  | maybeReload | modeInstall | reloadNow =>
    unfold step
    dsimp only
    split <;> exact ⟨h, trivial, .inr rfl⟩
  | forceSnapshot | finished => exact ⟨h, trivial, .inr rfl⟩

end Steps

section Runs
variable [DecidableEq ι] (urlHost : Text → Option Text)
  (newMitm : MitmUpstreamConfig → Except String Mitm)

/-- The account is exact, and the copies of the log are those of the installed one. -/
def LogInv (state : Accounted ι E Mitm Request) : Prop :=
  Exact state.2 state.1.shared.log ∧ ∀ i, Copied state.1.shared.log (state.1.tasks i)

theorem LogInv.accountStep (state : Accounted ι E Mitm Request)
    (event : ι × Reply E Mitm Request) (hundisturbed : Undisturbed state event)
    (h : LogInv state) : LogInv (accountStep urlHost newMitm state event) := by
  have hstep := @step_exact _ _ _ urlHost newMitm _ _ _ _ event.2 h.1 (h.2 event.1) hundisturbed
  obtain ⟨hexact, hcopied, hlog⟩ := hstep
  refine ⟨hexact, (Function.forall_update_iff _ fun _ => Copied _).mpr ⟨hcopied, fun i _ => ?_⟩⟩
  rcases hlog with hnone | hsame
  · exact copied_of_not_holdsCopy (hnone i) _
  · exact hsame ▸ h.2 i

/-- While nothing is recorded or drained behind a copy of the log, the log is exact in every
state of every interleaving. -/
theorem blocked_log_exact (initial : ConfigState E Mitm Request)
    (operations : ι → Operation E Mitm Request) (schedule : List (ι × Reply E Mitm Request))
    (h : Along (accountStep urlHost newMitm) Undisturbed (opened initial operations) schedule) :
    Always (accountStep urlHost newMitm) (fun state => Exact state.2 state.1.shared.log)
      (opened initial operations) schedule := by
  have hopened : LogInv (opened initial operations) := by
    refine ⟨⟨drop_nil.symm, rfl, .slnil⟩, fun i => copied_of_not_holdsCopy ?_ _⟩
    exact holdsCopy_begin (operations i)
  exact (h.always (LogInv.accountStep urlHost newMitm) hopened).mono fun _ hinv => hinv.1

/-- An entry is recorded, and returned by the drain after it. -/
theorem recorded_then_drained_exact :
    Always (accountStep asciiUrlHost fun _ => .ok ())
      (fun state => Exact state.2 state.1.shared.log)
      (opened sampleState fun record : Bool => if record then .recordBlocked () else .drainBlocked)
      ([true, true, false, false].map (·, idleReloader)) :=
  blocked_log_exact asciiUrlHost (fun _ => .ok ()) sampleState _ _
    ⟨trivial, ⟨by decide, by decide⟩, trivial, Bool.forall_bool.mpr ⟨rfl, rfl⟩, trivial⟩

/-- An entry that is recorded after a reload has copied the log is lost when the copy is
installed. -/
theorem recorded_behind_copy_lost :
    ¬ Always (accountStep asciiUrlHost fun _ => .ok ())
      (fun state => Exact state.2 state.1.shared.log)
      (opened sampleState fun record : Bool => if record then .recordBlocked () else .inspect)
      ((false, ⟨.ok (some sampleState), .error "no source"⟩) ::
        [false, true, true, false].map (·, idleReloader)) :=
  fun h => absurd h.2.2.2.2.2.total (by decide)

end Runs

end DeepseekX.ProxyRuntime
