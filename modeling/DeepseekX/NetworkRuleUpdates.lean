import DeepseekX.GuardedRuns
import DeepseekX.NetworkRules

/-!
# Live and reloaded network rules

Which list of the compiled domains a host stands in is said by the last rule for it that does
not prompt. Loading puts the managed rules last, a live update comes after them. Live and
reloaded rules give the same domains as long as no update contradicts a managed rule for its
host, and none is left out of the file because an earlier line reads the same.
-/

namespace DeepseekX.ExecPolicies
open GuardedRuns List Option

section Verdicts

/-- The decision of the last rule of some kind. -/
def lastDecision (kind : NetworkRule → Bool) (rules : List NetworkRule) : Option Decision :=
  (rules.filter kind).getLast?.map NetworkRule.decision

theorem lastDecision_append (kind : NetworkRule → Bool) (rules later : List NetworkRule) :
    lastDecision kind (rules ++ later) =
      (lastDecision kind later).or (lastDecision kind rules) := by
  rw [lastDecision, filter_append, getLast?_append, map_or]
  rfl

/-- The last decision on the host that is not to prompt. -/
def verdict (rules : List NetworkRule) (host : String) : Option Decision :=
  lastDecision (fun rule => rule.host = host ∧ rule.decision ≠ .prompt) rules

variable {rules : List NetworkRule} {rule : NetworkRule} {host : String}

theorem verdict_append (rules later : List NetworkRule) (host : String) :
    verdict (rules ++ later) host = (verdict later host).or (verdict rules host) :=
  lastDecision_append _ rules later

theorem verdict_singleton_self (hdecision : rule.decision ≠ .prompt) :
    verdict [rule] rule.host = some rule.decision := by
  simp [verdict, lastDecision, hdecision]

theorem verdict_singleton_prompt (hdecision : rule.decision = .prompt) :
    verdict [rule] host = none := by
  simp [verdict, lastDecision, hdecision]

theorem verdict_singleton_ne (hhost : rule.host ≠ host) : verdict [rule] host = none := by
  simp [verdict, lastDecision, hhost]

theorem verdict_ne_prompt : verdict rules host ≠ some .prompt := by
  intro h
  rw [verdict, lastDecision, map_eq_some_iff] at h
  obtain ⟨last, hlast, hprompt⟩ := h
  have hmem := mem_of_getLast? hlast
  rw [mem_filter, decide_eq_true_eq] at hmem
  exact hmem.2.2 hprompt

theorem mem_compileRule (domains : List String × List String) (rule : NetworkRule)
    (host : String) :
    (host ∈ (Policy.compileRule domains rule).1 ↔
      verdict [rule] host = some .allow ∨ verdict [rule] host = none ∧ host ∈ domains.1) ∧
    (host ∈ (Policy.compileRule domains rule).2 ↔
      verdict [rule] host = some .forbidden ∨ verdict [rule] host = none ∧ host ∈ domains.2) := by
  by_cases hhost : rule.host = host
  · subst hhost
    cases hdecision : rule.decision <;>
      simp [Policy.compileRule, Policy.upsertDomain, verdict, lastDecision, hdecision]
  · rw [verdict_singleton_ne hhost]
    cases hdecision : rule.decision <;>
      simp [Policy.compileRule, Policy.upsertDomain, hdecision, Ne.symm hhost]

/-- The last decision on a host says which list it is compiled into. -/
theorem mem_compiledNetworkDomains (policy : Policy) (host : String) :
    (host ∈ policy.compiledNetworkDomains.1 ↔ verdict policy.networkRules host = some .allow) ∧
    (host ∈ policy.compiledNetworkDomains.2 ↔
      verdict policy.networkRules host = some .forbidden) := by
  unfold Policy.compiledNetworkDomains
  induction policy.networkRules using reverseRecOn with
  | nil => simp [verdict, lastDecision]
  | append_singleton rules rule ih =>
    rw [foldl_append, foldl_cons, foldl_nil, (mem_compileRule _ rule host).1,
      (mem_compileRule _ rule host).2, ih.1, ih.2, verdict_append]
    cases verdict [rule] host <;> simp

def SameDomains (policy other : Policy) : Prop :=
  ∀ host, (host ∈ policy.compiledNetworkDomains.1 ↔ host ∈ other.compiledNetworkDomains.1) ∧
    (host ∈ policy.compiledNetworkDomains.2 ↔ host ∈ other.compiledNetworkDomains.2)

theorem sameDomains_iff {policy other : Policy} : SameDomains policy other ↔
    ∀ host, verdict policy.networkRules host = verdict other.networkRules host := by
  refine forall_congr' fun host => ?_
  rw [(mem_compiledNetworkDomains policy host).1, (mem_compiledNetworkDomains policy host).2,
    (mem_compiledNetworkDomains other host).1, (mem_compiledNetworkDomains other host).2]
  have hpolicy := @verdict_ne_prompt policy.networkRules host
  have hother := @verdict_ne_prompt other.networkRules host
  constructor
  · rintro ⟨hallow, hforbidden⟩
    cases h : verdict policy.networkRules host with
    | none =>
      cases h' : verdict other.networkRules host with
      | none => rfl
      | some decision => cases decision <;> simp_all
    | some decision => cases decision <;> simp_all
  · intro h
    rw [h]
    exact ⟨Iff.rfl, Iff.rfl⟩

def lastRuling (rules : List NetworkRule) (host : String) : Option Decision :=
  lastDecision (fun rule => rule.host = host) rules

theorem verdict_of_lastRuling {decision : Decision} (hdecision : decision ≠ .prompt)
    (h : lastRuling rules host = some decision) : verdict rules host = some decision := by
  induction rules using reverseRecOn with
  | nil => cases h
  | append_singleton rules rule ih =>
    rw [verdict_append]
    rw [lastRuling, lastDecision_append] at h
    by_cases hhost : rule.host = host
    · subst hhost
      have hrule : rule.decision = decision := by simpa [lastDecision] using h
      rw [verdict_singleton_self (hrule ▸ hdecision), hrule]
      rfl
    · have hnone : lastDecision (fun rule => rule.host = host) [rule] = none := by
        simp [lastDecision, hhost]
      rw [hnone] at h
      rw [verdict_singleton_ne hhost, ih h]
      rfl

end Verdicts

namespace NetworkAmendment

variable (amendment : NetworkAmendment)

/-- The host of the rule, if the amendment makes one. -/
def acceptedHost : Option String :=
  if amendment.justification.any (SeekSequence.trim · = "") then none
  else (normalizeNetworkRuleHost amendment.host).toOption

def rule (host : String) : NetworkRule :=
  ⟨host, amendment.protocol, amendment.decision, amendment.justification⟩

def line (host : String) : RuleLine :=
  .networkRule host amendment.protocol amendment.decision amendment.justification

/-- The host that is written to the file can be read back, and is read as it is if the rule does
not prompt. -/
def Readable : Prop :=
  ∀ host ∈ amendment.acceptedHost, ∃ read, normalizeNetworkRuleHost host = .ok read ∧
    (amendment.decision ≠ .prompt → read = host)

end NetworkAmendment

variable {starlark : Starlark} {requirements : Policy} {manager : ExecPolicyManager}
  {amendment : NetworkAmendment} {host : String}

theorem addNetworkRule_of_justified (policy : Policy) {decision : Decision}
    {protocol : NetworkRuleProtocol} {justification : Option String} {raw : String}
    (hhost : normalizeNetworkRuleHost raw = .ok host)
    (hjustification : ¬ justification.any (SeekSequence.trim · = "")) :
    policy.addNetworkRule raw protocol decision justification = .ok { policy with
      networkRules := policy.networkRules ++ [⟨host, protocol, decision, justification⟩] } := by
  rw [Policy.addNetworkRule, hhost, Transducers.ok_bind, if_neg hjustification]

namespace ExecPolicyManager

theorem step_of_refused (h : amendment.acceptedHost = none) : manager.step amendment = manager := by
  unfold NetworkAmendment.acceptedHost at h
  unfold step appendNetworkRuleAndUpdate blockingAppendNetworkRule
  cases hhost : normalizeNetworkRuleHost amendment.host with
  | error error => rfl
  | ok host =>
    rw [hhost] at h
    split at h
    · next hjustification => rw [Transducers.ok_bind, if_pos hjustification, Transducers.error_bind]
    · cases h

theorem step_of_accepted (h : amendment.acceptedHost = some host) :
    manager.step amendment =
      ⟨appendLockedLine manager.rulesFile (amendment.line host),
        { manager.policy with
          networkRules := manager.policy.networkRules ++ [amendment.rule host] }⟩ := by
  unfold NetworkAmendment.acceptedHost at h
  split at h
  · cases h
  · next hjustification =>
    have hhost := Transducers.toOption_eq_some.mp h
    unfold step appendNetworkRuleAndUpdate blockingAppendNetworkRule
    rw [hhost, Transducers.ok_bind, if_neg hjustification,
      addNetworkRule_of_justified _ hhost hjustification]
    rfl

/-- The rules of the file can be loaded and extended. -/
def Loads (starlark : Starlark) (manager : ExecPolicyManager) : Prop :=
  starlark.KeepsNames manager.rulesFile ∧ (starlark.evaluate manager.rulesFile).isSome

/-- The decision of the rules of the file on the host. -/
def fileVerdict (starlark : Starlark) (manager : ExecPolicyManager) (host : String) :
    Option Decision :=
  (starlark.evaluate manager.rulesFile).bind fun policy => verdict policy.networkRules host

theorem not_justified_of_acceptedHost (h : amendment.acceptedHost = some host) :
    ¬ amendment.justification.any (SeekSequence.trim · = "") := by
  intro hblank
  rw [NetworkAmendment.acceptedHost, if_pos hblank] at h
  cases h

theorem evaluate_step {read : String} (hread : normalizeNetworkRuleHost host = .ok read)
    (h : amendment.acceptedHost = some host) (hnames : starlark.KeepsNames manager.rulesFile)
    {loaded : Policy} (hloaded : starlark.evaluate manager.rulesFile = some loaded) :
    starlark.evaluate (manager.step amendment).rulesFile =
      some (if amendment.line host ∈ manager.rulesFile then loaded
        else { loaded with networkRules := loaded.networkRules ++ [amendment.rule read] }) := by
  rw [step_of_accepted h]
  dsimp only [appendLockedLine]
  split
  · exact hloaded
  · rw [NetworkAmendment.line, starlark.evaluate_append _ _ _ _ _ hnames, hloaded, bind_some,
      addNetworkRule_of_justified loaded hread (not_justified_of_acceptedHost h)]
    rfl

theorem loads_step (hread : amendment.Readable) (h : Loads starlark manager) :
    Loads starlark (manager.step amendment) := by
  cases haccepted : amendment.acceptedHost with
  | none =>
    rw [step_of_refused haccepted]
    exact h
  | some host =>
    obtain ⟨hnames, hsome⟩ := h
    obtain ⟨loaded, hloaded⟩ := isSome_iff_exists.mp hsome
    obtain ⟨read, hread, -⟩ := hread host haccepted
    refine ⟨?_, by rw [evaluate_step hread haccepted hnames hloaded]; rfl⟩
    rw [step_of_accepted haccepted]
    dsimp only [appendLockedLine]
    split
    · exact hnames
    · exact starlark.keepsNames_append _ _ _ _ _ hnames

/-- The policy in memory allows and denies what the policy allows and denies that is loaded
from the file now, and it denies what the requirements forbid last. -/
def AgreesWithReload (starlark : Starlark) (requirements : Policy)
    (manager : ExecPolicyManager) : Prop :=
  ∃ reloaded, loadExecPolicy starlark manager.rulesFile requirements = some reloaded ∧
    SameDomains manager.policy reloaded ∧
    ∀ host, lastRuling requirements.networkRules host = some .forbidden →
      host ∈ manager.policy.compiledNetworkDomains.2

theorem agreesWithReload_iff {loaded : Policy}
    (hloaded : starlark.evaluate manager.rulesFile = some loaded) :
    AgreesWithReload starlark requirements manager ↔
      ∀ host, verdict manager.policy.networkRules host =
        (verdict requirements.networkRules host).or (verdict loaded.networkRules host) := by
  have hreload : loadExecPolicy starlark manager.rulesFile requirements =
      some (loaded.mergeOverlay requirements) := by
    rw [loadExecPolicy, hloaded, map_some]
  constructor
  · rintro ⟨reloaded, hreloaded, hsame, -⟩ host
    rw [hreload] at hreloaded
    cases hreloaded
    rw [sameDomains_iff.mp hsame host, Policy.mergeOverlay, verdict_append]
  · intro h
    refine ⟨_, hreload, sameDomains_iff.mpr fun host => ?_, fun host hforbidden => ?_⟩
    · rw [h host, Policy.mergeOverlay, verdict_append]
    · rw [(mem_compiledNetworkDomains manager.policy host).2, h host,
        verdict_of_lastRuling (by decide) hforbidden]
      rfl

/-- The amendment does not contradict the requirements on its host. Where they say nothing about
the host, its line is new, or the rules of the file already decide the host so. -/
def Undisputed (starlark : Starlark) (requirements : Policy) (manager : ExecPolicyManager)
    (amendment : NetworkAmendment) : Prop :=
  ∀ host ∈ amendment.acceptedHost, amendment.decision ≠ .prompt →
    verdict requirements.networkRules host = some amendment.decision ∨
    verdict requirements.networkRules host = none ∧
      (amendment.line host ∉ manager.rulesFile ∨
        fileVerdict starlark manager host = some amendment.decision)

theorem verdict_step (h : amendment.acceptedHost = some host) (other : String) :
    verdict (manager.step amendment).policy.networkRules other =
      (verdict [amendment.rule host] other).or (verdict manager.policy.networkRules other) := by
  rw [step_of_accepted h, verdict_append]

theorem verdict_loaded (loaded : Policy) (rules : List NetworkRule) (written : Prop)
    [Decidable written] (other : String) :
    verdict (if written then loaded
      else { loaded with networkRules := loaded.networkRules ++ rules }).networkRules other =
      if written then verdict loaded.networkRules other
      else (verdict rules other).or (verdict loaded.networkRules other) := by
  split
  · rfl
  · exact verdict_append _ _ other

/-- Live and reloaded rules that agree go on agreeing exactly if the amendment is undisputed. -/
theorem agreesWithReload_step (hread : amendment.Readable) (hloads : Loads starlark manager)
    (hagrees : AgreesWithReload starlark requirements manager) :
    AgreesWithReload starlark requirements (manager.step amendment) ↔
      Undisputed starlark requirements manager amendment := by
  cases haccepted : amendment.acceptedHost with
  | none =>
    rw [step_of_refused haccepted, Undisputed, haccepted]
    simp [hagrees]
  | some host =>
    obtain ⟨hnames, hsome⟩ := hloads
    obtain ⟨loaded, hloaded⟩ := isSome_iff_exists.mp hsome
    obtain ⟨read, hread, hsame⟩ := hread host haccepted
    rw [agreesWithReload_iff hloaded] at hagrees
    rw [agreesWithReload_iff (evaluate_step hread haccepted hnames hloaded)]
    simp only [Undisputed, fileVerdict, haccepted, hloaded, mem_def, some.injEq,
      forall_eq', bind_some, verdict_step haccepted, hagrees, verdict_loaded]
    -- the new rule counts at its own host only, and there only if it does not prompt
    by_cases hprompt : amendment.decision = .prompt
    · have hrule : ∀ host other, verdict [amendment.rule host] other = none := fun _ _ =>
        verdict_singleton_prompt hprompt
      simp [hrule, hprompt]
    · rw [hsame hprompt]
      have hself : verdict [amendment.rule host] host = some amendment.decision :=
        @verdict_singleton_self (amendment.rule host) hprompt
      constructor
      · intro h _
        have hhost := h host
        rw [hself] at hhost
        cases hrequired : verdict requirements.networkRules host with
        | none =>
          rw [hrequired] at hhost
          refine .inr ⟨rfl, ?_⟩
          by_cases hwritten : amendment.line host ∈ manager.rulesFile
          · rw [if_pos hwritten] at hhost
            exact .inr hhost.symm
          · exact .inl hwritten
        | some decision =>
          rw [hrequired] at hhost
          exact .inl hhost.symm
      · intro h other
        by_cases hother : host = other
        · subst hother
          rw [hself]
          rcases h hprompt with hrequired | ⟨hrequired, hfile⟩
          · rw [hrequired]
            rfl
          · rw [hrequired]
            rcases hfile with hnew | hdecided
            · rw [if_neg hnew]
              rfl
            · rw [hdecided]
              split <;> rfl
        · have hrule : verdict [amendment.rule host] other = none :=
            @verdict_singleton_ne (amendment.rule host) other hother
          simp [hrule]

/-- From a file that loads, if every host can be read back, live and reloaded rules agree after
every call exactly if every amendment is undisputed where it is made. -/
theorem live_rules_agree_iff (starlark : Starlark) (requirements loaded : Policy)
    (rulesFile : List RuleLine) (amendments : List NetworkAmendment)
    (hnames : starlark.KeepsNames rulesFile) (hloaded : starlark.evaluate rulesFile = some loaded)
    (hread : ∀ amendment ∈ amendments, amendment.Readable) :
    let start : ExecPolicyManager := ⟨rulesFile, loaded.mergeOverlay requirements⟩
    Always step (AgreesWithReload starlark requirements) start amendments ↔
      Along step (Undisputed starlark requirements) start amendments := by
  intro start
  refine always_iff_along (fun _ _ => loads_step) (fun _ _ => agreesWithReload_step) hread
    ⟨hnames, ?_⟩ ?_
  · rw [hloaded]
    rfl
  · rw [agreesWithReload_iff hloaded]
    intro host
    exact verdict_append _ _ host

def networkRulesOnly : Starlark where
  evaluate lines := lines.foldlM (fun policy line =>
    match line with
    | .networkRule host protocol decision justification =>
      (policy.addNetworkRule host protocol decision justification).toOption
    | .other _ => some policy) .empty
  KeepsNames _ := True
  keepsNames_append _ _ _ _ _ _ := trivial
  evaluate_append lines host protocol decision justification _ := by
    rw [foldlM_append]
    refine congrArg _ (funext fun policy => ?_)
    exact bind_pure _

def forbidsEvil : Policy := ⟨[], [⟨"evil.com", .https, .forbidden, none⟩], []⟩

def ruling (host : String) (decision : Decision) : NetworkAmendment :=
  ⟨host, .https, decision, none⟩

/-- An approval for another host leaves the forbidden host denied. -/
theorem good_host_approved :
    Always step (AgreesWithReload networkRulesOnly forbidsEvil)
      ⟨[], Policy.empty.mergeOverlay forbidsEvil⟩ [ruling "Good.com" .allow] := by
  refine (live_rules_agree_iff networkRulesOnly forbidsEvil .empty [] [ruling "Good.com" .allow]
    trivial rfl ?_).mpr ⟨?_, trivial⟩
  · intro amendment hmem host hhost
    rw [mem_singleton] at hmem
    subst hmem
    cases hhost
    exact ⟨"good.com", by decide +kernel, fun _ => by decide +kernel⟩
  · intro host hhost _
    cases hhost
    exact .inr ⟨by decide +kernel, .inl (by decide)⟩

def domainsAfter (requirements : Policy) (amendments : List NetworkAmendment) :
    (List String × List String) × Option (List String × List String) :=
  let manager := amendments.foldl step ⟨[], Policy.empty.mergeOverlay requirements⟩
  (manager.policy.compiledNetworkDomains,
    (loadExecPolicy networkRulesOnly manager.rulesFile requirements).map
      Policy.compiledNetworkDomains)

/-- An approval lifts what the requirements forbid until the next start. An approval whose line
stands in the file before a later refusal is gone after the next start. A host in brackets may
be read back without its last part. -/
theorem live_rules_differ_from_reloaded :
    domainsAfter forbidsEvil [ruling "evil.com" .allow] =
        ((["evil.com"], []), some ([], ["evil.com"])) ∧
      domainsAfter .empty [ruling "a.com" .allow, ruling "a.com" .forbidden,
          ruling "a.com" .allow] = ((["a.com"], []), some ([], ["a.com"])) ∧
      domainsAfter .empty [ruling "[a.com:80]" .forbidden] =
        (([], ["a.com:80"]), some ([], ["a.com"])) := by
  decide +kernel

end ExecPolicyManager

end DeepseekX.ExecPolicies
