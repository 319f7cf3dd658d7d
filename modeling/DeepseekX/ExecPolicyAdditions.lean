import DeepseekX.ExecPolicies
import DeepseekX.Transducers

/-!
# Adding to an exec policy

What is added to a policy is itself a policy. The rules that match a command afterwards
contain those that matched before, unless these were found under the file name of the
program, and the addition has a rule for the program as it is written or a list of host
executables without it. Then the addition decides alone.
-/

namespace DeepseekX.ExecPolicies
open AbsolutePaths List

variable {host : Host} {policy : Policy} {cmd : List String} {options : MatchOptions}
  {heuristicsFallback : List String → Decision}

section Evaluations
variable {matchedRules : List RuleMatch}

theorem fromMatches_eq_some {evaluation : Evaluation} :
    Evaluation.fromMatches matchedRules = some evaluation ↔
      (matchedRules.map RuleMatch.decision).max? = some evaluation.decision ∧
        evaluation.matchedRules = matchedRules := by
  unfold Evaluation.fromMatches
  rw [Option.map_eq_some_iff]
  constructor
  · rintro ⟨decision, hdecision, rfl⟩
    exact ⟨hdecision, rfl⟩
  · rintro ⟨hdecision, hrules⟩
    exact ⟨evaluation.decision, hdecision, by rw [← hrules]⟩

theorem exists_fromMatches (h : matchedRules ≠ []) :
    ∃ evaluation, Evaluation.fromMatches matchedRules = some evaluation := by
  cases hmax : (matchedRules.map RuleMatch.decision).max? with
  | none => exact absurd (map_eq_nil_iff.mp (max?_eq_none_iff.mp hmax)) h
  | some decision => exact ⟨⟨decision, matchedRules⟩, fromMatches_eq_some.mpr ⟨hmax, rfl⟩⟩

theorem decision_le_of_subset {before after : Evaluation} {matchedRules' : List RuleMatch}
    (hbefore : Evaluation.fromMatches matchedRules = some before)
    (hafter : Evaluation.fromMatches matchedRules' = some after)
    (hsubset : matchedRules ⊆ matchedRules') : before.decision ≤ after.decision := by
  obtain ⟨hmem, -⟩ := max?_eq_some_iff.mp (fromMatches_eq_some.mp hbefore).1
  obtain ⟨-, hle⟩ := max?_eq_some_iff.mp (fromMatches_eq_some.mp hafter).1
  exact hle before.decision (map_subset _ hsubset hmem)

end Evaluations

namespace Policy

variable {added : Policy}

/-- The rules for the first token of the command that match it. -/
def exactMatches (policy : Policy) (cmd : List String) : List RuleMatch :=
  (policy.matchExactRules cmd).getD []

/-- The rules that are found under the file name, if the caller asks for them. -/
def fallbackMatches (host : Host) (policy : Policy) (cmd : List String) (options : MatchOptions) :
    List RuleMatch :=
  if options.resolveHostExecutables then policy.matchHostExecutableRules host cmd else []

def ruleMatches (host : Host) (policy : Policy) (cmd : List String) (options : MatchOptions) :
    List RuleMatch :=
  if policy.exactMatches cmd = [] then policy.fallbackMatches host cmd options
  else policy.exactMatches cmd

theorem matchesForCommandWithOptions_eq (host : Host) (policy : Policy) (cmd : List String)
    (heuristicsFallback : List String → Decision) (options : MatchOptions) :
    policy.matchesForCommandWithOptions host cmd (some heuristicsFallback) options =
      if policy.ruleMatches host cmd options = [] then
        [.heuristicsRuleMatch cmd (heuristicsFallback cmd)]
      else policy.ruleMatches host cmd options := by
  have hrules : (((policy.matchExactRules cmd).filter (!·.isEmpty)).or
      ((if options.resolveHostExecutables then some (policy.matchHostExecutableRules host cmd)
        else none).filter (!·.isEmpty))).getD [] = policy.ruleMatches host cmd options := by
    unfold ruleMatches exactMatches fallbackMatches
    cases policy.matchExactRules cmd with
    | none =>
      cases options.resolveHostExecutables with
      | false => rfl
      | true => cases policy.matchHostExecutableRules host cmd <;> rfl
    | some exact =>
      cases exact with
      | cons rule rules => rfl
      | nil =>
        cases options.resolveHostExecutables with
        | false => rfl
        | true => cases policy.matchHostExecutableRules host cmd <;> rfl
  unfold matchesForCommandWithOptions
  rw [hrules]
  cases policy.ruleMatches host cmd options <;> rfl

theorem checkWithOptions_eq (host : Host) (policy : Policy) (cmd : List String)
    (heuristicsFallback : List String → Decision) (options : MatchOptions) :
    policy.checkWithOptions host cmd heuristicsFallback options =
      Evaluation.fromMatches (if policy.ruleMatches host cmd options = [] then
        [.heuristicsRuleMatch cmd (heuristicsFallback cmd)]
      else policy.ruleMatches host cmd options) := by
  rw [checkWithOptions, matchesForCommandWithOptions_eq]

theorem rulesFor_mergeOverlay (policy added : Policy) (program : String) :
    (policy.mergeOverlay added).rulesFor program =
      policy.rulesFor program ++ added.rulesFor program := by
  rw [rulesFor, mergeOverlay, filter_append, map_append]
  rfl

theorem exactMatches_mergeOverlay (policy added : Policy) (cmd : List String) :
    (policy.mergeOverlay added).exactMatches cmd =
      policy.exactMatches cmd ++ added.exactMatches cmd := by
  unfold exactMatches matchExactRules
  cases cmd.head? with
  | none => rfl
  | some first =>
    simp [rulesFor_mergeOverlay]

/-- The list that leaves a program out is the added one, if there is one. -/
theorem excludes_mergeOverlay (policy added : Policy) (program : AbsolutePathBuf)
    (basename : String) :
    (policy.mergeOverlay added).excludes program basename =
      if (added.hostExecutablesByName.lookup basename).isSome then
        added.excludes program basename
      else policy.excludes program basename := by
  rw [excludes, mergeOverlay, lookup_append]
  unfold excludes
  cases added.hostExecutablesByName.lookup basename <;> rfl

def excludesProgram (host : Host) (policy : Policy) (cmd : List String) : Prop :=
  ∃ program basename, resolveProgram host cmd = some (program, basename) ∧
    policy.excludes program basename = true

theorem not_excludesProgram_of_fallback
    (h : policy.matchHostExecutableRules host cmd ≠ []) : ¬ policy.excludesProgram host cmd := by
  rintro ⟨program, basename, hprogram, hexcludes⟩
  rw [matchHostExecutableRules, hprogram] at h
  exact h (if_pos hexcludes)

theorem matchHostExecutableRules_of_excludes (h : policy.excludesProgram host cmd) :
    policy.matchHostExecutableRules host cmd = [] :=
  by_contra fun hne => not_excludesProgram_of_fallback hne h

theorem excludesProgram_mergeOverlay (h : added.excludesProgram host cmd) :
    (policy.mergeOverlay added).excludesProgram host cmd := by
  obtain ⟨program, basename, hprogram, hexcludes⟩ := h
  refine ⟨program, basename, hprogram, ?_⟩
  rw [excludes_mergeOverlay, hexcludes]
  unfold excludes at hexcludes
  cases hlookup : added.hostExecutablesByName.lookup basename with
  | none =>
    rw [hlookup] at hexcludes
    cases hexcludes
  | some paths => rfl

theorem matchHostExecutableRules_subset (hpolicy : ¬ policy.excludesProgram host cmd)
    (hadded : ¬ added.excludesProgram host cmd) :
    policy.matchHostExecutableRules host cmd ⊆
      (policy.mergeOverlay added).matchHostExecutableRules host cmd := by
  unfold matchHostExecutableRules
  cases hprogram : resolveProgram host cmd with
  | none => exact List.Subset.refl _
  | some found =>
    obtain ⟨program, basename⟩ := found
    have hnot : ∀ other : Policy, ¬ other.excludesProgram host cmd →
        other.excludes program basename ≠ true := fun other hother hexcludes =>
      hother ⟨program, basename, hprogram, hexcludes⟩
    have hmerged : (policy.mergeOverlay added).excludes program basename ≠ true := by
      rw [excludes_mergeOverlay]
      split
      · exact hnot added hadded
      · exact hnot policy hpolicy
    dsimp only
    rw [if_neg (hnot policy hpolicy), if_neg hmerged, rulesFor_mergeOverlay,
      filterMap_append, map_append]
    exact subset_append_left _ _

/-- The command is found under its file name only, and what is added has a rule for the
program as it is written, or a list of host executables without it. -/
def Displaces (host : Host) (policy added : Policy) (cmd : List String) : Prop :=
  policy.exactMatches cmd = [] ∧ (added.exactMatches cmd ≠ [] ∨ added.excludesProgram host cmd)

theorem ruleMatches_subset (hmatch : policy.ruleMatches host cmd options ≠ [])
    (hkeeps : ¬ Displaces host policy added cmd) :
    policy.ruleMatches host cmd options ⊆
      (policy.mergeOverlay added).ruleMatches host cmd options := by
  unfold ruleMatches at hmatch ⊢
  rw [exactMatches_mergeOverlay]
  by_cases hexact : policy.exactMatches cmd = []
  · rw [if_pos hexact] at hmatch ⊢
    rw [Displaces, not_and, not_or, not_not] at hkeeps
    obtain ⟨hadded, hprogram⟩ := hkeeps hexact
    rw [hexact, hadded, nil_append]
    unfold fallbackMatches at hmatch ⊢
    split at hmatch
    · next hresolve =>
      rw [if_pos hresolve, if_pos hresolve]
      exact matchHostExecutableRules_subset (not_excludesProgram_of_fallback hmatch) hprogram
    · exact absurd rfl hmatch
  · have hmerged : policy.exactMatches cmd ++ added.exactMatches cmd ≠ [] :=
      append_ne_nil_of_left_ne_nil hexact _
    rw [if_neg hexact, if_neg hmerged]
    exact subset_append_left _ _

theorem ruleMatches_of_displaces (hdisplaces : Displaces host policy added cmd) :
    (policy.mergeOverlay added).ruleMatches host cmd options =
      added.ruleMatches host cmd ⟨false⟩ := by
  obtain ⟨hexact, hadded⟩ := hdisplaces
  unfold ruleMatches
  rw [exactMatches_mergeOverlay, hexact, nil_append]
  by_cases hnil : added.exactMatches cmd = []
  · have hexcludes := hadded.resolve_left (absurd hnil)
    rw [if_pos hnil, if_pos hnil, fallbackMatches,
      matchHostExecutableRules_of_excludes (excludesProgram_mergeOverlay hexcludes), ite_self]
    rfl
  · rw [if_neg hnil, if_neg hnil]

end Policy

inductive Addition where
  | prefixRule (tokens : List String) (decision : Decision)
  | overlay (added : Policy)

namespace Addition

def addTo (policy : Policy) : Addition → Except Error Policy
  | prefixRule tokens decision => policy.addPrefixRule tokens decision
  | overlay added => .ok (policy.mergeOverlay added)

theorem addTo_eq (policy : Policy) (addition : Addition) :
    addition.addTo policy = (addition.addTo .empty).map policy.mergeOverlay := by
  cases addition with
  | prefixRule tokens decision =>
    cases tokens with
    | nil => rfl
    | cons first rest =>
      simp [addTo, Policy.addPrefixRule, Policy.empty, Policy.mergeOverlay, Except.map]
  | overlay added => simp [addTo, Policy.empty, Policy.mergeOverlay, Except.map]

end Addition

section Decisions
variable {policy' : Policy} {addition : Addition}

theorem ruleMatches_ne_nil {before : Evaluation}
    (hbefore : policy.checkWithOptions host cmd heuristicsFallback options = some before)
    (hmatch : before.isMatch = true) : policy.ruleMatches host cmd options ≠ [] := by
  intro hnil
  rw [Policy.checkWithOptions_eq, if_pos hnil, fromMatches_eq_some] at hbefore
  rw [Evaluation.isMatch, hbefore.2] at hmatch
  cases hmatch

variable (host policy cmd heuristicsFallback options) in
theorem exists_checkWithOptions :
    ∃ evaluation, policy.checkWithOptions host cmd heuristicsFallback options =
      some evaluation := by
  rw [Policy.checkWithOptions_eq]
  refine exists_fromMatches ?_
  split
  · exact cons_ne_nil _ _
  · assumption

/-- An addition keeps or tightens the decision on a command that a rule matches, unless it
displaces the rules that matched; then it decides like a policy of its own. -/
theorem addition_never_relaxes_unless_displacing {before : Evaluation}
    (hadd : addition.addTo policy = .ok policy')
    (hbefore : policy.checkWithOptions host cmd heuristicsFallback options = some before)
    (hmatch : before.isMatch = true) :
    ∃ added after, addition.addTo .empty = .ok added ∧
      policy'.checkWithOptions host cmd heuristicsFallback options = some after ∧
      (¬ policy.Displaces host added cmd → before.decision ≤ after.decision) ∧
      (policy.Displaces host added cmd →
        added.checkWithOptions host cmd heuristicsFallback ⟨false⟩ = some after) := by
  have hrules := ruleMatches_ne_nil hbefore hmatch
  rw [addition.addTo_eq] at hadd
  obtain ⟨added, hadded, rfl⟩ := Transducers.map_eq_ok.mp hadd
  by_cases hdisplaces : policy.Displaces host added cmd
  · obtain ⟨after, hafter⟩ := exists_checkWithOptions host added cmd ⟨false⟩ heuristicsFallback
    refine ⟨added, after, hadded, ?_, absurd hdisplaces, fun _ => hafter⟩
    rw [Policy.checkWithOptions_eq] at hafter ⊢
    rwa [Policy.ruleMatches_of_displaces hdisplaces]
  · obtain ⟨after, hafter⟩ := exists_checkWithOptions host (policy.mergeOverlay added) cmd
      options heuristicsFallback
    refine ⟨added, after, hadded, hafter, fun _ => ?_, fun h => absurd h hdisplaces⟩
    have hsubset := Policy.ruleMatches_subset hrules hdisplaces
    have hmerged : (policy.mergeOverlay added).ruleMatches host cmd options ≠ [] := fun hnil =>
      hrules (eq_nil_of_subset_nil (hnil ▸ hsubset))
    rw [Policy.checkWithOptions_eq, if_neg hrules] at hbefore
    rw [Policy.checkWithOptions_eq, if_neg hmerged] at hafter
    exact decision_le_of_subset hbefore hafter hsubset

def sampleHost : Host := ⟨none, some ⟨["work"]⟩⟩

def gitForbidden : Policy := ⟨[("git", ⟨⟨"git", []⟩, .forbidden, none⟩)], [], []⟩

def everythingPrompts : List String → Decision := fun _ => .prompt

/-- A rule for another program leaves the rule for `git` in force. -/
theorem gitForbidden_stays_forbidden :
    ∃ policy' after, (Addition.prefixRule ["/usr/bin/hg"] .allow).addTo gitForbidden = .ok policy' ∧
      policy'.checkWithOptions sampleHost ["/usr/bin/git", "push"] everythingPrompts ⟨true⟩ =
        some after ∧ Decision.forbidden ≤ after.decision := by
  obtain ⟨policy', hadd⟩ : ∃ policy', (Addition.prefixRule ["/usr/bin/hg"] .allow).addTo
      gitForbidden = .ok policy' := ⟨_, rfl⟩
  have hdecision : gitForbidden.checkWithOptions sampleHost ["/usr/bin/git", "push"]
      everythingPrompts ⟨true⟩ = some ⟨.forbidden,
        [.prefixRuleMatch ["git"] .forbidden (some ⟨["usr", "bin", "git"]⟩) none]⟩ := by
    decide +kernel
  obtain ⟨added, after, hadded, hafter, hkeeps, -⟩ :=
    addition_never_relaxes_unless_displacing hadd hdecision rfl
  cases hadded
  refine ⟨policy', after, hadd, hafter, hkeeps ?_⟩
  rintro ⟨-, hexact | ⟨program, basename, -, hexcludes⟩⟩
  · exact hexact (by decide +kernel)
  · cases hexcludes

/-- A list of host executables without the program that is asked about. -/
def gitElsewhere : Policy := ⟨[], [], [("git", [⟨["opt", "git"]⟩])]⟩

/-- An added rule that allows the absolute path takes the place of the rule that forbids
the program by its name, and an added list of host executables without that path takes
the rule away. -/
theorem exact_rule_displaces_basename_rule :
    (gitForbidden.checkWithOptions sampleHost ["/usr/bin/git", "push"] everythingPrompts
        ⟨true⟩).map Evaluation.decision = some .forbidden ∧
      ((gitForbidden.checkWithOptions sampleHost ["/usr/bin/git", "push"] everythingPrompts
        ⟨true⟩).map Evaluation.isMatch) = some true ∧
      (((Addition.prefixRule ["/usr/bin/git"] .allow).addTo gitForbidden).toOption.bind fun after =>
        (after.checkWithOptions sampleHost ["/usr/bin/git", "push"] everythingPrompts
          ⟨true⟩).map Evaluation.decision) = some .allow ∧
      (((Addition.overlay gitElsewhere).addTo gitForbidden).toOption.bind fun after =>
        (after.checkWithOptions sampleHost ["/usr/bin/git", "push"] everythingPrompts
          ⟨true⟩).map Evaluation.decision) = some .prompt := by
  decide +kernel

end Decisions

end DeepseekX.ExecPolicies
