import DeepseekX.ManagedAllowlist
import DeepseekX.NetworkRuleUpdates

/-!
# Hosts of network rules that are read again

An amendment writes the normalised host, and loading normalises it once more. Brackets, a port,
and dots at the end are taken off once. What they leave may have brackets, a port or a dot of
its own, and the host that is loaded is then another one.
-/

namespace DeepseekX.ExecPolicies
open DomainPatterns ManagedAllowlist List

section HostParts

def hasPort (text : Text) : Bool :=
  match text.splitOn ':' with
  | [name, port] => name ≠ [] && isPort port
  | _ => false

/-- The text between brackets, or before a port. -/
def hostPart : Text → Text
  | '[' :: stripped => stripped.takeWhile (· != ']')
  | host => if hasPort host then host.takeWhile (· != ':') else host

/-- The host as it is written in a rule, up to the case of its letters. -/
def hostName (raw : String) : Text := trim (trimEndDots (hostPart (trim raw.toList)))

/-- A text without brackets, port and dots at its end. -/
def Plain (text : Text) : Prop :=
  text.head? ≠ some '[' ∧ hasPort text = false ∧ text.getLast? ≠ some '.'

instance (text : Text) : Decidable (Plain text) := inferInstanceAs (Decidable (_ ∧ _))

variable {text part : Text} {raw : String}

theorem hostPart_of_head (h : text.head? ≠ some '[') :
    hostPart text = if hasPort text then text.takeWhile (· != ':') else text := by
  unfold hostPart
  split
  · exact absurd rfl h
  · rfl

theorem hostPart_sublist (text : Text) : List.Sublist (hostPart text) text := by
  unfold hostPart
  split
  · exact (takeWhile_sublist _).trans (sublist_cons_self _ _)
  · split
    · exact takeWhile_sublist _
    · exact List.Sublist.refl _

theorem notMem_of_takeWhile_eq {c : Char} (h : text.takeWhile (· != c) = text) : c ∉ text := by
  intro hmem
  rw [← h] at hmem
  simpa using mem_takeWhile_imp hmem

theorem hostPart_eq_iff : hostPart text = text ↔ text.head? ≠ some '[' ∧ hasPort text = false := by
  constructor
  · intro h
    have hhead : text.head? ≠ some '[' := by
      intro hhead
      obtain ⟨rest, rfl⟩ := head?_eq_some_iff.mp hhead
      have hle := (takeWhile_sublist (l := rest) (· != ']')).length_le
      have hlength := congrArg length h
      rw [hostPart, length_cons] at hlength
      omega
    refine ⟨hhead, ?_⟩
    rw [hostPart_of_head hhead] at h
    split at h
    · rw [hasPort, splitOn_eq_singleton (notMem_of_takeWhile_eq h)]
    · next hport => exact Bool.eq_false_iff.mpr hport
  · rintro ⟨hhead, hport⟩
    rw [hostPart_of_head hhead, hport]
    rfl

theorem takeWhile_of_splitOnce {c : Char} {after : Text}
    (h : splitOnce [c] text = some (part, after)) : text.takeWhile (· != c) = part := by
  induction text generalizing part with
  | nil => cases h
  | cons d text ih =>
    by_cases hd : d = c
    · subst hd
      simp only [splitOnce, dropPrefix?, beq_self_eq_true, if_true, Option.some.injEq,
        Prod.mk.injEq] at h
      rw [← h.1, takeWhile_cons_of_neg (by simp)]
    · simp only [splitOnce, dropPrefix?, beq_iff_eq, hd] at h
      obtain ⟨⟨front, back⟩, hparts, heq⟩ := Option.map_eq_some_iff.mp h
      obtain ⟨rfl, rfl⟩ := Prod.mk.inj heq
      rw [takeWhile_cons_of_pos (by simp [hd]), ih hparts]

theorem withoutPort_of_head (h : text.head? ≠ some '[') :
    withoutPort raw text = .ok (hostPart text) := by
  rw [hostPart_of_head h]
  unfold withoutPort hasPort
  split
  · exact absurd rfl h
  · rcases hsplit : text.splitOn ':' with _ | ⟨name, _ | ⟨port, _ | ⟨other, parts⟩⟩⟩
    · rfl
    · rfl
    · simp only [LineSplitting.takeWhile_of_splitOn hsplit, Bool.and_eq_true, decide_eq_true_eq]
      split <;> rfl
    · rfl

theorem hostPart_of_withoutPort (h : withoutPort raw text = .ok part) : hostPart text = part := by
  by_cases hhead : text.head? = some '['
  · obtain ⟨stripped, rfl⟩ := head?_eq_some_iff.mp hhead
    rw [withoutPort] at h
    split at h
    · cases h
    · next hsplit =>
      split at h
      · cases h
      · cases h
        exact takeWhile_of_splitOnce hsplit
  · rw [withoutPort_of_head hhead] at h
    exact Except.ok.inj h

end HostParts

section LowerCase
variable {text : Text}

theorem isDigit_toLower (c : Char) : c.toLower.isDigit = c.isDigit := by
  have hdigit : ∀ d : Char, d.isDigit = decide (48 ≤ d.toNat ∧ d.toNat ≤ 57) := by
    intro d
    rw [Bool.decide_and]
    rfl
  rw [hdigit, hdigit, toNat_toLower, decide_eq_decide]
  split <;> omega

theorem hasPort_toAsciiLowercase (text : Text) :
    hasPort (toAsciiLowercase text) = hasPort text := by
  rw [hasPort, hasPort, toAsciiLowercase, LineSplitting.splitOn_map fun c =>
    toLower_eq_iff (.inl (by decide))]
  rcases text.splitOn ':' with _ | ⟨name, _ | ⟨port, _ | ⟨other, parts⟩⟩⟩
  · rfl
  · rfl
  · simp [isPort, Function.comp_def, isDigit_toLower]
  · rfl

theorem plain_toAsciiLowercase : Plain (toAsciiLowercase text) ↔ Plain text := by
  have hchar : ∀ (o : Option Char) {d : Char}, (d.toNat < 65 ∨ 90 < d.toNat ∧ d.toNat < 97) →
      (o.map Char.toLower = some d ↔ o = some d) := by
    intro o d hd
    cases o <;> simp [toLower_eq_iff hd]
  rw [Plain, Plain, hasPort_toAsciiLowercase, toAsciiLowercase, head?_map,
    getLast?_map, ne_eq, ne_eq, hchar _ (.inr (by decide)), hchar _ (.inl (by decide))]

end LowerCase

section Normalization
variable {raw host : String} {text : Text}

/-- What a host that is accepted was read from. -/
theorem normalizeNetworkRuleHost_eq_ok (h : normalizeNetworkRuleHost raw = .ok host) :
    host.toList = toAsciiLowercase (hostName raw) ∧ host.toList ≠ [] ∧ '*' ∉ host.toList ∧
      (∀ c ∈ host.toList, SeekSequence.isWhitespace c = false) ∧
      ['/', '?', '#'].any (· ∈ trim raw.toList) = false := by
  unfold normalizeNetworkRuleHost at h
  dsimp only at h
  split at h
  · cases h
  split at h
  · cases h
  next hscheme =>
    obtain ⟨part, hpart, h⟩ := Transducers.bind_eq_ok.mp h
    split at h
    · cases h
    split at h
    · cases h
    split at h
    · cases h
    next hne hstar hblank =>
      cases h
      rw [String.toList_ofList, hostName, hostPart_of_withoutPort hpart]
      refine ⟨rfl, hne, hstar, ?_, Bool.eq_false_iff.mpr hscheme⟩
      simpa using hblank

theorem trim_of_forall (h : ∀ c ∈ text, SeekSequence.isWhitespace c = false) :
    trim text = text := by
  have hfront : text.dropWhile SeekSequence.isWhitespace = text := by
    rw [dropWhile_eq_self_iff]
    intro hpos
    simp [h _ (getElem_mem hpos)]
  rw [trim, hfront, rdropWhile_eq_self_iff]
  intro hne
  simp [h _ (getLast_mem hne)]

theorem trimEndDots_eq_iff : trimEndDots text = text ↔ text.getLast? ≠ some '.' := by
  rw [trimEndDots]
  cases text using reverseRecOn <;> simp

/-- A text in lower case that no check refuses is kept exactly if it is plain. -/
theorem normalizeNetworkRuleHost_self_iff (hne : host.toList ≠ []) (hstar : '*' ∉ host.toList)
    (hblank : ∀ c ∈ host.toList, SeekSequence.isWhitespace c = false)
    (hscheme : ['/', '?', '#'].any (· ∈ host.toList) = false) (hlower : IsLower host.toList) :
    normalizeNetworkRuleHost host = .ok host ↔ Plain host.toList := by
  have htrim := trim_of_forall hblank
  constructor
  · intro h
    have hlength := congrArg length (normalizeNetworkRuleHost_eq_ok h).1
    rw [toAsciiLowercase, length_map, hostName, htrim] at hlength
    have hdots := trimEndDots_sublist (hostPart host.toList)
    have hle := (trim_sublist (trimEndDots (hostPart host.toList))).length_le
    have hpart : hostPart host.toList = host.toList :=
      (hostPart_sublist _).eq_of_length_le (by have := hdots.length_le; omega)
    rw [hpart] at hdots hle hlength
    obtain ⟨hhead, hport⟩ := hostPart_eq_iff.mp hpart
    exact ⟨hhead, hport, trimEndDots_eq_iff.mp (hdots.eq_of_length_le (by omega))⟩
  · rintro ⟨hhead, hport, hlast⟩
    unfold normalizeNetworkRuleHost
    rw [htrim, if_neg hne, hscheme, if_neg Bool.false_ne_true, withoutPort_of_head hhead,
      hostPart_eq_iff.mpr ⟨hhead, hport⟩, Transducers.ok_bind]
    rw [trimEndDots_eq_iff.mpr hlast, htrim, hlower.eq, if_neg hne, if_neg hstar,
      if_neg (by simpa using hblank), String.ofList_toList]

/-- The rules file into which a ruling on the host is written loads a rule for the host that
the ruling is for. -/
def ReadBack (raw host : String) : Prop :=
  ∀ (starlark : Starlark) (manager : ExecPolicyManager) (amendment : NetworkAmendment)
    (loaded : Policy), amendment.host = raw →
    ¬ amendment.justification.any (SeekSequence.trim · = "") →
    starlark.KeepsNames manager.rulesFile →
    starlark.evaluate manager.rulesFile = some loaded →
    starlark.evaluate (manager.step amendment).rulesFile =
      some (if amendment.line host ∈ manager.rulesFile then loaded
        else { loaded with networkRules := loaded.networkRules ++ [amendment.rule host] })

theorem readBack_of_normalized (h : normalizeNetworkRuleHost raw = .ok host)
    (hagain : normalizeNetworkRuleHost host = .ok host) : ReadBack raw host := by
  rintro starlark manager amendment loaded rfl hjustified hnames hloaded
  have haccepted : amendment.acceptedHost = some host := by
    rw [NetworkAmendment.acceptedHost, if_neg hjustified, h]
    rfl
  exact ExecPolicyManager.evaluate_step hagain haccepted hnames hloaded

/-- An accepted host is normalised to itself, and read back from the rules file, exactly if
nothing is left to take off. -/
theorem normalization_idempotent_iff (raw host : String)
    (h : normalizeNetworkRuleHost raw = .ok host) :
    normalizeNetworkRuleHost host = .ok host ∧ ReadBack raw host ↔ Plain (hostName raw) := by
  obtain ⟨hname, hne, hstar, hblank, hscheme⟩ := normalizeNetworkRuleHost_eq_ok h
  have hsublist : List.Sublist (hostName raw) (trim raw.toList) :=
    (trim_sublist _).trans ((trimEndDots_sublist _).trans (hostPart_sublist _))
  have hscheme' : ['/', '?', '#'].any (· ∈ host.toList) = false := by
    rw [any_eq_false] at hscheme ⊢
    intro d hd hmem
    refine hscheme d hd (decide_eq_true (hsublist.subset ?_))
    rw [hname] at hmem
    obtain ⟨c, hc, hcd⟩ := mem_map.mp (of_decide_eq_true hmem)
    have hsmall : ∀ d ∈ ['/', '?', '#'], d.toNat < 65 := by simp
    rwa [(toLower_eq_iff (.inl (hsmall d hd))).mp hcd] at hc
  have hself := normalizeNetworkRuleHost_self_iff hne hstar hblank hscheme'
    (hname ▸ isLower_toAsciiLowercase _)
  rw [← plain_toAsciiLowercase, ← hname, ← hself]
  exact ⟨And.left, fun hagain => ⟨hagain, readBack_of_normalized h hagain⟩⟩

theorem good_host_normalized :
    normalizeNetworkRuleHost "good.com" = .ok "good.com" ∧ ReadBack "Good.com." "good.com" :=
  (normalization_idempotent_iff "Good.com." "good.com" (by decide +kernel)).mpr (by decide +kernel)

/-- A port inside brackets or before a dot, a bracket in brackets and a dot before a blank are
found when the host is read again. -/
theorem normalized_hosts_normalized_again :
    normalizeNetworkRuleHost "[a.com:80]" = .ok "a.com:80" ∧
      normalizeNetworkRuleHost "a.com:80" = .ok "a.com" ∧
      normalizeNetworkRuleHost "a:80." = .ok "a:80" ∧ normalizeNetworkRuleHost "a:80" = .ok "a" ∧
      normalizeNetworkRuleHost "a. ." = .ok "a." ∧ normalizeNetworkRuleHost "a." = .ok "a" ∧
      normalizeNetworkRuleHost "[[x]" = .ok "[x" ∧
      normalizeNetworkRuleHost "[x" =
        .error (.invalidRule "network_rule host has an invalid bracketed IPv6 literal") := by
  decide +kernel

end Normalization

end DeepseekX.ExecPolicies
