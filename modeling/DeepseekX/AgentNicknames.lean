import Mathlib.Data.List.Nodup

/-!
# Nicknames of agents

A reservation without a preference takes a candidate that is not in use. When all of them are,
the registry forgets which nicknames are in use and from then on adds the next ordinal to the
candidates.
-/

namespace DeepseekX.AgentNicknames
open List

section Formatting

def ordinalSuffix (value : ℕ) : String :=
  if 11 ≤ value % 100 ∧ value % 100 ≤ 13 then "th"
  else match value % 10 with
    | 1 => "st"
    | 2 => "nd"
    | 3 => "rd"
    | _ => "th"

def formatAgentNickname (name : String) : (nicknameResetCount : ℕ) → String
  | 0 => name
  | resetCount + 1 => name ++ " the " ++ toString (resetCount + 2) ++ ordinalSuffix (resetCount + 2)

def HasOrdinal (name : String) : Prop :=
  ∃ base resetCount, name = formatAgentNickname base (resetCount + 1)

def ordinal (nickname : String) : ℕ :=
  Nat.ofDigitChars 10 (((nickname.toList.splitOn ' ').getLast?.getD []).filter Char.isDigit) 0

theorem ordinal_format (name : String) (resetCount : ℕ) :
    ordinal (formatAgentNickname name (resetCount + 1)) = resetCount + 2 := by
  rw [formatAgentNickname]
  generalize resetCount + 2 = value
  have hdigits : ∀ c ∈ Nat.toDigits 10 value, c.isDigit = true := fun c =>
    Nat.isDigit_of_mem_toDigits (by decide) (Nat.le_refl 10)
  have hsuffix : ∀ c ∈ (ordinalSuffix value).toList, c ≠ ' ' ∧ c.isDigit = false := by
    rw [ordinalSuffix]
    split_ifs
    · simp
    · split <;> simp
  have hblank : ' ' ∉ Nat.toDigits 10 value ++ (ordinalSuffix value).toList := by
    rw [mem_append, not_or]
    exact ⟨fun h => absurd (hdigits _ h) (by decide), fun h => (hsuffix _ h).1 rfl⟩
  have htext : (name ++ " the " ++ toString value ++ ordinalSuffix value).toList =
      name.toList ++ " the".toList ++
        ' ' :: (Nat.toDigits 10 value ++ (ordinalSuffix value).toList) := by
    simp
  rw [ordinal, htext, splitOn_append_cons_self, splitOn_eq_singleton hblank, getLast?_concat,
    Option.getD_some, filter_append, filter_eq_self.mpr hdigits,
    filter_eq_nil_iff.mpr fun c hc => by simp [hsuffix c hc], append_nil,
    Nat.ofDigitChars_ten_toDigits]

/-- A candidate without an ordinal, as it is formatted after so many resets. -/
def OfGeneration (resetCount : ℕ) (nickname : String) : Prop :=
  ∃ name, ¬ HasOrdinal name ∧ nickname = formatAgentNickname name resetCount

theorem OfGeneration.unique {count count' : ℕ} {nickname : String}
    (h : OfGeneration count nickname) (h' : OfGeneration count' nickname) : count = count' := by
  obtain ⟨name, hname, rfl⟩ := h
  obtain ⟨name', hname', heq⟩ := h'
  cases count with
  | zero =>
    cases count' with
    | zero => rfl
    | succ count' => exact absurd ⟨name', count', heq⟩ hname
  | succ count =>
    cases count' with
    | zero => exact absurd ⟨name, count, heq.symm⟩ hname'
    | succ count' =>
      have hordinal := congrArg ordinal heq
      rw [ordinal_format, ordinal_format] at hordinal
      omega

end Formatting

structure AgentMetadata where
  agentId : Option String := none
  agentPath : Option String := none
  agentNickname : Option String := none

structure ActiveAgents where
  agentTree : String → Option AgentMetadata := fun _ => none
  usedAgentNicknames : List String := []
  nicknameResetCount : ℕ := 0

namespace ActiveAgents

/-- An element chosen at random, if there is any. -/
def choose (pick : ℕ) (names : List String) : Option String := names[pick % names.length]?

variable (agents : ActiveAgents)

def reserveAgentNickname (names : List String) (preferred : Option String) (pick : ℕ) :
    Option String × ActiveAgents :=
  match preferred with
  | some preferred =>
    (some preferred, { agents with usedAgentNicknames := preferred :: agents.usedAgentNicknames })
  | none =>
    if names = [] then (none, agents)
    else
      let availableNames := (names.map (formatAgentNickname · agents.nicknameResetCount)).filter
        (· ∉ agents.usedAgentNicknames)
      match choose pick availableNames with
      | some name =>
        (some name, { agents with usedAgentNicknames := name :: agents.usedAgentNicknames })
      | none =>
        let resetCount := agents.nicknameResetCount + 1
        let nickname := (choose pick names).map (formatAgentNickname · resetCount)
        (nickname, { agents with
          usedAgentNicknames := nickname.toList, nicknameResetCount := resetCount })

def registerSpawnedThread (metadata : AgentMetadata) : ActiveAgents :=
  match metadata.agentId with
  | none => agents
  | some threadId => { agents with
    usedAgentNicknames := metadata.agentNickname.toList ++ agents.usedAgentNicknames
    agentTree := Function.update agents.agentTree
      (metadata.agentPath.getD ("thread:" ++ threadId)) (some metadata) }

/-- Removes the entry of the thread that is found first, which is under the given key. -/
def releaseSpawnedThread (threadId key : String) : ActiveAgents :=
  if (agents.agentTree key).any (·.agentId = some threadId) then
    { agents with agentTree := Function.update agents.agentTree key none }
  else agents

end ActiveAgents

inductive Event where
  | reserve (names : List String) (pick : ℕ)
  | commit (metadata : AgentMetadata)
  | release (threadId key : String)

/-- The agents, and the nicknames returned so far, the newest first. -/
def step (state : ActiveAgents × List String) : Event → ActiveAgents × List String
  | .reserve names pick =>
    let (nickname, agents) := state.1.reserveAgentNickname names none pick
    (agents, nickname.toList ++ state.2)
  | .commit metadata => (state.1.registerSpawnedThread metadata, state.2)
  | .release threadId key => (state.1.releaseSpawnedThread threadId key, state.2)

/-- The nickname was formatted before the last reset, or is in use. -/
def Known (agents : ActiveAgents) (nickname : String) : Prop :=
  ∃ count ≤ agents.nicknameResetCount, OfGeneration count nickname ∧
    (count = agents.nicknameResetCount → nickname ∈ agents.usedAgentNicknames)

def Distinct (state : ActiveAgents × List String) : Prop :=
  state.2.Nodup ∧ ∀ nickname ∈ state.2, Known state.1 nickname

/-- A nickname is added to those in use, or is the first one after a reset. -/
theorem reserve_cases (agents : ActiveAgents) (names : List String) (pick : ℕ) :
    agents.reserveAgentNickname names none pick = (none, agents) ∨
      ∃ name ∈ names, ∃ used count,
        agents.reserveAgentNickname names none pick = (some (formatAgentNickname name count),
          { agents with
            usedAgentNicknames := formatAgentNickname name count :: used
            nicknameResetCount := count }) ∧
        (count = agents.nicknameResetCount ∧ used = agents.usedAgentNicknames ∧
          formatAgentNickname name count ∉ used ∨ count = agents.nicknameResetCount + 1) := by
  simp only [ActiveAgents.reserveAgentNickname, ActiveAgents.choose]
  split_ifs with hnames
  · exact .inl rfl
  right
  split
  next name hname =>
    obtain ⟨hname, hunused⟩ := mem_filter.mp (mem_of_getElem? hname)
    obtain ⟨name, hmem, rfl⟩ := mem_map.mp hname
    exact ⟨name, hmem, _, _, rfl, .inl ⟨rfl, rfl, by simpa using hunused⟩⟩
  next =>
    have hlt : pick % names.length < names.length := Nat.mod_lt _ (length_pos_iff.mpr hnames)
    rw [getElem?_eq_getElem hlt]
    exact ⟨_, getElem_mem hlt, [], _, rfl, .inr rfl⟩

theorem Distinct.step {state : ActiveAgents × List String} (h : Distinct state) (event : Event)
    (hnames : ∀ names pick, event = .reserve names pick → ∀ name ∈ names, ¬ HasOrdinal name) :
    Distinct (step state event) := by
  obtain ⟨agents, returned⟩ := state
  obtain ⟨hreturned, hknown⟩ := h
  dsimp only at hreturned hknown
  cases event with
  | reserve names pick =>
    rw [AgentNicknames.step]
    rcases reserve_cases agents names pick with heq | ⟨name, hname, used, count, heq, hcount⟩
    · rw [heq]
      exact ⟨hreturned, hknown⟩
    have hnew : OfGeneration count (formatAgentNickname name count) :=
      ⟨name, hnames names pick rfl name hname, rfl⟩
    rw [heq]
    refine ⟨nodup_cons.mpr ⟨fun hmem => ?_, hreturned⟩, forall_mem_cons.mpr
      ⟨⟨count, Nat.le_refl _, hnew, fun _ => mem_cons_self⟩, fun nickname hmem => ?_⟩⟩
    · obtain ⟨earlier, hle, hold, hused⟩ := hknown _ hmem
      obtain rfl := hold.unique hnew
      rcases hcount with ⟨hsame, rfl, hunused⟩ | hreset
      · exact hunused (hused hsame)
      · omega
    · obtain ⟨earlier, hle, hold, hused⟩ := hknown _ hmem
      rcases hcount with ⟨rfl, rfl, -⟩ | rfl
      · exact ⟨earlier, hle, hold, fun hsame => mem_cons_of_mem _ (hused hsame)⟩
      · exact ⟨earlier, by dsimp only; omega, hold, fun hsame => by dsimp only at hsame; omega⟩
  | commit metadata =>
    refine ⟨hreturned, fun nickname hmem => ?_⟩
    simp only [AgentNicknames.step, ActiveAgents.registerSpawnedThread]
    split
    · exact hknown _ hmem
    · obtain ⟨count, hle, hold, hused⟩ := hknown _ hmem
      exact ⟨count, hle, hold, fun hsame => mem_append_right _ (hused hsame)⟩
  | release threadId key =>
    refine ⟨hreturned, fun nickname hmem => ?_⟩
    simp only [AgentNicknames.step, ActiveAgents.releaseSpawnedThread]
    split <;> exact hknown _ hmem

/-- Nicknames reserved without a preference never repeat, whichever candidates are given and
chosen, as long as no candidate ends in an ordinal itself. -/
theorem generated_nicknames_distinct (events : List Event)
    (hnames : ∀ names pick, .reserve names pick ∈ events → ∀ name ∈ names, ¬ HasOrdinal name) :
    (events.foldl step ({}, [])).2.Nodup := by
  refine (foldlRecOn (motive := Distinct) events step ⟨nodup_nil, forall_mem_nil _⟩ ?_).1
  intro state hstate event hevent
  refine hstate.step event ?_
  rintro names pick rfl
  exact hnames names pick hevent

theorem generated_nicknames_of_one_candidate :
    let events := [.reserve ["Ada"] 0, .reserve ["Ada"] 0, .reserve ["Ada"] 0]
    (events.foldl step ({}, [])).2 = ["Ada the 3rd", "Ada the 2nd", "Ada"] ∧
      (events.foldl step ({}, [])).2.Nodup := by
  refine ⟨by decide +kernel, generated_nicknames_distinct _ ?_⟩
  intro names pick hmem name hname
  obtain rfl : name = "Ada" := by simp_all
  rintro ⟨base, resetCount, heq⟩
  have hblank := congrArg (' ' ∈ ·.toList) heq
  simp [formatAgentNickname] at hblank

end DeepseekX.AgentNicknames
