import DeepseekX.HistoryNormalization
import DeepseekX.Pairings

/-!
# Calls and outputs in a normalised history

Calls and outputs meet in a kind and an id. A local shell call is answered by the output of a
function call. Outputs of tool searches that a server has run need no call.
-/

namespace DeepseekX.HistoryNormalization
open ResponseItems Pairings

inductive CallKind where
  | function | toolSearch | custom
  deriving DecidableEq

/-- The kind and the id under which a call expects its output. -/
def callKey : ResponseItem → Option (CallKind × String)
  | .functionCall _ _ _ _ callId => some (.function, callId)
  | .localShellCall callId => callId.map (.function, ·)
  | .toolSearchCall callId => callId.map (.toolSearch, ·)
  | .customToolCall _ _ callId _ _ => some (.custom, callId)
  | _ => none

def outputKey : ResponseItem → Option (CallKind × String)
  | .functionCallOutput callId _ => some (.function, callId)
  | .toolSearchOutput callId _ _ => callId.map (.toolSearch, ·)
  | .customToolCallOutput callId _ _ => some (.custom, callId)
  | _ => none

def isServerExecuted : ResponseItem → Bool
  | .toolSearchOutput _ _ execution => execution = "server"
  | _ => false

def abortedOutput : CallKind × String → ResponseItem
  | (.function, callId) => .functionCallOutput callId (.fromText "aborted")
  | (.toolSearch, callId) => .toolSearchOutput (some callId) "completed" "client"
  | (.custom, callId) => .customToolCallOutput callId none (.fromText "aborted")

/-- Calls open a key, outputs close one; those that no server has run need a call. -/
def pairing : Pairing ResponseItem (CallKind × String) where
  opens := callKey
  closes := outputKey
  needs item := if isServerExecuted item then none else outputKey item
  filler := abortedOutput
  opens_filler := by rintro ⟨_ | _ | _, callId⟩ <;> rfl
  closes_filler := by rintro ⟨_ | _ | _, callId⟩ <;> rfl
  closes_of_needs := by
    intro item key h
    split at h
    · cases h
    · exact h
  needs_of_opens := by
    intro item key h
    cases item <;> first | rfl | cases h

variable {items : List ResponseItem}
variable {callId : String} {item : ResponseItem} {key : CallKind × String}

theorem isFunctionCallOutput_iff :
    isFunctionCallOutput callId item = true ↔ outputKey item = some (.function, callId) := by
  cases item <;> simp [isFunctionCallOutput, outputKey]

theorem isToolSearchOutput_iff :
    isToolSearchOutput callId item = true ↔ outputKey item = some (.toolSearch, callId) := by
  cases item with
  | toolSearchOutput existing status execution =>
    cases existing <;> simp [isToolSearchOutput, outputKey]
  | _ => simp [isToolSearchOutput, outputKey]

theorem isCustomToolCallOutput_iff :
    isCustomToolCallOutput callId item = true ↔ outputKey item = some (.custom, callId) := by
  cases item <;> simp [isCustomToolCallOutput, outputKey]

theorem any_eq_closed {p : ResponseItem → Bool}
    (h : ∀ {item}, p item = true ↔ outputKey item = some key) :
    items.any p = pairing.closed items key := by
  rw [Bool.eq_iff_iff, List.any_eq_true, Pairing.closed_iff]
  exact exists_congr fun item => and_congr_right fun _ => h

theorem missingOutput_eq (items : List ResponseItem) :
    missingOutput items = pairing.missing items := by
  funext item
  cases item with
  | functionCall id name callNamespace arguments callId =>
    rw [missingOutput, any_eq_closed isFunctionCallOutput_iff]
    rfl
  | localShellCall callId =>
    cases callId with
    | none => rfl
    | some callId =>
      rw [missingOutput, any_eq_closed isFunctionCallOutput_iff]
      rfl
  | toolSearchCall callId =>
    cases callId with
    | none => rfl
    | some callId =>
      rw [missingOutput, any_eq_closed isToolSearchOutput_iff]
      rfl
  | customToolCall id status callId name input =>
    rw [missingOutput, any_eq_closed isCustomToolCallOutput_iff]
    rfl
  | _ => rfl

theorem mem_functionCallIds :
    callId ∈ functionCallIds items ∨ callId ∈ localShellCallIds items ↔
      pairing.opened items (.function, callId) = true := by
  rw [Pairing.opened_iff, functionCallIds, localShellCallIds, List.mem_filterMap,
    List.mem_filterMap, ← exists_or]
  refine exists_congr fun item => ?_
  rw [← and_or_left]
  refine and_congr_right fun _ => ?_
  change _ ↔ callKey item = _
  cases item <;> simp [callKey]

theorem mem_filterMap_iff_opened {f : ResponseItem → Option String}
    (h : ∀ item, f item = some callId ↔ callKey item = some key) :
    callId ∈ items.filterMap f ↔ pairing.opened items key = true := by
  rw [Pairing.opened_iff, List.mem_filterMap]
  exact exists_congr fun item => and_congr_right fun _ => h item

theorem mem_toolSearchCallIds :
    callId ∈ toolSearchCallIds items ↔ pairing.opened items (.toolSearch, callId) = true := by
  refine mem_filterMap_iff_opened fun item => ?_
  cases item <;> simp [callKey]

theorem mem_customToolCallIds :
    callId ∈ customToolCallIds items ↔ pairing.opened items (.custom, callId) = true := by
  refine mem_filterMap_iff_opened fun item => ?_
  cases item <;> simp [callKey]

theorem hasMatch_eq (items : List ResponseItem) : hasMatch items = pairing.keeps items := by
  funext item
  rw [Bool.eq_iff_iff]
  cases item with
  | functionCallOutput callId output => exact decide_eq_true_iff.trans mem_functionCallIds
  | customToolCallOutput callId name output => exact decide_eq_true_iff.trans mem_customToolCallIds
  | toolSearchOutput callId status execution =>
    change (if execution = "server" then _ else _) = true ↔
      Option.all _ (if decide (execution = "server") = true then none else _) = true
    by_cases hserver : execution = "server"
    · simp [hserver]
    · rw [if_neg hserver, if_neg (by rwa [decide_eq_true_iff])]
      cases callId with
      | none => exact Iff.rfl
      | some callId => exact decide_eq_true_iff.trans mem_toolSearchCallIds
  | _ => exact Iff.rfl

theorem normalizeHistory_eq (items : List ResponseItem) :
    normalizeHistory items = pairing.prune (pairing.complete items) := by
  have hcomplete : ensureCallOutputsPresent items = pairing.complete items := by
    rw [ensureCallOutputsPresent_eq, missingOutput_eq]
    rfl
  rw [normalizeHistory, hcomplete, removeOrphanOutputs, hasMatch_eq]
  rfl

/-- An item that is no output, or the output of a call in the list, or was run by a server. -/
def IsPaired (items : List ResponseItem) (item : ResponseItem) : Prop :=
  ∀ key, outputKey item = some key → isServerExecuted item = false →
    ∃ call ∈ items, callKey call = some key

theorem keeps_iff_isPaired : pairing.keeps items item = true ↔ IsPaired items item := by
  rw [Pairing.keeps_iff]
  refine forall_congr' fun key => ?_
  rw [Pairing.opened_iff]
  change (if isServerExecuted item then none else outputKey item) = some key → _ ↔ _
  cases isServerExecuted item with
  | true => simp
  | false => exact ⟨fun h hkey _ => h hkey, fun h hkey => h hkey rfl⟩

instance (items : List ResponseItem) : DecidablePred (IsPaired items) :=
  fun _ => decidable_of_iff _ keeps_iff_isPaired

/-- In a normalised history every call has an output and every output a call. All items but
the outputs without a call are kept in order, and behind a call whose output was missing
stands one; nothing else is added. Normalising again changes nothing. -/
theorem normalized_history_paired (items : List ResponseItem) :
    (∀ call ∈ normalizeHistory items, ∀ key, callKey call = some key →
      ∃ output ∈ normalizeHistory items, outputKey output = some key) ∧
    (∀ output ∈ normalizeHistory items, IsPaired (normalizeHistory items) output) ∧
    (items.filter (IsPaired items)).Sublist (normalizeHistory items) ∧
    (∃ added : ResponseItem → Option ResponseItem,
      (∀ call output, added call = some output → ∃ key, callKey call = some key ∧
        output = abortedOutput key ∧ ∀ item ∈ items, outputKey item ≠ some key) ∧
      normalizeHistory items =
        (items.filter (IsPaired items)).flatMap fun item => item :: (added item).toList) ∧
    normalizeHistory (normalizeHistory items) = normalizeHistory items := by
  have hfilter : items.filter (IsPaired items) = items.filter (pairing.keeps items) := by
    refine List.filter_congr fun item _ => ?_
    rw [Bool.eq_iff_iff, decide_eq_true_eq, keeps_iff_isPaired]
  rw [hfilter, normalizeHistory_eq]
  refine ⟨fun call hcall key hkey => ?_, fun output houtput => ?_,
    Pairing.sublist_prune_complete items, ⟨pairing.missing items, fun call output hadded => ?_,
      Pairing.prune_complete items⟩, ?_⟩
  · exact Pairing.closed_iff.mp (Pairing.closed_of_opens hcall hkey)
  · rw [← keeps_iff_isPaired, Pairing.keeps_iff]
    exact fun key hneeds => Pairing.opened_of_needs houtput hneeds
  · obtain ⟨key, hopens, hclosed, rfl⟩ := Pairing.missing_eq_some.mp hadded
    refine ⟨key, hopens, rfl, fun item hitem hkey => ?_⟩
    rw [Pairing.closed_iff.mpr ⟨item, hitem, hkey⟩] at hclosed
    cases hclosed
  · rw [normalizeHistory_eq]
    exact Pairing.prune_complete_idem items

end DeepseekX.HistoryNormalization
