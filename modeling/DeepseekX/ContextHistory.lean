import DeepseekX.PatchParsing
import DeepseekX.ResponseItems

/-!
# The history of a thread

`ContextManager` keeps the items of a thread. It records items, replaces the whole history at
a compaction and drops the newest instruction turns at a rollback. A rollback also trims the
context updates that stand right before the first turn it drops. How texts are recognised and
shortened is left open.
-/

namespace DeepseekX.ContextHistory
open ResponseItems List

/-- `isContextualUserText` recognises hook prompts and the registered contextual fragments,
`isInterAgentText` the JSON form of an inter-agent communication; `truncateOutput` and
`truncateText` shorten tool outputs and texts. -/
structure TextReading where
  isContextualUserText : String → Bool
  isInterAgentText : String → Bool
  truncateOutput : FunctionCallOutputPayload → FunctionCallOutputPayload
  truncateText : String → ℕ → String

section Messages
variable (reading : TextReading)

def isContextualUserFragment : ContentItem → Bool
  | .inputText text => reading.isContextualUserText text
  | _ => false

def isContextualUserMessageContent (content : List ContentItem) : Bool :=
  content.any (isContextualUserFragment reading)

def contextualDeveloperPrefixes : List String :=
  ["<permissions instructions>", "<model_switch>", "<collaboration_mode>",
    "<realtime_conversation>", "<personality_spec>"]

def isContextualDevFragment : ContentItem → Bool
  | .inputText text =>
    contextualDeveloperPrefixes.any fun opening =>
      ((PatchParsing.trimStart text).toList.take opening.length).map Char.toLower ==
        opening.toList.map Char.toLower
  | _ => false

def isContextualDevMessageContent (content : List ContentItem) : Bool :=
  content.any isContextualDevFragment

def isInterAgentInstructionContent : List ContentItem → Bool
  | [.inputText text] | [.outputText text] => reading.isInterAgentText text
  | _ => false

/-- A message of the user that is no contextual fragment. -/
def isRealUserMessage : ResponseItem → Bool
  | .message _ role content _ => role = "user" && !isContextualUserMessageContent reading content
  | _ => false

def isUserTurnBoundary : ResponseItem → Bool
  | .message _ role content _ =>
    (role = "user" && !isContextualUserMessageContent reading content) ||
      (role = "assistant" && isInterAgentInstructionContent reading content)
  | _ => false

/-- The context updates that a rollback trims before a dropped turn. -/
def isContextUpdate : ResponseItem → Bool
  | .message _ role content _ =>
    (role = "developer" && isContextualDevMessageContent content) ||
      (role = "user" && isContextualUserMessageContent reading content)
  | _ => false

variable {reading} {item : ResponseItem}

theorem isUserTurnBoundary_of_isRealUserMessage (h : isRealUserMessage reading item = true) :
    isUserTurnBoundary reading item = true := by
  cases item with
  | message id role content phase =>
    rw [isUserTurnBoundary, Bool.or_eq_true]
    exact .inl h
  | _ => cases h

theorem filter_filter_boundary (items : List ResponseItem) :
    (items.filter (isUserTurnBoundary reading)).filter (isRealUserMessage reading) =
      items.filter (isRealUserMessage reading) := by
  rw [filter_filter]
  refine filter_congr fun item _ => ?_
  cases hreal : isRealUserMessage reading item with
  | false => rfl
  | true => rw [isUserTurnBoundary_of_isRealUserMessage hreal, Bool.and_self]

theorem isContextUpdate_of_boundary (h : isUserTurnBoundary reading item = true) :
    isContextUpdate reading item = false := by
  cases item with
  | message id role content phase =>
    simp only [isUserTurnBoundary, isContextUpdate] at h ⊢
    by_cases huser : role = "user"
    · subst huser
      simpa using h
    · by_cases hassistant : role = "assistant"
      · subst hassistant
        simp
      · simp [huser, hassistant] at h
  | _ => cases h

end Messages

section Recording
variable (reading : TextReading)

def isApiMessage : ResponseItem → Bool
  | .message _ role _ _ => role ≠ "system"
  | .other => false
  | _ => true

def processItem : ResponseItem → ResponseItem
  | .functionCallOutput callId output => .functionCallOutput callId (reading.truncateOutput output)
  | .customToolCallOutput callId name output =>
    .customToolCallOutput callId name (reading.truncateOutput output)
  | item => item

/-- `record_items` with one item. -/
def recordItem (history : List ResponseItem) (item : ResponseItem) : List ResponseItem :=
  if isApiMessage item then history ++ [processItem reading item] else history

variable {reading}

theorem filter_recordItem (history : List ResponseItem) (item : ResponseItem) :
    (recordItem reading history item).filter (isRealUserMessage reading) =
      history.filter (isRealUserMessage reading) ++
        if isRealUserMessage reading item then [item] else [] := by
  have hprocess : isRealUserMessage reading (processItem reading item) =
      isRealUserMessage reading item := by cases item <;> rfl
  unfold recordItem
  by_cases hreal : isRealUserMessage reading item = true
  · cases item with
    | message id role content phase =>
      have hrole : role = "user" := by
        rw [isRealUserMessage, Bool.and_eq_true, decide_eq_true_eq] at hreal
        exact hreal.1
      subst hrole
      simp [isApiMessage, processItem, hreal]
    | _ => cases hreal
  · split <;> simp [hprocess, hreal]

end Recording

section Rollback
variable (reading : TextReading)

def userMessagePositions (items : List ResponseItem) : List ℕ :=
  items.zipIdx.filterMap fun entry =>
    if isUserTurnBoundary reading entry.1 then some entry.2 else none

/-- Walks back from a cut over context updates, not beyond the first instruction turn. -/
def trimPreTurnContextUpdates (snapshot : List ResponseItem) (firstInstructionTurnIdx : ℕ) : ℕ → ℕ
  | 0 => 0
  | cutIdx + 1 =>
    if firstInstructionTurnIdx < cutIdx + 1 ∧ (snapshot[cutIdx]?.any (isContextUpdate reading)) then
      trimPreTurnContextUpdates snapshot firstInstructionTurnIdx cutIdx
    else cutIdx + 1

def dropLastNUserTurns (items : List ResponseItem) (numTurns : ℕ) : List ResponseItem :=
  if numTurns = 0 then items
  else
    match userMessagePositions reading items with
    | [] => items
    | first :: later =>
      let positions := first :: later
      let cutIdx :=
        if numTurns ≥ positions.length then first
        else positions.getD (positions.length - numTurns) first
      items.take (trimPreTurnContextUpdates reading items first cutIdx)

end Rollback

section RollbackCuts
variable {reading : TextReading} {items front back : List ResponseItem}

theorem userMessagePositions_append (front back : List ResponseItem) :
    userMessagePositions reading (front ++ back) =
      userMessagePositions reading front ++
        (userMessagePositions reading back).map (front.length + ·) := by
  have hshift : back.zipIdx front.length =
      back.zipIdx.map fun entry => (entry.1, front.length + entry.2) := zipIdx_eq_map_add
  rw [userMessagePositions, zipIdx_append, filterMap_append, Nat.zero_add, hshift,
    filterMap_map, userMessagePositions, userMessagePositions, map_filterMap]
  refine congrArg _ (filterMap_congr fun entry _ => ?_)
  by_cases h : isUserTurnBoundary reading entry.1 <;> simp [h]

theorem length_userMessagePositions (reading : TextReading) (items : List ResponseItem) :
    (userMessagePositions reading items).length = items.countP (isUserTurnBoundary reading) := by
  induction items with
  | nil => rfl
  | cons item items ih =>
    rw [← singleton_append, userMessagePositions_append, length_append, length_map, countP_append]
    congr 1
    by_cases h : isUserTurnBoundary reading item <;> simp [userMessagePositions, h]

/-- The walk stops at an item that is no context update. -/
theorem take_trimPreTurnContextUpdates {first cut : ℕ} (hcut : first < cut)
    (hlength : cut ≤ items.length)
    (hfirst : items[first]?.any (isContextUpdate reading) = false) :
    items.take (trimPreTurnContextUpdates reading items first cut) =
      (items.take cut).rdropWhile (isContextUpdate reading) := by
  induction cut with
  | zero => omega
  | succ cut ih =>
    obtain ⟨item, hitem⟩ : ∃ item, items[cut]? = some item :=
      ⟨_, getElem?_eq_getElem (by omega)⟩
    have htake : items.take (cut + 1) = items.take cut ++ [item] := by
      rw [take_add_one, hitem]
      rfl
    rw [trimPreTurnContextUpdates, hitem]
    by_cases hcontext : isContextUpdate reading item = true
    · have hne : first ≠ cut := by
        rintro rfl
        rw [hitem, Option.any_some, hcontext] at hfirst
        cases hfirst
      rw [if_pos ⟨hcut, hcontext⟩, ih (by omega) (by omega), htake,
        rdropWhile_concat_pos _ _ _ hcontext]
    · rw [if_neg fun h => hcontext h.2, htake, rdropWhile_concat_neg _ _ _ hcontext]

theorem getElem?_of_mem_positions {position : ℕ}
    (h : position ∈ userMessagePositions reading items) :
    ∃ item, items[position]? = some item ∧ isUserTurnBoundary reading item = true := by
  obtain ⟨⟨item, index⟩, hmem, hsome⟩ := mem_filterMap.mp h
  split at hsome
  · rename_i hboundary
    obtain rfl := Option.some.inj hsome
    exact ⟨item, mem_zipIdx_iff_getElem?.mp hmem, hboundary⟩
  · cases hsome

theorem trimPreTurnContextUpdates_self (first : ℕ) :
    trimPreTurnContextUpdates reading items first first = first := by
  cases first with
  | zero => rfl
  | succ first => rw [trimPreTurnContextUpdates, if_neg fun h => lt_irrefl _ h.1]

/-- A rollback that reaches a boundary cuts there; context updates before it are trimmed where
an instruction turn is left. -/
theorem dropLastNUserTurns_append {item : ResponseItem} {n : ℕ}
    (hboundary : isUserTurnBoundary reading item = true)
    (hcount : (item :: back).countP (isUserTurnBoundary reading) ≤ n)
    (hreach : n = (item :: back).countP (isUserTurnBoundary reading) ∨
      front.countP (isUserTurnBoundary reading) = 0) :
    dropLastNUserTurns reading (front ++ item :: back) n =
      if front.any (isUserTurnBoundary reading) then
        front.rdropWhile (isContextUpdate reading)
      else front := by
  have hfirst : userMessagePositions reading [item] = [0] := by
    simp [userMessagePositions, hboundary]
  have hpositions : userMessagePositions reading (front ++ item :: back) =
      userMessagePositions reading front ++
        front.length :: (userMessagePositions reading back).map fun position =>
          front.length + (1 + position) := by
    rw [userMessagePositions_append, ← singleton_append, userMessagePositions_append, hfirst,
      singleton_append, map_cons, map_map]
    rfl
  have hlater := length_userMessagePositions reading back
  have hfront := length_userMessagePositions reading front
  rw [countP_cons_of_pos hboundary] at hcount hreach
  rw [dropLastNUserTurns, if_neg (by omega), hpositions]
  cases hbefore : userMessagePositions reading front with
  | nil =>
    rw [hbefore] at hfront
    have hnone : front.any (isUserTurnBoundary reading) = false := by
      rw [any_eq_false]
      exact countP_eq_zero.mp hfront.symm
    simp only [nil_append, length_cons, length_map]
    rw [if_pos (by omega), trimPreTurnContextUpdates_self, take_left, hnone]
    rfl
  | cons first later =>
    obtain ⟨earliest, hearliest, hinstruction⟩ :=
      getElem?_of_mem_positions (hbefore ▸ mem_cons_self)
    have hlt : first < front.length := (List.getElem?_eq_some_iff.mp hearliest).1
    have hsome : front.any (isUserTurnBoundary reading) = true :=
      any_eq_true.mpr ⟨earliest, mem_of_getElem? hearliest, hinstruction⟩
    rw [hbefore, length_cons] at hfront
    simp only [cons_append, length_cons, length_append, length_map]
    rw [if_neg (by omega), show later.length +
      ((userMessagePositions reading back).length + 1) + 1 - n = later.length + 1 by omega,
      getD_cons_succ, getD_eq_getElem?_getD, getElem?_append_right le_rfl,
      Nat.sub_self, getElem?_cons_zero, Option.getD_some, if_pos hsome]
    rw [take_trimPreTurnContextUpdates hlt (by simp), take_left]
    rw [getElem?_append_left hlt, hearliest]
    exact isContextUpdate_of_boundary hinstruction

theorem dropLastNUserTurns_of_none (n : ℕ)
    (h : items.countP (isUserTurnBoundary reading) = 0) :
    dropLastNUserTurns reading items n = items := by
  rw [dropLastNUserTurns]
  split
  · rfl
  · rw [← length_userMessagePositions, length_eq_zero_iff] at h
    rw [h]

theorem filter_rdropWhile_isContextUpdate (items : List ResponseItem) :
    (items.rdropWhile (isContextUpdate reading)).filter (isUserTurnBoundary reading) =
      items.filter (isUserTurnBoundary reading) := by
  have hsplit : items.rdropWhile (isContextUpdate reading) ++
      items.rtakeWhile (isContextUpdate reading) = items := rdropWhile_append_rtakeWhile
  have hnone : (items.rtakeWhile (isContextUpdate reading)).filter
      (isUserTurnBoundary reading) = [] := by
    refine filter_eq_nil_iff.mpr fun item hitem hboundary => ?_
    have hcontext := mem_rtakeWhile_imp hitem
    rw [isContextUpdate_of_boundary hboundary] at hcontext
    cases hcontext
  conv_rhs => rw [← hsplit]
  rw [filter_append, hnone, append_nil]

theorem exists_split_countP {α : Type*} {p : α → Bool} {l : List α} {m : ℕ} (hpos : 0 < m)
    (hle : m ≤ l.countP p) :
    ∃ front a back, l = front ++ a :: back ∧ p a = true ∧ (a :: back).countP p = m := by
  induction l with
  | nil =>
    rw [countP_nil] at hle
    omega
  | cons b l ih =>
    by_cases hrest : m ≤ l.countP p
    · obtain ⟨front, a, back, rfl, ha, hcount⟩ := ih hrest
      exact ⟨b :: front, a, back, rfl, ha, hcount⟩
    · have hb : p b = true := by
        by_contra hb
        rw [countP_cons_of_neg hb] at hle
        exact hrest hle
      rw [countP_cons_of_pos hb] at hle
      refine ⟨[], b, l, rfl, hb, ?_⟩
      rw [countP_cons_of_pos hb]
      omega

theorem filter_dropLastNUserTurns (items : List ResponseItem) (n : ℕ) :
    (dropLastNUserTurns reading items n).filter (isUserTurnBoundary reading) =
      (items.filter (isUserTurnBoundary reading)).take
        ((items.filter (isUserTurnBoundary reading)).length - n) := by
  by_cases hzero : min n (items.countP (isUserTurnBoundary reading)) = 0
  · rcases Nat.min_eq_zero_iff.mp hzero with rfl | hnone
    · rw [dropLastNUserTurns, if_pos rfl, Nat.sub_zero, take_length]
    · rw [dropLastNUserTurns_of_none n hnone]
      rw [countP_eq_length_filter] at hnone
      rw [eq_nil_of_length_eq_zero hnone, take_nil]
  · obtain ⟨front, item, back, rfl, hitem, hcount⟩ :=
      exists_split_countP (Nat.pos_of_ne_zero hzero) (Nat.min_le_right _ _)
    rw [countP_append] at hcount
    rw [dropLastNUserTurns_append hitem (by omega) (by omega), filter_append,
      length_append, ← countP_eq_length_filter, ← countP_eq_length_filter]
    have hfront : front.countP (isUserTurnBoundary reading) +
        (item :: back).countP (isUserTurnBoundary reading) - n =
          (front.filter (isUserTurnBoundary reading)).length := by
      rw [← countP_eq_length_filter]
      omega
    rw [hfront, take_left]
    split
    · exact filter_rdropWhile_isContextUpdate front
    · rfl

/-- Two rollbacks are one by the sum of their turns: what the first trims before its cut holds
no turn that the second could count. -/
theorem rollbacks_add_up (reading : TextReading) (items : List ResponseItem) (m n : ℕ) :
    dropLastNUserTurns reading (dropLastNUserTurns reading items m) n =
      dropLastNUserTurns reading items (m + n) := by
  rcases Nat.eq_zero_or_pos n with rfl | hn
  · exact if_pos rfl
  rcases Nat.eq_zero_or_pos (items.countP (isUserTurnBoundary reading)) with hnone | hpos
  · simp only [dropLastNUserTurns_of_none _ hnone]
  obtain ⟨rest, hrest⟩ : ∃ rest, dropLastNUserTurns reading items m ++ rest = items := by
    unfold dropLastNUserTurns
    repeat' split
    · exact ⟨[], append_nil _⟩
    · exact ⟨[], append_nil _⟩
    · exact ⟨_, take_append_drop _ _⟩
  have hcount := congrArg length (@filter_dropLastNUserTurns reading items m)
  rw [length_take, ← countP_eq_length_filter, ← countP_eq_length_filter] at hcount
  by_cases hle : items.countP (isUserTurnBoundary reading) ≤ m
  · -- the first rollback reaches the first instruction turn
    obtain ⟨front, item, back, rfl, hitem, hback⟩ := exists_split_countP hpos le_rfl
    rw [countP_append] at hback hcount hle
    rw [dropLastNUserTurns_of_none n (by omega), dropLastNUserTurns_append hitem (by omega)
      (.inr (by omega)), dropLastNUserTurns_append hitem (by omega) (.inr (by omega))]
  · obtain ⟨front, item, back, hkept, hitem, hback⟩ := @exists_split_countP _
      (isUserTurnBoundary reading) (dropLastNUserTurns reading items m) (min n _)
      (lt_min hn (by omega)) (Nat.min_le_right _ _)
    rw [hkept] at hrest hcount hback ⊢
    subst hrest
    simp only [countP_append, countP_cons_of_pos hitem] at hcount hle hback
    rw [append_assoc, cons_append, dropLastNUserTurns_append hitem,
      dropLastNUserTurns_append hitem]
    all_goals
      simp only [countP_append, countP_cons_of_pos hitem]
      omega

end RollbackCuts

section LegacyCompaction
variable (reading : TextReading)

def summaryPrefix : String :=
  "Another language model started to solve this problem and produced a summary of its thinking " ++
  "process. You also have access to the state of the tools that were used by that language " ++
  "model. Use this to build on the work that has already been done and avoid duplicating work. " ++
  "Here is the summary produced by the other language model, use the information in this " ++
  "summary to assist with your own analysis:"

def isSummaryMessage (message : String) : Bool :=
  (summaryPrefix ++ "\n").toList.isPrefixOf message.toList

def isImageOpenTagText (text : String) : Bool :=
  text = "<image>" ||
    ("<image name=".toList.isPrefixOf text.toList && ['>'].isSuffixOf (text.toList.drop 12))

def isInputImage : ContentItem → Bool
  | .inputImage _ => true
  | _ => false

/-- The texts of a user message, without the tags around its images. -/
def userMessageTexts : Option ContentItem → List ContentItem → List String
  | _, [] => []
  | previous, item :: content =>
    let texts := userMessageTexts (some item) content
    match item with
    | .inputText text =>
      if (isImageOpenTagText text && content.head?.any isInputImage) ||
          (text = "</image>" && previous.any isInputImage) then texts
      else text :: texts
    | _ => texts

def collectUserMessages (items : List ResponseItem) : List String :=
  items.filterMap fun
    | .message _ role content _ =>
      let message := String.join (userMessageTexts none content)
      if role = "user" && !isContextualUserMessageContent reading content &&
          !isSummaryMessage message then some message
      else none
    | _ => none

def approxTokenCount (text : String) : ℕ := (text.utf8ByteSize + 3) / 4

def compactUserMessageMaxTokens : ℕ := 20000

/-- The newest messages that fit, newest first; the one that no longer fits is shortened. -/
def selectMessages : ℕ → List String → List String
  | _, [] => []
  | remaining, message :: older =>
    if remaining = 0 then []
    else if approxTokenCount message ≤ remaining then
      message :: selectMessages (remaining - approxTokenCount message) older
    else [reading.truncateText message remaining]

def userText (text : String) : ResponseItem := .message none "user" [.inputText text] none

def buildCompactedHistory (userMessages : List String) (summaryText : String) : List ResponseItem :=
  (selectMessages reading compactUserMessageMaxTokens userMessages.reverse).reverse.map userText ++
    [userText (if summaryText = "" then "(no summary available)" else summaryText)]

end LegacyCompaction

end DeepseekX.ContextHistory
