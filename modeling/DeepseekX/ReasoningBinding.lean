import DeepseekX.ChatMessagePrefixes
import Mathlib.Data.List.Sigma

/-!
# Which message carries which reasoning

Reasoning belongs to the next assistant message or tool call of its segment. The trace
of a message says from which reasoning item its reasoning comes. It always comes from
the same segment, but an item that is followed by another reasoning item before the next
message is overwritten.
-/

namespace DeepseekX.ChatMessages
open ResponseItems Transducers List Option

def itemReasoning : ResponseItem → Option String
  | .reasoning _ _ content _ => reasoningContentText content
  | _ => none

def isMessage : ResponseItem → Bool
  | .message .. => true
  | _ => false

def ChatMessage.reasoningContent : ChatMessage → Option String
  | .assistant _ reasoningContent _ => reasoningContent
  | _ => none

@[simp] theorem ChatMessage.reasoningContent_withToolCalls (message : ChatMessage)
    (toolCalls : List ChatToolCall) :
    (message.withToolCalls toolCalls).reasoningContent = message.reasoningContent := by
  rcases message with _ | _ | ⟨content, reasoningContent, _ | toolCalls⟩ | _ <;> rfl

@[simp] theorem ChatMessage.isAssistant_withToolCalls (message : ChatMessage)
    (toolCalls : List ChatToolCall) :
    (message.withToolCalls toolCalls).isAssistant = message.isAssistant := by
  rcases message with _ | _ | ⟨content, reasoningContent, _ | toolCalls⟩ | _ <;> rfl

theorem ChatMessage.reasoningContent_of_not_assistant {message : ChatMessage}
    (h : message.isAssistant = false) : message.reasoningContent = none := by
  cases message with
  | assistant content reasoningContent toolCalls => cases h
  | _ => rfl

section Traces
variable {α : Type*} {view : α → ResponseItem} {codec : JsonCodec}

/-- The piece and the account of its reasoning come from these items, and its reasoning is that
of the account. -/
def Piece.Within (view : α → ResponseItem) (origin : α → Prop) : Piece α → Prop
  | .message source account m => origin source ∧ (∀ a ∈ account, origin a) ∧
      m.reasoningContent = account.bind fun a => itemReasoning (view a)
  | .call source _ => origin source

structure TracedMessage.Within (view : α → ResponseItem) (origin : α → Prop)
    (t : TracedMessage α) : Prop where
  sources : ∀ source ∈ t.sources, origin source
  account : ∀ a ∈ t.account, origin a
  reasoning : t.message.reasoningContent = t.account.bind fun a => itemReasoning (view a)

variable {origin origin' : α → Prop}

theorem Piece.Within.imp (himp : ∀ a, origin a → origin' a) {piece : Piece α}
    (h : piece.Within view origin) : piece.Within view origin' := by
  cases piece with
  | message source account message =>
    exact ⟨himp _ h.1, fun a ha => himp _ (h.2.1 a ha), h.2.2⟩
  | call source toolCall => exact himp _ h

variable {t : TracedMessage α} {pieces : List (Piece α)} {draft : Draft α} {hasToolCall : Bool}
  {sources : List α} {r : Draft α × List (Piece α)} {traced : List (TracedMessage α)}

theorem TracedMessage.Within.imp (himp : ∀ a, origin a → origin' a) (h : t.Within view origin) :
    t.Within view origin' :=
  ⟨fun s hs => himp _ (h.sources s hs), fun a ha => himp _ (h.account a ha), h.reasoning⟩

theorem assemble_within (h : ∀ piece ∈ pieces, piece.Within view origin) :
    (∀ call ∈ (assemble pieces).1, origin call.1) ∧
      ∀ t ∈ (assemble pieces).2, t.Within view origin := by
  induction pieces with
  | nil => exact ⟨forall_mem_nil _, forall_mem_nil _⟩
  | cons piece pieces ih =>
    obtain ⟨hpiece, hpieces⟩ := forall_mem_cons.mp h
    obtain ⟨hcalls, hmessages⟩ := ih hpieces
    cases piece with
    | call source toolCall =>
      exact ⟨forall_mem_cons.mpr ⟨hpiece, hcalls⟩, hmessages⟩
    | message source account message =>
      refine ⟨forall_mem_nil _, forall_mem_cons.mpr ⟨⟨?_, hpiece.2.1, ?_⟩, hmessages⟩⟩
      · simpa using ⟨hpiece.1, fun a call hcall => hcalls _ hcall⟩
      · simpa using hpiece.2.2

def Draft.Within (view : α → ResponseItem) (origin : α → Prop) (draft : Draft α) : Prop :=
  ∀ p ∈ draft.pending, origin p.1 ∧ itemReasoning (view p.1) = some p.2

theorem Draft.Within.bind_eq (h : draft.Within view origin) :
    draft.pending.map (·.2) = (draft.pending.map (·.1)).bind fun a => itemReasoning (view a) := by
  cases hp : draft.pending with
  | none => rfl
  | some p => simp [(h p hp).2]

theorem Draft.Within.nextPending (h : draft.Within view origin) {source : α}
    (hsource : origin source) (gathering : Bool) :
    Draft.Within view origin ⟨ChatMessages.nextPending view source draft.pending, gathering⟩ := by
  intro p hp
  unfold ChatMessages.nextPending at hp
  cases hv : view source with
  | reasoning id summary content encrypted =>
    simp only [hv, mem_def, map_eq_some_iff] at hp
    obtain ⟨text, htext, rfl⟩ := hp
    exact ⟨hsource, by simpa [hv, itemReasoning] using htext⟩
  | message id role content phase => simp [hv] at hp
  | _ =>
    simp only [hv] at hp
    exact h p hp

theorem step_within {next : Draft α} {source : α} (hdraft : draft.Within view origin)
    (hsource : origin source) (h : step codec view hasToolCall draft source = .ok (next, pieces)) :
    next.Within view origin ∧ ∀ piece ∈ pieces, piece.Within view origin := by
  have haccount : ∀ a ∈ draft.pending.map (·.1), origin a := by
    intro a ha
    obtain ⟨p, hp, rfl⟩ := map_eq_some_iff.mp ha
    exact (hdraft p hp).1
  cases hcall : isSupportedChatToolCall (view source) with
  | true =>
    obtain ⟨toolCall, htoolCall⟩ := chatToolCallFromItem_of_supported codec hcall
    rw [step_call htoolCall, Except.ok.injEq] at h
    split_ifs at h
    · obtain ⟨rfl, rfl⟩ := Prod.mk.inj h
      exact ⟨hdraft, by simpa [Piece.Within] using hsource⟩
    · obtain ⟨rfl, rfl⟩ := Prod.mk.inj h
      refine ⟨by simp [Draft.Within], ?_⟩
      simpa [Piece.Within, hsource] using ⟨by simpa using haccount, hdraft.bind_eq⟩
  | false => cases hassistant : isAssistantMessage (view source) with
    | true =>
      obtain ⟨text, hstep⟩ := step_assistant hassistant h
      rw [hstep] at h
      obtain ⟨rfl, rfl⟩ := h
      cases hasToolCall with
      | false => exact ⟨hdraft, by simp [Piece.Within, hsource, ChatMessage.reasoningContent]⟩
      | true =>
        refine ⟨by simp [Draft.Within], ?_⟩
        simpa [Piece.Within, hsource] using ⟨by simpa using haccount, hdraft.bind_eq⟩
    | false =>
      obtain ⟨message, hmessage, hstep⟩ := step_plain hcall hassistant h
      rw [hstep] at h
      obtain ⟨rfl, rfl⟩ := h
      refine ⟨hdraft.nextPending hsource false, ?_⟩
      intro piece hpiece
      obtain ⟨m, hm, rfl⟩ := map_eq_some_iff.mp (mem_toList.mp hpiece)
      exact ⟨hsource, by simp,
        by simp [ChatMessage.reasoningContent_of_not_assistant (hmessage m hm)]⟩

/-- A run traces all reasoning, if none was pending. -/
theorem run_within {gathering : Bool}
    (h : run (step codec view hasToolCall) ⟨none, gathering⟩ sources = .ok (draft, pieces)) :
    ∀ piece ∈ pieces, piece.Within view (· ∈ sources) := by
  have hrun := run_invariant
    (I := fun seen (draft : Draft α) pieces => draft.Within view (· ∈ seen) ∧
      ∀ piece ∈ pieces, Piece.Within view (· ∈ seen) piece)
    (fun seen draft pieces source next new hI hs => by
      have hmono : ∀ a, a ∈ seen → a ∈ seen ++ [source] := fun a ha => mem_append_left _ ha
      have hdraft : draft.Within view (· ∈ seen ++ [source]) :=
        fun p hp => (hI.1 p hp).imp_left (hmono p.1)
      obtain ⟨hnext, hnew⟩ := step_within hdraft (by simp) hs
      exact ⟨hnext, forall_mem_append.mpr
        ⟨fun piece hpiece => (hI.2 piece hpiece).imp hmono, hnew⟩⟩)
    [] ⟨by simp [Draft.Within], forall_mem_nil _⟩ h
  exact hrun.2

/-- No user message lies between these items. -/
def SameSegment (view : α → ResponseItem) (sources : List α) (xs : List α) : Prop :=
  ∃ before segment after, sources = before ++ segment ++ after ∧
    (∀ source ∈ segment, userContent (view source) = none) ∧ ∀ x ∈ xs, x ∈ segment

theorem SameSegment.append_left {xs : List α} (h : SameSegment view sources xs) (first : List α) :
    SameSegment view (first ++ sources) xs := by
  obtain ⟨before, segment, after, rfl, hsegment⟩ := h
  exact ⟨first ++ before, segment, after, by simp, hsegment⟩

/-- A message comes from items of the history, and its reasoning from the same segment. -/
structure TracedMessage.Local (view : α → ResponseItem) (sources : List α) (t : TracedMessage α) :
    Prop where
  within : t.Within view (· ∈ sources)
  segment : ∀ a ∈ t.account, SameSegment view sources (a :: t.sources)

theorem TracedMessage.Local.append_left (h : t.Local view sources) (first : List α) :
    t.Local view (first ++ sources) :=
  ⟨h.within.imp fun _ ha => mem_append_right _ ha, fun a ha => (h.segment a ha).append_left first⟩

theorem local_of_segmentRun {segment rest : List α}
    (huser : ∀ source ∈ segment, userContent (view source) = none)
    (h : segmentRun codec view segment = .ok r) :
    ∀ t ∈ (assemble r.2).2, t.Local view (segment ++ rest) := by
  intro t ht
  have hwithin := (assemble_within (run_within h)).2 t ht
  refine ⟨hwithin.imp fun _ ha => mem_append_left _ ha, fun a ha => ?_⟩
  exact ⟨[], segment, rest, rfl, huser, forall_mem_cons.mpr ⟨hwithin.account a ha, hwithin.sources⟩⟩

theorem within_user {user : α} {content : List ContentItem} {message : ChatMessage}
    (hmessage : chatMessageFromContent "user" content none = .ok message) (huser : origin user) :
    TracedMessage.Within view origin ⟨message, [user], none⟩ where
  sources := by simpa using huser
  account := by simp
  reasoning := ChatMessage.reasoningContent_of_not_assistant
    (isAssistant_of_chatMessageFromContent (by decide) hmessage)

/-- Reasoning never leaves its segment. -/
theorem tracedLoop_local {segment : List α}
    (huser : ∀ source ∈ segment, userContent (view source) = none)
    (h : tracedLoop codec view segment sources = .ok traced) :
    ∀ t ∈ traced, t.Local view (segment ++ sources) := by
  induction sources generalizing segment traced with
  | nil =>
    obtain ⟨r, hr, rfl⟩ := map_eq_ok.mp h
    exact local_of_segmentRun huser hr
  | cons source sources ih =>
    rw [tracedLoop] at h
    cases hu : userContent (view source) with
    | none =>
      rw [hu] at h
      have hsegment : ∀ s ∈ segment ++ [source], userContent (view s) = none :=
        forall_mem_append.mpr ⟨huser, by simpa using hu⟩
      simpa using ih hsegment h
    | some content =>
      simp only [hu] at h
      obtain ⟨r, hr, h⟩ := bind_eq_ok.mp h
      obtain ⟨message, hmessage, h⟩ := bind_eq_ok.mp h
      obtain ⟨later, hlater, rfl⟩ := map_eq_ok.mp h
      refine forall_mem_append.mpr ⟨local_of_segmentRun huser hr,
        forall_mem_cons.mpr ⟨⟨within_user hmessage (by simp), by simp⟩, fun t ht => ?_⟩⟩
      have hlocal := ih (forall_mem_nil _) hlater t ht
      simpa using hlocal.append_left (segment ++ [source])

theorem tracedMessages_local (h : tracedMessages codec view sources = .ok traced) :
    ∀ t ∈ traced, t.Local view sources :=
  tracedLoop_local (forall_mem_nil _) h

theorem traced_of_segment_append {segment after : List α}
    (hsegment : ∀ source ∈ segment, userContent (view source) = none)
    (h : tracedMessages codec view (segment ++ after) = .ok traced) :
    ∃ r later, segmentRun codec view (segment ++ firstSegment view after) = .ok r ∧
      traced = (assemble r.2).2 ++ later ∧ ∀ t ∈ later, t.Within view (· ∈ after) := by
  have hfirst := forall_mem_append.mpr ⟨hsegment, not_user_firstSegment view after⟩
  rcases eq_firstSegment view after with heq | ⟨user, rest, content, heq, hu⟩
  · rw [heq] at hfirst ⊢
    obtain ⟨r, hr, rfl⟩ := segmentRun_of_tracedMessages hfirst h
    exact ⟨r, [], hr, by simp, forall_mem_nil _⟩
  · generalize firstSegment view after = last at heq hfirst ⊢
    subst heq
    rw [← append_assoc] at h
    obtain ⟨start, message, later, hstart, hmessage, hlater, rfl⟩ := traced_of_append_user hu h
    obtain ⟨r, hr, rfl⟩ := segmentRun_of_tracedMessages hfirst hstart
    refine ⟨r, _, hr, rfl, forall_mem_cons.mpr ⟨within_user hmessage (by simp), ?_⟩⟩
    intro t ht
    exact (tracedMessages_local hlater t ht).within.imp fun _ ha => by simp [ha]

/-- The messages of a history around items without a user message. -/
theorem traced_around_segment {before segment after : List α}
    (hsegment : ∀ source ∈ segment, userContent (view source) = none)
    (h : tracedMessages codec view (before ++ (segment ++ after)) = .ok traced) :
    ∃ earlier r later, segmentRun codec view
        (lastSegment view before ++ segment ++ firstSegment view after) = .ok r ∧
      traced = earlier ++ ((assemble r.2).2 ++ later) ∧
      (∀ t ∈ earlier, t.Within view (· ∈ before)) ∧ ∀ t ∈ later, t.Within view (· ∈ after) := by
  have hlast := forall_mem_append.mpr ⟨not_user_lastSegment view before, hsegment⟩
  rcases eq_lastSegment view before with heq | ⟨first, user, content, heq, hu⟩
  · rw [heq] at hlast ⊢
    rw [← append_assoc] at h
    obtain ⟨r, later, hr, rfl, hlater⟩ := traced_of_segment_append hlast h
    exact ⟨[], r, later, hr, rfl, forall_mem_nil _, hlater⟩
  · generalize lastSegment view before = last at heq hlast ⊢
    subst heq
    rw [append_assoc, cons_append, ← append_assoc last] at h
    obtain ⟨start, message, rest, hstart, hmessage, hrest, rfl⟩ := traced_of_append_user hu h
    obtain ⟨r, later, hr, rfl, hlater⟩ := traced_of_segment_append hlast hrest
    refine ⟨start ++ [⟨message, [user], none⟩], r, later, hr, by simp,
      forall_mem_append.mpr ⟨fun t ht => ?_, ?_⟩, hlater⟩
    · exact (tracedMessages_local hstart t ht).within.imp fun _ ha => mem_append_left _ ha
    · exact forall_mem_singleton.mpr (within_user hmessage (by simp))

/-- A reasoning item with a text, and the next assistant message or tool call after it, with no
message in between. -/
structure BindingSite (view : α → ResponseItem) (sources : List α) where
  before : List α
  reasoning : α
  between : List α
  target : α
  after : List α
  text : String
  sources_eq : sources = before ++ reasoning :: (between ++ target :: after)
  text_eq : itemReasoning (view reasoning) = some text
  between_plain : ∀ source ∈ between, isMessage (view source) = false ∧
    isSupportedChatToolCall (view source) = false
  target_binds : isAssistantMessage (view target) = true ∨
    isSupportedChatToolCall (view target) = true

namespace BindingSite
variable (site : BindingSite view sources)

def later : List α := site.between ++ site.target :: site.after

def segment : List α :=
  lastSegment view site.before ++ site.reasoning :: (site.between ++ site.target ::
    firstSegment view site.after)

def inToolTurn : Bool := site.segment.any fun source => isSupportedChatToolCall (view source)

def pending : Option (α × String) :=
  site.between.foldl (fun pending source => nextPending view source pending)
    (some (site.reasoning, site.text))

/-- The text of the last reasoning item before the target contains that of the reasoning. -/
def Kept : Prop := ∃ p ∈ site.pending, site.text.toList <:+: p.2.toList

/-- The first assistant message from an item after the reasoning contains its text, and no other
message has its reasoning from it. -/
def Bound (traced : List (TracedMessage α)) : Prop :=
  ∃ earlier t rest, traced = earlier ++ t :: rest ∧
    (t.message.isAssistant = true ∧ ∃ source ∈ t.sources, source ∈ site.later) ∧
    (∀ e ∈ earlier, ¬ (e.message.isAssistant = true ∧ ∃ source ∈ e.sources, source ∈ site.later)) ∧
    (∃ text ∈ t.message.reasoningContent, site.text.toList <:+: text.toList) ∧
    ∀ e ∈ earlier ++ rest, e.account ≠ some site.reasoning

/-- The binding rule: the reasoning is bound in a segment with tool calls, and dropped in one
without. -/
def Rule (traced : List (TracedMessage α)) : Prop :=
  if site.inToolTurn then site.Bound traced
  else ∀ t ∈ traced, t.account ≠ some site.reasoning

end BindingSite

theorem isAssistantMessage_of_not_message {item : ResponseItem} (h : isMessage item = false) :
    isAssistantMessage item = false := by
  cases item with
  | message id role content phase => cases h
  | _ => rfl

/-- Items between the reasoning and its target change what is pending, and take nothing. -/
theorem run_between {between : List α}
    (hplain : ∀ source ∈ between, isMessage (view source) = false ∧
      isSupportedChatToolCall (view source) = false) {pending : Option (α × String)}
    (h : run (step codec view hasToolCall) ⟨pending, false⟩ between = .ok (draft, pieces)) :
    draft = ⟨between.foldl (fun pending source => nextPending view source pending) pending, false⟩ ∧
      ∀ t ∈ (assemble pieces).2, t.message.isAssistant = false ∧ t.account = none := by
  induction between generalizing pending draft pieces with
  | nil =>
    obtain ⟨rfl, rfl⟩ := h
    exact ⟨rfl, forall_mem_nil _⟩
  | cons source between ih =>
    obtain ⟨hsource, hplain⟩ := forall_mem_cons.mp hplain
    obtain ⟨next, first, rest, hs, hrest, rfl⟩ := run_cons_eq_ok.mp h
    obtain ⟨message, hmessage, hstep⟩ :=
      step_plain hsource.2 (isAssistantMessage_of_not_message hsource.1) hs
    rw [hstep] at hs
    obtain ⟨rfl, rfl⟩ := hs
    obtain ⟨hdraft, hlater⟩ := ih hplain hrest
    refine ⟨hdraft, ?_⟩
    rw [assemble_append (assemble_run_fst hrest)]
    refine forall_mem_append.mpr ⟨?_, hlater⟩
    cases message with
    | none => exact forall_mem_nil _
    | some m =>
      exact forall_mem_singleton.mpr ⟨by simpa [assemble] using hmessage m rfl, rfl⟩

/-- In a segment with tool calls the target takes what is pending. -/
theorem step_target {target : α} (htarget : isAssistantMessage (view target) = true ∨
      isSupportedChatToolCall (view target) = true) {pending : Option (α × String)}
    (h : step codec view true ⟨pending, false⟩ target = .ok (draft, pieces)) :
    draft = ⟨none, true⟩ ∧ ∃ (m : ChatMessage) (toolCalls : List ChatToolCall),
      pieces = .message target (pending.map (·.1)) m :: toolCalls.map (.call target) ∧
      m.isAssistant = true ∧ m.reasoningContent = pending.map (·.2) := by
  rcases htarget with hassistant | hcall
  · obtain ⟨text, hstep⟩ := step_assistant hassistant h
    rw [hstep] at h
    obtain ⟨rfl, rfl⟩ := h
    exact ⟨rfl, _, [], rfl, rfl, rfl⟩
  · obtain ⟨toolCall, htoolCall⟩ := chatToolCallFromItem_of_supported codec hcall
    rw [step_call htoolCall] at h
    obtain ⟨rfl, rfl⟩ := h
    exact ⟨rfl, _, [toolCall], rfl, rfl, rfl⟩

theorem assemble_toolCalls (target : α) (toolCalls : List ChatToolCall) (pieces : List (Piece α)) :
    assemble (toolCalls.map (Piece.call target) ++ pieces) =
      (toolCalls.map (target, ·) ++ (assemble pieces).1, (assemble pieces).2) := by
  induction toolCalls with
  | nil => rfl
  | cons toolCall toolCalls ih => simp [assemble, ih]

theorem step_reasoning {reasoning : α} {text : String}
    (h : itemReasoning (view reasoning) = some text) :
    step codec view hasToolCall draft reasoning = .ok (⟨some (reasoning, text), false⟩, []) := by
  unfold step
  cases hv : view reasoning with
  | reasoning id summary content encrypted =>
    have htext : reasoningContentText content = some text := by
      simpa [hv, itemReasoning] using h
    simp [htext]
  | _ => simp [hv, itemReasoning] at h

theorem first_unique {β : Type*} {P : β → Prop} {xs ys xs' ys' : List β} {t t' : β}
    (heq : xs ++ t :: ys = xs' ++ t' :: ys') (hxs : ∀ x ∈ xs, ¬ P x) (ht : P t)
    (hxs' : ∀ x ∈ xs', ¬ P x) (ht' : P t') : t = t' := by
  classical
  have hfind : (xs ++ t :: ys).find? (P ·) = some t :=
    find?_eq_some_iff_append.mpr ⟨by simp [ht], xs, ys, rfl, by simpa using hxs⟩
  have hfind' : (xs ++ t :: ys).find? (P ·) = some t' :=
    find?_eq_some_iff_append.mpr ⟨by simp [ht'], xs', ys', heq, by simpa using hxs'⟩
  exact Option.some.inj (hfind.symm.trans hfind')

namespace BindingSite
variable (site : BindingSite view sources)

/-- The messages of a segment with tool calls: those before the target's come from items before
the reasoning or are no assistant messages, and those after it from items after the target. -/
theorem messages_of_toolTurn (htool : site.inToolTurn = true)
    (hr : segmentRun codec view site.segment = .ok r) :
    ∃ start answers t rest, (assemble r.2).2 = start ++ (answers ++ t :: rest) ∧
      (∀ e ∈ start, e.Within view (· ∈ lastSegment view site.before)) ∧
      (∀ e ∈ answers, e.message.isAssistant = false ∧ e.account = none) ∧
      (t.message.isAssistant = true ∧ site.target ∈ t.sources ∧
        t.message.reasoningContent = site.pending.map (·.2)) ∧
      ∀ e ∈ rest, e.Within view (· ∈ firstSegment view site.after) := by
  rw [segmentRun, ← inToolTurn, htool] at hr
  obtain ⟨d₀, start, p₁, hstart, hr₁, hpieces⟩ := run_append_eq_ok.mp hr
  obtain ⟨d₁, unread, p₂, hreasoning, hr₂, rfl⟩ := run_cons_eq_ok.mp hr₁
  rw [step_reasoning site.text_eq] at hreasoning
  obtain ⟨rfl, rfl⟩ := hreasoning
  rw [nil_append] at hpieces
  have hlater := assemble_run_fst hr₂
  obtain ⟨d₂, middle, p₃, hbetween, hr₃, rfl⟩ := run_append_eq_ok.mp hr₂
  obtain ⟨rfl, hmiddle⟩ := run_between site.between_plain hbetween
  have htaken := assemble_run_fst hr₃
  obtain ⟨d₃, taken, p₄, htarget, hlast, rfl⟩ := run_cons_eq_ok.mp hr₃
  obtain ⟨rfl, m, toolCalls, rfl, hm, hreasoning⟩ := step_target site.target_binds htarget
  have hassembled : (assemble r.2).2 = (assemble start).2 ++ ((assemble middle).2 ++
      ⟨m.withToolCalls ((toolCalls.map (site.target, ·) ++ (assemble p₄).1).map (·.2)),
        site.target :: (toolCalls.map (site.target, ·) ++ (assemble p₄).1).map (·.1),
        site.pending.map (·.1)⟩ :: (assemble p₄).2) := by
    rw [hpieces, assemble_append hlater, assemble_append htaken, cons_append, assemble,
      assemble_toolCalls]
    rfl
  refine ⟨_, _, _, _, hassembled, (assemble_within (run_within hstart)).2, hmiddle, ?_,
    (assemble_within (run_within hlast)).2⟩
  exact ⟨by simpa using hm, mem_cons_self,
    (ChatMessage.reasoningContent_withToolCalls _ _).trans hreasoning⟩

/-- In a segment without tool calls no message has reasoning. -/
theorem account_of_no_call {segment : List α}
    (hcalls : (segment.any fun source => isSupportedChatToolCall (view source)) = false)
    (hr : run (step codec view false) draft segment = .ok r) :
    (assemble r.2).1 = [] ∧ ∀ t ∈ (assemble r.2).2, t.account = none := by
  obtain ⟨last, pieces⟩ := r
  induction segment generalizing draft pieces with
  | nil =>
    obtain ⟨rfl, rfl⟩ := hr
    exact ⟨rfl, forall_mem_nil _⟩
  | cons source segment ih =>
    simp only [any_cons, Bool.or_eq_false_iff] at hcalls
    obtain ⟨next, first, rest, hs, hrest, rfl⟩ := run_cons_eq_ok.mp hr
    obtain ⟨hnone, hlater⟩ := ih hcalls.2 rest hrest
    rw [assemble_append hnone]
    cases hassistant : isAssistantMessage (view source) with
    | true =>
      obtain ⟨text, hstep⟩ := step_assistant hassistant hs
      rw [hstep] at hs
      obtain ⟨rfl, rfl⟩ := hs
      exact ⟨rfl, forall_mem_cons.mpr ⟨rfl, hlater⟩⟩
    | false =>
      obtain ⟨message, -, hstep⟩ := step_plain hcalls.1 hassistant hs
      rw [hstep] at hs
      obtain ⟨rfl, rfl⟩ := hs
      cases message with
      | none => exact ⟨rfl, hlater⟩
      | some m => exact ⟨rfl, forall_mem_cons.mpr ⟨rfl, hlater⟩⟩

theorem userContent_of_not_message {item : ResponseItem} (h : isMessage item = false) :
    userContent item = none := by
  cases item with
  | message id role content phase => cases h
  | _ => rfl

theorem not_user_middle : ∀ source ∈ site.reasoning :: (site.between ++ [site.target]),
    userContent (view source) = none := by
  have hreasoning : userContent (view site.reasoning) = none := by
    have htext := site.text_eq
    cases hv : view site.reasoning with
    | message id role content phase => simp [hv, itemReasoning] at htext
    | _ => rfl
  have htarget : userContent (view site.target) = none := by
    have hbinds := site.target_binds
    cases hv : view site.target with
    | message id role content phase =>
      have hrole : role = "assistant" := by
        simpa [hv, isAssistantMessage, isSupportedChatToolCall] using hbinds
      simp [userContent, hrole]
    | _ => rfl
  refine forall_mem_cons.mpr ⟨hreasoning, forall_mem_append.mpr ⟨fun source hsource => ?_,
    forall_mem_singleton.mpr htarget⟩⟩
  exact userContent_of_not_message (site.between_plain source hsource).1

theorem traced_eq (h : tracedMessages codec view sources = .ok traced) :
    ∃ earlier r later, segmentRun codec view site.segment = .ok r ∧
      traced = earlier ++ ((assemble r.2).2 ++ later) ∧
      (∀ t ∈ earlier, t.Within view (· ∈ site.before)) ∧
      ∀ t ∈ later, t.Within view (· ∈ site.after) := by
  have hsources : sources = site.before ++
      (site.reasoning :: (site.between ++ [site.target]) ++ site.after) := by
    simpa using site.sources_eq
  rw [hsources] at h
  simpa [segment] using traced_around_segment site.not_user_middle h

/-- The rule holds at a site, if and only if the reasoning is not overwritten by other text. -/
theorem rule_iff (hnodup : sources.Nodup) (h : tracedMessages codec view sources = .ok traced) :
    site.Rule traced ↔ (site.inToolTurn = true → site.Kept) := by
  rw [site.sources_eq, nodup_middle, nodup_cons, mem_append, not_or, nodup_append] at hnodup
  obtain ⟨⟨hbefore, hlater⟩, -, -, hdisjoint⟩ := hnodup
  have hafter : site.reasoning ∉ site.after := fun ha => hlater (by simp [ha])
  obtain ⟨earlier, r, rest, hr, rfl, hearlier, hrest⟩ := site.traced_eq h
  have hearlier' : ∀ e ∈ earlier, e.account ≠ some site.reasoning :=
    fun e he ha => hbefore ((hearlier e he).account _ ha)
  have hrest' : ∀ e ∈ rest, e.account ≠ some site.reasoning :=
    fun e he ha => hafter ((hrest e he).account _ ha)
  cases htool : site.inToolTurn with
  | false =>
    rw [segmentRun, ← inToolTurn, htool] at hr
    have hnone := (account_of_no_call htool hr).2
    rw [Rule, htool]
    refine iff_of_true ?_ (by simp)
    refine forall_mem_append.mpr ⟨hearlier', forall_mem_append.mpr ⟨fun t ht => ?_, hrest'⟩⟩
    simp [hnone t ht]
  | true =>
    obtain ⟨start, answers, t, last, hmessages, hstart, hanswers, ⟨ht, htarget, hreasoning⟩,
      hlast⟩ := site.messages_of_toolTurn htool hr
    have hsplit : earlier ++ ((assemble r.2).2 ++ rest) =
        earlier ++ (start ++ answers) ++ t :: (last ++ rest) := by
      simp [hmessages]
    have hstart' : ∀ e ∈ start, e.Within view (· ∈ site.before) :=
      fun e he => (hstart e he).imp fun a ha => (rtakeWhile_suffix _ _).subset ha
    have hlast' : ∀ e ∈ last, e.account ≠ some site.reasoning :=
      fun e he ha => hafter ((takeWhile_sublist _).subset ((hlast e he).account _ ha))
    have hfirst : t.message.isAssistant = true ∧ ∃ source ∈ t.sources, source ∈ site.later :=
      ⟨ht, _, htarget, by simp [BindingSite.later]⟩
    have hothers : ∀ e ∈ earlier ++ (start ++ answers),
        ¬ (e.message.isAssistant = true ∧ ∃ source ∈ e.sources, source ∈ site.later) := by
      have hwithin : ∀ e : TracedMessage α, e.Within view (· ∈ site.before) →
          ¬ (e.message.isAssistant = true ∧ ∃ source ∈ e.sources, source ∈ site.later) := by
        rintro e he ⟨-, source, hsource, hl⟩
        exact hdisjoint source (he.sources source hsource) source hl rfl
      refine forall_mem_append.mpr ⟨fun e he => hwithin e (hearlier e he),
        forall_mem_append.mpr ⟨fun e he => hwithin e (hstart' e he), fun e he => ?_⟩⟩
      simp [(hanswers e he).1]
    have haccounts : ∀ e ∈ earlier ++ (start ++ answers) ++ (last ++ rest),
        e.account ≠ some site.reasoning := by
      refine forall_mem_append.mpr ⟨forall_mem_append.mpr ⟨hearlier',
        forall_mem_append.mpr ⟨fun e he ha => ?_, fun e he => ?_⟩⟩,
        forall_mem_append.mpr ⟨hlast', hrest'⟩⟩
      · exact hbefore ((hstart' e he).account _ ha)
      · simp [(hanswers e he).2]
    have hkept : site.Kept ↔ ∃ text ∈ t.message.reasoningContent,
        site.text.toList <:+: text.toList := by
      simp only [hreasoning, mem_def, map_eq_some_iff]
      constructor
      · rintro ⟨p, hp, htext⟩
        exact ⟨p.2, ⟨p, hp, rfl⟩, htext⟩
      · rintro ⟨_, ⟨p, hp, rfl⟩, htext⟩
        exact ⟨p, hp, htext⟩
    rw [Rule, htool, hsplit]
    constructor
    · rintro ⟨earlier', t', rest', heq, ht', hothers', hcontains, -⟩ -
      obtain rfl := first_unique heq hothers hfirst hothers' ht'
      exact hkept.mpr hcontains
    · intro hrule
      exact ⟨_, t, _, rfl, hfirst, hothers, hkept.mp (hrule rfl), haccounts⟩

end BindingSite

end Traces

/-- What the messages of a history carry: reasoning stays in its segment, and a reasoning item is
bound by the rule, if and only if the last reasoning item before its message keeps its text. -/
theorem reasoning_binding_iff (codec : JsonCodec) (items : List ResponseItem)
    (messages : List ChatMessage) (h : chatMessagesFromItems codec items = .ok messages) :
    ∃ traced, tracedMessages codec Prod.fst items.zipIdx = .ok traced ∧
      messages = traced.map (·.message) ∧ (∀ t ∈ traced, t.Local Prod.fst items.zipIdx) ∧
      ∀ site : BindingSite Prod.fst items.zipIdx,
        site.Rule traced ↔ (site.inToolTurn = true → site.Kept) := by
  have hitems : items.zipIdx.map Prod.fst = items := by simp
  rw [← hitems] at h
  obtain ⟨traced, htraced, rfl⟩ := traced_of_chatMessagesFromItems Prod.fst h
  refine ⟨traced, htraced, rfl, tracedMessages_local htraced, fun site => site.rule_iff ?_ htraced⟩
  exact List.Nodup.of_map Prod.snd (nodup_zipIdx_map_snd items)

def reasonedCallSite : BindingSite Prod.fst reasonedCall.zipIdx where
  before := [(.message none "user" [.inputText "q"] none, 0)]
  reasoning := (.reasoning "r" [] (some [.reasoningText "think"]) none, 1)
  between := []
  target := (.functionCall none "shell" none "args" "c1", 2)
  after := [(.functionCallOutput "c1" (.fromText "done"), 3)]
  text := "think"
  sources_eq := rfl
  text_eq := rfl
  between_plain := by simp
  target_binds := by decide

theorem reasoned_call_bound :
    ∃ traced, tracedMessages OneFieldJson.codec Prod.fst reasonedCall.zipIdx = .ok traced ∧
      reasonedCallSite.Rule traced := by
  obtain ⟨traced, htraced, -, -, hrule⟩ :=
    reasoning_binding_iff OneFieldJson.codec reasonedCall _ rfl
  exact ⟨traced, htraced, (hrule reasonedCallSite).mpr fun _ => ⟨_, rfl, infix_refl _⟩⟩

def overwrittenReasoning : List ResponseItem :=
  [.reasoning "r1" [] (some [.reasoningText "a"]) none,
    .reasoning "r2" [] (some [.reasoningText "b"]) none,
    .functionCall none "shell" none "args" "c1"]

def overwrittenSite : BindingSite Prod.fst overwrittenReasoning.zipIdx where
  before := []
  reasoning := (.reasoning "r1" [] (some [.reasoningText "a"]) none, 0)
  between := [(.reasoning "r2" [] (some [.reasoningText "b"]) none, 1)]
  target := (.functionCall none "shell" none "args" "c1", 2)
  after := []
  text := "a"
  sources_eq := rfl
  text_eq := rfl
  between_plain := by decide
  target_binds := by decide

/-- A second reasoning item overwrites the first, which no message carries. -/
theorem overwritten_reasoning_unbound :
    ∃ traced, chatMessagesFromItems OneFieldJson.codec overwrittenReasoning =
        .ok [.assistant none (some "b") (some [⟨"c1", "shell", "args"⟩])] ∧
      tracedMessages OneFieldJson.codec Prod.fst overwrittenReasoning.zipIdx = .ok traced ∧
      ¬ overwrittenSite.Rule traced := by
  have htraced : ∃ traced, tracedMessages OneFieldJson.codec Prod.fst
      overwrittenReasoning.zipIdx = .ok traced := ⟨_, rfl⟩
  obtain ⟨traced, htraced⟩ := htraced
  refine ⟨traced, rfl, htraced, fun hrule => ?_⟩
  have hkept := (overwrittenSite.rule_iff (by decide) htraced).mp hrule
  obtain ⟨p, hp, htext⟩ := hkept rfl
  obtain rfl := some.inj hp
  exact absurd htext (by decide)

end DeepseekX.ChatMessages
