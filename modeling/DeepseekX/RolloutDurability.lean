import DeepseekX.LineSplitting
import DeepseekX.RolloutWriter

/-!
# What a rollout file holds after a barrier

A failed write is tried again on the same file. Where it has left part of its line, the next
attempt continues that line; where a line was written and only its flush failed, the next
attempt writes the line again. While failing writes leave nothing and written lines are
flushed, the file holds the written items and the queue the others, and an acknowledged
barrier has emptied the queue.
-/

namespace DeepseekX.RolloutWriter
open FallibleActions PatchParsing SeekSequence List

variable {Id Payload : Type} {codec : LineCodec Id Payload}

section Texts
variable (written : List (codec.Time × RolloutItem Id Payload))

def rolloutText : String :=
  String.ofList (written.flatMap fun entry => (codec.encode entry.1 entry.2).toList ++ ['\n'])

theorem rolloutText_concat
    (time : codec.Time) (item : RolloutItem Id Payload) :
    rolloutText (written ++ [(time, item)]) =
      rolloutText written ++ (codec.encode time item ++ "\n") := by
  rw [rolloutText, rolloutText, flatMap_append, String.ofList_append, flatMap_singleton,
    String.ofList_append, String.ofList_toList]

theorem textLines_rolloutText :
    textLines (rolloutText written) = written.map fun entry => codec.encode entry.1 entry.2 := by
  have hflat : (rolloutText written).toList =
      ((written.map fun entry => (codec.encode entry.1 entry.2).toList).flatMap
        (· ++ ['\n'])) ++ [] := by
    rw [rolloutText, String.toList_ofList, flatMap_map, append_nil]
  have hsegments : ∀ segment ∈ written.map fun entry => (codec.encode entry.1 entry.2).toList,
      '\n' ∉ segment := by
    intro segment hsegment
    obtain ⟨entry, -, rfl⟩ := mem_map.mp hsegment
    exact codec.newline_notMem entry.1 entry.2
  rw [textLines, hflat, LineSplitting.splitOn_terminated hsegments not_mem_nil,
    linesOfSegments_concat, if_pos rfl, append_nil, map_map]
  refine map_congr_left fun entry _ => ?_
  change String.ofList (dropCarriageReturn (codec.encode entry.1 entry.2).toList) = _
  rw [dropCarriageReturn, if_neg (codec.getLast?_ne entry.1 entry.2), String.ofList_toList]

theorem foldl_noteItem {loaded : LoadedRollout Id Payload} {id : Id}
    (hid : loaded.threadId = some id) (items : List (RolloutItem Id Payload)) :
    items.foldl noteItem loaded =
      { loaded with items := loaded.items ++ items, threadId := some id } := by
  induction items generalizing loaded with
  | nil => simp [← hid]
  | cons item items ih =>
    have hnote : noteItem loaded item =
        { loaded with items := loaded.items ++ [item], threadId := some id } := by
      cases item <;> simp [noteItem, hid]
    rw [foldl_cons, hnote, ih rfl]
    simp

theorem fromUTF8?_toUTF8 (text : String) : String.fromUTF8? text.toUTF8 = some text := by
  unfold String.fromUTF8?
  rw [String.toUTF8_eq_toByteArray, dif_pos text.isValidUTF8]
  rfl

/-- A file of written items loads as these items. -/
theorem loadRolloutItems_rolloutText (time : codec.Time) (session : SessionMeta Id Payload)
    (git : Option Payload) (rest : List (codec.Time × RolloutItem Id Payload)) :
    loadRolloutItems codec (some (rolloutText ((time, .sessionMeta session git) :: rest)).toUTF8) =
      .ok ⟨.sessionMeta session git :: rest.map Prod.snd, some session.id, 0⟩ := by
  have hfold : ∀ (written : List (codec.Time × RolloutItem Id Payload)) loaded,
      (written.map fun entry => codec.encode entry.1 entry.2).foldl (loadLine codec) loaded =
        (written.map Prod.snd).foldl noteItem loaded := by
    intro written loaded
    rw [foldl_map, foldl_map]
    refine foldl_ext _ _ _ fun loaded entry _ => ?_
    obtain ⟨value, hstr, hstrip, hvalue⟩ := codec.fromStr_encode entry.1 entry.2
    simp only [loadLine, if_neg (codec.trim_ne entry.1 entry.2), hstr, hstrip, hvalue]
  have hblank : trim (rolloutText ((time, .sessionMeta session git) :: rest)) ≠ "" := by
    intro h
    rw [trim_eq_empty_iff, rolloutText] at h
    refine codec.trim_ne time (.sessionMeta session git) (trim_eq_empty_iff.mpr fun c hc => ?_)
    exact h c (by simp [hc])
  rw [loadRolloutItems, fromUTF8?_toUTF8]
  dsimp only
  rw [if_neg hblank, textLines_rolloutText, hfold, map_cons, foldl_cons, foldl_noteItem rfl]
  rfl

end Texts

variable {answers : ℕ → Answer codec} {session : SessionMeta Id Payload}
  {added : List (RolloutItem Id Payload)}

section Invariant

/-- Of the calls so far, a failing write has left nothing in the file, and a line that was
written has been flushed. -/
def Clean (answers : ℕ → Answer codec) (state : RolloutWriterState Id Payload) : Prop :=
  ∀ n ∈ state.lineCalls, match (answers n).writeFailsAfter with
    | some kept => kept = 0
    | none => (answers n).lineFlushes = true

/-- The items stand in the file as far as they are written, the others in the queue; the
session meta goes first. -/
def Stored (codec : LineCodec Id Payload) (session : SessionMeta Id Payload)
    (added : List (RolloutItem Id Payload)) (state : RolloutWriterState Id Payload) : Prop :=
  (state.sessionMeta = some session ∧ state.file.getD ByteArray.empty = ByteArray.empty ∧
    state.pendingItems = added) ∨
  (state.sessionMeta = none ∧ state.deferred = false ∧
    ∃ (time : codec.Time) (git : Option Payload)
        (rest : List (codec.Time × RolloutItem Id Payload)),
      state.file = some (rolloutText ((time, .sessionMeta session git) :: rest)).toUTF8 ∧
        rest.map Prod.snd ++ state.pendingItems = added)

/-- A handle is held on a file that exists, and after that nothing is deferred. -/
def Kept (codec : LineCodec Id Payload) (session : SessionMeta Id Payload)
    (added : List (RolloutItem Id Payload)) (state : RolloutWriterState Id Payload) : Prop :=
  (state.opened = true → (∃ bytes, state.file = some bytes) ∧ state.deferred = false) ∧
    Stored codec session added state

/-- Nothing waits to be written. -/
def Emptied (state : RolloutWriterState Id Payload) : Prop :=
  state.sessionMeta = none ∧ state.pendingItems = []

variable {state : RolloutWriterState Id Payload}

def called (state : RolloutWriterState Id Payload) : RolloutWriterState Id Payload :=
  { state with tick := state.tick + 1, lineCalls := state.lineCalls ++ [state.tick] }

theorem Clean.before_called (h : Clean answers (called state)) : Clean answers state :=
  fun n hn => h n (mem_append_left _ hn)

variable (answers state) in
theorem writeRolloutItem_cases (item : RolloutItem Id Payload) :
    (∃ file error, writeRolloutItem answers state item =
        ({ called state with file := file }, .error error) ∧
      (Clean answers (called state) → file = state.file)) ∨
    writeRolloutItem answers state item =
      ({ called state with
          file := state.file.map
            (· ++ (codec.encode (answers state.tick).time item ++ "\n").toUTF8) }, .ok ()) := by
  have hcalled : state.tick ∈ (called state).lineCalls := mem_append_right _ mem_cons_self
  unfold writeRolloutItem
  dsimp only
  cases hwrite : (answers state.tick).writeFailsAfter with
  | some kept =>
    refine .inl ⟨_, _, rfl, fun hclean => ?_⟩
    have htick := hclean state.tick hcalled
    rw [hwrite] at htick
    obtain rfl : kept = 0 := htick
    cases state.file <;> simp
  | none =>
    dsimp only
    split
    · exact .inr rfl
    · rename_i hflush
      refine .inl ⟨_, _, rfl, fun hclean => ?_⟩
      have htick := hclean state.tick hcalled
      rw [hwrite] at htick
      exact absurd htick hflush

theorem ensureWriterOpen_keeps :
    Keeps (Clean answers) (Kept codec session added) (fun _ => True)
      (fun state => state.opened = true) (ensureWriterOpen answers) := by
  intro state
  unfold ensureWriterOpen
  split
  · rename_i hopened
    exact fun hclean => ⟨hclean, fun hkept _ => ⟨hkept, fun _ => hopened⟩⟩
  · split
    · refine fun hclean => ⟨hclean, fun hkept _ => ⟨⟨fun _ => ⟨⟨_, rfl⟩, rfl⟩, ?_⟩, fun _ => rfl⟩⟩
      rcases hkept.2 with ⟨hmeta, hfile, hpending⟩ | ⟨hmeta, -, time, git, rest, hfile, hpending⟩
      · exact .inl ⟨hmeta, hfile, hpending⟩
      · exact .inr ⟨hmeta, rfl, time, git, rest, by rw [hfile]; rfl, hpending⟩
    · exact fun hclean => ⟨hclean, fun hkept _ => ⟨hkept, nofun⟩⟩

theorem writeSessionMetaIfNeeded_keeps :
    Keeps (Clean answers) (Kept codec session added) (fun state => state.opened = true)
      (fun state => state.opened = true ∧ state.sessionMeta = none)
      (writeSessionMetaIfNeeded answers) := by
  intro state
  unfold writeSessionMetaIfNeeded
  cases hmeta : state.sessionMeta with
  | none => exact fun hclean => ⟨hclean, fun hkept hopened => ⟨hkept, fun _ => ⟨hopened, hmeta⟩⟩⟩
  | some waiting =>
    dsimp only
    by_cases hopened : state.opened
    · rw [writeSessionMeta, if_pos hopened]
      rcases writeRolloutItem_cases answers state
        (.sessionMeta waiting (answers state.tick).git) with ⟨file, error, hwrite, hfile⟩ | hwrite
      · rw [hwrite]
        refine fun hclean => ⟨hclean.before_called, fun hkept _ => ⟨?_, nofun⟩⟩
        rw [hfile hclean]
        exact hkept
      · rw [hwrite]
        refine fun hclean => ⟨hclean.before_called, fun hkept _ => ?_⟩
        obtain ⟨⟨bytes, hfile⟩, hdeferred⟩ := hkept.1 hopened
        rcases hkept.2 with ⟨hsession, htext, hpending⟩ | ⟨hnone, -⟩
        · obtain rfl : waiting = session := Option.some.inj (hmeta.symm.trans hsession)
          obtain rfl : bytes = ByteArray.empty := by rwa [hfile] at htext
          refine ⟨⟨fun _ => ⟨⟨_, by rw [hfile]; rfl⟩, hdeferred⟩, .inr ⟨rfl, hdeferred,
            (answers state.tick).time, (answers state.tick).git, [], ?_, hpending⟩⟩,
            fun _ => ⟨hopened, rfl⟩⟩
          rw [hfile, ← nil_append [_], rolloutText_concat]
          rfl
        · rw [hmeta] at hnone
          cases hnone
    · rw [writeSessionMeta, if_neg hopened]
      exact fun hclean => ⟨hclean, fun _ h => absurd h hopened⟩

theorem writeItems_spec (items : List (RolloutItem Id Payload))
    (hclean : Clean answers (writeItems answers state items).1) :
    Clean answers state ∧ ∀ written : List (codec.Time × RolloutItem Id Payload),
      state.file = some (rolloutText written).toUTF8 →
      ∃ done tick calls, (writeItems answers state items).1 = { state with
          file := some (rolloutText (written ++ done)).toUTF8, tick := tick, lineCalls := calls } ∧
        done.map Prod.snd ++ (writeItems answers state items).2.1 = items ∧
        ((writeItems answers state items).2.2 = .ok () →
          (writeItems answers state items).2.1 = []) := by
  induction items generalizing state with
  | nil =>
    refine ⟨hclean, fun written hfile => ⟨[], state.tick, state.lineCalls, ?_, rfl, fun _ => rfl⟩⟩
    rw [append_nil, ← hfile]
    rfl
  | cons item items ih =>
    unfold writeItems at hclean ⊢
    rcases writeRolloutItem_cases answers state item with
      ⟨file, error, hwrite, hfile⟩ | hwrite
    · rw [hwrite] at hclean ⊢
      refine ⟨hclean.before_called, fun written hwritten =>
        ⟨[], state.tick + 1, (called state).lineCalls, ?_, rfl, nofun⟩⟩
      rw [append_nil, ← hwritten, hfile hclean]
      rfl
    · rw [hwrite] at hclean ⊢
      obtain ⟨hcalled, hrest⟩ := ih hclean
      refine ⟨Clean.before_called hcalled, fun written hfile => ?_⟩
      obtain ⟨done, tick, calls, hstate, hitems, hall⟩ :=
        hrest (written ++ [((answers state.tick).time, item)])
          (by rw [hfile, rolloutText_concat]; rfl)
      refine ⟨((answers state.tick).time, item) :: done, tick, calls, ?_, ?_, hall⟩
      · rw [hstate, append_assoc]
        rfl
      · rw [map_cons, cons_append, hitems]

theorem writePendingItemsOnce_keeps :
    Keeps (Clean answers) (Kept codec session added)
      (fun state => state.opened = true ∧ state.sessionMeta = none) Emptied
      (writePendingItemsOnce answers) := by
  intro state
  unfold writePendingItemsOnce
  split
  · intro hclean
    obtain ⟨hbefore, hspec⟩ := writeItems_spec state.pendingItems hclean
    refine ⟨hbefore, fun hkept hpre => ?_⟩
    obtain ⟨hopened, hmeta⟩ := hpre
    rcases hkept.2 with ⟨hsession, -⟩ | ⟨-, hdeferred, time, git, rest, hfile, hpending⟩
    · rw [hmeta] at hsession
      cases hsession
    · obtain ⟨done, tick, calls, hstate, hitems, hall⟩ := hspec _ hfile
      dsimp only
      rw [hstate]
      refine ⟨⟨fun _ => ⟨⟨_, rfl⟩, hdeferred⟩, .inr ⟨hmeta, hdeferred, time, git, rest ++ done,
        ?_, ?_⟩⟩, fun hok => ⟨hmeta, hall hok⟩⟩
      · rw [cons_append]
      · rw [map_append, append_assoc, hitems, hpending]
  · rename_i hopened
    exact fun hclean => ⟨hclean, fun _ hpre => absurd hpre.1 hopened⟩

theorem writePendingOnce_keeps :
    Keeps (Clean answers) (Kept codec session added) (fun _ => True) Emptied
      (writePendingOnce answers) := by
  have hflush : Keeps (Clean answers) (Kept codec session added) Emptied Emptied
      (flushFile answers) := fun state => by
    unfold flushFile
    split <;> exact fun hclean => ⟨hclean, fun hkept hemptied => ⟨hkept, fun _ => hemptied⟩⟩
  exact ensureWriterOpen_keeps.andThen (writeSessionMetaIfNeeded_keeps.andThen
    (writePendingItemsOnce_keeps.andThen hflush))

theorem writePendingWithRecovery_keeps :
    Keeps (Clean answers) (Kept codec session added) (fun _ => True) Emptied
      (writePendingWithRecovery answers) :=
  writePendingOnce_keeps.retrying fun _ => ⟨Iff.rfl, fun hkept => ⟨nofun, hkept.2⟩⟩

theorem flush_keeps :
    Keeps (Clean answers) (Kept codec session added) (fun _ => True)
      (fun state => added ≠ [] → Emptied state) (flush answers) := by
  intro state
  unfold flush
  split
  · rename_i hdeferred
    obtain ⟨hdeferred, hpending⟩ := hdeferred
    refine fun hclean => ⟨hclean, fun hkept _ => ⟨hkept, fun _ hadded => ?_⟩⟩
    rcases hkept.2 with ⟨-, -, hqueue⟩ | ⟨-, hopened, -⟩
    · exact absurd (hqueue.symm.trans hpending) hadded
    · rw [isDeferred, hopened, Bool.and_false] at hdeferred
      cases hdeferred
  · intro hclean
    obtain ⟨hbefore, hkeeps⟩ := writePendingWithRecovery_keeps state hclean
    refine ⟨hbefore, fun hkept hpre => ?_⟩
    obtain ⟨hkept, hemptied⟩ := hkeeps hkept hpre
    exact ⟨hkept, fun hok _ => hemptied hok⟩

theorem Kept.addItems (h : Kept codec session added state) (items : List (RolloutItem Id Payload)) :
    Kept codec session (added ++ items) (addItems state items) := by
  refine ⟨h.1, ?_⟩
  rcases h.2 with ⟨hmeta, hfile, hpending⟩ | ⟨hmeta, hdeferred, time, git, rest, hfile, hpending⟩
  · refine .inl ⟨hmeta, hfile, ?_⟩
    rw [← hpending]
    rfl
  · refine .inr ⟨hmeta, hdeferred, time, git, rest, hfile, ?_⟩
    rw [← hpending, append_assoc]
    rfl

theorem flushIfMaterialized_keeps :
    Clean answers (flushIfMaterialized answers state) →
      Clean answers state ∧ (Kept codec session added state →
        Kept codec session added (flushIfMaterialized answers state)) := by
  have hkeeps := @flush_keeps _ _ codec answers session added state
  unfold flushIfMaterialized
  split
  · exact fun h => ⟨h, id⟩
  · split
    · rename_i after hresult
      rw [hresult] at hkeeps
      exact fun h => ⟨(hkeeps h).1, fun hkept => ((hkeeps h).2 hkept trivial).1⟩
    · rename_i after error hresult
      rw [hresult] at hkeeps
      exact fun h => ⟨(hkeeps h).1, fun hkept => ⟨nofun, ((hkeeps h).2 hkept trivial).1.2⟩⟩

end Invariant

section Runs
variable {state : RolloutWriterState Id Payload} {cmd : RolloutCmd Id Payload}

def RolloutCmd.items : RolloutCmd Id Payload → List (RolloutItem Id Payload)
  | addItems items => items
  | persist | flush | shutdown => []

def addedItems (cmds : List (RolloutCmd Id Payload)) : List (RolloutItem Id Payload) :=
  cmds.flatMap RolloutCmd.items

/-- A barrier that is acknowledged with success has emptied the queue. -/
theorem handle_keeps (hclean : Clean answers (handle answers state cmd).1) :
    Clean answers state ∧ (Kept codec session added state →
      Kept codec session (added ++ cmd.items) (handle answers state cmd).1 ∧
        ((handle answers state cmd).2 = some (.ok ()) → cmd = .persist ∨ added ≠ [] →
          Emptied (handle answers state cmd).1)) := by
  cases cmd with
  | addItems items =>
    obtain ⟨hbefore, hkeeps⟩ := flushIfMaterialized_keeps hclean
    exact ⟨hbefore, fun h => ⟨hkeeps (h.addItems items), nofun⟩⟩
  | persist =>
    obtain ⟨hbefore, hkeeps⟩ := writePendingWithRecovery_keeps state hclean
    refine ⟨hbefore, fun h => ?_⟩
    obtain ⟨hkept, hemptied⟩ := hkeeps h trivial
    rw [RolloutCmd.items, append_nil]
    exact ⟨hkept, fun hack _ => hemptied (Option.some.inj hack)⟩
  | flush | shutdown =>
    obtain ⟨hbefore, hkeeps⟩ := flush_keeps state hclean
    refine ⟨hbefore, fun h => ?_⟩
    obtain ⟨hkept, hemptied⟩ := hkeeps h trivial
    rw [RolloutCmd.items, append_nil]
    exact ⟨hkept, fun hack hcmd => hemptied (Option.some.inj hack) (hcmd.resolve_left nofun)⟩

theorem rolloutWriter_kept {cmds : List (RolloutCmd Id Payload)}
    {last : RolloutWriterState Id Payload} (hrun : rolloutWriter answers state cmds = some last)
    (hclean : Clean answers last) :
    Clean answers state ∧ (Kept codec session added state →
      Kept codec session (added ++ addedItems cmds) last) := by
  induction cmds generalizing state added with
  | nil =>
    obtain rfl := Option.some.inj hrun
    rw [addedItems, flatMap_nil, append_nil]
    exact ⟨hclean, id⟩
  | cons cmd cmds ih =>
    have hnext : rolloutWriter answers (handle answers state cmd).1 cmds = some last := by
      unfold rolloutWriter at hrun
      split at hrun
      · cases hrun
      · rename_i hhandle
        rwa [hhandle]
    obtain ⟨hafter, hrest⟩ := @ih (added ++ cmd.items) _ hnext
    obtain ⟨hbefore, hkeeps⟩ := handle_keeps hafter
    refine ⟨hbefore, fun h => ?_⟩
    have hkept := hrest (hkeeps h).1
    rwa [append_assoc] at hkept

/-- While failing writes leave nothing behind and written lines are flushed, the file holds
every item once whenever a barrier is acknowledged, whatever else fails. -/
theorem acknowledged_rollout_complete (codec : LineCodec Id Payload) (answers : ℕ → Answer codec)
    (session : SessionMeta Id Payload) (cmds : List (RolloutCmd Id Payload))
    (cmd : RolloutCmd Id Payload) (state : RolloutWriterState Id Payload)
    (hrun : rolloutWriter answers (newSession session) cmds = some state)
    (hclean : Clean answers (handle answers state cmd).1)
    (hack : (handle answers state cmd).2 = some (.ok ()))
    (hcmd : cmd = .persist ∨ addedItems (cmds ++ [cmd]) ≠ []) :
    ∃ git, loadRolloutItems codec (handle answers state cmd).1.file =
      .ok ⟨.sessionMeta session git :: addedItems (cmds ++ [cmd]), some session.id, 0⟩ := by
  have hnew : Kept codec session [] (newSession session) := ⟨nofun, .inl ⟨rfl, rfl, rfl⟩⟩
  obtain ⟨hbefore, hkeeps⟩ := handle_keeps hclean
  have hstate : Kept codec session (addedItems cmds) state :=
    (rolloutWriter_kept hrun hbefore).2 hnew
  have hnil : cmd.items = [] := by
    cases cmd with
    | addItems items => cases hack
    | persist | flush | shutdown => rfl
  have hadded : addedItems (cmds ++ [cmd]) = addedItems cmds := by
    rw [addedItems, flatMap_append, flatMap_singleton, hnil, append_nil]
    rfl
  rw [hadded] at hcmd ⊢
  obtain ⟨hkept, hemptied⟩ := hkeeps hstate
  obtain ⟨hmeta, hpending⟩ := hemptied hack hcmd
  rcases hkept.2 with ⟨hsession, -⟩ | ⟨-, -, time, git, rest, hfile, hitems⟩
  · rw [hmeta] at hsession
    cases hsession
  · rw [hpending, hnil, append_nil, append_nil] at hitems
    exact ⟨git, by rw [hfile, loadRolloutItems_rolloutText, hitems]⟩

def sampleLine : RolloutItem Unit Unit → String
  | .sessionMeta _ none => "\x7bmeta\x7d"
  | .sessionMeta _ (some _) => "\x7bmeta+git\x7d"
  | .responseItem _ => "\x7bresponse\x7d"
  | .compacted _ => "\x7bcompacted\x7d"
  | .turnContext _ => "\x7bcontext\x7d"
  | .eventMsg _ => "\x7bevent\x7d"

def sampleItems : List (RolloutItem Unit Unit) :=
  [.sessionMeta ⟨(), ()⟩ none, .sessionMeta ⟨(), ()⟩ (some ()), .responseItem (), .compacted (),
    .turnContext (), .eventMsg ()]

theorem forall_sampleItems {p : RolloutItem Unit Unit → Prop} (h : ∀ item ∈ sampleItems, p item)
    (item : RolloutItem Unit Unit) : p item := by
  apply h
  rcases item with ⟨⟨⟩, _ | _⟩ | _ | _ | _ | _ <;> simp [sampleItems]

def sampleCodec : LineCodec Unit Unit where
  Time := Unit
  Value := RolloutItem Unit Unit
  encode _ item := sampleLine item
  fromStr line := sampleItems.find? (sampleLine · = line)
  stripLegacy := some
  fromValue := some
  newline_notMem _ := forall_sampleItems (by decide)
  getLast?_ne _ := forall_sampleItems (by decide)
  trim_ne _ := forall_sampleItems (by decide)
  fromStr_encode _ item := by
    refine ⟨item, ?_, rfl, rfl⟩
    revert item
    exact forall_sampleItems (by decide)

def smooth : Answer sampleCodec := ⟨true, none, true, true, (), none⟩

/-- The file does not open at first; later a write and the flush of a barrier fail. -/
def recoveredFailures (tick : ℕ) : Answer sampleCodec :=
  if tick = 0 then { smooth with opens := false }
  else if tick = 3 then { smooth with writeFailsAfter := some 0 }
  else if tick = 7 then { smooth with barrierFlushes := false }
  else smooth

theorem clean_recoveredFailures (state : RolloutWriterState Unit Unit) :
    Clean recoveredFailures state := by
  intro tick _
  unfold recoveredFailures
  split_ifs <;> rfl

theorem recoveredFailures_complete :
    ∃ git, ((rolloutWriter recoveredFailures (newSession ⟨(), ()⟩)
      [.addItems [.responseItem (), .eventMsg ()], .persist]).map fun state =>
        loadRolloutItems sampleCodec (handle recoveredFailures state .flush).1.file) =
      some (.ok ⟨[.sessionMeta ⟨(), ()⟩ git, .responseItem (), .eventMsg ()], some (), 0⟩) := by
  obtain ⟨git, hload⟩ := acknowledged_rollout_complete sampleCodec recoveredFailures ⟨(), ()⟩
    [.addItems [.responseItem (), .eventMsg ()], .persist] .flush _ rfl
    (clean_recoveredFailures _) (by decide +kernel) (.inr (by decide))
  exact ⟨git, congrArg some hload⟩

/-- One item is recorded and persisted; the acknowledgement and what the file then loads as. -/
def persistOne (answers : ℕ → Answer sampleCodec) :
    Option (Option (Except IoError Unit) × Except String (LoadedRollout Unit Unit)) :=
  (rolloutWriter answers (newSession ⟨(), ()⟩) [.addItems [.responseItem ()]]).map fun state =>
    ((handle answers state .persist).2,
      loadRolloutItems sampleCodec (handle answers state .persist).1.file)

def itemFails (failure : Answer sampleCodec) (tick : ℕ) : Answer sampleCodec :=
  if tick = 2 then failure else smooth

/-- Part of a line makes the retried line unreadable; a line that is not flushed is written
twice. -/
theorem retried_line_damages_rollout :
    persistOne (itemFails { smooth with writeFailsAfter := some 4 }) =
      some (some (.ok ()), .ok ⟨[.sessionMeta ⟨(), ()⟩ none], some (), 1⟩) ∧
    persistOne (itemFails { smooth with lineFlushes := false }) =
      some (some (.ok ()), .ok ⟨[.sessionMeta ⟨(), ()⟩ none, .responseItem (), .responseItem ()],
        some (), 0⟩) := by
  decide +kernel

end Runs

end DeepseekX.RolloutWriter
