import DeepseekX.FallibleActions
import DeepseekX.PatchParsing

/-!
# Writing and loading rollout files

A background task owns the rollout file of a session. Items wait in a queue; a barrier opens
the file if need be, writes the session meta and the queue line by line, and flushes. After
a failure the file handle is dropped and the barrier is tried once more. Loading reads the
file line by line. What the operating system answers to each call is given by a sequence of
answers.
-/

namespace DeepseekX.RolloutWriter
open FallibleActions PatchParsing SeekSequence

structure SessionMeta (Id Payload : Type) where
  id : Id
  rest : Payload
  deriving DecidableEq

inductive RolloutItem (Id Payload : Type) where
  | sessionMeta (session : SessionMeta Id Payload) (git : Option Payload)
  | responseItem (item : Payload)
  | compacted (item : Payload)
  | turnContext (item : Payload)
  | eventMsg (event : Payload)
  deriving DecidableEq

/-- JSON serialisation of rollout lines with `serde_json`, for items without legacy ghost
snapshots: one line of text that parses back to its item. `stripLegacy` drops the legacy
snapshots from a parsed line, and gives nothing where the whole line is one. -/
structure LineCodec (Id Payload : Type) where
  Time : Type
  Value : Type
  encode : Time → RolloutItem Id Payload → String
  fromStr : String → Option Value
  stripLegacy : Value → Option Value
  fromValue : Value → Option (RolloutItem Id Payload)
  newline_notMem : ∀ time item, '\n' ∉ (encode time item).toList
  getLast?_ne : ∀ time item, (encode time item).toList.getLast? ≠ some '\r'
  trim_ne : ∀ time item, trim (encode time item) ≠ ""
  fromStr_encode : ∀ time item, ∃ value, fromStr (encode time item) = some value ∧
    stripLegacy value = some value ∧ fromValue value = some item

section Loading
variable {Id Payload : Type} (codec : LineCodec Id Payload)

structure LoadedRollout (Id Payload : Type) where
  items : List (RolloutItem Id Payload)
  threadId : Option Id
  parseErrors : ℕ
  deriving DecidableEq

variable (loaded : LoadedRollout Id Payload)

def noteItem (item : RolloutItem Id Payload) : LoadedRollout Id Payload :=
  let threadId :=
    match item with
    | .sessionMeta session _ => loaded.threadId.or (some session.id)
    | _ => loaded.threadId
  { loaded with items := loaded.items ++ [item], threadId := threadId }

def noteParseError : LoadedRollout Id Payload :=
  { loaded with parseErrors := loaded.parseErrors + 1 }

/-- One line of the loop of `load_rollout_items`. -/
def loadLine (line : String) : LoadedRollout Id Payload :=
  if trim line = "" then loaded
  else
    match codec.fromStr line with
    | none => noteParseError loaded
    | some value =>
      match codec.stripLegacy value with
      | none => loaded
      | some value =>
        match codec.fromValue value with
        | none => noteParseError loaded
        | some item => noteItem loaded item

def loadRolloutItems (file : Option ByteArray) : Except String (LoadedRollout Id Payload) :=
  match file with
  | none => .error "No such file or directory"
  | some bytes =>
    match String.fromUTF8? bytes with
    | none => .error "stream did not contain valid UTF-8"
    | some text =>
      if trim text = "" then .error "empty session file"
      else .ok ((textLines text).foldl (loadLine codec) ⟨[], none, 0⟩)

end Loading

section Writing
variable {Id Payload : Type} (codec : LineCodec Id Payload)

/-- What the operating system answers to one call: whether the file opens, how many bytes of a
line a failing write leaves in the file, whether the flush after a line and the flush of a barrier
succeed, and the clock and the git state at that time. -/
structure Answer where
  opens : Bool
  writeFailsAfter : Option ℕ
  lineFlushes : Bool
  barrierFlushes : Bool
  time : codec.Time
  git : Option Payload

inductive IoError where
  | openFailed
  | writeFailed
  | flushFailed
  | notOpen
  deriving DecidableEq

/-- The writer with the file it writes. `opened` says that it holds a file handle, `tick`
counts the calls to the operating system, of which `lineCalls` have written a line. -/
structure RolloutWriterState (Id Payload : Type) where
  opened : Bool
  deferred : Bool
  pendingItems : List (RolloutItem Id Payload)
  sessionMeta : Option (SessionMeta Id Payload)
  file : Option ByteArray
  tick : ℕ
  lineCalls : List ℕ

variable {codec} (answers : ℕ → Answer codec) (state : RolloutWriterState Id Payload)

def newSession (session : SessionMeta Id Payload) : RolloutWriterState Id Payload :=
  ⟨false, true, [], some session, none, 0, []⟩

def ensureWriterOpen : RolloutWriterState Id Payload × Except IoError Unit :=
  if state.opened then (state, .ok ())
  else if (answers state.tick).opens then
    ({ state with
        opened := true
        deferred := false
        file := some (state.file.getD ByteArray.empty)
        tick := state.tick + 1 }, .ok ())
  else ({ state with tick := state.tick + 1 }, .error .openFailed)

/-- `write_rollout_item` through `write_line`: the line, then a flush. -/
def writeRolloutItem (item : RolloutItem Id Payload) :
    RolloutWriterState Id Payload × Except IoError Unit :=
  let answer := answers state.tick
  let line := (codec.encode answer.time item ++ "\n").toUTF8
  let called := { state with
    tick := state.tick + 1
    lineCalls := state.lineCalls ++ [state.tick] }
  match answer.writeFailsAfter with
  | some kept =>
    ({ called with file := state.file.map (· ++ line.extract 0 kept) }, .error .writeFailed)
  | none =>
    ({ called with file := state.file.map (· ++ line) },
      if answer.lineFlushes then .ok () else .error .flushFailed)

/-- Without a file handle the meta line is passed over. -/
def writeSessionMeta (session : SessionMeta Id Payload) :
    RolloutWriterState Id Payload × Except IoError Unit :=
  if state.opened then
    writeRolloutItem answers state (.sessionMeta session (answers state.tick).git)
  else (state, .ok ())

def writeSessionMetaIfNeeded : RolloutWriterState Id Payload × Except IoError Unit :=
  match state.sessionMeta with
  | none => (state, .ok ())
  | some session =>
    match writeSessionMeta answers state session with
    | (state, .error error) => (state, .error error)
    | (state, .ok ()) => ({ state with sessionMeta := none }, .ok ())

/-- The loop of `write_pending_items_once`, with the items that are left. -/
def writeItems : RolloutWriterState Id Payload → List (RolloutItem Id Payload) →
    RolloutWriterState Id Payload × List (RolloutItem Id Payload) × Except IoError Unit
  | state, [] => (state, [], .ok ())
  | state, item :: items =>
    match writeRolloutItem answers state item with
    | (state, .error error) => (state, item :: items, .error error)
    | (state, .ok ()) => writeItems state items

def writePendingItemsOnce : RolloutWriterState Id Payload × Except IoError Unit :=
  if state.opened then
    match writeItems answers state state.pendingItems with
    | (state, items, result) => ({ state with pendingItems := items }, result)
  else (state, .error .notOpen)

def flushFile : RolloutWriterState Id Payload × Except IoError Unit :=
  if state.opened then
    ({ state with tick := state.tick + 1 },
      if (answers state.tick).barrierFlushes then .ok () else .error .flushFailed)
  else (state, .ok ())

def writePendingOnce : RolloutWriterState Id Payload × Except IoError Unit :=
  andThen (ensureWriterOpen answers) (andThen (writeSessionMetaIfNeeded answers)
    (andThen (writePendingItemsOnce answers) (flushFile answers))) state

def enterRecoveryMode : RolloutWriterState Id Payload := { state with opened := false }

def writePendingWithRecovery : RolloutWriterState Id Payload × Except IoError Unit :=
  retrying enterRecoveryMode (writePendingOnce answers) state

def isDeferred : Bool := !state.opened && state.deferred

def persist : RolloutWriterState Id Payload × Except IoError Unit :=
  writePendingWithRecovery answers state

def flush : RolloutWriterState Id Payload × Except IoError Unit :=
  if isDeferred state ∧ state.pendingItems = [] then (state, .ok ())
  else writePendingWithRecovery answers state

def shutdown : RolloutWriterState Id Payload × Except IoError Unit :=
  if isDeferred state ∧ state.pendingItems = [] then (state, .ok ())
  else writePendingWithRecovery answers state

def addItems (items : List (RolloutItem Id Payload)) : RolloutWriterState Id Payload :=
  { state with pendingItems := state.pendingItems ++ items }

def flushIfMaterialized : RolloutWriterState Id Payload :=
  if isDeferred state then state
  else
    match flush answers state with
    | (state, .ok ()) => state
    | (state, .error _) => enterRecoveryMode state

inductive RolloutCmd (Id Payload : Type) where
  | addItems (items : List (RolloutItem Id Payload))
  | persist
  | flush
  | shutdown
  deriving DecidableEq

/-- One command of the loop of `rollout_writer`, with its acknowledgement. -/
def handle (cmd : RolloutCmd Id Payload) :
    RolloutWriterState Id Payload × Option (Except IoError Unit) :=
  match cmd with
  | .addItems items => (flushIfMaterialized answers (addItems state items), none)
  | .persist => ((persist answers state).1, some (persist answers state).2)
  | .flush => ((flush answers state).1, some (flush answers state).2)
  | .shutdown => ((shutdown answers state).1, some (shutdown answers state).2)

/-- The state of `rollout_writer` after the commands, unless a shutdown has ended the loop. -/
def rolloutWriter : RolloutWriterState Id Payload → List (RolloutCmd Id Payload) →
    Option (RolloutWriterState Id Payload)
  | state, [] => some state
  | state, cmd :: cmds =>
    match cmd, handle answers state cmd with
    | .shutdown, (_, some (.ok ())) => none
    | _, (state, _) => rolloutWriter state cmds

end Writing

end DeepseekX.RolloutWriter
