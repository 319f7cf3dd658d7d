import DeepseekX.ResponseItems
import DeepseekX.ListInsertions

/-!
# Normalisation of the history

Before a request the history is brought into a form in which every call has an output
and every output a call: outputs of calls that were aborted are inserted right after the
calls, and outputs without a call are removed.
-/

namespace DeepseekX.HistoryNormalization
open ResponseItems ListInsertions

variable (callId : String)

def isFunctionCallOutput : ResponseItem → Bool
  | .functionCallOutput existing _ => existing = callId
  | _ => false

def isToolSearchOutput : ResponseItem → Bool
  | .toolSearchOutput (some existing) _ _ => existing = callId
  | _ => false

def isCustomToolCallOutput : ResponseItem → Bool
  | .customToolCallOutput existing _ _ => existing = callId
  | _ => false

variable (items : List ResponseItem)

/-- The output to insert after an item, in the release build: a debug build panics where the
output of a custom tool call or a local shell call is missing. -/
def missingOutput : ResponseItem → Option ResponseItem
  | .functionCall _ _ _ _ callId | .localShellCall (some callId) =>
    if items.any (isFunctionCallOutput callId) then none
    else some (.functionCallOutput callId (.fromText "aborted"))
  | .toolSearchCall (some callId) =>
    if items.any (isToolSearchOutput callId) then none
    else some (.toolSearchOutput (some callId) "completed" "client")
  | .customToolCall _ _ callId _ _ =>
    if items.any (isCustomToolCallOutput callId) then none
    else some (.customToolCallOutput callId none (.fromText "aborted"))
  | _ => none

def ensureCallOutputsPresent : List ResponseItem :=
  insertAll items (insertions (missingOutput items) items 0)

theorem ensureCallOutputsPresent_eq :
    ensureCallOutputsPresent items =
      items.flatMap fun item => item :: (missingOutput items item).toList :=
  insertAll_insertions _ items

def functionCallIds : List String :=
  items.filterMap fun
    | .functionCall _ _ _ _ callId => some callId
    | _ => none

def toolSearchCallIds : List String :=
  items.filterMap fun
    | .toolSearchCall callId => callId
    | _ => none

def localShellCallIds : List String :=
  items.filterMap fun
    | .localShellCall callId => callId
    | _ => none

def customToolCallIds : List String :=
  items.filterMap fun
    | .customToolCall _ _ callId _ _ => some callId
    | _ => none

/-- Whether an item is no output, or the output of a call. -/
def hasMatch : ResponseItem → Bool
  | .functionCallOutput callId _ =>
    callId ∈ functionCallIds items ∨ callId ∈ localShellCallIds items
  | .customToolCallOutput callId _ _ => callId ∈ customToolCallIds items
  | .toolSearchOutput callId _ execution =>
    if execution = "server" then true
    else match callId with
      | some callId => callId ∈ toolSearchCallIds items
      | none => true
  | _ => true

/-- The release build, again: a debug build panics at an orphan output. -/
def removeOrphanOutputs : List ResponseItem :=
  items.filter (hasMatch items)

def normalizeHistory : List ResponseItem :=
  removeOrphanOutputs (ensureCallOutputsPresent items)

end DeepseekX.HistoryNormalization
