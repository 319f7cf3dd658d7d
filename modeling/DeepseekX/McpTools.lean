import DeepseekX.StableSorting
import Mathlib.Data.Nat.Digits.Defs
import Mathlib.Data.String.Basic

/-!
# Model-visible names of MCP tools

The tools of all MCP servers are shown to the model under one flat name each, a namespace
followed by a name. Names are sanitized, the sanitized names of different servers and of
different tools are told apart by a piece of the SHA-1 of where they come from, and a name that
is taken or too long gets another such piece, with a counter, until it is free.
-/

namespace DeepseekX.McpTools
open String (utf8Len)

/-- SHA-1 of a text in lower-case hexadecimal. -/
structure Sha1 where
  hex : List Char → List Char
  length_hex : ∀ text, (hex text).length = 40
  hex_digits : ∀ text, ∀ c ∈ hex text, c.isDigit ∨ ('a' ≤ c ∧ c ≤ 'f')

/-- A tool with what its names depend on; the other fields are `details`. -/
structure ToolInfo (δ : Type*) where
  serverName : List Char
  callableName : List Char
  callableNamespace : List Char
  toolName : List Char
  connectorId : Option (List Char)
  details : δ
  deriving DecidableEq

structure CallableToolCandidate (δ : Type*) where
  tool : ToolInfo δ
  rawNamespaceIdentity : List Char
  rawToolIdentity : List Char
  callableNamespace : List Char
  callableName : List Char

def mcpToolNameDelimiter : List Char := "__".toList
def maxToolNameLength : ℕ := 64
def callableNameHashLen : ℕ := 12

def nul : Char := '\x00'

def sanitizeChar (c : Char) : Char := if c.isAlphanum || c == '_' then c else '_'

def sanitizeResponsesApiToolName (name : List Char) : List Char :=
  let sanitized := name.map sanitizeChar
  if sanitized.isEmpty then ['_'] else sanitized

section Suffixes
variable (sha1 : Sha1)

def callableNameHashSuffix (rawIdentity : List Char) : List Char :=
  '_' :: (sha1.hex rawIdentity).take callableNameHashLen

def appendHashSuffix (value rawIdentity : List Char) : List Char :=
  value ++ callableNameHashSuffix sha1 rawIdentity

def appendNamespaceHashSuffix (toolNamespace rawIdentity : List Char) : List Char :=
  if mcpToolNameDelimiter <:+ toolNamespace then
    toolNamespace.take (toolNamespace.length - mcpToolNameDelimiter.length) ++
      callableNameHashSuffix sha1 rawIdentity ++ mcpToolNameDelimiter
  else appendHashSuffix sha1 toolNamespace rawIdentity

def truncateName (value : List Char) (maxLen : ℕ) : List Char := value.take maxLen

variable (toolNamespace toolName rawIdentity : List Char)

def fitCallablePartsWithHash : List Char × List Char :=
  let suffix := callableNameHashSuffix sha1 rawIdentity
  let maxToolLen := maxToolNameLength - utf8Len toolNamespace
  if maxToolLen ≥ utf8Len suffix then
    (toolNamespace, truncateName toolName (maxToolLen - utf8Len suffix) ++ suffix)
  else (truncateName toolNamespace (maxToolNameLength - utf8Len suffix), suffix)

def hashInput (rawIdentity : List Char) (attempt : ℕ) : List Char :=
  if attempt = 0 then rawIdentity else rawIdentity ++ nul :: Nat.toDigits 10 attempt

/-- The attempts of a 32-bit counter that saturates. -/
def attempts : ℕ := 2 ^ 32

/-- The loop over the attempts. It has no result when it would repeat the last one forever. -/
def retry (toolNamespace toolName rawIdentity : List Char) (usedNames : List (List Char)) :
    ℕ → ℕ → Option (List Char × List Char)
  | 0, _ => none
  | left + 1, attempt =>
    let parts :=
      fitCallablePartsWithHash sha1 toolNamespace toolName (hashInput rawIdentity attempt)
    if parts.1 ++ parts.2 ∈ usedNames then
      retry toolNamespace toolName rawIdentity usedNames left (attempt + 1)
    else some parts

def uniqueCallableParts (usedNames : List (List Char)) : Option (List Char × List Char) :=
  let modelName := toolNamespace ++ toolName
  if utf8Len modelName ≤ maxToolNameLength ∧ modelName ∉ usedNames then
    some (toolNamespace, toolName)
  else retry sha1 toolNamespace toolName rawIdentity usedNames attempts 0

end Suffixes

section Normalization
variable {δ : Type*} (sha1 : Sha1) (tool : ToolInfo δ)

def ToolInfo.rawNamespaceIdentity : List Char :=
  tool.serverName ++ nul :: (tool.callableNamespace ++ nul :: tool.connectorId.getD [])

def ToolInfo.rawToolIdentity : List Char :=
  tool.rawNamespaceIdentity ++ nul :: (tool.callableName ++ nul :: tool.toolName)

def ToolInfo.candidate : CallableToolCandidate δ where
  tool := tool
  rawNamespaceIdentity := tool.rawNamespaceIdentity
  rawToolIdentity := tool.rawToolIdentity
  callableNamespace := sanitizeResponsesApiToolName tool.callableNamespace
  callableName := sanitizeResponsesApiToolName tool.callableName

/-- The first tool of every identity. -/
def collectCandidates (seenRawNames : List (List Char)) :
    List (ToolInfo δ) → List (CallableToolCandidate δ)
  | [] => []
  | tool :: tools =>
    if tool.rawToolIdentity ∈ seenRawNames then collectCandidates seenRawNames tools
    else tool.candidate :: collectCandidates (tool.rawToolIdentity :: seenRawNames) tools

/-- The candidates with the key have more than one identity. -/
def colliding {κ : Type*} [DecidableEq κ] (key : CallableToolCandidate δ → κ)
    (identity : CallableToolCandidate δ → List Char)
    (candidates : List (CallableToolCandidate δ)) (base : κ) : Bool :=
  decide (1 < ((candidates.filter fun c => key c = base).map identity).dedup.length)

variable (candidates : List (CallableToolCandidate δ))

def renameNamespaces : List (CallableToolCandidate δ) :=
  candidates.map fun c =>
    if colliding (·.callableNamespace) (·.rawNamespaceIdentity) candidates c.callableNamespace then
      { c with
        callableNamespace :=
          appendNamespaceHashSuffix sha1 c.callableNamespace c.rawNamespaceIdentity }
    else c

def renameTools : List (CallableToolCandidate δ) :=
  candidates.map fun c =>
    if colliding (fun c => (c.callableNamespace, c.callableName)) (·.rawToolIdentity) candidates
        (c.callableNamespace, c.callableName) then
      { c with callableName := appendHashSuffix sha1 c.callableName c.rawToolIdentity }
    else c

def assignNames (usedNames : List (List Char)) :
    List (CallableToolCandidate δ) → Option (List (ToolInfo δ))
  | [] => some []
  | c :: candidates =>
    (uniqueCallableParts sha1 c.callableNamespace c.callableName c.rawToolIdentity
      usedNames).bind fun parts =>
      (assignNames ((parts.1 ++ parts.2) :: usedNames) candidates).map fun tools =>
        { c.tool with callableNamespace := parts.1, callableName := parts.2 } :: tools

def normalizeToolsForModel (tools : List (ToolInfo δ)) : Option (List (ToolInfo δ)) :=
  let candidates := renameTools sha1 (renameNamespaces sha1 (collectCandidates [] tools))
  assignNames sha1 []
    (candidates.insertionSort fun left right => left.rawToolIdentity ≤ right.rawToolIdentity)

end Normalization

end DeepseekX.McpTools
