import Mathlib.Data.List.DropRight

/-!
# Locating patch lines in a file

`seek_sequence` looks for a run of pattern lines in the lines of a file. Four
passes of decreasing strictness compare the lines exactly, without trailing white
space, without surrounding white space, and with typographic punctuation replaced
by its ASCII counterpart.
-/

namespace DeepseekX.SeekSequence

/-- The Unicode property `White_Space`, on which `str::trim` is based. -/
def isWhitespace (c : Char) : Bool :=
  let n := c.toNat
  (0x9 ≤ n && n ≤ 0xD) || n == 0x20 || n == 0x85 || n == 0xA0 || n == 0x1680 ||
    (0x2000 ≤ n && n ≤ 0x200A) || n == 0x2028 || n == 0x2029 || n == 0x202F ||
    n == 0x205F || n == 0x3000

def trimEnd (s : String) : String := String.ofList (s.toList.rdropWhile isWhitespace)

def trim (s : String) : String :=
  String.ofList ((s.toList.dropWhile isWhitespace).rdropWhile isWhitespace)

theorem trim_eq_empty_iff {line : String} :
    trim line = "" ↔ ∀ c ∈ line.toList, isWhitespace c = true := by
  unfold trim
  rw [← String.toList_inj, String.toList_ofList]
  change List.rdropWhile _ _ = [] ↔ _
  rw [List.rdropWhile_eq_nil_iff]
  constructor
  · intro h c hc
    rw [← List.takeWhile_append_dropWhile (p := isWhitespace) (l := line.toList)] at hc
    rcases List.mem_append.mp hc with hc | hc
    · exact List.mem_takeWhile_imp hc
    · exact h c hc
  · intro h c hc
    exact h c ((List.dropWhile_suffix _).subset hc)

/-- Typographic dashes, quotes and spaces with their ASCII equivalents. -/
def normaliseChar (c : Char) : Char :=
  let n := c.toNat
  if (0x2010 ≤ n && n ≤ 0x2015) || n == 0x2212 then '-'
  else if 0x2018 ≤ n && n ≤ 0x201B then Char.ofNat 0x27
  else if 0x201C ≤ n && n ≤ 0x201F then '"'
  else if n == 0xA0 || (0x2002 ≤ n && n ≤ 0x200A) || n == 0x202F || n == 0x205F ||
    n == 0x3000 then ' '
  else c

def normalise (s : String) : String := String.ofList ((trim s).toList.map normaliseChar)

/-- The pattern stands at line `i`, lines being compared under `key`. -/
def matchesAt (key : String → String) (lines pattern : List String) (i : ℕ) : Bool :=
  ((lines.drop i).take pattern.length).map key == pattern.map key

/-- The first position from `first` to `last`, both included, that passes. -/
def searchPass (first last : ℕ) (test : ℕ → Bool) : Option ℕ :=
  (List.range' first (last + 1 - first)).find? test

def seekSequence (lines pattern : List String) (start : ℕ) (eof : Bool) : Option ℕ :=
  if pattern = [] then some start
  else if pattern.length > lines.length then none
  else
    let last := lines.length - pattern.length
    let searchStart := if eof && pattern.length ≤ lines.length then last else start
    (searchPass searchStart last (matchesAt id lines pattern)).or <|
      (searchPass searchStart last (matchesAt trimEnd lines pattern)).or <|
        (searchPass searchStart last (matchesAt trim lines pattern)).or <|
          searchPass searchStart last (matchesAt normalise lines pattern)

example : seekSequence ["foo   ", "bar\t\t"] ["foo", "bar"] 0 false = some 0 := by decide

end DeepseekX.SeekSequence
