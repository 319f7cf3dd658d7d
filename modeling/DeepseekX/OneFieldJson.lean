import DeepseekX.ResponseItems

/-!
# A codec for objects with one text field

The smallest JSON codec that keeps the promises asked of one: it writes and reads
objects with a single text field, with quotes and backslashes escaped and without
white space.
-/

namespace DeepseekX.OneFieldJson
open ResponseItems Option

def quote : Char := Char.ofNat 0x22
def backslash : Char := Char.ofNat 0x5C
def openBrace : Char := Char.ofNat 0x7B
def closeBrace : Char := Char.ofNat 0x7D

def escape (text : List Char) : List Char :=
  text.flatMap fun c => if c = quote ∨ c = backslash then [backslash, c] else [c]

/-- Reads up to the closing quote: the text and what follows. -/
def readText : List Char → Option (List Char × List Char)
  | [] => none
  | c :: rest =>
    if c = quote then some ([], rest)
    else if c = backslash then
      match rest with
      | [] => none
      | d :: rest => (readText rest).map fun r => (d :: r.1, r.2)
    else (readText rest).map fun r => (c :: r.1, r.2)

def expect (expected : List Char) (text : List Char) : Option (List Char) :=
  if expected.isPrefixOf text then some (text.drop expected.length) else none

def readObject (text : List Char) : Option (String × String) :=
  (expect [openBrace, quote] text).bind fun rest =>
    (readText rest).bind fun field =>
      (expect [':', quote] field.2).bind fun rest =>
        (readText rest).bind fun value =>
          if value.2 = [closeBrace] then some (String.ofList field.1, String.ofList value.1)
          else none

def writeObject (value : String × String) : List Char :=
  [openBrace, quote] ++ escape value.1.toList ++ [quote, ':', quote] ++
    escape value.2.toList ++ [quote, closeBrace]

@[simp] theorem readText_quote (rest : List Char) : readText (quote :: rest) = some ([], rest) := by
  rw [readText.eq_def]
  simp

@[simp] theorem readText_backslash (d : Char) (rest : List Char) :
    readText (backslash :: d :: rest) = (readText rest).map fun r => (d :: r.1, r.2) := by
  have hb : backslash ≠ quote := by decide
  simp [readText, hb]

theorem readText_other {c : Char} (hq : c ≠ quote) (hb : c ≠ backslash) (rest : List Char) :
    readText (c :: rest) = (readText rest).map fun r => (c :: r.1, r.2) := by
  rw [readText.eq_def]
  simp [hq, hb]

theorem readText_escape (text rest : List Char) :
    readText (escape text ++ quote :: rest) = some (text, rest) := by
  induction text with
  | nil => exact readText_quote rest
  | cons c text ih =>
    have hcons : escape (c :: text) =
        (if c = quote ∨ c = backslash then [backslash, c] else [c]) ++ escape text := by
      simp [escape]
    rw [hcons]
    by_cases hc : c = quote ∨ c = backslash
    · simp [hc, ih]
    · obtain ⟨hq, hb⟩ := not_or.mp hc
      simp [hq, hb, readText_other, ih]

theorem readText_append {text later : List Char} {r : List Char × List Char}
    (h : readText text = some r) : readText (text ++ later) = some (r.1, r.2 ++ later) := by
  fun_induction readText text generalizing r with
  | case1 => cases h
  | case2 rest =>
    obtain rfl := some.inj h
    simp
  | case3 => cases h
  | case4 d rest _ ih =>
    obtain ⟨r', hr', rfl⟩ := map_eq_some_iff.mp h
    simp [ih hr']
  | case5 c rest hq hb ih =>
    obtain ⟨r', hr', rfl⟩ := map_eq_some_iff.mp h
    simp [readText_other hq hb, ih hr']

theorem expect_append_self (expected rest : List Char) :
    expect expected (expected ++ rest) = some rest := by
  simp [expect]

theorem expect_eq_some {expected text rest : List Char} (h : expect expected text = some rest) :
    text = expected ++ rest := by
  unfold expect at h
  split at h
  · rename_i hstart
    obtain ⟨later, rfl⟩ := List.isPrefixOf_iff_prefix.mp hstart
    simpa using h
  · cases h

theorem readObject_eq_some {text : List Char} {value : String × String} :
    readObject text = some value ↔ ∃ field rest, text = [openBrace, quote] ++ field ∧
      readText field = some (value.1.toList, [':', quote] ++ rest) ∧
      readText rest = some (value.2.toList, [closeBrace]) := by
  constructor
  · intro h
    obtain ⟨field, hfield, h⟩ := bind_eq_some_iff.mp h
    obtain ⟨⟨name, after⟩, hname, h⟩ := bind_eq_some_iff.mp h
    obtain ⟨rest, hrest, h⟩ := bind_eq_some_iff.mp h
    obtain ⟨⟨content, closing⟩, hcontent, h⟩ := bind_eq_some_iff.mp h
    obtain rfl := expect_eq_some hrest
    split at h
    · rename_i hclosing
      obtain rfl := hclosing
      obtain rfl := some.inj h
      exact ⟨field, rest, expect_eq_some hfield, by simpa using hname, by simpa using hcontent⟩
    · cases h
  · rintro ⟨field, rest, rfl, hname, hcontent⟩
    simp only [readObject, expect_append_self, bind_some, hname, hcontent, if_true,
      String.ofList_toList]

theorem readObject_writeObject (value : String × String) :
    readObject (writeObject value) = some value := by
  rw [readObject_eq_some]
  refine ⟨escape value.1.toList ++ quote :: ([':', quote] ++
    (escape value.2.toList ++ quote :: [closeBrace])), _, ?_, readText_escape _ _,
    readText_escape _ _⟩
  simp [writeObject]

/-- A complete object cannot be continued: whatever follows makes the text unreadable. -/
theorem readObject_append {text later : List Char} {v w : String × String}
    (hv : readObject text = some v) (hw : readObject (text ++ later) = some w) : w = v := by
  obtain ⟨field, rest, rfl, hname, hcontent⟩ := readObject_eq_some.mp hv
  obtain ⟨field', rest', htext, hname', hcontent'⟩ := readObject_eq_some.mp hw
  rw [List.append_assoc, List.append_cancel_left_eq] at htext
  obtain rfl := htext
  rw [readText_append hname, some.injEq, Prod.mk.injEq, List.append_assoc,
    List.append_cancel_left_eq] at hname'
  obtain ⟨hname', rfl⟩ := hname'
  rw [readText_append hcontent, some.injEq, Prod.mk.injEq] at hcontent'
  exact Prod.ext (String.toList_inj.mp hname'.symm) (String.toList_inj.mp hcontent'.1.symm)

def codec : JsonCodec where
  Value := String × String
  fromStr text := readObject text.toList
  textField field value := if value.1 = field then some value.2 else none
  textObject field text := (field, text)
  toText value := String.ofList (writeObject value)
  textField_textObject := by simp
  fromStr_toText field text := by simp [readObject_writeObject]
  fromStr_append written later v w field hv _ hw := readObject_append hv (by simpa using hw)

end DeepseekX.OneFieldJson
