import Mathlib.Order.MinMax
import Mathlib.Data.List.Induction

/-!
# Output deltas cut at characters

The watcher of a process cuts its output into pieces of bounded size and hands them to the
transcript and, up to a limit, to the client. A piece ends with a character if one ends within
reach of the bound; otherwise a single byte goes out, and so does a character that its chunk
does not complete.
-/

namespace DeepseekX.OutputDeltas
open List

/-- What `std::str::from_utf8` accepts. -/
def isUtf8 (bytes : List UInt8) : Bool := bytes.toByteArray.validateUTF8

def unifiedExecOutputDeltaMaxBytes : ℕ := 8192

def maxExecOutputDeltasPerCall : ℕ := 10000

variable (buffer : List UInt8)

/-- The loop of `split_valid_utf8_prefix_with_max` tries the longest cut and, down to five bytes
before it, the shorter ones. -/
def findSplit (maxLen : ℕ) : Option ℕ :=
  ((range 6).map (maxLen - ·)).find? fun split => 0 < split && isUtf8 (buffer.take split)

def splitValidUtf8PrefixWithMax (maxBytes : ℕ) : Option (List UInt8 × List UInt8) :=
  if buffer = [] then none
  else
    let maxLen := min buffer.length maxBytes
    some (buffer.splitAt ((findSplit buffer maxLen).getD 1))

def splitValidUtf8Prefix : Option (List UInt8 × List UInt8) :=
  splitValidUtf8PrefixWithMax buffer unifiedExecOutputDeltaMaxBytes

theorem isUtf8_iff {bytes : List UInt8} :
    isUtf8 bytes = true ↔ ∃ chars : List Char, bytes = chars.flatMap String.utf8EncodeChar := by
  rw [isUtf8, ByteArray.validateUTF8_eq_true_iff]
  constructor
  · rintro ⟨chars, h⟩
    exact ⟨chars, toByteArray_inj.mp h⟩
  · rintro ⟨chars, rfl⟩
    exact ⟨chars, rfl⟩

section Split
variable {buffer piece rest : List UInt8} {n k : ℕ}

theorem isUtf8_append (hpiece : isUtf8 piece = true) (hrest : isUtf8 rest = true) :
    isUtf8 (piece ++ rest) = true := by
  obtain ⟨chars, rfl⟩ := isUtf8_iff.mp hpiece
  obtain ⟨more, rfl⟩ := isUtf8_iff.mp hrest
  exact isUtf8_iff.mpr ⟨chars ++ more, flatMap_append.symm⟩

theorem isUtf8_of_append (h : isUtf8 (piece ++ rest) = true) (hpiece : isUtf8 piece = true) :
    isUtf8 rest = true := by
  obtain ⟨chars, rfl⟩ := isUtf8_iff.mp hpiece
  obtain ⟨all, hall⟩ := isUtf8_iff.mp h
  obtain ⟨more, rfl⟩ : chars <+: all :=
    isPrefix_of_utf8Encode_append_eq_utf8Encode rest.toByteArray (by
      rw [utf8Encode, utf8Encode, ← hall, toByteArray_append])
  rw [flatMap_append, append_cancel_left_eq] at hall
  exact isUtf8_iff.mpr ⟨more, hall⟩

/-- Characters end in every four bytes. -/
theorem exists_boundary (h : isUtf8 buffer = true) (hn : n ≤ buffer.length) :
    ∃ k ≤ n, n < k + 4 ∧ isUtf8 (buffer.take k) = true := by
  obtain ⟨chars, rfl⟩ := isUtf8_iff.mp h
  clear h
  induction chars generalizing n with
  | nil =>
    obtain rfl : n = 0 := Nat.le_zero.mp hn
    exact ⟨0, le_rfl, Nat.zero_lt_succ 3, rfl⟩
  | cons c chars ih =>
    have hsize := c.utf8Size_le_four
    rw [flatMap_cons, length_append, String.length_utf8EncodeChar] at hn
    by_cases hc : n < c.utf8Size
    · exact ⟨0, n.zero_le, by omega, rfl⟩
    · obtain ⟨k, hk, hnear, hutf8⟩ := ih (n := n - c.utf8Size) (by omega)
      refine ⟨c.utf8Size + k, by omega, by omega, ?_⟩
      rw [flatMap_cons, ← String.length_utf8EncodeChar, take_length_add_append]
      exact isUtf8_append (isUtf8_iff.mpr ⟨[c], by simp⟩) hutf8

theorem findSplit_spec (h : findSplit buffer n = some k) :
    0 < k ∧ k ≤ n ∧ isUtf8 (buffer.take k) = true := by
  obtain ⟨back, -, rfl⟩ := mem_map.mp (mem_of_find?_eq_some h)
  have hcut := find?_some h
  rw [Bool.and_eq_true, decide_eq_true_iff] at hcut
  exact ⟨hcut.1, Nat.sub_le n back, hcut.2⟩

theorem findSplit_ne_none (hpos : 0 < k) (hle : k ≤ n) (hnear : n < k + 4)
    (hutf8 : isUtf8 (buffer.take k) = true) : findSplit buffer n ≠ none := by
  intro hnone
  have hback : n - (n - k) = k := Nat.sub_sub_self hle
  have hcut := find?_eq_none.mp hnone k (mem_map.mpr ⟨n - k, mem_range.mpr (by omega), hback⟩)
  simp [hpos, hutf8] at hcut

/-- A cut takes some bytes, not too many, and ends with a character if the buffer does. -/
theorem splitValidUtf8Prefix_spec (h : splitValidUtf8Prefix buffer = some (piece, rest)) :
    buffer = piece ++ rest ∧ piece ≠ [] ∧ piece.length ≤ unifiedExecOutputDeltaMaxBytes ∧
      (isUtf8 buffer = true ↔ isUtf8 piece = true ∧ isUtf8 rest = true) := by
  rw [splitValidUtf8Prefix, splitValidUtf8PrefixWithMax] at h
  split at h
  next => cases h
  next hbuffer =>
    have hlength := length_pos_iff.mpr hbuffer
    dsimp only at h
    generalize hn : min buffer.length unifiedExecOutputDeltaMaxBytes = n at h
    have hbound : 0 < n ∧ n ≤ buffer.length ∧ n ≤ 8192 ∧ (n = buffer.length ∨ n = 8192) := by
      rw [unifiedExecOutputDeltaMaxBytes] at hn
      omega
    have hpiece : (0 < (findSplit buffer n).getD 1 ∧ (findSplit buffer n).getD 1 ≤ n) ∧
        (isUtf8 buffer = true → isUtf8 (buffer.take ((findSplit buffer n).getD 1)) = true) := by
      cases hfound : findSplit buffer n with
      | some k =>
        obtain ⟨hpos, hle, hutf8⟩ := findSplit_spec hfound
        exact ⟨⟨hpos, hle⟩, fun _ => hutf8⟩
      | none =>
        refine ⟨⟨Nat.one_pos, hbound.1⟩, fun hutf8 => ?_⟩
        obtain ⟨k, hk, hnear, hboundary⟩ := exists_boundary hutf8 hbound.2.1
        rcases hbound.2.2.2 with rfl | rfl
        · -- a short buffer ends with a character itself
          refine absurd hfound (findSplit_ne_none hlength le_rfl (by omega) ?_)
          rwa [take_length]
        · exact absurd hfound (findSplit_ne_none (by omega) hk hnear hboundary)
    rw [splitAt_eq] at h
    cases h
    have hsplit := take_append_drop ((findSplit buffer n).getD 1) buffer
    refine ⟨hsplit.symm, ?_, ?_, ?_⟩
    · exact ne_nil_of_length_pos (by rw [length_take]; omega)
    · rw [length_take, unifiedExecOutputDeltaMaxBytes]
      omega
    · constructor
      · intro hutf8
        exact ⟨hpiece.2 hutf8, isUtf8_of_append (hsplit.symm ▸ hutf8) (hpiece.2 hutf8)⟩
      · intro hparts
        rw [← hsplit]
        exact isUtf8_append hparts.1 hparts.2

end Split

/-- The buffer of the task, what it has handed to the transcript and to the client. The emitted
deltas are counted by the events. -/
structure Watcher where
  pending : List UInt8
  transcript : List (List UInt8)
  events : List (List UInt8)

namespace Watcher

def start : Watcher := ⟨[], [], []⟩

def emit (watcher : Watcher) (piece rest : List UInt8) : Watcher :=
  let watcher := { watcher with pending := rest, transcript := watcher.transcript ++ [piece] }
  if watcher.events.length ≥ maxExecOutputDeltasPerCall then watcher
  else { watcher with events := watcher.events ++ [piece] }

theorem pending_emit (watcher : Watcher) (piece rest : List UInt8) :
    (watcher.emit piece rest).pending = rest := by
  rw [emit]
  split <;> rfl

theorem transcript_emit (watcher : Watcher) (piece rest : List UInt8) :
    (watcher.emit piece rest).transcript = watcher.transcript ++ [piece] := by
  rw [emit]
  split <;> rfl

def drain (watcher : Watcher) : Watcher :=
  match _split : splitValidUtf8Prefix watcher.pending with
  | none => watcher
  | some (piece, rest) => (watcher.emit piece rest).drain
termination_by watcher.pending.length
decreasing_by
  obtain ⟨hsplit, hpiece, -⟩ := splitValidUtf8Prefix_spec _split
  have hpos := length_pos_iff.mpr hpiece
  rw [pending_emit, hsplit, length_append]
  omega

def processChunk (watcher : Watcher) (chunk : List UInt8) : Watcher :=
  drain { watcher with pending := watcher.pending ++ chunk }

/-- The client has got the pieces up to the limit. -/
def Limited (watcher : Watcher) : Prop :=
  watcher.events = watcher.transcript.take maxExecOutputDeltasPerCall

theorem Limited.emit {watcher : Watcher} (h : watcher.Limited) (piece rest : List UInt8) :
    (watcher.emit piece rest).Limited := by
  rw [Limited] at h
  rw [Watcher.emit, Limited, h, length_take]
  split
  next => exact (take_append_of_le_length (by omega)).symm
  next =>
    dsimp only
    rw [take_of_length_le (by omega), take_of_length_le]
    rw [length_append, length_singleton]
    omega

/-- All of the buffer goes out, in pieces that are characters exactly if the buffer is. -/
theorem drain_spec (watcher : Watcher) : ∃ pieces,
    watcher.drain.transcript = watcher.transcript ++ pieces ∧ pieces.flatten = watcher.pending ∧
      (∀ piece ∈ pieces, piece ≠ [] ∧ piece.length ≤ unifiedExecOutputDeltaMaxBytes) ∧
      ((∀ piece ∈ pieces, isUtf8 piece = true) ↔ isUtf8 watcher.pending = true) ∧
      watcher.drain.pending = [] ∧ (watcher.Limited → watcher.drain.Limited) := by
  fun_induction drain watcher with
  | case1 watcher hnone =>
    rw [splitValidUtf8Prefix, splitValidUtf8PrefixWithMax] at hnone
    split at hnone
    next hempty =>
      rw [hempty]
      exact ⟨[], (append_nil _).symm, rfl, nofun, iff_of_true nofun (by decide), rfl, id⟩
    next => cases hnone
  | case2 watcher piece rest hsplit ih =>
    obtain ⟨hpending, hne, hbound, hutf8⟩ := splitValidUtf8Prefix_spec hsplit
    obtain ⟨pieces, htranscript, hflatten, hbounds, hpieces, hrest, hlimited⟩ := ih
    rw [pending_emit] at hflatten hpieces
    refine ⟨piece :: pieces, ?_, ?_, forall_mem_cons.mpr ⟨⟨hne, hbound⟩, hbounds⟩, ?_, hrest,
      fun h => hlimited (h.emit piece rest)⟩
    · rw [htranscript, transcript_emit, append_assoc, singleton_append]
    · rw [flatten_cons, hflatten, hpending]
    · rw [forall_mem_cons, hpieces, hutf8]

def watch (chunks : List (List UInt8)) : Watcher := chunks.foldl processChunk start

/-- All of the output goes out, in order and in pieces of bounded size, and nothing is held
back. The pieces are texts exactly if every chunk is one. -/
theorem deltas_are_texts_iff (chunks : List (List UInt8)) :
    (watch chunks).transcript.flatten = chunks.flatten ∧ (watch chunks).pending = [] ∧
      (∀ piece ∈ (watch chunks).transcript,
        piece ≠ [] ∧ piece.length ≤ unifiedExecOutputDeltaMaxBytes) ∧
      (watch chunks).events = (watch chunks).transcript.take maxExecOutputDeltasPerCall ∧
      ((∀ piece ∈ (watch chunks).transcript, isUtf8 piece = true) ↔
        ∀ chunk ∈ chunks, isUtf8 chunk = true) := by
  induction chunks using reverseRecOn with
  | nil => exact ⟨rfl, rfl, nofun, rfl, iff_of_true nofun nofun⟩
  | append_singleton chunks chunk ih =>
    obtain ⟨hflatten, hpending, hbounds, hlimited, hutf8⟩ := ih
    obtain ⟨pieces, htranscript, hpieces, hbounds', hutf8', hempty, hlimited'⟩ :=
      drain_spec { watch chunks with pending := (watch chunks).pending ++ chunk }
    have hstep : watch (chunks ++ [chunk]) = (watch chunks).processChunk chunk := by
      rw [watch, foldl_append]
      rfl
    rw [hpending] at hpieces hutf8'
    rw [hstep, processChunk, htranscript]
    refine ⟨?_, hempty, forall_mem_append.mpr ⟨hbounds, hbounds'⟩, ?_, ?_⟩
    · rw [flatten_append, flatten_concat, hflatten, hpieces, nil_append]
    · rw [← htranscript]
      exact hlimited' hlimited
    · rw [forall_mem_append, forall_mem_append, forall_mem_singleton, hutf8, hutf8', nil_append]

/-- A letter of two bytes that comes in two chunks goes out as two pieces. -/
theorem divided_letter_goes_out_in_bytes :
    isUtf8 [0xC3, 0xA9] = true ∧
      ¬ ∀ piece ∈ (watch [[0xC3], [0xA9]]).transcript, isUtf8 piece = true := by
  refine ⟨by decide +kernel, fun h => ?_⟩
  obtain ⟨pieces, hfirst, -, -, hutf8, -⟩ := drain_spec { start with pending := [0xC3] }
  obtain ⟨more, hsecond, -⟩ := drain_spec
    { start.processChunk [0xC3] with pending := (start.processChunk [0xC3]).pending ++ [0xA9] }
  have hmore : (watch [[0xC3], [0xA9]]).transcript = pieces ++ more :=
    hsecond.trans (congrArg (· ++ more) hfirst)
  rw [hmore, forall_mem_append] at h
  exact absurd (hutf8.mp h.1) (by decide +kernel)

end Watcher

end DeepseekX.OutputDeltas
