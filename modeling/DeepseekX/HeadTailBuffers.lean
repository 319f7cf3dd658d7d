import Mathlib.Data.List.DropRight

/-!
# Head and tail of a process's output

`HeadTailBuffer` keeps the first and the last bytes of the output it is given, each half of its
capacity. The tail is a queue of chunks from which the oldest bytes are taken.
-/

namespace DeepseekX.HeadTailBuffers
open List

structure HeadTailBuffer where
  maxBytes : ℕ
  headBudget : ℕ
  tailBudget : ℕ
  head : List (List UInt8)
  tail : List (List UInt8)
  headBytes : ℕ
  tailBytes : ℕ
  omittedBytes : ℕ

namespace HeadTailBuffer

def new (maxBytes : ℕ) : HeadTailBuffer :=
  ⟨maxBytes, maxBytes / 2, maxBytes - maxBytes / 2, [], [], 0, 0, 0⟩

variable (buffer : HeadTailBuffer)

def retainedBytes : ℕ := buffer.headBytes + buffer.tailBytes

def toBytes : List UInt8 := buffer.head.flatten ++ buffer.tail.flatten

/-- The loop of `trim_tail_to_budget`, from the front of the tail. -/
def trimFront (excess tailBytes omittedBytes : ℕ) : List (List UInt8) → List (List UInt8) × ℕ × ℕ
  | [] => ([], tailBytes, omittedBytes)
  | front :: tail =>
    if excess = 0 then (front :: tail, tailBytes, omittedBytes)
    else if front.length ≤ excess then
      trimFront (excess - front.length) (tailBytes - front.length)
        (omittedBytes + front.length) tail
    else (front.drop excess :: tail, tailBytes - excess, omittedBytes + excess)

def trimTailToBudget : HeadTailBuffer :=
  let trimmed := trimFront (buffer.tailBytes - buffer.tailBudget) buffer.tailBytes
    buffer.omittedBytes buffer.tail
  { buffer with tail := trimmed.1, tailBytes := trimmed.2.1, omittedBytes := trimmed.2.2 }

def pushToTail (chunk : List UInt8) : HeadTailBuffer :=
  if buffer.tailBudget = 0 then
    { buffer with omittedBytes := buffer.omittedBytes + chunk.length }
  else if buffer.tailBudget ≤ chunk.length then
    let kept := chunk.drop (chunk.length - buffer.tailBudget)
    let dropped := chunk.length - kept.length
    { buffer with
      tail := [kept], tailBytes := kept.length,
      omittedBytes := buffer.omittedBytes + buffer.tailBytes + dropped }
  else
    { buffer with
      tail := buffer.tail ++ [chunk], tailBytes := buffer.tailBytes + chunk.length
      : HeadTailBuffer }.trimTailToBudget

def pushChunk (chunk : List UInt8) : HeadTailBuffer :=
  if buffer.maxBytes = 0 then { buffer with omittedBytes := buffer.omittedBytes + chunk.length }
  else if buffer.headBytes < buffer.headBudget then
    let remainingHead := buffer.headBudget - buffer.headBytes
    if chunk.length ≤ remainingHead then
      { buffer with
        headBytes := buffer.headBytes + chunk.length, head := buffer.head ++ [chunk] }
    else
      let headPart := chunk.take remainingHead
      let filled :=
        if headPart.isEmpty then buffer
        else { buffer with
          headBytes := buffer.headBytes + headPart.length, head := buffer.head ++ [headPart] }
      filled.pushToTail (chunk.drop remainingHead)
  else buffer.pushToTail chunk

/-- What the buffer holds after an output: its head, and the last bytes of what follows. -/
structure Holds (maxBytes : ℕ) (output : List UInt8) : Prop where
  capacity : buffer.maxBytes = maxBytes
  headBudget : buffer.headBudget = maxBytes / 2
  tailBudget : buffer.tailBudget = maxBytes - maxBytes / 2
  head : buffer.head.flatten = output.take buffer.headBudget
  headBytes : buffer.headBytes = buffer.head.flatten.length
  tail : buffer.tail.flatten = (output.drop buffer.headBudget).rtake buffer.tailBudget
  tailBytes : buffer.tailBytes = buffer.tail.flatten.length
  total : buffer.headBytes + buffer.tailBytes + buffer.omittedBytes = output.length

variable {buffer} {maxBytes n : ℕ} {output chunk : List UInt8}

theorem length_rtake (bytes : List UInt8) (n : ℕ) :
    (bytes.rtake n).length = min n bytes.length := by
  rw [rtake, length_drop]
  omega

theorem rtake_append_of_le (h : n ≤ chunk.length) : (output ++ chunk).rtake n = chunk.rtake n := by
  simp [rtake_eq_reverse_take_reverse, take_append_of_le_length, h]

theorem trimFront_spec {excess tailBytes omittedBytes : ℕ} {tail : List (List UInt8)}
    (hexcess : excess ≤ tail.flatten.length) :
    ∃ rest, trimFront excess tailBytes omittedBytes tail =
        (rest, tailBytes - excess, omittedBytes + excess) ∧
      rest.flatten = tail.flatten.drop excess := by
  induction tail generalizing excess tailBytes omittedBytes with
  | nil =>
    obtain rfl : excess = 0 := Nat.le_zero.mp hexcess
    exact ⟨[], rfl, rfl⟩
  | cons front tail ih =>
    rw [flatten_cons, length_append] at hexcess
    unfold trimFront
    split
    next hzero =>
      rw [hzero, drop_zero]
      exact ⟨_, rfl, rfl⟩
    next =>
      split
      next hle =>
        obtain ⟨rest, htrim, hrest⟩ := @ih (excess - front.length) (tailBytes - front.length)
          (omittedBytes + front.length) (by omega)
        rw [htrim, flatten_cons, drop_append, drop_eq_nil_of_le hle, nil_append]
        refine ⟨rest, ?_, hrest⟩
        rw [Nat.sub_sub, Nat.add_assoc, Nat.add_sub_cancel' hle]
      next hlt =>
        rw [flatten_cons, drop_append_of_le_length (Nat.le_of_not_le hlt)]
        exact ⟨_, rfl, flatten_cons⟩

/-- The tail takes a chunk: its last bytes stay, the others are counted. -/
theorem pushToTail_spec (hbytes : buffer.tailBytes = buffer.tail.flatten.length)
    (hbudget : buffer.tailBytes ≤ buffer.tailBudget) (chunk : List UInt8) :
    ∃ tail omittedBytes, buffer.pushToTail chunk = { buffer with
        tail := tail, tailBytes := tail.flatten.length, omittedBytes := omittedBytes } ∧
      tail.flatten = (buffer.tail.flatten ++ chunk).rtake buffer.tailBudget ∧
      tail.flatten.length + omittedBytes =
        buffer.tailBytes + buffer.omittedBytes + chunk.length := by
  have hlength := length_rtake (buffer.tail.flatten ++ chunk) buffer.tailBudget
  rw [length_append] at hlength
  unfold pushToTail
  split
  next hzero =>
    have hnil : buffer.tail.flatten = [] := length_eq_zero_iff.mp (by omega)
    refine ⟨buffer.tail, _, by rw [← hbytes], ?_, ?_⟩
    · rw [hnil, hzero, rtake_zero]
    · omega
  next =>
    split
    next hle =>
      have hkept : (buffer.tail.flatten ++ chunk).rtake buffer.tailBudget =
        chunk.drop (chunk.length - buffer.tailBudget) := rtake_append_of_le hle
      rw [hkept] at hlength ⊢
      refine ⟨[chunk.drop (chunk.length - buffer.tailBudget)], buffer.omittedBytes +
        buffer.tailBytes + (chunk.length - (chunk.drop (chunk.length - buffer.tailBudget)).length),
        ?_⟩
      rw [flatten_singleton]
      refine ⟨rfl, rfl, ?_⟩
      omega
    next hlt =>
      have hflat : (buffer.tail ++ [chunk]).flatten = buffer.tail.flatten ++ chunk := by
        rw [flatten_append, flatten_singleton]
      obtain ⟨rest, htrim, hrest⟩ := @trimFront_spec
        (buffer.tailBytes + chunk.length - buffer.tailBudget) (buffer.tailBytes + chunk.length)
        buffer.omittedBytes (buffer.tail ++ [chunk])
        (by rw [hflat, length_append, hbytes]; exact Nat.sub_le _ _)
      have hlast : rest.flatten = (buffer.tail.flatten ++ chunk).rtake buffer.tailBudget := by
        rw [hrest, hflat, rtake, length_append, hbytes]
      refine ⟨rest, buffer.omittedBytes + (buffer.tailBytes + chunk.length - buffer.tailBudget),
        ?_, hlast, ?_⟩
      · rw [trimTailToBudget, htrim, hlast, hlength]
        congr 1
        dsimp only
        omega
      · rw [hlast, hlength]
        omega

variable (h : buffer.Holds maxBytes output)
include h

theorem Holds.pushToTail (hhead : buffer.headBudget ≤ output.length) (chunk : List UInt8) :
    (buffer.pushToTail chunk).Holds maxBytes (output ++ chunk) := by
  have hbudget : buffer.tailBytes ≤ buffer.tailBudget := by
    rw [h.tailBytes, h.tail, length_rtake]
    exact Nat.min_le_left _ _
  obtain ⟨tail, omittedBytes, heq, hflat, hcount⟩ := pushToTail_spec h.tailBytes hbudget chunk
  have htotal := h.total
  rw [heq]
  refine ⟨h.capacity, h.headBudget, h.tailBudget, ?_, h.headBytes, ?_, rfl, ?_⟩
  · rw [take_append_of_le_length hhead]
    exact h.head
  · rw [hflat, h.tail, drop_append_of_le_length hhead]
    simp [rtake_eq_reverse_take_reverse, take_append, take_take]
  · rw [length_append]
    dsimp only
    omega

/-- While the head has room the tail is empty. -/
theorem Holds.pushHead {part : List UInt8} (hroom : buffer.headBytes < buffer.headBudget)
    (hfits : buffer.headBytes + part.length ≤ buffer.headBudget) :
    { buffer with headBytes := buffer.headBytes + part.length, head := buffer.head ++ [part]
      : HeadTailBuffer }.Holds maxBytes (output ++ part) := by
  have hhead := h.headBytes
  rw [h.head, length_take] at hhead
  have hlength : output.length + part.length ≤ buffer.headBudget := by omega
  have htotal := h.total
  refine ⟨h.capacity, h.headBudget, h.tailBudget, ?_, ?_, ?_, h.tailBytes, ?_⟩
  · rw [take_of_length_le (by rwa [length_append])]
    change (buffer.head ++ [part]).flatten = output ++ part
    rw [flatten_append, flatten_singleton, h.head, take_of_length_le (by omega)]
  · dsimp only
    rw [flatten_append, flatten_singleton, length_append, h.headBytes]
  · dsimp only
    rw [h.tail, drop_eq_nil_of_le (by omega), drop_eq_nil_of_le (by rwa [length_append])]
  · dsimp only
    rw [length_append]
    omega

theorem Holds.pushChunk (chunk : List UInt8) :
    (buffer.pushChunk chunk).Holds maxBytes (output ++ chunk) := by
  have hhead := h.headBytes
  rw [h.head, length_take] at hhead
  unfold HeadTailBuffer.pushChunk
  split
  next hzero =>
    have hheadBudget := h.headBudget
    have htailBudget := h.tailBudget
    rw [← h.capacity, hzero] at hheadBudget htailBudget
    have htail : buffer.pushToTail chunk = _ := if_pos htailBudget
    rw [← htail]
    exact h.pushToTail (hheadBudget ▸ Nat.zero_le _) chunk
  next =>
    dsimp only
    split
    next hroom =>
      split
      next hfits => exact h.pushHead hroom (by omega)
      next hlong =>
        have hpart : (chunk.take (buffer.headBudget - buffer.headBytes)).length =
            buffer.headBudget - buffer.headBytes := by
          rw [length_take]
          omega
        have hne : (chunk.take (buffer.headBudget - buffer.headBytes)).isEmpty = false := by
          rw [isEmpty_eq_false_iff_exists_mem]
          exact exists_mem_of_length_pos (by omega)
        have hfilled := h.pushHead hroom (Nat.add_le_of_le_sub' hroom.le hpart.le)
        have hwhole := hfilled.pushToTail ?_ (chunk.drop (buffer.headBudget - buffer.headBytes))
        · rw [hne, if_neg Bool.false_ne_true]
          rwa [append_assoc, take_append_drop] at hwhole
        · rw [length_append]
          dsimp only
          omega
    next hfull => exact h.pushToTail (by omega) chunk

theorem holds_foldl (chunks : List (List UInt8)) :
    (chunks.foldl HeadTailBuffer.pushChunk buffer).Holds maxBytes (output ++ chunks.flatten) := by
  induction chunks generalizing buffer output with
  | nil => rwa [flatten_nil, append_nil]
  | cons chunk chunks ih =>
    rw [flatten_cons, ← append_assoc]
    exact ih (h.pushChunk chunk)

omit h

def pushAll (maxBytes : ℕ) (chunks : List (List UInt8)) : HeadTailBuffer :=
  chunks.foldl pushChunk (new maxBytes)

/-- The buffer holds the whole output, or its first and last bytes, and counts the rest. -/
theorem head_tail_buffer_exact (maxBytes : ℕ) (chunks : List (List UInt8)) :
    (pushAll maxBytes chunks).toBytes =
        (if chunks.flatten.length ≤ maxBytes then chunks.flatten
        else chunks.flatten.take (maxBytes / 2) ++ chunks.flatten.rtake (maxBytes - maxBytes / 2)) ∧
      (pushAll maxBytes chunks).retainedBytes + (pushAll maxBytes chunks).omittedBytes =
        chunks.flatten.length ∧
      (pushAll maxBytes chunks).retainedBytes ≤ maxBytes := by
  have hempty : (new maxBytes).Holds maxBytes [] :=
    ⟨rfl, rfl, rfl, take_nil.symm, rfl, by rw [drop_nil, rtake_nil]; rfl, rfl, rfl⟩
  have h : (pushAll maxBytes chunks).Holds maxBytes _ := holds_foldl hempty chunks
  rw [nil_append] at h
  generalize pushAll maxBytes chunks = buffer at h
  generalize chunks.flatten = output at h
  have hhead := h.headBudget
  have htail := h.tailBudget
  have hheadBytes := h.headBytes
  have htailBytes := h.tailBytes
  have htotal := h.total
  rw [h.head, length_take] at hheadBytes
  rw [h.tail, length_rtake, length_drop] at htailBytes
  refine ⟨?_, htotal, ?_⟩
  · rw [toBytes, h.head, h.tail, hhead, htail]
    split
    next hle =>
      rw [rtake, length_drop, Nat.sub_eq_zero_of_le (by omega), drop_zero, take_append_drop]
    next hlt =>
      have hlast : maxBytes - maxBytes / 2 ≤ (output.drop (maxBytes / 2)).length := by
        rw [length_drop]
        omega
      rw [← rtake_append_of_le hlast, take_append_drop]
  · rw [retainedBytes]
    omega

end HeadTailBuffer

end DeepseekX.HeadTailBuffers
