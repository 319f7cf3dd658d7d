import DeepseekX.ListInsertions
import DeepseekX.PatchReplacements
import DeepseekX.SeekSequenceContract
import DeepseekX.Transducers
import DeepseekX.StableSorting

/-!
# Where the chunks of an update land

Every chunk becomes one replacement. Chunks with old lines are found one behind the
other, pure additions go to the end of the file, and the stable sort keeps the order
among the former and among the latter. Replacing intervals back to front puts the new
lines in their places, unless the intervals run into each other: a chunk marked as
standing at the end of the file may be found in lines that an earlier chunk has used,
and a chunk can remove the final empty line before which a pure addition is to go.
-/

namespace DeepseekX.PatchReplacements
open AbsolutePaths SeekSequence StableSorting List

def Replacement.endIndex (r : Replacement) : ℕ := r.startIndex + r.oldLen

variable (lines : List String)

def dropFinalEmptyLine : List String :=
  if endsWithEmptyLine lines then lines.dropLast else lines

/-- What a chunk is turned into. Old lines that are found only without a final empty
line are replaced by the new lines without theirs. -/
inductive Lands (lines : List String) (chunk : UpdateFileChunk) : Replacement → Prop
  | addition (h : chunk.oldLines = []) :
      Lands lines chunk ⟨insertionIndex lines, 0, chunk.newLines⟩
  | whole (start : ℕ) (h : chunk.oldLines ≠ [])
      (hmatch : MatchesAtSomeLevel lines chunk.oldLines start) : Lands lines chunk
      ⟨start, chunk.oldLines.length, chunk.newLines⟩
  | withoutFinalEmptyLine (start : ℕ) (h : endsWithEmptyLine chunk.oldLines = true)
      (hwhole : ∀ j, (if chunk.isEndOfFile then endPosition lines chunk.oldLines else start) ≤ j →
        ¬ MatchesAtSomeLevel lines chunk.oldLines j)
      (hmatch : MatchesAtSomeLevel lines chunk.oldLines.dropLast start) : Lands lines chunk
      ⟨start, chunk.oldLines.dropLast.length, dropFinalEmptyLine chunk.newLines⟩

/-- Each chunk that is marked as standing at the end of the file is found at or behind
the cursor which the chunks before it leave. -/
def endChunksBehindCursor (lines : List String) (path : AbsolutePathBuf) :
    ℕ → List UpdateFileChunk → Bool
  | _, [] => true
  | lineIndex, chunk :: chunks =>
    match locateChunk lines path lineIndex chunk with
    | .error _ => true
    | .ok (next, r) =>
      (!chunk.isEndOfFile || chunk.oldLines.isEmpty || decide (lineIndex ≤ r.startIndex)) &&
        endChunksBehindCursor lines path next chunks

/-- Of two chunks in the order of the patch, neither removes the line before which the
other one, a pure addition, is put. -/
def LeavesRoom (insertion : ℕ) (x y : UpdateFileChunk × Replacement) : Prop :=
  (y.1.oldLines = [] → x.2.startIndex ≤ insertion → x.2.endIndex ≤ insertion) ∧
    (x.1.oldLines = [] → y.2.startIndex < insertion → y.2.endIndex ≤ insertion)

instance (insertion : ℕ) (x y : UpdateFileChunk × Replacement) :
    Decidable (LeavesRoom insertion x y) :=
  inferInstanceAs (Decidable (_ ∧ _))

def additionsHaveRoom (path : AbsolutePathBuf) (chunks : List UpdateFileChunk) : Bool :=
  match locateChunks lines path 0 chunks with
  | .error _ => true
  | .ok located => decide ((chunks.zip located).Pairwise (LeavesRoom (insertionIndex lines)))

/-- The lines from `cursor` on with the new lines in place of the intervals. -/
def splice (lines : List String) : ℕ → List Replacement → List String
  | cursor, [] => lines.drop cursor
  | cursor, r :: rs =>
    (lines.drop cursor).take (r.startIndex - cursor) ++ r.newLines ++ splice lines r.endIndex rs

def Ordered (replacements : List Replacement) : Prop :=
  replacements.Pairwise fun r s => r.endIndex ≤ s.startIndex

variable {lines} {path : AbsolutePathBuf} {chunk : UpdateFileChunk}
  {chunks : List UpdateFileChunk} {r : Replacement} {located : List Replacement}

section OneChunk
variable {lineIndex next : ℕ}

theorem insertionIndex_le (lines : List String) : insertionIndex lines ≤ lines.length := by
  unfold insertionIndex
  split <;> omega

theorem seekSequence_spec {pattern : List String} {start i : ℕ} {eof : Bool}
    (hstart : start ≤ lines.length) (h : seekSequence lines pattern start eof = some i) :
    MatchesAtSomeLevel lines pattern i ∧ i + pattern.length ≤ lines.length ∧
      (eof = false → start ≤ i) := by
  by_cases hp : pattern = []
  · subst hp
    rw [seekSequence_nil, Option.some.injEq] at h
    subst h
    exact ⟨firstAtStrictestLevel_nil.matches.2, hstart, fun _ => le_refl _⟩
  · have hfirst : MatchesAtSomeLevel lines pattern i ∧ (eof = false → start ≤ i) := by
      rw [seekSequence_eq_searchFrom hp] at h
      have hmatches := (searchFrom_eq_some hp h).2.matches
      refine ⟨hmatches.2, ?_⟩
      rintro rfl
      exact hmatches.1
    have hend := hfirst.1.le_endPosition hp
    unfold endPosition at hend
    exact ⟨hfirst.1, by omega, hfirst.2⟩

variable (hindex : lineIndex ≤ lines.length)
include hindex

theorem seekContext_spec {context : Option String}
    (h : seekContext lines path lineIndex context = .ok next) :
    lineIndex ≤ next ∧ next ≤ lines.length := by
  cases context with
  | none =>
    cases h
    exact ⟨le_refl _, hindex⟩
  | some context =>
    simp only [seekContext] at h
    split at h
    · next i hseek =>
      cases h
      obtain ⟨_, hlen, hle⟩ := seekSequence_spec hindex hseek
      exact ⟨(hle rfl).trans (Nat.le_succ _), hlen⟩
    · cases h

theorem locateOldLines_spec (hold : chunk.oldLines ≠ [])
    (h : locateOldLines lines lineIndex chunk = some r) :
    Lands lines chunk r ∧ r.endIndex ≤ lines.length ∧
      (chunk.isEndOfFile = false → lineIndex ≤ r.startIndex) := by
  unfold locateOldLines at h
  split at h
  · next start hseek =>
    cases h
    obtain ⟨hmatch, hlen, hle⟩ := seekSequence_spec hindex hseek
    exact ⟨.whole start hold hmatch, hlen, hle⟩
  · next hnone =>
    rw [seekSequence_eq_searchFrom hold, searchFrom_eq_none_iff hold] at hnone
    split at h
    · next hempty =>
      obtain ⟨start, hseek, rfl⟩ := Option.map_eq_some_iff.mp h
      obtain ⟨hmatch, hlen, hle⟩ := seekSequence_spec hindex hseek
      have hfirst : (if chunk.isEndOfFile then endPosition lines chunk.oldLines else lineIndex) ≤
          if chunk.isEndOfFile then endPosition lines chunk.oldLines else start := by
        split
        · exact le_refl _
        · next heof => exact hle (Bool.eq_false_of_not_eq_true heof)
      exact ⟨.withoutFinalEmptyLine start hempty (fun j hj => hnone j (hfirst.trans hj)) hmatch,
        hlen, hle⟩
    · cases h

/-- What one iteration does to the cursor, and where the chunk lands. -/
theorem locateChunk_spec (h : locateChunk lines path lineIndex chunk = .ok (next, r)) :
    Lands lines chunk r ∧ r.endIndex ≤ lines.length ∧ next ≤ lines.length ∧
      (chunk.oldLines = [] → lineIndex ≤ next) ∧
      (chunk.oldLines ≠ [] → next = r.endIndex ∧
        (chunk.isEndOfFile = false → lineIndex ≤ r.startIndex)) := by
  unfold locateChunk at h
  split at h
  · cases h
  · next context hcontext =>
    obtain ⟨hle, hlen⟩ := seekContext_spec hindex hcontext
    split at h
    · next hold =>
      cases h
      exact ⟨.addition hold, insertionIndex_le lines, hlen, fun _ => hle, fun h => absurd hold h⟩
    · next hold =>
      split at h
      · next r' hlocate =>
        cases h
        obtain ⟨hlands, hend, hstart⟩ := locateOldLines_spec hlen hold hlocate
        exact ⟨hlands, hend, hend, fun h => absurd h hold, fun _ => ⟨rfl, fun heof =>
          hle.trans (hstart heof)⟩⟩
      · cases h

end OneChunk

/-- Two chunks with old lines, in the order of the patch, stand apart. -/
def Apart (x y : UpdateFileChunk × Replacement) : Prop :=
  x.1.oldLines ≠ [] → y.1.oldLines ≠ [] → x.2.endIndex ≤ y.2.startIndex

section AllChunks

theorem locateChunks_cons_eq_ok {lineIndex : ℕ}
    (h : locateChunks lines path lineIndex (chunk :: chunks) = .ok located) :
    ∃ next r rest, locateChunk lines path lineIndex chunk = .ok (next, r) ∧
      locateChunks lines path next chunks = .ok rest ∧ located = r :: rest := by
  unfold locateChunks at h
  split at h
  · cases h
  · next next r hchunk =>
    obtain ⟨rest, hrest, rfl⟩ := Transducers.map_eq_ok.mp h
    exact ⟨next, r, rest, hchunk, hrest, rfl⟩

theorem locateChunks_spec {lineIndex : ℕ} (hindex : lineIndex ≤ lines.length)
    (h : locateChunks lines path lineIndex chunks = .ok located)
    (hend : endChunksBehindCursor lines path lineIndex chunks = true) :
    located.length = chunks.length ∧
      (∀ x ∈ chunks.zip located, Lands lines x.1 x.2 ∧ x.2.endIndex ≤ lines.length ∧
        (x.1.oldLines ≠ [] → lineIndex ≤ x.2.startIndex)) ∧
      (chunks.zip located).Pairwise Apart := by
  induction chunks generalizing lineIndex located with
  | nil =>
    cases h
    simp
  | cons chunk chunks ih =>
    obtain ⟨next, r, rest, hchunk, hrest, rfl⟩ := locateChunks_cons_eq_ok h
    simp only [endChunksBehindCursor, hchunk, Bool.and_eq_true, Bool.or_eq_true,
      Bool.not_eq_true', decide_eq_true_eq, List.isEmpty_iff] at hend
    obtain ⟨hlands, hlen, hnext, haddition, hold⟩ := locateChunk_spec hindex hchunk
    obtain ⟨hlength, hmem, hpairwise⟩ := ih hnext hrest hend.2
    have hstart : chunk.oldLines ≠ [] → lineIndex ≤ r.startIndex := by
      intro hne
      rcases hend.1 with (heof | hempty) | hle
      · exact (hold hne).2 heof
      · exact absurd hempty hne
      · exact hle
    have hcursor : lineIndex ≤ next := by
      by_cases hempty : chunk.oldLines = []
      · exact haddition hempty
      · rw [(hold hempty).1]
        exact (hstart hempty).trans (Nat.le_add_right _ _)
    refine ⟨by simp [hlength], ?_, ?_⟩
    · intro x hx
      rw [List.zip_cons_cons, List.mem_cons] at hx
      rcases hx with rfl | hx
      · exact ⟨hlands, hlen, hstart⟩
      · obtain ⟨hlandsx, hlenx, hstartx⟩ := hmem x hx
        exact ⟨hlandsx, hlenx, fun hne => hcursor.trans (hstartx hne)⟩
    · rw [List.zip_cons_cons, List.pairwise_cons]
      refine ⟨?_, hpairwise⟩
      intro y hy hne hney
      have hy := (hmem y hy).2.2 hney
      rwa [(hold hne).1] at hy

theorem Lands.eq_addition {r : Replacement} (h : Lands lines chunk r) (hold : chunk.oldLines = []) :
    r = ⟨insertionIndex lines, 0, chunk.newLines⟩ := by
  cases h with
  | addition => rfl
  | whole start hne => exact absurd hold hne
  | withoutFinalEmptyLine start hempty =>
    rw [hold] at hempty
    cases hempty

/-- What stands apart and leaves room is sorted into order. -/
theorem sortsInto_of_apart {x y : UpdateFileChunk × Replacement} (hx : Lands lines x.1 x.2)
    (hy : Lands lines y.1 y.2) (hapart : Apart x y)
    (hroom : LeavesRoom (insertionIndex lines) x y) :
    SortsInto (fun x : UpdateFileChunk × Replacement => x.2.startIndex)
      (fun x y => x.2.endIndex ≤ y.2.startIndex) x y := by
  by_cases hxold : x.1.oldLines = []
  · have hxeq := hx.eq_addition hxold
    have hstart : x.2.startIndex = insertionIndex lines := by rw [hxeq]
    have hend : x.2.endIndex = insertionIndex lines := by rw [hxeq]; rfl
    constructor
    · intro (hle : x.2.startIndex ≤ y.2.startIndex)
      omega
    · intro (hlt : y.2.startIndex < x.2.startIndex)
      have := hroom.2 hxold (by omega)
      omega
  · by_cases hyold : y.1.oldLines = []
    · have hyeq := hy.eq_addition hyold
      have hstart : y.2.startIndex = insertionIndex lines := by rw [hyeq]
      have hend : y.2.endIndex = insertionIndex lines := by rw [hyeq]; rfl
      constructor
      · intro (hle : x.2.startIndex ≤ y.2.startIndex)
        have := hroom.1 hyold (by omega)
        omega
      · intro (hlt : y.2.startIndex < x.2.startIndex)
        omega
    · have hle := hapart hxold hyold
      have hxend : x.2.endIndex = x.2.startIndex + x.2.oldLen := rfl
      refine ⟨fun _ => hle, ?_⟩
      intro (hlt : y.2.startIndex < x.2.startIndex)
      omega

end AllChunks

section Splicing

theorem removeLines_eq {start count : ℕ} (h : start + count ≤ lines.length) :
    removeLines start count lines = lines.take start ++ lines.drop (start + count) := by
  induction count generalizing lines with
  | zero => simp [removeLines]
  | succ count ih =>
    have hlt : start < lines.length := by omega
    have herase : (lines.eraseIdx start).length = lines.length - 1 :=
      length_eraseIdx_of_lt hlt
    rw [removeLines, if_pos hlt, ih (by omega), eraseIdx_eq_take_drop_succ]
    have htake : (lines.take start).length = start := length_take_of_le hlt.le
    rw [take_append_of_le_length (by omega), take_take, Nat.min_self, drop_append,
      drop_drop, drop_eq_nil_of_le (by omega), nil_append]
    congr 2
    omega

theorem insertLines_eq {newLines : List String} {position : ℕ} (h : position ≤ lines.length) :
    insertLines position newLines lines =
      lines.take position ++ newLines ++ lines.drop position := by
  induction newLines generalizing position lines with
  | nil => simp [insertLines]
  | cons line newLines ih =>
    rw [insertLines, ListInsertions.insertIdx_eq_take_append_drop line h]
    have htake : (lines.take position).length = position := length_take_of_le h
    have hlength : position + 1 = (lines.take position ++ [line]).length := by simp [htake]
    rw [ih (by simp; omega)]
    have hsplit : lines.take position ++ line :: lines.drop position =
        (lines.take position ++ [line]) ++ lines.drop position := by simp
    rw [hsplit, hlength, take_left, drop_left]
    simp

theorem applyReplacement_eq (h : r.endIndex ≤ lines.length) :
    applyReplacement lines r = lines.take r.startIndex ++ r.newLines ++ lines.drop r.endIndex := by
  unfold Replacement.endIndex at h ⊢
  have htake : (lines.take r.startIndex).length = r.startIndex :=
    length_take_of_le (by omega)
  rw [applyReplacement, removeLines_eq h, insertLines_eq (by simp; omega)]
  rw [take_left' htake, drop_left' htake]

theorem applyReplacements_cons (r : Replacement) (rs : List Replacement) :
    applyReplacements lines (r :: rs) = applyReplacement (applyReplacements lines rs) r := by
  simp [applyReplacements]

/-- Back to front, nothing is shifted before it is replaced. -/
theorem applyReplacements_eq {replacements : List Replacement} {cursor : ℕ}
    (hordered : Ordered replacements) (hcursor : ∀ r ∈ replacements, cursor ≤ r.startIndex)
    (hlen : ∀ r ∈ replacements, r.endIndex ≤ lines.length) :
    applyReplacements lines replacements =
      lines.take cursor ++ splice lines cursor replacements := by
  induction replacements generalizing cursor with
  | nil => simp [applyReplacements, splice]
  | cons r rs ih =>
    unfold Ordered at hordered
    rw [pairwise_cons] at hordered
    have hr := hlen r mem_cons_self
    have hc := hcursor r mem_cons_self
    have hse : r.startIndex ≤ r.endIndex := Nat.le_add_right _ _
    have htake : (lines.take r.endIndex).length = r.endIndex := length_take_of_le hr
    rw [applyReplacements_cons, ih hordered.2 hordered.1
      (forall_mem_cons.mp hlen).2, applyReplacement_eq (by simp; omega)]
    have hbefore : (lines.take r.endIndex ++ splice lines r.endIndex rs).take r.startIndex =
        lines.take cursor ++ (lines.drop cursor).take (r.startIndex - cursor) := by
      rw [take_append_of_le_length (by omega), take_take, Nat.min_eq_left hse,
        ← take_add, Nat.add_sub_cancel' hc]
    have hafter : (lines.take r.endIndex ++ splice lines r.endIndex rs).drop r.endIndex =
        splice lines r.endIndex rs := by
      exact drop_left' htake
    rw [hbefore, hafter, splice]
    simp

end Splicing

/-- Replacing intervals of the file that stand one behind the other, back to front, is one
simultaneous splice. -/
theorem applyReplacements_eq_splice (lines : List String) (replacements : List Replacement)
    (hchain : replacements.IsChain fun r s => r.endIndex ≤ s.startIndex)
    (hinside : ∀ r ∈ replacements, r.endIndex ≤ lines.length) :
    applyReplacements lines replacements = splice lines 0 replacements := by
  have htrans : IsTrans Replacement fun r s => r.endIndex ≤ s.startIndex := by
    refine ⟨fun r s t hrs hst => ?_⟩
    have hs : s.startIndex ≤ s.endIndex := Nat.le_add_right _ _
    omega
  exact applyReplacements_eq hchain.pairwise (fun r _ => Nat.zero_le _) hinside

theorem insertions_at_one_place_spliced :
    applyReplacements ["a", "b", "c"] [⟨1, 0, ["x"]⟩, ⟨1, 0, ["y"]⟩, ⟨1, 1, ["B"]⟩] =
      splice ["a", "b", "c"] 0 [⟨1, 0, ["x"]⟩, ⟨1, 0, ["y"]⟩, ⟨1, 1, ["B"]⟩] ∧
    splice ["a", "b", "c"] 0 [⟨1, 0, ["x"]⟩, ⟨1, 0, ["y"]⟩, ⟨1, 1, ["B"]⟩] =
      ["a", "x", "y", "B", "c"] :=
  ⟨applyReplacements_eq_splice _ _ (by decide) (by decide), rfl⟩

/-- The replacements are those of the chunks. Both the chunks with old lines and the
pure additions come in the order of the patch. -/
def ChunksLand (lines : List String) (chunks : List UpdateFileChunk)
    (replacements : List Replacement) : Prop :=
  ∃ placed : List (UpdateFileChunk × Replacement),
    placed.map Prod.snd = replacements ∧ (placed.map Prod.fst).Perm chunks ∧
      (placed.map Prod.fst).filter (·.oldLines ≠ []) = chunks.filter (·.oldLines ≠ []) ∧
      (placed.map Prod.fst).filter (·.oldLines = []) = chunks.filter (·.oldLines = []) ∧
      ∀ x ∈ placed, Lands lines x.1 x.2

def sortPlaced (placed : List (UpdateFileChunk × Replacement)) :
    List (UpdateFileChunk × Replacement) :=
  placed.insertionSort fun x y => x.2.startIndex ≤ y.2.startIndex

section Sorting
variable (hlength : located.length = chunks.length)
include hlength

theorem sortPlaced_map_snd :
    (sortPlaced (chunks.zip located)).map Prod.snd =
      located.insertionSort fun lhs rhs => lhs.startIndex ≤ rhs.startIndex := by
  rw [sortPlaced, map_insertionSort _ (fun lhs rhs : Replacement =>
    lhs.startIndex ≤ rhs.startIndex) _ _ (fun _ _ _ _ => Iff.rfl), map_snd_zip hlength.le]

theorem sortPlaced_map_fst_perm : ((sortPlaced (chunks.zip located)).map Prod.fst).Perm chunks := by
  have hperm := (perm_insertionSort (fun x y : UpdateFileChunk × Replacement =>
    x.2.startIndex ≤ y.2.startIndex) (chunks.zip located)).map Prod.fst
  rwa [map_fst_zip hlength.ge] at hperm

theorem sortPlaced_filter
    (select : UpdateFileChunk → Bool)
    (h : (chunks.zip located).Pairwise fun x y => select x.1 = true → select y.1 = true →
      x.2.startIndex ≤ y.2.startIndex) :
    ((sortPlaced (chunks.zip located)).map Prod.fst).filter select = chunks.filter select := by
  have hsorted : ((chunks.zip located).filter (select ∘ Prod.fst)).Pairwise
      fun x y => x.2.startIndex ≤ y.2.startIndex := by
    rw [pairwise_filter]
    exact h
  rw [filter_map, sortPlaced,
    filter_insertionSort (fun x : UpdateFileChunk × Replacement => x.2.startIndex) _ hsorted,
    ← filter_map, map_fst_zip hlength.ge]

variable (hlands : ∀ x ∈ chunks.zip located, Lands lines x.1 x.2)
include hlands

theorem chunksLand_of_located (hapart : (chunks.zip located).Pairwise Apart) :
    ChunksLand lines chunks
      (located.insertionSort fun lhs rhs => lhs.startIndex ≤ rhs.startIndex) := by
  refine ⟨sortPlaced (chunks.zip located), sortPlaced_map_snd hlength,
    sortPlaced_map_fst_perm hlength, ?_, ?_, ?_⟩
  · refine sortPlaced_filter hlength _ (hapart.imp ?_)
    intro x y hxy hx hy
    have hle := hxy (of_decide_eq_true hx) (of_decide_eq_true hy)
    exact (Nat.le_add_right _ _).trans hle
  · refine sortPlaced_filter hlength _ (pairwise_of_forall_mem_list ?_)
    intro x hx y hy hxold hyold
    rw [(hlands x hx).eq_addition (of_decide_eq_true hxold),
      (hlands y hy).eq_addition (of_decide_eq_true hyold)]
  · intro x hx
    exact hlands x ((perm_insertionSort _ _).mem_iff.mp hx)

theorem ordered_of_located (hapart : (chunks.zip located).Pairwise Apart)
    (hroom : (chunks.zip located).Pairwise (LeavesRoom (insertionIndex lines))) :
    Ordered (located.insertionSort fun lhs rhs => lhs.startIndex ≤ rhs.startIndex) := by
  rw [← sortPlaced_map_snd hlength]
  unfold Ordered
  rw [pairwise_map]
  refine pairwise_insertionSort ((hapart.and hroom).imp_of_mem ?_)
  intro x y hx hy hxy
  exact sortsInto_of_apart (hlands x hx) (hlands y hy) hxy.1 hxy.2

end Sorting

/-- One replacement for each chunk, inside the file and one behind the other, with the
chunks that have old lines and the pure additions each in the order of the patch; the
patched file has all their new lines, in that order, between the lines that stay. -/
theorem chunks_land_in_order (lines : List String) (path : AbsolutePathBuf)
    (chunks : List UpdateFileChunk) (replacements : List Replacement)
    (h : computeReplacements lines path chunks = .ok replacements)
    (hend : endChunksBehindCursor lines path 0 chunks = true)
    (hroom : additionsHaveRoom lines path chunks = true) :
    ChunksLand lines chunks replacements ∧ Ordered replacements ∧
      (∀ r ∈ replacements, r.endIndex ≤ lines.length) ∧
      applyReplacements lines replacements = splice lines 0 replacements := by
  obtain ⟨located, hlocated, rfl⟩ := Transducers.map_eq_ok.mp h
  unfold additionsHaveRoom at hroom
  rw [hlocated] at hroom
  obtain ⟨hlength, hmem, hapart⟩ := locateChunks_spec (Nat.zero_le _) hlocated hend
  have hlands : ∀ x ∈ chunks.zip located, Lands lines x.1 x.2 := fun x hx => (hmem x hx).1
  have hordered := ordered_of_located hlength hlands hapart (of_decide_eq_true hroom)
  have hinside : ∀ r ∈ located.insertionSort fun lhs rhs => lhs.startIndex ≤ rhs.startIndex,
      r.endIndex ≤ lines.length := by
    intro r hr
    rw [← sortPlaced_map_snd hlength, mem_map] at hr
    obtain ⟨x, hx, rfl⟩ := hr
    exact (hmem x ((perm_insertionSort _ _).mem_iff.mp hx)).2.1
  refine ⟨chunksLand_of_located hlength hlands hapart, hordered, hinside, ?_⟩
  exact applyReplacements_eq hordered (fun r _ => Nat.zero_le _) hinside

/-- A pure addition, a change found without the final empty line, and a chunk marked as
standing at the end. -/
def sampleChunks : List UpdateFileChunk :=
  [⟨none, [], ["z"], false⟩, ⟨none, ["a"], ["A"], false⟩, ⟨none, ["c", ""], ["C", ""], true⟩]

theorem sampleChunks_land :
    ChunksLand ["a", "b", "c"] sampleChunks [⟨0, 1, ["A"]⟩, ⟨2, 1, ["C"]⟩, ⟨3, 0, ["z"]⟩] ∧
      applyReplacements ["a", "b", "c"] [⟨0, 1, ["A"]⟩, ⟨2, 1, ["C"]⟩, ⟨3, 0, ["z"]⟩] =
        ["A", "b", "C", "z"] := by
  have h := chunks_land_in_order ["a", "b", "c"] ⟨["f"]⟩ sampleChunks
    [⟨0, 1, ["A"]⟩, ⟨2, 1, ["C"]⟩, ⟨3, 0, ["z"]⟩] (by decide) (by decide) (by decide)
  exact ⟨h.1, h.2.2.2⟩

/-- The order of the patch, with one replacement for each chunk that changes something
and the new lines as they stand in the patch. -/
def LandInChunkOrder (lines : List String) (chunks : List UpdateFileChunk)
    (replacements : List Replacement) : Prop :=
  (chunks.filter fun chunk => chunk.oldLines ≠ chunk.newLines).map (·.newLines) =
      replacements.map (·.newLines) ∧
    Ordered replacements ∧ ∀ r ∈ replacements, r.endIndex ≤ lines.length

/-- A pure addition moves behind a later change, a chunk without a change has its
replacement, and a final empty line of the new lines can be left out. -/
theorem chunks_out_of_order :
    (∃ rs, computeReplacements ["a", "b"] ⟨["f"]⟩
        [⟨none, [], ["z"], false⟩, ⟨none, ["a"], ["A"], false⟩] = .ok rs ∧
      ¬ LandInChunkOrder ["a", "b"] [⟨none, [], ["z"], false⟩, ⟨none, ["a"], ["A"], false⟩] rs) ∧
    (∃ rs, computeReplacements ["a"] ⟨["f"]⟩ [⟨none, ["a"], ["a"], false⟩] = .ok rs ∧
      ¬ LandInChunkOrder ["a"] [⟨none, ["a"], ["a"], false⟩] rs) ∧
    (∃ rs, computeReplacements ["a"] ⟨["f"]⟩ [⟨none, ["a", ""], ["b", ""], false⟩] = .ok rs ∧
      ¬ LandInChunkOrder ["a"] [⟨none, ["a", ""], ["b", ""], false⟩] rs) := by
  refine ⟨⟨[⟨0, 1, ["A"]⟩, ⟨2, 0, ["z"]⟩], by decide, fun h => ?_⟩,
    ⟨[⟨0, 1, ["a"]⟩], by decide, fun h => ?_⟩, ⟨[⟨0, 1, ["b"]⟩], by decide, fun h => ?_⟩⟩
  · exact absurd h.1 (by decide)
  · exact absurd h.1 (by decide)
  · exact absurd h.1 (by decide)

end DeepseekX.PatchReplacements
