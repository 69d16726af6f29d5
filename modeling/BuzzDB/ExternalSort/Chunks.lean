import BuzzDB.ExternalSort.ExternalSort

/-!
# The sorted chunks

The first loop of `external_sort` cuts the values into chunks and sorts each of them.
No `size_t` wraps around while it does, since the values fit a file.
-/

namespace BuzzDB.ExternalSort

/-- The number of values in chunk `i`. -/
def chunkLength (n v i : Nat) : Nat := min v (n - i * v)

/-- The values of chunk `i`, sorted. -/
def sortedRun (content : List UInt8) (n v i : Nat) : List UInt64 :=
  (wordsOf (chunkLength n v i) (content.drop (8 * (i * v)))).mergeSort

/-- What the sizes of files and of memory mean for the numbers of values. -/
structure Sizes (numValues valuesPerChunk : UInt64) : Prop where
  few : numValues.toNat < 2 ^ 60
  positive : 0 < valuesPerChunk.toNat
  fits : valuesPerChunk.toNat < 2 ^ 61

variable {numValues valuesPerChunk : UInt64} {content : List UInt8} {n v k i : Nat}

/-! ## Arithmetic -/

theorem Sizes.numChunks (sizes : Sizes numValues valuesPerChunk) :
    ((numValues + valuesPerChunk - 1) / valuesPerChunk).toNat =
      (numValues.toNat + valuesPerChunk.toNat - 1) / valuesPerChunk.toNat := by
  obtain ⟨few, positive, fits⟩ := sizes
  have sum : (numValues + valuesPerChunk).toNat = numValues.toNat + valuesPerChunk.toNat := by
    rw [UInt64.toNat_add, Nat.mod_eq_of_lt (by omega)]
  have one : (1 : UInt64).toNat = 1 := rfl
  rw [UInt64.toNat_div, UInt64.toNat_sub_of_le, sum, one]
  rw [UInt64.le_iff_toNat_le, sum, one]
  omega

/-- Every chunk starts in front of the end. -/
theorem start_lt (inside : i < (n + v - 1) / v) : i * v < n := by
  have positive : 0 < v := by
    by_contra zero
    rw [Nat.eq_zero_of_not_pos zero, Nat.div_zero] at inside
    cases inside
  have bound : (i + 1) * v ≤ n + v - 1 := (Nat.le_div_iff_mul_le positive).mp inside
  rw [Nat.succ_mul] at bound
  omega

theorem Sizes.toNat_ofNat (sizes : Sizes numValues valuesPerChunk)
    (inside : i * valuesPerChunk.toNat < numValues.toNat) : (UInt64.ofNat i).toNat = i := by
  have small : i ≤ i * valuesPerChunk.toNat := Nat.le_mul_of_pos_right i sizes.positive
  have few := sizes.few
  rw [UInt64.toNat_ofNat', Nat.mod_eq_of_lt (by omega)]

theorem Sizes.start (sizes : Sizes numValues valuesPerChunk)
    (inside : i * valuesPerChunk.toNat < numValues.toNat) :
    (UInt64.ofNat i * valuesPerChunk).toNat = i * valuesPerChunk.toNat := by
  have few := sizes.few
  rw [UInt64.toNat_mul, sizes.toNat_ofNat inside, Nat.mod_eq_of_lt (by omega)]

theorem Sizes.chunkSize (sizes : Sizes numValues valuesPerChunk)
    (inside : i * valuesPerChunk.toNat < numValues.toNat) :
    (chunkSize numValues valuesPerChunk (UInt64.ofNat i)).toNat =
      chunkLength numValues.toNat valuesPerChunk.toNat i := by
  have start := sizes.start inside
  have difference : (numValues - UInt64.ofNat i * valuesPerChunk).toNat =
      numValues.toNat - i * valuesPerChunk.toNat := by
    rw [UInt64.toNat_sub_of_le, start]
    rw [UInt64.le_iff_toNat_le, start]
    exact Nat.le_of_lt inside
  rw [ExternalSort.chunkSize, chunkLength]
  split
  · rename_i less
    rw [UInt64.lt_iff_toNat_lt, difference] at less
    rw [difference, Nat.min_eq_right (Nat.le_of_lt less)]
  · rename_i notLess
    rw [UInt64.lt_iff_toNat_lt, difference, Nat.not_lt] at notLess
    rw [Nat.min_eq_left notLess]

theorem Sizes.chunkBytes (sizes : Sizes numValues valuesPerChunk)
    (inside : i * valuesPerChunk.toNat < numValues.toNat) :
    (ExternalSort.chunkSize numValues valuesPerChunk (UInt64.ofNat i) * 8).toNat =
      8 * chunkLength numValues.toNat valuesPerChunk.toNat i := by
  have few := sizes.few
  have short : chunkLength numValues.toNat valuesPerChunk.toNat i ≤ numValues.toNat := by
    rw [chunkLength]
    omega
  have eight : (8 : UInt64).toNat = 8 := rfl
  rw [UInt64.toNat_mul, sizes.chunkSize inside, eight, Nat.mod_eq_of_lt (by omega), Nat.mul_comm]

/-! ## Cutting the values -/

/-- The chunks are consecutive pieces of the file. -/
theorem chunks_words (content : List UInt8) (atMost : ∀ i < k, i * v < n) :
    (List.range k).flatMap (fun i => wordsOf (chunkLength n v i) (content.drop (8 * (i * v)))) =
      wordsOf (min (k * v) n) content := by
  induction k with
  | zero =>
    rw [Nat.zero_mul, Nat.zero_min]
    rfl
  | succ k ih =>
    have inside := atMost k (Nat.lt_succ_self k)
    have step : min ((k + 1) * v) n = k * v + chunkLength n v k := by
      rw [chunkLength, Nat.succ_mul]
      omega
    rw [List.range_succ, List.flatMap_append, ih fun i less => atMost i (Nat.lt_succ_of_lt less),
      Nat.min_eq_left (Nat.le_of_lt inside), step, wordsOf_add, List.flatMap_singleton]

theorem sortedRun_perm (content : List UInt8) (n v i : Nat) :
    (sortedRun content n v i).Perm (wordsOf (chunkLength n v i) (content.drop (8 * (i * v)))) :=
  List.mergeSort_perm _ _

@[simp] theorem length_sortedRun (content : List UInt8) (n v i : Nat) :
    (sortedRun content n v i).length = chunkLength n v i := by
  rw [(sortedRun_perm content n v i).length_eq, length_wordsOf]

theorem sortedRun_sorted (content : List UInt8) (n v i : Nat) :
    (sortedRun content n v i).Pairwise (· ≤ ·) := by
  have sorted := @List.pairwise_mergeSort UInt64 (fun a b => decide (a ≤ b))
    (fun a b c => by
      simp only [decide_eq_true_eq]
      exact UInt64.le_trans)
    (fun a b => by
      simp only [Bool.or_eq_true, decide_eq_true_eq]
      exact UInt64.le_total a b)
    (wordsOf (chunkLength n v i) (content.drop (8 * (i * v))))
  exact sorted.imp of_decide_eq_true

/-- All runs together have the first `n` words of the file. -/
theorem runs_perm (content : List UInt8) (positive : 0 < v) :
    ((List.range ((n + v - 1) / v)).map (sortedRun content n v)).flatten.Perm
      (wordsOf n content) := by
  have all : n ≤ (n + v - 1) / v * v := by
    have less := Nat.lt_div_mul_add positive (a := n + v - 1)
    omega
  have words := chunks_words (n := n) (v := v) (k := (n + v - 1) / v) content
    fun i inside => start_lt inside
  rw [Nat.min_eq_right all] at words
  rw [← words]
  exact List.Perm.flatMap_left _ fun i _ => sortedRun_perm content n v i

/-- Asking for as many words as the file has at least takes them from its front. -/
theorem take_fileWords (enough : 8 * n ≤ content.length) :
    (fileWords content).take n = wordsOf n content := by
  obtain ⟨more, total⟩ : ∃ more, content.length / 8 = n + more :=
    ⟨content.length / 8 - n, by omega⟩
  rw [fileWords, total, wordsOf_add, List.take_left' (length_wordsOf n content)]

/-! ## The temporary files -/

/-- The temporary file of a chunk has the sorted run in it. -/
theorem createChunk_spec (sizes : Sizes numValues valuesPerChunk) {input : PosixFile UInt8}
    (enough : 8 * numValues.toNat ≤ input.content.length)
    (inside : i * valuesPerChunk.toNat < numValues.toNat) :
    ∃ file, createChunk numValues valuesPerChunk input (UInt64.ofNat i) = some file ∧
      file.content =
        (sortedRun input.content numValues.toNat valuesPerChunk.toNat i).flatMap wordBytes := by
  let length := chunkLength numValues.toNat valuesPerChunk.toNat i
  have few := sizes.few
  have bound : i * valuesPerChunk.toNat + length ≤ numValues.toNat := by
    change i * valuesPerChunk.toNat + min _ _ ≤ _
    omega
  have offset : (UInt64.ofNat i * valuesPerChunk * 8).toNat = 8 * (i * valuesPerChunk.toNat) := by
    have eight : (8 : UInt64).toNat = 8 := rfl
    rw [UInt64.toNat_mul, sizes.start inside, eight, Nat.mod_eq_of_lt (by omega), Nat.mul_comm]
  have buffer : input.readBlock (8 * (i * valuesPerChunk.toNat)) (List.replicate (8 * length) 0) =
      (input.content.drop (8 * (i * valuesPerChunk.toNat))).take (8 * length) := by
    refine Image.fill_of_drop_eq (List.take_append_drop (8 * length) _).symm ?_
    rw [List.length_replicate, List.length_take, List.length_drop]
    omega
  have sorted : (wordsOf length
      ((input.content.drop (8 * (i * valuesPerChunk.toNat))).take (8 * length))).mergeSort =
      sortedRun input.content numValues.toNat valuesPerChunk.toNat i := by
    rw [wordsOf_take]
    rfl
  have fresh : (PosixFile.makeTemporaryFile : PosixFile UInt8).Synced := rfl
  obtain ⟨resized, resize, writable, synced, size⟩ := PosixFile.resize_spec fresh rfl (8 * length)
  have lengths : ((sortedRun input.content numValues.toNat valuesPerChunk.toNat i).flatMap
      wordBytes).length = resized.content.length := by
    rw [length_flatMap_wordBytes, length_sortedRun, size]
  have fits : 0 + ((sortedRun input.content numValues.toNat valuesPerChunk.toNat i).flatMap
      wordBytes).length ≤ resized.size := by
    rw [Nat.zero_add, lengths, PosixFile.size, synced]
  obtain ⟨written, write, _, _, _, content⟩ := PosixFile.writeBlock_spec synced writable fits
  refine ⟨written, ?_, content.trans (Image.overwrite_all _ _ lengths)⟩
  unfold createChunk
  simp only [sizes.chunkBytes inside, sizes.chunkSize inside, offset]
  rw [buffer, sorted, resize]
  exact write

/-- Mapping a function that always returns a result as `P` says. -/
theorem mapM_eq_some {α β γ : Type} {f : α → Option β} {g : α → γ} {P : β → γ → Prop} {xs : List α}
    (returns : ∀ x ∈ xs, ∃ y, f x = some y ∧ P y (g x)) :
    ∃ ys, xs.mapM f = some ys ∧ List.Forall₂ P ys (xs.map g) := by
  induction xs with
  | nil => exact ⟨[], rfl, .nil⟩
  | cons x xs ih =>
    obtain ⟨y, first, holds⟩ := returns x List.mem_cons_self
    obtain ⟨ys, rest, all⟩ := ih fun x' member => returns x' (List.mem_cons_of_mem x member)
    refine ⟨y :: ys, ?_, .cons holds all⟩
    rw [List.mapM_cons, first, rest]
    rfl

end BuzzDB.ExternalSort
