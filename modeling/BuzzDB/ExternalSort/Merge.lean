import BuzzDB.ExternalSort.Chunks

/-!
# The merge of the chunks

The second half of `external_sort` merges the temporary files.  `Progress` is the
invariant of its loop: the queue has the heads of what is left of the runs, the
positions say where these stand in their files, and the output starts with what has
been taken so far.
-/

namespace BuzzDB.ExternalSort

open KWayMerge

/-- A file has the words `run`. -/
def Stores (file : PosixFile UInt8) (run : List UInt64) : Prop :=
  file.content = run.flatMap wordBytes

/-- The temporary files hold the runs. -/
structure Chunks (numValues valuesPerChunk : UInt64) (sortedChunks : List (PosixFile UInt8))
    (runs : List (List UInt64)) : Prop where
  stored : List.Forall₂ Stores sortedChunks runs
  inside : ∀ i < runs.length, i * valuesPerChunk.toNat < numValues.toNat
  length : ∀ (i : Nat) (run : List UInt64), runs[i]? = some run →
    run.length = chunkLength numValues.toNat valuesPerChunk.toNat i

variable {numValues valuesPerChunk : UInt64} {sortedChunks : List (PosixFile UInt8)}
  {runs rests : List (List UInt64)} {out : List UInt64}
  {pq : PriorityQueue Element Element.greater} {m : Merger pq}

/-- The position of a run stands behind its element in the queue. -/
def Cursor (positions : List UInt64) (i : Nat) (run rest : List UInt64) : Prop :=
  rest <:+ run ∧
    ∃ p : UInt64, positions[i]? = some p ∧ p.toNat + 8 * rest.tail.length = 8 * run.length

/-- The positions of all runs. -/
def Cursors (positions : List UInt64) (runs rests : List (List UInt64)) : Prop :=
  ∀ (i : Nat) (run rest : List UInt64), runs[i]? = some run → rests[i]? = some rest →
    Cursor positions i run rest

theorem Cursors.set {positions positions' : List UInt64} (cursors : Cursors positions runs rests)
    {i : Nat} {new : List UInt64} (others : ∀ j, i ≠ j → positions'[j]? = positions[j]?)
    (own : ∀ run, runs[i]? = some run → Cursor positions' i run new) :
    Cursors positions' runs (rests.set i new) := by
  intro j run rest atJ restAtJ
  by_cases same : i = j
  · subst same
    rw [List.getElem?_set_self'] at restAtJ
    obtain ⟨_, _, rfl⟩ := Option.map_eq_some_iff.mp restAtJ
    exact own run atJ
  · rw [List.getElem?_set_ne same] at restAtJ
    rw [Cursor, others j same]
    exact cursors j run rest atJ restAtJ

/-- The invariant of the merge loop. -/
structure Progress (numValues : UInt64) (runs : List (List UInt64)) (m : Merger pq)
    (rests : List (List UInt64)) (out : List UInt64) : Prop where
  heads : Heads (fun e : Element => e.chunkId.toNat) Element.value (pq.contents m.queue) rests
  lengths : rests.length = runs.length
  cursors : Cursors m.chunkPositions runs rests
  writable : m.output.mode = .write
  synced : m.output.Synced
  size : m.output.content.length = 8 * numValues.toNat
  written : m.output.content.take (8 * out.length) = out.flatMap wordBytes
  position : m.outputPosition.toNat = 8 * out.length
  count : out.length + rests.flatten.length = numValues.toNat

theorem Chunks.file (chunks : Chunks numValues valuesPerChunk sortedChunks runs) {i : Nat}
    {run : List UInt64} (atI : runs[i]? = some run) :
    ∃ file, sortedChunks[i]? = some file ∧ Stores file run := by
  obtain ⟨inside, rfl⟩ := List.getElem?_eq_some_iff.mp atI
  have length := chunks.stored.length_eq
  have insideFiles : i < sortedChunks.length := length ▸ inside
  exact ⟨sortedChunks[i], List.getElem?_eq_getElem insideFiles,
    chunks.stored.get insideFiles inside⟩

/-- Reading the word behind `done`. -/
theorem readValue_spec {file : PosixFile UInt8} {done rest : List UInt64} {y : UInt64}
    {position : UInt64} (stores : Stores file (done ++ y :: rest))
    (behind : position.toNat = 8 * done.length) : readValue file position = y := by
  have drops : file.content.drop (8 * done.length) = wordBytes y ++ rest.flatMap wordBytes := by
    rw [stores, List.flatMap_append, List.drop_left' (length_flatMap_wordBytes done),
      List.flatMap_cons]
  have read : file.readBlock position.toNat (List.replicate 8 0) = wordBytes y := by
    rw [behind]
    exact Image.fill_of_drop_eq drops (by rw [List.length_replicate, length_wordBytes])
  rw [readValue, read, wordOf_wordBytes]

/-- Writing a word behind those already written. -/
theorem written_append {content : List UInt8} {value : UInt64}
    (written : content.take (8 * out.length) = out.flatMap wordBytes)
    (room : 8 * out.length + 8 ≤ content.length) :
    (Image.overwrite content (8 * out.length) (wordBytes value)).take (8 * (out ++ [value]).length) =
      (out ++ [value]).flatMap wordBytes := by
  have split : content = out.flatMap wordBytes ++ content.drop (8 * out.length) := by
    rw [← written, List.take_append_drop]
  have short : (wordBytes value).length ≤ (content.drop (8 * out.length)).length := by
    rw [length_wordBytes, List.length_drop]
    omega
  have overwritten := Image.overwrite_after (out.flatMap wordBytes) _ _ short
  rw [← split, length_flatMap_wordBytes] at overwritten
  rw [overwritten]
  have together : out.flatMap wordBytes ++ wordBytes value = (out ++ [value]).flatMap wordBytes := by
    rw [List.flatMap_append, List.flatMap_singleton]
  rw [together, List.take_left' (length_flatMap_wordBytes _)]

theorem Chunks.bytes (sizes : Sizes numValues valuesPerChunk)
    (chunks : Chunks numValues valuesPerChunk sortedChunks runs) {i : UInt64} {run : List UInt64}
    (atI : runs[i.toNat]? = some run) :
    (chunkSize numValues valuesPerChunk i * 8).toNat = 8 * run.length := by
  have bytes := sizes.chunkBytes (chunks.inside _ (List.getElem?_eq_some_iff.mp atI).1)
  rw [UInt64.ofNat_toNat] at bytes
  rw [bytes, chunks.length _ _ atI]

theorem Chunks.length_le (chunks : Chunks numValues valuesPerChunk sortedChunks runs) {i : Nat}
    {run : List UInt64} (atI : runs[i]? = some run) : run.length ≤ numValues.toNat := by
  rw [chunks.length _ _ atI, chunkLength]
  omega

section Cursor

variable {positions : List UInt64} {i : Nat} {run xs : List UInt64} {x y p bytes : UInt64}

/-- The position is inside the run exactly when something is left behind the head. -/
theorem Cursor.lt_iff (cursor : Cursor positions i run (x :: xs)) (atI : positions[i]? = some p)
    (whole : bytes.toNat = 8 * run.length) : p < bytes ↔ 0 < xs.length := by
  obtain ⟨-, q, atI', ahead⟩ := cursor
  rw [atI, Option.some.injEq] at atI'
  subst atI'
  rw [List.tail_cons] at ahead
  rw [UInt64.lt_iff_toNat_lt, whole]
  omega

/-- The last value of a run is taken without moving its position. -/
theorem Cursor.exhausted (cursor : Cursor positions i run [x]) : Cursor positions i run [] := by
  obtain ⟨-, p, atI, ahead⟩ := cursor
  exact ⟨List.nil_suffix, p, atI, ahead⟩

/-- The word at the position is the next value, and the position then moves behind it. -/
theorem Cursor.advance {file : PosixFile UInt8} (cursor : Cursor positions i run (x :: y :: xs))
    (atI : positions[i]? = some p) (stores : Stores file run) (short : 8 * run.length < 2 ^ 64) :
    readValue file p = y ∧ Cursor (positions.set i (p + 8)) i run (y :: xs) := by
  obtain ⟨suffix, q, atI', ahead⟩ := cursor
  rw [atI, Option.some.injEq] at atI'
  subst atI'
  rw [List.tail_cons, List.length_cons] at ahead
  obtain ⟨done, split⟩ := (List.suffix_cons _ _).trans suffix
  have lengths := congrArg List.length split
  rw [List.length_append, List.length_cons] at lengths
  have advanced : (p + 8).toNat = p.toNat + 8 := by
    have eight : (8 : UInt64).toNat = 8 := rfl
    rw [UInt64.toNat_add, eight, Nat.mod_eq_of_lt (by omega)]
  refine ⟨?_, ⟨done, split⟩, p + 8, ?_, ?_⟩
  · rw [← split] at stores
    exact readValue_spec stores (by omega)
  · exact List.getElem?_set_self (List.getElem?_eq_some_iff.mp atI).1
  · rw [advanced, List.tail_cons]
    omega

end Cursor

/-- While values are left there is room for one more in the output. -/
theorem Progress.emit (sizes : Sizes numValues valuesPerChunk)
    (progress : Progress numValues runs m rests out) (left : 0 < rests.flatten.length)
    (value : UInt64) :
    ∃ output, m.output.writeBlock (wordBytes value) m.outputPosition.toNat = some output ∧
      output.mode = .write ∧ output.Synced ∧ output.content.length = 8 * numValues.toNat ∧
      output.content.take (8 * (out ++ [value]).length) = (out ++ [value]).flatMap wordBytes ∧
      (m.outputPosition + 8).toNat = 8 * (out ++ [value]).length := by
  obtain ⟨-, -, -, writable, synced, size, written, position, count⟩ := progress
  have few := sizes.few
  have fits : m.outputPosition.toNat + (wordBytes value).length ≤ m.output.size := by
    rw [position, length_wordBytes, PosixFile.size, synced, size]
    omega
  obtain ⟨output, write, writable', synced', size', content⟩ :=
    PosixFile.writeBlock_spec synced writable fits
  refine ⟨output, write, writable', synced', size'.trans size, ?_, ?_⟩
  · rw [content, position]
    exact written_append written (by omega)
  · have eight : (8 : UInt64).toNat = 8 := rfl
    rw [UInt64.toNat_add, position, eight, List.length_append, List.length_singleton,
      Nat.mod_eq_of_lt (by omega)]
    omega

/-- One element is taken: the least head goes from its run to the output. -/
theorem Progress.step (sizes : Sizes numValues valuesPerChunk)
    (chunks : Chunks numValues valuesPerChunk sortedChunks runs)
    (progress : Progress numValues runs m rests out) {top : Element} {queue : pq.Queue}
    (popped : pq.pop m.queue = some (top, queue)) :
    ∃ m' xs, m.step numValues valuesPerChunk pq sortedChunks top queue = some m' ∧
      rests[top.chunkId.toNat]? = some (top.value :: xs) ∧
      Progress numValues runs m' (rests.set top.chunkId.toNat xs) (out ++ [top.value]) := by
  have heads := progress.heads
  rw [pq.contents_pop popped] at heads
  obtain ⟨xs, atTop⟩ := heads.head top (Multiset.mem_cons_self _ _)
  have taken := length_flatten_set atTop
  have insideRests := (List.getElem?_eq_some_iff.mp atTop).1
  have atRun := List.getElem?_eq_getElem (progress.lengths ▸ insideRests)
  obtain ⟨file, atFile, stores⟩ := chunks.file atRun
  have cursor := progress.cursors _ _ _ atRun atTop
  obtain ⟨position, atCursor, -⟩ := cursor.2
  have inside := cursor.lt_iff atCursor (chunks.bytes sizes atRun)
  obtain ⟨output, write, writable, synced, size, written, moved⟩ :=
    progress.emit sizes (by omega) top.value
  have lengths : (rests.set top.chunkId.toNat xs).length = runs.length := by
    rw [List.length_set, progress.lengths]
  have count : (out ++ [top.value]).length + (rests.set top.chunkId.toNat xs).flatten.length =
      numValues.toNat := by
    have count := progress.count
    rw [List.length_append, List.length_singleton]
    omega
  unfold Merger.step
  rw [write]
  simp only [Option.bind_eq_bind, Option.bind_some, atCursor, inside]
  cases xs with
  | nil =>
    rw [List.length_nil, if_neg (Nat.lt_irrefl 0)]
    refine ⟨_, [], rfl, atTop, heads.exhausted, lengths, ?_, writable, synced, size, written,
      moved, count⟩
    refine progress.cursors.set (fun _ _ => rfl) fun run atRun' => ?_
    rw [atRun, Option.some.injEq] at atRun'
    exact atRun' ▸ cursor.exhausted
  | cons y ys =>
    have few := sizes.few
    have short := chunks.length_le atRun
    obtain ⟨next, cursor'⟩ := cursor.advance atCursor stores (by omega)
    rw [List.length_cons, if_pos (Nat.zero_lt_succ _), atFile]
    simp only [Option.bind_some, next]
    refine ⟨_, y :: ys, rfl, atTop, ?_, lengths, ?_, writable, synced, size, written, moved, count⟩
    · rw [pq.contents_push]
      exact heads.refill rfl rfl
    · refine progress.cursors.set (fun j other => List.getElem?_set_ne other) fun run atRun' => ?_
      rw [atRun, Option.some.injEq] at atRun'
      exact atRun' ▸ cursor'

/-- The loop ends, and has put a merge of the runs into the output. -/
theorem Progress.mergeChunks (sizes : Sizes numValues valuesPerChunk)
    (chunks : Chunks numValues valuesPerChunk sortedChunks runs)
    (progress : Progress numValues runs m rests out) :
    ∃ m' tail, (∀ fuel, rests.flatten.length < fuel →
        mergeChunks numValues valuesPerChunk pq sortedChunks fuel m = some m') ∧
      Merges rests tail ∧ m'.output.content = (out ++ tail).flatMap wordBytes := by
  induction total : rests.flatten.length generalizing m rests out with
  | zero =>
    cases popped : pq.pop m.queue with
    | some entry =>
      obtain ⟨top, queue⟩ := entry
      obtain ⟨_, _, _, head, _⟩ := progress.step sizes chunks popped
      have taken := length_flatten_set head
      omega
    | none =>
      have empty := progress.heads
      rw [pq.pop_none popped] at empty
      have count := progress.count
      rw [total, Nat.add_zero] at count
      have written := progress.written
      rw [count, ← progress.size, List.take_length] at written
      refine ⟨m, [], fun fuel enough => ?_, .done empty.used, by rw [written, List.append_nil]⟩
      obtain ⟨fuel, rfl⟩ := Nat.exists_eq_succ_of_ne_zero (Nat.ne_of_gt enough)
      rw [ExternalSort.mergeChunks, popped]
  | succ left ih =>
    cases popped : pq.pop m.queue with
    | none =>
      have empty := progress.heads
      rw [pq.pop_none popped] at empty
      rw [List.flatten_eq_nil_iff.mpr empty.used] at total
      cases total
    | some entry =>
      obtain ⟨top, queue⟩ := entry
      obtain ⟨m', xs, step, head, progress'⟩ := progress.step sizes chunks popped
      have taken := length_flatten_set head
      obtain ⟨final, tail, runs, merges, content⟩ := ih progress' (by omega)
      refine ⟨final, top.value :: tail, fun fuel enough => ?_, .take head ?_ merges, ?_⟩
      · obtain ⟨fuel, rfl⟩ := Nat.exists_eq_succ_of_ne_zero (Nat.ne_of_gt (Nat.zero_lt_of_lt enough))
        rw [ExternalSort.mergeChunks, popped]
        simp only [step, Option.bind_eq_bind, Option.bind_some]
        exact runs fuel (by omega)
      · have heads := progress.heads
        rw [pq.contents_pop popped] at heads
        refine heads.least fun other member => ?_
        have notGreater := pq.pop_least popped other member
        exact UInt64.not_lt.mp (of_decide_eq_false notGreater)
      · rw [content, List.append_assoc]
        rfl

/-! ## Filling the queue -/

variable (pq) in
/-- The second loop pushes the first element of every chunk. -/
theorem pushFirst_spec (sizes : Sizes numValues valuesPerChunk)
    (chunks : Chunks numValues valuesPerChunk sortedChunks runs) {k : Nat} (some : k ≤ runs.length) :
    ∃ queue positions, ((List.range k).map UInt64.ofNat).foldlM
        (pushFirst numValues valuesPerChunk pq sortedChunks)
        (pq.empty, List.replicate runs.length 0) = .some (queue, positions) ∧
      Heads (fun e : Element => e.chunkId.toNat) Element.value (pq.contents queue) (runs.take k) ∧
      positions.length = runs.length ∧ ∀ i < k, positions[i]? = .some 8 := by
  induction k with
  | zero =>
    refine ⟨pq.empty, _, rfl, ?_, List.length_replicate, fun i absent => absurd absent (by omega)⟩
    rw [pq.contents_empty, List.take_zero]
    exact Heads.nil
  | succ k ih =>
    obtain ⟨queue, positions, ran, heads, length, eights⟩ := ih (by omega)
    have inside := chunks.inside k some
    have atRun := List.getElem?_eq_getElem (show k < runs.length from some)
    obtain ⟨file, atFile, stores⟩ := chunks.file atRun
    have id := sizes.toNat_ofNat inside
    have starts : UInt64.ofNat k * valuesPerChunk < numValues := by
      rw [UInt64.lt_iff_toNat_lt, sizes.start inside]
      exact inside
    obtain ⟨x, xs, run⟩ : ∃ x xs, runs[k] = x :: xs := by
      refine List.exists_cons_of_length_pos ?_
      have positive := sizes.positive
      rw [chunks.length _ _ atRun, chunkLength]
      omega
    have fromStart : Stores file ([] ++ x :: xs) := run ▸ stores
    have first : readValue file 0 = x := readValue_spec fromStart rfl
    refine ⟨pq.push ⟨x, UInt64.ofNat k, 0⟩ queue, positions.set k 8, ?_, ?_, ?_, fun i less => ?_⟩
    · rw [List.range_succ, List.map_append, List.foldlM_append, ran]
      simp only [Option.bind_eq_bind, Option.bind_some, List.map_cons, List.map_nil,
        List.foldlM_cons, List.foldlM_nil, pushFirst]
      rw [if_pos starts, id, atFile]
      simp only [Option.bind_some, first]
      rfl
    · have more : runs.take (k + 1) = runs.take k ++ [x :: xs] := by
        rw [List.take_add_one, atRun, run]
        rfl
      rw [pq.contents_push, more]
      refine heads.append ?_ rfl
      rw [List.length_take, Nat.min_eq_left (Nat.le_of_lt some)]
      exact id
    · rw [List.length_set, length]
    · by_cases same : k = i
      · subst same
        exact List.getElem?_set_self (length ▸ some)
      · rw [List.getElem?_set_ne same]
        exact eights i (by omega)

/-! ## The whole sort -/

/-- The first loop leaves the sorted runs in its files. -/
theorem createChunks_spec (sizes : Sizes numValues valuesPerChunk) {input : PosixFile UInt8}
    (enough : 8 * numValues.toNat ≤ input.content.length) {k : Nat}
    (inside : ∀ i < k, i * valuesPerChunk.toNat < numValues.toNat) :
    ∃ sortedChunks, ((List.range k).map UInt64.ofNat).mapM
        (createChunk numValues valuesPerChunk input) = some sortedChunks ∧
      Chunks numValues valuesPerChunk sortedChunks ((List.range k).map
        (sortedRun input.content numValues.toNat valuesPerChunk.toNat)) := by
  have returns : ∀ i ∈ List.range k, ∃ file,
      createChunk numValues valuesPerChunk input (UInt64.ofNat i) = some file ∧
        Stores file (sortedRun input.content numValues.toNat valuesPerChunk.toNat i) :=
    fun i member => createChunk_spec sizes enough (inside i (List.mem_range.mp member))
  obtain ⟨sortedChunks, created, stored⟩ := mapM_eq_some returns
  refine ⟨sortedChunks, ?_, stored, fun i less => ?_, fun i run atI => ?_⟩
  · rw [List.mapM_map]
    exact created
  · rw [List.length_map, List.length_range] at less
    exact inside i less
  · rw [List.getElem?_map, Option.map_eq_some_iff] at atI
    obtain ⟨j, atJ, rfl⟩ := atI
    obtain ⟨_, rfl⟩ := List.getElem?_eq_some_iff.mp atJ
    rw [length_sortedRun, List.getElem_range]

/-- The queue and the resized output are where the merge loop starts. -/
theorem Progress.start (sizes : Sizes numValues valuesPerChunk)
    (chunks : Chunks numValues valuesPerChunk sortedChunks runs) {queue : pq.Queue}
    {positions : List UInt64} {output : PosixFile UInt8}
    (heads : Heads (fun e : Element => e.chunkId.toNat) Element.value (pq.contents queue) runs)
    (eights : ∀ i < runs.length, positions[i]? = some 8) (writable : output.mode = .write)
    (synced : output.Synced) (size : output.content.length = 8 * numValues.toNat)
    (all : runs.flatten.length = numValues.toNat) :
    Progress numValues runs ⟨queue, positions, output, 0⟩ runs [] where
  heads := heads
  lengths := rfl
  cursors i run rest atI restAtI := by
    rw [atI, Option.some.injEq] at restAtI
    subst restAtI
    have inside := (List.getElem?_eq_some_iff.mp atI).1
    have starts := chunks.inside i inside
    have positive := sizes.positive
    have length := chunks.length i run atI
    rw [chunkLength] at length
    refine ⟨List.suffix_rfl, 8, eights i inside, ?_⟩
    have eight : (8 : UInt64).toNat = 8 := rfl
    rw [eight, List.length_tail]
    omega
  writable := writable
  synced := synced
  size := size
  written := rfl
  position := rfl
  count := by rw [List.length_nil, Nat.zero_add, all]

/-- `external_sort` ends, and leaves exactly the first values of the input in the output file, in
ascending order.  The size of a file is an `off_t`, so that no file has `2 ^ 63` bytes. -/
theorem externalSort_sorts (pq : PriorityQueue Element Element.greater)
    {input output : PosixFile UInt8} {numValues memSize : UInt64} (memory : 8 ≤ memSize)
    (enough : 8 * numValues.toNat ≤ input.content.length)
    (isFile : input.content.length < 2 ^ 63) (writable : output.mode = .write)
    (synced : output.Synced) :
    ∃ sorted, (∀ fuel, numValues.toNat < fuel →
        externalSort pq fuel input numValues output memSize = some sorted) ∧
      sorted.content.length = 8 * numValues.toNat ∧
      (fileWords sorted.content).Pairwise (· ≤ ·) ∧
      (fileWords sorted.content).Perm ((fileWords input.content).take numValues.toNat) := by
  have eight : (8 : UInt64).toNat = 8 := rfl
  have memory' : 8 ≤ memSize.toNat := UInt64.le_iff_toNat_le.mp memory
  have perChunk : (memSize / 8).toNat = memSize.toNat / 8 := UInt64.toNat_div _ _
  have sizes : Sizes numValues (memSize / 8) := by
    have bound := memSize.toNat_lt
    refine ⟨by omega, ?_, ?_⟩
    · rw [perChunk]
      omega
    · rw [perChunk]
      omega
  let n := numValues.toNat
  let v := (memSize / 8).toNat
  let runs := (List.range ((n + v - 1) / v)).map (sortedRun input.content n v)
  have runsLength : runs.length = (n + v - 1) / v := by
    rw [List.length_map, List.length_range]
  have perm : runs.flatten.Perm (wordsOf n input.content) :=
    runs_perm input.content sizes.positive
  obtain ⟨sortedChunks, created, chunks⟩ := createChunks_spec sizes enough fun i inside =>
    start_lt inside
  obtain ⟨queue, positions, pushed, heads, length, eights⟩ :=
    pushFirst_spec pq sizes chunks (Nat.le_refl runs.length)
  rw [List.take_length] at heads
  obtain ⟨resized, resize, writable', synced', size⟩ :=
    PosixFile.resize_spec synced writable (8 * n)
  have progress := Progress.start sizes chunks heads eights writable' synced' size
    (by rw [perm.length_eq, length_wordsOf])
  obtain ⟨final, tail, ran, merges, content⟩ := progress.mergeChunks sizes chunks
  have sorted : ∀ run ∈ runs, run.Pairwise (· ≤ ·) := by
    intro run member
    obtain ⟨i, _, rfl⟩ := List.mem_map.mp member
    exact sortedRun_sorted input.content n v i
  have words : fileWords final.output.content = tail := by
    rw [content, List.nil_append, fileWords_flatMap]
  refine ⟨final.output, fun fuel more => ?_, ?_, ?_, ?_⟩
  · have bytes : (numValues * 8).toNat = 8 * n := by
      rw [UInt64.toNat_mul, eight, Nat.mod_eq_of_lt (by have := sizes.few; omega), Nat.mul_comm]
    have loops : mergeChunks numValues (memSize / 8) pq sortedChunks fuel
        ⟨queue, positions, resized, 0⟩ = some final :=
      ran fuel (by rwa [perm.length_eq, length_wordsOf])
    rw [runsLength] at pushed
    unfold externalSort
    simp only [sizes.numChunks, Option.bind_eq_bind]
    rw [created]
    simp only [Option.bind_some]
    rw [pushed]
    simp only [Option.bind_some, bytes, resize, loops]
    rfl
  · rw [content, length_flatMap_wordBytes, List.nil_append, merges.perm.length_eq,
      perm.length_eq, length_wordsOf]
  · rw [words]
    exact merges.pairwise sorted
  · rw [words, take_fileWords enough]
    exact merges.perm.trans perm

/-- `operator>` is a total preorder the other way round, as `std::greater` has to be. -/
theorem Element.greater_total (a b : Element) : a.greater b = false ∨ b.greater a = false := by
  simp only [Element.greater, decide_eq_false_iff_not, UInt64.not_lt]
  exact UInt64.le_total _ _

theorem Element.greater_trans (a b c : Element) (first : a.greater b = false)
    (second : b.greater c = false) : a.greater c = false := by
  simp only [Element.greater, decide_eq_false_iff_not, UInt64.not_lt] at first second ⊢
  exact UInt64.le_trans first second

/-- Three values, two of which fit the memory. -/
theorem externalSort_sorts_three : ∃ sorted,
    (∀ fuel, 3 < fuel →
      externalSort (.sorted Element.greater Element.greater_total Element.greater_trans) fuel
        (.openFile ([5, 9, 1].flatMap wordBytes) .read) 3 (.openFile [] .write) 16 = some sorted) ∧
      sorted.content.length = 8 * 3 ∧ (fileWords sorted.content).Pairwise (· ≤ ·) ∧
      (fileWords sorted.content).Perm ((fileWords ([5, 9, 1].flatMap wordBytes)).take 3) := by
  let input : PosixFile UInt8 := .openFile ([5, 9, 1].flatMap wordBytes) .read
  have memory : (8 : UInt64) ≤ 16 := by decide
  have enough : 8 * (3 : UInt64).toNat ≤ input.content.length := by decide
  have isFile : input.content.length < 2 ^ 63 := by decide
  exact externalSort_sorts _ memory enough isFile rfl (PosixFile.openFile_synced [] .write)

/-- A file whose `size()` is 0 although a value has been written to it keeps that value when it is
resized to 0. -/
theorem not_externalSort_sorts_longer :
    ∃ output, (PosixFile.openFile [] .write).writeBlock (wordBytes 5) 0 = some output ∧
      output.mode = .write ∧
      ¬ ∃ sorted, (∀ fuel, (0 : UInt64).toNat < fuel →
          externalSort (.sorted Element.greater Element.greater_total Element.greater_trans) fuel
            (.openFile [] .read) 0 output 8 = some sorted) ∧
        sorted.content.length = 8 * (0 : UInt64).toNat := by
  refine ⟨⟨.write, wordBytes 5, 0⟩, rfl, rfl, ?_⟩
  rintro ⟨sorted, ends, length⟩
  have kept : externalSort (.sorted Element.greater Element.greater_total Element.greater_trans) 1
      (.openFile [] .read) 0 ⟨.write, wordBytes 5, 0⟩ 8 = some ⟨.write, wordBytes 5, 0⟩ := rfl
  obtain rfl := Option.some.inj ((ends 1 (by decide)).symm.trans kept)
  exact absurd length (by decide)

end BuzzDB.ExternalSort
