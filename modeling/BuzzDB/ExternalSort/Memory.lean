import BuzzDB.ExternalSort.Merge
import BuzzDB.Lib.Machine
import Mathlib.Logic.Relation

/-!
# The memory of the sort

What `external_sort` holds in memory: the buffer of one chunk while it makes the chunks, and then the
entries of the priority queue and the positions in the chunks.  A chunk fits the memory, but the
merge has an entry and a position for every chunk, and nothing bounds the number of chunks.
-/

namespace BuzzDB.ExternalSort

open KWayMerge (PriorityQueue)

section Held

variable (numValues valuesPerChunk : UInt64) (pq : PriorityQueue Element Element.greater)
  (sortedChunks : List (PosixFile UInt8))

/-- `num_chunks`. -/
def numChunks : UInt64 := (numValues + valuesPerChunk - 1) / valuesPerChunk

/-- The bytes of the buffer of a chunk. -/
def bufferBytes (chunk : UInt64) : Nat := 8 * (chunkSize numValues valuesPerChunk chunk).toNat

/-- The bytes of the queue, `sizeof(Element)` for each entry, and of the positions. -/
def heldBytes (queue : pq.Queue) (chunkPositions : List UInt64) : Nat :=
  24 * (pq.contents queue).card + 8 * chunkPositions.length

/-- One iteration of the merge loop. -/
def MergeStep (m m' : Merger pq) : Prop :=
  ∃ top queue, pq.pop m.queue = some (top, queue) ∧
    m.step numValues valuesPerChunk pq sortedChunks top queue = some m'

/-- What the merge holds is in the limit, in front of an iteration and behind its `pop`. -/
def MergeWithin (limit : Nat) (m : Merger pq) : Prop :=
  heldBytes pq m.queue m.chunkPositions ≤ limit ∧
    ∀ top queue, pq.pop m.queue = some (top, queue) → heldBytes pq queue m.chunkPositions ≤ limit

end Held

/-- Every step of `external_sort` holds at most `mem_size` bytes. -/
def WithinMemory (pq : PriorityQueue Element Element.greater) (input : PosixFile UInt8)
    (numValues : UInt64) (output : PosixFile UInt8) (memSize : UInt64) : Prop :=
  let valuesPerChunk := memSize / 8
  let numChunks := numChunks numValues valuesPerChunk
  let chunks := (List.range numChunks.toNat).map UInt64.ofNat
  (∀ chunk ∈ chunks, bufferBytes numValues valuesPerChunk chunk ≤ memSize.toNat) ∧
    ∀ sortedChunks, chunks.mapM (createChunk numValues valuesPerChunk input) = some sortedChunks →
      Machine.Always (pushFirst numValues valuesPerChunk pq sortedChunks)
        (fun state => heldBytes pq state.1 state.2 ≤ memSize.toNat)
        (pq.empty, List.replicate numChunks.toNat 0) chunks ∧
      ∀ queue chunkPositions resized m,
        chunks.foldlM (pushFirst numValues valuesPerChunk pq sortedChunks)
          (pq.empty, List.replicate numChunks.toNat 0) = some (queue, chunkPositions) →
        output.resize (numValues * 8).toNat = some resized →
        Relation.ReflTransGen (MergeStep numValues valuesPerChunk pq sortedChunks)
          ⟨queue, chunkPositions, resized, 0⟩ m →
        MergeWithin pq memSize.toNat m

variable {numValues valuesPerChunk memSize : UInt64} {sortedChunks : List (PosixFile UInt8)}
  {pq : PriorityQueue Element Element.greater} {input output : PosixFile UInt8} {limit : Nat}

/-- The merge loop makes such iterations. -/
theorem mergeChunks_steps {fuel : Nat} {m m' : Merger pq}
    (merged : mergeChunks numValues valuesPerChunk pq sortedChunks fuel m = some m') :
    Relation.ReflTransGen (MergeStep numValues valuesPerChunk pq sortedChunks) m m' := by
  induction fuel generalizing m with
  | zero => cases merged
  | succ fuel ih =>
    rw [mergeChunks] at merged
    split at merged
    · cases merged
      exact Relation.ReflTransGen.refl
    · rename_i top queue popped
      obtain ⟨next, stepped, rest⟩ := Option.bind_eq_some_iff.mp merged
      exact Relation.ReflTransGen.head ⟨top, queue, popped, stepped⟩ (ih rest)

/-- The files, the queue and the iterations of a sort that returns are those that are measured. -/
theorem externalSort_steps {fuel : Nat} {out : PosixFile UInt8}
    (returned : externalSort pq fuel input numValues output memSize = some out) :
    let numChunks := numChunks numValues (memSize / 8)
    let chunks := (List.range numChunks.toNat).map UInt64.ofNat
    ∃ sortedChunks queue chunkPositions resized m,
      chunks.mapM (createChunk numValues (memSize / 8) input) = some sortedChunks ∧
      chunks.foldlM (pushFirst numValues (memSize / 8) pq sortedChunks)
        (pq.empty, List.replicate numChunks.toNat 0) = some (queue, chunkPositions) ∧
      output.resize (numValues * 8).toNat = some resized ∧
      Relation.ReflTransGen (MergeStep numValues (memSize / 8) pq sortedChunks)
        ⟨queue, chunkPositions, resized, 0⟩ m ∧
      m.output = out := by
  obtain ⟨sortedChunks, created, returned⟩ := Option.bind_eq_some_iff.mp returned
  obtain ⟨⟨queue, chunkPositions⟩, pushed, returned⟩ := Option.bind_eq_some_iff.mp returned
  obtain ⟨resized, resize, returned⟩ := Option.bind_eq_some_iff.mp returned
  obtain ⟨m, merged, same⟩ := Option.bind_eq_some_iff.mp returned
  exact ⟨sortedChunks, queue, chunkPositions, resized, m, created, pushed, resize,
    mergeChunks_steps merged, Option.some.inj same⟩

/-! ## The number of chunks -/

/-- Where the sum wraps around there is no chunk at all. -/
theorem toNat_numChunks (positive : 0 < valuesPerChunk.toNat) :
    (numChunks numValues valuesPerChunk).toNat =
      if numValues.toNat + valuesPerChunk.toNat - 1 < 2 ^ 64
      then (numValues.toNat + valuesPerChunk.toNat - 1) / valuesPerChunk.toNat else 0 := by
  have bound := numValues.toNat_lt
  have bound' := valuesPerChunk.toNat_lt
  have one : (1 : UInt64).toNat = 1 := rfl
  have sum : (numValues + valuesPerChunk - 1).toNat =
      (numValues.toNat + valuesPerChunk.toNat - 1) % 2 ^ 64 := by
    rw [UInt64.toNat_sub, UInt64.toNat_add, one]
    omega
  rw [numChunks, UInt64.toNat_div, sum]
  split
  · rename_i fits
    rw [Nat.mod_eq_of_lt fits]
  · rename_i wraps
    refine Nat.div_eq_of_lt ?_
    omega

/-- Every chunk starts in front of the end. -/
theorem chunk_start {i : Nat} (positive : 0 < valuesPerChunk.toNat)
    (inside : i < (numChunks numValues valuesPerChunk).toNat) :
    (UInt64.ofNat i).toNat = i ∧ UInt64.ofNat i * valuesPerChunk < numValues := by
  have bound := numValues.toNat_lt
  have number : (UInt64.ofNat i).toNat = i :=
    UInt64.toNat_ofNat_of_lt' (inside.trans (numChunks numValues valuesPerChunk).toNat_lt)
  rw [toNat_numChunks positive] at inside
  split at inside
  · have start := start_lt inside
    refine ⟨number, UInt64.lt_iff_toNat_lt.mpr ?_⟩
    rw [UInt64.toNat_mul, number, Nat.mod_eq_of_lt (start.trans bound)]
    exact start
  · cases inside

/-- A chunk fits the memory. -/
theorem bufferBytes_le (chunk : UInt64) :
    bufferBytes numValues (memSize / 8) chunk ≤ memSize.toNat := by
  have perChunk : (memSize / 8).toNat = memSize.toNat / 8 := UInt64.toNat_div _ _
  have atMost : (chunkSize numValues (memSize / 8) chunk).toNat ≤ (memSize / 8).toNat := by
    rw [chunkSize]
    split
    · rename_i less
      exact (UInt64.lt_iff_toNat_lt.mp less).le
    · exact le_rfl
  rw [bufferBytes]
  omega

/-! ## Filling the queue -/

/-- Temporary files can be written. -/
theorem createChunk_isSome (numValues valuesPerChunk : UInt64) (input : PosixFile UInt8)
    (chunk : UInt64) : ∃ file, createChunk numValues valuesPerChunk input chunk = some file := by
  have fresh : (PosixFile.makeTemporaryFile : PosixFile UInt8).Synced := rfl
  obtain ⟨resized, resize, writable, _, _⟩ := PosixFile.resize_spec fresh rfl
    (chunkSize numValues valuesPerChunk chunk * 8).toNat
  unfold createChunk
  simp only [resize, Option.bind_eq_bind, Option.bind_some, PosixFile.writeBlock, writable]
  split
  · exact ⟨_, rfl⟩
  · exact ⟨_, rfl⟩

theorem createChunks_isSome (numValues valuesPerChunk : UInt64) (input : PosixFile UInt8)
    (chunks : List UInt64) : ∃ sortedChunks,
      chunks.mapM (createChunk numValues valuesPerChunk input) = some sortedChunks ∧
        sortedChunks.length = chunks.length := by
  have returns : ∀ chunk ∈ chunks, ∃ file,
      createChunk numValues valuesPerChunk input chunk = some file ∧ True := by
    intro chunk _
    obtain ⟨file, created⟩ := createChunk_isSome numValues valuesPerChunk input chunk
    exact ⟨file, created, trivial⟩
  obtain ⟨sortedChunks, created, all⟩ :=
    mapM_eq_some (g := id) (P := fun _ _ => True) returns
  refine ⟨sortedChunks, created, ?_⟩
  rw [all.length_eq, List.length_map]

/-- A step pushes at most one entry. -/
theorem pushFirst_grows {state state' : pq.Queue × List UInt64} {i : UInt64}
    (pushed : pushFirst numValues valuesPerChunk pq sortedChunks state i = some state') :
    (pq.contents state'.1).card ≤ (pq.contents state.1).card + 1 ∧
      state'.2.length = state.2.length := by
  obtain ⟨queue, chunkPositions⟩ := state
  rw [pushFirst] at pushed
  split at pushed
  · obtain ⟨file, _, same⟩ := Option.bind_eq_some_iff.mp pushed
    cases same
    rw [pq.contents_push, Multiset.card_cons, List.length_set]
    exact ⟨le_rfl, rfl⟩
  · cases pushed
    exact ⟨Nat.le_succ _, rfl⟩

/-- Every chunk gets an entry. -/
theorem pushFirst_fills (pq : PriorityQueue Element Element.greater)
    (positive : 0 < valuesPerChunk.toNat)
    (length : sortedChunks.length = (numChunks numValues valuesPerChunk).toNat) {k : Nat}
    (atMost : k ≤ (numChunks numValues valuesPerChunk).toNat) :
    ∃ queue chunkPositions, ((List.range k).map UInt64.ofNat).foldlM
        (pushFirst numValues valuesPerChunk pq sortedChunks)
        (pq.empty, List.replicate (numChunks numValues valuesPerChunk).toNat 0) =
          some (queue, chunkPositions) ∧
      (pq.contents queue).card = k ∧
      chunkPositions.length = (numChunks numValues valuesPerChunk).toNat := by
  induction k with
  | zero =>
    refine ⟨pq.empty, _, rfl, ?_, List.length_replicate⟩
    rw [pq.contents_empty, Multiset.card_zero]
  | succ k ih =>
    obtain ⟨queue, chunkPositions, ran, entries, positions⟩ := ih (by omega)
    obtain ⟨number, start⟩ := chunk_start positive atMost
    have inFiles : k < sortedChunks.length := by omega
    refine ⟨pq.push ⟨readValue sortedChunks[k] 0, UInt64.ofNat k, 0⟩ queue,
      chunkPositions.set k 8, ?_, ?_, ?_⟩
    · rw [List.range_succ, List.map_append, List.foldlM_append, ran]
      simp only [Option.bind_eq_bind, Option.bind_some, List.map_cons, List.map_nil,
        List.foldlM_cons, List.foldlM_nil, pushFirst]
      rw [if_pos start, number, List.getElem?_eq_getElem inFiles]
      rfl
    · rw [pq.contents_push, Multiset.card_cons, entries]
    · rw [List.length_set, positions]

/-- The bytes that are held while the queue is filled. -/
theorem always_pushFirst (chunks : List UInt64) {state : pq.Queue × List UInt64}
    (room : 24 * ((pq.contents state.1).card + chunks.length) + 8 * state.2.length ≤ limit) :
    Machine.Always (pushFirst numValues valuesPerChunk pq sortedChunks)
      (fun state => heldBytes pq state.1 state.2 ≤ limit) state chunks := by
  induction chunks generalizing state with
  | nil => exact room
  | cons i chunks ih =>
    rw [List.length_cons] at room
    refine ⟨?_, fun state' pushed => ih ?_⟩
    · change 24 * (pq.contents state.1).card + 8 * state.2.length ≤ limit
      omega
    · obtain ⟨entries, positions⟩ := pushFirst_grows pushed
      omega

/-! ## The merge loop -/

/-- An iteration pops an entry and pushes at most one. -/
theorem MergeStep.bounded {m m' : Merger pq}
    (step : MergeStep numValues valuesPerChunk pq sortedChunks m m') :
    (pq.contents m'.queue).card ≤ (pq.contents m.queue).card ∧
      m'.chunkPositions.length = m.chunkPositions.length := by
  obtain ⟨top, queue, popped, stepped⟩ := step
  have entries : (pq.contents m.queue).card = (pq.contents queue).card + 1 := by
    rw [pq.contents_pop popped, Multiset.card_cons]
  obtain ⟨output, _, stepped⟩ := Option.bind_eq_some_iff.mp stepped
  obtain ⟨position, _, stepped⟩ := Option.bind_eq_some_iff.mp stepped
  dsimp only at stepped
  split at stepped
  · obtain ⟨file, _, same⟩ := Option.bind_eq_some_iff.mp stepped
    cases same
    rw [pq.contents_push, Multiset.card_cons, List.length_set]
    exact ⟨entries.ge, rfl⟩
  · cases stepped
    exact ⟨(Nat.le_succ _).trans entries.ge, rfl⟩

theorem mergeWithin_of_steps {m m' : Merger pq}
    (steps : Relation.ReflTransGen (MergeStep numValues valuesPerChunk pq sortedChunks) m m')
    (room : heldBytes pq m.queue m.chunkPositions ≤ limit) : MergeWithin pq limit m' := by
  have held : heldBytes pq m'.queue m'.chunkPositions ≤ limit := by
    induction steps with
    | refl => exact room
    | tail _ step ih =>
      obtain ⟨entries, positions⟩ := step.bounded
      unfold heldBytes at ih ⊢
      omega
  refine ⟨held, fun top queue popped => ?_⟩
  have entries : (pq.contents m'.queue).card = (pq.contents queue).card + 1 := by
    rw [pq.contents_pop popped, Multiset.card_cons]
  unfold heldBytes at held ⊢
  omega

/-! ## The limit -/

/-- The whole queue is in memory when the merge starts. -/
theorem WithinMemory.peak (positive : 0 < (memSize / 8).toNat)
    (within : WithinMemory pq input numValues output memSize) :
    32 * (numChunks numValues (memSize / 8)).toNat ≤ memSize.toNat := by
  obtain ⟨sortedChunks, created, length⟩ := createChunks_isSome numValues (memSize / 8) input
    ((List.range (numChunks numValues (memSize / 8)).toNat).map UInt64.ofNat)
  rw [List.length_map, List.length_range] at length
  obtain ⟨queue, chunkPositions, ran, entries, positions⟩ := pushFirst_fills pq positive length le_rfl
  have held : 24 * (pq.contents queue).card + 8 * chunkPositions.length ≤ memSize.toNat :=
    (within.2 sortedChunks created).1.last ran
  omega

/-- The memory is enough exactly if it has room for an entry and a position for every chunk. -/
theorem withinMemory_iff (pq : PriorityQueue Element Element.greater) (input output : PosixFile UInt8)
    {numValues memSize : UInt64} (memory : 8 ≤ memSize) :
    WithinMemory pq input numValues output memSize ↔
      (numValues.toNat + memSize.toNat / 8 - 1 < 2 ^ 64 →
        32 * ((numValues.toNat + memSize.toNat / 8 - 1) / (memSize.toNat / 8)) ≤ memSize.toNat) := by
  have perChunk : (memSize / 8).toNat = memSize.toNat / 8 := UInt64.toNat_div _ _
  have positive : 0 < (memSize / 8).toNat := by
    have least : 8 ≤ memSize.toNat := UInt64.le_iff_toNat_le.mp memory
    omega
  have chunks : (numChunks numValues (memSize / 8)).toNat = _ := toNat_numChunks positive
  rw [perChunk] at chunks
  constructor
  · intro within fits
    have peak := within.peak positive
    rwa [chunks, if_pos fits] at peak
  · intro room
    have peak : 32 * (numChunks numValues (memSize / 8)).toNat ≤ memSize.toNat := by
      rw [chunks]
      split
      · rename_i fits
        exact room fits
      · exact Nat.zero_le _
    refine ⟨fun chunk _ => bufferBytes_le chunk, fun sortedChunks created => ⟨?_, ?_⟩⟩
    · refine always_pushFirst _ ?_
      dsimp only
      rw [pq.contents_empty, Multiset.card_zero, List.length_map, List.length_range,
        List.length_replicate]
      omega
    · intro queue chunkPositions resized m ran _ steps
      obtain ⟨_, created', length⟩ := createChunks_isSome numValues (memSize / 8) input
        ((List.range (numChunks numValues (memSize / 8)).toNat).map UInt64.ofNat)
      rw [List.length_map, List.length_range] at length
      cases created.symm.trans created'
      obtain ⟨_, _, ran', entries, positions⟩ := pushFirst_fills pq positive length le_rfl
      cases ran.symm.trans ran'
      refine mergeWithin_of_steps steps ?_
      change 24 * (pq.contents queue).card + 8 * chunkPositions.length ≤ memSize.toNat
      omega

/-- Twelve values fit into 96 bytes, and so do three entries with their positions: thirty values are
three chunks, forty are four. -/
theorem withinMemory_iff_thirty :
    WithinMemory (.sorted Element.greater Element.greater_total Element.greater_trans)
        (.openFile ((List.range 30).flatMap fun n => wordBytes (30 - UInt64.ofNat n)) .read) 30
        (.openFile [] .write) 96 ∧
      ¬ WithinMemory (.sorted Element.greater Element.greater_total Element.greater_trans)
        (.openFile ((List.range 40).flatMap fun n => wordBytes (40 - UInt64.ofNat n)) .read) 40
        (.openFile [] .write) 96 := by
  have memory : (8 : UInt64) ≤ 96 := by decide
  constructor
  · exact (withinMemory_iff _ _ _ memory).mpr fun _ => by decide
  · rw [withinMemory_iff _ _ _ memory]
    decide

/-- Three values in a memory of 16 bytes: two entries and positions take 64 bytes. -/
theorem not_withinMemory_three :
    ¬ WithinMemory (.sorted Element.greater Element.greater_total Element.greater_trans)
      (.openFile ([5, 9, 1].flatMap wordBytes) .read) 3 (.openFile [] .write) 16 := by
  intro within
  have peak := within.peak (by decide)
  exact absurd peak (by decide)

end BuzzDB.ExternalSort
