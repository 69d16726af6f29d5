import BuzzDB.Lib.KWayMerge
import BuzzDB.Storage.PosixFile

/-!
# The external sort

`external_sort/external_sort.cc` of lab 1.  Sizes and positions are `size_t`, with its
arithmetic; file offsets become naturals where they are handed to a file.  The
priority queue is a parameter, and the `while` loop over it has fuel: `none` is a
call that throws, an access outside a vector, or fuel that has run out.
-/

namespace BuzzDB.ExternalSort

open KWayMerge (PriorityQueue)

/-! ## Words in memory -/

/-- The bytes of a `uint64_t`. -/
def wordBytes (value : UInt64) : List UInt8 := Image.bytesOf 8 value.toNat

/-- The `uint64_t` with the given bytes. -/
def wordOf (bytes : List UInt8) : UInt64 := UInt64.ofNat (Image.natOf bytes)

/-- The first `n` words of a buffer. -/
def wordsOf : Nat → List UInt8 → List UInt64
  | 0, _ => []
  | n + 1, bytes => wordOf (bytes.take 8) :: wordsOf n (bytes.drop 8)

/-- The words of a file. -/
def fileWords (content : List UInt8) : List UInt64 := wordsOf (content.length / 8) content

/-! ## The sort -/

/-- `Element`. -/
structure Element where
  value : UInt64
  chunkId : UInt64
  position : UInt64

/-- `Element::operator>`. -/
def Element.greater (element other : Element) : Bool := decide (other.value < element.value)

section Loops

variable (numValues valuesPerChunk : UInt64)

/-- `std::min(values_per_chunk, num_values - chunk_start)`. -/
def chunkSize (chunk : UInt64) : UInt64 :=
  let chunkStart := chunk * valuesPerChunk
  if numValues - chunkStart < valuesPerChunk then numValues - chunkStart else valuesPerChunk

/-- The body of the first loop: the temporary file of a chunk. -/
def createChunk (input : PosixFile UInt8) (chunk : UInt64) : Option (PosixFile UInt8) := do
  let chunkStart := chunk * valuesPerChunk
  let chunkSize := chunkSize numValues valuesPerChunk chunk
  let chunkBytes := chunkSize * 8
  let buffer := input.readBlock (chunkStart * 8).toNat (List.replicate chunkBytes.toNat 0)
  let sorted := (wordsOf chunkSize.toNat buffer).mergeSort
  let chunkFile ← (PosixFile.makeTemporaryFile : PosixFile UInt8).resize chunkBytes.toNat
  chunkFile.writeBlock (sorted.flatMap wordBytes) 0

/-- `read_block` of a single value. -/
def readValue (file : PosixFile UInt8) (position : UInt64) : UInt64 :=
  wordOf (file.readBlock position.toNat (List.replicate 8 0))

variable (pq : PriorityQueue Element Element.greater) (sortedChunks : List (PosixFile UInt8))

/-- The body of the loop that initializes the priority queue. -/
def pushFirst (state : pq.Queue × List UInt64) (i : UInt64) : Option (pq.Queue × List UInt64) :=
  let (queue, chunkPositions) := state
  if i * valuesPerChunk < numValues then do
    let file ← sortedChunks[i.toNat]?
    return (pq.push ⟨readValue file 0, i, 0⟩ queue, chunkPositions.set i.toNat 8)
  else some state

/-- The variables of the merge loop. -/
structure Merger where
  queue : pq.Queue
  chunkPositions : List UInt64
  output : PosixFile UInt8
  outputPosition : UInt64

/-- The body of the merge loop, behind `pop`. -/
def Merger.step (m : Merger pq) (top : Element) (queue : pq.Queue) : Option (Merger pq) := do
  let output ← m.output.writeBlock (wordBytes top.value) m.outputPosition.toNat
  let outputPosition := m.outputPosition + 8
  let chunkBytes := chunkSize numValues valuesPerChunk top.chunkId * 8
  let position ← m.chunkPositions[top.chunkId.toNat]?
  if position < chunkBytes then do
    let file ← sortedChunks[top.chunkId.toNat]?
    let nextValue := readValue file position
    let position := position + 8
    return ⟨pq.push ⟨nextValue, top.chunkId, position⟩ queue,
      m.chunkPositions.set top.chunkId.toNat position, output, outputPosition⟩
  else return ⟨queue, m.chunkPositions, output, outputPosition⟩

/-- The merge loop. -/
def mergeChunks : Nat → Merger pq → Option (Merger pq)
  | 0, _ => none
  | fuel + 1, m =>
    match pq.pop m.queue with
    | none => some m
    | some (top, queue) => do
      let m ← m.step numValues valuesPerChunk pq sortedChunks top queue
      mergeChunks fuel m

end Loops

/-- `external_sort`, with the output file it leaves. -/
def externalSort (pq : PriorityQueue Element Element.greater) (fuel : Nat)
    (input : PosixFile UInt8) (numValues : UInt64) (output : PosixFile UInt8) (memSize : UInt64) :
    Option (PosixFile UInt8) := do
  let valuesPerChunk := memSize / 8
  let numChunks := (numValues + valuesPerChunk - 1) / valuesPerChunk
  let chunks := (List.range numChunks.toNat).map UInt64.ofNat
  let sortedChunks ← chunks.mapM (createChunk numValues valuesPerChunk input)
  let (queue, chunkPositions) ← chunks.foldlM (pushFirst numValues valuesPerChunk pq sortedChunks)
    (pq.empty, List.replicate numChunks.toNat 0)
  let output ← output.resize (numValues * 8).toNat
  let m ← mergeChunks numValues valuesPerChunk pq sortedChunks fuel
    ⟨queue, chunkPositions, output, 0⟩
  return m.output

/-! ## Reading and writing words -/

variable {ws : List UInt64} {bytes rest : List UInt8} {m n : Nat}

@[simp] theorem length_wordBytes (value : UInt64) : (wordBytes value).length = 8 :=
  Image.length_bytesOf _ _

@[simp] theorem wordOf_wordBytes (value : UInt64) : wordOf (wordBytes value) = value := by
  rw [wordOf, wordBytes, Image.natOf_bytesOf_of_lt value.toNat_lt, UInt64.ofNat_toNat]

@[simp] theorem length_flatMap_wordBytes (ws : List UInt64) :
    (ws.flatMap wordBytes).length = 8 * ws.length := by
  induction ws with
  | nil => rfl
  | cons w ws ih =>
    rw [List.flatMap_cons, List.length_append, ih, length_wordBytes, List.length_cons]
    omega

@[simp] theorem length_wordsOf (n : Nat) (bytes : List UInt8) : (wordsOf n bytes).length = n := by
  induction n generalizing bytes with
  | zero => rfl
  | succ n ih => rw [wordsOf, List.length_cons, ih]

theorem wordsOf_add (m n : Nat) (bytes : List UInt8) :
    wordsOf (m + n) bytes = wordsOf m bytes ++ wordsOf n (bytes.drop (8 * m)) := by
  induction m generalizing bytes with
  | zero => rw [Nat.zero_add, wordsOf, List.nil_append, Nat.mul_zero, List.drop_zero]
  | succ m ih =>
    rw [Nat.succ_add, wordsOf, ih, wordsOf, List.cons_append, List.drop_drop]
    congr 4
    omega

/-- What stands behind the words that are read does not matter. -/
theorem wordsOf_take (n : Nat) (bytes : List UInt8) :
    wordsOf n (bytes.take (8 * n)) = wordsOf n bytes := by
  induction n generalizing bytes with
  | zero => rfl
  | succ n ih =>
    rw [wordsOf, wordsOf, List.take_take, List.drop_take, Nat.min_eq_left (by omega)]
    have fewer : 8 * (n + 1) - 8 = 8 * n := by omega
    rw [fewer, ih]

/-- Words survive the trip through bytes. -/
theorem wordsOf_flatMap (ws : List UInt64) (rest : List UInt8) :
    wordsOf ws.length (ws.flatMap wordBytes ++ rest) = ws := by
  induction ws with
  | nil => rfl
  | cons w ws ih =>
    rw [List.length_cons, wordsOf, List.flatMap_cons, List.append_assoc,
      List.take_left' (length_wordBytes w), List.drop_left' (length_wordBytes w), ih,
      wordOf_wordBytes]

theorem fileWords_flatMap (ws : List UInt64) : fileWords (ws.flatMap wordBytes) = ws := by
  have length : (ws.flatMap wordBytes).length / 8 = ws.length := by
    rw [length_flatMap_wordBytes]
    omega
  have words := wordsOf_flatMap ws []
  rwa [List.append_nil, ← length] at words

end BuzzDB.ExternalSort
