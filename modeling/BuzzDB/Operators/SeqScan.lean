import BuzzDB.Heap.FreedSlots
import BuzzDB.Lib.Enumeration
import BuzzDB.Recovery.HeapSystem

/-!
# Sequential scans

`SeqScan` of lab 4, with a buffer manager of its own.  Its header is not in the repository; the members
that hold the position are numbers that do not overflow.  So is the number of pages in the pool,
a constant of a missing header; here it is a parameter.

`has_next` takes `first_free_slot` for the number of slots of a page.
-/

namespace BuzzDB.Operators

open FramePool HeapSegment Recovery

/-- `SeqScan`. -/
structure SeqScan where
  heapSegment : HeapSegment
  numPages : UInt64
  numFields : UInt64
  bufferManager : HeapSystem
  currSegment : Nat
  currSlot : Nat
  tuple : List Int32

/-- The `n` values of type `int` at the front of some bytes. -/
def fieldsOf (n : Nat) (bytes : List UInt8) : List Int32 :=
  (List.range n).map fun i => (UInt32.ofNat (Image.word bytes (4 * i) 4)).toInt32

/-- A tuple, with where it was found. -/
structure Found where
  segment : Nat
  slot : Nat
  tuple : List Int32
  deriving DecidableEq

namespace SeqScan

/-- The constructor; the members of the position are set by `open`. -/
def new (tableId : UInt16) (numPages numFields : UInt64) (bufferManager : HeapSystem) : SeqScan :=
  ⟨.new tableId, numPages, numFields, bufferManager, 0, 0, []⟩

variable (scan : SeqScan)

/-- `open`, and `reset`. -/
def reset : SeqScan := { scan with currSegment := 0, currSlot := 0 }

/-- `tuple_size`. -/
def tupleSize : UInt64 := 4 * scan.numFields

/-- The body of the inner loop: read a record and copy its fields. -/
def readTuple (bufferManager : HeapSystem) (t : UInt64) : Option (HeapSystem × List Int32) := do
  let (bufferManager, record, _) ← scan.heapSegment.read HeapSystem.fixPage
    (HeapSystem.unfixPage false) bufferManager t scan.tupleSize.toUInt32
  let buf := Image.overwrite (List.replicate scan.tupleSize.toNat 0) 0 record
  if 4 * scan.numFields.toNat ≤ buf.length then
    return (bufferManager, fieldsOf scan.numFields.toNat buf)
  else none

/-- `has_next`. -/
def hasNext (scan : SeqScan) : Option (SeqScan × Bool) :=
  if _more : scan.currSegment < scan.numPages.toNat then do
    let pageId := getOverallPageId scan.heapSegment.segmentId (UInt64.ofNat scan.currSegment)
    let (bufferManager, frame) ← scan.bufferManager.fixPage pageId
    let bufferManager ← repoint bufferManager frame
    let header := SlottedPage.headerOf (getData bufferManager frame)
    if scan.currSlot < header.firstFreeSlot.toNat then do
      let (bufferManager, tuple) ← scan.readTuple bufferManager
        (tid header.overallPageId (UInt16.ofNat scan.currSlot))
      return ({ scan with
          bufferManager := bufferManager.unfixPage true frame
          currSlot := scan.currSlot + 1
          tuple }, true)
    else
      hasNext { scan with
        bufferManager := bufferManager.unfixPage true frame
        currSegment := scan.currSegment + 1
        currSlot := 0 }
  else some (scan, false)
termination_by scan.numPages.toNat - scan.currSegment

/-- `has_next`, and `get_tuple` behind it. -/
def next : Option (SeqScan × Option Found) := do
  let (scan, more) ← scan.hasNext
  return (scan, if more then some ⟨scan.currSegment, scan.currSlot - 1, scan.tuple⟩ else none)

end SeqScan

end BuzzDB.Operators
