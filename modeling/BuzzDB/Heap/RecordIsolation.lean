import BuzzDB.Locking.HeapSystem
import BuzzDB.Recovery.HeapSystem

/-!
# Records are isolated

A write changes only its own record as long as every write is one to a record that was allocated and
is no longer than it, and every record that is allocated leaves room for its slot.  Neither is
checked: the loop of `allocate` forgets the slot, and `write` does not look at the length in it.
-/

namespace BuzzDB.HeapState

/-- The state in which a segment is opened in labs 2 and 4, -/
def openRecovery (segmentId : UInt16) (pageSize : Nat) (pageSize_lt : pageSize < 2 ^ 64)
    (pageCount : Nat) (disk : Disk UInt8) (logFile : List UInt8) (addresses : List UInt64)
    (distinct : addresses.Nodup) : HeapState Recovery.HeapSystem :=
  .new segmentId (.new pageSize pageSize_lt pageCount disk logFile addresses distinct)

/-- and in lab 3. -/
def openLocking (segmentId : UInt16) (pageSize pageCount : Nat) (disk : Disk UInt8)
    (addresses : List UInt64) (distinct : addresses.Nodup) : HeapState Locking.HeapSystem :=
  .new segmentId (.new pageSize pageCount disk addresses distinct)

/-- Contained calls isolate their records, over either buffer manager. -/
theorem isolates_of_contained (segmentId : UInt16) (pageSize pageCount : Nat) (disk : Disk UInt8)
    (addresses : List UInt64) (distinct : addresses.Nodup) :
    (∀ pageSize_lt logFile actions,
      Machine.Along step Contained (openRecovery segmentId pageSize pageSize_lt pageCount disk logFile
        addresses distinct) actions →
      Machine.Along step Isolates (openRecovery segmentId pageSize pageSize_lt pageCount disk logFile
        addresses distinct) actions) ∧
    ∀ actions,
      Machine.Along step Contained (openLocking segmentId pageSize pageCount disk addresses distinct)
        actions →
      Machine.Along step Isolates (openLocking segmentId pageSize pageCount disk addresses distinct)
        actions := by
  constructor
  · intro pageSize_lt logFile actions contained
    apply along_isolates ?_ segmentId contained
    exact Recovery.BufferManager.Wf.new pageSize pageSize_lt pageCount disk
  · intro actions contained
    apply along_isolates ?_ segmentId contained
    exact Locking.BufferManager.Wf.new pageSize pageCount disk

/-- Segments of pages of 128 bytes. -/
def recoverySegment : HeapState Recovery.HeapSystem :=
  openRecovery 7 128 (by decide) 3 (fun _ => []) [] [4096, 8192, 12288] (by decide)

def lockingSegment : HeapState Locking.HeapSystem :=
  openLocking 7 128 3 (fun _ => []) [4096, 8192, 12288] (by decide)

/-- Two records of eight bytes, -/
def twoRecords {σ : Type} [HeapManager σ] (caller : HeapManager.Caller σ) : List (HeapAction σ) :=
  [.allocate caller 8, .allocate caller 8]

/-- and a write of `size` bytes to the second. -/
def twoRecordsWrite {σ : Type} [HeapManager σ] (caller : HeapManager.Caller σ) (size : Nat) :
    List (HeapAction σ) :=
  twoRecords caller ++ [.write caller 1 (List.replicate size 9)]

/-- A write of eight bytes to a record of eight bytes. -/
theorem isolates_twoRecords :
    Machine.Along step Isolates recoverySegment (twoRecordsWrite (0 : UInt64) 8) ∧
      Machine.Along step Isolates lockingSegment (twoRecordsWrite (0 : UInt64) 8) :=
  have isolates := isolates_of_contained 7 128 3 (fun _ => []) [4096, 8192, 12288] (by decide)
  ⟨isolates.1 (by decide) [] (twoRecordsWrite (0 : UInt64) 8) (by decide +kernel),
    isolates.2 (twoRecordsWrite (0 : UInt64) 8) (by decide +kernel)⟩

/-- A run whose last write changes what a `read` of another record returns. -/
theorem not_along_isolates {σ : Type} [HeapManager σ] (s : HeapState σ) (front : List (HeapAction σ))
    (caller reader : HeapManager.Caller σ) (tid other : UInt64) (record : List UInt8) (capacity : UInt32)
    (spoils : ∃ s₁ ∈ Machine.run step s front, ∃ s₂ ∈ s₁.step (.write caller tid record),
      other ∈ s₁.tids ∧ other ≠ tid ∧ (HeapManager.fixPage reader false s₁.pool
          (HeapSegment.overallPageIdOf s₁.segment.segmentId other)).isSome ∧
        (HeapManager.fixPage reader false s₂.pool
          (HeapSegment.overallPageIdOf s₂.segment.segmentId other)).isSome ∧
        s₂.result reader other capacity ≠ s₁.result reader other capacity) :
    ¬ Machine.Along step Isolates s (front ++ [.write caller tid record]) := by
  intro along
  obtain ⟨s₁, ran, s₂, stepped, member, different, gets, gets', changed⟩ := spoils
  have isolates : s₁.Isolates (.write caller tid record) := along.last ran
  exact changed ((isolates s₂ stepped).reads reader capacity other member different gets gets')

/-- A write of nine bytes to a record of eight bytes changes the one in front of it. -/
theorem not_isolates_twoRecords :
    ¬ (∀ segmentId pageSize pageSize_lt pageCount disk logFile addresses distinct actions,
      (Machine.run step (openRecovery segmentId pageSize pageSize_lt pageCount disk logFile
        addresses distinct) actions).isSome →
      Machine.Along step Isolates (openRecovery segmentId pageSize pageSize_lt pageCount disk logFile
        addresses distinct) actions) ∧
    ¬ ∀ segmentId pageSize pageCount disk addresses distinct actions,
      (Machine.run step (openLocking segmentId pageSize pageCount disk addresses distinct)
        actions).isSome →
      Machine.Along step Isolates (openLocking segmentId pageSize pageCount disk addresses distinct)
        actions := by
  constructor
  · intro isolates
    have along : Machine.Along step Isolates recoverySegment (twoRecordsWrite (0 : UInt64) 9) :=
      isolates 7 128 (by decide) 3 (fun _ => []) [] [4096, 8192, 12288] (by decide)
        (twoRecordsWrite (0 : UInt64) 9) (by decide +kernel)
    apply not_along_isolates recoverySegment (twoRecords (0 : UInt64)) (0 : UInt64) (0 : UInt64) 1 0
      (List.replicate 9 9) 8 _ along
    decide +kernel
  · intro isolates
    have along : Machine.Along step Isolates lockingSegment (twoRecordsWrite (0 : UInt64) 9) :=
      isolates 7 128 3 (fun _ => []) [4096, 8192, 12288] (by decide)
        (twoRecordsWrite (0 : UInt64) 9) (by decide +kernel)
    apply not_along_isolates lockingSegment (twoRecords (0 : UInt64)) (0 : UInt64) (0 : UInt64) 1 0
      (List.replicate 9 9) 8 _ along
    decide +kernel

end BuzzDB.HeapState
