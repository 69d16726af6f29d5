import BuzzDB.Lib.StdSet
import BuzzDB.Recovery.BufferManager
import BuzzDB.Recovery.LogRecord

/-!
# The log manager

`log/log_manager.cc`.  The log file is its content; every caller opens it for
writing.  Offsets on the tape are naturals, as for the segment files.  The loops
`while (offset < current_offset_)` of recovery and rollback visit the records of
`recordsFrom`: nothing in their bodies writes to the log file.
-/

namespace BuzzDB.Recovery

/-- The order of a `std::set<uint64_t>`. -/
def txnLt (t u : UInt64) : Bool := decide (t < u)

/-- `LogManager`; a transaction that is not in `txn_id_to_first_log_record` is at zero, which is
what `operator[]` makes of it. -/
structure LogManager where
  logFile : List UInt8
  currentOffset : Nat
  txnIdToFirstLogRecord : UInt64 → Nat
  logRecordTypeToCount : LogRecordType → Nat
  activeTxns : List UInt64

namespace LogManager

/-- The constructor. -/
def new (logFile : List UInt8) : LogManager :=
  { logFile
    currentOffset := 0
    txnIdToFirstLogRecord := fun _ => 0
    logRecordTypeToCount := fun _ => 0
    activeTxns := [] }

/-- `reset`: only the file is replaced. -/
def reset (lm : LogManager) (logFile : List UInt8) : LogManager := { lm with logFile }

/-- `get_total_log_records_of_type`. -/
def getTotalLogRecordsOfType (lm : LogManager) (type : LogRecordType) : Nat :=
  lm.logRecordTypeToCount type

/-- `get_total_log_records`, the sum over all counters. -/
def getTotalLogRecords (lm : LogManager) : Nat :=
  ([.invalidRecordType, .abortRecord, .commitRecord, .updateRecord, .beginRecord,
    .checkpointRecord].map lm.logRecordTypeToCount).sum

/-- A `write_block` of `write_log_record`, and the advance behind it. -/
def writeField (lm : LogManager) (block : List UInt8) : LogManager :=
  { lm with
    logFile := Image.splice lm.logFile lm.currentOffset block
    currentOffset := lm.currentOffset + block.length }

/-- `write_log_record`. -/
def writeLogRecord (lm : LogManager) (record : LogRecord) : LogManager :=
  record.fields.foldl writeField lm

/-- `log_record_type_to_count[type]++`. -/
def count (lm : LogManager) (type : LogRecordType) : LogManager :=
  { lm with
    logRecordTypeToCount := Function.update lm.logRecordTypeToCount type
      (lm.logRecordTypeToCount type + 1) }

/-- `active_txns_.erase(txn_id)`. -/
def eraseActive (lm : LogManager) (txnId : UInt64) : LogManager :=
  { lm with activeTxns := StdSet.erase txnId lm.activeTxns }

/-- The records a loop from `offset` up to `current_offset_` visits, with their offsets.  A record
has at least one byte, so the distance is enough fuel. -/
def recordsFrom (lm : LogManager) : Nat → Nat → List (Nat × LogRecord)
  | 0, _ => []
  | fuel + 1, offset =>
    if offset < lm.currentOffset then
      let record := readLogRecord lm.logFile offset
      (offset, record) :: lm.recordsFrom fuel (offset + record.getRecordSize)
    else []

/-- The records from `offset` on. -/
def records (lm : LogManager) (offset : Nat) : List (Nat × LogRecord) :=
  lm.recordsFrom (lm.currentOffset - offset) offset

/-- `rollback_txn`. -/
def rollbackTxn (lm : LogManager) (txnId : UInt64) (bm : BufferManager) : Option BufferManager := do
  let updates := ((lm.records (lm.txnIdToFirstLogRecord txnId)).map Prod.snd).filter fun record =>
    record.type = .updateRecord ∧ record.txnId = txnId
  let bm ← updates.reverse.foldlM
    (fun bm record => bm.writePage record.pageId record.offset.toNat record.beforeImg) bm
  return bm.flushAllPages

/-- `log_abort`. -/
def logAbort (lm : LogManager) (txnId : UInt64) (bm : BufferManager) :
    Option (LogManager × BufferManager) := do
  let bm ← lm.rollbackTxn txnId bm
  let lm := lm.writeLogRecord { type := .abortRecord, txnId }
  return ((lm.eraseActive txnId).count .abortRecord, bm)

/-- `log_commit`. -/
def logCommit (lm : LogManager) (txnId : UInt64) : LogManager :=
  let lm := lm.writeLogRecord { type := .commitRecord, txnId }
  (lm.eraseActive txnId).count .commitRecord

/-- `log_update`. -/
def logUpdate (lm : LogManager) (txnId pageId length offset : UInt64)
    (beforeImg afterImg : List UInt8) : LogManager :=
  let lm := lm.writeLogRecord
    { type := .updateRecord, txnId, pageId, length, offset
      beforeImg := beforeImg.take length.toNat
      afterImg := afterImg.take length.toNat }
  lm.count .updateRecord

/-- `log_txn_begin`. -/
def logTxnBegin (lm : LogManager) (txnId : UInt64) : LogManager :=
  let lm := { lm with
    txnIdToFirstLogRecord := Function.update lm.txnIdToFirstLogRecord txnId lm.currentOffset
    activeTxns := StdSet.insert txnLt txnId lm.activeTxns }
  let lm := lm.writeLogRecord { type := .beginRecord, txnId }
  lm.count .beginRecord

/-- `log_checkpoint`. -/
def logCheckpoint (lm : LogManager) (bm : BufferManager) : LogManager × BufferManager :=
  let bm := bm.flushAllPages
  let activeTxns := lm.activeTxns.map fun txnId => (txnId, lm.txnIdToFirstLogRecord txnId)
  let lm := lm.writeLogRecord { type := .checkpointRecord, txnId := 0, activeTxns }
  (lm.count .checkpointRecord, bm)

/-- The local variables of the analysis phase.  The checkpoint's transactions stay in the order of
its vector. -/
structure Analysis where
  activeTxns : List UInt64
  committedTxns : List UInt64
  txnIdToFirstLogRecord : UInt64 → Nat
  lastCheckpointOffset : Nat
  lastCheckpointTxns : List (UInt64 × Nat)

/-- The body of the analysis loop. -/
def Analysis.step (a : Analysis) (entry : Nat × LogRecord) : Analysis :=
  let (offset, record) := entry
  match record.type with
  | .beginRecord =>
    if record.txnId ∈ a.committedTxns then a
    else { a with
           activeTxns := StdSet.insert txnLt record.txnId a.activeTxns
           txnIdToFirstLogRecord :=
             Function.update a.txnIdToFirstLogRecord record.txnId offset }
  | .commitRecord =>
    { a with
      activeTxns := StdSet.erase record.txnId a.activeTxns
      committedTxns := StdSet.insert txnLt record.txnId a.committedTxns }
  | .abortRecord => { a with activeTxns := StdSet.erase record.txnId a.activeTxns }
  | .checkpointRecord =>
    { a with lastCheckpointOffset := offset, lastCheckpointTxns := record.activeTxns }
  | _ => a

/-- A transaction of the last checkpoint that has not committed is active. -/
def Analysis.addFromCheckpoint (a : Analysis) (entry : UInt64 × Nat) : Analysis :=
  let (txnId, firstLogOffset) := entry
  if txnId ∈ a.committedTxns then a
  else { a with
         activeTxns := StdSet.insert txnLt txnId a.activeTxns
         txnIdToFirstLogRecord := Function.update a.txnIdToFirstLogRecord txnId firstLogOffset }

/-- The analysis phase. -/
def analysis (lm : LogManager) : Analysis :=
  let a := (lm.records 0).foldl Analysis.step
    ⟨[], [], lm.txnIdToFirstLogRecord, 0, []⟩
  if 0 < a.lastCheckpointOffset then a.lastCheckpointTxns.foldl Analysis.addFromCheckpoint a else a

/-- The body of the redo loop. -/
def redoRecord (committedTxns : List UInt64) (bm : BufferManager) (record : LogRecord) :
    Option BufferManager :=
  if record.type = .updateRecord ∧ record.txnId ∈ committedTxns then
    bm.writePage record.pageId record.offset.toNat record.afterImg
  else some bm

/-- `recovery`. -/
def recovery (lm : LogManager) (bm : BufferManager) : Option (LogManager × BufferManager) := do
  let a := lm.analysis
  let lm := { lm with txnIdToFirstLogRecord := a.txnIdToFirstLogRecord }
  let bm ← ((lm.records 0).map Prod.snd).foldlM (redoRecord a.committedTxns) bm
  let bm ← a.activeTxns.foldlM (fun bm txnId => lm.rollbackTxn txnId bm) bm
  return ({ lm with activeTxns := a.activeTxns }, bm.flushAllPages)

variable {lm lm' : LogManager} {bm bm' : BufferManager}

/-- What `log_abort` does when it returns. -/
theorem logAbort_cases {txnId : UInt64} (ran : lm.logAbort txnId bm = some (lm', bm')) :
    lm.rollbackTxn txnId bm = some bm' ∧
      lm' = ((lm.writeLogRecord { type := .abortRecord, txnId }).eraseActive txnId).count
        .abortRecord := by
  obtain ⟨mid, rolledBack, ran⟩ := Option.bind_eq_some_iff.mp ran
  cases ran
  exact ⟨rolledBack, rfl⟩

/-- `recovery` leaves the tape and the counters as they are. -/
theorem recovery_tape (ran : lm.recovery bm = some (lm', bm')) :
    lm'.logFile = lm.logFile ∧ lm'.currentOffset = lm.currentOffset ∧
      lm'.logRecordTypeToCount = lm.logRecordTypeToCount := by
  obtain ⟨redone, _, ran⟩ := Option.bind_eq_some_iff.mp ran
  obtain ⟨undone, _, ran⟩ := Option.bind_eq_some_iff.mp ran
  cases ran
  exact ⟨rfl, rfl, rfl⟩

end LogManager

end BuzzDB.Recovery
