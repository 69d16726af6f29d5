import BuzzDB.Lib.Machine
import BuzzDB.Recovery.Tape

/-!
# The tape decodes to what was logged

Sequences of calls of the log manager.  The calls that need a buffer manager get one each, so
that anything may happen to the pages in between.  `Tallied` is the invariant: the
file holds one record for each logging call so far, and the counters count them.
-/

namespace BuzzDB.Recovery

/-- The calls of the log manager. -/
inductive LogCall
  | logTxnBegin (txnId : UInt64)
  | logUpdate (txnId pageId length offset : UInt64) (beforeImg afterImg : List UInt8)
  | logCommit (txnId : UInt64)
  | logAbort (txnId : UInt64) (bm : BufferManager)
  | logCheckpoint (bm : BufferManager)
  | rollbackTxn (txnId : UInt64) (bm : BufferManager)
  | recovery (bm : BufferManager)

namespace LogCall

/-- One call; `none` is the exit of a `fix_page` that finds no frame. -/
def exec (lm : LogManager) : LogCall → Option LogManager
  | logTxnBegin txnId => some (lm.logTxnBegin txnId)
  | logUpdate txnId pageId length offset beforeImg afterImg =>
    some (lm.logUpdate txnId pageId length offset beforeImg afterImg)
  | logCommit txnId => some (lm.logCommit txnId)
  | logAbort txnId bm => (lm.logAbort txnId bm).map Prod.fst
  | logCheckpoint bm => some (lm.logCheckpoint bm).1
  | rollbackTxn txnId bm => (lm.rollbackTxn txnId bm).map fun _ => lm
  | recovery bm => (lm.recovery bm).map Prod.fst

/-- What a call logs: type, transaction, and for updates page, length, offset and images. -/
def logged : LogCall → List LogRecord
  | logTxnBegin txnId => [{ type := .beginRecord, txnId }]
  | logUpdate txnId pageId length offset beforeImg afterImg =>
    [{ type := .updateRecord, txnId, pageId, length, offset
       beforeImg := beforeImg.take length.toNat
       afterImg := afterImg.take length.toNat }]
  | logCommit txnId => [{ type := .commitRecord, txnId }]
  | logAbort txnId _ => [{ type := .abortRecord, txnId }]
  | logCheckpoint _ => [{ type := .checkpointRecord, txnId := 0 }]
  | rollbackTxn _ _ | recovery _ => []

/-- The images of an update have the bytes that are read of them. -/
def Readable : LogCall → Prop
  | logUpdate _ _ length _ beforeImg afterImg =>
    length.toNat ≤ beforeImg.length ∧ length.toNat ≤ afterImg.length
  | _ => True

end LogCall

/-- The tape holds `records`, and the counters count them. -/
structure Tallied (lm : LogManager) (records : List LogRecord) : Prop extends Holds lm records where
  counts : ∀ type, lm.logRecordTypeToCount type =
    (records.filter fun record => record.type = type).length

variable {lm lm' : LogManager} {rs : List LogRecord} {record : LogRecord} {bm bm' : BufferManager}

theorem Tallied.nil (logFile : List UInt8) : Tallied (LogManager.new logFile) [] where
  toHolds := Holds.nil logFile
  counts _ := rfl

/-- Writing a record leaves the counters alone. -/
theorem writeLogRecord_counts (lm : LogManager) (record : LogRecord) :
    (lm.writeLogRecord record).logRecordTypeToCount = lm.logRecordTypeToCount := by
  have fold : ∀ (blocks : List (List UInt8)) (lm : LogManager),
      (blocks.foldl LogManager.writeField lm).logRecordTypeToCount = lm.logRecordTypeToCount := by
    intro blocks
    induction blocks with
    | nil => exact fun lm => rfl
    | cons block blocks ih => exact fun lm => ih (lm.writeField block)
  exact fold record.fields lm

/-- `Tallied` looks at the file, the offset and the counters only. -/
theorem Tallied.congr (tallied : Tallied lm rs) (file : lm'.logFile = lm.logFile)
    (offset : lm'.currentOffset = lm.currentOffset)
    (counts : lm'.logRecordTypeToCount = lm.logRecordTypeToCount) : Tallied lm' rs where
  toHolds := tallied.toHolds.congr file offset
  counts type := by rw [counts, tallied.counts]

/-- A record is written and counted. -/
theorem Tallied.append (tallied : Tallied lm rs) (sized : record.Sized) {type : LogRecordType}
    (isType : record.onTape.type = type) :
    Tallied ((lm.writeLogRecord record).count type) (rs ++ [record.onTape]) where
  toHolds := (tallied.toHolds.append sized).congr rfl rfl
  counts other := by
    rw [LogManager.count, List.filter_append, List.length_append, ← tallied.counts,
      writeLogRecord_counts]
    dsimp only
    rcases eq_or_ne other type with rfl | different
    · rw [Function.update_self, List.filter_singleton, isType, decide_eq_true rfl]
      rfl
    · rw [Function.update_of_ne different, List.filter_singleton, isType,
        decide_eq_false different.symm]
      rfl

/-- A record without update fields. -/
theorem Tallied.append_plain (tallied : Tallied lm rs) {type : LogRecordType}
    (notUpdate : type ≠ .updateRecord) (txnId : UInt64) (activeTxns : List (UInt64 × Nat)) :
    Tallied ((lm.writeLogRecord { type, txnId, activeTxns }).count type)
      (rs ++ [({ type, txnId } : LogRecord)]) := by
  have plain : LogRecord.onTape { type, txnId, activeTxns } = { type, txnId } := if_neg notUpdate
  have sized : LogRecord.Sized { type, txnId, activeTxns } :=
    fun isUpdate => absurd isUpdate notUpdate
  have appended := tallied.append sized (congrArg LogRecord.type plain)
  rwa [plain] at appended

/-- Every call appends what it logs. -/
theorem Tallied.exec {call : LogCall} (tallied : Tallied lm rs) (readable : call.Readable)
    (ran : call.exec lm = some lm') : Tallied lm' (rs ++ call.logged) := by
  cases call with
  | logTxnBegin txnId =>
    cases ran
    have fresh : Tallied { lm with
        txnIdToFirstLogRecord := Function.update lm.txnIdToFirstLogRecord txnId lm.currentOffset
        activeTxns := StdSet.insert txnLt txnId lm.activeTxns } rs := tallied.congr rfl rfl rfl
    exact fresh.append_plain (by decide) txnId []
  | logUpdate txnId pageId length offset beforeImg afterImg =>
    cases ran
    obtain ⟨before, after⟩ := readable
    refine tallied.append (fun _ => ⟨?_, ?_⟩) rfl
    · rw [List.length_take]
      exact Nat.min_eq_left before
    · rw [List.length_take]
      exact Nat.min_eq_left after
  | logCommit txnId =>
    cases ran
    exact (tallied.append_plain (by decide) txnId []).congr rfl rfl rfl
  | logAbort txnId bm =>
    obtain ⟨⟨lm', bm'⟩, aborted, rfl⟩ := Option.map_eq_some_iff.mp ran
    obtain ⟨_, rfl⟩ := LogManager.logAbort_cases aborted
    exact (tallied.append_plain (by decide) txnId []).congr rfl rfl rfl
  | logCheckpoint bm =>
    cases ran
    exact tallied.append_plain (by decide) 0 _
  | rollbackTxn txnId bm =>
    obtain ⟨_, _, rfl⟩ := Option.map_eq_some_iff.mp ran
    rw [LogCall.logged, List.append_nil]
    exact tallied
  | recovery bm =>
    obtain ⟨result, recovered, rfl⟩ := Option.map_eq_some_iff.mp ran
    obtain ⟨file, offset, counts⟩ := LogManager.recovery_tape recovered
    rw [LogCall.logged, List.append_nil]
    exact tallied.congr file offset counts

/-- A run appends what its calls log. -/
theorem Tallied.run {calls : List LogCall} (tallied : Tallied lm rs)
    (readable : ∀ call ∈ calls, call.Readable)
    (ran : Machine.run LogCall.exec lm calls = some lm') :
    Tallied lm' (rs ++ calls.flatMap LogCall.logged) := by
  induction calls generalizing lm rs with
  | nil =>
    cases ran
    rw [List.flatMap_nil, List.append_nil]
    exact tallied
  | cons call calls ih =>
    obtain ⟨mid, stepped, rest⟩ := Machine.run_cons ran
    have first := tallied.exec (readable call List.mem_cons_self) stepped
    have all := ih first (fun call member => readable call (List.mem_cons_of_mem _ member)) rest
    rwa [List.append_assoc, ← List.flatMap_cons] at all

/-- Every record has one of the types. -/
theorem length_by_type (entries : List (Nat × LogRecord)) :
    ([.invalidRecordType, .abortRecord, .commitRecord, .updateRecord, .beginRecord,
      .checkpointRecord].map fun type : LogRecordType =>
        (entries.filter fun entry => entry.2.type = type).length).sum = entries.length := by
  induction entries with
  | nil => rfl
  | cons entry entries ih =>
    rw [List.length_cons, ← ih]
    cases isType : entry.2.type <;> simp [isType] <;> omega

/-- The offset behind the last of a list of records that follow each other. -/
theorem foldl_positions (start : Nat) (sized : ∀ record ∈ rs, record.Sized) :
    (positions start rs).foldl (fun _ entry => entry.1 + entry.2.getRecordSize) start =
      start + (tapeBytes rs).length := by
  induction rs generalizing start with
  | nil => rfl
  | cons record rest ih =>
    rw [positions, List.foldl_cons, length_tapeBytes_cons (sized record List.mem_cons_self),
      ih _ fun other member => sized other (List.mem_cons_of_mem _ member), Nat.add_assoc]

/-- The loops from offset zero visit one record for each logging call, in the order of the calls,
and end at `current_offset_`; the counters are the numbers of these records.  Among the calls are
`rollback_txn` and `recovery`, which log nothing. -/
theorem decodes {logFile : List UInt8} {calls : List LogCall}
    (readable : ∀ call ∈ calls, call.Readable)
    (ran : Machine.run LogCall.exec (LogManager.new logFile) calls = some lm) :
    (lm.records 0).map Prod.snd = calls.flatMap LogCall.logged ∧
      (lm.records 0).foldl (fun _ entry => entry.1 + entry.2.getRecordSize) 0 =
        lm.currentOffset ∧
      lm.getTotalLogRecords = (lm.records 0).length ∧
      (∀ type, lm.getTotalLogRecordsOfType type =
        ((lm.records 0).filter fun entry => entry.2.type = type).length) ∧
      ∀ bm lm' bm', lm.recovery bm = some (lm', bm') →
        lm'.logFile = lm.logFile ∧ lm'.currentOffset = lm.currentOffset := by
  have tallied := (Tallied.nil logFile).run readable ran
  rw [List.nil_append] at tallied
  have visited := tallied.toHolds.records_zero
  have decoded : (lm.records 0).map Prod.snd = calls.flatMap LogCall.logged := by
    rw [visited, map_snd_positions]
  have counts : ∀ type, lm.logRecordTypeToCount type =
      ((lm.records 0).filter fun entry => entry.2.type = type).length := by
    intro type
    rw [tallied.counts, ← decoded, List.filter_map, List.length_map]
    rfl
  refine ⟨decoded, ?_, ?_, counts, fun bm lm' bm' ran => ?_⟩
  · rw [visited, foldl_positions 0 tallied.sized, tallied.offset, Nat.zero_add]
  · rw [LogManager.getTotalLogRecords]
    rw [funext counts]
    exact length_by_type (lm.records 0)
  · obtain ⟨file, offset, -⟩ := LogManager.recovery_tape ran
    exact ⟨file, offset⟩

/-- A transaction with an empty update and one of two bytes, which is rolled back. -/
theorem decodes_two : ∃ lm bm, Machine.run LogCall.exec (LogManager.new []) [.logTxnBegin 1,
      .logUpdate 1 0 0 3 [] [], .logUpdate 1 0 2 1 [0, 0] [7, 8], .logAbort 1 bm] = some lm ∧
    (lm.records 0).map Prod.snd =
      [{ type := .beginRecord, txnId := 1 },
        { type := .updateRecord, txnId := 1, pageId := 0, length := 0, offset := 3 },
        { type := .updateRecord, txnId := 1, pageId := 0, length := 2, offset := 1,
          beforeImg := [0, 0], afterImg := [7, 8] },
        { type := .abortRecord, txnId := 1 }] := by
  have ran : (Machine.run LogCall.exec (LogManager.new []) [.logTxnBegin 1,
      .logUpdate 1 0 0 3 [] [], .logUpdate 1 0 2 1 [0, 0] [7, 8],
      .logAbort 1 (BufferManager.new 8 (by decide) 4 fun _ => [])]).isSome := by decide +kernel
  obtain ⟨lm, ran⟩ := Option.isSome_iff_exists.mp ran
  refine ⟨lm, _, ran, (decodes (fun call member => ?_) ran).1⟩
  simp only [List.mem_cons, List.not_mem_nil, or_false] at member
  rcases member with rfl | rfl | rfl | rfl
  · trivial
  · exact ⟨by decide, by decide⟩
  · exact ⟨by decide, by decide⟩
  · trivial

end BuzzDB.Recovery
