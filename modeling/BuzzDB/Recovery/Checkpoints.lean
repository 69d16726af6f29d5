import BuzzDB.Recovery.Decoding
import BuzzDB.Recovery.TransactionRecords

/-!
# What a checkpoint record carries

`log_checkpoint` hands the active transactions and their first offsets to
`write_log_record`, which writes the type and an id of zero; `read_log_record` reads no
more than that.  `LiveAt` says which transactions a checkpoint is to carry, from the
records on the tape.
-/

namespace BuzzDB.Recovery

/-- The record ends transaction `t`. -/
def LogRecord.Ends (record : LogRecord) (t : UInt64) : Prop :=
  record.type.IsEnd ∧ record.txnId = t

/-- Transaction `t` has begun with the record at `offset` and neither committed nor aborted. -/
def LiveAt (rs : List LogRecord) (t : UInt64) (offset : Nat) : Prop :=
  ∃ front start back, rs = front ++ start :: back ∧ start.Begins t ∧
    offset = (tapeBytes front).length ∧ ∀ r ∈ back, ¬ r.Begins t ∧ ¬ r.Ends t

/-- The records of a log manager. -/
def LogManager.tape (lm : LogManager) : List LogRecord := (lm.records 0).map Prod.snd

/-- The record of a checkpoint as it is read back. -/
def checkpointRecord (lm : LogManager) (bm : BufferManager) : LogRecord :=
  readLogRecord (lm.logCheckpoint bm).1.logFile lm.currentOffset

/-- The record of a checkpoint is read back with the live transactions and the offsets of their
begin records, and its size is that of the bytes written. -/
structure CarriesTable (lm : LogManager) (bm : BufferManager) : Prop where
  table : ∀ t offset,
    (t, offset) ∈ (checkpointRecord lm bm).activeTxns ↔ LiveAt lm.tape t offset
  size : lm.currentOffset + (checkpointRecord lm bm).getRecordSize =
    (lm.logCheckpoint bm).1.currentOffset

variable {lm lm' : LogManager} {bm : BufferManager} {rs : List LogRecord} {record : LogRecord}
  {t : UInt64} {offset : Nat} {calls : List LogCall}

/-! ## The active transactions -/

theorem Holds.tape (holds : Holds lm rs) : lm.tape = rs := by
  rw [LogManager.tape, holds.records_zero, map_snd_positions]

/-- The active transactions and their first offsets are the live ones. -/
def TableExact (lm : LogManager) (rs : List LogRecord) : Prop :=
  ∀ t offset, (t ∈ lm.activeTxns ∧ lm.txnIdToFirstLogRecord t = offset) ↔ LiveAt rs t offset

/-- A record makes a transaction live or ends it, or leaves it as it is. -/
theorem liveAt_append : LiveAt (rs ++ [record]) t offset ↔
    (record.Begins t ∧ offset = (tapeBytes rs).length) ∨
      (LiveAt rs t offset ∧ ¬ record.Begins t ∧ ¬ record.Ends t) := by
  constructor
  · intro live
    obtain ⟨front, start, back, split, begins, at_front, later⟩ := live
    cases back using List.reverseRecOn with
    | nil =>
      obtain ⟨rfl, same⟩ := List.append_inj' split rfl
      cases same
      exact .inl ⟨begins, at_front⟩
    | append_singleton back last =>
      rw [← List.cons_append, ← List.append_assoc] at split
      obtain ⟨rfl, same⟩ := List.append_inj' split rfl
      cases same
      have ends := later record (List.mem_append_right _ (List.mem_singleton_self _))
      exact .inr ⟨⟨front, start, back, rfl, begins, at_front,
        fun r member => later r (List.mem_append_left _ member)⟩, ends⟩
  · intro live
    rcases live with ⟨begins, at_end⟩ | ⟨⟨front, start, back, rfl, begins, at_front, later⟩, last⟩
    · exact ⟨rs, record, [], rfl, begins, at_end, fun r absent => by cases absent⟩
    · refine ⟨front, start, back ++ [record], by simp, begins, at_front, fun r member => ?_⟩
      rcases List.mem_append.mp member with old | new
      · exact later r old
      · exact List.mem_singleton.mp new ▸ last

theorem TableExact.begin (exactly : TableExact lm rs)
    (active : lm'.activeTxns = StdSet.insert txnLt record.txnId lm.activeTxns)
    (first : lm'.txnIdToFirstLogRecord =
      Function.update lm.txnIdToFirstLogRecord record.txnId (tapeBytes rs).length)
    (isBegin : record.type = .beginRecord) : TableExact lm' (rs ++ [record]) := by
  intro t offset
  have noEnd : ¬ record.Ends t := by
    intro ends
    rcases ends.1 with isEnd | isEnd <;> rw [isBegin] at isEnd <;> cases isEnd
  rw [liveAt_append, active, first, StdSet.mem_insert txnLt_strict, ← exactly]
  by_cases same : t = record.txnId
  · subst same
    have begins : record.Begins record.txnId := ⟨isBegin, rfl⟩
    simp [begins, eq_comm]
  · have other : ¬ record.Begins t := fun begins => same begins.2.symm
    simp [same, other, noEnd]

theorem TableExact.end (exactly : TableExact lm rs)
    (active : lm'.activeTxns = StdSet.erase record.txnId lm.activeTxns)
    (first : lm'.txnIdToFirstLogRecord = lm.txnIdToFirstLogRecord)
    (isEnd : record.type.IsEnd) : TableExact lm' (rs ++ [record]) := by
  intro t offset
  have noBegin : ¬ record.Begins t := by
    intro begins
    rcases isEnd with isEnd | isEnd <;> rw [begins.1] at isEnd <;> cases isEnd
  have ends : record.Ends t ↔ t = record.txnId :=
    ⟨fun ends => ends.2.symm, fun same => ⟨isEnd, same.symm⟩⟩
  rw [liveAt_append, active, first, StdSet.mem_erase, ← exactly, ends]
  simp only [noBegin, false_and, not_false_eq_true, true_and, false_or]
  tauto

theorem TableExact.plain (exactly : TableExact lm rs) (active : lm'.activeTxns = lm.activeTxns)
    (first : lm'.txnIdToFirstLogRecord = lm.txnIdToFirstLogRecord)
    (isPlain : record.type = .updateRecord ∨ record.type = .checkpointRecord) :
    TableExact lm' (rs ++ [record]) := by
  intro t offset
  have neither : ¬ record.Begins t ∧ ¬ record.Ends t := by
    rcases isPlain with type | type
    · simp [LogRecord.Begins, LogRecord.Ends, LogRecordType.IsEnd, type]
    · simp [LogRecord.Begins, LogRecord.Ends, LogRecordType.IsEnd, type]
  rw [liveAt_append, active, first, exactly]
  simp [neither]

/-- Every call but `recovery` keeps the table. -/
theorem TableExact.exec {call : LogCall} (exactly : TableExact lm rs)
    (offset : lm.currentOffset = (tapeBytes rs).length) (kept : ∀ bm, call ≠ .recovery bm)
    (ran : call.exec lm = some lm') : TableExact lm' (rs ++ call.logged) := by
  cases call with
  | logTxnBegin txnId =>
    cases ran
    have maps := writeLogRecord_maps { lm with
        txnIdToFirstLogRecord := Function.update lm.txnIdToFirstLogRecord txnId lm.currentOffset
        activeTxns := StdSet.insert txnLt txnId lm.activeTxns } { type := .beginRecord, txnId }
    exact exactly.begin maps.2 (offset ▸ maps.1) rfl
  | logUpdate txnId pageId length offset beforeImg afterImg =>
    cases ran
    have maps := writeLogRecord_maps lm
      { type := .updateRecord, txnId, pageId, length, offset
        beforeImg := beforeImg.take length.toNat
        afterImg := afterImg.take length.toNat }
    exact exactly.plain maps.2 maps.1 (.inl rfl)
  | logCommit txnId =>
    cases ran
    have maps := writeLogRecord_maps lm { type := .commitRecord, txnId }
    exact exactly.end (congrArg (StdSet.erase txnId) maps.2) maps.1 (.inl rfl)
  | logAbort txnId bm =>
    obtain ⟨⟨next, bm'⟩, aborted, rfl⟩ := Option.map_eq_some_iff.mp ran
    obtain ⟨_, rfl⟩ := LogManager.logAbort_cases aborted
    have maps := writeLogRecord_maps lm { type := .abortRecord, txnId }
    exact exactly.end (congrArg (StdSet.erase txnId) maps.2) maps.1 (.inr rfl)
  | logCheckpoint bm =>
    cases ran
    have maps := writeLogRecord_maps lm
      { type := .checkpointRecord, txnId := 0
        activeTxns := lm.activeTxns.map fun txnId => (txnId, lm.txnIdToFirstLogRecord txnId) }
    exact exactly.plain maps.2 maps.1 (.inr rfl)
  | rollbackTxn txnId bm =>
    obtain ⟨_, _, rfl⟩ := Option.map_eq_some_iff.mp ran
    rw [LogCall.logged, List.append_nil]
    exact exactly
  | recovery bm => exact absurd rfl (kept bm)

/-- Without recoveries in between, the list that `log_checkpoint` makes of the active set is the
one that its record does not carry. -/
theorem checkpointTable_exact {logFile : List UInt8} (readable : ∀ call ∈ calls, call.Readable)
    (kept : ∀ call ∈ calls, ∀ bm, call ≠ .recovery bm)
    (ran : Machine.run LogCall.exec (LogManager.new logFile) calls = some lm) :
    ∀ t offset, (t, offset) ∈
      (lm.activeTxns.map fun txnId => (txnId, lm.txnIdToFirstLogRecord txnId)) ↔
        LiveAt lm.tape t offset := by
  have exactly : ∃ rs, Tallied lm rs ∧ TableExact lm rs := by
    induction calls using List.reverseRecOn generalizing lm with
    | nil =>
      cases ran
      refine ⟨[], Tallied.nil logFile, fun t offset => iff_of_false ?_ ?_⟩
      · exact fun active => by cases active.1
      · exact fun ⟨front, start, back, split, _⟩ => by simp at split
    | append_singleton calls call ih =>
      obtain ⟨mid, before, last⟩ := Machine.run_concat ran
      have member : call ∈ calls ++ [call] := List.mem_append_right _ (List.mem_singleton_self _)
      obtain ⟨rs, tallied, exactly⟩ := ih
        (fun call member => readable call (List.mem_append_left _ member))
        (fun call member => kept call (List.mem_append_left _ member)) before
      exact ⟨_, tallied.exec (readable call member) last,
        exactly.exec tallied.offset (kept call member) last⟩
  obtain ⟨rs, tallied, exactly⟩ := exactly
  intro t offset
  rw [tallied.toHolds.tape, ← exactly, List.mem_map]
  constructor
  · intro listed
    obtain ⟨u, active, same⟩ := listed
    cases same
    exact ⟨active, rfl⟩
  · intro listed
    exact ⟨t, listed.1, by rw [listed.2]⟩

/-! ## Reading a checkpoint back -/

theorem Holds.logCheckpoint (holds : Holds lm rs) (bm : BufferManager) :
    Holds (lm.logCheckpoint bm).1 (rs ++ [{ type := .checkpointRecord, txnId := 0 }]) :=
  (holds.append_plain (by decide) 0 _).congr rfl rfl

/-- A checkpoint is read back without its transactions. -/
theorem Holds.checkpointRecord (holds : Holds lm rs) (bm : BufferManager) :
    checkpointRecord lm bm = { type := .checkpointRecord, txnId := 0 } := by
  obtain ⟨rest, file⟩ := (holds.logCheckpoint bm).file
  have sized : LogRecord.Sized { type := .checkpointRecord, txnId := 0 } := fun isUpdate => by
    cases isUpdate
  have drops : ((lm.logCheckpoint bm).1.logFile).drop lm.currentOffset =
      LogRecord.bytes { type := .checkpointRecord, txnId := 0 } ++ rest := by
    rw [file, holds.offset, tapeBytes_append, tapeBytes_singleton, List.append_assoc, List.drop_left]
  exact readLogRecord_of_drop sized drops

/-- The next record follows right behind the checkpoint. -/
theorem Holds.checkpoint_size (holds : Holds lm rs) (bm : BufferManager) :
    lm.currentOffset + (Recovery.checkpointRecord lm bm).getRecordSize =
      (lm.logCheckpoint bm).1.currentOffset := by
  have sized : LogRecord.Sized { type := .checkpointRecord, txnId := 0 } := fun isUpdate => by
    cases isUpdate
  rw [holds.checkpointRecord bm, (holds.logCheckpoint bm).offset, holds.offset, tapeBytes_append,
    tapeBytes_singleton, List.length_append, sized.length_bytes]

/-- A checkpoint carries the live transactions exactly if there are none. -/
theorem carriesTable_iff {logFile : List UInt8} (readable : ∀ call ∈ calls, call.Readable)
    (ran : Machine.run LogCall.exec (LogManager.new logFile) calls = some lm)
    (bm : BufferManager) : CarriesTable lm bm ↔ ∀ t offset, ¬ LiveAt lm.tape t offset := by
  have holds : Holds lm ([] ++ calls.flatMap LogCall.logged) :=
    ((Tallied.nil logFile).run readable ran).toHolds
  have readBack := holds.checkpointRecord bm
  constructor
  · intro carries t offset live
    have listed := (carries.table t offset).mpr live
    rw [readBack] at listed
    cases listed
  · intro idle
    refine ⟨fun t offset => ?_, holds.checkpoint_size bm⟩
    rw [readBack]
    exact iff_of_false List.not_mem_nil (idle t offset)

/-- Every transaction has ended, one of them under an id that began twice: the checkpoint carries all that
there is.  Where the first one is still to commit, it does not. -/
theorem carriesTable_iff_ended : ∃ lm lm',
    Machine.run LogCall.exec (LogManager.new []) [.logTxnBegin 1, .logTxnBegin 2, .logCommit 2,
      .logUpdate 1 0 2 1 [0, 0] [7, 8], .logCommit 1, .logTxnBegin 2, .logCommit 2] = some lm ∧
    CarriesTable lm (BufferManager.new 8 (by decide) 4 fun _ => []) ∧
    Machine.run LogCall.exec (LogManager.new []) [.logTxnBegin 1, .logTxnBegin 2, .logCommit 2] =
      some lm' ∧
    ¬ CarriesTable lm' (BufferManager.new 8 (by decide) 4 fun _ => []) := by
  have ended : (Machine.run LogCall.exec (LogManager.new []) [.logTxnBegin 1, .logTxnBegin 2,
      .logCommit 2, .logUpdate 1 0 2 1 [0, 0] [7, 8], .logCommit 1, .logTxnBegin 2,
      .logCommit 2]).map (fun lm => lm.activeTxns) = some [] := by decide +kernel
  have running : (Machine.run LogCall.exec (LogManager.new []) [.logTxnBegin 1, .logTxnBegin 2,
      .logCommit 2]).map (fun lm => (lm.activeTxns, lm.txnIdToFirstLogRecord 1)) = some ([1], 0) := by
    decide +kernel
  obtain ⟨lm, ran, none⟩ := Option.map_eq_some_iff.mp ended
  obtain ⟨lm', ran', one⟩ := Option.map_eq_some_iff.mp running
  obtain ⟨active, first⟩ := Prod.mk.inj one
  have exactly := checkpointTable_exact (by simp [LogCall.Readable]) (by simp) ran
  have exactly' := checkpointTable_exact (by simp [LogCall.Readable]) (by simp) ran'
  refine ⟨lm, lm', ran, (carriesTable_iff (by simp [LogCall.Readable]) ran _).mpr ?_, ran', ?_⟩
  · intro t offset
    rw [← exactly, none]
    exact List.not_mem_nil
  · intro carries
    refine (carriesTable_iff (by simp [LogCall.Readable]) ran' _).mp carries 1 0 ?_
    rw [← exactly', active, List.map_singleton, first]
    exact List.mem_singleton_self _

/-- A checkpoint behind the begin of a transaction does not carry it. -/
theorem not_carriesTable_begun : ∃ lm,
    Machine.run LogCall.exec (LogManager.new []) [.logTxnBegin 1] = some lm ∧
    ¬ CarriesTable lm (BufferManager.new 8 (by decide) 4 fun _ => []) := by
  have result : (Machine.run LogCall.exec (LogManager.new []) [.logTxnBegin 1]).map (fun lm =>
      (lm.tape,
        (checkpointRecord lm (BufferManager.new 8 (by decide) 4 fun _ => [])).activeTxns)) =
        some ([{ type := .beginRecord, txnId := 1 }], []) := by decide +kernel
  obtain ⟨lm, ran, values⟩ := Option.map_eq_some_iff.mp result
  obtain ⟨tape, readBack⟩ := Prod.mk.inj values
  refine ⟨lm, ran, fun carries => ?_⟩
  have live : LiveAt lm.tape 1 0 :=
    ⟨[], _, [], tape, ⟨rfl, rfl⟩, rfl, fun r absent => by cases absent⟩
  have listed := (carries.table 1 0).mpr live
  rw [readBack] at listed
  cases listed

end BuzzDB.Recovery
