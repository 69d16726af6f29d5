import BuzzDB.Recovery.Decoding

/-!
# Appends that fail

`write_log_record` writes the blocks of a record one after the other and advances the end of the
tape behind each of them.  When a `write_block` throws, the exception leaves the log manager as
it is at that point: behind the first block, with part of a record on the tape that the loops
of recovery and rollback then take for the beginning of the next one.
-/

namespace BuzzDB.Recovery

/-- A `write_block` that throws: which of the blocks of its record, counted from zero, and whether
the bytes of the block were written. -/
structure Throw where
  block : Nat
  written : Bool
  deriving DecidableEq

namespace LogManager

/-- Blocks that are written one after the other, until one throws; the flag says whether none
did. -/
def writeFields (lm : LogManager) : List (List UInt8) → Option Throw → LogManager × Bool
  | [], _ => (lm, true)
  | block :: _, some ⟨0, written⟩ =>
    if written then
      ({ lm with logFile := Image.splice lm.logFile lm.currentOffset block }, false)
    else (lm, false)
  | block :: blocks, some ⟨k + 1, written⟩ =>
    (lm.writeField block).writeFields blocks (some ⟨k, written⟩)
  | block :: blocks, none => (lm.writeField block).writeFields blocks none

/-- `write_log_record`. -/
def tryWriteLogRecord (lm : LogManager) (record : LogRecord) (throws : Option Throw) :
    LogManager × Bool :=
  lm.writeFields record.fields throws

/-- What follows `write_log_record`; an exception skips it. -/
def thenDo (result : LogManager × Bool) (rest : LogManager → LogManager) : LogManager × Bool :=
  if result.2 then (rest result.1, true) else result

/-- `log_abort`. -/
def tryLogAbort (lm : LogManager) (txnId : UInt64) (bm : BufferManager) (throws : Option Throw) :
    Option ((LogManager × Bool) × BufferManager) := do
  let bm ← lm.rollbackTxn txnId bm
  let result := lm.tryWriteLogRecord { type := .abortRecord, txnId } throws
  return (thenDo result fun lm => (lm.eraseActive txnId).count .abortRecord, bm)

/-- `log_commit`. -/
def tryLogCommit (lm : LogManager) (txnId : UInt64) (throws : Option Throw) : LogManager × Bool :=
  let result := lm.tryWriteLogRecord { type := .commitRecord, txnId } throws
  thenDo result fun lm => (lm.eraseActive txnId).count .commitRecord

/-- `log_update`. -/
def tryLogUpdate (lm : LogManager) (txnId pageId length offset : UInt64)
    (beforeImg afterImg : List UInt8) (throws : Option Throw) : LogManager × Bool :=
  let result := lm.tryWriteLogRecord
    { type := .updateRecord, txnId, pageId, length, offset
      beforeImg := beforeImg.take length.toNat
      afterImg := afterImg.take length.toNat } throws
  thenDo result fun lm => lm.count .updateRecord

/-- `log_txn_begin`. -/
def tryLogTxnBegin (lm : LogManager) (txnId : UInt64) (throws : Option Throw) :
    LogManager × Bool :=
  let lm := { lm with
    txnIdToFirstLogRecord := Function.update lm.txnIdToFirstLogRecord txnId lm.currentOffset
    activeTxns := StdSet.insert txnLt txnId lm.activeTxns }
  let result := lm.tryWriteLogRecord { type := .beginRecord, txnId } throws
  thenDo result fun lm => lm.count .beginRecord

/-- `log_checkpoint`. -/
def tryLogCheckpoint (lm : LogManager) (bm : BufferManager) (throws : Option Throw) :
    (LogManager × Bool) × BufferManager :=
  let bm := bm.flushAllPages
  let activeTxns := lm.activeTxns.map fun txnId => (txnId, lm.txnIdToFirstLogRecord txnId)
  let result := lm.tryWriteLogRecord { type := .checkpointRecord, txnId := 0, activeTxns } throws
  (thenDo result fun lm => lm.count .checkpointRecord, bm)

end LogManager

/-- A call whose appends may throw; the flag says whether it returned. -/
def LogCall.attempt (lm : LogManager) (throws : Option Throw) : LogCall → Option (LogManager × Bool)
  | .logTxnBegin txnId => some (lm.tryLogTxnBegin txnId throws)
  | .logUpdate txnId pageId length offset beforeImg afterImg =>
    some (lm.tryLogUpdate txnId pageId length offset beforeImg afterImg throws)
  | .logCommit txnId => some (lm.tryLogCommit txnId throws)
  | .logAbort txnId bm => (lm.tryLogAbort txnId bm throws).map Prod.fst
  | .logCheckpoint bm => some (lm.tryLogCheckpoint bm throws).1
  | .rollbackTxn txnId bm => (lm.rollbackTxn txnId bm).map fun _ => (lm, true)
  | .recovery bm => (lm.recovery bm).map fun result => (result.1, true)

/-! ## Runs -/

/-- A call, and the `write_block` in it that throws. -/
structure Attempt where
  call : LogCall
  throws : Option Throw

/-- The log manager, and what the calls that returned have logged. -/
structure Attempts where
  lm : LogManager
  returned : List LogRecord

namespace Attempt

/-- One call; `none` is an exit of the program. -/
def step (s : Attempts) (attempt : Attempt) : Option Attempts :=
  (attempt.call.attempt s.lm attempt.throws).map fun result =>
    ⟨result.1, if result.2 then s.returned ++ attempt.call.logged else s.returned⟩

/-- How many blocks the call writes. -/
def blocks (attempt : Attempt) : Nat := (attempt.call.logged.flatMap LogRecord.fields).length

/-- No block throws but the first one. -/
def Clean (attempt : Attempt) : Prop :=
  ∀ thrown ∈ attempt.throws, thrown.block = 0 ∨ attempt.blocks ≤ thrown.block

instance : DecidablePred Clean := fun attempt =>
  inferInstanceAs (Decidable (∀ thrown ∈ attempt.throws, _))

end Attempt

variable {lm lm' : LogManager} {rs : List LogRecord} {record : LogRecord} {call : LogCall}
  {throws : Option Throw} {thrown : Throw} {blocks : List (List UInt8)} {s s' : Attempts}
  {attempt : Attempt}

/-! ## One append -/

/-- What an exception in one of the blocks leaves. -/
structure Torn (lm : LogManager) (blocks : List (List UInt8)) (thrown : Throw) (lm' : LogManager) :
    Prop where
  inside : thrown.block < blocks.length
  offset : lm'.currentOffset = lm.currentOffset + (blocks.take thrown.block).flatten.length
  file : thrown.block = 0 → lm'.logFile = lm.logFile ∨
    ∃ block, lm'.logFile = Image.splice lm.logFile lm.currentOffset block
  counts : lm'.logRecordTypeToCount = lm.logRecordTypeToCount

/-- All blocks are written, or one of them throws. -/
theorem writeFields_cases (lm : LogManager) (blocks : List (List UInt8)) (throws : Option Throw) :
    (lm.writeFields blocks throws = (blocks.foldl LogManager.writeField lm, true) ∧
        ∀ thrown, throws = some thrown → blocks.length ≤ thrown.block) ∨
      ∃ thrown lm', throws = some thrown ∧ lm.writeFields blocks throws = (lm', false) ∧
        Torn lm blocks thrown lm' := by
  induction blocks generalizing lm throws with
  | nil => exact Or.inl ⟨rfl, fun thrown _ => Nat.zero_le _⟩
  | cons block blocks ih =>
    match throws with
    | none =>
      apply Or.inl
      refine ⟨?_, fun thrown absent => by cases absent⟩
      rcases ih (lm.writeField block) none with ⟨written, _⟩ | ⟨thrown, _, absent, _⟩
      · exact written
      · cases absent
    | some ⟨0, written⟩ =>
      apply Or.inr
      cases written with
      | true =>
        exact ⟨_, _, rfl, rfl, Nat.zero_lt_succ _, rfl, fun _ => Or.inr ⟨block, rfl⟩, rfl⟩
      | false => exact ⟨_, _, rfl, rfl, Nat.zero_lt_succ _, rfl, fun _ => Or.inl rfl, rfl⟩
    | some ⟨k + 1, written⟩ =>
      rcases ih (lm.writeField block) (some ⟨k, written⟩) with ⟨all, late⟩ | ⟨thrown, lm', same, partly, torn⟩
      · apply Or.inl
        refine ⟨all, fun thrown same => ?_⟩
        cases same
        exact Nat.succ_le_succ (late _ rfl)
      · cases same
        apply Or.inr
        refine ⟨_, lm', rfl, partly, Nat.succ_lt_succ torn.inside, ?_, fun first => ?_,
          torn.counts⟩
        · rw [torn.offset, LogManager.writeField, List.take_succ_cons, List.flatten_cons,
            List.length_append, Nat.add_assoc]
        · cases first

/-- Appending leaves the maps of the log manager alone, also where it throws. -/
theorem writeFields_maps (lm : LogManager) (blocks : List (List UInt8)) (throws : Option Throw) :
    (lm.writeFields blocks throws).1.txnIdToFirstLogRecord = lm.txnIdToFirstLogRecord ∧
      (lm.writeFields blocks throws).1.activeTxns = lm.activeTxns := by
  induction blocks generalizing lm throws with
  | nil => exact ⟨rfl, rfl⟩
  | cons block blocks ih =>
    match throws with
    | none => exact ih (lm.writeField block) none
    | some ⟨0, written⟩ => cases written <;> exact ⟨rfl, rfl⟩
    | some ⟨k + 1, written⟩ => exact ih (lm.writeField block) (some ⟨k, written⟩)

/-- A record is written and the call goes on, or one of its blocks throws. -/
theorem thenDo_cases {rest : LogManager → LogManager} {returned : Bool}
    (ran : LogManager.thenDo (lm.tryWriteLogRecord record throws) rest = (lm', returned)) :
    (returned = true ∧ lm' = rest (lm.writeLogRecord record) ∧
        ∀ thrown, throws = some thrown → record.fields.length ≤ thrown.block) ∨
      (returned = false ∧ ∃ thrown, throws = some thrown ∧ Torn lm record.fields thrown lm' ∧
        lm'.txnIdToFirstLogRecord = lm.txnIdToFirstLogRecord) := by
  rcases writeFields_cases lm record.fields throws with ⟨all, late⟩ | ⟨thrown, mid, isThrown, partly, torn⟩
  · rw [LogManager.tryWriteLogRecord, all] at ran
    cases ran
    exact Or.inl ⟨rfl, rfl, late⟩
  · rw [LogManager.tryWriteLogRecord, partly] at ran
    cases ran
    have maps := writeFields_maps lm record.fields throws
    rw [partly] at maps
    exact Or.inr ⟨rfl, thrown, isThrown, torn, maps.1⟩

/-- A call that logs writes its record and goes on from there. -/
structure Logs (lm : LogManager) (call : LogCall) (throws : Option Throw) (mid : LogManager)
    (record : LogRecord) (rest : LogManager → LogManager) : Prop where
  exec : call.exec lm = some (rest (mid.writeLogRecord record))
  file : mid.logFile = lm.logFile
  offset : mid.currentOffset = lm.currentOffset
  counts : mid.logRecordTypeToCount = lm.logRecordTypeToCount
  logged : ∃ onTape, call.logged = [onTape] ∧ onTape.fields = record.fields

theorem attempt_logs {result : LogManager × Bool} (ran : call.attempt lm throws = some result) :
    (call.logged = [] ∧ call.exec lm = some result.1 ∧ result.2 = true) ∨
      ∃ mid record rest, Logs lm call throws mid record rest ∧
        result = LogManager.thenDo (mid.tryWriteLogRecord record throws) rest := by
  cases call with
  | logTxnBegin =>
    cases ran
    refine Or.inr ⟨_, _, fun lm => lm.count .beginRecord, ?_, rfl⟩
    exact ⟨rfl, rfl, rfl, rfl, _, rfl, rfl⟩
  | logUpdate =>
    cases ran
    refine Or.inr ⟨_, _, fun lm => lm.count .updateRecord, ?_, rfl⟩
    exact ⟨rfl, rfl, rfl, rfl, _, rfl, rfl⟩
  | logCommit txnId =>
    cases ran
    refine Or.inr ⟨_, _, fun lm => (lm.eraseActive txnId).count .commitRecord, ?_, rfl⟩
    exact ⟨rfl, rfl, rfl, rfl, _, rfl, rfl⟩
  | logCheckpoint =>
    cases ran
    refine Or.inr ⟨_, _, fun lm => lm.count .checkpointRecord, ?_, rfl⟩
    exact ⟨rfl, rfl, rfl, rfl, _, rfl, rfl⟩
  | logAbort txnId bm =>
    obtain ⟨⟨_, bm'⟩, aborted, rfl⟩ := Option.map_eq_some_iff.mp ran
    obtain ⟨rolledBack, rollback, aborted⟩ := Option.bind_eq_some_iff.mp aborted
    cases aborted
    refine Or.inr ⟨_, _, fun lm => (lm.eraseActive txnId).count .abortRecord, ?_, rfl⟩
    refine ⟨?_, rfl, rfl, rfl, _, rfl, rfl⟩
    rw [LogCall.exec, LogManager.logAbort, rollback]
    rfl
  | rollbackTxn txnId bm =>
    obtain ⟨bm', rolledBack, rfl⟩ := Option.map_eq_some_iff.mp ran
    refine Or.inl ⟨rfl, ?_, rfl⟩
    rw [LogCall.exec, rolledBack]
    rfl
  | recovery bm =>
    obtain ⟨recovered, isRecovered, rfl⟩ := Option.map_eq_some_iff.mp ran
    refine Or.inl ⟨rfl, ?_, rfl⟩
    rw [LogCall.exec, isRecovered]
    rfl

/-- What a call does: it returns as without exceptions, or a block of its record throws. -/
theorem attempt_cases {returned : Bool} (ran : call.attempt lm throws = some (lm', returned)) :
    (returned = true ∧ call.exec lm = some lm' ∧ ∀ thrown, throws = some thrown →
        (call.logged.flatMap LogRecord.fields).length ≤ thrown.block) ∨
      (returned = false ∧ ∃ thrown record, throws = some thrown ∧ call.logged = [record] ∧
        Torn lm record.fields thrown lm') := by
  rcases attempt_logs ran with ⟨logged, exec, isReturned⟩ | ⟨mid, record, rest, logs, result⟩
  · refine Or.inl ⟨isReturned, exec, fun thrown _ => ?_⟩
    rw [logged]
    exact Nat.zero_le _
  · obtain ⟨onTape, logged, fields⟩ := logs.logged
    rcases thenDo_cases result.symm with ⟨isReturned, rfl, late⟩ | ⟨failed, thrown, isThrown, torn, _⟩
    · refine Or.inl ⟨isReturned, logs.exec, fun thrown isThrown => ?_⟩
      rw [logged, List.flatMap_singleton, fields]
      exact late thrown isThrown
    · refine Or.inr ⟨failed, thrown, onTape, isThrown, logged, ?_⟩
      rw [fields]
      constructor
      · exact torn.inside
      · rw [torn.offset, logs.offset]
      · rw [← logs.file, ← logs.offset]
        exact torn.file
      · rw [torn.counts, logs.counts]

/-! ## Clean failures -/

/-- An exception in the first block leaves the tape as it was: what was written lies behind its
end. -/
theorem Holds.torn (holds : Holds lm rs) (torn : Torn lm blocks thrown lm')
    (first : thrown.block = 0) : Holds lm' rs where
  sized := holds.sized
  onTape := holds.onTape
  file := by
    obtain ⟨rest, file⟩ := holds.file
    rcases torn.file first with same | ⟨block, spliced⟩
    · exact ⟨rest, same.trans file⟩
    · rw [spliced, file]
      exact Image.splice_prefix _ rest block (Nat.le_of_eq holds.offset.symm)
  offset := by
    rw [torn.offset, first]
    exact holds.offset

theorem Tallied.torn (tallied : Tallied lm rs) (torn : Torn lm blocks thrown lm')
    (first : thrown.block = 0) : Tallied lm' rs where
  toHolds := tallied.toHolds.torn torn first
  counts type := by rw [torn.counts, tallied.counts]

/-- The records of the calls that returned are on the tape, and nothing else. -/
def Attempts.Whole (s : Attempts) : Prop := Tallied s.lm s.returned

theorem Attempts.Whole.step (whole : s.Whole) (readable : attempt.call.Readable)
    (clean : attempt.Clean) (stepped : attempt.step s = some s') : s'.Whole := by
  obtain ⟨⟨lm', returned⟩, ran, rfl⟩ := Option.map_eq_some_iff.mp stepped
  rcases attempt_cases ran with ⟨rfl, ran, _⟩ | ⟨rfl, thrown, record, isThrown, logged, torn⟩
  · exact Tallied.exec whole readable ran
  · have first : thrown.block = 0 := by
      rcases clean thrown isThrown with first | late
      · exact first
      · rw [Attempt.blocks, logged, List.flatMap_singleton] at late
        exact absurd torn.inside (Nat.not_lt.mpr late)
    exact Tallied.torn whole torn first

/-! ## Failures behind the first block -/

theorem foldl_writeField_offset (lm : LogManager) (blocks : List (List UInt8)) :
    (blocks.foldl LogManager.writeField lm).currentOffset =
      lm.currentOffset + blocks.flatten.length := by
  induction blocks generalizing lm with
  | nil => rfl
  | cons block blocks ih =>
    rw [List.foldl_cons, ih, LogManager.writeField, List.flatten_cons, List.length_append,
      Nat.add_assoc]

/-- A call that returns advances the end of the tape by what it logs. -/
theorem exec_offset (ran : call.exec lm = some lm') :
    lm'.currentOffset = lm.currentOffset + (tapeBytes call.logged).length := by
  have append : ∀ (mid : LogManager) (record : LogRecord), (mid.writeLogRecord record).currentOffset =
      mid.currentOffset + (tapeBytes [record]).length := by
    intro mid record
    rw [tapeBytes_singleton]
    exact foldl_writeField_offset mid record.fields
  cases call with
  | logTxnBegin | logUpdate | logCommit | logCheckpoint =>
    cases ran
    exact append _ _
  | logAbort txnId bm =>
    obtain ⟨⟨lm', bm'⟩, aborted, rfl⟩ := Option.map_eq_some_iff.mp ran
    obtain ⟨_, rfl⟩ := LogManager.logAbort_cases aborted
    exact append _ _
  | rollbackTxn txnId bm =>
    obtain ⟨_, _, rfl⟩ := Option.map_eq_some_iff.mp ran
    rfl
  | recovery bm =>
    obtain ⟨result, recovered, rfl⟩ := Option.map_eq_some_iff.mp ran
    exact (LogManager.recovery_tape recovered).2.1

theorem LogCall.Readable.sized (readable : call.Readable) : ∀ record ∈ call.logged, record.Sized := by
  cases call with
  | logTxnBegin | logCommit | logAbort | logCheckpoint =>
    intro record member isUpdate
    rw [List.mem_singleton.mp member] at isUpdate
    cases isUpdate
  | rollbackTxn | recovery => exact fun record absent => (List.not_mem_nil absent).elim
  | logUpdate txnId pageId length offset beforeImg afterImg =>
    obtain ⟨before, after⟩ := readable
    intro record member isUpdate
    rw [List.mem_singleton.mp member, List.length_take, List.length_take]
    exact ⟨Nat.min_eq_left before, Nat.min_eq_left after⟩

theorem length_tapeBytes (sized : ∀ record ∈ rs, record.Sized) :
    (tapeBytes rs).length = (rs.map LogRecord.getRecordSize).sum := by
  induction rs with
  | nil => rfl
  | cons record rest ih =>
    rw [length_tapeBytes_cons (sized record List.mem_cons_self), List.map_cons, List.sum_cons,
      ih fun other member => sized other (List.mem_cons_of_mem _ member)]

/-- The loops run up to `current_offset_`, whatever is on the tape. -/
theorem le_recordsFrom (lm : LogManager) {fuel offset : Nat}
    (enough : lm.currentOffset ≤ offset + fuel) :
    lm.currentOffset ≤ offset +
      (((lm.recordsFrom fuel offset).map Prod.snd).map LogRecord.getRecordSize).sum := by
  induction fuel generalizing offset with
  | zero => exact enough
  | succ fuel ih =>
    rw [LogManager.recordsFrom]
    split
    · have positive := (readLogRecord lm.logFile offset).getRecordSize_pos
      have closer : lm.currentOffset ≤
          offset + (readLogRecord lm.logFile offset).getRecordSize + fuel := by omega
      have rest := ih closer
      simp only [List.map_cons, List.sum_cons]
      omega
    · simp only [List.map_nil, List.sum_nil]
      omega

/-- The end of the tape lies behind the records of the calls that returned. -/
structure Attempts.Overhang (s : Attempts) : Prop where
  sized : ∀ record ∈ s.returned, record.Sized
  longer : (tapeBytes s.returned).length < s.lm.currentOffset

theorem Attempts.Overhang.records_ne (overhang : s.Overhang) :
    (s.lm.records 0).map Prod.snd ≠ s.returned := by
  intro scanned
  have enough : s.lm.currentOffset ≤ 0 + (s.lm.currentOffset - 0) := by omega
  have reaches := le_recordsFrom s.lm enough
  have total := length_tapeBytes overhang.sized
  have longer := overhang.longer
  rw [LogManager.records] at scanned
  rw [scanned] at reaches
  omega

theorem Attempts.Overhang.step (overhang : s.Overhang) (readable : attempt.call.Readable)
    (stepped : attempt.step s = some s') : s'.Overhang := by
  obtain ⟨⟨lm', returned⟩, ran, rfl⟩ := Option.map_eq_some_iff.mp stepped
  have longer := overhang.longer
  rcases attempt_cases ran with ⟨rfl, ran, _⟩ | ⟨rfl, thrown, record, isThrown, logged, torn⟩
  · constructor
    · intro record member
      rcases List.mem_append.mp member with old | new
      · exact overhang.sized record old
      · exact readable.sized record new
    · change (tapeBytes (s.returned ++ attempt.call.logged)).length < lm'.currentOffset
      rw [exec_offset ran, tapeBytes_append, List.length_append]
      omega
  · refine ⟨overhang.sized, ?_⟩
    change (tapeBytes s.returned).length < lm'.currentOffset
    rw [torn.offset]
    omega

/-- Behind an exception that is not in the first block the end of the tape is inside a record. -/
theorem Attempts.Whole.overhang (whole : s.Whole) (unclean : ¬ attempt.Clean)
    (stepped : attempt.step s = some s') : s'.Overhang := by
  obtain ⟨⟨lm', returned⟩, ran, rfl⟩ := Option.map_eq_some_iff.mp stepped
  rcases attempt_cases ran with ⟨rfl, ran, late⟩ | ⟨rfl, thrown, record, isThrown, logged, torn⟩
  · exact absurd (fun thrown isThrown => Or.inr (late thrown isThrown)) unclean
  · refine ⟨whole.toHolds.sized, ?_⟩
    have later : thrown.block ≠ 0 := by
      intro first
      apply unclean
      intro other same
      rw [isThrown, Option.mem_some_iff] at same
      exact Or.inl (same ▸ first)
    obtain ⟨k, block⟩ := Nat.exists_eq_succ_of_ne_zero later
    -- the type of the record is written
    have written : 4 ≤ (record.fields.take thrown.block).flatten.length := by
      rw [block, LogRecord.fields, List.cons_append, List.take_succ_cons, List.flatten_cons,
        List.length_append, Image.length_bytesOf]
      omega
    change (tapeBytes s.returned).length < lm'.currentOffset
    rw [torn.offset, whole.offset]
    omega

/-- When do the loops from offset zero visit the records of the calls that returned normally, and no
others?  When no exception comes from another block than the first of its record. -/
theorem scan_iff_clean {logFile : List UInt8} {attempts : List Attempt}
    (readable : ∀ attempt ∈ attempts, attempt.call.Readable)
    (ran : Machine.run Attempt.step ⟨LogManager.new logFile, []⟩ attempts = some s) :
    (s.lm.records 0).map Prod.snd = s.returned ↔ ∀ attempt ∈ attempts, attempt.Clean := by
  have start : Attempts.Whole ⟨LogManager.new logFile, []⟩ := Tallied.nil logFile
  have domain := (Machine.along_iff_forall ran).mpr readable
  rw [← Machine.along_iff_forall ran]
  apply Machine.iff_along_of_lasting (P := Attempts.Whole) (B := Attempts.Overhang)
    (V := fun _ attempt => attempt.call.Readable)
    (Q := fun s => (s.lm.records 0).map Prod.snd = s.returned)
  · exact fun _ _ _ whole readable clean stepped => whole.step readable clean stepped
  · exact fun _ _ _ whole _ unclean stepped => whole.overhang unclean stepped
  · exact fun _ _ _ overhang readable stepped => overhang.step readable stepped
  · intro s whole
    rw [whole.toHolds.records_zero, map_snd_positions]
  · exact fun _ overhang => overhang.records_ne
  · exact start
  · exact domain
  · exact ran

/-- A begin and an update that fail in their first block, one with its bytes written, and a commit
behind them. -/
def cleanAttempts : List Attempt :=
  [⟨.logTxnBegin 1, some ⟨0, true⟩⟩, ⟨.logTxnBegin 2, none⟩,
    ⟨.logUpdate 2 0 1 3 [5] [6], some ⟨0, false⟩⟩, ⟨.logCommit 2, none⟩]

theorem scan_iff_clean_first : ∃ s, Machine.run Attempt.step ⟨LogManager.new [], []⟩ cleanAttempts =
      some s ∧
    (s.lm.records 0).map Prod.snd =
      [{ type := .beginRecord, txnId := 2 }, { type := .commitRecord, txnId := 2 }] := by
  have readable : ∀ attempt ∈ cleanAttempts, attempt.call.Readable := by
    simp only [cleanAttempts, List.forall_mem_cons, LogCall.Readable, List.length_singleton,
      true_and]
    exact ⟨⟨by decide, by decide⟩, fun attempt absent => (List.not_mem_nil absent).elim⟩
  refine ⟨_, rfl, ?_⟩
  exact (scan_iff_clean readable rfl).mpr (by decide)

/-- A begin that fails in its second block, and another begin that returns: the loops visit a record
that no call has logged, and not the one that was. -/
theorem not_scan_torn : ∃ s, Machine.run Attempt.step ⟨LogManager.new [], []⟩
      [⟨.logTxnBegin 1, some ⟨1, false⟩⟩, ⟨.logTxnBegin 2, none⟩] = some s ∧
    s.returned = [{ type := .beginRecord, txnId := 2 }] ∧
    (s.lm.records 0).map Prod.snd ≠ s.returned := by
  refine ⟨_, rfl, rfl, ?_⟩
  decide +kernel

end BuzzDB.Recovery
