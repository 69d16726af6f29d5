import BuzzDB.Recovery.CrashRecovery

/-!
# Recovery by a new log manager

A process restart constructs a new log manager over the existing log file, where the
tests keep the old one and call `reset`.  The new one starts with `current_offset_`
at zero: its recovery visits no record, and what it logs overwrites the tape.
-/

namespace BuzzDB.Recovery

/-- Two log managers leave the same bytes in every page when they recover from the same pool and
segment files; neither or both of them run out of frames. -/
def SameBytes (lm other : LogManager) (bm : BufferManager) : Prop :=
  ∀ q i, (lm.recovery bm).map (fun r => (r.2.byte q i, r.2.durable q i)) =
    (other.recovery bm).map (fun r => (r.2.byte q i, r.2.durable q i))

/-- What a log manager logs after recovery follows what its file holds. -/
def FollowsTape (lm : LogManager) (bm : BufferManager) : Prop :=
  ∀ lm' bm', lm.recovery bm = some (lm', bm') → ∀ record : LogRecord,
    (lm'.writeLogRecord record).logFile = lm'.logFile ++ record.bytes

/-- Recovery depends on files only: the log manager that wrote the log file, after `reset`, and a
new one over that file do the same. -/
structure FileOnly (lm : LogManager) (bm : BufferManager) : Prop where
  bytes : SameBytes (lm.reset lm.logFile) (LogManager.new lm.logFile) bm
  follows : FollowsTape (lm.reset lm.logFile) bm
  newFollows : FollowsTape (LogManager.new lm.logFile) bm

/-- The call writes no log record. -/
def Call.IsFlush : Call → Prop
  | flushPage _ => True
  | flushAllPages => True
  | _ => False

variable {s s' : System} {calls : List Call} {lm lm' : LogManager} {bm bm' : BufferManager}

/-! ## The end of the tape -/

/-- The log manager writes at the end of its file. -/
def AtEnd (lm : LogManager) : Prop := lm.currentOffset = lm.logFile.length

theorem AtEnd.writeLogRecord (atEnd : AtEnd lm) (record : LogRecord) :
    (lm.writeLogRecord record).logFile = lm.logFile ++ record.bytes ∧
      AtEnd (lm.writeLogRecord record) := by
  have written : lm.writeLogRecord record = _ :=
    writeFields_spec record.fields (List.append_nil lm.logFile).symm atEnd
  rw [written, List.drop_nil, List.append_nil]
  exact ⟨rfl, rfl⟩

theorem bytes_ne_nil (record : LogRecord) : record.bytes ≠ [] := by
  have fields : record.bytes = Image.bytesOf 4 record.type.code ++ _ := rfl
  intro empty
  rw [empty] at fields
  have length := congrArg List.length fields
  rw [List.length_append, Image.length_bytesOf, List.length_nil] at length
  omega

theorem AtEnd.followsTape (atEnd : AtEnd lm) (bm : BufferManager) : FollowsTape lm bm := by
  intro lm' bm' ran record
  obtain ⟨file, offset, _⟩ := LogManager.recovery_tape ran
  have atEnd' : AtEnd lm' := by
    rw [AtEnd, file, offset]
    exact atEnd
  exact (atEnd'.writeLogRecord record).1

/-- A call appends to the log file, and only a flush appends nothing. -/
theorem exec_appends {call : Call} (atEnd : AtEnd s.lm) (ran : call.exec s = some s') :
    ∃ written, s'.lm.logFile = s.lm.logFile ++ written ∧ AtEnd s'.lm ∧
      (call.IsFlush ↔ written = []) := by
  have logged : ∀ (lm : LogManager) (record : LogRecord), lm.logFile = s.lm.logFile → AtEnd lm →
      s'.lm.logFile = (lm.writeLogRecord record).logFile →
      s'.lm.currentOffset = (lm.writeLogRecord record).currentOffset → ¬ call.IsFlush →
      ∃ written, s'.lm.logFile = s.lm.logFile ++ written ∧ AtEnd s'.lm ∧
        (call.IsFlush ↔ written = []) := by
    intro lm record file atEnd file' offset' notFlush
    obtain ⟨appended, atEnd'⟩ := atEnd.writeLogRecord record
    refine ⟨record.bytes, file'.trans (appended.trans (by rw [file])), ?_, ?_⟩
    · rw [AtEnd, file', offset']
      exact atEnd'
    · exact iff_of_false notFlush (bytes_ne_nil record)
  cases call with
  | logTxnBegin txnId =>
    cases ran
    exact logged { s.lm with
      txnIdToFirstLogRecord := Function.update s.lm.txnIdToFirstLogRecord txnId s.lm.currentOffset
      activeTxns := StdSet.insert txnLt txnId s.lm.activeTxns } _ rfl atEnd rfl rfl id
  | logCommit txnId =>
    cases ran
    exact logged s.lm _ rfl atEnd rfl rfl id
  | logAbort txnId =>
    obtain ⟨⟨lm, bm⟩, aborted, ran⟩ := Option.bind_eq_some_iff.mp ran
    obtain ⟨_, rfl⟩ := LogManager.logAbort_cases aborted
    cases ran
    exact logged s.lm _ rfl atEnd rfl rfl id
  | logCheckpoint =>
    cases ran
    exact logged s.lm _ rfl atEnd rfl rfl id
  | update txnId pageId offset record =>
    obtain ⟨fixed, _, ran⟩ := Option.bind_eq_some_iff.mp ran
    cases ran
    exact logged s.lm _ rfl atEnd rfl rfl id
  | flushPage pageId =>
    cases ran
    exact ⟨[], (List.append_nil _).symm, atEnd, iff_of_true trivial rfl⟩
  | flushAllPages =>
    cases ran
    exact ⟨[], (List.append_nil _).symm, atEnd, iff_of_true trivial rfl⟩

theorem run_appends (atEnd : AtEnd s.lm) (ran : run s calls = some s') :
    ∃ written, s'.lm.logFile = s.lm.logFile ++ written ∧ AtEnd s'.lm ∧
      ((∀ call ∈ calls, call.IsFlush) ↔ written = []) := by
  induction calls using List.reverseRecOn generalizing s' with
  | nil =>
    cases ran
    exact ⟨[], (List.append_nil _).symm, atEnd, iff_of_true (fun _ absent => by cases absent) rfl⟩
  | append_singleton calls call ih =>
    obtain ⟨mid, first, last⟩ := Machine.run_concat ran
    obtain ⟨written, file, atEnd, flushes⟩ := ih first
    obtain ⟨more, file', atEnd', flush⟩ := exec_appends atEnd last
    refine ⟨written ++ more, by rw [file', file, List.append_assoc], atEnd', ?_⟩
    rw [List.append_eq_nil_iff, ← flushes, ← flush]
    simp only [List.mem_append, List.mem_singleton, or_imp, forall_and, forall_eq]

/-! ## The two log managers -/

/-- A new log manager has nothing to recover. -/
theorem recovery_new (logFile : List UInt8) (bm : BufferManager) :
    (LogManager.new logFile).recovery bm = some (LogManager.new logFile, bm.flushAllPages) := rfl

/-- A log manager at the start of its file has nothing to recover either. -/
theorem recovery_at_zero (zero : lm.currentOffset = 0) (bm : BufferManager) :
    (lm.recovery bm).map Prod.snd = some bm.flushAllPages := by
  obtain ⟨_, _, _, _, _⟩ := lm
  cases zero
  rfl

/-- Recovery depends on the files only exactly after runs that have logged nothing. -/
theorem fileOnly_iff {pageSize pageCount : Nat} {pageSize_lt : pageSize < 2 ^ 64}
    {disk : Disk UInt8} (ran : run (System.new pageSize pageSize_lt pageCount disk []) calls = some s)
    (bm : BufferManager) : FileOnly s.lm bm ↔ ∀ call ∈ calls, call.IsFlush := by
  have atStart : AtEnd (System.new pageSize pageSize_lt pageCount disk []).lm := rfl
  obtain ⟨written, file, atEnd, flushes⟩ := run_appends atStart ran
  have file : s.lm.logFile = written := file
  rw [flushes]
  constructor
  · intro fileOnly
    -- the new log manager writes its first record over the tape
    have follows := fileOnly.newFollows _ _ (recovery_new s.lm.logFile bm)
      { type := .beginRecord, txnId := 0 }
    have tape : s.lm.logFile = [] ++ s.lm.logFile := rfl
    have overwritten : (LogManager.new s.lm.logFile).writeLogRecord
        { type := .beginRecord, txnId := 0 } = _ := writeFields_spec _ tape rfl
    rw [overwritten] at follows
    have length := congrArg List.length follows
    change ([] ++ LogRecord.bytes _ ++ s.lm.logFile.drop (LogRecord.bytes _).length).length =
      (s.lm.logFile ++ LogRecord.bytes _).length at length
    have short : (LogRecord.bytes { type := .beginRecord, txnId := 0 }).length = 12 := rfl
    rw [List.nil_append, List.length_append, List.length_append, List.length_drop, short] at length
    rw [← file]
    exact List.eq_nil_of_length_eq_zero (by omega)
  · intro nothing
    have empty : s.lm.logFile = [] := file.trans nothing
    have zero : s.lm.currentOffset = 0 := by
      rw [atEnd, empty]
      rfl
    have new : AtEnd (LogManager.new s.lm.logFile) := by
      rw [AtEnd, empty]
      rfl
    refine ⟨fun q i => ?_, atEnd.followsTape bm, new.followsTape bm⟩
    have same : ((s.lm.reset s.lm.logFile).recovery bm).map Prod.snd =
        ((LogManager.new s.lm.logFile).recovery bm).map Prod.snd :=
      (recovery_at_zero zero bm).trans (recovery_at_zero rfl bm).symm
    have pairs := congrArg (Option.map fun bm => (bm.byte q i, bm.durable q i)) same
    rw [Option.map_map, Option.map_map] at pairs
    exact pairs

/-- After flushes alone both log managers find an empty tape.  A committed update makes them differ, also
when its page has been flushed. -/
theorem fileOnly_iff_logged : ∃ s s',
    run (System.new 2 (by decide) 4 (fun _ => []) []) [.flushPage 3, .flushAllPages] = some s ∧
      FileOnly s.lm s.bm ∧
      run (System.new 2 (by decide) 4 (fun _ => []) [])
        [.logTxnBegin 1, .update 1 0 0 [7], .logCommit 1, .flushAllPages] = some s' ∧
      s'.bm.durable 0 0 = 7 ∧ ¬ FileOnly s'.lm s'.bm := by
  have logged : (run (System.new 2 (by decide) 4 (fun _ => []) [])
      [.logTxnBegin 1, .update 1 0 0 [7], .logCommit 1, .flushAllPages]).map
        (fun s => s.bm.durable 0 0) = some 7 := by decide +kernel
  obtain ⟨s', ran, flushed⟩ := Option.map_eq_some_iff.mp logged
  have flushes : (run (System.new 2 (by decide) 4 (fun _ => []) [])
      [.flushPage 3, .flushAllPages]).isSome := rfl
  obtain ⟨s, isFlushed⟩ := Option.isSome_iff_exists.mp flushes
  refine ⟨s, s', isFlushed, (fileOnly_iff isFlushed _).mpr ?_, ran, flushed, fun fileOnly => ?_⟩
  · exact List.forall_mem_cons.mpr ⟨trivial, List.forall_mem_singleton.mpr trivial⟩
  · exact (fileOnly_iff ran _).mp fileOnly _ List.mem_cons_self

/-- One committed update that never reached the disk: only the old log manager redoes it. -/
theorem not_fileOnly_commit : ∃ s,
    run (System.new 2 (by decide) 4 (fun _ => []) [])
      [.logTxnBegin 1, .update 1 0 0 [7], .logCommit 1] = some s ∧
    ¬ FileOnly s.lm s.crash.bm := by
  have differ : ((run (System.new 2 (by decide) 4 (fun _ => []) [])
      [.logTxnBegin 1, .update 1 0 0 [7], .logCommit 1]).map fun s =>
        (((s.lm.reset s.lm.logFile).recovery s.crash.bm).map fun r => r.2.byte 0 0,
          ((LogManager.new s.lm.logFile).recovery s.crash.bm).map fun r => r.2.byte 0 0)) =
      some (some 7, some 0) := by decide +kernel
  obtain ⟨s, ran, values⟩ := Option.map_eq_some_iff.mp differ
  refine ⟨s, ran, fun fileOnly => ?_⟩
  have same := congrArg (Option.map Prod.fst) (fileOnly.bytes 0 0)
  rw [Option.map_map, Option.map_map] at same
  obtain ⟨old, new⟩ := Prod.mk.inj values
  have impossible : some (7 : UInt8) = some 0 := old.symm.trans (same.trans new)
  exact absurd impossible (by decide)

end BuzzDB.Recovery
