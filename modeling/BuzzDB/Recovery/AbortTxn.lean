import BuzzDB.Recovery.TransactionManager

/-!
# Aborting one transaction among others

`abort_txn` discards whole pages and then puts back, byte by byte, what its
transaction wrote there.  Whatever else the discarded frames held and the segment
files do not is lost.

`runSaving` carries along what each transaction found before its first write, and
`Tracks` says that the tape knows it too.
-/

namespace BuzzDB.Recovery

/-- The bytes a transaction found before it first wrote them. -/
abbrev Saved := UInt64 → Cell → Option UInt8

/-- A write saves the bytes its transaction has not written before; a transaction that starts has
written nothing. -/
def Step.save (db : Database) (saved : Saved) : Step → Saved
  | startTxn => Function.update saved (db.tm.transactionCounter + 1) fun _ => none
  | write txnId pageId offset record => Function.update saved txnId fun a =>
    (saved txnId a).or
      ((Call.cells pageId offset record a).map fun _ => db.sys.bm.byte a.1 a.2)
  | _ => saved

/-- A run that keeps track of the saved bytes. -/
def Database.runSaving (db : Database) (steps : List Step) : Option (Database × Saved) :=
  steps.foldlM (fun r step => (step.exec r.1).map fun db' => (db', step.save r.1 r.2))
    (db, fun _ _ => none)

/-- What the tape and the table know about a transaction that is started. -/
structure TracksTxn (lm : LogManager) (rs : List LogRecord) (saved : Cell → Option UInt8)
    (t : UInt64) (txn : Transaction) (front back : List LogRecord) : Prop where
  split : rs = front ++ back
  first : lm.txnIdToFirstLogRecord t = (tapeBytes front).length
  saved : ∀ a, saved a = UndoRedo.firstBefore (entries back) t a
  pages : ∀ q, q ∈ txn.modifiedPages ↔ q ∈ undoPages back t

/-- The tape of a database holds `rs`, and knows what every started transaction found. -/
structure Tracks (pageSize : Nat) (db : Database) (saved : Saved) (rs : List LogRecord) :
    Prop where
  holds : Holds db.sys.lm rs
  wf : db.sys.bm.Wf
  size : db.sys.bm.pageSize = pageSize
  inside : ∀ r ∈ rs, r.Inside pageSize
  valid : ∀ r ∈ rs, r.type = .updateRecord → r.pageId ≠ invalidPageId
  txns : ∀ t txn, db.tm.transactionTable t = some txn → txn.started = true →
    ∃ front back, TracksTxn db.sys.lm rs (saved t) t txn front back

variable {db db' : Database} {saved : Saved} {rs : List LogRecord} {pageSize : Nat}
  {lm : LogManager} {record : LogRecord} {t : UInt64} {txn : Transaction}
  {front back : List LogRecord} {found : Cell → Option UInt8}

/-- A record that is no update of `t` tells nothing new about `t`. -/
theorem TracksTxn.append {lm' : LogManager} (tracks : TracksTxn lm rs found t txn front back)
    (first : lm'.txnIdToFirstLogRecord t = lm.txnIdToFirstLogRecord t)
    (other : ¬ (record.type = .updateRecord ∧ record.txnId = t)) :
    TracksTxn lm' (rs ++ [record]) found t txn front (back ++ [record]) where
  split := by rw [tracks.split, List.append_assoc]
  first := first.trans tracks.first
  saved a := by
    rw [entries_append, UndoRedo.firstBefore_append_of_ne]
    · exact tracks.saved a
    · exact fun cells isUpdate => other (LogRecord.entry_eq_update isUpdate)
  pages q := by
    rw [tracks.pages, mem_undoPages, mem_undoPages]
    simp only [List.mem_append, List.mem_singleton, or_and_right, exists_or, exists_eq_left]
    rw [or_iff_left]
    exact fun ⟨isUpdate, isT, _⟩ => other ⟨isUpdate, isT⟩

/-- The invariant of a step that appends at most a record which is no update, and starts no
transaction. -/
theorem Tracks.plain {sys : System} {table : UInt64 → Option Transaction} {counter : UInt64}
    (tracks : Tracks pageSize db saved rs) (notUpdate : record.type ≠ .updateRecord)
    (holds : Holds sys.lm (rs ++ [record])) (wf : sys.bm.Wf)
    (size : sys.bm.pageSize = db.sys.bm.pageSize)
    (first : sys.lm.txnIdToFirstLogRecord = db.sys.lm.txnIdToFirstLogRecord)
    (kept : ∀ t txn, table t = some txn → txn.started = true →
      db.tm.transactionTable t = some txn) :
    Tracks pageSize ⟨⟨counter, table⟩, sys⟩ saved (rs ++ [record]) where
  holds := holds
  wf := wf
  size := size.trans tracks.size
  inside r member isUpdate := by
    rcases List.mem_append.mp member with old | new
    · exact tracks.inside r old isUpdate
    · exact absurd (List.mem_singleton.mp new ▸ isUpdate) notUpdate
  valid r member isUpdate := by
    rcases List.mem_append.mp member with old | new
    · exact tracks.valid r old isUpdate
    · exact absurd (List.mem_singleton.mp new ▸ isUpdate) notUpdate
  txns t txn present started := by
    obtain ⟨front, back, tracked⟩ := tracks.txns t txn (kept t txn present started) started
    exact ⟨front, back ++ [record],
      tracked.append (congrFun first t) fun isUpdate => notUpdate isUpdate.1⟩

/-- A step that appends nothing. -/
theorem Tracks.silent {sys : System} (tracks : Tracks pageSize db saved rs) (lm : sys.lm = db.sys.lm)
    (wf : sys.bm.Wf) (size : sys.bm.pageSize = db.sys.bm.pageSize) :
    Tracks pageSize ⟨db.tm, sys⟩ saved rs where
  holds := lm ▸ tracks.holds
  wf := wf
  size := size.trans tracks.size
  inside := tracks.inside
  valid := tracks.valid
  txns t txn present started := lm ▸ tracks.txns t txn present started

theorem Tracks.startTxn (tracks : Tracks pageSize db saved rs) :
    Tracks pageSize db.startTxn.1 (Step.startTxn.save db saved)
      (rs ++ [{ type := .beginRecord, txnId := db.tm.transactionCounter + 1 }]) := by
  let t := db.tm.transactionCounter + 1
  have fresh : Holds { db.sys.lm with
      txnIdToFirstLogRecord :=
        Function.update db.sys.lm.txnIdToFirstLogRecord t db.sys.lm.currentOffset
      activeTxns := StdSet.insert txnLt t db.sys.lm.activeTxns } rs := tracks.holds.congr rfl rfl
  have maps := writeLogRecord_maps { db.sys.lm with
      txnIdToFirstLogRecord :=
        Function.update db.sys.lm.txnIdToFirstLogRecord t db.sys.lm.currentOffset
      activeTxns := StdSet.insert txnLt t db.sys.lm.activeTxns } { type := .beginRecord, txnId := t }
  refine ⟨(fresh.append_plain (by decide) t []).congr rfl rfl, tracks.wf, tracks.size,
    fun r member isUpdate => ?_, fun r member isUpdate => ?_, fun u txn present started => ?_⟩
  · rcases List.mem_append.mp member with old | new
    · exact tracks.inside r old isUpdate
    · rw [List.mem_singleton.mp new] at isUpdate
      cases isUpdate
  · rcases List.mem_append.mp member with old | new
    · exact tracks.valid r old isUpdate
    · rw [List.mem_singleton.mp new] at isUpdate
      cases isUpdate
  · have first : db.startTxn.1.sys.lm.txnIdToFirstLogRecord u =
        Function.update db.sys.lm.txnIdToFirstLogRecord t db.sys.lm.currentOffset u :=
      congrFun maps.1 u
    by_cases same : u = t
    · subst same
      have isNew : txn = ⟨t, true, []⟩ := by
        have entry : db.startTxn.1.tm.transactionTable t = some ⟨t, true, []⟩ :=
          Database.setTxn_self _ _ _
        rw [entry] at present
        exact (Option.some.inj present).symm
      subst isNew
      refine ⟨rs, _, rfl, ?_, fun a => ?_, fun q => ?_⟩
      · rw [first, Function.update_self, tracks.holds.offset]
      · exact congrFun (Function.update_self _ _ _) a
      · exact iff_of_false List.not_mem_nil List.not_mem_nil
    · have kept : db.tm.transactionTable u = some txn := by
        rw [← present]
        exact (Database.setTxn_of_ne same).symm
      obtain ⟨front, back, tracked⟩ := tracks.txns u txn kept started
      have found : Step.startTxn.save db saved u = saved u := Function.update_of_ne same _ _
      rw [found]
      refine ⟨front, _, tracked.append ?_ fun isUpdate => by cases isUpdate.1⟩
      rw [first, Function.update_of_ne same]

theorem Tracks.write {txnId pageId offset : UInt64} {bytes : List UInt8}
    (tracks : Tracks pageSize db saved rs) (inside : offset.toNat + bytes.length ≤ pageSize)
    (ran : db.write txnId pageId offset bytes = some db') :
    Tracks pageSize db' ((Step.write txnId pageId offset bytes).save db saved)
      (rs ++ [db.sys.updateRecord txnId pageId offset bytes]) := by
  obtain ⟨sys, updated, ran⟩ := Option.bind_eq_some_iff.mp ran
  cases ran
  rw [← tracks.size] at inside
  obtain ⟨⟨wf, valid, _, _, size⟩, logged⟩ := System.update_spec tracks.wf inside updated
  have maps := writeLogRecord_maps db.sys.lm (db.sys.updateRecord txnId pageId offset bytes)
  have sized : (db.sys.updateRecord txnId pageId offset bytes).Sized :=
    System.updateRecord_sized inside
  have length := length_toNat db.sys.bm inside
  have first : sys.lm.txnIdToFirstLogRecord = db.sys.lm.txnIdToFirstLogRecord := by
    rw [logged]
    exact maps.1
  refine ⟨?_, wf, size.trans tracks.size, fun r member => ?_, fun r member => ?_,
    fun u txn present started => ?_⟩
  · have holds : Holds sys.lm (rs ++ [db.sys.updateRecord txnId pageId offset bytes]) := by
      rw [logged]
      exact (tracks.holds.append sized).congr rfl rfl
    exact holds
  · rcases List.mem_append.mp member with old | new
    · exact tracks.inside r old
    · rw [List.mem_singleton.mp new, ← tracks.size]
      exact fun _ => Nat.le_trans (Nat.le_of_eq (congrArg (offset.toNat + ·) length)) inside
  · rcases List.mem_append.mp member with old | new
    · exact tracks.valid r old
    · rw [List.mem_singleton.mp new]
      exact fun _ => valid
  · by_cases same : u = txnId
    · subst same
      -- the entry of a started transaction was there before the write
      obtain ⟨old, entry, isOld⟩ : ∃ old, db.tm.transactionTable u = some old ∧
          txn = { old with modifiedPages := old.modifiedPages ++ [pageId] } := by
        rw [Database.addModifiedPage, Database.setTxn_self, Option.some.injEq] at present
        subst present
        cases entry : db.tm.transactionTable u with
        | none =>
          simp only [entry, Option.getD_none] at started
          cases started
        | some old => exact ⟨old, rfl, rfl⟩
      subst isOld
      obtain ⟨front, back, tracked⟩ := tracks.txns u old entry started
      refine ⟨front, back ++ [db.sys.updateRecord u pageId offset bytes], ?_, ?_, fun a => ?_,
        fun q => ?_⟩
      · rw [tracked.split, List.append_assoc]
      · exact (congrFun first u).trans tracked.first
      · have entryEq : (db.sys.updateRecord u pageId offset bytes).entry =
            (db.sys.abstract rs).logged u (Call.cells pageId offset bytes) :=
          System.entry_updateRecord inside
        rw [entries_append, UndoRedo.firstBefore_append, entryEq, ← tracked.saved]
        simp only [Step.save, Function.update_self, UndoRedo.Sys.logged, UndoRedo.Entry.imagesOf,
          if_true, Option.map_map]
        rfl
      · rw [List.mem_append, tracked.pages, mem_undoPages, mem_undoPages]
        simp only [List.mem_append, List.mem_singleton, or_and_right, exists_or, exists_eq_left]
        simp [System.updateRecord, eq_comm]
    · have kept : db.tm.transactionTable u = some txn := by
        rw [← present, Database.addModifiedPage, Database.setTxn_of_ne same]
      obtain ⟨front, back, tracked⟩ := tracks.txns u txn kept started
      have found : (Step.write txnId pageId offset bytes).save db saved u = saved u :=
        Function.update_of_ne same _ _
      rw [found]
      exact ⟨front, _, tracked.append (congrFun first u) fun isUpdate => same isUpdate.2.symm⟩

/-- Ending a transaction keeps the others. -/
theorem started_of_ended {sys : System} {txnId : UInt64} {ended : Transaction}
    (notStarted : ended.started = false)
    (present : (({ db with sys := sys } : Database).setTxn txnId ended).tm.transactionTable t =
      some txn) (started : txn.started = true) : db.tm.transactionTable t = some txn := by
  by_cases same : t = txnId
  · subst same
    rw [Database.setTxn_self, Option.some.injEq] at present
    rw [← present, notStarted] at started
    cases started
  · rw [← present]
    exact (Database.setTxn_of_ne same).symm

/-- What a step leaves on the tape. -/
def Step.records (db : Database) : Step → List LogRecord
  | startTxn => [{ type := .beginRecord, txnId := db.tm.transactionCounter + 1 }]
  | write txnId pageId offset record => [db.sys.updateRecord txnId pageId offset record]
  | commitTxn txnId =>
    match db.tm.transactionTable txnId with
    | some txn => if txn.started then [{ type := .commitRecord, txnId }] else []
    | none => []
  | abortTxn txnId =>
    match db.tm.transactionTable txnId with
    | some txn => if txn.started then [{ type := .abortRecord, txnId }] else []
    | none => []
  | flushPage _ => []
  | flushAllPages => []
  | crash => []

theorem Tracks.exec {step : Step} (tracks : Tracks pageSize db saved rs)
    (inside : step.Inside pageSize) (ran : step.exec db = some db') :
    Tracks pageSize db' (step.save db saved) (rs ++ step.records db) := by
  cases step with
  | startTxn =>
    cases ran
    exact tracks.startTxn
  | write txnId pageId offset record => exact tracks.write inside ran
  | commitTxn txnId =>
    obtain ⟨txn, present, ⟨started, rfl⟩ | ⟨notStarted, rfl⟩⟩ := Database.commitTxn_cases ran
    · simp only [Step.records, present]
      rw [if_pos started]
      obtain ⟨wf, size, -⟩ := tracks.wf.flushPages txn.modifiedPages
      have maps := writeLogRecord_maps db.sys.lm { type := .commitRecord, txnId }
      have holds : Holds (db.sys.lm.logCommit txnId)
          (rs ++ [({ type := .commitRecord, txnId } : LogRecord)]) :=
        (tracks.holds.append_plain (by decide) txnId []).congr rfl rfl
      refine tracks.plain (fun h => by cases h) holds wf size maps.1 ?_
      exact fun t txn present started => started_of_ended rfl present started
    · simp only [Step.records, present]
      rw [if_neg notStarted, List.append_nil]
      exact tracks
  | abortTxn txnId =>
    obtain ⟨txn, present, ⟨started, lm, bm, aborted, rfl⟩ | ⟨notStarted, rfl⟩⟩ :=
      Database.abortTxn_cases ran
    · simp only [Step.records, present]
      rw [if_pos started]
      obtain ⟨rolledBack, rfl⟩ := LogManager.logAbort_cases aborted
      have discarded := (tracks.wf.discardPages txn.modifiedPages).discarded
      obtain ⟨wf, size⟩ := rollbackTxn_wf discarded.wf rolledBack
      have maps := writeLogRecord_maps db.sys.lm { type := .abortRecord, txnId }
      have holds : Holds (((db.sys.lm.writeLogRecord { type := .abortRecord, txnId }).eraseActive
          txnId).count .abortRecord) (rs ++ [({ type := .abortRecord, txnId } : LogRecord)]) :=
        (tracks.holds.append_plain (by decide) txnId []).congr rfl rfl
      refine tracks.plain (fun h => by cases h) holds wf (size.trans discarded.pageSize)
        maps.1 ?_
      exact fun t txn present started => started_of_ended rfl present started
    · simp only [Step.records, present]
      rw [if_neg notStarted, List.append_nil]
      exact tracks
  | flushPage pageId =>
    cases ran
    have flushed := tracks.wf.flushPage pageId
    rw [Step.records, List.append_nil]
    exact tracks.silent rfl flushed.wf flushed.pageSize
  | flushAllPages =>
    cases ran
    have flushed := tracks.wf.flushAllPages
    rw [Step.records, List.append_nil]
    exact tracks.silent rfl flushed.wf flushed.pageSize
  | crash =>
    obtain ⟨sys, recovered, ran⟩ := Option.bind_eq_some_iff.mp ran
    cases ran
    obtain ⟨⟨lm, bm⟩, ranRecovery, same⟩ := Option.bind_eq_some_iff.mp recovered
    cases same
    have crashed := BufferManager.discarded_all db.sys.bm
    obtain ⟨wf, size⟩ := recovery_wf crashed.wf ranRecovery
    obtain ⟨file, offset, _⟩ := LogManager.recovery_tape ranRecovery
    rw [Step.records, List.append_nil]
    exact ⟨tracks.holds.congr file offset, wf, size.trans (crashed.pageSize.trans tracks.size),
      tracks.inside, tracks.valid, fun t txn present => by cases present⟩

/-- The tape of a fresh database is empty. -/
theorem Tracks.new (pageSize_lt : pageSize < 2 ^ 64) (pageCount : Nat) (disk : Disk UInt8) :
    Tracks pageSize (Database.new pageSize pageSize_lt pageCount disk) (fun _ _ => none) [] where
  holds := Holds.nil []
  wf := BufferManager.Wf.new pageSize pageSize_lt pageCount disk
  size := rfl
  inside _ absent := absurd absent List.not_mem_nil
  valid _ absent := absurd absent List.not_mem_nil
  txns t txn present := by cases present

theorem tracks_of_run {pageSize_lt : pageSize < 2 ^ 64} {pageCount : Nat} {disk : Disk UInt8}
    {steps : List Step}
    (ran : (Database.new pageSize pageSize_lt pageCount disk).runSaving steps = some (db, saved))
    (inside : ∀ step ∈ steps, step.Inside pageSize) : ∃ rs, Tracks pageSize db saved rs := by
  induction steps using List.reverseRecOn generalizing db saved with
  | nil =>
    cases ran
    exact ⟨[], Tracks.new pageSize_lt pageCount disk⟩
  | append_singleton steps step ih =>
    obtain ⟨⟨mid, savedMid⟩, first, last⟩ := Machine.run_concat ran
    obtain ⟨rs, tracks⟩ := ih first fun step member => inside step (List.mem_append_left _ member)
    obtain ⟨next, taken, same⟩ := Option.map_eq_some_iff.mp last
    cases same
    exact ⟨_, tracks.exec (inside _ (List.mem_append_right _ (List.mem_singleton_self _))) taken⟩

/-! ## The abort -/

/-- `abort_txn` returns, the transaction's bytes have their value from before it wrote them, and
every other byte is as it was. -/
def Spares (db : Database) (saved : Saved) (t : UInt64) : Prop :=
  ∃ db', db.abortTxn t = some db' ∧
    ∀ q i, db'.sys.bm.byte q i = (saved t (q, i)).getD (db.sys.bm.byte q i)

/-- There are frames for reloading the pages that the transaction modified. -/
def Reloads (bm : BufferManager) (txn : Transaction) : Prop :=
  txn.modifiedPages = [] ∨ bm.pageCounter + txn.modifiedPages.toFinset.card < bm.pool.length

/-- What the transaction has not written of the pages it modified is on disk. -/
def OthersFlushed (bm : BufferManager) (saved : Saved) (t : UInt64) (txn : Transaction) : Prop :=
  ∀ q ∈ txn.modifiedPages, ∀ i, saved t (q, i) = none → bm.durable q i = bm.byte q i

/-- The rollback of `abort_txn` returns exactly if the pages it discarded can be reloaded. -/
theorem Tracks.reloads_iff (tracks : Tracks pageSize db saved rs)
    (tracked : TracksTxn db.sys.lm rs (saved t) t txn front back) :
    (db.sys.lm.rollbackTxn t (txn.modifiedPages.foldl BufferManager.discardPage db.sys.bm)).isSome ↔
      Reloads db.sys.bm txn := by
  obtain ⟨discarded, hasFrame, counter, capacity⟩ := tracks.wf.discardPages txn.modifiedPages
  have holds : Holds db.sys.lm (front ++ back) := tracked.split ▸ tracks.holds
  have valid : invalidPageId ∉ undoPages back t := by
    rw [mem_undoPages]
    rintro ⟨record, member, isUpdate, _, invalid⟩
    refine tracks.valid record ?_ isUpdate invalid
    rw [tracked.split]
    exact List.mem_append_right _ member
  have missing : (txn.modifiedPages.foldl BufferManager.discardPage db.sys.bm).missing
      (undoPages back t) = txn.modifiedPages.toFinset := by
    ext q
    rw [BufferManager.missing, Finset.mem_filter, List.mem_toFinset, List.mem_toFinset,
      tracked.pages, and_iff_left_of_imp]
    intro member present
    have isValid : q ≠ invalidPageId := fun invalid => valid (invalid ▸ member)
    exact ((hasFrame q isValid).mp present).2 ((tracked.pages q).mpr member)
  rw [rollbackTxn_isSome holds discarded.wf tracked.first, BufferManager.Room, missing, counter,
    capacity, List.toFinset_eq_empty_iff, Reloads, and_iff_right valid]

/-- What `abort_txn` leaves, when it returns. -/
theorem Tracks.byte_abortTxn (tracks : Tracks pageSize db saved rs)
    (tracked : TracksTxn db.sys.lm rs (saved t) t txn front back)
    (present : db.tm.transactionTable t = some txn) (started : txn.started = true)
    (ran : db.abortTxn t = some db') (q : UInt64) (i : Nat) :
    db'.sys.bm.byte q i = (saved t (q, i)).getD
      (if q ∈ txn.modifiedPages then db.sys.bm.durable q i else db.sys.bm.byte q i) := by
  obtain ⟨found, entry, ⟨_, lm, bm, aborted, rfl⟩ | ⟨notStarted, _⟩⟩ := Database.abortTxn_cases ran
  · cases Option.some.inj (entry.symm.trans present)
    obtain ⟨rolledBack, rfl⟩ := LogManager.logAbort_cases aborted
    obtain ⟨wf, byte, disk, size⟩ := (tracks.wf.discardPages txn.modifiedPages).discarded
    have holds : Holds db.sys.lm (front ++ back) := tracked.split ▸ tracks.holds
    have restored := rollbackTxn_back holds wf (fun r member => by
      rw [size, tracks.size]
      refine tracks.inside r ?_
      rw [tracked.split]
      exact List.mem_append_right _ member) tracked.first rolledBack
    refine (restored.byte q i).trans ?_
    rw [← tracked.saved, byte]
    simp only [decide_eq_true_eq]
  · cases Option.some.inj (entry.symm.trans present)
    exact absurd started notStarted

/-- Two transactions on one page, whose writes have not been flushed. -/
def sharedPage : List Step :=
  [.startTxn, .startTxn, .write 1 0 60 [7, 7], .write 2 0 62 [9, 9]]

end BuzzDB.Recovery
