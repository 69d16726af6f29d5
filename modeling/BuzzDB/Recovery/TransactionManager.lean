import BuzzDB.Recovery.Frames
import BuzzDB.Recovery.History

/-!
# The transaction manager

`transaction/transaction_manager.cc` over the log manager and the buffer manager, and
the runs of all three: transactions that start, write, commit and abort, flushes, and
crash cycles.

`HeapSegment::write` finds the offset of a record in the slot of its TID, through a
pointer that the page holds to its own frame.  `write` takes that offset as given.
-/

namespace BuzzDB.Recovery

/-- `Transaction`. -/
structure Transaction where
  txnId : UInt64
  started : Bool
  modifiedPages : List UInt64

/-- `INVALID_TXN_ID`. -/
def invalidTxnId : UInt64 := 0xFFFFFFFFFFFFFFFF

/-- The default constructor, which `transaction_table_[txn_id]` runs for an absent id. -/
def Transaction.default : Transaction := ⟨invalidTxnId, false, []⟩

/-- `TransactionManager`, without the references it holds. -/
structure TransactionManager where
  transactionCounter : UInt64
  transactionTable : UInt64 → Option Transaction

/-- A transaction manager and what it refers to. -/
structure Database where
  tm : TransactionManager
  sys : System

namespace Database

/-- A fresh transaction manager over a fresh system. -/
def new (pageSize : Nat) (pageSize_lt : pageSize < 2 ^ 64) (pageCount : Nat) (disk : Disk UInt8) :
    Database :=
  ⟨⟨0, fun _ => none⟩, System.new pageSize pageSize_lt pageCount disk []⟩

/-- `transaction_table_[txn_id] = txn`. -/
def setTxn (db : Database) (txnId : UInt64) (txn : Transaction) : Database :=
  { db with
    tm := { db.tm with
      transactionTable := Function.update db.tm.transactionTable txnId (some txn) } }

@[simp] theorem setTxn_self (db : Database) (t : UInt64) (txn : Transaction) :
    (db.setTxn t txn).tm.transactionTable t = some txn := Function.update_self _ _ _

theorem setTxn_of_ne {db : Database} {t u : UInt64} {txn : Transaction} (different : u ≠ t) :
    (db.setTxn t txn).tm.transactionTable u = db.tm.transactionTable u :=
  Function.update_of_ne different _ _

/-- `start_txn`, with the id it returns. -/
def startTxn (db : Database) : Database × UInt64 :=
  let txnId := db.tm.transactionCounter + 1
  let db := { db with tm := { db.tm with transactionCounter := txnId } }
  let db := db.setTxn txnId ⟨txnId, true, []⟩
  ({ db with sys := { db.sys with lm := db.sys.lm.logTxnBegin txnId } }, txnId)

/-- `commit_txn`; `none` is the exit for an unknown transaction. -/
def commitTxn (db : Database) (txnId : UInt64) : Option Database := do
  let txn ← db.tm.transactionTable txnId
  if txn.started then
    let bm := txn.modifiedPages.foldl BufferManager.flushPage db.sys.bm
    let lm := db.sys.lm.logCommit txnId
    return { db with sys := ⟨lm, bm⟩ }.setTxn txnId { txn with started := false }
  else return db

/-- `abort_txn`; `none` is the exit for an unknown transaction, or the exit of a `fix_page` during
the rollback. -/
def abortTxn (db : Database) (txnId : UInt64) : Option Database := do
  let txn ← db.tm.transactionTable txnId
  if txn.started then
    let bm := txn.modifiedPages.foldl BufferManager.discardPage db.sys.bm
    let (lm, bm) ← db.sys.lm.logAbort txnId bm
    return { db with sys := ⟨lm, bm⟩ }.setTxn txnId { txn with started := false }
  else return db

/-- What `commit_txn` does when it returns. -/
theorem commitTxn_cases {db db' : Database} {t : UInt64} (ran : db.commitTxn t = some db') :
    ∃ txn, db.tm.transactionTable t = some txn ∧
      ((txn.started = true ∧
          db' = { db with sys := ⟨db.sys.lm.logCommit t,
            txn.modifiedPages.foldl BufferManager.flushPage db.sys.bm⟩ }.setTxn t
              { txn with started := false }) ∨
        (¬ txn.started = true ∧ db' = db)) := by
  obtain ⟨txn, present, ran⟩ := Option.bind_eq_some_iff.mp ran
  refine ⟨txn, present, ?_⟩
  split at ran
  · rename_i started
    exact .inl ⟨started, (Option.some.inj ran).symm⟩
  · rename_i notStarted
    exact .inr ⟨notStarted, (Option.some.inj ran).symm⟩

/-- What `abort_txn` does when it returns. -/
theorem abortTxn_cases {db db' : Database} {t : UInt64} (ran : db.abortTxn t = some db') :
    ∃ txn, db.tm.transactionTable t = some txn ∧
      ((txn.started = true ∧
          ∃ lm bm, db.sys.lm.logAbort t
              (txn.modifiedPages.foldl BufferManager.discardPage db.sys.bm) = some (lm, bm) ∧
            db' = { db with sys := ⟨lm, bm⟩ }.setTxn t { txn with started := false }) ∨
        (¬ txn.started = true ∧ db' = db)) := by
  obtain ⟨txn, present, ran⟩ := Option.bind_eq_some_iff.mp ran
  refine ⟨txn, present, ?_⟩
  split at ran
  · rename_i started
    obtain ⟨⟨lm, bm⟩, aborted, ran⟩ := Option.bind_eq_some_iff.mp ran
    exact .inl ⟨started, lm, bm, aborted, (Option.some.inj ran).symm⟩
  · rename_i notStarted
    exact .inr ⟨notStarted, (Option.some.inj ran).symm⟩

/-- `add_modified_page`. -/
def addModifiedPage (db : Database) (txnId pageId : UInt64) : Database :=
  let txn := (db.tm.transactionTable txnId).getD Transaction.default
  db.setTxn txnId { txn with modifiedPages := txn.modifiedPages ++ [pageId] }

/-- `HeapSegment::write` at the offset its slot names, and the `add_modified_page` that callers
make behind it. -/
def write (db : Database) (txnId pageId offset : UInt64) (record : List UInt8) : Option Database := do
  let sys ← db.sys.update txnId pageId offset record
  return { db with sys := sys }.addModifiedPage txnId pageId

/-- A crash cycle: `LogManager::reset`, `TransactionManager::reset` and `recovery`. -/
def crash (db : Database) : Option Database := do
  let sys ← db.sys.crash.recover
  return ⟨⟨0, fun _ => none⟩, sys⟩

end Database

/-- The steps of a run. -/
inductive Step
  | startTxn
  | write (txnId pageId offset : UInt64) (record : List UInt8)
  | commitTxn (txnId : UInt64)
  | abortTxn (txnId : UInt64)
  | flushPage (pageId : UInt64)
  | flushAllPages
  | crash
  deriving DecidableEq

namespace Step

/-- One step. -/
def exec (db : Database) : Step → Option Database
  | startTxn => some db.startTxn.1
  | write txnId pageId offset record => db.write txnId pageId offset record
  | commitTxn txnId => db.commitTxn txnId
  | abortTxn txnId => db.abortTxn txnId
  | flushPage pageId => some { db with sys := { db.sys with bm := db.sys.bm.flushPage pageId } }
  | flushAllPages => some { db with sys := { db.sys with bm := db.sys.bm.flushAllPages } }
  | crash => db.crash

/-- The range of a write lies inside the page. -/
def Inside (pageSize : Nat) : Step → Prop
  | write _ _ offset record => offset.toNat + record.length ≤ pageSize
  | _ => True

end Step

namespace Database

/-- A run, step by step. -/
def run (db : Database) (steps : List Step) : Option Database := steps.foldlM Step.exec db

end Database

/-! ## Discarding several pages -/

/-- What discarding several pages guarantees. -/
structure DiscardedPages (bm : BufferManager) (pages : List UInt64) (bm' : BufferManager) :
    Prop where
  discarded : BufferManager.Discarded bm (fun q => decide (q ∈ pages)) bm'
  hasFrame : ∀ q, q ≠ invalidPageId → (bm'.HasFrame q ↔ bm.HasFrame q ∧ q ∉ pages)
  counter : bm'.pageCounter = bm.pageCounter
  capacity : bm'.pool.length = bm.pool.length

theorem BufferManager.Wf.discardPages {bm : BufferManager} (wf : bm.Wf) (pages : List UInt64) :
    DiscardedPages bm pages (pages.foldl BufferManager.discardPage bm) := by
  induction pages generalizing bm with
  | nil =>
    refine ⟨⟨wf, fun q i => ?_, rfl, rfl⟩, fun q _ => ?_, rfl, rfl⟩
    · rw [if_neg (by simp)]
      rfl
    · simp
  | cons pageId pages ih =>
    have first := wf.discardPage pageId
    obtain ⟨⟨wf', byte, disk, size⟩, hasFrame, counter, capacity⟩ := ih first.wf
    obtain ⟨counter', capacity'⟩ := bm.discardPage_counters pageId
    have durable : ∀ q i, (bm.discardPage pageId).durable q i = bm.durable q i := fun q i =>
      congrArg₂ (fun d n => Disk.byte d n q i) first.disk first.pageSize
    refine ⟨⟨wf', fun q i => ?_, disk.trans first.disk, size.trans first.pageSize⟩, fun q isValid => ?_,
      counter.trans counter', capacity.trans capacity'⟩
    · rw [List.foldl_cons, byte, durable, first.byte]
      by_cases later : q ∈ pages
      · simp [later]
      · by_cases here : q = pageId
        · simp [here]
        · simp [later, here]
    · rw [List.foldl_cons, hasFrame q isValid, wf.hasFrame_discardPage isValid, List.mem_cons, not_or,
        and_assoc]

/-! ## Every step keeps pool and tape consistent -/

section Consistent

variable {lm lm' : LogManager} {bm bm' : BufferManager} {rs : List LogRecord} {t : UInt64}

/-- Page writes keep the pool consistent, wherever they go. -/
theorem rollbackTxn_wf (wf : bm.Wf) (ran : lm.rollbackTxn t bm = some bm') :
    bm'.Wf ∧ bm'.pageSize = bm.pageSize := by
  obtain ⟨mid, undone, flushed⟩ := Option.bind_eq_some_iff.mp ran
  cases flushed
  obtain ⟨midWf, _, size, _⟩ := wf.writePages undone
  obtain ⟨wf', _, _, size'⟩ := midWf.flushAllPages
  exact ⟨wf', size'.trans size⟩

theorem recovery_wf (wf : bm.Wf) (ran : lm.recovery bm = some (lm', bm')) :
    bm'.Wf ∧ bm'.pageSize = bm.pageSize := by
  obtain ⟨redone, redoRan, ran⟩ := Option.bind_eq_some_iff.mp ran
  obtain ⟨undone, undoRan, ran⟩ := Option.bind_eq_some_iff.mp ran
  cases ran
  rw [redo_eq_writes] at redoRan
  obtain ⟨redoneWf, _, redoneSize, _⟩ := wf.writePages redoRan
  obtain ⟨undoneWf, undoneSize⟩ : undone.Wf ∧ undone.pageSize = redone.pageSize := by
    refine Machine.reached (P := fun bm => bm.Wf ∧ bm.pageSize = redone.pageSize)
      (fun bm t bm' before rolledBack => ?_) ⟨redoneWf, rfl⟩ undoRan
    obtain ⟨wf', size⟩ := rollbackTxn_wf before.1 rolledBack
    exact ⟨wf', size.trans before.2⟩
  obtain ⟨wf', _, _, size⟩ := undoneWf.flushAllPages
  exact ⟨wf', size.trans (undoneSize.trans redoneSize)⟩

end Consistent

end BuzzDB.Recovery
