import BuzzDB.Recovery.CrashRecovery
import BuzzDB.Recovery.FailedAppends
import BuzzDB.Recovery.TransactionManager

/-!
# Log before page

`HeapSegment::write` changes the page first and appends its update record behind that.  What
lies between the two, and what is left when the append throws, has no record on the tape unless
an earlier update of the transaction covers it.

The runs are those of one epoch in which `log_update` may throw.  The exception leaves
`HeapSegment::write`, so that its caller does not come to `add_modified_page`.
-/

namespace BuzzDB.Recovery

namespace LogManager

/-- The states that the blocks of a record go through: before each one that is written, and
behind the last one. -/
def fieldStates (lm : LogManager) : List (List UInt8) → Option Throw → List LogManager
  | [], _ => [lm]
  | block :: _, some ⟨0, written⟩ => [lm, (lm.writeFields [block] (some ⟨0, written⟩)).1]
  | block :: blocks, some ⟨k + 1, written⟩ =>
    lm :: (lm.writeField block).fieldStates blocks (some ⟨k, written⟩)
  | block :: blocks, none => lm :: (lm.writeField block).fieldStates blocks none

end LogManager

/-- The pool behind each statement of `HeapSegment::write` in front of its `log_update`, and the
copy of the old bytes. -/
structure PageWrite where
  fixed : BufferManager
  copied : BufferManager
  unfixed : BufferManager
  beforeRecord : List UInt8

namespace System

/-- `HeapSegment::write` in front of its `log_update`. -/
def copyRecord (s : System) (pageId offset : UInt64) (record : List UInt8) : Option PageWrite := do
  let (fixed, frameId) ← s.bm.fixPage pageId
  let beforeRecord := Image.fill (fixed.getData frameId) offset.toNat (List.replicate record.length 0)
  let copied := fixed.memcpy frameId offset.toNat record
  return ⟨fixed, copied, copied.unfixPage frameId true, beforeRecord⟩

/-- `HeapSegment::write`, whose `log_update` may throw. -/
def tryUpdate (s : System) (txnId pageId offset : UInt64) (record : List UInt8)
    (throws : Option Throw) : Option (System × Bool) := do
  let pageWrite ← s.copyRecord pageId offset record
  let (lm, returned) := s.lm.tryLogUpdate txnId pageId (UInt64.ofNat record.length) offset
    pageWrite.beforeRecord record throws
  return (⟨lm, pageWrite.unfixed⟩, returned)

/-- The states of `HeapSegment::write`, up to the last block of its record. -/
def updateStates (s : System) (txnId pageId offset : UInt64) (record : List UInt8)
    (throws : Option Throw) : Option (List System) := do
  let pageWrite ← s.copyRecord pageId offset record
  let length := UInt64.ofNat record.length
  let logRecord : LogRecord :=
    { type := .updateRecord, txnId, pageId, length, offset
      beforeImg := pageWrite.beforeRecord.take length.toNat
      afterImg := record.take length.toNat }
  return ⟨s.lm, pageWrite.fixed⟩ :: ⟨s.lm, pageWrite.copied⟩ ::
    (s.lm.fieldStates logRecord.fields throws).map fun lm => ⟨lm, pageWrite.unfixed⟩

end System

namespace Database

/-- `HeapSegment::write` and, when it returns, `add_modified_page`. -/
def tryWrite (db : Database) (txnId pageId offset : UInt64) (record : List UInt8)
    (throws : Option Throw) : Option (Database × Bool) := do
  let (sys, returned) ← db.sys.tryUpdate txnId pageId offset record throws
  if returned then return ({ db with sys := sys }.addModifiedPage txnId pageId, true)
  else return ({ db with sys := sys }, false)

/-- The transaction was started and has not ended. -/
def Running (db : Database) (txnId : UInt64) : Prop :=
  (db.tm.transactionTable txnId).any Transaction.started = true

/-- `flush_page`, or `flush_all_pages`. -/
def flushed (db : Database) (pageId : Option UInt64) : Database :=
  match pageId with
  | some pageId => { db with sys := { db.sys with bm := db.sys.bm.flushPage pageId } }
  | none => { db with sys := { db.sys with bm := db.sys.bm.flushAllPages } }

end Database

/-- The steps of an epoch. -/
inductive TryStep
  | startTxn
  | write (txnId pageId offset : UInt64) (record : List UInt8) (throws : Option Throw)
  | commitTxn (txnId : UInt64)
  | abortTxn (txnId : UInt64)
  | flush (pageId : Option UInt64)

namespace TryStep

/-- One step. -/
def exec (db : Database) : TryStep → Option Database
  | startTxn => some db.startTxn.1
  | write txnId pageId offset record throws =>
    (db.tryWrite txnId pageId offset record throws).map Prod.fst
  | commitTxn txnId => db.commitTxn txnId
  | abortTxn txnId => db.abortTxn txnId
  | flush pageId => some (db.flushed pageId)

/-- The range of a write lies inside the page. -/
def Inside (pageSize : Nat) : TryStep → Prop
  | write _ _ offset record _ => offset.toNat + record.length ≤ pageSize
  | _ => True

end TryStep

/-- An update record of the transaction on the tape covers byte `i` of page `q`. -/
def CoveredBy (lm : LogManager) (t q : UInt64) (i : Nat) : Prop :=
  ∃ entry ∈ lm.records 0, entry.2.type = .updateRecord ∧ entry.2.txnId = t ∧ entry.2.Reaches q i

instance (lm : LogManager) (t q : UInt64) (i : Nat) : Decidable (CoveredBy lm t q i) :=
  inferInstanceAs (Decidable (∃ entry ∈ lm.records 0, _))

/-- Aborting the transaction, or a flush and a crash with its recovery, leave the bytes of the pages
as they do from `db`. -/
structure Unnoticed (db db' : Database) (t : UInt64) : Prop where
  abort : ∀ a a', db.abortTxn t = some a → db'.abortTxn t = some a' →
    ∀ q i, a'.sys.bm.byte q i = a.sys.bm.byte q i
  crash : ∀ pageId a a', (db.flushed pageId).crash = some a → (db'.flushed pageId).crash = some a' →
    ∀ q i, a'.sys.bm.byte q i = a.sys.bm.byte q i

/-- Log before page: while a write runs, every byte that it has changed is covered by a record of its
transaction, and when its append throws, abort and recovery take it back. -/
def LogsFirst (db : Database) : TryStep → Prop
  | .write txnId pageId offset record throws =>
    (∀ states, db.sys.updateStates txnId pageId offset record throws = some states →
      ∀ s ∈ states, ∀ q i, s.bm.byte q i ≠ db.sys.bm.byte q i → CoveredBy s.lm txnId q i) ∧
    ∀ db', db.tryWrite txnId pageId offset record throws = some (db', false) →
      Unnoticed db db' txnId
  | _ => True

/-- A write changes only bytes that its running transaction has covered before, and its append throws
in the first block if at all; transactions have new ids. -/
def Ahead (db : Database) : TryStep → Prop
  | .startTxn => db.tm.transactionTable (db.tm.transactionCounter + 1) = none
  | .write txnId pageId offset record throws =>
    db.Running txnId ∧ (∀ thrown ∈ throws, thrown.block = 0 ∨ 7 ≤ thrown.block) ∧
      ∀ k, k < record.length → record.getD k 0 ≠ db.sys.bm.byte pageId (offset.toNat + k) →
        CoveredBy db.sys.lm txnId pageId (offset.toNat + k)
  | _ => True

instance (db : Database) : DecidablePred (Ahead db)
  | .startTxn => inferInstanceAs (Decidable (_ = none))
  | .write _ _ _ _ _ => inferInstanceAs (Decidable (_ = true ∧ _ ∧ _))
  | .commitTxn _ | .abortTxn _ | .flush _ => isTrue trivial

variable {lm lm' : LogManager} {bm : BufferManager} {s : System} {db db' : Database}
  {rs : List LogRecord} {txnId pageId offset q : UInt64} {record : List UInt8}
  {throws : Option Throw} {i f : Nat} {w : PageWrite} {pageSize : Nat}

/-! ## What is on the tape stays there -/

theorem Begins.fieldStates (begins : Begins lm rs) (blocks : List (List UInt8))
    (throws : Option Throw) : ∀ state ∈ lm.fieldStates blocks throws, Begins state rs := by
  induction blocks generalizing lm throws with
  | nil =>
    intro state member
    rw [List.mem_singleton.mp member]
    exact begins
  | cons block blocks ih =>
    match throws with
    | none =>
      intro state member
      rcases List.mem_cons.mp member with rfl | later
      · exact begins
      · exact ih (begins.writeField block) none state later
    | some ⟨0, written⟩ =>
      intro state member
      rcases List.mem_cons.mp member with rfl | later
      · exact begins
      · rw [List.mem_singleton.mp later]
        cases written with
        | true => exact ⟨begins.sized, begins.onTape, (begins.writeField block).file, begins.offset⟩
        | false => exact begins
    | some ⟨k + 1, written⟩ =>
      intro state member
      rcases List.mem_cons.mp member with rfl | later
      · exact begins
      · exact ih (begins.writeField block) (some ⟨k, written⟩) state later

theorem coveredBy_iff (holds : Holds lm rs) : CoveredBy lm txnId q i ↔
    ∃ r ∈ rs, r.type = .updateRecord ∧ r.txnId = txnId ∧ r.Reaches q i := by
  have members : ∀ r, r ∈ rs ↔ ∃ entry ∈ lm.records 0, entry.2 = r := by
    intro r
    rw [holds.records_zero, ← List.mem_map, map_snd_positions]
  constructor
  · intro ⟨entry, member, covers⟩
    exact ⟨entry.2, (members _).mpr ⟨entry, member, rfl⟩, covers⟩
  · intro ⟨r, member, covers⟩
    obtain ⟨entry, visited, rfl⟩ := (members r).mp member
    exact ⟨entry, visited, covers⟩

/-- What the tape covers it covers when it goes on. -/
theorem CoveredBy.of_begins (covered : CoveredBy lm txnId q i) (holds : Holds lm rs)
    (begins : Begins lm' rs) : CoveredBy lm' txnId q i := by
  obtain ⟨entry, member, covers⟩ := covered
  obtain ⟨more, visited⟩ := begins.records_zero
  refine ⟨entry, ?_, covers⟩
  rw [holds.records_zero] at member
  rw [visited]
  exact List.mem_append_left _ member

theorem covers_of_coveredBy (holds : Holds lm rs) (covered : CoveredBy lm txnId q i) :
    UndoRedo.Covers (entries rs) txnId (q, i) := by
  obtain ⟨r, member, isUpdate, rfl, reaches⟩ := (coveredBy_iff holds).mp covered
  refine ⟨r.cells, ?_, LogRecord.cells_isSome.mpr reaches⟩
  exact List.mem_map.mpr ⟨r, member, r.entry_of_update isUpdate⟩

/-! ## The bytes of the page -/

/-- Looking a page up finds the same bytes where a frame got another mark. -/
theorem find?_set_data {pool : List BufferFrame} {frame frame' : BufferFrame}
    (at_f : pool[f]? = some frame) (same : frame'.pageId = frame.pageId)
    (data : frame'.data = frame.data) :
    ((pool.set f frame').find? fun other => other.pageId == q).map BufferFrame.data =
      (pool.find? fun other => other.pageId == q).map BufferFrame.data := by
  induction pool generalizing f with
  | nil => cases at_f
  | cons head tail ih =>
    cases f with
    | zero =>
      cases at_f
      rw [List.set_cons_zero, List.find?_cons, List.find?_cons, same]
      split
      · rw [Option.map_some, Option.map_some, data]
      · rfl
    | succ f =>
      rw [List.set_cons_succ, List.find?_cons, List.find?_cons]
      split
      · rfl
      · exact ih at_f

theorem byte_eq_getD (bm : BufferManager) (q : UInt64) (i : Nat) :
    bm.byte q i = (((bm.resident q).map BufferFrame.data).map fun data => data.getD i 0).getD
      (bm.durable q i) := by
  rw [BufferManager.byte]
  cases bm.resident q <;> rfl

/-- `unfix_page` changes no byte. -/
theorem byte_unfixPage (bm : BufferManager) (f : Nat) (isDirty : Bool) (q : UInt64) (i : Nat) :
    (bm.unfixPage f isDirty).byte q i = bm.byte q i := by
  unfold BufferManager.unfixPage
  split
  · rename_i frame at_f
    rw [byte_eq_getD, byte_eq_getD, BufferManager.resident, BufferManager.resident]
    split
    · rfl
    · dsimp only
      rw [find?_set_data at_f]
      · rfl
      · rfl
      · rfl
  · rfl

/-- The states of the page while it is written. -/
structure Copies (s : System) (pageId : UInt64) (offset : Nat) (record : List UInt8)
    (w : PageWrite) : Prop where
  fixed : ∀ q i, w.fixed.byte q i = s.bm.byte q i
  copied : ∀ q i, w.copied.byte q i = w.unfixed.byte q i
  written : BufferManager.Written s.bm pageId offset record w.unfixed

theorem copies (wf : s.bm.Wf) (ran : s.copyRecord pageId offset record = some w) :
    Copies s pageId offset.toNat record w := by
  obtain ⟨⟨fixed, f⟩, fixPage, ran⟩ := Option.bind_eq_some_iff.mp ran
  cases ran
  refine ⟨(wf.fixPage fixPage).byte, fun q i => (byte_unfixPage _ _ _ q i).symm, ?_⟩
  apply wf.writePage
  rw [BufferManager.writePage, fixPage]
  rfl

/-- A byte that a write changes is one of its range that had another value. -/
theorem Copies.of_changed (copies : Copies s pageId offset.toNat record w)
    (changed : w.unfixed.byte q i ≠ s.bm.byte q i) :
    ∃ k, k < record.length ∧ q = pageId ∧ i = offset.toNat + k ∧
      record.getD k 0 ≠ s.bm.byte pageId (offset.toNat + k) := by
  rw [copies.written.byte] at changed
  split at changed
  · rename_i inRange
    obtain ⟨rfl, _, low, high⟩ := inRange
    refine ⟨i - offset.toNat, by omega, rfl, by omega, ?_⟩
    rw [Nat.add_sub_cancel' low]
    exact changed
  · exact absurd rfl changed

/-! ## A write, with or without an exception -/

/-- The write returns as without exceptions, or its append throws. -/
theorem tryUpdate_cases {s' : System} {returned : Bool}
    (ran : s.tryUpdate txnId pageId offset record throws = some (s', returned)) :
    ∃ w, s.copyRecord pageId offset record = some w ∧ s'.bm = w.unfixed ∧
      ((returned = true ∧ s.update txnId pageId offset record = some s') ∨
        (returned = false ∧ ∃ thrown update, throws = some thrown ∧ update.type = .updateRecord ∧
          Torn s.lm (LogRecord.fields update) thrown s'.lm ∧
          s'.lm.txnIdToFirstLogRecord = s.lm.txnIdToFirstLogRecord)) := by
  obtain ⟨w, copied, ran⟩ := Option.bind_eq_some_iff.mp ran
  refine ⟨w, copied, ?_⟩
  rcases result : s.lm.tryLogUpdate txnId pageId (UInt64.ofNat record.length) offset w.beforeRecord
    record throws with ⟨lm', flag⟩
  rw [result] at ran
  cases ran
  refine ⟨rfl, ?_⟩
  rw [LogManager.tryLogUpdate] at result
  rcases thenDo_cases result with ⟨isReturned, rfl, _⟩ | ⟨failed, thrown, isThrown, torn, maps⟩
  · obtain ⟨⟨fixed, f⟩, fixPage, isW⟩ := Option.bind_eq_some_iff.mp copied
    cases isW
    refine Or.inl ⟨isReturned, ?_⟩
    rw [System.update, fixPage]
    rfl
  · exact Or.inr ⟨failed, thrown, _, isThrown, rfl, torn, maps⟩

/-- While a write runs, the bytes it has changed are covered, if they were before. -/
theorem updateStates_covered {states : List System} (holds : Holds s.lm rs) (wf : s.bm.Wf)
    (covered : ∀ k, k < record.length → record.getD k 0 ≠ s.bm.byte pageId (offset.toNat + k) →
      CoveredBy s.lm txnId pageId (offset.toNat + k))
    (ran : s.updateStates txnId pageId offset record throws = some states) (mid : System)
    (member : mid ∈ states) (changed : mid.bm.byte q i ≠ s.bm.byte q i) :
    CoveredBy mid.lm txnId q i := by
  obtain ⟨w, copied, ran⟩ := Option.bind_eq_some_iff.mp ran
  cases ran
  have copies := copies wf copied
  have before : w.unfixed.byte q i ≠ s.bm.byte q i → CoveredBy s.lm txnId q i := by
    intro changed
    obtain ⟨k, less, rfl, rfl, differs⟩ := copies.of_changed changed
    exact covered k less differs
  rcases List.mem_cons.mp member with rfl | member
  · exact absurd (copies.fixed q i) changed
  rcases List.mem_cons.mp member with rfl | member
  · apply before
    rw [← copies.copied]
    exact changed
  · obtain ⟨lm, isState, rfl⟩ := List.mem_map.mp member
    exact (before changed).of_begins holds (holds.begins.fieldStates _ throws lm isState)

/-! ## What abort and recovery make of a failed write -/

/-- The tape of a database, and the transactions that run. -/
structure Logged (pageSize : Nat) (db : Database) (rs : List LogRecord) : Prop where
  sim : Simulates db.sys rs
  size : db.sys.bm.pageSize = pageSize
  running : ∀ t, db.Running t → UndoRedo.Open (entries rs) t
  known : ∀ t, UndoRedo.Entry.start t ∈ entries rs → db.tm.transactionTable t ≠ none

/-- A failed write of bytes that its transaction has covered. -/
structure FailedWrite (db : Database) (t : UInt64) (rs : List LogRecord) (db' : Database) : Prop where
  table : db'.tm.transactionTable = db.tm.transactionTable
  sim : Simulates db'.sys rs
  size : db'.sys.bm.pageSize = db.sys.bm.pageSize
  durable : ∀ q i, db'.sys.bm.durable q i = db.sys.bm.durable q i
  byte : ∀ q i, db'.sys.bm.byte q i ≠ db.sys.bm.byte q i → UndoRedo.Covers (entries rs) t (q, i)

/-- What the rollback in `abort_txn` leaves of a byte. -/
theorem byte_abort {a : Database} {t : UInt64} {txn : Transaction} (sim : Simulates db.sys rs)
    (isOpen : UndoRedo.Open (entries rs) t) (present : db.tm.transactionTable t = some txn)
    (started : txn.started = true) (ran : db.abortTxn t = some a) (q : UInt64) (i : Nat) :
    a.sys.bm.byte q i = (UndoRedo.firstBefore (entries rs) t (q, i)).getD
      (if q ∈ txn.modifiedPages then db.sys.bm.durable q i else db.sys.bm.byte q i) := by
  obtain ⟨found, entry, ⟨_, lm, bm, aborted, rfl⟩ | ⟨notStarted, _⟩⟩ := Database.abortTxn_cases ran
  · cases Option.some.inj (entry.symm.trans present)
    obtain ⟨rolledBack, rfl⟩ := LogManager.logAbort_cases aborted
    obtain ⟨wf, byte, disk, size⟩ := (sim.wf.discardPages txn.modifiedPages).discarded
    have inside : ∀ r ∈ rs,
        r.Inside (txn.modifiedPages.foldl BufferManager.discardPage db.sys.bm).pageSize := by
      rw [size]
      exact sim.inside
    have restored := rollbackTxn_spec sim.holds wf inside (sim.starts t isOpen) rolledBack
    refine (restored.byte q i).trans ?_
    rw [byte]
    simp only [decide_eq_true_eq]
  · cases Option.some.inj (entry.symm.trans present)
    exact absurd started notStarted

theorem FailedWrite.abort {a a' : Database} {t : UInt64} (failed : FailedWrite db t rs db')
    (logged : Logged pageSize db rs) (running : db.Running t) (ran : db.abortTxn t = some a)
    (ran' : db'.abortTxn t = some a') (q : UInt64) (i : Nat) :
    a'.sys.bm.byte q i = a.sys.bm.byte q i := by
  have isOpen := logged.running t running
  obtain ⟨txn, present, started⟩ := (Option.any_eq_true _ _).mp running
  have present' : db'.tm.transactionTable t = some txn := failed.table ▸ present
  rw [byte_abort failed.sim isOpen present' started ran' q i,
    byte_abort logged.sim isOpen present started ran q i, failed.durable]
  cases image : UndoRedo.firstBefore (entries rs) t (q, i) with
  | some v => rfl
  | none =>
    have same : db'.sys.bm.byte q i = db.sys.bm.byte q i := by
      by_contra changed
      have covers := UndoRedo.firstBefore_isSome.mpr (failed.byte q i changed)
      rw [image] at covers
      cases covers
    rw [same]

/-- `Simulates` looks at the pool through its bytes only. -/
theorem Simulates.withPool (sim : Simulates s rs) (wf : bm.Wf) (size : bm.pageSize = s.bm.pageSize) :
    Simulates ⟨s.lm, bm⟩ rs where
  holds := sim.holds
  wf := wf
  inside := by
    rw [size]
    exact sim.inside
  valid := sim.valid
  orderly := sim.orderly
  starts := sim.starts

/-- A flush before a crash leaves the tape. -/
theorem Simulates.flushed (sim : Simulates db.sys rs) (pageId : Option UInt64) :
    Simulates (db.flushed pageId).sys rs ∧
      (db.flushed pageId).sys.bm.pageSize = db.sys.bm.pageSize ∧
      ∀ q i, (db.flushed pageId).sys.bm.durable q i =
        if pageId.all (q == ·) then db.sys.bm.byte q i else db.sys.bm.durable q i := by
  cases pageId with
  | some pageId =>
    obtain ⟨wf, _, durable, size⟩ := sim.wf.flushPage pageId
    exact ⟨sim.withPool wf size, size, durable⟩
  | none =>
    obtain ⟨wf, _, durable, size⟩ := sim.wf.flushAllPages
    exact ⟨sim.withPool wf size, size, durable⟩

theorem FailedWrite.crash {a a' : Database} {t : UInt64} (failed : FailedWrite db t rs db')
    (logged : Logged pageSize db rs) (running : db.Running t) {pageId : Option UInt64}
    (ran : (db.flushed pageId).crash = some a) (ran' : (db'.flushed pageId).crash = some a')
    (q : UInt64) (i : Nat) : a'.sys.bm.byte q i = a.sys.bm.byte q i := by
  obtain ⟨sim, _, durable⟩ := logged.sim.flushed pageId
  obtain ⟨sim', _, durable'⟩ := failed.sim.flushed pageId
  obtain ⟨sys, recover, ran⟩ := Option.bind_eq_some_iff.mp ran
  obtain ⟨sys', recover', ran'⟩ := Option.bind_eq_some_iff.mp ran'
  cases ran
  cases ran'
  have recovered := sim.recover recover
  have recovered' := sim'.recover recover'
  have actives : sys'.lm.activeTxns = sys.lm.activeTxns := by
    apply recovered'.ascending.ext txnLt_strict recovered.ascending
    intro u
    rw [recovered'.active, recovered.active]
  change sys'.bm.byte q i = sys.bm.byte q i
  rw [recovered'.byte, recovered.byte, actives, byte_crash, byte_crash, durable, durable',
    failed.durable]
  by_cases changed : db'.sys.bm.byte q i = db.sys.bm.byte q i
  · rw [changed]
  · have active := (recovered.active t).mpr (logged.running t running)
    exact UndoRedo.undo_of_covered ⟨t, active, failed.byte q i changed⟩ _ _

/-! ## Runs -/

theorem Logged.new (pageSize_lt : pageSize < 2 ^ 64) (pageCount : Nat) (disk : Disk UInt8) :
    Logged pageSize (Database.new pageSize pageSize_lt pageCount disk) [] where
  sim := Simulates.new pageSize pageSize_lt pageCount disk []
  size := rfl
  running t running := by cases running
  known t absent := (List.not_mem_nil absent).elim

/-- An exception in the first block, behind a change of covered bytes. -/
theorem Logged.failedWrite {s' : System} (logged : Logged pageSize db rs)
    (clean : ∀ thrown ∈ throws, thrown.block = 0 ∨ 7 ≤ thrown.block)
    (covered : ∀ k, k < record.length → record.getD k 0 ≠ db.sys.bm.byte pageId (offset.toNat + k) →
      CoveredBy db.sys.lm txnId pageId (offset.toNat + k))
    (ran : db.sys.tryUpdate txnId pageId offset record throws = some (s', false)) :
    FailedWrite db txnId rs { db with sys := s' } := by
  obtain ⟨w, copied, isPool, ⟨returned, _⟩ | ⟨_, thrown, update, isThrown, isUpdate, torn, maps⟩⟩ :=
    tryUpdate_cases ran
  · cases returned
  have copies := copies logged.sim.wf copied
  have written := copies.written
  have blocks : (LogRecord.fields update).length = 7 := by
    rw [LogRecord.fields, if_pos isUpdate]
    rfl
  have first : thrown.block = 0 := by
    have inBlocks := torn.inside
    have block := clean thrown isThrown
    omega
  have holds := logged.sim.holds.torn torn first
  rw [← isPool] at written
  refine ⟨rfl, ?_, written.pageSize, fun q i => ?_, fun q i changed => ?_⟩
  · refine ⟨holds, written.wf, ?_, logged.sim.valid, logged.sim.orderly, ?_⟩
    · change ∀ r ∈ rs, r.Inside s'.bm.pageSize
      rw [written.pageSize]
      exact logged.sim.inside
    · change ∀ t, _ → StartsAt rs t (s'.lm.txnIdToFirstLogRecord t)
      rw [maps]
      exact logged.sim.starts
  · change Disk.byte s'.bm.disk s'.bm.pageSize q i = _
    rw [written.disk, written.pageSize]
    rfl
  · have changed : w.unfixed.byte q i ≠ db.sys.bm.byte q i := isPool ▸ changed
    obtain ⟨k, less, rfl, rfl, differs⟩ := copies.of_changed changed
    exact covers_of_coveredBy logged.sim.holds (covered k less differs)

theorem setTxn_known {t u : UInt64} {txn : Transaction} (known : db.tm.transactionTable u ≠ none) :
    (db.setTxn t txn).tm.transactionTable u ≠ none := by
  by_cases same : u = t
  · rw [same, Database.setTxn_self]
    exact Option.some_ne_none txn
  · rw [Database.setTxn_of_ne same]
    exact known

/-- A call of the log manager, behind what was done to the pool. -/
theorem Simulates.call {s' : System} {call : Call} (sim : Simulates s rs)
    (inside : call.Inside s.bm.pageSize) (admits : UndoRedo.Admits (entries rs) call.op)
    (ran : call.exec s = some s') :
    Simulates s' (rs ++ call.records s) ∧ s'.bm.pageSize = s.bm.pageSize := by
  have sim : Simulates s ([] ++ rs) := sim
  have own : ∀ t, call = .logAbort t → ∀ cells, UndoRedo.Entry.update t cells ∉ entries [] :=
    fun _ _ _ absent => List.not_mem_nil absent
  obtain ⟨sim', size, _⟩ := sim.exec inside admits own ran
  exact ⟨sim', size⟩

/-- The end of a transaction closes it and no other. -/
theorem Logged.ended {sys : System} {t : UInt64} {r : LogRecord} {txn : Transaction}
    (logged : Logged pageSize db rs) (sim : Simulates sys (rs ++ [r])) (size : sys.bm.pageSize = pageSize)
    (ends : r.entry = .commit t ∨ r.entry = .abort t) :
    Logged pageSize ({ db with sys := sys }.setTxn t { txn with started := false }) (rs ++ [r]) where
  sim := sim
  size := size
  running u running := by
    have different : u ≠ t := by
      intro same
      rw [Database.Running, same, Database.setTxn_self] at running
      cases running
    rw [Database.Running, Database.setTxn_of_ne different] at running
    have isOpen := logged.running u running
    rw [entries_append]
    apply (UndoRedo.open_append_of_ne _ _ _).mpr isOpen
    · rcases ends with isEnd | isEnd <;> rw [isEnd] <;> exact fun same => by cases same
    · rcases ends with isEnd | isEnd <;> rw [isEnd] <;>
        exact fun same => by cases same <;> exact different rfl
    · rcases ends with isEnd | isEnd <;> rw [isEnd] <;>
        exact fun same => by cases same <;> exact different rfl
  known u started := by
    rw [entries_append, List.mem_append, List.mem_singleton] at started
    apply setTxn_known
    rcases started with old | new
    · exact logged.known u old
    · rcases ends with isEnd | isEnd <;> rw [isEnd] at new <;> cases new

theorem Logged.startTxn (logged : Logged pageSize db rs)
    (fresh : db.tm.transactionTable (db.tm.transactionCounter + 1) = none) :
    ∃ rs', Logged pageSize db.startTxn.1 rs' := by
  let t := db.tm.transactionCounter + 1
  have admits : UndoRedo.Entry.start t ∉ entries rs := fun started => logged.known t started fresh
  have ran : (Call.logTxnBegin t).exec db.sys = some db.startTxn.1.sys := rfl
  have inside : (Call.logTxnBegin t).Inside db.sys.bm.pageSize := trivial
  obtain ⟨sim, size⟩ := logged.sim.call inside admits ran
  have split : entries (rs ++ (Call.logTxnBegin t).records db.sys) = entries rs ++ [.start t] :=
    entries_append
  refine ⟨_, sim, size.trans logged.size, fun u running => ?_, fun u started => ?_⟩
  · rw [split]
    by_cases same : u = t
    · rw [same]
      apply UndoRedo.open_append.mpr
      refine ⟨Or.inr rfl, ⟨fun ended => ?_, fun same => by cases same⟩,
        fun ended => ?_, fun same => by cases same⟩
      · exact admits (logged.sim.orderly.started (Or.inl ended))
      · exact admits (logged.sim.orderly.started (Or.inr (Or.inl ended)))
    · have before : db.Running u := by
        rw [Database.Running, ← running]
        exact congrArg (Option.any Transaction.started) (Database.setTxn_of_ne same).symm
      apply (UndoRedo.open_append_of_ne _ _ _).mpr (logged.running u before)
      · exact fun isU => by cases isU; exact same rfl
      · exact fun isU => by cases isU
      · exact fun isU => by cases isU
  · rw [split, List.mem_append, List.mem_singleton] at started
    by_cases same : u = t
    · rw [same]
      have entry : db.startTxn.1.tm.transactionTable t = some ⟨t, true, []⟩ :=
        Database.setTxn_self _ _ _
      rw [entry]
      exact Option.some_ne_none _
    · have kept : db.startTxn.1.tm.transactionTable u = db.tm.transactionTable u :=
        Database.setTxn_of_ne same
      rw [kept]
      apply logged.known u
      rcases started with old | new
      · exact old
      · cases new
        exact absurd rfl same

theorem Logged.commitTxn {t : UInt64} (logged : Logged pageSize db rs)
    (ran : db.commitTxn t = some db') : ∃ rs', Logged pageSize db' rs' := by
  obtain ⟨txn, present, ⟨started, rfl⟩ | ⟨_, rfl⟩⟩ := Database.commitTxn_cases ran
  · have isOpen := logged.running t ((Option.any_eq_true _ _).mpr ⟨txn, present, started⟩)
    obtain ⟨wf, size, _⟩ := logged.sim.wf.flushPages txn.modifiedPages
    have flushed := logged.sim.withPool wf size
    have inside : (Call.logCommit t).Inside
        (txn.modifiedPages.foldl BufferManager.flushPage db.sys.bm).pageSize := trivial
    obtain ⟨sim, size'⟩ := flushed.call inside isOpen rfl
    exact ⟨_, logged.ended sim ((size'.trans size).trans logged.size) (Or.inl rfl)⟩
  · exact ⟨rs, logged⟩

theorem Logged.abortTxn {t : UInt64} (logged : Logged pageSize db rs)
    (ran : db.abortTxn t = some db') : ∃ rs', Logged pageSize db' rs' := by
  obtain ⟨txn, present, ⟨started, lm, bm, aborted, rfl⟩ | ⟨_, rfl⟩⟩ := Database.abortTxn_cases ran
  · have isOpen := logged.running t ((Option.any_eq_true _ _).mpr ⟨txn, present, started⟩)
    obtain ⟨wf, _, _, size⟩ := (logged.sim.wf.discardPages txn.modifiedPages).discarded
    have discarded := logged.sim.withPool wf size
    have ran : (Call.logAbort t).exec
        ⟨db.sys.lm, txn.modifiedPages.foldl BufferManager.discardPage db.sys.bm⟩ =
          some ⟨lm, bm⟩ := by
      rw [Call.exec, aborted]
      rfl
    have inside : (Call.logAbort t).Inside
        (txn.modifiedPages.foldl BufferManager.discardPage db.sys.bm).pageSize := trivial
    obtain ⟨sim, size'⟩ := discarded.call inside isOpen ran
    exact ⟨_, logged.ended sim ((size'.trans size).trans logged.size) (Or.inr rfl)⟩
  · exact ⟨rs, logged⟩

/-- A write that returns. -/
theorem Logged.update {sys : System} (logged : Logged pageSize db rs)
    (inside : offset.toNat + record.length ≤ pageSize) (running : db.Running txnId)
    (ran : db.sys.update txnId pageId offset record = some sys) :
    ∃ rs', Logged pageSize ({ db with sys := sys }.addModifiedPage txnId pageId) rs' := by
  have inside : (Call.update txnId pageId offset record).Inside db.sys.bm.pageSize :=
    logged.size ▸ inside
  have admits : UndoRedo.Admits (entries rs) (Call.update txnId pageId offset record).op :=
    logged.running txnId running
  have ran : (Call.update txnId pageId offset record).exec db.sys = some sys := ran
  obtain ⟨sim, size⟩ := logged.sim.call inside admits ran
  have split : entries (rs ++ (Call.update txnId pageId offset record).records db.sys) =
      entries rs ++ [.update txnId (db.sys.updateRecord txnId pageId offset record).cells] := by
    rw [Call.records, entries_append, LogRecord.entry_of_update rfl]
    rfl
  refine ⟨_, sim, size.trans logged.size, fun u running' => ?_, fun u started => ?_⟩
  · have before : db.Running u := by
      by_cases same : u = txnId
      · exact same ▸ running
      · rw [Database.Running, ← running']
        exact congrArg (Option.any Transaction.started) (Database.setTxn_of_ne same).symm
    rw [split]
    apply (UndoRedo.open_append_of_ne _ _ _).mpr (logged.running u before)
    · exact fun same => by cases same
    · exact fun same => by cases same
    · exact fun same => by cases same
  · rw [split, List.mem_append, List.mem_singleton] at started
    apply setTxn_known
    rcases started with old | new
    · exact logged.known u old
    · cases new

/-- One step. -/
theorem Logged.step {step : TryStep} (logged : Logged pageSize db rs) (inside : step.Inside pageSize)
    (ahead : Ahead db step) (ran : step.exec db = some db') : ∃ rs', Logged pageSize db' rs' := by
  cases step with
  | startTxn =>
    cases ran
    exact logged.startTxn ahead
  | write txnId pageId offset record throws =>
    obtain ⟨running, clean, covered⟩ := ahead
    obtain ⟨⟨_, _⟩, wrote, rfl⟩ := Option.map_eq_some_iff.mp ran
    obtain ⟨⟨sys, returned⟩, tried, wrote⟩ := Option.bind_eq_some_iff.mp wrote
    cases returned with
    | true =>
      cases wrote
      obtain ⟨_, _, _, ⟨_, updated⟩ | ⟨failed, _⟩⟩ := tryUpdate_cases tried
      · exact logged.update inside running updated
      · cases failed
    | false =>
      cases wrote
      have failed := logged.failedWrite clean covered tried
      exact ⟨rs, failed.sim, failed.size.trans logged.size, logged.running, logged.known⟩
  | commitTxn t => exact logged.commitTxn ran
  | abortTxn t => exact logged.abortTxn ran
  | flush pageId =>
    cases ran
    obtain ⟨sim, size, _⟩ := logged.sim.flushed pageId
    have table : (db.flushed pageId).tm = db.tm := by cases pageId <;> rfl
    refine ⟨rs, sim, size.trans logged.size, fun t running => ?_, fun t started => ?_⟩
    · rw [Database.Running, table] at running
      exact logged.running t running
    · rw [table]
      exact logged.known t started

theorem Logged.logsFirst {step : TryStep} (logged : Logged pageSize db rs)
    (ahead : Ahead db step) : LogsFirst db step := by
  cases step with
  | write txnId pageId offset record throws =>
    obtain ⟨running, clean, covered⟩ := ahead
    constructor
    · intro states ran mid member q i changed
      exact updateStates_covered logged.sim.holds logged.sim.wf covered ran mid member changed
    · intro db' wrote
      obtain ⟨⟨sys, returned⟩, tried, wrote⟩ := Option.bind_eq_some_iff.mp wrote
      cases returned with
      | true => cases wrote
      | false =>
        cases wrote
        have failed := logged.failedWrite clean covered tried
        constructor
        · exact fun a a' ran ran' => failed.abort logged running ran ran'
        · exact fun pageId a a' ran ran' => failed.crash logged running ran ran'
  | startTxn | commitTxn | abortTxn | flush => trivial

/-- A transaction that writes a byte as it was and then changes it, twice: the second time its append
throws, and it is aborted. -/
def coveredFirst : List TryStep :=
  [.startTxn, .write 1 0 1 [0] none, .write 1 0 1 [7] none, .write 1 0 1 [9] (some ⟨0, true⟩),
    .abortTxn 1]

end BuzzDB.Recovery
