import BuzzDB.Lib.Machine
import BuzzDB.Locking.FrameTable

/-!
# The transaction manager of the concurrency lab

`transaction/transaction_manager.cc` of lab 3 over the buffer manager, whose calls nothing interrupts.
The members of its log manager are empty.

`commit_txn` flushes twice, and `abort_txn` discards before it releases; they are
`transaction_complete` and `transaction_abort` all the same.  `reset` forgets the transactions and
not their locks, and gives out their ids again.
-/

namespace BuzzDB.Locking

/-- `Transaction`. -/
structure Transaction where
  txnId : UInt64
  started : Bool
  modifiedPages : List UInt64

/-- The default constructor, which `transaction_table_[txn_id]` runs for an absent id. -/
def Transaction.default : Transaction := ⟨invalidTxnId, false, []⟩

/-- `TransactionManager`, with the buffer manager it refers to. -/
structure TransactionManager (α : Type*) where
  bm : BufferManager α
  transactionCounter : UInt64
  transactionTable : UInt64 → Option Transaction

namespace TransactionManager

variable {α : Type*} [Zero α]

/-- A fresh transaction manager over a fresh buffer manager. -/
def new (pageSize pageCount : Nat) (disk : Disk α) : TransactionManager α :=
  ⟨BufferManager.new pageSize pageCount disk, 0, fun _ => none⟩

variable (tm : TransactionManager α)

/-- `transaction_table_[txn_id] = txn`. -/
def setTxn (txnId : UInt64) (txn : Transaction) : TransactionManager α :=
  { tm with transactionTable := Function.update tm.transactionTable txnId (some txn) }

/-- `reset`. -/
def reset : TransactionManager α := ⟨tm.bm.discardAllPages, 0, fun _ => none⟩

/-- `start_txn`, with the id it returns. -/
def startTxn : TransactionManager α × UInt64 :=
  let txnId := tm.transactionCounter + 1
  ({ tm with transactionCounter := txnId }.setTxn txnId ⟨txnId, true, []⟩, txnId)

/-- `commit_txn`; `none` is the exit for an unknown transaction. -/
def commitTxn (txnId : UInt64) : Option (TransactionManager α) :=
  match tm.transactionTable txnId with
  | none => none
  | some txn =>
    if txn.started then
      let bm := (tm.bm.flushPages txnId).transactionComplete txnId
      some ({ tm with bm }.setTxn txnId { txn with started := false })
    else some tm

/-- `abort_txn`; `none` is the exit for an unknown transaction. -/
def abortTxn (txnId : UInt64) : Option (TransactionManager α) :=
  match tm.transactionTable txnId with
  | none => none
  | some txn =>
    if txn.started then
      let bm := (tm.bm.discardPages txnId).transactionComplete txnId
      some ({ tm with bm }.setTxn txnId { txn with started := false })
    else some tm

/-- `add_modified_page`. -/
def addModifiedPage (txnId pageId : UInt64) : TransactionManager α :=
  let txn := (tm.transactionTable txnId).getD Transaction.default
  tm.setTxn txnId { txn with modifiedPages := txn.modifiedPages ++ [pageId] }

/-- A call of the transaction manager, or one of the buffer manager by whoever uses both. -/
inductive Call (α : Type*)
  | startTxn
  | commitTxn (txnId : UInt64)
  | abortTxn (txnId : UInt64)
  | addModifiedPage (txnId pageId : UInt64)
  | reset
  | direct (call : BufferManager.PublicCall α)

/-- One call. -/
def step : Call α → Option (TransactionManager α)
  | .startTxn => some tm.startTxn.1
  | .commitTxn txnId => tm.commitTxn txnId
  | .abortTxn txnId => tm.abortTxn txnId
  | .addModifiedPage txnId pageId => some (tm.addModifiedPage txnId pageId)
  | .reset => some tm.reset
  | .direct call => some { tm with bm := tm.bm.call call }

/-- The transaction is started and has neither committed nor aborted. -/
def Running (txnId : UInt64) : Prop := ∃ txn, tm.transactionTable txnId = some txn ∧ txn.started = true

/-- What a call is for the buffer manager. -/
def calls : Call α → List (BufferManager.PublicCall α)
  | .commitTxn txnId =>
    if (tm.transactionTable txnId).any Transaction.started then
      [.operation (.transactionComplete txnId)]
    else []
  | .abortTxn txnId =>
    if (tm.transactionTable txnId).any Transaction.started then
      [.operation (.transactionAbort txnId)]
    else []
  | .reset => [.operation .discardAllPages]
  | .direct call => [call]
  | .startTxn | .addModifiedPage _ _ => []

/-- What calls are for the buffer manager, one after the other. -/
def allCalls : TransactionManager α → List (Call α) → List (BufferManager.PublicCall α)
  | _, [] => []
  | tm, call :: rest =>
    match tm.step call with
    | some tm' => tm.calls call ++ allCalls tm' rest
    | none => []

end TransactionManager

/-! ## Commits and aborts are those of the buffer manager -/

namespace BufferManager

variable {α : Type*} {bm : BufferManager α} {t p : UInt64}

/-- Discarding looks at no locks. -/
theorem discardPages_relock (bm : BufferManager α) (lockManager : LockManager) (t : UInt64) :
    ({ bm with lockManager } : BufferManager α).discardPages t =
      { bm.discardPages t with lockManager } := by
  have one : ∀ (bm : BufferManager α) (p : UInt64),
      ({ bm with lockManager } : BufferManager α).discardPage p =
        { bm.discardPage p with lockManager } := by
    intro bm p
    unfold BufferManager.discardPage
    cases bm.pageTable p <;> rfl
  have all : ∀ (pages : List UInt64) (bm : BufferManager α),
      pages.foldl BufferManager.discardPage { bm with lockManager } =
        { pages.foldl BufferManager.discardPage bm with lockManager } := by
    intro pages
    induction pages with
    | nil => exact fun _ => rfl
    | cons p pages ih =>
      intro bm
      rw [List.foldl_cons, List.foldl_cons, one, ih]
  rw [BufferManager.discardPages, BufferManager.discardPages, all]
  rfl

theorem lockManager_discardPages (bm : BufferManager α) (t : UInt64) :
    (bm.discardPages t).lockManager = bm.lockManager := by
  have relocked := congrArg BufferManager.lockManager (discardPages_relock bm bm.lockManager t)
  exact relocked

variable [Zero α]

/-- Behind a flush another one does nothing. -/
theorem flushPages_flushPages (bm : BufferManager α) (t : UInt64) :
    (bm.flushPages t).flushPages t = bm.flushPages t := by
  have flushes := flushPages_flushes bm t
  have clean : ∀ p ∈ SetMap.get bm.txnPages t, (bm.flushPages t).flushPage p = bm.flushPages t := by
    intro p tracked
    unfold BufferManager.flushPage
    rw [flushes.pageTable]
    cases isMapped : bm.pageTable p with
    | none => rfl
    | some f =>
      have isClean : ((bm.flushPages t).pool f).dirty = false := foldl_flushPage_clean tracked bm isMapped
      dsimp only
      rw [BufferManager.flushFrame, isClean, if_neg Bool.false_ne_true]
  have stays : ∀ pages : List UInt64, (∀ p ∈ pages, p ∈ SetMap.get bm.txnPages t) →
      pages.foldl BufferManager.flushPage (bm.flushPages t) = bm.flushPages t := by
    intro pages
    induction pages with
    | nil => exact fun _ => rfl
    | cons p pages ih =>
      intro tracked
      rw [List.foldl_cons, clean p (tracked p List.mem_cons_self)]
      exact ih fun q member => tracked q (List.mem_cons_of_mem p member)
  rw [BufferManager.flushPages, flushes.txnPages]
  exact stays _ fun _ => id

theorem flushed_complete (bm : BufferManager α) (t : UInt64) :
    (bm.flushPages t).transactionComplete t = bm.transactionComplete t := by
  rw [BufferManager.transactionComplete, flushPages_flushPages, BufferManager.transactionComplete]

/-- Whether the locks are released before or behind the pages' discard. -/
theorem discarded_complete (bm : BufferManager α) (t : UInt64) :
    (bm.discardPages t).transactionComplete t = bm.transactionAbort t := by
  have untracked : SetMap.get (bm.discardPages t).txnPages t = [] := SetMap.get_erase_self _ t
  have nothing : (bm.discardPages t).flushPages t = bm.discardPages t := by
    rw [BufferManager.flushPages, untracked, List.foldl_nil]
  have same := lockManager_discardPages bm t
  have swaps : (bm.releaseAllLocks t).discardPages t = (bm.discardPages t).releaseAllLocks t := by
    rw [BufferManager.releaseAllLocks, BufferManager.releaseAllLocks, same]
    exact discardPages_relock bm _ t
  rw [BufferManager.transactionComplete, nothing, BufferManager.transactionAbort, swaps]

end BufferManager

namespace TransactionManager

variable {α : Type*} [Zero α] {tm tm' : TransactionManager α} {t u p : UInt64} {call : Call α}

omit [Zero α] in
@[simp] theorem setTxn_self (tm : TransactionManager α) (t : UInt64) (txn : Transaction) :
    (tm.setTxn t txn).transactionTable t = some txn := Function.update_self _ _ _

omit [Zero α] in
theorem setTxn_of_ne {txn : Transaction} (different : u ≠ t) :
    (tm.setTxn t txn).transactionTable u = tm.transactionTable u :=
  Function.update_of_ne different _ _

/-- How `commit_txn` and `abort_txn` return: they end the transaction, or leave everything as it is. -/
inductive Ends (tm : TransactionManager α) (t : UInt64) (bm : BufferManager α) :
    TransactionManager α → Prop
  | ended (txn : Transaction) (present : tm.transactionTable t = some txn) (started : txn.started = true) :
      Ends tm t bm ({ tm with bm }.setTxn t { txn with started := false })
  | unchanged (txn : Transaction) (present : tm.transactionTable t = some txn)
      (notStarted : txn.started = false) :
      Ends tm t bm tm

theorem commitTxn_ends (ran : tm.commitTxn t = some tm') :
    tm.Ends t (tm.bm.transactionComplete t) tm' := by
  unfold TransactionManager.commitTxn at ran
  cases present : tm.transactionTable t with
  | none =>
    rw [present] at ran
    cases ran
  | some txn =>
    rw [present, BufferManager.flushed_complete] at ran
    dsimp only at ran
    split at ran
    · rename_i started
      cases ran
      exact .ended txn present started
    · rename_i notStarted
      cases ran
      exact .unchanged txn present (Bool.eq_false_iff.mpr notStarted)

theorem abortTxn_ends (ran : tm.abortTxn t = some tm') : tm.Ends t (tm.bm.transactionAbort t) tm' := by
  unfold TransactionManager.abortTxn at ran
  cases present : tm.transactionTable t with
  | none =>
    rw [present] at ran
    cases ran
  | some txn =>
    rw [present, BufferManager.discarded_complete] at ran
    dsimp only at ran
    split at ran
    · rename_i started
      cases ran
      exact .ended txn present started
    · rename_i notStarted
      cases ran
      exact .unchanged txn present (Bool.eq_false_iff.mpr notStarted)

theorem Ends.bm {bm : BufferManager α} {operation : BufferManager.PublicCall α}
    (ends : tm.Ends t bm tm') (does : tm.bm.call operation = bm) :
    tm'.bm = tm.bm.callAll
      (if (tm.transactionTable t).any Transaction.started then [operation] else []) := by
  cases ends with
  | ended txn present started =>
    rw [present, Option.any_some, started, if_pos rfl]
    exact does.symm
  | unchanged txn present notStarted =>
    rw [present, Option.any_some, notStarted, if_neg Bool.false_ne_true]
    rfl

theorem step_bm (stepped : tm.step call = some tm') : tm'.bm = tm.bm.callAll (tm.calls call) := by
  cases call with
  | startTxn | addModifiedPage =>
    cases stepped
    rfl
  | commitTxn t => exact (commitTxn_ends stepped).bm rfl
  | abortTxn t => exact (abortTxn_ends stepped).bm rfl
  | reset | direct =>
    cases stepped
    rfl

/-- Whatever is called, the transaction manager does to the buffer manager what these calls do: a commit
that ends a transaction is its `transaction_complete`, and an abort its `transaction_abort`. -/
theorem run_bm {calls : List (Call α)} (ran : Machine.run step tm calls = some tm') :
    tm'.bm = tm.bm.callAll (allCalls tm calls) := by
  induction calls generalizing tm with
  | nil =>
    cases ran
    rfl
  | cons call calls ih =>
    obtain ⟨mid, stepped, rest⟩ := Machine.run_cons ran
    rw [ih rest, step_bm stepped, allCalls, stepped, BufferManager.callAll, BufferManager.callAll,
      BufferManager.callAll, List.foldl_append]

/-- Two frames of two bytes, over a file of one page. -/
def twoFrames : TransactionManager UInt8 := .new 2 2 fun _ => [7, 8]

/-- Transaction 1 commits, and transaction 2 aborts. -/
def ends : List (Call UInt8) := [.startTxn, .direct (.operation (.fixPage 1 0 .exclusive)), .commitTxn 1,
  .commitTxn 1, .startTxn, .abortTxn 2]

theorem run_bm_ends : ∃ tm, Machine.run step twoFrames ends = some tm ∧
    tm.bm = twoFrames.bm.callAll [.operation (.fixPage 1 0 .exclusive),
      .operation (.transactionComplete 1), .operation (.transactionAbort 2)] := by
  obtain ⟨tm, ran⟩ := Option.isSome_iff_exists.mp
    (show (Machine.run step twoFrames ends).isSome by decide +kernel)
  have translated : allCalls twoFrames ends = [.operation (.fixPage 1 0 .exclusive),
      .operation (.transactionComplete 1), .operation (.transactionAbort 2)] := rfl
  exact ⟨tm, ran, translated ▸ run_bm ran⟩

end TransactionManager

/-! ## What ended transactions leave behind -/

namespace BufferManager

variable {α : Type*} {bm bm' : BufferManager α} {t u p : UInt64} {mode : LockMode}

/-- The transaction has no lock and no page in `txn_pages_`. -/
def HoldsNothing (bm : BufferManager α) (t : UInt64) : Prop :=
  (∀ p, Absent (bm.lockManager.granted p) t) ∧ SetMap.get bm.txnPages t = []

/-- The pool is well formed, and the two tables of locks agree. -/
structure Books (bm : BufferManager α) : Prop where
  wf : bm.Wf
  agree : bm.lockManager.Agree

theorem HoldsNothing.congr (nothing : bm.HoldsNothing t) (lockManager : bm'.lockManager = bm.lockManager)
    (txnPages : SetMap.get bm'.txnPages t = SetMap.get bm.txnPages t) : bm'.HoldsNothing t :=
  ⟨lockManager ▸ nothing.1, txnPages.trans nothing.2⟩

theorem Books.keep (books : bm.Books) (wf : bm'.Wf) (lockManager : bm'.lockManager = bm.lockManager) :
    bm'.Books := ⟨wf, lockManager ▸ books.agree⟩

theorem get_track_of_ne (bm : BufferManager α) (different : u ≠ t) (p : UInt64) :
    SetMap.get (bm.track t p).txnPages u = SetMap.get bm.txnPages u := by
  unfold BufferManager.track
  split
  · exact SetMap.get_add_of_ne different
  · rfl

/-- `discard_pages` leaves its transaction no page, and the others theirs. -/
theorem get_discardPages (wf : bm.Wf) (t u : UInt64) :
    SetMap.get (bm.discardPages t).txnPages u = if u = t then [] else SetMap.get bm.txnPages u := by
  have discards := wf.discardAll (SetMap.get bm.txnPages t)
  split
  · rename_i same
    rw [same]
    exact SetMap.get_erase_self _ t
  · rename_i different
    rw [← discards.txnPages]
    exact SetMap.get_erase_of_ne different

/-- An end leaves its transaction nothing. -/
theorem Ends.holdsNothing (ends : Ends bm t bm') (books : bm.Books)
    (erased : SetMap.get bm'.txnPages t = []) (rest : u ≠ t → bm.HoldsNothing u) : bm'.HoldsNothing u := by
  rcases eq_or_ne u t with rfl | different
  · refine ⟨fun p => ?_, erased⟩
    rw [ends.lockManager]
    exact (books.agree.releaseAllLocks u).2 p
  · have nothing := rest different
    refine ⟨fun p => ?_, (ends.txnPages u different).trans nothing.2⟩
    rw [absent_iff, ends.others different p .shared, ← absent_iff]
    exact nothing.1 p

theorem get_fixPage_of_ne (wf : bm.Wf) (different : u ≠ t) (p : UInt64) (mode : LockMode) :
    SetMap.get (bm.fixPage t p mode).1.txnPages u = SetMap.get bm.txnPages u := by
  unfold BufferManager.fixPage
  cases isMapped : bm.pageTable p with
  | some f =>
    dsimp only
    split
    · exact get_track_of_ne _ different p
    · rfl
  | none =>
    dsimp only
    cases loads : bm.mapPage t p with
    | none => rfl
    | some loaded =>
      obtain ⟨mid, f⟩ := loaded
      have maps := wf.mapPage isMapped loads
      dsimp only
      split <;>
      · change SetMap.get mid.txnPages u = _
        rw [maps.txnPages]
        exact get_track_of_ne bm different p

theorem HoldsNothing.fixPage (nothing : bm.HoldsNothing u) (wf : bm.Wf) (different : u ≠ t)
    (p : UInt64) (mode : LockMode) : (bm.fixPage t p mode).1.HoldsNothing u := by
  refine ⟨fun q => ?_, (get_fixPage_of_ne wf different p mode).trans nothing.2⟩
  rw [absent_iff]
  intro covers
  rcases (wf.fixPage t p mode).covers_or covers with before | ⟨same, -⟩
  · exact (nothing.1 q).not_covers before
  · exact different same

variable [Zero α]

theorem Books.new (pageSize pageCount : Nat) (disk : Disk α) : (new pageSize pageCount disk).Books :=
  ⟨.new pageSize pageCount disk, .new⟩

/-- What one call keeps, and leaves a transaction that it does not fix a page for. -/
theorem Books.call (books : bm.Books) (call : PublicCall α) :
    (bm.call call).Books ∧ ∀ u, (∀ p mode, call ≠ .operation (.fixPage u p mode)) →
      bm.HoldsNothing u → (bm.call call).HoldsNothing u := by
  have flushed : ∀ {bm' : BufferManager α}, Flushes bm bm' →
      bm'.Books ∧ ∀ u, bm.HoldsNothing u → bm'.HoldsNothing u := by
    intro bm' flushes
    refine ⟨books.keep (flushes.wf books.wf) flushes.lockManager, fun u nothing => ?_⟩
    exact nothing.congr flushes.lockManager (by rw [flushes.txnPages])
  cases call with
  | discardPages t =>
    have same := lockManager_discardPages bm t
    refine ⟨books.keep (books.wf.discardPages t) same, fun u _ nothing => ?_⟩
    refine nothing.congr same ((get_discardPages books.wf t u).trans ?_)
    rw [nothing.2]
    exact ite_self []
  | operation operation =>
    cases operation with
    | fixPage t p mode =>
      have fixes := books.wf.fixPage t p mode
      refine ⟨⟨fixes.wf, ?_⟩, fun u other nothing => ?_⟩
      · change (bm.fixPage t p mode).1.lockManager.Agree
        by_cases full : (bm.fixPage t p mode).2 = .bufferFull
        · rw [(fixes.full full).1]
          exact books.agree
        · rw [(fixes.request full).1]
          exact books.agree.acquireLock t p mode
      · refine nothing.fixPage books.wf (fun same => ?_) p mode
        exact other p mode (same ▸ rfl)
    | write f offset value =>
      exact ⟨books.keep (books.wf.writeData f offset value) rfl, fun _ _ nothing => nothing.congr rfl rfl⟩
    | unfixPage f isDirty =>
      have same : (bm.unfixPage f isDirty).lockManager = bm.lockManager ∧
          (bm.unfixPage f isDirty).txnPages = bm.txnPages := by
        unfold BufferManager.unfixPage
        split <;> exact ⟨rfl, rfl⟩
      refine ⟨books.keep (books.wf.unfixPage f isDirty) same.1, fun u _ nothing => ?_⟩
      exact nothing.congr same.1 (congrArg (SetMap.get · u) same.2)
    | flushAllPages =>
      obtain ⟨kept, leaves⟩ := flushed (flushAllPages_flushes bm)
      exact ⟨kept, fun u _ => leaves u⟩
    | flushPage p =>
      obtain ⟨kept, leaves⟩ := flushed (flushPage_flushes bm p)
      exact ⟨kept, fun u _ => leaves u⟩
    | flushPages t =>
      obtain ⟨kept, leaves⟩ := flushed (flushPages_flushes bm t)
      exact ⟨kept, fun u _ => leaves u⟩
    | discardPage p =>
      have discards := books.wf.discardPage p
      refine ⟨books.keep discards.wf discards.lockManager, fun u _ nothing => ?_⟩
      exact nothing.congr discards.lockManager (congrArg (SetMap.get · u) discards.txnPages)
    | discardAllPages =>
      exact ⟨books.keep (.discardAllPages bm) rfl, fun _ _ nothing => nothing.congr rfl rfl⟩
    | transactionComplete t =>
      have ends := (books.wf.transactionComplete t).1
      refine ⟨⟨ends.wf, ?_⟩, fun u _ nothing => ?_⟩
      · change (bm.transactionComplete t).lockManager.Agree
        rw [ends.lockManager]
        exact (books.agree.releaseAllLocks t).1
      · exact ends.holdsNothing books (SetMap.get_erase_self _ t) fun _ => nothing
    | transactionAbort t =>
      have ends := (books.wf.transactionAbort t).1
      refine ⟨⟨ends.wf, ?_⟩, fun u _ nothing => ?_⟩
      · change (bm.transactionAbort t).lockManager.Agree
        rw [ends.lockManager]
        exact (books.agree.releaseAllLocks t).1
      · exact ends.holdsNothing books (SetMap.get_erase_self _ t) fun _ => nothing

end BufferManager

namespace TransactionManager

variable {α : Type*} [Zero α] {tm tm' : TransactionManager α} {t u : UInt64} {call : Call α}

/-- Only running transactions have locks or pages in `txn_pages_`. -/
def Clean (tm : TransactionManager α) : Prop := ∀ t, ¬ tm.Running t → tm.bm.HoldsNothing t

/-- Pages are fixed by running transactions. -/
def FixesRunning (tm : TransactionManager α) : Call α → Prop
  | .direct (.operation (.fixPage t _ _)) => tm.Running t
  | _ => True

/-- Nobody has a lock or a page in `txn_pages_` when the transactions are forgotten. -/
def ResetsAtRest (tm : TransactionManager α) : Call α → Prop
  | .reset => ∀ t, tm.bm.HoldsNothing t
  | _ => True

omit [Zero α] in
/-- `add_modified_page` starts nothing and ends nothing. -/
theorem running_addModifiedPage (tm : TransactionManager α) (t p u : UInt64) :
    (tm.addModifiedPage t p).Running u ↔ tm.Running u := by
  unfold Running addModifiedPage
  rcases eq_or_ne u t with rfl | different
  · rw [setTxn_self]
    cases tm.transactionTable u <;> simp [Transaction.default]
  · rw [setTxn_of_ne different]

omit [Zero α] in
theorem Clean.ends {bm : BufferManager α} (clean : tm.Clean) (books : tm.bm.Books)
    (releases : BufferManager.Ends tm.bm t bm) (erased : SetMap.get bm.txnPages t = [])
    (ends : tm.Ends t bm tm') : tm'.Clean := by
  cases ends with
  | unchanged => exact clean
  | ended txn present started =>
    intro u notRunning
    refine releases.holdsNothing books erased fun different => clean u ?_
    rintro ⟨other, there, isStarted⟩
    exact notRunning ⟨other, (setTxn_of_ne different).trans there, isStarted⟩

/-- A call that is no reset, or one at rest. -/
theorem Clean.step (clean : tm.Clean) (books : tm.bm.Books) (fixes : tm.FixesRunning call)
    (atRest : tm.ResetsAtRest call) (stepped : tm.step call = some tm') : tm'.Clean := by
  cases call with
  | startTxn =>
    cases stepped
    intro u notRunning
    refine clean u ?_
    rintro ⟨txn, there, started⟩
    apply notRunning
    rcases eq_or_ne u (tm.transactionCounter + 1) with rfl | different
    · exact ⟨_, setTxn_self _ _ _, rfl⟩
    · exact ⟨txn, (setTxn_of_ne different).trans there, started⟩
  | commitTxn t =>
    exact clean.ends books (books.wf.transactionComplete t).1 (SetMap.get_erase_self _ t)
      (commitTxn_ends stepped)
  | abortTxn t =>
    exact clean.ends books (books.wf.transactionAbort t).1 (SetMap.get_erase_self _ t)
      (abortTxn_ends stepped)
  | addModifiedPage t p =>
    cases stepped
    intro u notRunning
    exact clean u (mt (running_addModifiedPage tm t p u).mpr notRunning)
  | reset =>
    cases stepped
    exact fun u _ => (atRest u).congr rfl rfl
  | direct call =>
    cases stepped
    intro u notRunning
    refine (books.call call).2 u (fun p mode same => ?_) (clean u notRunning)
    subst same
    exact notRunning fixes

/-- A reset forgets the transactions and leaves what they hold. -/
theorem Clean.broken (running : ¬ tm.ResetsAtRest call) (stepped : tm.step call = some tm') : ¬ tm'.Clean := by
  cases call with
  | reset =>
    cases stepped
    intro clean
    refine running fun u => ?_
    have nobody : ¬ tm.reset.Running u := by
      rintro ⟨txn, impossible, -⟩
      cases impossible
    exact (clean u nobody).congr rfl rfl
  | _ => exact absurd trivial running

theorem books_step (books : tm.bm.Books) (stepped : tm.step call = some tm') : tm'.bm.Books := by
  rw [step_bm stepped]
  exact BufferManager.callAll_induction (fun _ c books => (books.call c).1) _ _ books

/-- Where pages are fixed by running transactions: no other transaction ever has a lock or a page in
`txn_pages_`, so that every transaction starts with nothing, exactly in the runs in which `reset` is
called only while nobody has any. -/
theorem always_clean_iff {pageSize pageCount : Nat} {disk : Disk α} {calls : List (Call α)}
    (fixes : Machine.Along step FixesRunning (new pageSize pageCount disk) calls)
    (ran : Machine.run step (new pageSize pageCount disk) calls = some tm) :
    Machine.Always step Clean (new pageSize pageCount disk) calls ↔
      Machine.Along step ResetsAtRest (new pageSize pageCount disk) calls := by
  refine Machine.always_iff_along_within (P := fun tm : TransactionManager α => tm.bm.Books ∧ tm.Clean)
    (fun _ _ _ fixes both atRest stepped =>
      ⟨books_step both.1 stepped, both.2.step both.1 fixes atRest stepped⟩)
    (fun _ both => both.2) (fun _ _ _ _ _ running stepped => Clean.broken running stepped)
    ⟨.new pageSize pageCount disk, fun t _ => ⟨fun p lock member => ?_, rfl⟩⟩ fixes ran
  cases member

/-- Transaction 1 starts, fixes page 0 exclusively, and is forgotten. -/
def forgets : List (Call UInt8) := [.startTxn, .direct (.operation (.fixPage 1 0 .exclusive)), .reset]

/-- The next transaction with id 1 has the lock of the one before. -/
theorem always_clean_iff_forgets : ¬ Machine.Always step Clean twoFrames forgets := by
  have locked : (twoFrames.startTxn.1.bm.fixPage 1 0 .exclusive).1.lockManager.granted 0 =
      [⟨1, .exclusive⟩] := by decide +kernel
  have fixes : Machine.Along step FixesRunning twoFrames forgets := by
    refine ⟨trivial, fun mid started => ⟨?_, fun _ _ => ⟨trivial, fun _ _ => trivial⟩⟩⟩
    cases started
    exact ⟨_, setTxn_self _ _ _, rfl⟩
  intro clean
  have along := (always_clean_iff fixes rfl).mp clean
  have nothing := (along.2 _ rfl).2 _ rfl
  have absent : Absent _ 1 := (nothing.1 1).1 0
  exact absent ⟨1, .exclusive⟩ (locked ▸ List.mem_singleton_self _) rfl

end TransactionManager

end BuzzDB.Locking
