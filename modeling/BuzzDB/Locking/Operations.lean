import BuzzDB.Locking.BufferManager
import BuzzDB.Locking.LockTables

/-!
# The operations of the buffer manager

What each public operation guarantees, and what holds between operations whatever their
order is: the pool is well formed, the tables of locks agree, and a page that a transaction
has locked is in its `txn_pages_`.  `discard_pages` is taken as a part of
`transaction_abort` only.
-/

namespace BuzzDB.Locking.BufferManager

variable {α : Type*} {bm bm' : BufferManager α} {t u p q : UInt64} {f g : Nat} {mode : LockMode}
  {result : Fixed}

/-! ## `fix_page` -/

/-- What `fix_page` guarantees, however it ends. -/
structure Fixes (bm : BufferManager α) (t p : UInt64) (mode : LockMode) (bm' : BufferManager α)
    (result : Fixed) : Prop where
  wf : bm'.Wf
  full : result = .bufferFull → bm' = bm ∧ bm.pageTable p = none
  request : result ≠ .bufferFull → bm'.lockManager = (bm.lockManager.acquireLock t p mode).1 ∧
    ((bm.lockManager.acquireLock t p mode).2 = true ↔ result ≠ .abort)
  frame : ∀ f, result = .frame f → bm'.pageTable p = some f ∧
    (t ≠ invalidTxnId → p ∈ SetMap.get bm'.txnPages t)
  mapped : ∀ q f, bm.pageTable q = some f → bm'.pageTable q = some f
  missing : ∀ q, q ≠ p → bm.pageTable q = none → bm'.pageTable q = none
  tracked : ∀ u q, q ∈ SetMap.get bm.txnPages u → q ∈ SetMap.get bm'.txnPages u
  dirty : ∀ g, (bm'.pool g).dirty = (bm.pool g).dirty
  pageId : ∀ g, (bm'.pool g).pageId = (bm.pool g).pageId ∨ (bm'.pool g).pageId = p

/-- A page in the pool. -/
theorem Wf.fixPage_mapped (wf : bm.Wf) (isMapped : bm.pageTable p = some f) :
    Fixes bm t p mode (bm.fixPage t p mode).1 (bm.fixPage t p mode).2 := by
  unfold BufferManager.fixPage
  rw [isMapped]
  dsimp only
  generalize isResult : bm.lockManager.acquireLock t p mode = acquires
  obtain ⟨lockManager, acquired⟩ := acquires
  cases acquired with
  | true =>
    simp only [if_true]
    rw [track_eq]
    exact {
      wf := wf.congr rfl rfl rfl rfl
      full := fun impossible => by cases impossible
      request := fun _ => by simp [isResult]
      frame := fun g same => by
        cases same
        exact ⟨isMapped, fun valid => mem_track_self _ valid⟩
      mapped := fun _ _ there => there
      missing := fun _ _ nowhere => nowhere
      tracked := fun u q member => mem_track _ t p member
      dirty := fun _ => rfl
      pageId := fun _ => Or.inl rfl }
  | false =>
    exact {
      wf := wf.congr rfl rfl rfl rfl
      full := fun impossible => by cases impossible
      request := fun _ => by simp [isResult]
      frame := fun g impossible => by cases impossible
      mapped := fun _ _ there => there
      missing := fun _ _ nowhere => nowhere
      tracked := fun _ _ member => member
      dirty := fun _ => rfl
      pageId := fun _ => Or.inl rfl }

/-- What loading a page does, before and behind the request for its lock. -/
theorem Maps.fixes (maps : Maps bm t p bm' f) (isMissing : bm.pageTable p = none)
    {mid : BufferManager α} (wf : mid.Wf)
    (request : mid.lockManager = (bm.lockManager.acquireLock t p mode).1 ∧
      ((bm.lockManager.acquireLock t p mode).2 = true ↔ result ≠ .abort))
    (ends : result = .frame f ∨ result = .abort)
    (same : mid.pageTable = bm'.pageTable ∧ mid.txnPages = bm'.txnPages)
    (frames : ∀ g, (mid.pool g).dirty = (bm'.pool g).dirty ∧
      (mid.pool g).pageId = (bm'.pool g).pageId) :
    Fixes bm t p mode mid result := by
  obtain ⟨table, pages⟩ := same
  have lookup : ∀ q, q ≠ p → mid.pageTable q = bm.pageTable q := fun q different => by
    rw [table, maps.pageTable, Function.update_of_ne different]
  exact {
    wf
    full := fun impossible => by rcases ends with rfl | rfl <;> cases impossible
    request := fun _ => request
    frame := fun g isFrame => by
      rcases ends with rfl | rfl
      · cases isFrame
        refine ⟨by rw [table, maps.pageTable, Function.update_self], fun valid => ?_⟩
        rw [pages, maps.txnPages]
        exact mem_track_self bm valid
      · cases isFrame
    mapped := fun q g there => by
      rw [lookup q fun same => by rw [same, isMissing] at there; cases there]
      exact there
    missing := fun q different nowhere => (lookup q different).trans nowhere
    tracked := fun u q member => by
      rw [pages, maps.txnPages]
      exact mem_track bm t p member
    dirty := fun g => by
      rw [(frames g).1]
      rcases eq_or_ne g f with rfl | different
      · rw [maps.frame]
      · rw [maps.others g different]
    pageId := fun g => by
      rw [(frames g).2]
      rcases eq_or_ne g f with rfl | different
      · exact Or.inr (by rw [maps.frame])
      · exact Or.inl (by rw [maps.others g different]) }

theorem Wf.fixPage (wf : bm.Wf) (t p : UInt64) (mode : LockMode) :
    Fixes bm t p mode (bm.fixPage t p mode).1 (bm.fixPage t p mode).2 := by
  cases isMapped : bm.pageTable p with
  | some f => exact wf.fixPage_mapped isMapped
  | none =>
    unfold BufferManager.fixPage
    rw [isMapped]
    dsimp only
    cases loads : bm.mapPage t p with
    | none =>
      exact {
        wf
        full := fun _ => ⟨rfl, isMapped⟩
        request := fun impossible => absurd rfl impossible
        frame := fun g impossible => by cases impossible
        mapped := fun _ _ there => there
        missing := fun _ _ nowhere => nowhere
        tracked := fun _ _ member => member
        dirty := fun _ => rfl
        pageId := fun _ => Or.inl rfl }
    | some loaded =>
      obtain ⟨mid, f⟩ := loaded
      have maps := wf.mapPage isMapped loads
      dsimp only
      rw [maps.lockManager]
      generalize isResult : bm.lockManager.acquireLock t p mode = acquires
      obtain ⟨lockManager, acquired⟩ := acquires
      have wf' : ({ mid with lockManager } : BufferManager α).Wf := maps.wf.congr rfl rfl rfl rfl
      cases acquired with
      | true =>
        simp only [if_true]
        refine maps.fixes isMapped (wf'.put rfl ?_) ?_ (Or.inl rfl) ⟨rfl, rfl⟩ fun g => ?_
        · exact (Disk.length_readPage _).trans (maps.wf.length f)
        · rw [isResult]
          exact ⟨rfl, by simp⟩
        · unfold BufferManager.readFrame
          rcases eq_or_ne g f with rfl | different
          · rw [pool_put_self]
            exact ⟨rfl, rfl⟩
          · rw [pool_put_of_ne different]
            exact ⟨rfl, rfl⟩
      | false =>
        refine maps.fixes isMapped wf' ?_ (Or.inr rfl) ⟨rfl, rfl⟩ fun g => ⟨rfl, rfl⟩
        rw [isResult]
        exact ⟨rfl, by simp⟩
/-! ## Between operations -/

/-- The pool, the tables of locks and `txn_pages_`. -/
structure Tables (bm : BufferManager α) : Prop where
  wf : bm.Wf
  compatible : ∀ p, Compatible (bm.lockManager.granted p)
  agree : bm.lockManager.Agree
  tracked : ∀ t p, Covers (bm.lockManager.granted p) t .shared → t ≠ invalidTxnId →
    p ∈ SetMap.get bm.txnPages t

/-- An operation that leaves the locks and `txn_pages_` as they are. -/
theorem Tables.keep (tables : bm.Tables) (wf : bm'.Wf) (lockManager : bm'.lockManager = bm.lockManager)
    (txnPages : bm'.txnPages = bm.txnPages) : bm'.Tables where
  wf := wf
  compatible := lockManager ▸ tables.compatible
  agree := lockManager ▸ tables.agree
  tracked := lockManager ▸ txnPages ▸ tables.tracked

theorem Tables.flushes (tables : bm.Tables) (flushes : Flushes bm bm') : bm'.Tables :=
  tables.keep (flushes.wf tables.wf) flushes.lockManager flushes.txnPages

/-- What a request leaves of the locks that it did not get. -/
theorem Fixes.covers_or (fixes : Fixes bm t p mode bm' result)
    (covers : Covers (bm'.lockManager.granted q) u .shared) :
    Covers (bm.lockManager.granted q) u .shared ∨ u = t ∧ q = p ∧ ∃ f, result = .frame f := by
  by_cases full : result = .bufferFull
  · rw [(fixes.full full).1] at covers
    exact Or.inl covers
  obtain ⟨lockManager, acquired⟩ := fixes.request full
  have spec := acquireLock_spec bm.lockManager t p mode
  rw [lockManager] at covers
  rcases eq_or_ne q p with rfl | elsewhere
  · cases isResult : result with
    | bufferFull => exact absurd isResult full
    | abort =>
      have refused := Bool.eq_false_iff.mpr fun acquires => acquired.mp acquires isResult
      rw [spec.refused refused] at covers
      exact Or.inl covers
    | frame f =>
      rcases eq_or_ne u t with rfl | different
      · exact Or.inr ⟨rfl, rfl, f, rfl⟩
      · exact Or.inl ((spec.covers_iff different q .shared).mp covers)
  · rw [spec.others q elsewhere] at covers
    exact Or.inl covers

theorem Tables.fixes (tables : bm.Tables) (fixes : Fixes bm t p mode bm' result) : bm'.Tables := by
  have spec := acquireLock_spec bm.lockManager t p mode
  refine ⟨fixes.wf, fun q => ?_, ?_, fun u q covers valid => ?_⟩
  · by_cases full : result = .bufferFull
    · exact (fixes.full full).1 ▸ tables.compatible q
    · exact (fixes.request full).1 ▸ spec.compatible tables.compatible q
  · by_cases full : result = .bufferFull
    · exact (fixes.full full).1 ▸ tables.agree
    · exact (fixes.request full).1 ▸ tables.agree.acquireLock t p mode
  · rcases fixes.covers_or covers with before | ⟨rfl, rfl, f, isFrame⟩
    · exact fixes.tracked u q (tables.tracked u q before valid)
    · exact (fixes.frame f isFrame).2 valid

/-- What an operation that ends a transaction does. -/
structure Ends (bm : BufferManager α) (t : UInt64) (bm' : BufferManager α) : Prop where
  wf : bm'.Wf
  lockManager : bm'.lockManager = bm.lockManager.releaseAllLocks t
  txnPages : ∀ u, u ≠ t → SetMap.get bm'.txnPages u = SetMap.get bm.txnPages u
  mapped : ∀ p f, bm'.pageTable p = some f → bm.pageTable p = some f

theorem Ends.others (ends : Ends bm t bm') (different : u ≠ t) (q : UInt64) (mode : LockMode) :
    Covers (bm'.lockManager.granted q) u mode ↔ Covers (bm.lockManager.granted q) u mode := by
  rw [ends.lockManager]
  exact (releaseAllLocks_spec bm.lockManager t).others u different q mode

theorem Ends.gone (ends : Ends bm t bm') (tables : bm.Tables) (q : UInt64) (mode : LockMode) :
    ¬ Covers (bm'.lockManager.granted q) t mode := by
  rw [ends.lockManager]
  exact ((tables.agree.releaseAllLocks t).2 q).not_covers

theorem Tables.ends (tables : bm.Tables) (ends : Ends bm t bm') : bm'.Tables := by
  refine ⟨ends.wf, fun q => ?_, ?_, fun u q covers valid => ?_⟩
  · rw [ends.lockManager]
    exact (releaseAllLocks_spec bm.lockManager t).compatible tables.compatible q
  · rw [ends.lockManager]
    exact (tables.agree.releaseAllLocks t).1
  · have different : u ≠ t := fun same => ends.gone tables q .shared (same ▸ covers)
    rw [ends.txnPages u different]
    exact tables.tracked u q ((ends.others different q .shared).mp covers) valid

theorem Wf.transactionAbort (wf : bm.Wf) (t : UInt64) :
    Ends bm t (bm.transactionAbort t) ∧
      ∀ p, (bm.transactionAbort t).pageTable p =
        if p ∈ SetMap.get bm.txnPages t then none else bm.pageTable p := by
  have released : (bm.releaseAllLocks t).Wf := wf.congr rfl rfl rfl rfl
  have discards := released.discardAll (SetMap.get bm.txnPages t)
  have table : ∀ p, (bm.transactionAbort t).pageTable p =
      if p ∈ SetMap.get bm.txnPages t then none else bm.pageTable p := by
    intro p
    split
    · rename_i tracked
      exact discards.gone p tracked
    · rename_i untracked
      exact discards.kept p untracked
  refine ⟨⟨discards.wf.congr rfl rfl rfl rfl, discards.lockManager, fun u different => ?_,
    fun p f there => ?_⟩, table⟩
  · change SetMap.get (AList.erase t (AList.erase t ((SetMap.get bm.txnPages t).foldl
      BufferManager.discardPage (bm.releaseAllLocks t)).txnPages)) u = _
    rw [SetMap.get_erase_of_ne different, SetMap.get_erase_of_ne different, discards.txnPages]
    rfl
  · rw [table] at there
    split at there
    · cases there
    · exact there

variable [Zero α]

theorem Tables.new (pageSize pageCount : Nat) (disk : Disk α) :
    (new pageSize pageCount disk).Tables where
  wf := Wf.new pageSize pageCount disk
  compatible _ := Compatible.nil
  agree := LockManager.Agree.new
  tracked t p covers := by
    obtain ⟨lock, impossible, _⟩ := covers
    cases impossible

theorem Wf.transactionComplete (wf : bm.Wf) (t : UInt64) :
    Ends bm t (bm.transactionComplete t) ∧
      (bm.transactionComplete t).pageTable = bm.pageTable := by
  have flushes := flushPages_flushes bm t
  refine ⟨⟨(flushes.wf wf).congr rfl rfl rfl rfl, ?_, fun u different => ?_, fun p f there => ?_⟩,
    flushes.pageTable⟩
  · exact congrArg (LockManager.releaseAllLocks · t) flushes.lockManager
  · change SetMap.get (AList.erase t (bm.flushPages t).txnPages) u = _
    rw [SetMap.get_erase_of_ne different, flushes.txnPages]
  · exact flushes.pageTable ▸ there

/-! ## All operations -/

/-- `discard_all_pages`. -/
def discardAllPages (bm : BufferManager α) : BufferManager α where
  capacity := bm.capacity
  pageSize := bm.pageSize
  pool := fun _ => ⟨invalidPageId, List.replicate bm.pageSize 0, false⟩
  freeFrames := List.range bm.capacity
  pageTable := fun _ => none
  txnPages := bm.txnPages
  lockManager := bm.lockManager
  disk := bm.disk

/-- The public operations, and the writes into the frames that callers have. -/
inductive Operation (α : Type*)
  | fixPage (txnId pageId : UInt64) (mode : LockMode)
  | write (frameId offset : Nat) (value : α)
  | unfixPage (frameId : Nat) (isDirty : Bool)
  | flushAllPages
  | flushPage (pageId : UInt64)
  | discardPage (pageId : UInt64)
  | discardAllPages
  | flushPages (txnId : UInt64)
  | transactionComplete (txnId : UInt64)
  | transactionAbort (txnId : UInt64)

/-- One operation. -/
def operate (bm : BufferManager α) : Operation α → BufferManager α
  | .fixPage txnId pageId mode => (bm.fixPage txnId pageId mode).1
  | .write frameId offset value => bm.writeData frameId offset value
  | .unfixPage frameId isDirty => bm.unfixPage frameId isDirty
  | .flushAllPages => bm.flushAllPages
  | .flushPage pageId => bm.flushPage pageId
  | .discardPage pageId => bm.discardPage pageId
  | .discardAllPages => bm.discardAllPages
  | .flushPages txnId => bm.flushPages txnId
  | .transactionComplete txnId => bm.transactionComplete txnId
  | .transactionAbort txnId => bm.transactionAbort txnId

theorem Wf.discardAllPages (bm : BufferManager α) : bm.discardAllPages.Wf where
  mapped _ _ impossible := by cases impossible
  stray _ valid := absurd rfl valid
  free _ _ _ impossible := by cases impossible
  nodup := List.nodup_range
  length _ := List.length_replicate

theorem Tables.operate (tables : bm.Tables) (operation : Operation α) :
    (bm.operate operation).Tables := by
  cases operation with
  | fixPage t p mode => exact tables.fixes (tables.wf.fixPage t p mode)
  | write f offset value => exact tables.keep (tables.wf.writeData f offset value) rfl rfl
  | unfixPage f isDirty =>
    refine tables.keep (tables.wf.unfixPage f isDirty) ?_ ?_ <;>
      rw [BufferManager.operate, BufferManager.unfixPage] <;> split <;> rfl
  | flushAllPages => exact tables.flushes (flushAllPages_flushes bm)
  | flushPage p => exact tables.flushes (flushPage_flushes bm p)
  | discardPage p =>
    have discards := tables.wf.discardPage p
    exact tables.keep discards.wf discards.lockManager discards.txnPages
  | discardAllPages => exact tables.keep (Wf.discardAllPages bm) rfl rfl
  | flushPages t => exact tables.flushes (flushPages_flushes bm t)
  | transactionComplete t => exact tables.ends (tables.wf.transactionComplete t).1
  | transactionAbort t => exact tables.ends (tables.wf.transactionAbort t).1

end BuzzDB.Locking.BufferManager
