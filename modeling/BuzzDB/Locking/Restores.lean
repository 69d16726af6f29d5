import BuzzDB.Lib.Machine
import BuzzDB.Locking.Operations

/-!
# Pages after an abort

`transaction_abort` puts the frames of a transaction behind the free ones, with their
bytes.  The next `fix_page` of a page that the transaction has had exclusively finds no
lock on it, loads it into the first free frame, and reads it as it is on disk exactly when
that frame has only zeros where the segment file has ended.
-/

namespace BuzzDB.Locking.BufferManager

variable {α : Type*} [Zero α] {bm bm' : BufferManager α} {t u p q : UInt64} {f : Nat}
  {mode : LockMode}

/-- An operation always runs to its end. -/
def step (bm : BufferManager α) (operation : Operation α) : Option (BufferManager α) :=
  some (bm.operate operation)

/-- The operation does not get the page. -/
def Unfixed (p : UInt64) (bm : BufferManager α) : Operation α → Prop
  | .fixPage txnId pageId mode => pageId = p → ∀ f, (bm.fixPage txnId pageId mode).2 ≠ .frame f
  | _ => True

/-- The first free frame has zeros where the segment file ends inside or before the page. -/
def NextBlank (bm : BufferManager α) (p : UInt64) : Prop :=
  ∀ f ∈ bm.freeFrames.head?, ∀ i < bm.pageSize,
    (bm.disk (getSegmentId p)).length ≤ Disk.start bm.pageSize p + i →
      (bm.pool f).data.getD i 0 = 0

instance [DecidableEq α] (bm : BufferManager α) (p : UInt64) : Decidable (bm.NextBlank p) :=
  inferInstanceAs (Decidable (∀ f ∈ bm.freeFrames.head?, _))

/-! ## Loading -/

omit [Zero α] in
theorem mapPage_first (loads : bm.mapPage t p = some (bm', f)) : bm.freeFrames.head? = some f := by
  unfold BufferManager.mapPage at loads
  split at loads
  · cases loads
  · rename_i free
    rw [Option.some.injEq, Prod.mk.injEq] at loads
    rw [free, List.head?_cons, loads.2]

omit [Zero α] in
/-- Loading a page into the first free frame. -/
theorem Wf.fixPage_loads (wf : bm.Wf) (missing : bm.pageTable p = none)
    (fixed : bm.fixPage t p mode = (bm', .frame f)) :
    bm.freeFrames.head? = some f ∧
      (bm'.pool f).data = bm.disk.readPage bm.pageSize p (bm.pool f).data ∧
      bm'.disk = bm.disk ∧ bm'.pageSize = bm.pageSize := by
  unfold BufferManager.fixPage at fixed
  rw [missing] at fixed
  cases loads : bm.mapPage t p with
  | none =>
    rw [loads] at fixed
    cases fixed
  | some loaded =>
    obtain ⟨mid, g⟩ := loaded
    have maps := wf.mapPage missing loads
    rw [loads] at fixed
    dsimp only at fixed
    split at fixed
    · cases fixed
      refine ⟨mapPage_first loads, ?_, maps.disk, maps.pageSize⟩
      rw [BufferManager.readFrame, pool_put_self]
      dsimp only
      rw [maps.disk, maps.pageSize, maps.frame]
    · cases fixed

/-! ## The page of an aborted transaction -/

/-- The page is not in the pool and nobody has locked it. -/
structure Away (p : UInt64) (bm : BufferManager α) : Prop where
  tables : bm.Tables
  missing : bm.pageTable p = none
  unlocked : ∀ t, ¬ Covers (bm.lockManager.granted p) t .shared

omit [Zero α] in
theorem Away.free (away : bm.Away p) : bm.lockManager.granted p = [] := by
  refine List.eq_nil_iff_forall_not_mem.mpr fun lock member => ?_
  exact away.unlocked lock.txnId ⟨lock, member, rfl, fun impossible => by cases impossible⟩

omit [Zero α] in
/-- A page that a transaction had exclusively is away when it has aborted. -/
theorem Tables.away (tables : bm.Tables) (exclusive : Covers (bm.lockManager.granted p) t .exclusive)
    (valid : t ≠ invalidTxnId) : (bm.transactionAbort t).Away p := by
  obtain ⟨ends, table⟩ := tables.wf.transactionAbort t
  refine ⟨tables.ends ends, ?_, fun u covers => ?_⟩
  · rw [table, if_pos (tables.tracked t p exclusive.shared valid)]
  · have different : u ≠ t := fun same => ends.gone tables p .shared (same ▸ covers)
    have before := (ends.others different p .shared).mp covers
    exact different ((tables.compatible p).excludes exclusive before)

omit [Zero α] in
/-- An operation that leaves the pages and the locks as they are. -/
theorem Away.keep (away : bm.Away p) (tables : bm'.Tables)
    (missing : bm.pageTable p = none → bm'.pageTable p = none)
    (lockManager : bm'.lockManager = bm.lockManager) : bm'.Away p where
  tables := tables
  missing := missing away.missing
  unlocked := lockManager ▸ away.unlocked

omit [Zero α] in
theorem Away.ends (away : bm.Away p) (ends : Ends bm t bm') : bm'.Away p := by
  refine ⟨away.tables.ends ends, Option.eq_none_iff_forall_ne_some.mpr fun f there => ?_,
    fun u covers => ?_⟩
  · have before := ends.mapped p f there
    rw [away.missing] at before
    cases before
  · have different : u ≠ t := fun same => ends.gone away.tables p .shared (same ▸ covers)
    exact away.unlocked u ((ends.others different p .shared).mp covers)

omit [Zero α] in
/-- A call for another page, or one that does not get this one. -/
theorem Away.fixPage (away : bm.Away p) (unfixed : bm.Unfixed p (.fixPage t q mode)) :
    (bm.fixPage t q mode).1.Away p := by
  have fixes := away.tables.wf.fixPage t q mode
  rcases eq_or_ne p q with rfl | elsewhere
  · have full : (bm.fixPage t p mode).2 = .bufferFull := by
      by_contra notFull
      -- nobody has locked the page, so the request is granted
      have granted : (bm.lockManager.acquireLock t p mode).2 = true :=
        LockManager.acquireLock_free away.tables.agree away.free
      have notAbort := (fixes.request notFull).2.mp granted
      cases isResult : (bm.fixPage t p mode).2 with
      | frame f => exact unfixed rfl f isResult
      | bufferFull => exact notFull isResult
      | abort => exact notAbort isResult
    rw [(fixes.full full).1]
    exact away
  · refine ⟨away.tables.fixes fixes, fixes.missing p elsewhere away.missing, fun u covers => ?_⟩
    rcases fixes.covers_or covers with before | ⟨_, here, _⟩
    · exact away.unlocked u before
    · exact elsewhere here

theorem Away.operate {operation : Operation α} (away : bm.Away p)
    (unfixed : bm.Unfixed p operation) : (bm.operate operation).Away p := by
  have tables := away.tables.operate operation
  have flushed : ∀ bm', bm'.Tables → Flushes bm bm' → bm'.Away p := fun bm' tables flushes =>
    away.keep tables (fun missing => flushes.pageTable ▸ missing) flushes.lockManager
  cases operation with
  | fixPage t q mode => exact away.fixPage unfixed
  | write f offset value => exact away.keep tables id rfl
  | unfixPage f isDirty =>
    refine away.keep tables ?_ ?_ <;> rw [BufferManager.operate, BufferManager.unfixPage] <;> split
    · exact id
    · exact id
    · rfl
    · rfl
  | flushAllPages => exact flushed _ tables (flushAllPages_flushes bm)
  | flushPage q => exact flushed _ tables (flushPage_flushes bm q)
  | discardPage q =>
    have discards := away.tables.wf.discardPage q
    refine away.keep tables (fun missing => ?_) discards.lockManager
    by_cases listed : p ∈ [q]
    · exact discards.gone p listed
    · exact (discards.kept p listed).trans missing
  | discardAllPages => exact away.keep tables (fun _ => rfl) rfl
  | flushPages t => exact flushed _ tables (flushPages_flushes bm t)
  | transactionComplete t => exact away.ends (away.tables.wf.transactionComplete t).1
  | transactionAbort t => exact away.ends (away.tables.wf.transactionAbort t).1

end BuzzDB.Locking.BufferManager
