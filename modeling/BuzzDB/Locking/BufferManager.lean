import BuzzDB.Locking.WholeCalls
import BuzzDB.Storage.Segment

/-!
# The buffer manager of the concurrency lab

`BufferManager` of lab 3: pages are locked by the transactions that fix them, and go
back to disk when a transaction completes.  A frame is free until a page is loaded into
it, and again behind `discard_page`, which keeps its bytes.  There is no eviction.

The functions of the first part are what the calls do while they hold `pool_mutex_` or
`file_use_mutex_`; the second part has the calls.  The frames are numbered by their
position in the pool.
-/

namespace BuzzDB.Locking

/-- `INVALID_TXN_ID`. -/
def invalidTxnId : UInt64 := 0xFFFFFFFFFFFFFFFF

/-- `BufferFrame`. -/
structure BufferFrame (α : Type*) where
  pageId : UInt64
  data : List α
  dirty : Bool

/-- `BufferManager`, with the segment files it opens. -/
structure BufferManager (α : Type*) where
  capacity : Nat
  pageSize : Nat
  pool : Nat → BufferFrame α
  freeFrames : List Nat
  pageTable : UInt64 → Option Nat
  txnPages : SetMap UInt64 UInt64
  lockManager : LockManager
  disk : Disk α

variable {α : Type*} [Zero α]

namespace BufferManager

/-- The constructor, over existing segment files. -/
def new (pageSize pageCount : Nat) (disk : Disk α) : BufferManager α where
  capacity := pageCount
  pageSize := pageSize
  pool := fun _ => ⟨invalidPageId, List.replicate pageSize 0, false⟩
  freeFrames := List.range pageCount
  pageTable := fun _ => none
  txnPages := ∅
  lockManager := LockManager.new
  disk := disk

variable (bm : BufferManager α)

/-! ## Critical sections -/

/-- Change a frame. -/
def put (frameId : Nat) (frame : BufferFrame α) : BufferManager α :=
  { bm with pool := Function.update bm.pool frameId frame }

/-- `read_frame`. -/
def readFrame (frameId : Nat) : BufferManager α :=
  let frame := bm.pool frameId
  bm.put frameId { frame with data := bm.disk.readPage bm.pageSize frame.pageId frame.data }

/-- `write_frame`. -/
def writeFrame (frameId : Nat) : BufferManager α :=
  let frame := bm.pool frameId
  { bm with disk := bm.disk.writePage bm.pageSize frame.pageId frame.data }

/-- Write a dirty frame back. -/
def flushFrame (frameId : Nat) : BufferManager α :=
  if (bm.pool frameId).dirty then
    (bm.writeFrame frameId).put frameId { bm.pool frameId with dirty := false }
  else bm

/-- `flush_page`. -/
def flushPage (pageId : UInt64) : BufferManager α :=
  match bm.pageTable pageId with
  | some frameId => bm.flushFrame frameId
  | none => bm

/-- `discard_page`. -/
def discardPage (pageId : UInt64) : BufferManager α :=
  match bm.pageTable pageId with
  | some frameId =>
    { bm.put frameId { bm.pool frameId with pageId := invalidPageId, dirty := false } with
      pageTable := Function.update bm.pageTable pageId none
      freeFrames := bm.freeFrames ++ [frameId] }
  | none => bm

/-- `flush_pages`. -/
def flushPages (txnId : UInt64) : BufferManager α :=
  (SetMap.get bm.txnPages txnId).foldl flushPage bm

/-- `txn_pages_.erase(txn_id)`. -/
def eraseTxn (txnId : UInt64) : BufferManager α := { bm with txnPages := bm.txnPages.erase txnId }

/-- `discard_pages`. -/
def discardPages (txnId : UInt64) : BufferManager α :=
  ((SetMap.get bm.txnPages txnId).foldl discardPage bm).eraseTxn txnId

/-- Track a page for a transaction. -/
def track (txnId pageId : UInt64) : BufferManager α :=
  if txnId ≠ invalidTxnId then { bm with txnPages := SetMap.add idLt bm.txnPages txnId pageId }
  else bm

/-- `fix_page` of a page that is not in the pool, up to its request for the lock; without a free
frame it is a `buffer_full_error`. -/
def mapPage (txnId pageId : UInt64) : Option (BufferManager α × Nat) :=
  match bm.freeFrames with
  | [] => none
  | frameId :: freeFrames =>
    some (({ bm.put frameId { bm.pool frameId with pageId } with
      freeFrames
      pageTable := Function.update bm.pageTable pageId (some frameId) } : BufferManager α).track
        txnId pageId, frameId)

/-- `unfix_page`. -/
def unfixPage (frameId : Nat) (isDirty : Bool) : BufferManager α :=
  if isDirty then bm.put frameId { bm.pool frameId with dirty := true } else bm

/-- A write into the page, `frame.get_data()[offset] = value`. -/
def writeData (frameId offset : Nat) (value : α) : BufferManager α :=
  bm.put frameId { bm.pool frameId with data := (bm.pool frameId).data.set offset value }

/-! ## Calls that nothing interrupts -/

/-- How `fix_page` ends. -/
inductive Fixed
  | frame (frameId : Nat)
  | bufferFull
  | abort
  deriving DecidableEq

/-- `fix_page`. -/
def fixPage (txnId pageId : UInt64) (mode : LockMode) : BufferManager α × Fixed :=
  match bm.pageTable pageId with
  | some frameId =>
    let (lockManager, acquired) := bm.lockManager.acquireLock txnId pageId mode
    if acquired then (({ bm with lockManager } : BufferManager α).track txnId pageId, .frame frameId)
    else ({ bm with lockManager }, .abort)
  | none =>
    match bm.mapPage txnId pageId with
    | none => (bm, .bufferFull)
    | some (mapped, frameId) =>
      let (lockManager, acquired) := mapped.lockManager.acquireLock txnId pageId mode
      if acquired then
        (({ mapped with lockManager } : BufferManager α).readFrame frameId, .frame frameId)
      else ({ mapped with lockManager }, .abort)

/-- `flush_all_pages`. -/
def flushAllPages : BufferManager α := (List.range bm.capacity).foldl flushFrame bm

/-- `release_all_locks` of the lock manager. -/
def releaseAllLocks (txnId : UInt64) : BufferManager α :=
  { bm with lockManager := bm.lockManager.releaseAllLocks txnId }

/-- `transaction_complete`. -/
def transactionComplete (txnId : UInt64) : BufferManager α :=
  ((bm.flushPages txnId).releaseAllLocks txnId).eraseTxn txnId

/-- `transaction_abort`. -/
def transactionAbort (txnId : UInt64) : BufferManager α :=
  ((bm.releaseAllLocks txnId).discardPages txnId).eraseTxn txnId

end BufferManager

/-- A frame that `fix_page` has returned. -/
structure Handle where
  txnId : UInt64
  pageId : UInt64
  mode : LockMode
  frameId : Nat
  deriving DecidableEq

/-! ## The pool -/

namespace BufferManager

variable (bm : BufferManager α)

/-- The page table and the frames agree, free frames are not in use, and every frame has the size
of a page. -/
structure Wf : Prop where
  mapped : ∀ p f, bm.pageTable p = some f → (bm.pool f).pageId = p
  stray : ∀ f, (bm.pool f).pageId ≠ invalidPageId →
    bm.pageTable (bm.pool f).pageId = some f
  free : ∀ f ∈ bm.freeFrames, ∀ p, bm.pageTable p ≠ some f
  nodup : bm.freeFrames.Nodup
  length : ∀ f, (bm.pool f).data.length = bm.pageSize

variable {bm} {bm' mid : BufferManager α} {p q t : UInt64} {f g : Nat} {frame : BufferFrame α}

theorem Wf.new (pageSize pageCount : Nat) (disk : Disk α) : (new pageSize pageCount disk).Wf where
  mapped _ _ impossible := by cases impossible
  stray _ valid := absurd rfl valid
  free _ _ _ impossible := by cases impossible
  nodup := List.nodup_range
  length _ := List.length_replicate

omit [Zero α] in
@[simp] theorem pool_put_self (bm : BufferManager α) (f : Nat) (frame : BufferFrame α) :
    (bm.put f frame).pool f = frame := Function.update_self _ _ _

omit [Zero α] in
theorem pool_put_of_ne (different : g ≠ f) : (bm.put f frame).pool g = bm.pool g :=
  Function.update_of_ne different _ _

omit [Zero α] in
/-- Two pages have two frames. -/
theorem Wf.injective (wf : bm.Wf) (first : bm.pageTable p = some f)
    (second : bm.pageTable q = some f) : p = q := by
  rw [← wf.mapped p f first, wf.mapped q f second]

omit [Zero α] in
/-- A step that leaves the pool and its table alone. -/
theorem Wf.congr (wf : bm.Wf) (pool : bm'.pool = bm.pool) (pageTable : bm'.pageTable = bm.pageTable)
    (freeFrames : bm'.freeFrames = bm.freeFrames) (pageSize : bm'.pageSize = bm.pageSize) :
    bm'.Wf where
  mapped p f := by
    rw [pageTable, pool]
    exact wf.mapped p f
  stray f := by
    rw [pageTable, pool]
    exact wf.stray f
  free f := by
    rw [pageTable, freeFrames]
    exact wf.free f
  nodup := freeFrames ▸ wf.nodup
  length f := by
    rw [pool, pageSize]
    exact wf.length f

omit [Zero α] in
/-- Changing the bytes or the flag of a frame. -/
theorem Wf.put (wf : bm.Wf) (page : frame.pageId = (bm.pool f).pageId)
    (length : frame.data.length = bm.pageSize) : (bm.put f frame).Wf := by
  have pages : ∀ g, ((bm.put f frame).pool g).pageId = (bm.pool g).pageId := by
    intro g
    rcases eq_or_ne g f with rfl | different
    · rw [pool_put_self, page]
    · rw [pool_put_of_ne different]
  refine ⟨fun p g isMapped => ?_, fun g valid => ?_, wf.free, wf.nodup, fun g => ?_⟩
  · rw [pages]
    exact wf.mapped p g isMapped
  · rw [pages] at valid ⊢
    exact wf.stray g valid
  · rcases eq_or_ne g f with rfl | different
    · rw [pool_put_self]
      exact length
    · rw [pool_put_of_ne different]
      exact wf.length g

omit [Zero α] in
theorem Wf.writeData (wf : bm.Wf) (f offset : Nat) (value : α) : (bm.writeData f offset value).Wf := by
  refine wf.put rfl ?_
  rw [List.length_set]
  exact wf.length f

omit [Zero α] in
theorem Wf.unfixPage (wf : bm.Wf) (f : Nat) (isDirty : Bool) : (bm.unfixPage f isDirty).Wf := by
  unfold BufferManager.unfixPage
  split
  · exact wf.put rfl (wf.length f)
  · exact wf

omit [Zero α] in
/-- Tracking a page changes nothing but `txn_pages_`. -/
theorem track_eq (bm : BufferManager α) (t p : UInt64) :
    bm.track t p = { bm with txnPages := (bm.track t p).txnPages } := by
  unfold BufferManager.track
  split <;> rfl

omit [Zero α] in
theorem Wf.track (wf : bm.Wf) (t p : UInt64) : (bm.track t p).Wf := by
  rw [track_eq]
  exact wf.congr rfl rfl rfl rfl

omit [Zero α] in
theorem txnPages_track (valid : t ≠ invalidTxnId) :
    (bm.track t p).txnPages = SetMap.add idLt bm.txnPages t p := by
  rw [BufferManager.track, if_pos valid]

omit [Zero α] in
theorem mem_track (bm : BufferManager α) (t p : UInt64) {u : UInt64}
    (member : q ∈ SetMap.get bm.txnPages u) : q ∈ SetMap.get (bm.track t p).txnPages u := by
  unfold BufferManager.track
  split
  · rcases eq_or_ne u t with rfl | different
    · rw [SetMap.get_add_self]
      exact StdSet.mem_insert_of_mem member
    · rw [SetMap.get_add_of_ne different]
      exact member
  · exact member

omit [Zero α] in
theorem mem_track_self (bm : BufferManager α) (valid : t ≠ invalidTxnId) :
    p ∈ SetMap.get (bm.track t p).txnPages t := by
  rw [txnPages_track valid, SetMap.get_add_self]
  exact StdSet.mem_insert_self idLt_strict p _

/-- What `mapPage` does to the pool. -/
structure Maps (bm : BufferManager α) (t p : UInt64) (bm' : BufferManager α) (f : Nat) : Prop where
  wf : bm'.Wf
  unused : ∀ q, bm.pageTable q ≠ some f
  freeFrame : f ∈ bm.freeFrames
  pageTable : bm'.pageTable = Function.update bm.pageTable p (some f)
  frame : bm'.pool f = { bm.pool f with pageId := p }
  others : ∀ g, g ≠ f → bm'.pool g = bm.pool g
  txnPages : bm'.txnPages = (bm.track t p).txnPages
  lockManager : bm'.lockManager = bm.lockManager
  disk : bm'.disk = bm.disk
  pageSize : bm'.pageSize = bm.pageSize
  freeFrames : ∀ g ∈ bm'.freeFrames, g ∈ bm.freeFrames

omit [Zero α] in
/-- Loading a page that is not in the pool into the first free frame. -/
theorem Wf.load {rest : List Nat} (wf : bm.Wf) (missing : bm.pageTable p = none)
    (isFree : bm.freeFrames = f :: rest) :
    ({ bm.put f { bm.pool f with pageId := p } with
      freeFrames := rest
      pageTable := Function.update bm.pageTable p (some f) } : BufferManager α).Wf := by
  have unused := wf.free f (isFree ▸ List.mem_cons_self)
  obtain ⟨notInRest, nodup⟩ := List.nodup_cons.mp (isFree ▸ wf.nodup)
  refine ⟨fun q g isMapped => ?_, fun g valid => ?_, fun g member q isMapped => ?_, nodup,
    fun g => ?_⟩
  · change Function.update bm.pageTable p (some f) q = some g at isMapped
    change ((bm.put f { bm.pool f with pageId := p }).pool g).pageId = q
    rcases eq_or_ne q p with rfl | different
    · rw [Function.update_self, Option.some.injEq] at isMapped
      rw [← isMapped, pool_put_self]
    · rw [Function.update_of_ne different] at isMapped
      have elsewhere : g ≠ f := fun same => unused q (same ▸ isMapped)
      rw [pool_put_of_ne elsewhere]
      exact wf.mapped q g isMapped
  · change ((bm.put f { bm.pool f with pageId := p }).pool g).pageId ≠ invalidPageId at valid
    change Function.update bm.pageTable p (some f)
      ((bm.put f { bm.pool f with pageId := p }).pool g).pageId = some g
    rcases eq_or_ne g f with rfl | different
    · rw [pool_put_self, Function.update_self]
    · rw [pool_put_of_ne different] at valid ⊢
      have isMapped := wf.stray g valid
      have elsewhere : (bm.pool g).pageId ≠ p := by
        intro same
        rw [same, missing] at isMapped
        cases isMapped
      rw [Function.update_of_ne elsewhere, isMapped]
  · change Function.update bm.pageTable p (some f) q = some g at isMapped
    rcases eq_or_ne q p with rfl | different
    · rw [Function.update_self, Option.some.injEq] at isMapped
      exact notInRest (isMapped ▸ member)
    · rw [Function.update_of_ne different] at isMapped
      exact wf.free g (isFree ▸ List.mem_cons_of_mem f member) q isMapped
  · change ((bm.put f { bm.pool f with pageId := p }).pool g).data.length = bm.pageSize
    rcases eq_or_ne g f with rfl | different
    · rw [pool_put_self]
      exact wf.length g
    · rw [pool_put_of_ne different]
      exact wf.length g

omit [Zero α] in
theorem Wf.mapPage (wf : bm.Wf) (missing : bm.pageTable p = none)
    (ran : bm.mapPage t p = some (bm', f)) : Maps bm t p bm' f := by
  unfold BufferManager.mapPage at ran
  split at ran
  · cases ran
  · rename_i frameId rest isFree
    rw [Option.some.injEq, Prod.mk.injEq] at ran
    obtain ⟨rfl, rfl⟩ := ran
    rw [track_eq]
    exact {
      wf := (wf.load missing isFree).congr rfl rfl rfl rfl
      unused := wf.free frameId (isFree ▸ List.mem_cons_self)
      freeFrame := isFree ▸ List.mem_cons_self
      pageTable := rfl
      frame := pool_put_self _ _ _
      others := fun g different => pool_put_of_ne different
      txnPages := by
        unfold BufferManager.track
        split <;> rfl
      lockManager := rfl
      disk := rfl
      pageSize := rfl
      freeFrames := fun g member => isFree ▸ List.mem_cons_of_mem frameId member }

/-! ## Discarding -/

/-- What discarding the pages in `pages` does. -/
structure Discards (bm : BufferManager α) (pages : List UInt64) (bm' : BufferManager α) : Prop where
  wf : bm'.Wf
  gone : ∀ p ∈ pages, bm'.pageTable p = none
  kept : ∀ p, p ∉ pages → bm'.pageTable p = bm.pageTable p
  data : ∀ f, (bm'.pool f).data = (bm.pool f).data
  others : ∀ p f, p ∉ pages → bm.pageTable p = some f → bm'.pool f = bm.pool f
  txnPages : bm'.txnPages = bm.txnPages
  lockManager : bm'.lockManager = bm.lockManager
  disk : bm'.disk = bm.disk
  pageSize : bm'.pageSize = bm.pageSize

omit [Zero α] in
theorem Discards.fewer {pages : List UInt64} (discards : Discards bm pages bm')
    (isMapped : bm'.pageTable p = some f) : bm.pageTable p = some f := by
  by_cases member : p ∈ pages
  · rw [discards.gone p member] at isMapped
    cases isMapped
  · rwa [discards.kept p member] at isMapped

omit [Zero α] in
theorem Wf.discardPage (wf : bm.Wf) (p : UInt64) : Discards bm [p] (bm.discardPage p) := by
  unfold BufferManager.discardPage
  cases isMapped : bm.pageTable p with
  | none =>
    exact {
      wf := wf
      gone := fun q member => List.mem_singleton.mp member ▸ isMapped
      kept := fun _ _ => rfl
      data := fun _ => rfl
      others := fun _ _ _ _ => rfl
      txnPages := rfl
      lockManager := rfl
      disk := rfl
      pageSize := rfl }
  | some f =>
    have notFree : f ∉ bm.freeFrames := fun member => wf.free f member p isMapped
    have elsewhere : ∀ q g, q ≠ p → bm.pageTable q = some g → g ≠ f := by
      rintro q g different there rfl
      exact different (wf.injective there isMapped)
    have table : ∀ q g, Function.update bm.pageTable p none q = some g →
        bm.pageTable q = some g ∧ g ≠ f := by
      intro q g there
      rcases eq_or_ne q p with rfl | different
      · rw [Function.update_self] at there
        cases there
      · rw [Function.update_of_ne different] at there
        exact ⟨there, elsewhere q g different there⟩
    refine ⟨⟨fun q g there => ?_, fun g valid => ?_, fun g member q there => ?_, ?_, fun g => ?_⟩,
      fun q member => ?_, fun q other => ?_, fun g => ?_, fun q g other there => ?_,
      rfl, rfl, rfl, rfl⟩
    · obtain ⟨before, different⟩ := table q g there
      exact (congrArg BufferFrame.pageId (pool_put_of_ne different)).trans (wf.mapped q g before)
    · change ((bm.put f _).pool g).pageId ≠ invalidPageId at valid
      change Function.update bm.pageTable p none ((bm.put f _).pool g).pageId = some g
      rcases eq_or_ne g f with rfl | different
      · rw [pool_put_self] at valid
        exact absurd rfl valid
      · rw [pool_put_of_ne different] at valid ⊢
        have there := wf.stray g valid
        rw [Function.update_of_ne, there]
        intro same
        rw [same, isMapped, Option.some.injEq] at there
        exact different there.symm
    · obtain ⟨before, different⟩ := table q g there
      rcases List.mem_append.mp member with old | new
      · exact wf.free g old q before
      · exact different (List.mem_singleton.mp new)
    · refine List.nodup_append.mpr ⟨wf.nodup, List.nodup_singleton f, fun g old h new same => ?_⟩
      rw [List.mem_singleton.mp new] at same
      exact notFree (same ▸ old)
    · change ((bm.put f _).pool g).data.length = bm.pageSize
      rcases eq_or_ne g f with rfl | different
      · rw [pool_put_self]
        exact wf.length g
      · rw [pool_put_of_ne different]
        exact wf.length g
    · rw [List.mem_singleton.mp member]
      exact Function.update_self _ _ _
    · exact Function.update_of_ne (fun same => other (List.mem_singleton.mpr same)) _ _
    · change ((bm.put f _).pool g).data = (bm.pool g).data
      rcases eq_or_ne g f with rfl | different
      · rw [pool_put_self]
      · rw [pool_put_of_ne different]
    · exact pool_put_of_ne (elsewhere q g (fun same => other (List.mem_singleton.mpr same)) there)

omit [Zero α] in
theorem Wf.discardAll (wf : bm.Wf) (pages : List UInt64) :
    Discards bm pages (pages.foldl BufferManager.discardPage bm) := by
  induction pages generalizing bm with
  | nil =>
    exact ⟨wf, fun _ impossible => absurd impossible List.not_mem_nil, fun _ _ => rfl,
      fun _ => rfl, fun _ _ _ _ => rfl, rfl, rfl, rfl, rfl⟩
  | cons p pages ih =>
    have first := wf.discardPage p
    have rest := ih first.wf
    have apart : ∀ q, q ∉ p :: pages → q ∉ [p] ∧ q ∉ pages := by
      intro q outside
      obtain ⟨notHead, notTail⟩ := not_or.mp (mt List.mem_cons.mpr outside)
      exact ⟨mt List.mem_singleton.mp notHead, notTail⟩
    refine ⟨rest.wf, fun q member => ?_, fun q outside => ?_, fun f => ?_,
      fun q f outside isMapped => ?_, rest.txnPages.trans first.txnPages,
      rest.lockManager.trans first.lockManager, rest.disk.trans first.disk,
      rest.pageSize.trans first.pageSize⟩
    · by_cases later : q ∈ pages
      · exact rest.gone q later
      · obtain rfl := (List.mem_cons.mp member).resolve_right later
        exact (rest.kept q later).trans (first.gone q (List.mem_singleton_self q))
    · obtain ⟨notHead, notTail⟩ := apart q outside
      exact (rest.kept q notTail).trans (first.kept q notHead)
    · exact (rest.data f).trans (first.data f)
    · obtain ⟨notHead, notTail⟩ := apart q outside
      have still := (first.kept q notHead).trans isMapped
      exact (rest.others q f notTail still).trans (first.others q f notHead isMapped)

/-! ## Flushing -/

/-- What flushes leave as it is. -/
structure Flushes (bm bm' : BufferManager α) : Prop where
  pageId : ∀ f, (bm'.pool f).pageId = (bm.pool f).pageId
  data : ∀ f, (bm'.pool f).data = (bm.pool f).data
  clean : ∀ f, (bm.pool f).dirty = false → (bm'.pool f).dirty = false
  pageTable : bm'.pageTable = bm.pageTable
  freeFrames : bm'.freeFrames = bm.freeFrames
  txnPages : bm'.txnPages = bm.txnPages
  lockManager : bm'.lockManager = bm.lockManager
  pageSize : bm'.pageSize = bm.pageSize

omit [Zero α] in
theorem Flushes.refl (bm : BufferManager α) : Flushes bm bm :=
  ⟨fun _ => rfl, fun _ => rfl, fun _ clean => clean, rfl, rfl, rfl, rfl, rfl⟩

omit [Zero α] in
theorem Flushes.trans (first : Flushes bm mid) (second : Flushes mid bm') : Flushes bm bm' where
  pageId f := (second.pageId f).trans (first.pageId f)
  data f := (second.data f).trans (first.data f)
  clean f clean := second.clean f (first.clean f clean)
  pageTable := second.pageTable.trans first.pageTable
  freeFrames := second.freeFrames.trans first.freeFrames
  txnPages := second.txnPages.trans first.txnPages
  lockManager := second.lockManager.trans first.lockManager
  pageSize := second.pageSize.trans first.pageSize

omit [Zero α] in
theorem Flushes.wf (flushes : Flushes bm bm') (wf : bm.Wf) : bm'.Wf where
  mapped p f isMapped := by
    rw [flushes.pageId]
    exact wf.mapped p f (flushes.pageTable ▸ isMapped)
  stray f valid := by
    rw [flushes.pageId] at valid ⊢
    rw [flushes.pageTable]
    exact wf.stray f valid
  free f member p isMapped :=
    wf.free f (flushes.freeFrames ▸ member) p (flushes.pageTable ▸ isMapped)
  nodup := flushes.freeFrames ▸ wf.nodup
  length f := by
    rw [flushes.data, flushes.pageSize]
    exact wf.length f

theorem flushFrame_flushes (bm : BufferManager α) (f : Nat) :
    Flushes bm (bm.flushFrame f) ∧ ((bm.flushFrame f).pool f).dirty = false := by
  unfold BufferManager.flushFrame
  split
  · have same : ∀ g, g ≠ f → ((bm.writeFrame f).put f { bm.pool f with dirty := false }).pool g =
        bm.pool g := fun g different => pool_put_of_ne different
    refine ⟨⟨fun g => ?_, fun g => ?_, fun g clean => ?_, rfl, rfl, rfl, rfl, rfl⟩, ?_⟩
    · rcases eq_or_ne g f with rfl | different
      · rw [pool_put_self]
      · rw [same g different]
    · rcases eq_or_ne g f with rfl | different
      · rw [pool_put_self]
      · rw [same g different]
    · rcases eq_or_ne g f with rfl | different
      · rw [pool_put_self]
      · rw [same g different]
        exact clean
    · rw [pool_put_self]
  · rename_i clean
    exact ⟨.refl bm, Bool.not_eq_true _ ▸ clean⟩

theorem flushPage_flushes (bm : BufferManager α) (p : UInt64) : Flushes bm (bm.flushPage p) := by
  unfold BufferManager.flushPage
  split
  · exact (flushFrame_flushes bm _).1
  · exact .refl bm

omit [Zero α] in
/-- One flush after the other. -/
theorem foldl_flushes {β : Type*} {flush : BufferManager α → β → BufferManager α}
    (one : ∀ bm x, Flushes bm (flush bm x)) (xs : List β) :
    ∀ bm : BufferManager α, Flushes bm (xs.foldl flush bm) := by
  induction xs with
  | nil => exact .refl
  | cons x xs ih => exact fun bm => (one bm x).trans (ih _)

theorem flushPages_flushes (bm : BufferManager α) (t : UInt64) : Flushes bm (bm.flushPages t) :=
  foldl_flushes flushPage_flushes _ bm

theorem flushAllPages_flushes (bm : BufferManager α) : Flushes bm bm.flushAllPages :=
  foldl_flushes (fun bm f => (flushFrame_flushes bm f).1) (List.range bm.capacity) bm

/-- Behind a flush of its page a frame is clean. -/
theorem foldl_flushPage_clean {pages : List UInt64} (member : p ∈ pages) :
    ∀ bm : BufferManager α, bm.pageTable p = some f →
      ((pages.foldl BufferManager.flushPage bm).pool f).dirty = false := by
  induction pages with
  | nil => cases member
  | cons q pages ih =>
    intro bm isMapped
    rcases List.mem_cons.mp member with rfl | later
    · refine (foldl_flushes flushPage_flushes pages _).clean f ?_
      rw [BufferManager.flushPage, isMapped]
      exact (flushFrame_flushes bm f).2
    · exact ih later _ ((flushPage_flushes bm q).pageTable ▸ isMapped)

end BufferManager

end BuzzDB.Locking
