import BuzzDB.Lib.Machine
import BuzzDB.Locking.BufferManager

/-!
# Interleaved calls of the buffer manager

Any number of transactions, each in one call at a time, cut at the critical sections of
`pool_mutex_`, of the mutex of the lock manager and of the mutexes of the pages' locks.
`fix_page` keeps `pool_mutex_` while it asks for the lock, also while it waits; it reads a
page that it loads behind that section.

Bytes carry the transaction that wrote them.  `life` tells apart the transactions that have
used an id one after the other.
-/

namespace BuzzDB.Locking.Isolation

/-- A transaction: its id, and how many have had the id before it. -/
structure Writer where
  txnId : UInt64
  life : Nat
  deriving DecidableEq

/-- A byte and who wrote it; what was on disk in the beginning has no writer. -/
structure Byte where
  value : UInt8
  writer : Option Writer
  deriving DecidableEq

instance : Zero Byte := ⟨⟨0, none⟩⟩

/-- Where the call of a transaction is.  `ending` is the last section of `transaction_complete`
and `transaction_abort`. -/
inductive Pc
  | idle
  | fixing (pageId : UInt64) (mode : LockMode) (frameId : Nat) (loads : Bool) (pc : AcquirePc)
  | reading (pageId : UInt64) (mode : LockMode) (frameId : Nat)
  | completing (pc : ReleasePc)
  | aborting (pc : ReleasePc)
  | discarding
  | ending (completes : Bool)
  deriving DecidableEq

/-- The buffer manager and its callers: `loading` has for each page whose frame has not been read
yet the transaction that loads it, `handles` the frames that were returned to running
transactions, and `completed` the transactions whose pages have been flushed. -/
structure State where
  bm : BufferManager Byte
  poolMutex : Option UInt64
  loading : UInt64 → Option UInt64
  pcs : UInt64 → Pc
  handles : List Handle
  life : UInt64 → Nat
  completed : List Writer

/-- What can happen next. -/
inductive Action
  | fixPage (txnId pageId : UInt64) (mode : LockMode)
  | write (handle : Handle) (offset : Nat) (value : UInt8)
  | unfixPage (handle : Handle) (isDirty : Bool)
  | transactionComplete (txnId : UInt64)
  | transactionAbort (txnId : UInt64)
  | step (txnId : UInt64) (choice : Choice)

namespace State

/-- Nothing fixed, over existing segment files. -/
def new (pageSize pageCount : Nat) (disk : Disk UInt8) : State where
  bm := BufferManager.new pageSize pageCount fun segment => (disk segment).map fun b => ⟨b, none⟩
  poolMutex := none
  loading := fun _ => none
  pcs := fun _ => .idle
  handles := []
  life := fun _ => 0
  completed := []

variable (s : State)

/-- The transaction that has the id now. -/
def writer (txnId : UInt64) : Writer := ⟨txnId, s.life txnId⟩

/-- The granted locks of a page. -/
def granted (pageId : UInt64) : List Lock := s.bm.lockManager.granted pageId

/-- Move a transaction. -/
def move (txnId : UInt64) (pc : Pc) : State := { s with pcs := Function.update s.pcs txnId pc }

/-- `fix_page`, up to its request for the lock. -/
def startFix (txnId pageId : UInt64) (mode : LockMode) : State :=
  match s.bm.pageTable pageId with
  | some frameId =>
    { s.move txnId (.fixing pageId mode frameId false .getFrame) with poolMutex := some txnId }
  | none =>
    match s.bm.mapPage txnId pageId with
    | none => s
    | some (bm, frameId) =>
      { s.move txnId (.fixing pageId mode frameId true .getFrame) with
        bm
        poolMutex := some txnId
        loading := Function.update s.loading pageId (some txnId) }

/-- A frame is returned. -/
def returnFrame (handle : Handle) (bm : BufferManager Byte) : State :=
  { s.move handle.txnId .idle with bm, handles := handle :: s.handles }

/-- Behind a section of the request for the lock. -/
def acquired (txnId pageId : UInt64) (mode : LockMode) (frameId : Nat) (loads : Bool)
    (lockManager : LockManager) : Outcome AcquirePc → State
  | .next pc =>
    { s.move txnId (.fixing pageId mode frameId loads pc) with bm := { s.bm with lockManager } }
  | .returned =>
    if loads then
      { s.move txnId (.reading pageId mode frameId) with
        bm := { s.bm with lockManager }
        poolMutex := none }
    else
      { s.returnFrame ⟨txnId, pageId, mode, frameId⟩
          (({ s.bm with lockManager } : BufferManager Byte).track txnId pageId) with
        poolMutex := none }
  | .threw =>
    { s.move txnId .idle with
      bm := { s.bm with lockManager }
      poolMutex := none }

/-- The frames of a transaction that ends are its own no longer. -/
def dropHandles (txnId : UInt64) : State :=
  { s with handles := s.handles.filter fun handle => handle.txnId ≠ txnId }

/-- `transaction_complete`, up to the release of the locks. -/
def startComplete (txnId : UInt64) : State :=
  { (s.dropHandles txnId).move txnId (.completing .snapshot) with
    bm := s.bm.flushPages txnId
    completed := s.writer txnId :: s.completed }

/-- Behind a section of a release. -/
def released (txnId : UInt64) (pc : ReleasePc → Pc) (behind : Pc) (lockManager : LockManager) :
    Outcome ReleasePc → State
  | .next next => { s.move txnId (pc next) with bm := { s.bm with lockManager } }
  | _ => { s.move txnId behind with bm := { s.bm with lockManager } }

/-- `discard_pages`. -/
def discarded (txnId : UInt64) : State :=
  { s.move txnId (.ending false) with bm := s.bm.discardPages txnId }

/-- The last section of `transaction_complete` and `transaction_abort`. -/
def ended (txnId : UInt64) : State :=
  { s.move txnId .idle with
    bm := s.bm.eraseTxn txnId
    life := Function.update s.life txnId (s.life txnId + 1) }

/-- The next section of a call. -/
def nextSection (txnId : UInt64) (choice : Choice) : Option State :=
  match s.pcs txnId, choice with
  | .idle, _ => none
  | .fixing pageId mode frameId loads pc, choice =>
    (pc.step s.bm.lockManager txnId pageId mode choice).map fun result =>
      s.acquired txnId pageId mode frameId loads result.1 result.2
  | .reading pageId mode frameId, .proceed =>
    some { s.returnFrame ⟨txnId, pageId, mode, frameId⟩ (s.bm.readFrame frameId) with
      loading := Function.update s.loading pageId none }
  | .completing pc, .proceed =>
    (pc.step s.bm.lockManager txnId).map fun result =>
      s.released txnId .completing (.ending true) result.1 result.2
  | .aborting pc, .proceed =>
    (pc.step s.bm.lockManager txnId).map fun result =>
      s.released txnId .aborting .discarding result.1 result.2
  | .discarding, .proceed => if s.poolMutex = none then some (s.discarded txnId) else none
  | .ending _, .proceed => if s.poolMutex = none then some (s.ended txnId) else none
  | _, _ => none

/-- One action.  A transaction writes between its calls, through the frames it has fixed
exclusively. -/
def step : Action → Option State
  | .fixPage txnId pageId mode =>
    if s.pcs txnId = .idle ∧ s.poolMutex = none then some (s.startFix txnId pageId mode) else none
  | .write handle offset value =>
    if handle ∈ s.handles ∧ s.pcs handle.txnId = .idle ∧ handle.mode = .exclusive then
      some { s with
        bm := s.bm.writeData handle.frameId offset ⟨value, some (s.writer handle.txnId)⟩ }
    else none
  | .unfixPage handle isDirty =>
    if handle ∈ s.handles ∧ s.pcs handle.txnId = .idle then
      some { s with bm := s.bm.unfixPage handle.frameId isDirty }
    else none
  | .transactionComplete txnId =>
    if s.pcs txnId = .idle ∧ s.poolMutex = none then some (s.startComplete txnId) else none
  | .transactionAbort txnId =>
    if s.pcs txnId = .idle then some ((s.dropHandles txnId).move txnId (.aborting .snapshot))
    else none
  | .step txnId choice => s.nextSection txnId choice

/-- No frame that a running transaction has been given holds a byte of another transaction that
has not completed. -/
def Isolated : Prop :=
  ∀ handle ∈ s.handles, ∀ byte ∈ (s.bm.pool handle.frameId).data, ∀ w ∈ byte.writer,
    w ∈ s.completed ∨ w = s.writer handle.txnId

instance : Decidable s.Isolated := inferInstanceAs (Decidable (∀ _ ∈ _, ∀ _ ∈ _, ∀ _ ∈ _, _))

/-! ## What has to be ruled out -/

/-- The transaction is not in `transaction_abort`, or still has its lock on the page. -/
def NotReleased (pageId txnId : UInt64) : Prop :=
  match s.pcs txnId with
  | .aborting _ | .discarding => ∃ lock ∈ s.granted pageId, lock.txnId = txnId
  | _ => True

/-- A lock on the page can be granted: no other call is still to read it, and no transaction in
`transaction_abort` has released it and not discarded it yet. -/
def Settled (txnId pageId : UInt64) : Prop :=
  (s.loading pageId = none ∨ s.loading pageId = some txnId) ∧
    ∀ u, pageId ∈ SetMap.get s.bm.txnPages u → s.NotReleased pageId u

/-- A read fills the frame, or the frame still has the bytes of its construction. -/
def Fills (pageId : UInt64) (frameId : Nat) : Prop :=
  Disk.start s.bm.pageSize pageId + s.bm.pageSize ≤ (s.bm.disk (getSegmentId pageId)).length ∨
    (s.bm.pool frameId).data = List.replicate s.bm.pageSize 0

/-- What a section must not do. -/
def SoundSection (txnId : UInt64) (choice : Choice) : Pc → Prop
  | .fixing pageId mode _ loads pc =>
    pc.InPlace choice ∧ ∀ result ∈ pc.step s.bm.lockManager txnId pageId mode choice,
      (loads → result.2 ≠ .threw) ∧
        (result.1.granted pageId ≠ s.granted pageId → s.Settled txnId pageId)
  | .reading pageId _ frameId => s.Fills pageId frameId
  | .discarding =>
    ∀ pageId ∈ SetMap.get s.bm.txnPages txnId, s.bm.pageTable pageId ≠ none →
      ∀ lock ∈ s.granted pageId, lock.txnId = txnId
  | _ => True

/-- An action that does none of what goes wrong: a waiting upgrade goes on in place, a lock is
granted on a settled page and not refused for a page that is loaded, a read fills its frame, no page
is discarded that another transaction has locked, and `fix_page` names a transaction. -/
def Sound : Action → Prop
  | .fixPage txnId _ _ => txnId ≠ invalidTxnId
  | .step txnId choice => s.SoundSection txnId choice (s.pcs txnId)
  | _ => True

instance (pageId txnId : UInt64) : Decidable (s.NotReleased pageId txnId) :=
  match isAt : s.pcs txnId with
  | .aborting _ | .discarding =>
    decidable_of_iff (∃ lock ∈ s.granted pageId, lock.txnId = txnId) (by simp only [NotReleased, isAt])
  | .idle | .fixing _ _ _ _ _ | .reading _ _ _ | .completing _ | .ending _ =>
    isTrue (by simp only [NotReleased, isAt])

instance (txnId pageId : UInt64) : Decidable (s.Settled txnId pageId) :=
  decidable_of_iff ((s.loading pageId = none ∨ s.loading pageId = some txnId) ∧
      ∀ entry ∈ s.bm.txnPages.entries, pageId ∈ entry.2 → s.NotReleased pageId entry.1) <| by
    refine and_congr Iff.rfl ⟨fun all u member => ?_, fun all entry inside member => ?_⟩
    · obtain ⟨entry, inside, rfl, tracked⟩ := SetMap.mem_get.mp member
      exact all entry inside tracked
    · exact all entry.1 (SetMap.mem_get.mpr ⟨entry, inside, rfl, member⟩)

instance (pageId : UInt64) (frameId : Nat) : Decidable (s.Fills pageId frameId) :=
  inferInstanceAs (Decidable (_ ∨ _))

instance (txnId : UInt64) (choice : Choice) : DecidablePred (s.SoundSection txnId choice)
  | .fixing _ _ _ _ _ => inferInstanceAs (Decidable (_ ∧ ∀ _ ∈ _, _ ∧ _))
  | .reading _ _ _ => inferInstanceAs (Decidable (s.Fills _ _))
  | .discarding => List.decidableBAll _ _
  | .idle | .completing _ | .aborting _ | .ending _ => isTrue trivial

instance : DecidablePred s.Sound
  | .fixPage _ _ _ => inferInstanceAs (Decidable (_ ≠ _))
  | .step _ _ => inferInstanceAs (Decidable (s.SoundSection _ _ _))
  | .write _ _ _ | .unfixPage _ _ | .transactionComplete _ | .transactionAbort _ => isTrue trivial

end State

end BuzzDB.Locking.Isolation
