import BuzzDB.Locking.ReloadedRecords

/-!
# What committed transactions have allocated

`addSlot` changes a page in its frame, and `HeapSegment::allocate` does not mark the frame dirty.
`transaction_complete` writes the dirty frames of the transaction back, so a slot is on disk behind
it if something else has marked the frame, as `HeapSegment::write` does.

A `Grant` is a `TID` that `allocate` has returned.  The runs are those of `HeapSegment`, of
transactions that complete or abort, of flushes, and of pages that are dropped.
-/

namespace BuzzDB.Locking

open FramePool PagePool HeapSegment

namespace Allocations

/-- A `TID` that a transaction has obtained, with its page, the size it has asked for, and the value
that its slot had then.  A grant is lost when its page is dropped and the segment file does not have
the slot. -/
structure Grant where
  txnId : UInt64
  tid : UInt64
  page : UInt64
  size : UInt32
  slot : UInt64
  committed : Bool
  lost : Bool
  deriving DecidableEq

namespace Grant

/-- The bytes that the slot describes. -/
def range (g : Grant) : SlottedPage.Region where
  start := (SlottedPage.slotOffset g.slot).toNat
  stop := (SlottedPage.slotOffset g.slot).toNat + (SlottedPage.slotLength g.slot).toNat

/-- The bytes of a page have the slot. -/
def SlotIn (g : Grant) (data : List UInt8) : Prop :=
  (slotIdOf g.tid).toNat < slotCountOf data ∧
    SlottedPage.slotsOf data (slotIdOf g.tid).toNat = g.slot

instance (g : Grant) (data : List UInt8) : Decidable (g.SlotIn data) :=
  inferInstanceAs (Decidable (_ ∧ _))

theorem SlotIn.of_eq {g : Grant} {data data' : List UInt8} (slot : g.SlotIn data)
    (same : data' = data) : g.SlotIn data' := same ▸ slot

/-- Another `TID`, and no byte in common. -/
def Apart (g other : Grant) : Prop :=
  g.tid ≠ other.tid ∧ (g.page = other.page →
    g.range.stop ≤ other.range.start ∨ other.range.stop ≤ g.range.start)

instance (g other : Grant) : Decidable (g.Apart other) := inferInstanceAs (Decidable (_ ∧ (_ → _)))

/-- The transaction commits. -/
def commit (t : UInt64) (g : Grant) : Grant :=
  { g with committed := g.committed || decide (g.txnId = t) }

end Grant

/-- A segment and its buffer manager.  Beside them, what transactions that have not aborted have
obtained, the last one first, where each page was constructed, and whether the segment file has had
the page since then. -/
structure State where
  segment : HeapSegment
  pool : HeapSystem
  grants : List Grant
  origin : UInt64 → UInt64
  filed : UInt64 → Bool

/-- The calls of a run.  One that throws ends with the `fix_page` that throws; an `allocate` that throws
at its next page has counted it. -/
inductive Action
  | allocate (txnId : UInt64) (size : UInt32)
  | write (txnId tid : UInt64) (record : List UInt8)
  | read (txnId tid : UInt64) (capacity : UInt32)
  | fixPage (txnId pageId : UInt64) (exclusive : Bool)
  | nextPageThrows (txnId : UInt64)
  | flushPage (pageId : UInt64)
  | flushAllPages
  | transactionComplete (txnId : UInt64)
  | transactionAbort (txnId : UInt64)
  | discardPage (pageId : UInt64)
  | discardPages (txnId : UInt64)
  | discardAllPages (addresses : List UInt64) (distinct : addresses.Nodup)

namespace State

/-- A segment that has just been constructed, over existing segment files. -/
def new (segmentId : UInt16) (pageSize pageCount : Nat) (disk : Disk UInt8) (addresses : List UInt64)
    (distinct : addresses.Nodup) : State where
  segment := .new segmentId
  pool := .new pageSize pageCount disk addresses distinct
  grants := []
  origin := fun _ => 0
  filed := fun _ => false

variable (s : State)

/-- The next page of the segment. -/
def nextPage : UInt64 := getOverallPageId s.segment.segmentId s.segment.pageCount

/-- A slot was allocated, in a page of the segment or in the next one. -/
def allocated (pool : HeapSystem) (segment : HeapSegment) (txnId tid : UInt64)
    (size : UInt32) : State where
  segment
  pool
  grants :=
    { txnId, tid, page := overallPageIdOf segment.segmentId tid, size
      slot := segment.slotOf pool tid, committed := false, lost := false } :: s.grants
  origin :=
    if segment.pageCount = s.segment.pageCount then s.origin
    else Function.update s.origin s.nextPage (pool.addressOf s.nextPage)
  filed :=
    if segment.pageCount = s.segment.pageCount then s.filed
    else Function.update s.filed s.nextPage false

/-- Another buffer manager under the segment. -/
def withBm (bm' : BufferManager UInt8) : State := { s with pool := { s.pool with bm := bm' } }

/-- The next page is counted, but not constructed. -/
def countPage : State :=
  { s with
    segment := { s.segment with pageCount := s.segment.pageCount + 1 }
    filed := Function.update s.filed s.nextPage false }

/-- Frames were written back. -/
def flush (bm' : BufferManager UInt8) : State :=
  { s with
    pool := { s.pool with bm := bm' }
    filed := fun p => s.filed p || ((bm'.pageTable p).isSome && decide (bm'.Saved p)) }

/-- Dropping its page loses a slot that the segment file does not have. -/
def Loses (bm' : BufferManager UInt8) (g : Grant) : Prop :=
  (s.pool.bm.pageTable g.page).isSome ∧ bm'.pageTable g.page = none ∧
    ¬ (s.filed g.page = true ∧ g.SlotIn (s.pool.bm.image g.page))

instance (bm' : BufferManager UInt8) (g : Grant) : Decidable (s.Loses bm' g) :=
  inferInstanceAs (Decidable (_ ∧ _ ∧ ¬ (_ ∧ _)))

/-- Pages were dropped. -/
def drop (bm' : BufferManager UInt8) (addresses : List UInt64) (distinct : addresses.Nodup) : State :=
  { s with
    pool := ⟨bm', addresses, distinct⟩
    grants := s.grants.map fun g => { g with lost := g.lost || decide (s.Loses bm' g) } }

/-- One call. -/
def step : Action → Option State
  | .allocate txnId size => do
    let (pool, segment, tid) ← HeapManager.allocate (σ := HeapSystem) txnId s.pool s.segment size
    return s.allocated pool segment txnId tid size
  | .write txnId tid record => do
    let pool ← HeapManager.write (σ := HeapSystem) txnId s.pool s.segment tid record
    return { s with pool }
  | .read txnId tid capacity => do
    let (pool, _) ← HeapManager.read (σ := HeapSystem) txnId s.pool s.segment tid capacity
    return { s with pool }
  | .fixPage txnId pageId exclusive =>
    some (s.withBm (s.pool.bm.fixPage txnId pageId (HeapSystem.modeOf exclusive)).1)
  | .nextPageThrows txnId =>
    match s.pool.bm.fixPage txnId s.nextPage .exclusive with
    | (_, .frame _) => none
    | (bm', _) => some (s.withBm bm').countPage
  | .flushPage pageId => some (s.flush (s.pool.bm.flushPage pageId))
  | .flushAllPages => some (s.flush s.pool.bm.flushAllPages)
  | .transactionComplete txnId =>
    some { s.flush (s.pool.bm.transactionComplete txnId) with
      grants := s.grants.map (Grant.commit txnId) }
  | .transactionAbort txnId =>
    let s := { s with grants := s.grants.filter fun g => g.txnId ≠ txnId ∨ g.committed }
    some (s.drop (s.pool.bm.transactionAbort txnId) s.pool.addresses s.pool.distinct)
  | .discardPage pageId =>
    some (s.drop (s.pool.bm.discardPage pageId) s.pool.addresses s.pool.distinct)
  | .discardPages txnId =>
    some (s.drop (s.pool.bm.discardPages txnId) s.pool.addresses s.pool.distinct)
  | .discardAllPages addresses distinct =>
    some (s.drop s.pool.bm.discardAllPages addresses distinct)

/-- What committed transactions have obtained is on disk: the slot has the size that they have asked
for, and `allocate` has not returned the `TID` or any of its bytes again. -/
structure Durable : Prop where
  stored : ∀ g ∈ s.grants, g.committed = true →
    s.pool.bm.OnDisk g.page ∧ g.SlotIn (s.pool.bm.image g.page) ∧
      SlottedPage.slotLength g.slot = g.size
  apart : s.grants.Pairwise fun later g => g.committed = true → later.Apart g

/-! ## Calls that keep it -/

/-- The segment without its grants. -/
def base : Reloading.State where
  segment := s.segment
  pool := s.pool
  tids := []
  origin := s.origin
  size := fun _ => 0
  written := fun _ => []

/-- The page has a frame, or its segment file has had it. -/
def There (p : UInt64) : Prop := (s.pool.bm.pageTable p).isSome ∨ s.filed p = true

instance (p : UInt64) : Decidable (s.There p) := inferInstanceAs (Decidable (_ ∨ _))

/-- All pages of the segment are there. -/
def AllThere : Prop := ∀ p ∈ s.segment.pages, s.There p

instance : Decidable s.AllThere := List.decidableBAll _ _

/-- `transaction_complete` writes the page back. -/
def WritesBack (t p : UInt64) : Prop :=
  p ∈ SetMap.get s.pool.bm.txnPages t ∧
    ((s.pool.bm.pageTable p).any fun f => (s.pool.bm.pool f).dirty) = true

instance (t p : UInt64) : Decidable (s.WritesBack t p) := inferInstanceAs (Decidable (_ ∧ _))

/-- The `TID` names a slot of a page of the segment. -/
def InUse (tid : UInt64) : Prop :=
  overallPageIdOf s.segment.segmentId tid ∈ s.segment.pages ∧
    (slotIdOf tid).toNat < slotCountOf (view s.pool (overallPageIdOf s.segment.segmentId tid))

instance (tid : UInt64) : Decidable (s.InUse tid) := inferInstanceAs (Decidable (_ ∧ _))

/-- What a call has to meet.  A transaction that completes has lost nothing, and each page in which it
has allocated is dirty, or as the segment file has it.  Calls use pages that are there, where they
were constructed; a page that takes a record has room for its slot; and records are written to slots
that are in use.  A `fix_page` that is refused finds its page in the pool, and an `allocate` throws at
its next page only because no frame is free. -/
def Meets : Action → Prop
  | .allocate txnId size =>
    s.AllThere ∧ s.segment.Fitting s.pool size ∧ s.base.Stays (.allocate txnId size)
  | .write _ tid _ =>
    s.InUse tid ∧ s.There (overallPageIdOf s.segment.segmentId tid) ∧
      s.base.AtOrigin 0 (overallPageIdOf s.segment.segmentId tid)
  | .read _ tid _ =>
    overallPageIdOf s.segment.segmentId tid ∈ s.segment.pages →
      s.There (overallPageIdOf s.segment.segmentId tid)
  | .fixPage txnId pageId exclusive =>
    ((s.pool.bm.pageTable pageId).isSome ∨
        (s.pool.bm.fixPage txnId pageId (HeapSystem.modeOf exclusive)).2 ≠ .abort) ∧
      (pageId ∈ s.segment.pages → s.There pageId)
  | .nextPageThrows txnId =>
    (s.pool.bm.fixPage txnId s.nextPage .exclusive).2 = .bufferFull ∧
      s.segment.pageCount.toNat + 1 < 2 ^ 48
  | .transactionComplete txnId =>
    ∀ g ∈ s.grants, g.txnId = txnId → g.committed = false → g.lost = false ∧
      (s.WritesBack txnId g.page ∨ s.pool.bm.Saved g.page)
  | _ => True

instance : DecidablePred s.Meets
  | .allocate _ _ => inferInstanceAs (Decidable (s.AllThere ∧ _ ∧ _))
  | .write _ _ _ => inferInstanceAs (Decidable (_ ∧ _ ∧ _))
  | .read _ _ _ => inferInstanceAs (Decidable (_ → _))
  | .fixPage _ _ _ => inferInstanceAs (Decidable (_ ∧ (_ → _)))
  | .nextPageThrows _ => inferInstanceAs (Decidable (_ ∧ _))
  | .transactionComplete _ => List.decidableBAll _ _
  | .flushPage _ => isTrue trivial
  | .flushAllPages => isTrue trivial
  | .transactionAbort _ => isTrue trivial
  | .discardPage _ => isTrue trivial
  | .discardPages _ => isTrue trivial
  | .discardAllPages _ _ => isTrue trivial

/-! ## The invariant -/

/-- The bytes are a page that was constructed where `origin` says. -/
structure IsPage (p : UInt64) (data : List UInt8) : Prop where
  formatted : Formatted p data
  pointer : SlottedPage.bufferFrame data = s.origin p

/-- The grant is in its page. -/
structure Granted (g : Grant) : Prop where
  page : g.page = overallPageIdOf s.segment.segmentId g.tid
  member : g.page ∈ s.segment.pages
  there : s.There g.page
  slot : g.SlotIn (view s.pool g.page)

/-- Pages that are there are pages, in their frames and in the segment file; grants that are not lost
are in them, and those of committed transactions in the segment file as well. -/
structure Inv : Prop where
  wf : s.pool.bm.Wf
  few : s.segment.pageCount.toNat < 2 ^ 48
  shown : ∀ p ∈ s.segment.pages, s.There p → s.IsPage p (view s.pool p)
  filed : ∀ p ∈ s.segment.pages, s.filed p = true →
    s.pool.bm.OnDisk p ∧ s.IsPage p (s.pool.bm.image p)
  granted : ∀ g ∈ s.grants, g.lost = false → s.Granted g
  sized : ∀ g ∈ s.grants, SlottedPage.slotLength g.slot = g.size
  committed : ∀ g ∈ s.grants, g.committed = true → g.lost = false ∧ s.filed g.page = true ∧
    g.SlotIn (s.pool.bm.image g.page)
  apart : s.grants.Pairwise fun later g => g.lost = false → later.Apart g

variable {s} {s' : State} {bm' : BufferManager UInt8} {pool : HeapSystem} {segment' : HeapSegment}
  {p q : UInt64} {f : Nat} {txnId tid t : UInt64} {record before data : List UInt8}
  {size capacity : UInt32} {exclusive : Bool} {g other : Grant} {action : Action}

theorem Inv.new (segmentId : UInt16) (pageSize pageCount : Nat) (disk : Disk UInt8)
    (addresses : List UInt64) (distinct : addresses.Nodup) :
    (new segmentId pageSize pageCount disk addresses distinct).Inv where
  wf := BufferManager.Wf.new pageSize pageCount disk
  few := show 0 < 2 ^ 48 by decide
  shown _ impossible := (List.not_mem_nil impossible).elim
  filed _ impossible := (List.not_mem_nil impossible).elim
  granted _ impossible := (List.not_mem_nil impossible).elim
  sized _ impossible := (List.not_mem_nil impossible).elim
  committed _ impossible := (List.not_mem_nil impossible).elim
  apart := List.Pairwise.nil

/-- The invariant makes grants durable. -/
theorem Inv.durable (inv : s.Inv) : s.Durable where
  stored g member committed := by
    obtain ⟨alive, isFiled, slot⟩ := inv.committed g member committed
    have onDisk := (inv.filed g.page (inv.granted g member alive).member isFiled).1
    exact ⟨onDisk, slot, inv.sized g member⟩
  apart := by
    refine inv.apart.imp_of_mem fun {later g} _ member apart committed => ?_
    exact apart (inv.committed g member committed).1

/-- Every page id of a segment is valid. -/
theorem valid_of_mem (few : s.segment.pageCount.toNat < 2 ^ 48) (member : p ∈ s.segment.pages) :
    p ≠ invalidPageId := by
  obtain ⟨k, isPage, rfl⟩ := mem_pages.mp member
  intro same
  have number := congrArg UInt64.toNat same
  have segment := s.segment.segmentId.toNat_lt
  rw [toNat_getOverallPageId (Nat.lt_trans isPage few),
    show invalidPageId.toNat = 2 ^ 64 - 1 from rfl] at number
  omega

/-- A page that is there is shown to callers. -/
theorem Inv.whole (inv : s.Inv) (member : p ∈ s.segment.pages) (there : s.There p) :
    Whole s.pool p := by
  rcases there with mapped | isFiled
  · exact Or.inl mapped
  · exact Or.inr (inv.filed p member isFiled).1

/-! ## Pages that move -/

/-- Frames and the segment file have pages as one of the two has had them. -/
structure Moves (s s' : State) : Prop where
  segment : s'.segment = s.segment
  origin : s'.origin = s.origin
  wf : s'.pool.bm.Wf
  shown : ∀ p ∈ s.segment.pages, s'.There p →
    (s.There p ∧ view s'.pool p = view s.pool p) ∨
      (s.filed p = true ∧ view s'.pool p = s.pool.bm.image p)
  filed : ∀ p ∈ s.segment.pages, s'.filed p = true → s'.pool.bm.OnDisk p ∧
    ((s.filed p = true ∧ s'.pool.bm.image p = s.pool.bm.image p) ∨
      (s.There p ∧ s'.pool.bm.image p = view s.pool p))

/-- The pages stay pages. -/
theorem Inv.moves (inv : s.Inv) (moves : Moves s s') :
    (∀ p ∈ s.segment.pages, s'.There p → s'.IsPage p (view s'.pool p)) ∧
      ∀ p ∈ s.segment.pages, s'.filed p = true →
        s'.pool.bm.OnDisk p ∧ s'.IsPage p (s'.pool.bm.image p) := by
  have same : ∀ {p data}, s.IsPage p data → s'.IsPage p data := fun isPage =>
    ⟨isPage.formatted, by rw [moves.origin]; exact isPage.pointer⟩
  refine ⟨fun p member there => ?_, fun p member isFiled => ?_⟩
  · rcases moves.shown p member there with ⟨before, equal⟩ | ⟨before, equal⟩
    · exact equal ▸ same (inv.shown p member before)
    · exact equal ▸ same (inv.filed p member before).2
  · obtain ⟨onDisk, ⟨before, equal⟩ | ⟨before, equal⟩⟩ := moves.filed p member isFiled
    · exact ⟨onDisk, equal ▸ same (inv.filed p member before).2⟩
    · exact ⟨onDisk, equal ▸ same (inv.shown p member before)⟩

/-- Fewer grants. -/
theorem Inv.sublist {grants : List Grant} (inv : s.Inv) (fewer : grants.Sublist s.grants) :
    ({ s with grants } : State).Inv where
  wf := inv.wf
  few := inv.few
  shown p member there := by
    obtain ⟨formatted, pointer⟩ := inv.shown p member there
    exact ⟨formatted, pointer⟩
  filed p member isFiled := by
    obtain ⟨onDisk, formatted, pointer⟩ := inv.filed p member isFiled
    exact ⟨onDisk, formatted, pointer⟩
  granted g member alive := by
    obtain ⟨page, isPage, there, slot⟩ := inv.granted g (fewer.subset member) alive
    exact ⟨page, isPage, there, slot⟩
  sized g member := inv.sized g (fewer.subset member)
  committed g member := inv.committed g (fewer.subset member)
  apart := inv.apart.sublist fewer

end State

end Allocations

end BuzzDB.Locking
