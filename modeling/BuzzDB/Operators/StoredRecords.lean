import BuzzDB.Heap.FixedRecords
import BuzzDB.Heap.RecordIsolation
import BuzzDB.Operators.LiveRecords

/-!
# Scans of stored records

From `HeapSegment` to `SeqScan`: the records that calls of `allocate` and `write` have left in a
segment, behind `flush_all_pages`, are what a scan with a buffer manager of its own returns, in the
order in which they were allocated.
-/

namespace BuzzDB.Operators

open FramePool HeapSegment HeapState PagePool Recovery

/-- A record, with the page of the segment and the slot that its `TID` tells. -/
def foundAt (numFields : UInt64) (t : UInt64) (record : List UInt8) : Found :=
  ⟨(t >>> 16).toNat, (slotIdOf t).toNat, fieldsOf numFields.toNat record⟩

variable {numFields overallPageId p : UInt64} {size : UInt32} {s s' : HeapState HeapSystem}
  {data : List UInt8} {slot n k : Nat} {tableId : UInt16}

/-! ## Pages of stored records -/

/-- The pages of the segment, by their index. -/
theorem pages_eq (s : HeapState HeapSystem) : s.segment.pages =
    (List.range s.segment.pageCount.toNat).map (pageIdOf s.segment.segmentId) := rfl

theorem mem_pages_of_lt (isPage : k < s.segment.pageCount.toNat) :
    pageIdOf s.segment.segmentId k ∈ s.segment.pages := by
  rw [pages_eq]
  exact List.mem_map.mpr ⟨k, List.mem_range.mpr isPage, rfl⟩

/-- The page of a record of its segment. -/
theorem shiftRight_tid (tableId : UInt16) (few : k < 2 ^ 48) (slot : UInt16) :
    (tid (pageIdOf tableId k) slot >>> 16).toNat = k ∧
      overallPageIdOf tableId (tid (pageIdOf tableId k) slot) = pageIdOf tableId k := by
  have index : (UInt64.ofNat k).toNat = k := UInt64.toNat_ofNat_of_lt' (by change _ < 2 ^ 64; omega)
  refine ⟨?_, overallPageIdOf_tid (by rw [index]; exact few)⟩
  have slot_lt := slot.toNat_lt
  rw [UInt64.toNat_shiftRight, toNat_tid, pageIdOf, toNat_getOverallPageId (by rw [index]; exact few),
    index]
  change _ >>> 16 = _
  rw [Nat.shiftRight_eq_div_pow]
  omega

/-- A page of records of one size is one that a scan can read. -/
theorem readable_of_formatted (formatted : Formatted p data) (isSize : size.toNat = 4 * numFields.toNat)
    (lengths : ∀ slot < slotCountOf data,
      SlottedPage.slotLength (SlottedPage.slotsOf data slot) = size) : Readable numFields p data where
  pageId := formatted.pageId
  first := (congrArg UInt16.toNat formatted.inv.first).le
  room := by
    have free := formatted.inv.free
    have start := formatted.inv.start
    have truncated : (UInt32.ofNat data.length).toNat ≤ data.length := by
      rw [UInt32.toNat_ofNat']
      exact Nat.mod_le _ _
    change 32 + 8 * (SlottedPage.ofBytes data).header.slotCount.toNat ≤ _
    omega
  records slot isSlot _ := by
    obtain ⟨behind, inside⟩ := formatted.inside isSlot
    refine ⟨(Nat.le_add_right 32 _).trans behind, inside, ?_⟩
    rw [lengths slot isSlot]
    exact isSize

/-- No slot of the segment is ever freed. -/
theorem compact_of_formatted (formatted : Formatted p data) : Compact data := by
  intro slot isSlot
  have first : (SlottedPage.headerOf data).firstFreeSlot = (SlottedPage.headerOf data).slotCount :=
    formatted.inv.first
  rw [first]
  exact iff_of_true (formatted.inv.full slot isSlot) isSlot

/-- What a scan returns of a page, by the `TID`s of its slots. -/
theorem liveSlots_tids (formatted : Formatted (pageIdOf s.segment.segmentId k) data) (few : k < 2 ^ 48)
    (isView : view s.pool (pageIdOf s.segment.segmentId k) = data)
    (readable : Readable numFields (pageIdOf s.segment.segmentId k) data) :
    (liveSlots data).map (tupleAt numFields data k) =
      (tidsOf s.pool (pageIdOf s.segment.segmentId k)).map fun t =>
        foundAt numFields t (s.segment.contentOf s.pool t) := by
  have first : (SlottedPage.headerOf data).firstFreeSlot = (SlottedPage.headerOf data).slotCount :=
    formatted.inv.first
  rw [readable.liveSlots_eq (compact_of_formatted formatted), first, tidsOf, isView, List.map_map]
  refine List.map_congr_left fun slot member => ?_
  have isSlot : slot < (SlottedPage.headerOf data).slotCount.toNat := List.mem_range.mp member
  have small := (SlottedPage.headerOf data).slotCount.toNat_lt
  have index : (UInt16.ofNat slot).toNat = slot :=
    UInt16.toNat_ofNat_of_lt' (by change _ < 2 ^ 16; omega)
  obtain ⟨page, overall⟩ := shiftRight_tid s.segment.segmentId few (UInt16.ofNat slot)
  rw [Function.comp_apply, tupleAt, foundAt, page, contentOf, regionOf, slotOf, overall, slotIdOf_tid,
    index, isView]
  rfl

section Stored

variable (filled : s.Filled size) (isSize : size.toNat = 4 * numFields.toNat)

include filled isSize

theorem table_of_filled {pages : Nat → List UInt8}
    (views : ∀ k < s.segment.pageCount.toNat,
      pages k = view s.pool (pageIdOf s.segment.segmentId k)) :
    Table s.segment.segmentId s.segment.pageCount numFields pages where
  few := filled.kept.holds.few
  readable k isPage := by
    rw [views k isPage]
    exact readable_of_formatted (filled.kept.holds.pages _ (mem_pages_of_lt isPage)).2 isSize
      (filled.lengths _ (mem_pages_of_lt isPage))

/-- The live records are the stored ones, in the order in which they were allocated. -/
theorem liveRecords_of_filled {pages : Nat → List UInt8}
    (views : ∀ k < s.segment.pageCount.toNat,
      pages k = view s.pool (pageIdOf s.segment.segmentId k)) :
    liveRecords numFields pages s.segment.pageCount.toNat =
      s.tids.reverse.map fun t => foundAt numFields t (s.segment.contentOf s.pool t) := by
  have table := table_of_filled filled isSize views
  rw [liveRecords, filled.order, pages_eq, List.flatMap_map, List.map_flatMap]
  refine List.flatMap_congr fun k member => ?_
  have isPage := List.mem_range.mp member
  have formatted := (filled.kept.holds.pages _ (mem_pages_of_lt isPage)).2
  have readable := table.readable k isPage
  rw [← views k isPage] at formatted
  exact liveSlots_tids formatted (isPage.trans filled.kept.holds.few) (views k isPage).symm readable

end Stored

/-! ## Flushed segments -/

section Flushed

variable {pageSize pageCount : Nat} {pageSize_lt : pageSize < 2 ^ 64} {disk : Disk UInt8}
  {logFile : List UInt8} {addresses : List UInt64} {distinct : addresses.Nodup}

/-- The disk behind `flush_all_pages` has what the segment shows. -/
theorem pagesOf_flushed (wf : Wf s.pool) (isSize : FramePool.pageSize s.pool = pageSize) (k : Nat) :
    pagesOf pageSize s.pool.sys.bm.flushAllPages.disk tableId k = view s.pool (pageIdOf tableId k) := by
  have flushed := BufferManager.Wf.flushAllPages wf
  subst isSize
  exact List.map_congr_left fun i _ => flushed.durable (pageIdOf tableId k) i

/-- A scan of a flushed segment, with a buffer manager of its own, returns the records in the order in
which they were allocated, if its pool has a frame for each page. -/
theorem enumerates_of_filled (filled : s.Filled size) (isSize : size.toNat = 4 * numFields.toNat)
    (pages : FramePool.pageSize s.pool = pageSize) (enough : addresses.length = pageCount) :
    Enumeration.Enumerates SeqScan.next SeqScan.reset
        (SeqScan.new s.segment.segmentId s.segment.pageCount numFields
          (.new pageSize pageSize_lt pageCount s.pool.sys.bm.flushAllPages.disk logFile addresses
            distinct)).reset
        (s.tids.reverse.map fun t => foundAt numFields t (s.segment.contentOf s.pool t)) ↔
      ∀ k < s.segment.pageCount.toNat, k + 1 < pageCount := by
  have views : ∀ k < s.segment.pageCount.toNat,
      pagesOf pageSize s.pool.sys.bm.flushAllPages.disk s.segment.segmentId k =
        view s.pool (pageIdOf s.segment.segmentId k) :=
    fun k _ => pagesOf_flushed filled.kept.holds.wf pages k
  have table := table_of_filled filled isSize views
  rw [← liveRecords_of_filled filled isSize views, table.enumerates_iff enough]
  refine and_iff_right fun k isPage => ?_
  rw [views k isPage]
  exact compact_of_formatted (filled.kept.holds.pages _ (mem_pages_of_lt isPage)).2

end Flushed

/-- Whatever calls of `allocate` and `write` have been made on a new segment with records of one size: a
scan of the flushed segment returns each record once, in the order in which they were allocated, at the
position that its `TID` tells, with what the writes have left in it, exactly if its pool has a frame for
each page. -/
theorem scan_of_run {pageSize : Nat} {pageSize_lt : pageSize < 2 ^ 64} {pageCount : Nat}
    {disk : Disk UInt8} {logFile : List UInt8} {addresses : List UInt64} {distinct : addresses.Nodup}
    {actions : List (HeapAction HeapSystem)} (snug : Snug pageSize size)
    (isSize : size.toNat = 4 * numFields.toNat)
    (along : Machine.Along HeapState.step (OfSize size)
      (openRecovery tableId pageSize pageSize_lt pageCount disk logFile addresses distinct) actions)
    (ran : Machine.run HeapState.step
      (openRecovery tableId pageSize pageSize_lt pageCount disk logFile addresses distinct) actions =
        some s) :
    ∃ first : UInt64 → List UInt8, (∀ t ∈ s.tids, (first t).length = size.toNat) ∧
      ∀ capacity logFile' addresses' (distinct' : addresses'.Nodup), addresses'.length = capacity →
        (Enumeration.Enumerates SeqScan.next SeqScan.reset
            (SeqScan.new tableId s.segment.pageCount numFields
              (.new pageSize pageSize_lt capacity s.pool.sys.bm.flushAllPages.disk logFile' addresses'
                distinct')).reset
            (s.tids.reverse.map fun t =>
              foundAt numFields t (actions.foldl (rewritten t) (first t))) ↔
          ∀ k < s.segment.pageCount.toNat, k + 1 < capacity) := by
  have start : (openRecovery tableId pageSize pageSize_lt pageCount disk logFile addresses
      distinct).Filled size :=
    Filled.new (BufferManager.Wf.new pageSize pageSize_lt pageCount disk) tableId size
  obtain ⟨filled, pages, records⟩ := start.run snug along ran
  have contents : ∀ t, ∃ record : List UInt8, t ∈ s.tids → record.length = size.toNat ∧
      s.segment.contentOf s.pool t = actions.foldl (rewritten t) record := by
    intro t
    by_cases member : t ∈ s.tids
    · obtain ⟨record, isRecord⟩ := records.new t member List.not_mem_nil
      exact ⟨record, fun _ => isRecord⟩
    · exact ⟨[], fun there => absurd there member⟩
  choose first isFirst using contents
  refine ⟨first, fun t member => (isFirst t member).1,
    fun capacity logFile' addresses' distinct' enough => ?_⟩
  have isTable : s.segment.segmentId = tableId := records.segmentId
  have tuples : (s.tids.reverse.map fun t => foundAt numFields t (actions.foldl (rewritten t) (first t))) =
      s.tids.reverse.map fun t => foundAt numFields t (s.segment.contentOf s.pool t) :=
    List.map_congr_left fun t member => by rw [(isFirst t (List.mem_reverse.mp member)).2]
  rw [tuples, ← isTable]
  exact enumerates_of_filled filled isSize pages enough

/-- Two records of two fields, of which the first one is written twice. -/
def writtenTwice : List (HeapAction HeapSystem) :=
  [.allocate (0 : UInt64) 8, .write (0 : UInt64) 0 [1, 0, 0, 0, 2], .allocate (0 : UInt64) 8,
    .write (0 : UInt64) 0 [3]]

/-- The scan returns both of them, the first one as 3 and whatever is behind it. -/
theorem scan_of_run_twice : ∃ s ∈ Machine.run HeapState.step recoverySegment writtenTwice,
    ∃ first : UInt64 → List UInt8, Enumeration.Enumerates SeqScan.next SeqScan.reset
      (SeqScan.new 7 s.segment.pageCount 2
        (.new 128 (by decide) 2 s.pool.sys.bm.flushAllPages.disk [] [10, 20] (by decide))).reset
      (s.tids.reverse.map fun t => foundAt 2 t (writtenTwice.foldl (rewritten t) (first t))) := by
  have runs : ∃ s ∈ Machine.run HeapState.step recoverySegment writtenTwice,
      s.segment.pageCount = 1 := by
    decide +kernel
  obtain ⟨s, ran, isOne⟩ := runs
  obtain ⟨first, -, scans⟩ := scan_of_run (show Snug 128 8 by decide)
    (show (8 : UInt32).toNat = 4 * (2 : UInt64).toNat from rfl) (by decide +kernel) ran
  refine ⟨s, ran, first, (scans 2 [] [10, 20] (by decide) rfl).mpr fun k isPage => ?_⟩
  rw [isOne] at isPage
  exact Nat.succ_lt_succ isPage

end BuzzDB.Operators
