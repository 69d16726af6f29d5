import BuzzDB.Heap.Reopening

/-!
# Records of one size

A segment whose records all have the same size, as a table has whose tuples are rows of numbers.  Its
pages fill one after the other: `allocate` takes the first page with space, and a page that has none
left never has any again, so that the records lie in the segment in the order in which they were
allocated.

In a page of a `Snug` size, of at most 65536 bytes, whatever is too small for one more record and its slot is too small for
the record alone, so that `allocate` does not accept a record that leaves no room for its slot.
-/

namespace BuzzDB

open FramePool PagePool HeapSegment

/-- The pages have room for a record, and what a full page has left is less than one.  They have at most
65536 bytes, so that a `uint16_t` counts their slots. -/
structure Snug (pageSize : Nat) (size : UInt32) : Prop where
  small : pageSize ≤ 65536
  room : 40 + size.toNat ≤ pageSize
  rest : (pageSize - 32) % (size.toNat + 8) < size.toNat

instance (pageSize : Nat) (size : UInt32) : Decidable (Snug pageSize size) :=
  decidable_of_iff (pageSize ≤ 65536 ∧ 40 + size.toNat ≤ pageSize ∧
      (pageSize - 32) % (size.toNat + 8) < size.toNat)
    ⟨fun ⟨small, room, rest⟩ => ⟨small, room, rest⟩, fun ⟨small, room, rest⟩ => ⟨small, room, rest⟩⟩

/-- A page that takes one of these records has room for its slot as well. -/
theorem Snug.fits {pageSize free count : Nat} {size : UInt32} (snug : Snug pageSize size)
    (space : free + count * (size.toNat + 8) + 32 = pageSize) (accepted : size.toNat ≤ free) :
    size.toNat + 8 ≤ free := by
  by_contra short
  have left : pageSize - 32 = free + count * (size.toNat + 8) := by omega
  have rest := snug.rest
  rw [left, Nat.add_mul_mod_self_right, Nat.mod_eq_of_lt (by omega)] at rest
  omega

namespace HeapSegment

/-- The `TID`s of the slots of a page. -/
def tidsOf {σ : Type} [PagePool σ] (s : σ) (p : UInt64) : List UInt64 :=
  (List.range (slotCountOf (view s p))).map fun slot => tid p (UInt16.ofNat slot)

theorem toNat_next {k : UInt64} (few : k.toNat + 1 < 2 ^ 48) : (k + 1).toNat = k.toNat + 1 := by
  rw [UInt64.toNat_add]
  exact Nat.mod_eq_of_lt (by change _ + 1 < _; omega)

/-- A segment with one page more. -/
theorem pages_next {segment segment' : HeapSegment} (few : segment.pageCount.toNat + 1 < 2 ^ 48)
    (segmentId : segment'.segmentId = segment.segmentId)
    (pageCount : segment'.pageCount = segment.pageCount + 1) :
    segment'.pages = segment.pages ++ [getOverallPageId segment.segmentId segment.pageCount] := by
  rw [pages, pageCount, toNat_next few, segmentId, List.range_succ, List.map_append, List.map_singleton,
    UInt64.ofNat_toNat, pages]

end HeapSegment

namespace HeapState

variable {σ : Type} [HeapManager σ]

/-- A call of a segment whose records have `size` bytes. -/
def OfSize (size : UInt32) (s : HeapState σ) : HeapAction σ → Prop
  | .allocate _ size' => size' = size ∧ s.segment.pageCount.toNat + 1 < 2 ^ 48
  | .write _ tid record => tid ∈ s.tids ∧ record.length ≤ size.toNat

instance (size : UInt32) (s : HeapState σ) : DecidablePred (s.OfSize size)
  | .allocate _ _ => inferInstanceAs (Decidable (_ ∧ _))
  | .write _ _ _ => inferInstanceAs (Decidable (_ ∧ _))

/-- The pages are filled one after the other, and the `TID`s are those of their slots in order. -/
structure Filled (size : UInt32) (s : HeapState σ) : Prop where
  kept : s.Kept
  lengths : ∀ p ∈ s.segment.pages, ∀ slot < slotCountOf (view s.pool p),
    SlottedPage.slotLength (SlottedPage.slotsOf (view s.pool p) slot) = size
  space : ∀ p ∈ s.segment.pages, (freeSpaceOf s.pool p).toNat +
    slotCountOf (view s.pool p) * (size.toNat + 8) + 32 = pageSize s.pool
  used : ∀ p ∈ s.segment.pages, 0 < slotCountOf (view s.pool p)
  full : ∀ p ∈ s.segment.pages.dropLast, ¬ size ≤ freeSpaceOf s.pool p
  order : s.tids.reverse = s.segment.pages.flatMap (tidsOf s.pool)

variable {s s' : HeapState σ} {size size' : UInt32} {caller : HeapManager.Caller σ} {action : HeapAction σ} {t p : UInt64}
  {segment' : HeapSegment} {pool' : σ} {before data' : List UInt8}

theorem Filled.new {pool : σ} (wf : Wf pool) (segmentId : UInt16) (size : UInt32) :
    (HeapState.new segmentId pool).Filled size := by
  have none : (HeapState.new segmentId pool).segment.pages = [] := rfl
  refine ⟨Kept.new wf segmentId, ?_, ?_, ?_, ?_, rfl⟩ <;> rw [none]
  · exact fun p impossible => (List.not_mem_nil impossible).elim
  · exact fun p impossible => (List.not_mem_nil impossible).elim
  · exact fun p impossible => (List.not_mem_nil impossible).elim
  · exact fun p impossible => (List.not_mem_nil impossible).elim

/-- A page of the segment has the size of the pages. -/
theorem Kept.length_view (kept : s.Kept) (member : p ∈ s.segment.pages) :
    (view s.pool p).length = pageSize s.pool := by
  obtain ⟨f, home, _⟩ := kept.inPlace p member
  rw [(shown s.pool p f kept.holds.wf home).2]
  exact sized s.pool p f kept.holds.wf home

/-- The slot of a `TID` describes a record of that size. -/
theorem Filled.slotLength (filled : s.Filled size) (member : t ∈ s.tids) :
    SlottedPage.slotLength (s.segment.slotOf s.pool t) = size := by
  obtain ⟨page, slot⟩ := filled.kept.holds.names t member
  exact filled.lengths _ page _ slot

/-- The calls are contained. -/
theorem Filled.contained (filled : s.Filled size) (snug : Snug (pageSize s.pool) size)
    (ofSize : s.OfSize size action) : s.Contained action := by
  cases action with
  | write caller tid record =>
    obtain ⟨member, short⟩ := ofSize
    refine ⟨member, ?_⟩
    rw [filled.slotLength member]
    exact short
  | allocate caller size' =>
    obtain ⟨rfl, few⟩ := ofSize
    have small := snug.small
    have room := snug.room
    change s.segment.Fitting s.pool size'
    unfold Fitting
    split
    · rename_i p isPage
      have member := List.mem_of_find?_eq_some isPage
      have accepted : size' ≤ freeSpaceOf s.pool p := by
        simpa using List.find?_some isPage
      have fits := snug.fits (filled.space p member) (UInt32.le_iff_toNat_le.mp accepted)
      have formatted := (filled.kept.holds.pages p member).2
      refine ⟨fits, formatted.inv.describes ?_ (UInt32.le_iff_toNat_le.mp accepted)⟩
      rw [filled.kept.length_view member, UInt32.toNat_ofNat']
      omega
    · have isSize : (UInt32.ofNat (pageSize s.pool)).toNat = pageSize s.pool :=
        UInt32.toNat_ofNat_of_lt' (by change _ < 2 ^ 32; omega)
      have inv : (emptyPage s.pool).Inv (UInt32.ofNat (pageSize s.pool)) :=
        SlottedPage.Inv.new _ (by omega)
      have free := inv.free
      have start : (emptyPage s.pool).header.dataStart.toNat = pageSize s.pool := isSize
      have none : (emptyPage s.pool).header.slotCount.toNat = 0 := rfl
      have fits : (emptyPage s.pool).Fits size' := by
        unfold SlottedPage.Fits
        omega
      refine ⟨few, by omega, fits, inv.describes (by omega) ?_⟩
      exact (Nat.le_add_right _ 8).trans fits

/-! ## Allocating -/

/-- What the page that takes the record has behind the call. -/
structure Taken (size : UInt32) (before data' : List UInt8) : Prop where
  slotCount : slotCountOf data' = slotCountOf before + 1
  free : (SlottedPage.headerOf data').freeSpace.toNat + (size.toNat + 8) =
    (SlottedPage.headerOf before).freeSpace.toNat
  length : SlottedPage.slotLength (SlottedPage.slotsOf data' (slotCountOf before)) = size
  others : ∀ slot < slotCountOf before,
    SlottedPage.slotsOf data' slot = SlottedPage.slotsOf before slot

theorem taken (allocates : Allocates s.segment s.pool size segment' pool' t p before data') :
    Taken size before data' := by
  have adds := allocates.formatted.inv.adds_of_describes allocates.describes allocates.grows.stepped
  have free := adds.toNat_freeSpace allocates.formatted.inv allocates.fits
  have old := allocates.formatted.inv.free
  have slotCount := adds.slotCount
  have dataStart := adds.dataStart
  have offset := allocates.describes.offset
  have fits : size.toNat + 8 ≤ (SlottedPage.ofBytes before).header.freeSpace.toNat := allocates.fits
  refine ⟨slotCount, ?_, ?_, adds.others⟩
  · change (SlottedPage.ofBytes data').header.freeSpace.toNat + _ =
      (SlottedPage.ofBytes before).header.freeSpace.toNat
    omega
  · have new : SlottedPage.slotsOf data' (slotCountOf before) = _ := adds.new
    rw [new]
    exact UInt32.toNat_inj.mp (SlottedPage.toNat_slotLength (by omega) allocates.describes.length)

/-- The new slot is the next one of its page. -/
theorem tidsOf_taken (allocates : Allocates s.segment s.pool size segment' pool' t p before data') :
    tidsOf pool' p = ((List.range (slotCountOf before)).map fun slot => tid p (UInt16.ofNat slot)) ++
      [t] := by
  have last : UInt16.ofNat (slotCountOf before) = (SlottedPage.headerOf before).slotCount :=
    UInt16.ofNat_toNat
  rw [tidsOf, allocates.puts.self.2, (taken allocates).slotCount, List.range_succ, List.map_append,
    List.map_singleton, last, allocates.tid]

/-- Where an `allocate` has put its record: behind all others, in the last page. -/
structure Placed (size : UInt32) (s : HeapState σ) (segment' : HeapSegment) (pool' : σ) (t p : UInt64)
    (front : List UInt64) : Prop where
  pages : segment'.pages = front ++ [p]
  old : ∀ q ∈ front, q ∈ s.segment.pages ∧ q ≠ p ∧ ¬ size ≤ freeSpaceOf s.pool q
  tids : s.segment.pages.flatMap (tidsOf s.pool) ++ [t] = front.flatMap (tidsOf s.pool) ++ tidsOf pool' p
  lengths : ∀ slot < slotCountOf (view pool' p),
    SlottedPage.slotLength (SlottedPage.slotsOf (view pool' p) slot) = size
  space : (freeSpaceOf pool' p).toNat + slotCountOf (view pool' p) * (size.toNat + 8) + 32 =
    pageSize s.pool
  used : 0 < slotCountOf (view pool' p)

/-- The only page that may have space is the last one. -/
theorem Filled.last (filled : s.Filled size) (isPage : s.segment.spacePage s.pool size = some p) :
    s.segment.pages = s.segment.pages.dropLast ++ [p] := by
  have member := List.mem_of_find?_eq_some isPage
  have accepted : size ≤ freeSpaceOf s.pool p := by simpa using List.find?_some isPage
  have nonempty : s.segment.pages ≠ [] := List.ne_nil_of_mem member
  have split := List.dropLast_append_getLast nonempty
  rw [← split] at member
  rcases List.mem_append.mp member with earlier | last
  · exact (filled.full p earlier accepted).elim
  · rw [List.mem_singleton.mp last]
    exact split.symm

theorem Filled.placed_found (filled : s.Filled size)
    (allocates : Allocates s.segment s.pool size s.segment pool' t p before data')
    (isPage : s.segment.spacePage s.pool size = some p) (same : before = view s.pool p) :
    Placed size s s.segment pool' t p s.segment.pages.dropLast := by
  have last := filled.last isPage
  have member := List.mem_of_find?_eq_some isPage
  have taken := taken allocates
  have tids := tidsOf_taken allocates
  have nodup := nodup_pages filled.kept.holds.few
  have lengths := filled.lengths p member
  have space := filled.space p member
  have view' := allocates.puts.self.2
  rw [same] at taken tids
  obtain ⟨slotCount, free, length, others⟩ := taken
  refine ⟨last, fun q earlier => ⟨List.mem_of_mem_dropLast earlier, ?_, filled.full q earlier⟩,
    ?_, ?_, ?_, ?_⟩
  · rintro rfl
    rw [last] at nodup
    exact (List.nodup_append.mp nodup).2.2 q earlier q (List.mem_singleton_self q) rfl
  · rw [tids, ← List.append_assoc]
    congr 1
    conv_lhs => rw [last]
    rw [List.flatMap_append, List.flatMap_singleton, tidsOf]
  · rw [view', slotCount]
    intro slot isSlot
    rcases Nat.lt_succ_iff_lt_or_eq.mp isSlot with earlier | rfl
    · rw [others slot earlier]
      exact lengths slot earlier
    · exact length
  · rw [freeSpaceOf, view', slotCount, Nat.succ_mul]
    unfold freeSpaceOf at space
    omega
  · rw [view', slotCount]
    exact Nat.succ_pos _

/-- A page that has just been constructed points to its own frame. -/
theorem slotFrame_constructed {pool : σ} {f : Nat} {address : UInt64} {pageSize : UInt32}
    {first : List UInt8} (wf : Wf pool) (isAddress : (addresses pool)[f]? = some address)
    (constructed : Constructed p address pageSize (getData pool f) first) :
    slotFrame (setData pool f first) f = some f := by
  rw [slotFrame_iff (by rw [addresses_setData]; exact nodup pool wf), addresses_setData,
    getData_setData_self constructed.length, constructed.pointer]
  exact isAddress

/-- The page that is constructed for a record has the header of an empty page. -/
theorem constructed_next {fixPage : σ → UInt64 → Option (σ × Nat)} {unfix : σ → Nat → σ} {pool : σ}
    {segment : HeapSegment} (fixes : Fixes fixPage) (closes : Closes unfix) (wf : Wf pool)
    (whole : ∀ p ∈ segment.pages, Whole pool p) (isPage : segment.spacePage pool size = none)
    (ran : segment.allocate fixPage unfix pool size = some (pool', segment', t)) :
    ∃ before, (SlottedPage.ofBytes before).header = { (emptyPage pool).header with
        overallPageId := getOverallPageId segment.segmentId segment.pageCount } ∧
      Grows before size (view pool' (getOverallPageId segment.segmentId segment.pageCount)) := by
  rcases allocate_cases ran with ⟨mid, f, added, searched, -⟩ |
    ⟨mid, fixed, f, constructed, added, searched, isFixed, constructs, isAdded, rfl, -⟩
  · obtain ⟨-, p, found, -⟩ := findSpace_found fixes wf whole searched
    rw [isPage] at found
    cases found
  · obtain ⟨keeps, -⟩ := findSpace_none fixes wf whole searched
    obtain ⟨keeps', home⟩ := fixes mid _ fixed f keeps.wf isFixed
    have kept := keeps.trans keeps'
    have sized := sized fixed _ f kept.wf home
    obtain ⟨before, address, isAddress, isConstructed, rfl⟩ := newPage_spec constructs
    have self := getData_setData_self isConstructed.length
    have own := slotFrame_constructed kept.wf isAddress isConstructed
    obtain ⟨data', grows, rfl, -⟩ := addSlot_spec own isAdded
    rw [self] at grows
    refine ⟨before, ?_, ?_⟩
    · rw [isConstructed.page, kept.pageSize]
      rfl
    · rw [setData_setData, (closes fixed _ f data' kept.wf home (by
        rw [grows.length, isConstructed.length]
        exact sized)).self.2]
      exact grows

/-- A page that has just been constructed takes a first record. -/
theorem first_fits {pool : σ} {first : List UInt8} (snug : Snug (pageSize pool) size)
    (header : (SlottedPage.ofBytes first).header =
      { (emptyPage pool).header with overallPageId := p }) :
    (SlottedPage.ofBytes first).Inv (UInt32.ofNat (pageSize pool)) ∧
      (SlottedPage.ofBytes first).Fits size ∧ (SlottedPage.ofBytes first).Describes size ∧
      (SlottedPage.ofBytes first).header.dataStart.toNat = pageSize pool ∧
      (SlottedPage.ofBytes first).header.slotCount.toNat = 0 := by
  have small := snug.small
  have room := snug.room
  have isSize : (UInt32.ofNat (pageSize pool)).toNat = pageSize pool :=
    UInt32.toNat_ofNat_of_lt' (by change _ < 2 ^ 32; omega)
  have start : (SlottedPage.ofBytes first).header.dataStart.toNat = pageSize pool := by
    rw [header]
    exact isSize
  have none : (SlottedPage.ofBytes first).header.slotCount.toNat = 0 := by
    rw [header]
    rfl
  have inv : (SlottedPage.ofBytes first).Inv (UInt32.ofNat (pageSize pool)) := by
    have empty : (emptyPage pool).Inv (UInt32.ofNat (pageSize pool)) :=
      SlottedPage.Inv.new _ (by omega)
    refine empty.congr ?_ fun slot isSlot => ?_
    · rw [header]
    · exact (Nat.not_lt_zero slot isSlot).elim
  have free := inv.free
  have fits : (SlottedPage.ofBytes first).Fits size := by
    unfold SlottedPage.Fits
    omega
  exact ⟨inv, fits, inv.describes (by omega) ((Nat.le_add_right _ 8).trans fits), start, none⟩

/-- The free space of a page with its first record. -/
theorem space_first {pool : σ} {first : List UInt8} (snug : Snug (pageSize pool) size)
    (header : (SlottedPage.ofBytes first).header =
      { (emptyPage pool).header with overallPageId := p }) (grows : Grows first size data') :
    (SlottedPage.headerOf data').freeSpace.toNat + (size.toNat + 8) + 32 = pageSize pool := by
  obtain ⟨inv, fits, describes, start, none⟩ := first_fits snug header
  have adds := inv.adds_of_describes describes grows.stepped
  have free := inv.free
  have free' := adds.toNat_freeSpace inv fits
  have slotCount := adds.slotCount
  have dataStart := adds.dataStart
  have enough : size.toNat + 8 ≤ (SlottedPage.ofBytes first).header.freeSpace.toNat := fits
  change (SlottedPage.ofBytes data').header.freeSpace.toNat + _ + 32 = _
  omega

theorem Filled.placed_next (filled : s.Filled size) (snug : Snug (pageSize s.pool) size)
    (allocates : Allocates s.segment s.pool size segment' pool' t p before data')
    (isPage : s.segment.spacePage s.pool size = none)
    (few : s.segment.pageCount.toNat + 1 < 2 ^ 48)
    (next : p = getOverallPageId s.segment.segmentId s.segment.pageCount)
    (pageCount : segment'.pageCount = s.segment.pageCount + 1)
    (empty : (SlottedPage.headerOf before).slotCount = 0)
    (constructed : ∃ before, (SlottedPage.ofBytes before).header =
        { (emptyPage s.pool).header with overallPageId := p } ∧ Grows before size (view pool' p)) :
    Placed size s segment' pool' t p s.segment.pages := by
  obtain ⟨slotCount, -, length, -⟩ := taken allocates
  have tids := tidsOf_taken allocates
  have noSlot : slotCountOf before = 0 := congrArg UInt16.toNat empty
  rw [noSlot] at slotCount length tids
  have view' := allocates.puts.self.2
  refine ⟨next ▸ pages_next few allocates.segmentId pageCount, fun q member => ⟨member, ?_, ?_⟩,
    ?_, ?_, ?_, ?_⟩
  · rintro rfl
    rw [next] at member
    exact next_not_mem_pages filled.kept.holds.few member
  · intro accepted
    have rejected := List.find?_eq_none.mp isPage q member
    simp [accepted] at rejected
  · rw [tids]
    rfl
  · rw [view', slotCount]
    intro slot isSlot
    obtain rfl := Nat.lt_one_iff.mp isSlot
    exact length
  · obtain ⟨first, header, grows⟩ := constructed
    have space := space_first snug header grows
    rw [freeSpaceOf, view', slotCount]
    rw [view'] at space
    omega
  · rw [view', slotCount]
    exact Nat.one_pos

theorem Filled.placed (filled : s.Filled size) (snug : Snug (pageSize s.pool) size)
    (ofSize : s.OfSize size (.allocate caller size'))
    (stepped : s.step (.allocate caller size') = some s') :
    ∃ t p data' before front, Allocates s.segment s.pool size s'.segment s'.pool t p before data' ∧
      Placed size s s'.segment s'.pool t p front ∧ s'.tids = t :: s.tids := by
  have contained := filled.contained snug ofSize
  obtain ⟨rfl, -⟩ := ofSize
  obtain ⟨⟨pool, segment, tid⟩, ran, same⟩ := Option.bind_eq_some_iff.mp stepped
  cases same
  have holds := filled.kept.holds
  have fixes := HeapManager.fixes (σ := σ) caller true
  obtain ⟨p, before, data', allocates⟩ := allocate_spec fixes
    HeapManager.allocated_closes holds.wf holds.pages contained filled.kept.findsOwn ran
  rcases allocates.place with ⟨isPage, same, rfl⟩ | ⟨isPage, few, next, pageCount, empty, -, -⟩
  · exact ⟨tid, p, data', before, _, allocates, filled.placed_found allocates isPage same, rfl⟩
  · have constructed := constructed_next fixes HeapManager.allocated_closes holds.wf
      (fun p member => (holds.pages p member).1) isPage ran
    rw [← next] at constructed
    exact ⟨tid, p, data', before, _, allocates,
      filled.placed_next snug allocates isPage few next pageCount empty constructed, rfl⟩

theorem Filled.allocate (filled : s.Filled size) (snug : Snug (pageSize s.pool) size)
    (ofSize : s.OfSize size (.allocate caller size'))
    (stepped : s.step (.allocate caller size') = some s') : s'.Filled size := by
  have kept := filled.kept.allocate (filled.contained snug ofSize) stepped
  obtain ⟨t, p, data', before, front, allocates, placed, tids⟩ := filled.placed snug ofSize stepped
  have puts := allocates.puts
  have same : ∀ q ∈ front, q ∈ s.segment.pages ∧ view s'.pool q = view s.pool q := by
    intro q earlier
    obtain ⟨member, different, -⟩ := placed.old q earlier
    exact ⟨member, (puts.others q different (filled.kept.holds.pages q member).1).2⟩
  refine ⟨kept, ?_, ?_, ?_, ?_, ?_⟩
  · rw [placed.pages]
    intro q member
    rcases List.mem_append.mp member with earlier | last
    · obtain ⟨member, same⟩ := same q earlier
      rw [same]
      exact filled.lengths q member
    · rw [List.mem_singleton.mp last]
      exact placed.lengths
  · rw [placed.pages, puts.pageSize]
    intro q member
    rcases List.mem_append.mp member with earlier | last
    · obtain ⟨member, same⟩ := same q earlier
      have space := filled.space q member
      rw [freeSpaceOf] at space ⊢
      rw [same]
      exact space
    · rw [List.mem_singleton.mp last]
      exact placed.space
  · rw [placed.pages]
    intro q member
    rcases List.mem_append.mp member with earlier | last
    · obtain ⟨member, same⟩ := same q earlier
      rw [same]
      exact filled.used q member
    · rw [List.mem_singleton.mp last]
      exact placed.used
  · rw [placed.pages, List.dropLast_concat]
    intro q earlier
    rw [freeSpaceOf, (same q earlier).2]
    exact (placed.old q earlier).2.2
  · have earlier : front.flatMap (tidsOf s'.pool) = front.flatMap (tidsOf s.pool) :=
      List.flatMap_congr fun q member => by rw [tidsOf, (same q member).2, tidsOf]
    rw [tids, List.reverse_cons, filled.order, placed.tids, placed.pages, List.flatMap_append,
      List.flatMap_singleton, earlier]

theorem Filled.write {record : List UInt8} (filled : s.Filled size)
    (snug : Snug (pageSize s.pool) size) (ofSize : s.OfSize size (.write caller t record))
    (stepped : s.step (.write caller t record) = some s') : s'.Filled size := by
  have contained := filled.contained snug ofSize
  have kept := filled.kept.step contained stepped
  obtain ⟨segment, tids, overwrites⟩ := filled.kept.write contained stepped
  have count : ∀ p ∈ s.segment.pages, slotCountOf (view s'.pool p) = slotCountOf (view s.pool p) := by
    intro p member
    rw [slotCountOf, (overwrites.slots p member).header, slotCountOf]
  have free : ∀ p ∈ s.segment.pages, freeSpaceOf s'.pool p = freeSpaceOf s.pool p := by
    intro p member
    rw [freeSpaceOf, (overwrites.slots p member).header, freeSpaceOf]
  refine ⟨kept, ?_, ?_, ?_, ?_, ?_⟩ <;> rw [segment]
  · intro p member slot isSlot
    rw [count p member] at isSlot
    rw [(overwrites.slots p member).slots slot isSlot]
    exact filled.lengths p member slot isSlot
  · intro p member
    rw [count p member, free p member, overwrites.puts.pageSize]
    exact filled.space p member
  · intro p member
    rw [count p member]
    exact filled.used p member
  · intro p member
    rw [free p (List.mem_of_mem_dropLast member)]
    exact filled.full p member
  · rw [tids, filled.order]
    exact List.flatMap_congr fun p member => by rw [tidsOf, tidsOf, count p member]

/-- A call keeps the size of the pages. -/
theorem Filled.step (filled : s.Filled size) (snug : Snug (pageSize s.pool) size)
    (ofSize : s.OfSize size action) (stepped : s.step action = some s') :
    s'.Filled size ∧ pageSize s'.pool = pageSize s.pool := by
  cases action with
  | allocate caller size' =>
    obtain ⟨_, _, _, _, _, allocates, -⟩ := filled.placed snug ofSize stepped
    exact ⟨filled.allocate snug ofSize stepped, allocates.puts.pageSize⟩
  | write caller t record =>
    obtain ⟨-, -, overwrites⟩ := filled.kept.write (filled.contained snug ofSize) stepped
    exact ⟨filled.write snug ofSize stepped, overwrites.puts.pageSize⟩

/-! ## The number of pages -/

/-- How many records a page has room for. -/
def recordsPerPage (pageSize : Nat) (size : UInt32) : Nat := (pageSize - 32) / (size.toNat + 8)

/-- How many pages some records need. -/
def pagesFor (pageSize : Nat) (size : UInt32) (records : Nat) : Nat :=
  (records + recordsPerPage pageSize size - 1) / recordsPerPage pageSize size

theorem recordsPerPage_pos {pageSize : Nat} (snug : Snug pageSize size) :
    0 < recordsPerPage pageSize size :=
  Nat.div_pos (by have := snug.room; omega) (by omega)

theorem pagesFor_mono {pageSize m n : Nat} (le : m ≤ n) :
    pagesFor pageSize size m ≤ pagesFor pageSize size n :=
  Nat.div_le_div_right (by omega)

/-- A page has no more records than there is room for, and a full one has as many. -/
theorem Filled.slotCount (filled : s.Filled size) (member : p ∈ s.segment.pages) :
    slotCountOf (view s.pool p) ≤ recordsPerPage (pageSize s.pool) size ∧
      (¬ size ≤ freeSpaceOf s.pool p →
        slotCountOf (view s.pool p) = recordsPerPage (pageSize s.pool) size) := by
  have space := filled.space p member
  have left : pageSize s.pool - 32 =
      (freeSpaceOf s.pool p).toNat + slotCountOf (view s.pool p) * (size.toNat + 8) := by omega
  rw [recordsPerPage, left, Nat.add_mul_div_right _ _ (show 0 < size.toNat + 8 by omega)]
  refine ⟨Nat.le_add_left _ _, fun full => ?_⟩
  rw [UInt32.le_iff_toNat_le, Nat.not_le] at full
  rw [Nat.div_eq_of_lt (full.trans (Nat.lt_add_of_pos_right (by decide))), Nat.zero_add]

/-- The records of the segment are those of its pages. -/
theorem Filled.tids_length (filled : s.Filled size) :
    s.segment.pages.length = s.segment.pageCount.toNat ∧
      s.tids.length = (s.segment.pages.map fun p => slotCountOf (view s.pool p)).sum := by
  constructor
  · rw [pages, List.length_map, List.length_range]
  · rw [← List.length_reverse, filled.order, List.length_flatMap]
    exact congrArg List.sum (List.map_congr_left fun p _ => by
      rw [tidsOf, List.length_map, List.length_range])

/-- The segment has no more pages than its records need. -/
theorem Filled.pageCount (filled : s.Filled size) :
    s.segment.pageCount.toNat = pagesFor (pageSize s.pool) size s.tids.length := by
  obtain ⟨pages, records⟩ := filled.tids_length
  rw [← pages, records, pagesFor]
  by_cases empty : s.segment.pages = []
  · rw [empty, List.map_nil, List.sum_nil, List.length_nil, Nat.zero_add]
    exact (Nat.div_eq_zero_iff.mpr (by omega)).symm
  · have split := List.dropLast_append_getLast empty
    have last := List.getLast_mem empty
    have full : (s.segment.pages.dropLast.map fun p => slotCountOf (view s.pool p)) =
        s.segment.pages.dropLast.map fun _ => recordsPerPage (pageSize s.pool) size :=
      List.map_congr_left fun p earlier =>
        (filled.slotCount (List.mem_of_mem_dropLast earlier)).2 (filled.full p earlier)
    have most := (filled.slotCount last).1
    have least := filled.used _ last
    generalize s.segment.pages.getLast empty = p at split most least
    rw [← split, List.map_append, List.sum_append, full, List.map_const', List.sum_replicate_nat,
      List.map_singleton, List.sum_singleton, List.length_append, List.length_singleton]
    generalize recordsPerPage (pageSize s.pool) size = most' at *
    have some : s.segment.pages.dropLast.length * most' + slotCountOf (view s.pool p) + most' - 1 =
        (slotCountOf (view s.pool p) - 1) + (s.segment.pages.dropLast.length + 1) * most' := by
      rw [Nat.add_mul]
      omega
    rw [some, Nat.add_mul_div_right _ _ (least.trans_le most), Nat.div_eq_of_lt (by omega), Nat.zero_add]

/-- If no page has space, one more record needs one more page. -/
theorem Filled.pagesFor_next (filled : s.Filled size) (snug : Snug (pageSize s.pool) size)
    (isPage : s.segment.spacePage s.pool size = none) :
    pagesFor (pageSize s.pool) size (s.tids.length + 1) = s.segment.pageCount.toNat + 1 := by
  obtain ⟨pages, records⟩ := filled.tids_length
  have full : (s.segment.pages.map fun p => slotCountOf (view s.pool p)) =
      s.segment.pages.map fun _ => recordsPerPage (pageSize s.pool) size := by
    refine List.map_congr_left fun p member => (filled.slotCount member).2 fun accepted => ?_
    have rejected := List.find?_eq_none.mp isPage p member
    simp [accepted] at rejected
  rw [full, List.map_const', List.sum_replicate_nat, pages] at records
  have some := recordsPerPage_pos snug
  rw [pagesFor, records]
  generalize recordsPerPage (pageSize s.pool) size = most at some
  have next : s.segment.pageCount.toNat * most + 1 + most - 1 =
      (s.segment.pageCount.toNat + 1) * most := by
    rw [Nat.succ_mul]
    omega
  rw [next, Nat.mul_div_cancel _ some]

/-- Every page of the segment has a record. -/
theorem Filled.pageCount_le (filled : s.Filled size) (snug : Snug (pageSize s.pool) size) :
    s.segment.pageCount.toNat ≤ s.tids.length := by
  have some := recordsPerPage_pos snug
  rw [filled.pageCount, pagesFor]
  generalize recordsPerPage (pageSize s.pool) size = most at some
  refine Nat.lt_succ_iff.mp ((Nat.div_lt_iff_lt_mul some).mpr ?_)
  have each := Nat.le_mul_of_pos_right s.tids.length some
  rw [Nat.succ_mul]
  omega

/-! ## The bytes of the records -/

/-- What some calls make of the records: those that were there have been written to, and each has as
many bytes as before. -/
structure Records (size : UInt32) (actions : List (HeapAction σ)) (s s' : HeapState σ) : Prop where
  segmentId : s'.segment.segmentId = s.segment.segmentId
  kept : ∀ t ∈ s.tids, t ∈ s'.tids ∧ s'.segment.contentOf s'.pool t =
    actions.foldl (rewritten t) (s.segment.contentOf s.pool t)
  new : ∀ t ∈ s'.tids, t ∉ s.tids → ∃ record : List UInt8, record.length = size.toNat ∧
    s'.segment.contentOf s'.pool t = actions.foldl (rewritten t) record

theorem Filled.length_content (filled : s.Filled size) (member : t ∈ s.tids) :
    (s.segment.contentOf s.pool t).length = size.toNat := by
  rw [filled.kept.holds.length_content member, filled.slotLength member]

/-- A `TID` that was not there has not been written to. -/
theorem rewritten_of_not_mem (ofSize : s.OfSize size action) (absent : t ∉ s.tids)
    (record : List UInt8) : rewritten t record action = record := by
  cases action with
  | allocate caller size' => rfl
  | write caller other src =>
    refine if_neg ?_
    rintro rfl
    exact absent ofSize.1

theorem Filled.records_step (filled : s.Filled size) (snug : Snug (pageSize s.pool) size)
    (ofSize : s.OfSize size action) (stepped : s.step action = some s') :
    Records size [action] s s' := by
  have filled' := (filled.step snug ofSize stepped).1
  have holds := filled.kept.holds
  have new : ∀ t ∈ s'.tids, t ∉ s.tids → ∃ record : List UInt8, record.length = size.toNat ∧
      s'.segment.contentOf s'.pool t = [action].foldl (rewritten t) record := by
    intro t member absent
    refine ⟨_, filled'.length_content member, ?_⟩
    rw [List.foldl_cons, List.foldl_nil, rewritten_of_not_mem ofSize absent]
  obtain ⟨segmentId, grows, -⟩ := step_tids stepped
  refine ⟨segmentId, fun t member => ⟨grows member, ?_⟩, new⟩
  rw [(content_segment segmentId s'.pool t).2]
  cases action with
  | allocate caller size' =>
    obtain ⟨_, _, _, _, _, allocates, -⟩ := filled.placed snug ofSize stepped
    exact (holds.content_allocate allocates member).2
  | write caller other record =>
    obtain ⟨-, -, overwrites⟩ := filled.kept.write (filled.contained snug ofSize) stepped
    rw [List.foldl_cons, List.foldl_nil, rewritten]
    split
    · rename_i same
      rw [← same]
      exact overwrites.self.2
    · rename_i different
      exact (overwrites.others t member (Ne.symm different)).2

/-- A run of these calls; by induction on it, with the pages filled in order all along. -/
theorem Filled.run {actions : List (HeapAction σ)} (filled : s.Filled size)
    (snug : Snug (pageSize s.pool) size) (along : Machine.Along HeapState.step (OfSize size) s actions)
    (ran : Machine.run HeapState.step s actions = some s') :
    s'.Filled size ∧ pageSize s'.pool = pageSize s.pool ∧ Records size actions s s' := by
  induction actions generalizing s with
  | nil =>
    cases ran
    exact ⟨filled, rfl, rfl, fun t member => ⟨member, rfl⟩, fun t member absent => absurd member absent⟩
  | cons action actions ih =>
    obtain ⟨mid, stepped, rest⟩ := Machine.run_cons ran
    obtain ⟨filledMid, samePages⟩ := filled.step snug along.1 stepped
    have first := filled.records_step snug along.1 stepped
    obtain ⟨filled', samePages', later⟩ := ih filledMid (samePages ▸ snug) (along.2 mid stepped) rest
    refine ⟨filled', samePages'.trans samePages, later.segmentId.trans first.segmentId,
      fun t member => ?_, fun t member absent => ?_⟩
    · obtain ⟨there, content⟩ := first.kept t member
      obtain ⟨there', content'⟩ := later.kept t there
      exact ⟨there', content'.trans (congrArg (actions.foldl (rewritten t)) content)⟩
    · by_cases there : t ∈ mid.tids
      · obtain ⟨record, length, content⟩ := first.new t there absent
        exact ⟨record, length,
          (later.kept t there).2.trans (congrArg (actions.foldl (rewritten t)) content)⟩
      · obtain ⟨record, length, content⟩ := later.new t member there
        refine ⟨record, length, ?_⟩
        rw [List.foldl_cons, rewritten_of_not_mem along.1 absent]
        exact content

/-! ## Inserting -/

/-- The records of a segment, in the order in which they were allocated. -/
def stored (s : HeapState σ) : List (List UInt8) := s.tids.reverse.map (s.segment.contentOf s.pool)

theorem length_stored (s : HeapState σ) : s.stored.length = s.tids.length := by
  rw [stored, List.length_map, List.length_reverse]

/-- A record that is allocated and written as a whole is stored behind the others. -/
theorem Filled.insert {mid : HeapState σ} {record : List UInt8} (filled : s.Filled size)
    (snug : Snug (pageSize s.pool) size) (few : s.segment.pageCount.toNat + 1 < 2 ^ 48)
    (whole : record.length = size.toNat) (allocated : s.step (.allocate caller size) = some mid)
    (isNew : mid.tids = t :: s.tids) (stepped : mid.step (.write caller t record) = some s') :
    s'.Filled size ∧ pageSize s'.pool = pageSize s.pool ∧
      s'.segment.segmentId = s.segment.segmentId ∧ s'.stored = s.stored ++ [record] := by
  have ofSize : s.OfSize size (.allocate caller size) := ⟨rfl, few⟩
  obtain ⟨filledMid, samePages⟩ := filled.step snug ofSize allocated
  have member : t ∈ mid.tids := isNew ▸ List.mem_cons_self
  have ofSize' : mid.OfSize size (.write caller t record) := ⟨member, whole.le⟩
  have along : Machine.Along HeapState.step (OfSize size) s
      [.allocate caller size, .write caller t record] := by
    refine ⟨ofSize, fun next allocated' => ⟨?_, fun _ _ => trivial⟩⟩
    rw [allocated] at allocated'
    cases allocated'
    exact ofSize'
  have ran : Machine.run HeapState.step s [.allocate caller size, .write caller t record] = some s' := by
    simp [Machine.run, allocated, stepped]
  obtain ⟨filled', samePages', records⟩ := filled.run snug along ran
  have sameTids : s'.tids = t :: s.tids := by
    rw [← isNew]
    exact (filledMid.kept.write (filledMid.contained (samePages ▸ snug) ofSize') stepped).2.1
  have fresh : t ∉ s.tids := by
    obtain ⟨t', _, _, _, _, allocates, -, isNew'⟩ := filled.placed snug ofSize allocated
    rw [(List.cons.inj (isNew.symm.trans isNew')).1]
    exact (filled.kept.holds.allocate allocates).2
  have earlier : s.tids.reverse.map (s'.segment.contentOf s'.pool) =
      s.tids.reverse.map (s.segment.contentOf s.pool) := by
    refine List.map_congr_left fun u old => ?_
    have isOld := List.mem_reverse.mp old
    have different : t ≠ u := fun same => fresh (same ▸ isOld)
    exact (records.kept u isOld).2.trans (if_neg different)
  have last : s'.segment.contentOf s'.pool t = record := by
    obtain ⟨first, length, content⟩ := records.new t (sameTids ▸ List.mem_cons_self) fresh
    refine content.trans ((if_pos rfl).trans ?_)
    exact Image.overwrite_all _ _ (whole.trans length.symm)
  refine ⟨filled', samePages', records.segmentId, ?_⟩
  rw [stored, sameTids, List.reverse_cons, List.map_append, List.map_singleton, earlier, last, stored]

end HeapState

end BuzzDB
