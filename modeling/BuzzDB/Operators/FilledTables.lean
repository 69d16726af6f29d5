import BuzzDB.Operators.StoredRecords
import BuzzDB.Recovery.PoolCapacity

/-!
# Filled tables

`populateTable` is how the tests fill a table: an `allocate` and a `write` for each tuple, over a new
buffer manager.  It takes a frame for every page of the segment and no other, and never one that is
in use, so that it ends the program exactly if its pool runs out of frames.
-/

namespace BuzzDB

open FramePool HeapSegment HeapState PagePool Recovery

/-! ## Calls that return -/

/-- `addSlot` returns if the record fits. -/
theorem FramePool.addSlot_isSome {σ : Type} [FramePool σ] {s : σ} {f : Nat} {size : UInt32}
    (own : slotFrame s f = some f)
    (inv : (SlottedPage.ofBytes (getData s f)).Inv (UInt32.ofNat (getData s f).length))
    (fits : (SlottedPage.ofBytes (getData s f)).Fits size)
    (describes : (SlottedPage.ofBytes (getData s f)).Describes size) : (addSlot s f size).isSome := by
  have free := inv.free
  have start := inv.start
  have truncated : (UInt32.ofNat (getData s f).length).toNat ≤ (getData s f).length := by
    rw [UInt32.toNat_ofNat']
    exact Nat.mod_le _ _
  have first := congrArg UInt16.toNat inv.first
  have enough : size.toNat + 8 ≤ (SlottedPage.ofBytes (getData s f)).header.freeSpace.toNat := fits
  have accepted : ¬ size > (SlottedPage.ofBytes (getData s f)).header.freeSpace :=
    UInt32.not_lt.mpr (UInt32.le_iff_toNat_le.mpr (by omega))
  obtain ⟨⟨page', t⟩, added⟩ : ∃ result,
      (SlottedPage.ofBytes (getData s f)).addSlot size = some result := ⟨_, if_neg accepted⟩
  have adds := inv.adds_of_describes describes (Option.map_eq_some_iff.mpr ⟨_, added, rfl⟩)
  have slotCount : page'.header.slotCount.toNat = _ := adds.slotCount
  have slotRoom : 32 + 8 * (SlottedPage.ofBytes (getData s f)).header.firstFreeSlot.toNat + 8 ≤
      (getData s f).length := by omega
  have slotCopied : copyIn s f (32 + 8 * (SlottedPage.headerOf (getData s f)).firstFreeSlot.toNat)
      (SlottedPage.slotBytes
        (page'.slots (SlottedPage.headerOf (getData s f)).firstFreeSlot.toNat)) = _ :=
    if_pos (by rw [SlottedPage.length_slotBytes]; exact slotRoom)
  have length : ∀ off src, (Image.overwrite (getData s f) off src).length = (getData s f).length :=
    fun off src => Image.length_overwrite _ off src
  have headerCopied : ∀ off src, copyIn (setData s f (Image.overwrite (getData s f) off src)) f 0
      (SlottedPage.headerBytes page'.header (SlottedPage.bufferFrame (getData s f))) = some (setData s f
        (Image.overwrite (Image.overwrite (getData s f) off src) 0
          (SlottedPage.headerBytes page'.header (SlottedPage.bufferFrame (getData s f))))) := by
    intro off src
    have self := getData_setData_self (length off src)
    rw [copyIn, self, setData_setData, if_pos]
    rw [SlottedPage.length_headerBytes, length]
    omega
  have isWord : SlottedPage.addSlot ⟨SlottedPage.headerOf (getData s f),
      SlottedPage.slotsOf (getData s f)⟩ size = some (page', t) := added
  simp only [addSlot, own, Option.bind_eq_bind, Option.bind_some, isWord, slotCopied, headerCopied]
  rw [if_pos]
  · rfl
  · rw [getData_setData_self (by rw [Image.length_overwrite, length]), Image.length_overwrite, length]
    omega

namespace Operators

variable {numCols size : UInt32} {caller : UInt64} {tuple : List Int32} {tuples : List (List Int32)}
  {s s' : HeapState HeapSystem} {q : UInt64} {f capacity : Nat}

/-- A page that is in a frame is found there. -/
theorem fixPage_resident {pool : HeapSystem} (wf : pool.sys.bm.Wf) (home : PagePool.Home pool q f) :
    pool.fixPage q = some (pool, f) := by
  obtain ⟨valid, frame, at_f, isPage⟩ := home
  have present : pool.sys.bm.HasFrame q := ⟨frame, List.mem_of_getElem? at_f, isPage⟩
  obtain ⟨g, found⟩ := Option.isSome_iff_exists.mp
    (BufferManager.getFrameIdOfPage_isSome.mpr present)
  obtain ⟨other, at_g, isOther⟩ := BufferManager.getFrameIdOfPage_spec found
  have here : g = f := wf.unique g f other frame at_g at_f (isOther.trans isPage.symm) (isOther ▸ valid)
  rw [HeapSystem.fixPage, BufferManager.fixPage, if_neg valid, found, here]
  rfl

/-- So the loop of `allocate` loads nothing. -/
theorem findSpace_resident {pool : HeapSystem} (wf : pool.sys.bm.Wf) {pages : List UInt64}
    (resident : ∀ p ∈ pages, ∃ f, PagePool.Home pool p f) :
    ∃ found, findSpace HeapSystem.fixPage size pool pages = some (pool, found) := by
  induction pages with
  | nil => exact ⟨none, rfl⟩
  | cons p pages ih =>
    obtain ⟨f, home⟩ := resident p List.mem_cons_self
    obtain ⟨found, searched⟩ := ih fun q member => resident q (List.mem_cons_of_mem p member)
    rw [findSpace, fixPage_resident wf home, Option.bind_eq_bind, Option.bind_some]
    dsimp only
    split
    · exact ⟨found, searched⟩
    · exact ⟨some f, rfl⟩

/-! ## The frames of the segment -/

/-- The frames that have been handed out are those of the pages of the segment. -/
structure Alone (capacity : Nat) (s : HeapState HeapSystem) : Prop where
  pool : s.pool.sys.bm.pool.length = capacity
  addresses : s.pool.addresses.length = capacity
  counter : s.pool.sys.bm.pageCounter = s.segment.pageCount.toNat
  room : s.segment.pageCount.toNat = 0 ∨ s.segment.pageCount.toNat < capacity
  pages : ∀ q, q ≠ invalidPageId → s.pool.sys.bm.HasFrame q → q ∈ s.segment.pages

theorem Alone.new {pageSize : Nat} {pageSize_lt : pageSize < 2 ^ 64} {disk : Disk UInt8}
    {logFile : List UInt8} {addresses : List UInt64} {distinct : addresses.Nodup}
    (enough : addresses.length = capacity) (tableId : UInt16) : Alone capacity
      (openRecovery tableId pageSize pageSize_lt capacity disk logFile addresses distinct) where
  pool := List.length_replicate
  addresses := enough
  counter := rfl
  room := Or.inl rfl
  pages q valid present := by
    obtain ⟨frame, member, isPage⟩ := present
    rw [List.eq_of_mem_replicate member] at isPage
    exact (valid isPage.symm).elim

/-- Only bytes have changed. -/
theorem Alone.same (alone : Alone capacity s)
    (same : BufferManager.SameFrames s.pool.sys.bm s'.pool.sys.bm)
    (addresses : s'.pool.addresses = s.pool.addresses) (segment : s'.segment = s.segment) :
    Alone capacity s' := by
  have pool := congrArg List.length same.pages
  rw [List.length_map, List.length_map] at pool
  refine ⟨pool.trans alone.pool, ?_, same.counter.trans ?_, ?_, fun q valid present => ?_⟩
  · rw [addresses]
    exact alone.addresses
  · rw [segment]
    exact alone.counter
  · rw [segment]
    exact alone.room
  · rw [BufferManager.hasFrame_iff, same.pages, ← BufferManager.hasFrame_iff] at present
    rw [segment]
    exact alone.pages q valid present

/-- A frame whose bytes have been changed, behind `unfix_page`. -/
theorem changed_same (pool : HeapSystem) (f : Nat) (data : List UInt8) :
    BufferManager.SameFrames pool.sys.bm (HeapSystem.unfixPage true (setData pool f data) f).sys.bm :=
  (BufferManager.setData_same pool.sys.bm f data).trans (BufferManager.unfixPage_same _ f true)

/-- What the loop of `allocate` finds in a segment whose pages are in their frames. -/
theorem searched_of_kept (kept : s.Kept) (size : UInt32) : ∃ found,
    findSpace HeapSystem.fixPage size s.pool s.segment.pages = some (s.pool, found) ∧
      match s.segment.spacePage s.pool size with
      | some p => ∃ f, found = some f ∧ PagePool.Home s.pool p f
      | none => found = none := by
  have resident : ∀ p ∈ s.segment.pages, ∃ f, PagePool.Home s.pool p f := by
    intro p member
    obtain ⟨f, home, -⟩ := kept.inPlace p member
    exact ⟨f, home⟩
  obtain ⟨found, searched⟩ := findSpace_resident kept.holds.wf resident
  have isFound := findSpace_spec HeapSystem.fixes kept.holds.wf (fun _ _ => trivial) searched
  exact ⟨found, searched, isFound.2⟩

/-- A page with space takes the record. -/
theorem added_found {p : UInt64} (kept : s.Kept) (fitting : s.segment.Fitting s.pool size)
    (isPage : s.segment.spacePage s.pool size = some p) (home : PagePool.Home s.pool p f) :
    (addSlot s.pool f size).isSome := by
  have member := List.mem_of_find?_eq_some isPage
  have inv := (kept.holds.pages p member).2.inv
  rw [Fitting, isPage] at fitting
  obtain ⟨fits, describes⟩ := fitting
  rw [(shown s.pool p f kept.holds.wf home).2] at inv fits describes
  exact addSlot_isSome ((kept.inPlace p member).slotFrame_eq kept.holds.wf home) inv fits describes

/-- The next page gets a frame exactly if there is one left. -/
theorem Alone.fixPage_next (alone : Alone capacity s) (few : s.segment.pageCount.toNat + 1 < 2 ^ 48) :
    (s.pool.fixPage (getOverallPageId s.segment.segmentId s.segment.pageCount)).isSome ↔
      s.segment.pageCount.toNat + 1 < capacity := by
  have valid : getOverallPageId s.segment.segmentId s.segment.pageCount ≠ invalidPageId := by
    have isValid : pageIdOf s.segment.segmentId s.segment.pageCount.toNat ≠ invalidPageId :=
      pageIdOf_valid few
    rwa [pageIdOf, UInt64.ofNat_toNat] at isValid
  have missing : ¬ s.pool.sys.bm.HasFrame (getOverallPageId s.segment.segmentId s.segment.pageCount) :=
    fun present => next_not_mem_pages (by omega) (alone.pages _ valid present)
  have none := PoolClients.fixPage_none_iff valid missing
  rw [alone.pool, alone.counter] at none
  rw [HeapSystem.fixPage, Option.isSome_map, ← Option.not_isNone, Bool.not_eq_true',
    ← Bool.not_eq_true, Option.isNone_iff_eq_none, none, Nat.not_le]

theorem fixPage_touches {pool fixed : HeapSystem} (wf : pool.sys.bm.Wf)
    (isFixed : pool.fixPage q = some (fixed, f)) :
    BufferManager.Touches pool.sys.bm [q] fixed.sys.bm ∧ fixed.addresses = pool.addresses := by
  obtain ⟨⟨bm, g⟩, loads, same⟩ := Option.map_eq_some_iff.mp isFixed
  cases same
  exact ⟨wf.fixPage_touches loads, rfl⟩

/-- A frame of the pool has an address. -/
theorem Alone.inside {fixed : HeapSystem} (alone : Alone capacity s) (wf : s.pool.sys.bm.Wf)
    (isFixed : s.pool.fixPage q = some (fixed, f)) : f < fixed.addresses.length := by
  obtain ⟨touches, addresses⟩ := fixPage_touches wf isFixed
  obtain ⟨-, -, frame, at_f, -⟩ := HeapSystem.fixes s.pool q fixed f wf isFixed
  have inside := (List.getElem?_eq_some_iff.mp at_f).1
  rwa [touches.capacity, alone.pool, ← alone.addresses, ← addresses] at inside

/-- A page can be constructed in any frame that is large enough for its header. -/
theorem newPage_isSome {pool : HeapSystem} (inside : f < pool.addresses.length)
    (room : 28 ≤ (getData pool f).length) (p : UInt64) : (newPage pool f p).isSome := by
  have isAddress : (FramePool.addresses pool)[f]? = some pool.addresses[f] :=
    List.getElem?_eq_getElem inside
  rw [newPage, isAddress, Option.bind_eq_bind, Option.bind_some, copyIn, if_pos]
  · rfl
  · rw [SlottedPage.length_headerBytes, Nat.zero_add]
    exact room

/-- The next page is constructed and takes the record. -/
theorem added_next {pool : HeapSystem} {p : UInt64} (wf : pool.sys.bm.Wf)
    (snug : Snug (FramePool.pageSize pool) size) (home : PagePool.Home pool p f)
    (inside : f < pool.addresses.length) :
    ∃ constructed, newPage pool f p = some constructed ∧ (addSlot constructed f size).isSome := by
  have length := sized pool p f wf home
  have room : 28 ≤ (getData pool f).length := by
    have := snug.room
    omega
  obtain ⟨constructed, isConstructed⟩ := Option.isSome_iff_exists.mp (newPage_isSome inside room p)
  refine ⟨constructed, isConstructed, ?_⟩
  obtain ⟨first, address, isAddress, constructs, rfl⟩ := newPage_spec isConstructed
  have header : (SlottedPage.ofBytes first).header = { (emptyPage pool).header with
      overallPageId := p } := congrArg SlottedPage.header constructs.page
  obtain ⟨inv, fits, describes, -⟩ := first_fits snug header
  have self := getData_setData_self constructs.length
  refine addSlot_isSome (slotFrame_constructed wf isAddress constructs) ?_ ?_ ?_
  · rw [self, constructs.length, length]
    exact inv
  · rw [self]
    exact fits
  · rw [self]
    exact describes

/-! ## Calls on the segment -/

theorem step_allocate : s.step (.allocate caller size) =
    (s.segment.allocate HeapSystem.fixPage (HeapSystem.unfixPage true) s.pool size).map fun result =>
      ⟨result.2.1, result.1, result.2.2 :: s.tids⟩ := by
  change (s.segment.allocate HeapSystem.fixPage (HeapSystem.unfixPage true) s.pool size).bind _ = _
  cases s.segment.allocate HeapSystem.fixPage (HeapSystem.unfixPage true) s.pool size with
  | none => rfl
  | some result => rfl

/-- `allocate` returns exactly if a page has space, or there is a frame for the next one. -/
theorem Alone.allocate_isSome (alone : Alone capacity s) (caller : UInt64) (filled : s.Filled size)
    (snug : Snug (FramePool.pageSize s.pool) size) (few : s.segment.pageCount.toNat + 1 < 2 ^ 48) :
    (s.step (.allocate caller size)).isSome ↔
      (s.segment.spacePage s.pool size = none → s.segment.pageCount.toNat + 1 < capacity) := by
  have ofSize : s.OfSize size (.allocate caller size) := ⟨rfl, few⟩
  have fitting : s.segment.Fitting s.pool size := filled.contained snug ofSize
  obtain ⟨found, searched, isFound⟩ := searched_of_kept filled.kept size
  rw [step_allocate, Option.isSome_map]
  cases isPage : s.segment.spacePage s.pool size with
  | some p =>
    rw [isPage] at isFound
    obtain ⟨f, rfl, home⟩ := isFound
    obtain ⟨⟨added, t⟩, isAdded⟩ := Option.isSome_iff_exists.mp
      (added_found filled.kept fitting isPage home)
    refine iff_of_true ?_ fun impossible => by cases impossible
    simp [HeapSegment.allocate, searched, isAdded]
  | none =>
    rw [isPage] at isFound
    have none : found = none := isFound
    subst none
    rw [forall_prop_of_true rfl, ← alone.fixPage_next few]
    constructor
    · intro returns
      obtain ⟨⟨pool, segment, t⟩, ran⟩ := Option.isSome_iff_exists.mp returns
      rcases allocate_cases ran with ⟨mid, f, added, searched', -⟩ |
        ⟨mid, fixed, f, constructed, added, searched', isFixed, -⟩
      · rw [searched] at searched'
        cases searched'
      · rw [searched] at searched'
        cases searched'
        exact Option.isSome_of_eq_some isFixed
    · intro fits
      obtain ⟨⟨fixed, f⟩, isFixed⟩ := Option.isSome_iff_exists.mp fits
      obtain ⟨keeps, home⟩ := HeapSystem.fixes s.pool _ _ _ filled.kept.holds.wf isFixed
      have inside := alone.inside filled.kept.holds.wf isFixed
      have pages : FramePool.pageSize fixed = FramePool.pageSize s.pool := keeps.pageSize
      obtain ⟨constructed, isConstructed, adds⟩ := added_next keeps.wf (pages ▸ snug) home inside
      obtain ⟨⟨added, t⟩, isAdded⟩ := Option.isSome_iff_exists.mp adds
      simp [HeapSegment.allocate, searched, isFixed, isConstructed, isAdded]

theorem Alone.allocate (alone : Alone capacity s) (filled : s.Filled size)
    (few : s.segment.pageCount.toNat + 1 < 2 ^ 48)
    (stepped : s.step (.allocate caller size) = some s') : Alone capacity s' := by
  have wf := filled.kept.holds.wf
  obtain ⟨found, searched, -⟩ := searched_of_kept filled.kept size
  rw [step_allocate] at stepped
  obtain ⟨⟨pool, segment, t⟩, ran, rfl⟩ := Option.map_eq_some_iff.mp stepped
  rcases allocate_cases ran with ⟨mid, f, added, searched', isAdded, rfl, rfl⟩ |
    ⟨mid, fixed, f, constructed, added, searched', isFixed, constructs, isAdded, rfl, rfl⟩
  · rw [searched] at searched'
    cases searched'
    have findsOwn : s.segment.FindsOwn (HeapManager.fixPage caller true) s.pool size :=
      filled.kept.findsOwn
    obtain ⟨data', -, rfl, -⟩ := addSlot_spec (findsOwn _ f searched) isAdded
    exact alone.same (changed_same s.pool f data') rfl rfl
  · rw [searched] at searched'
    cases searched'
    have fits := (alone.fixPage_next few).mp (Option.isSome_of_eq_some isFixed)
    obtain ⟨touches, addresses⟩ := fixPage_touches wf isFixed
    obtain ⟨keeps, home⟩ := HeapSystem.fixes s.pool _ _ _ wf isFixed
    obtain ⟨first, address, isAddress, isConstructed, rfl⟩ := newPage_spec constructs
    obtain ⟨data', -, rfl, -⟩ :=
      addSlot_spec (slotFrame_constructed keeps.wf isAddress isConstructed) isAdded
    rw [setData_setData]
    have touches := touches.same (changed_same fixed f data')
    have missing : s.pool.sys.bm.missing [getOverallPageId s.segment.segmentId s.segment.pageCount] =
        {getOverallPageId s.segment.segmentId s.segment.pageCount} := by
      rw [BufferManager.missing_singleton, if_neg]
      exact fun present => next_not_mem_pages (by omega) (alone.pages _ home.1 present)
    refine ⟨touches.capacity.trans alone.pool, addresses ▸ alone.addresses, ?_, Or.inr ?_,
      fun q valid present => ?_⟩
    · rw [touches.counter, alone.counter, missing, Finset.card_singleton, toNat_next few]
    · rw [toNat_next few]
      exact fits
    · have isPage : q ∈ ({ s.segment with pageCount := s.segment.pageCount + 1 } : HeapSegment).pages ↔
          _ := mem_pages_next few rfl rfl
      refine isPage.mpr ?_
      rcases (touches.hasFrame q valid).mp present with old | new
      · exact Or.inl (alone.pages q valid old)
      · exact Or.inr (List.mem_singleton.mp new)

/-- `write` to a record of the segment returns. -/
theorem Alone.write {t : UInt64} {record : List UInt8} (alone : Alone capacity s) (caller : UInt64)
    (filled : s.Filled size) (member : t ∈ s.tids) (short : record.length ≤ size.toNat) :
    ∃ s', s.step (.write caller t record) = some s' ∧ Alone capacity s' := by
  have holds := filled.kept.holds
  have page := (holds.names t member).page
  obtain ⟨f, home, address⟩ := filled.kept.inPlace _ page
  have fixed := fixPage_resident holds.wf home
  have data := (shown s.pool _ f holds.wf home).2
  obtain ⟨isSlot, inside⟩ := holds.inside member
  have own := (filled.kept.inPlace _ page).slotFrame_eq holds.wf home
  have offset : (s.segment.regionOf s.pool t).start =
      (SlottedPage.slotOffset (s.segment.slotOf s.pool t)).toNat := rfl
  rw [filled.slotLength member, offset, data] at inside
  rw [offset] at isSlot
  have got : getSlot s.pool f (slotIdOf t) = some (s.segment.slotOf s.pool t) := by
    rw [getSlot_of_inside own (by omega), slotOf, data]
  have out : copyOut s.pool f (SlottedPage.slotOffset (s.segment.slotOf s.pool t)).toNat
      record.length = _ := copyOut_of_inside (by omega)
  have copied : copyIn s.pool f (SlottedPage.slotOffset (s.segment.slotOf s.pool t)).toNat record = _ :=
    if_pos (by omega)
  have written : s.segment.write (HeapManager.fixPage caller true) HeapManager.written s.pool t record =
      _ := write_eq fixed got record
  rw [out, copied] at written
  simp only [HeapState.step, HeapManager.write, written, Option.bind_eq_bind, Option.bind_some,
    Option.map_some]
  refine ⟨_, rfl, ?_⟩
  exact alone.same (changed_same s.pool f _) rfl rfl

/-! ## Filling a table -/

/-- The bytes of a tuple. -/
def bytesOfTuple (tuple : List Int32) : List UInt8 :=
  tuple.flatMap fun field => Image.bytesOf 4 field.toUInt32.toNat

/-- The body of the loop of `populate_table`: a record is allocated and written. -/
def insertTuple (caller : UInt64) (numCols : UInt32) (s : HeapState HeapSystem) (tuple : List Int32) :
    Option (HeapState HeapSystem) := do
  let (pool, heapSegment, tid) ← HeapManager.allocate caller s.pool s.segment (4 * numCols)
  let pool ← HeapManager.write caller pool heapSegment tid (bytesOfTuple tuple)
  return ⟨heapSegment, pool, tid :: s.tids⟩

/-- `populate_table` up to `flush_all_pages`, with the tuples that it generates. -/
def populateTable (caller : UInt64) (numCols : UInt32) (s : HeapState HeapSystem)
    (tuples : List (List Int32)) : Option (HeapState HeapSystem) :=
  tuples.foldlM (insertTuple caller numCols) s

theorem length_bytesOfTuple (tuple : List Int32) : (bytesOfTuple tuple).length = 4 * tuple.length := by
  induction tuple with
  | nil => rfl
  | cons field tuple ih =>
    rw [bytesOfTuple, List.flatMap_cons, List.length_append, Image.length_bytesOf]
    rw [bytesOfTuple] at ih
    rw [ih, List.length_cons]
    omega

/-- The fields of a tuple, read back. -/
theorem fieldsOf_bytesOfTuple (tuple : List Int32) :
    fieldsOf tuple.length (bytesOfTuple tuple) = tuple := by
  induction tuple with
  | nil => rfl
  | cons field tuple ih =>
    have small : field.toUInt32.toNat % 256 ^ 4 = field.toUInt32.toNat :=
      Nat.mod_eq_of_lt field.toUInt32.toNat_lt
    have split : bytesOfTuple (field :: tuple) =
        Image.bytesOf 4 field.toUInt32.toNat ++ bytesOfTuple tuple := List.flatMap_cons
    rw [fieldsOf, List.length_cons, List.range_succ_eq_map, List.map_cons, List.map_map, split,
      Nat.mul_zero, Image.word_bytesOf, small, UInt32.ofNat_toNat, Int32.toInt32_toUInt32]
    refine congrArg (field :: ·) (Eq.trans (List.map_congr_left fun i _ => ?_) ih)
    rw [Function.comp_apply, Image.word_skip _ (by omega), Nat.mul_succ, Nat.add_sub_cancel]

/-- An inserted tuple is one `allocate` and one `write`. -/
theorem insertTuple_eq_some (inserted : insertTuple caller numCols s tuple = some s') :
    ∃ mid t, s.step (.allocate caller (4 * numCols)) = some mid ∧ mid.tids = t :: s.tids ∧
      mid.step (.write caller t (bytesOfTuple tuple)) = some s' := by
  obtain ⟨⟨pool, segment, t⟩, allocated, rest⟩ := Option.bind_eq_some_iff.mp inserted
  obtain ⟨pool', written, same⟩ := Option.bind_eq_some_iff.mp rest
  cases same
  refine ⟨⟨segment, pool, t :: s.tids⟩, t, ?_, rfl, ?_⟩
  · rw [HeapState.step, allocated]
    rfl
  · rw [HeapState.step, written]
    rfl

/-- A tuple is inserted exactly if a page has space, or there is a frame for the next one. -/
theorem insertTuple_isSome (alone : Alone capacity s) (caller : UInt64) (filled : s.Filled (4 * numCols))
    (snug : Snug (FramePool.pageSize s.pool) (4 * numCols))
    (few : s.segment.pageCount.toNat + 1 < 2 ^ 48)
    (whole : (bytesOfTuple tuple).length = (4 * numCols).toNat) :
    (insertTuple caller numCols s tuple).isSome ↔
      (s.segment.spacePage s.pool (4 * numCols) = none → s.segment.pageCount.toNat + 1 < capacity) := by
  rw [← alone.allocate_isSome caller filled snug few]
  constructor
  · intro inserts
    obtain ⟨s', inserted⟩ := Option.isSome_iff_exists.mp inserts
    obtain ⟨mid, t, allocated, -⟩ := insertTuple_eq_some inserted
    exact Option.isSome_of_eq_some allocated
  · intro allocates
    obtain ⟨mid, stepped⟩ := Option.isSome_iff_exists.mp allocates
    have ofSize : s.OfSize (4 * numCols) (.allocate caller (4 * numCols)) := ⟨rfl, few⟩
    obtain ⟨filledMid, -⟩ := filled.step snug ofSize stepped
    have aloneMid := alone.allocate filled few stepped
    obtain ⟨⟨pool, segment, t⟩, ran, same⟩ := Option.bind_eq_some_iff.mp stepped
    cases same
    obtain ⟨s', written, -⟩ := aloneMid.write caller filledMid List.mem_cons_self whole.le
    obtain ⟨pool', wrote, -⟩ := Option.bind_eq_some_iff.mp written
    simp only [insertTuple, ran, wrote, Option.bind_eq_bind, Option.bind_some]
    rfl

theorem Alone.insert (alone : Alone capacity s) (filled : s.Filled (4 * numCols))
    (snug : Snug (FramePool.pageSize s.pool) (4 * numCols))
    (few : s.segment.pageCount.toNat + 1 < 2 ^ 48)
    (whole : (bytesOfTuple tuple).length = (4 * numCols).toNat)
    (inserted : insertTuple caller numCols s tuple = some s') : Alone capacity s' := by
  obtain ⟨mid, t, allocated, isNew, written⟩ := insertTuple_eq_some inserted
  have ofSize : s.OfSize (4 * numCols) (.allocate caller (4 * numCols)) := ⟨rfl, few⟩
  obtain ⟨filledMid, -⟩ := filled.step snug ofSize allocated
  have aloneMid := alone.allocate filled few allocated
  obtain ⟨last, written', alone'⟩ :=
    aloneMid.write caller filledMid (isNew ▸ List.mem_cons_self) whole.le
  rw [written'] at written
  cases written
  exact alone'

/-- The tuple is stored behind the others. -/
theorem insertTuple_stored (filled : s.Filled (4 * numCols))
    (snug : Snug (FramePool.pageSize s.pool) (4 * numCols))
    (few : s.segment.pageCount.toNat + 1 < 2 ^ 48)
    (whole : (bytesOfTuple tuple).length = (4 * numCols).toNat)
    (inserted : insertTuple caller numCols s tuple = some s') :
    s'.Filled (4 * numCols) ∧ FramePool.pageSize s'.pool = FramePool.pageSize s.pool ∧
      s'.segment.segmentId = s.segment.segmentId ∧ s'.stored = s.stored ++ [bytesOfTuple tuple] ∧
      s'.tids.length = s.tids.length + 1 := by
  obtain ⟨mid, t, allocated, isNew, written⟩ := insertTuple_eq_some inserted
  obtain ⟨filled', samePages, sameId, stored'⟩ :=
    filled.insert snug few whole allocated isNew written
  refine ⟨filled', samePages, sameId, stored', ?_⟩
  rw [← length_stored, stored', List.length_append, List.length_singleton, length_stored]

/-- The segment behind `populate_table`: the tuples are its records, in order. -/
theorem populated (snug : Snug (FramePool.pageSize s.pool) (4 * numCols))
    (filled : s.Filled (4 * numCols))
    (whole : ∀ tuple ∈ tuples, (bytesOfTuple tuple).length = (4 * numCols).toNat)
    (few : s.tids.length + tuples.length < 2 ^ 48)
    (ran : populateTable caller numCols s tuples = some s') :
    s'.Filled (4 * numCols) ∧ FramePool.pageSize s'.pool = FramePool.pageSize s.pool ∧
      s'.segment.segmentId = s.segment.segmentId ∧
      s'.stored = s.stored ++ tuples.map bytesOfTuple := by
  induction tuples generalizing s with
  | nil =>
    cases ran
    exact ⟨filled, rfl, rfl, (List.append_nil _).symm⟩
  | cons tuple tuples ih =>
    rw [populateTable, List.foldlM_cons] at ran
    rw [List.length_cons] at few
    obtain ⟨mid, inserted, rest⟩ := Option.bind_eq_some_iff.mp ran
    have pages := filled.pageCount_le snug
    obtain ⟨filledMid, samePages, sameId, storedMid, countMid⟩ :=
      insertTuple_stored filled snug (by omega) (whole tuple List.mem_cons_self) inserted
    obtain ⟨filled', samePages', sameId', stored'⟩ := ih (samePages ▸ snug) filledMid
      (fun tuple member => whole tuple (List.mem_cons_of_mem _ member)) (by omega) rest
    refine ⟨filled', samePages'.trans samePages, sameId'.trans sameId, ?_⟩
    rw [stored', storedMid, List.map_cons, List.append_assoc, List.singleton_append]

/-- `populate_table` returns exactly if there is a frame for every page that the tuples need; by
induction on them, with the frames of the segment the only ones in use all along. -/
theorem populateTable_isSome (alone : Alone capacity s) (caller : UInt64)
    (snug : Snug (FramePool.pageSize s.pool) (4 * numCols)) (filled : s.Filled (4 * numCols))
    (whole : ∀ tuple ∈ tuples, (bytesOfTuple tuple).length = (4 * numCols).toNat)
    (few : s.tids.length + tuples.length < 2 ^ 48) :
    (populateTable caller numCols s tuples).isSome ↔
      ∀ k < pagesFor (FramePool.pageSize s.pool) (4 * numCols) (s.tids.length + tuples.length),
        k + 1 < capacity := by
  induction tuples generalizing s with
  | nil =>
    have room := alone.room
    rw [List.length_nil, Nat.add_zero, ← filled.pageCount]
    exact iff_of_true rfl fun k isPage => by omega
  | cons tuple tuples ih =>
    rw [List.length_cons] at few ⊢
    have pages := filled.pageCount_le snug
    have isWhole := whole tuple List.mem_cons_self
    have inserts := insertTuple_isSome alone caller filled snug (by omega) isWhole
    rw [populateTable, List.foldlM_cons]
    cases inserted : insertTuple caller numCols s tuple with
    | none =>
      refine iff_of_false Bool.false_ne_true fun fits => ?_
      rw [inserted] at inserts
      refine absurd (inserts.mpr fun isPage => fits s.segment.pageCount.toNat ?_) Bool.false_ne_true
      have next := filled.pagesFor_next snug isPage
      have least : pagesFor (FramePool.pageSize s.pool) (4 * numCols) (s.tids.length + 1) ≤
          pagesFor (FramePool.pageSize s.pool) (4 * numCols) (s.tids.length + (tuples.length + 1)) :=
        pagesFor_mono (by omega)
      omega
    | some mid =>
      obtain ⟨filledMid, samePages, -, -, countMid⟩ :=
        insertTuple_stored filled snug (by omega) isWhole inserted
      have later := ih (alone.insert filled snug (by omega) isWhole inserted) (samePages ▸ snug)
        filledMid (fun tuple member => whole tuple (List.mem_cons_of_mem _ member)) (by omega)
      rwa [samePages, countMid, Nat.add_assoc, Nat.add_comm 1] at later

/-- What a scan finds of stored tuples. -/
theorem tuples_found (stored : s.stored = tuples.map bytesOfTuple)
    (whole : ∀ tuple ∈ tuples, tuple.length = numFields.toNat) :
    (s.tids.reverse.map fun t => foundAt numFields t (s.segment.contentOf s.pool t)).map Found.tuple =
      tuples := by
  have contents : (s.tids.reverse.map fun t => fieldsOf numFields.toNat (s.segment.contentOf s.pool t)) =
      s.stored.map (fieldsOf numFields.toNat) := by
    rw [HeapState.stored, List.map_map]
    rfl
  rw [List.map_map]
  refine Eq.trans contents ?_
  rw [stored, List.map_map]
  refine Eq.trans (List.map_congr_left fun tuple member => ?_) (List.map_id tuples)
  rw [Function.comp_apply, ← whole tuple member, fieldsOf_bytesOfTuple]
  rfl

/-- A table is read back as it was filled: `populate_table` returns exactly if its pool has a frame for
each page that the tuples need.  Then the segment has that many pages, and a scan of them, with a
buffer manager of its own, returns the tuples in the order of the calls, exactly if its pool has a
frame for each page. -/
theorem scan_of_populate (tableId : UInt16) (pageSize : Nat) (pageSize_lt : pageSize < 2 ^ 64)
    (pageCount : Nat) (disk : Disk UInt8) (logFile : List UInt8) (addresses : List UInt64)
    (distinct : addresses.Nodup) (enough : addresses.length = pageCount) (caller : UInt64)
    (numCols : UInt32) (small : 4 * numCols.toNat < 2 ^ 32) (snug : Snug pageSize (4 * numCols))
    (tuples : List (List Int32)) (whole : ∀ tuple ∈ tuples, tuple.length = numCols.toNat)
    (few : tuples.length < 2 ^ 32) :
    ((populateTable caller numCols
        (openRecovery tableId pageSize pageSize_lt pageCount disk logFile addresses distinct)
        tuples).isSome ↔
      ∀ k < pagesFor pageSize (4 * numCols) tuples.length, k + 1 < pageCount) ∧
    ∀ s, populateTable caller numCols
        (openRecovery tableId pageSize pageSize_lt pageCount disk logFile addresses distinct)
        tuples = some s →
      s.segment.pageCount.toNat = pagesFor pageSize (4 * numCols) tuples.length ∧
      ∃ found : List Found, found.map Found.tuple = tuples ∧
        ∀ capacity logFile' addresses' (distinct' : addresses'.Nodup), addresses'.length = capacity →
          (Enumeration.Enumerates SeqScan.next SeqScan.reset
              (SeqScan.new tableId s.segment.pageCount numCols.toUInt64
                (.new pageSize pageSize_lt capacity s.pool.sys.bm.flushAllPages.disk logFile' addresses'
                  distinct')).reset found ↔
            ∀ k < pagesFor pageSize (4 * numCols) tuples.length, k + 1 < capacity) := by
  have isSize : (4 * numCols).toNat = 4 * numCols.toNat := by
    rw [UInt32.toNat_mul]
    exact Nat.mod_eq_of_lt small
  have bytes : ∀ tuple ∈ tuples, (bytesOfTuple tuple).length = (4 * numCols).toNat :=
    fun tuple member => by rw [length_bytesOfTuple, whole tuple member, isSize]
  have filled : (openRecovery tableId pageSize pageSize_lt pageCount disk logFile addresses
      distinct).Filled (4 * numCols) :=
    Filled.new (BufferManager.Wf.new pageSize pageSize_lt pageCount disk) tableId (4 * numCols)
  have none : (openRecovery tableId pageSize pageSize_lt pageCount disk logFile addresses
      distinct).tids.length = 0 := rfl
  have alone : Alone pageCount (openRecovery tableId pageSize pageSize_lt pageCount disk logFile
      addresses distinct) := Alone.new enough tableId
  have returns := populateTable_isSome alone caller snug filled bytes (by omega)
  rw [none, Nat.zero_add] at returns
  refine ⟨returns, fun s ran => ?_⟩
  obtain ⟨filled, pages, isTable, stored⟩ := populated snug filled bytes (by omega) ran
  have pages : FramePool.pageSize s.pool = pageSize := pages
  have isTable : s.segment.segmentId = tableId := isTable
  have stored : s.stored = tuples.map bytesOfTuple := stored
  have count : s.segment.pageCount.toNat = pagesFor pageSize (4 * numCols) tuples.length := by
    rw [filled.pageCount, pages, ← length_stored, stored, List.length_map]
  have fields : ∀ tuple ∈ tuples, tuple.length = numCols.toUInt64.toNat := whole
  refine ⟨count, _, tuples_found stored fields, fun capacity logFile' addresses' distinct' enough => ?_⟩
  rw [← count, ← isTable]
  exact enumerates_of_filled filled isSize pages enough

/-- Three tuples of two columns, in pages that have room for two of them: `populate_table` returns with
three frames, and so does the scan. -/
theorem scan_of_populate_three : ∃ s ∈ populateTable 0 2
      (openRecovery 7 64 (by decide) 3 (fun _ => []) [] [16, 32, 48] (by decide))
      [[1, 2], [3, -4], [5, 6]],
    s.segment.pageCount.toNat = 2 ∧ ∃ found : List Found,
      found.map Found.tuple = [[1, 2], [3, -4], [5, 6]] ∧
        Enumeration.Enumerates SeqScan.next SeqScan.reset
          (SeqScan.new 7 s.segment.pageCount 2 (.new 64 (by decide) 3
            s.pool.sys.bm.flushAllPages.disk [] [10, 20, 30] (by decide))).reset found := by
  obtain ⟨returns, scans⟩ := scan_of_populate 7 64 (by decide) 3 (fun _ => []) [] [16, 32, 48]
    (by decide) rfl 0 2 (by decide) (by decide) [[1, 2], [3, -4], [5, 6]] (by decide) (by decide)
  obtain ⟨s, ran⟩ := Option.isSome_iff_exists.mp (returns.mpr (by decide))
  obtain ⟨count, found, tuples, scans⟩ := scans s ran
  exact ⟨s, ran, count, found, tuples, (scans 3 [] [10, 20, 30] (by decide) rfl).mpr (by decide)⟩

end Operators

end BuzzDB
