import BuzzDB.Operators.SeqScan

/-!
# The records that a scan returns

A scan reads the slots of each page below its first free slot.  These are the live ones only as long as
no slot has been freed, or all behind the first free slot: a freed slot below it ends the program,
and a live slot behind it is left out.  `Ahead` says what lies ahead of a scan, page by page, and
`scan_iff_compact` for which pages this is what lives there.
-/

namespace BuzzDB.Operators

open FramePool HeapSegment PagePool Recovery

/-! ## Pages -/

/-- The page of a table. -/
def pageIdOf (tableId : UInt16) (p : Nat) : UInt64 := getOverallPageId tableId (UInt64.ofNat p)

deriving instance DecidableEq for SlottedPage.Header

/-- The bytes are those of a page that some calls of `addSlot` and of `setSlot` with zero have made, with
records of `numFields` fields between the slots and the end of the page. -/
structure Produced (numFields : UInt64) (overallPageId : UInt64) (data : List UInt8) : Prop where
  run : ∃ buffer operations page,
    Machine.Along SlottedPage.apply SlottedPage.Freeable
      (SlottedPage.newFor buffer (UInt32.ofNat data.length) overallPageId) operations ∧
    Machine.run SlottedPage.apply
      (SlottedPage.newFor buffer (UInt32.ofNat data.length) overallPageId) operations = some page ∧
    page.header = SlottedPage.headerOf data ∧
    ∀ slot < page.header.slotCount.toNat, page.slots slot = SlottedPage.slotsOf data slot
  room : 32 + 8 * (SlottedPage.headerOf data).slotCount.toNat ≤ data.length
  records : ∀ slot < (SlottedPage.headerOf data).slotCount.toNat, SlottedPage.slotsOf data slot ≠ 0 →
    32 ≤ (SlottedPage.slotOffset (SlottedPage.slotsOf data slot)).toNat ∧
      (SlottedPage.slotOffset (SlottedPage.slotsOf data slot)).toNat +
        (SlottedPage.slotLength (SlottedPage.slotsOf data slot)).toNat ≤ data.length ∧
      (SlottedPage.slotLength (SlottedPage.slotsOf data slot)).toNat = 4 * numFields.toNat

/-- The live slots are those below the first free slot. -/
def Compact (data : List UInt8) : Prop :=
  ∀ slot < (SlottedPage.headerOf data).slotCount.toNat,
    SlottedPage.slotsOf data slot ≠ 0 ↔ slot < (SlottedPage.headerOf data).firstFreeSlot.toNat

/-- The live slots of a page. -/
def liveSlots (data : List UInt8) : List Nat :=
  (List.range (SlottedPage.headerOf data).slotCount.toNat).filter fun slot =>
    SlottedPage.slotsOf data slot ≠ 0

/-- The tuple in a slot. -/
def tupleAt (numFields : UInt64) (data : List UInt8) (p slot : Nat) : Found :=
  let value := SlottedPage.slotsOf data slot
  ⟨p, slot, fieldsOf numFields.toNat ((data.drop (SlottedPage.slotOffset value).toNat).take
    (SlottedPage.slotLength value).toNat)⟩

/-- The tuples of the live slots, by page and slot. -/
def liveRecords (numFields : UInt64) (pages : Nat → List UInt8) (numPages : Nat) : List Found :=
  (List.range numPages).flatMap fun p => (liveSlots (pages p)).map (tupleAt numFields (pages p) p)

/-! ## What lies ahead of a scan -/

/-- What reading a slot comes to; `none` is the end of the program. -/
def outcome (numFields : UInt64) (data : List UInt8) (p slot : Nat) : Option Found :=
  let value := SlottedPage.slotsOf data slot
  let capacity := (4 * numFields).toUInt32
  let offset := (SlottedPage.slotOffset value).toNat
  if capacity ≤ SlottedPage.slotLength value ∧ offset + capacity.toNat ≤ data.length ∧
      4 * numFields.toNat ≤ (4 * numFields).toNat then
    some ⟨p, slot, fieldsOf numFields.toNat
      (Image.overwrite (List.replicate (4 * numFields).toNat 0) 0
        ((data.drop offset).take capacity.toNat))⟩
  else none

section Ahead

variable (numFields : UInt64) (pages : Nat → List UInt8) (capacity : Nat)

/-- The outcomes in a page from a slot on; there may be no frame for the page. -/
def pageOutcomes (slot p : Nat) : List (Option Found) :=
  if p + 1 < capacity then
    ((List.range (SlottedPage.headerOf (pages p)).firstFreeSlot.toNat).drop slot).map
      (outcome numFields (pages p) p)
  else [none]

/-- The outcomes from page `p` on, in `n` pages. -/
def outcomesFrom (p n : Nat) : List (Option Found) :=
  (List.range' p n).flatMap (pageOutcomes numFields pages capacity 0)

/-- The outcomes from a position on. -/
def outcomes (numPages p slot : Nat) : List (Option Found) :=
  if p < numPages then
    pageOutcomes numFields pages capacity slot p ++
      outcomesFrom numFields pages capacity (p + 1) (numPages - (p + 1))
  else []

end Ahead

variable {numFields numPages : UInt64} {pages : Nat → List UInt8} {capacity p slot n : Nat}
  {data data' : List UInt8} {tableId : UInt16} {overallPageId : UInt64}

theorem outcomes_start :
    outcomes numFields pages capacity n p 0 = outcomesFrom numFields pages capacity p (n - p) := by
  unfold outcomes
  split
  · obtain ⟨k, more⟩ : ∃ k, n - p = k + 1 := ⟨n - p - 1, by omega⟩
    have rest : n - (p + 1) = k := by omega
    rw [more, rest, outcomesFrom, outcomesFrom, List.range'_succ, List.flatMap_cons]
  · have none : n - p = 0 := by omega
    rw [none]
    rfl

/-- Behind the last slot of a page lies the next page. -/
theorem outcomes_turn (more : p < n) (fits : p + 1 < capacity)
    (past : (SlottedPage.headerOf (pages p)).firstFreeSlot.toNat ≤ slot) :
    outcomes numFields pages capacity n p slot = outcomes numFields pages capacity n (p + 1) 0 := by
  rw [outcomes_start, outcomes, if_pos more, pageOutcomes, if_pos fits, List.drop_eq_nil_of_le,
    List.map_nil, List.nil_append]
  rw [List.length_range]
  exact past

/-- Below it lies the outcome of the slot. -/
theorem outcomes_slot (more : p < n) (fits : p + 1 < capacity)
    (below : slot < (SlottedPage.headerOf (pages p)).firstFreeSlot.toNat) :
    outcomes numFields pages capacity n p slot = outcome numFields (pages p) p slot ::
      outcomes numFields pages capacity n p (slot + 1) := by
  rw [outcomes, outcomes, if_pos more, if_pos more, pageOutcomes, pageOutcomes, if_pos fits,
    if_pos fits, List.drop_eq_getElem_cons (by rw [List.length_range]; exact below),
    List.getElem_range, List.map_cons, List.cons_append]

/-! ## Reading pages -/

/-- What a scan needs of a page. -/
structure Readable (numFields : UInt64) (overallPageId : UInt64) (data : List UInt8) : Prop where
  pageId : (SlottedPage.headerOf data).overallPageId = overallPageId
  first : (SlottedPage.headerOf data).firstFreeSlot.toNat ≤
    (SlottedPage.headerOf data).slotCount.toNat
  room : 32 + 8 * (SlottedPage.headerOf data).slotCount.toNat ≤ data.length
  records : ∀ slot < (SlottedPage.headerOf data).slotCount.toNat, SlottedPage.slotsOf data slot ≠ 0 →
    32 ≤ (SlottedPage.slotOffset (SlottedPage.slotsOf data slot)).toNat ∧
      (SlottedPage.slotOffset (SlottedPage.slotsOf data slot)).toNat +
        (SlottedPage.slotLength (SlottedPage.slotsOf data slot)).toNat ≤ data.length ∧
      (SlottedPage.slotLength (SlottedPage.slotsOf data slot)).toNat = 4 * numFields.toNat

instance (page : SlottedPage) :
    (operation : SlottedPage.Operation) → Decidable (page.Freeable operation)
  | .addSlot _ => inferInstanceAs (Decidable True)
  | .freeSlot _ => inferInstanceAs (Decidable (_ < _))

/-- A page whose run has been computed. -/
theorem produced_of_run (buffer : Nat → UInt64) (operations : List SlottedPage.Operation)
    (along : Machine.Along SlottedPage.apply SlottedPage.Freeable
      (SlottedPage.newFor buffer (UInt32.ofNat data.length) overallPageId) operations)
    (ran : (Machine.run SlottedPage.apply
      (SlottedPage.newFor buffer (UInt32.ofNat data.length) overallPageId) operations).map
        (fun page => decide (page.header = SlottedPage.headerOf data ∧
          ∀ slot < page.header.slotCount.toNat, page.slots slot = SlottedPage.slotsOf data slot)) =
        some true)
    (room : 32 + 8 * (SlottedPage.headerOf data).slotCount.toNat ≤ data.length)
    (records : ∀ slot < (SlottedPage.headerOf data).slotCount.toNat,
      SlottedPage.slotsOf data slot ≠ 0 →
        32 ≤ (SlottedPage.slotOffset (SlottedPage.slotsOf data slot)).toNat ∧
          (SlottedPage.slotOffset (SlottedPage.slotsOf data slot)).toNat +
            (SlottedPage.slotLength (SlottedPage.slotsOf data slot)).toNat ≤ data.length ∧
          (SlottedPage.slotLength (SlottedPage.slotsOf data slot)).toNat = 4 * numFields.toNat) :
    Produced numFields overallPageId data := by
  obtain ⟨page, isPage, same⟩ := Option.map_eq_some_iff.mp ran
  obtain ⟨header, slots⟩ := of_decide_eq_true same
  exact ⟨⟨buffer, operations, page, along, isPage, header, slots⟩, room, records⟩

theorem Produced.readable (produced : Produced numFields overallPageId data) :
    Readable numFields overallPageId data := by
  obtain ⟨buffer, operations, page, _, ran, header, _⟩ := produced.run
  have kept : page.Cached ∧ page.header.overallPageId = overallPageId := by
    refine Machine.reached (P := fun page : SlottedPage =>
      page.Cached ∧ page.header.overallPageId = overallPageId)
      (fun page operation page' holds applied => ⟨holds.1.apply applied, ?_⟩)
      ⟨SlottedPage.Cached.newFor buffer _ overallPageId, rfl⟩ ran
    cases operation with
    | addSlot size => exact (SlottedPage.step_overallPageId applied).trans holds.2
    | freeSlot slotId =>
      cases applied
      exact holds.2
  rw [header] at kept
  have first := kept.1.le
  rw [header] at first
  exact ⟨kept.2, first, produced.room, produced.records⟩

/-- The bytes are the same but for the pointer in the header. -/
structure Agrees (data data' : List UInt8) : Prop where
  length : data'.length = data.length
  bytes : ∀ i, i < 8 ∨ 16 ≤ i → data[i]? = data'[i]?

theorem Agrees.headerOf (agrees : Agrees data data') :
    SlottedPage.headerOf data' = SlottedPage.headerOf data := by
  have word : ∀ off k, off + k ≤ 8 ∨ 16 ≤ off → Image.word data' off k = Image.word data off k :=
    fun off k outside => (Image.word_congr fun i low high => agrees.bytes i (by omega)).symm
  unfold SlottedPage.headerOf
  rw [word 0 8 (by decide), word 16 2 (by decide), word 18 2 (by decide), word 20 4 (by decide),
    word 24 4 (by decide)]

theorem Agrees.slotsOf (agrees : Agrees data data') :
    SlottedPage.slotsOf data' = SlottedPage.slotsOf data := by
  funext slot
  exact (SlottedPage.slotsOf_congr fun i low _ => agrees.bytes i (by omega)).symm

theorem Agrees.overwrite (agrees : Agrees data data') {src : List UInt8} (pointer : src.length = 8) :
    Agrees data (Image.overwrite data' 8 src) where
  length := by rw [Image.length_overwrite, agrees.length]
  bytes i outside := by
    rw [Image.getElem?_overwrite, if_neg (by omega)]
    exact agrees.bytes i outside

/-- The slot of a record behind the header comes to the same. -/
theorem Agrees.outcome (agrees : Agrees data data') (readable : Readable numFields overallPageId data)
    (isSlot : slot < (SlottedPage.headerOf data).slotCount.toNat) (p : Nat) :
    outcome numFields data' p slot = outcome numFields data p slot := by
  unfold Operators.outcome
  rw [agrees.slotsOf, agrees.length]
  by_cases live : SlottedPage.slotsOf data slot = 0
  · rw [live]
    dsimp only
    by_cases none : (4 * numFields).toUInt32 ≤ SlottedPage.slotLength 0
    · have zero : (4 * numFields).toUInt32.toNat = 0 :=
        Nat.le_zero.mp (UInt32.le_iff_toNat_le.mp none)
      rw [zero, List.take_zero, List.take_zero]
    · rw [if_neg fun reads => none reads.1, if_neg fun reads => none reads.1]
  · have behind := (readable.records slot isSlot live).1
    have record : ∀ k, (data'.drop (SlottedPage.slotOffset (SlottedPage.slotsOf data slot)).toNat).take
        k = (data.drop (SlottedPage.slotOffset (SlottedPage.slotsOf data slot)).toNat).take k :=
      fun k => (Image.take_drop_congr fun i low _ => agrees.bytes i (by omega)).symm
    dsimp only
    rw [record]

/-- A live record is read as it is. -/
theorem Readable.outcome (readable : Readable numFields overallPageId data)
    (isSlot : slot < (SlottedPage.headerOf data).slotCount.toNat)
    (live : SlottedPage.slotsOf data slot ≠ 0) (p : Nat) :
    outcome numFields data p slot = some (tupleAt numFields data p slot) := by
  obtain ⟨_, fits, length⟩ := readable.records slot isSlot live
  have small : (SlottedPage.slotLength (SlottedPage.slotsOf data slot)).toNat < 2 ^ 24 := by
    rw [SlottedPage.slotLength, UInt64.toNat_toUInt32, UInt64.toNat_shiftRight, UInt64.toNat_shiftLeft]
    simp only [Nat.shiftLeft_eq, Nat.shiftRight_eq_div_pow, UInt64.reduceToNat, Nat.reduceMod]
    omega
  have four : (4 * numFields).toNat = 4 * numFields.toNat := by
    rw [UInt64.toNat_mul]
    change 4 * numFields.toNat % 2 ^ 64 = _
    omega
  have same : (4 * numFields).toUInt32 = SlottedPage.slotLength (SlottedPage.slotsOf data slot) := by
    apply UInt32.toNat_inj.mp
    rw [UInt64.toNat_toUInt32, four, length]
    omega
  have record : ((data.drop (SlottedPage.slotOffset (SlottedPage.slotsOf data slot)).toNat).take
      (SlottedPage.slotLength (SlottedPage.slotsOf data slot)).toNat).length = 4 * numFields.toNat := by
    rw [List.length_take, List.length_drop]
    omega
  have copied := Image.overwrite_all (List.replicate (4 * numFields.toNat) 0) _
    (record.trans List.length_replicate.symm)
  unfold Operators.outcome
  dsimp only
  rw [same, four, if_pos ⟨UInt32.le_refl _, fits, le_rfl⟩, copied]
  rfl

/-! ## The buffer manager of a scan -/

theorem pageIdOf_valid (few : p + 1 < 2 ^ 48) : pageIdOf tableId p ≠ invalidPageId := by
  intro invalid
  have number : (UInt64.ofNat p).toNat = p := UInt64.toNat_ofNat_of_lt' (show p < 2 ^ 64 by omega)
  have same := congrArg UInt64.toNat invalid
  rw [pageIdOf, toNat_getOverallPageId (by omega), number] at same
  have last : invalidPageId.toNat = 2 ^ 64 - 1 := rfl
  omega

theorem pageIdOf_inj {q : Nat} (few : p < 2 ^ 48) (few' : q < 2 ^ 48)
    (same : pageIdOf tableId p = pageIdOf tableId q) : p = q := by
  have number : ∀ k < 2 ^ 48, (UInt64.ofNat k).toNat = k :=
    fun k small => UInt64.toNat_ofNat_of_lt' (show k < 2 ^ 64 by omega)
  have index := getOverallPageId_inj (by rw [number p few]; exact few)
    (by rw [number q few']; exact few') same
  rw [← number p few, index, number q few']

/-- A buffer manager that has loaded the first pages of the table. -/
structure Loaded (tableId : UInt16) (pages : Nat → List UInt8) (capacity numPages : Nat)
    (bm : HeapSystem) (loaded : Nat) : Prop where
  wf : bm.sys.bm.Wf
  pool : bm.sys.bm.pool.length = capacity
  addresses : bm.addresses.length = capacity
  counter : bm.sys.bm.pageCounter = loaded
  room : loaded = 0 ∨ loaded < capacity
  frames : ∀ p < numPages, bm.sys.bm.HasFrame (pageIdOf tableId p) ↔ p < loaded
  shown : ∀ p < numPages, Agrees (pages p) (bm.sys.bm.shown (pageIdOf tableId p))

variable {bm bm' : HeapSystem} {loaded f : Nat}

theorem Loaded.room_iff (holds : Loaded tableId pages capacity n bm loaded) (few : n < 2 ^ 48)
    (more : p < n) (next : p ≤ loaded) :
    bm.sys.bm.Room [pageIdOf tableId p] ↔ p + 1 < capacity := by
  have valid : invalidPageId ∉ [pageIdOf tableId p] := by
    rw [List.mem_singleton]
    exact fun same => pageIdOf_valid (by omega) same.symm
  rw [BufferManager.Room, and_iff_right valid, BufferManager.missing_singleton, holds.counter,
    holds.pool]
  have room := holds.room
  by_cases old : p < loaded
  · rw [if_pos ((holds.frames p more).mpr old)]
    exact iff_of_true (Or.inl rfl) (by omega)
  · rw [if_neg (mt (holds.frames p more).mp old), Finset.card_singleton,
      or_iff_right (Finset.singleton_ne_empty _)]
    have last : p = loaded := by omega
    rw [last]

/-- `fix_page` of the page of a scan. -/
theorem Loaded.fixPage (holds : Loaded tableId pages capacity n bm loaded) (few : n < 2 ^ 48)
    (more : p < n) (next : p ≤ loaded) (fits : p + 1 < capacity) :
    ∃ bm' f, bm.fixPage (pageIdOf tableId p) = some (bm', f) ∧
      PagePool.Home bm' (pageIdOf tableId p) f ∧
      Loaded tableId pages capacity n bm' (max loaded (p + 1)) := by
  have isSome := BufferManager.fixPage_isSome.mpr ((holds.room_iff few more next).mpr fits)
  obtain ⟨⟨inner, f⟩, fixed⟩ := Option.isSome_iff_exists.mp isSome
  have result : bm.fixPage (pageIdOf tableId p) = some (bm.withBm inner, f) := by
    rw [HeapSystem.fixPage, fixed]
    rfl
  obtain ⟨keeps, home⟩ := HeapSystem.fixes bm _ _ _ holds.wf result
  have touches := holds.wf.fixPage_touches fixed
  have room := holds.room
  refine ⟨_, f, result, home, keeps.wf, touches.capacity.trans holds.pool, holds.addresses, ?_,
    by omega, fun q isPage => ?_, fun q isPage => ?_⟩
  · have counter := touches.counter
    rw [BufferManager.missing_singleton, holds.counter] at counter
    refine counter.trans ?_
    by_cases old : p < loaded
    · rw [if_pos ((holds.frames p more).mpr old), Finset.card_empty]
      omega
    · rw [if_neg (mt (holds.frames p more).mp old), Finset.card_singleton]
      omega
  · refine (touches.hasFrame _ (pageIdOf_valid (by omega))).trans ?_
    rw [holds.frames q isPage, List.mem_singleton]
    constructor
    · intro either
      rcases either with old | same
      · omega
      · have := pageIdOf_inj (by omega) (by omega) same
        omega
    · intro less
      by_cases same : q = p
      · exact Or.inr (by rw [same])
      · exact Or.inl (by omega)
  · have view : (bm.withBm inner).sys.bm.shown (pageIdOf tableId q) =
        bm.sys.bm.shown (pageIdOf tableId q) := (keeps.view (pageIdOf tableId q) trivial).2
    rw [view]
    exact holds.shown q isPage

/-- There is no frame for it. -/
theorem Loaded.fixPage_none (holds : Loaded tableId pages capacity n bm loaded) (few : n < 2 ^ 48)
    (more : p < n) (next : p ≤ loaded) (full : ¬ p + 1 < capacity) :
    bm.fixPage (pageIdOf tableId p) = none := by
  have isNone : bm.sys.bm.fixPage (pageIdOf tableId p) = none := by
    rw [← Option.not_isSome_iff_eq_none, BufferManager.fixPage_isSome, holds.room_iff few more next]
    exact full
  rw [HeapSystem.fixPage, isNone]
  rfl

/-- A page whose pointer has been changed, behind `unfix_page`. -/
theorem Loaded.unfixPage (holds : Loaded tableId pages capacity n bm loaded) (few : n < 2 ^ 48)
    (more : p < n) (home : PagePool.Home bm (pageIdOf tableId p) f)
    (agrees : Agrees (pages p) data) (length : data.length = pageSize bm) :
    Loaded tableId pages capacity n (HeapSystem.unfixPage true (setData bm f data) f) loaded := by
  have puts := HeapSystem.closes bm _ f data holds.wf home length
  have same : BufferManager.SameFrames bm.sys.bm
      (HeapSystem.unfixPage true (setData bm f data) f).sys.bm :=
    (BufferManager.setData_same bm.sys.bm f data).trans (BufferManager.unfixPage_same _ f true)
  have pool := congrArg List.length same.pages
  rw [List.length_map, List.length_map] at pool
  refine ⟨puts.wf, pool.trans holds.pool, holds.addresses, same.counter.trans holds.counter,
    holds.room, fun q isPage => ?_, fun q isPage => ?_⟩
  · rw [BufferManager.hasFrame_iff, same.pages, ← BufferManager.hasFrame_iff]
    exact holds.frames q isPage
  · by_cases isP : pageIdOf tableId q = pageIdOf tableId p
    · rw [isP, pageIdOf_inj (by omega) (by omega) isP]
      have view : (HeapSystem.unfixPage true (setData bm f data) f).sys.bm.shown
          (pageIdOf tableId p) = data := puts.self.2
      rw [view]
      exact agrees
    · have view : (HeapSystem.unfixPage true (setData bm f data) f).sys.bm.shown
          (pageIdOf tableId q) = bm.sys.bm.shown (pageIdOf tableId q) :=
        (puts.others _ isP trivial).2
      rw [view]
      exact holds.shown q isPage

/-! ## The calls of a scan -/

/-- A page that is fixed again, with other bytes, is where it was. -/
theorem fixPage_again {q : UInt64} (wf : bm.sys.bm.Wf) (home : PagePool.Home bm q f) :
    (setData bm f data : HeapSystem).fixPage q = some (setData bm f data, f) := by
  obtain ⟨valid, frame, at_f, isPage⟩ := home
  have present : bm.sys.bm.HasFrame q := ⟨frame, List.mem_of_getElem? at_f, isPage⟩
  have same : BufferManager.SameFrames bm.sys.bm (setData bm f data : HeapSystem).sys.bm :=
    BufferManager.setData_same bm.sys.bm f data
  have present' : (setData bm f data : HeapSystem).sys.bm.HasFrame q := by
    rw [BufferManager.hasFrame_iff, same.pages, ← BufferManager.hasFrame_iff]
    exact present
  obtain ⟨g, found⟩ := Option.isSome_iff_exists.mp
    (BufferManager.getFrameIdOfPage_isSome.mpr present')
  obtain ⟨other, at_g, isOther⟩ := BufferManager.getFrameIdOfPage_spec found
  have here : g = f := by
    have back : BufferManager.SameFrames (setData bm f data : HeapSystem).sys.bm bm.sys.bm :=
      ⟨same.pages.symm, same.counter.symm⟩
    obtain ⟨other', at_g', isOther'⟩ := back.getElem? at_g
    have isQ := isOther'.trans isOther
    exact wf.unique g f other' frame at_g' at_f (isQ.trans isPage.symm) (isQ ▸ valid)
  rw [HeapSystem.fixPage, BufferManager.fixPage, if_neg valid, found, here]
  rfl

/-- `unfix_page` of a page that was only read. -/
theorem unfixPage_false (bm : HeapSystem) (f : Nat) : HeapSystem.unfixPage false bm f = bm := by
  have same : bm.sys.bm.unfixPage f false = bm.sys.bm := by
    unfold BufferManager.unfixPage
    split
    · rename_i frame at_f
      obtain ⟨inside, isFrame⟩ := List.getElem?_eq_some_iff.mp at_f
      rw [Bool.or_false, ← isFrame, List.set_getElem_self]
    · rfl
  rw [HeapSystem.unfixPage, same]
  rfl

/-- A slot of a page that points to its frame is read as its bytes say. -/
theorem readTuple_eq (scan : SeqScan) (holds : Loaded tableId pages capacity n bm loaded)
    (few : p < 2 ^ 48) (home : PagePool.Home bm (pageIdOf tableId p) f)
    (segment : scan.heapSegment.segmentId = tableId)
    (sized : data.length = (getData bm f).length)
    (pointer : bm.addresses[f]? = some (SlottedPage.bufferFrame data))
    (short : slot < 2 ^ 16) (inside : 40 + 8 * slot ≤ data.length) :
    scan.readTuple (setData bm f data) (tid (pageIdOf tableId p) (UInt16.ofNat slot)) =
      (outcome scan.numFields data p slot).map fun found => (setData bm f data, found.tuple) := by
  have number : (UInt64.ofNat p).toNat = p := UInt64.toNat_ofNat_of_lt' (show p < 2 ^ 64 by omega)
  have slotNumber : (UInt16.ofNat slot).toNat = slot := UInt16.toNat_ofNat_of_lt' short
  have ofTid : overallPageIdOf scan.heapSegment.segmentId
      (tid (pageIdOf tableId p) (UInt16.ofNat slot)) = pageIdOf tableId p := by
    rw [segment]
    exact overallPageIdOf_tid (by rw [number]; exact few)
  have bytes : getData (setData bm f data) f = data := getData_setData_self sized
  have own : slotFrame (setData bm f data) f = some f := by
    rw [slotFrame_iff (by rw [addresses_setData]; exact bm.distinct), addresses_setData, bytes]
    exact pointer
  have got : getSlot (setData bm f data) f (UInt16.ofNat slot) =
      some (SlottedPage.slotsOf data slot) := by
    rw [getSlot_of_inside own (by rw [bytes, slotNumber]; exact inside), bytes, slotNumber]
  unfold SeqScan.readTuple HeapSegment.read outcome
  simp only [ofTid, slotIdOf_tid, Option.bind_eq_bind, fixPage_again holds.wf home, Option.bind_some,
    got, copyOut, bytes, SeqScan.tupleSize, unfixPage_false]
  by_cases short : (4 * scan.numFields).toUInt32 ≤
      SlottedPage.slotLength (SlottedPage.slotsOf data slot)
  · by_cases room : (SlottedPage.slotOffset (SlottedPage.slotsOf data slot)).toNat +
        (4 * scan.numFields).toUInt32.toNat ≤ data.length
    · rw [if_pos short, if_pos room]
      simp only [Option.bind_some, Option.pure_def, Image.length_overwrite, List.length_replicate]
      by_cases whole : 4 * scan.numFields.toNat ≤ (4 * scan.numFields).toNat
      · rw [if_pos whole, if_pos ⟨short, room, whole⟩]
        rfl
      · rw [if_neg whole, if_neg fun reads => whole reads.2.2]
        rfl
    · rw [if_pos short, if_neg room, if_neg fun reads => room reads.2.1]
      rfl
  · rw [if_neg short, if_neg fun reads => short reads.1]
    rfl

theorem outcome_position {found : Found} (reads : outcome numFields data p slot = some found) :
    found.segment = p ∧ found.slot = slot := by
  unfold outcome at reads
  dsimp only at reads
  split at reads
  · cases reads
    exact ⟨rfl, rfl⟩
  · cases reads

/-- The pages of a table as a scan with `capacity` frames meets them. -/
structure Table (tableId : UInt16) (numPages numFields : UInt64) (pages : Nat → List UInt8) : Prop where
  few : numPages.toNat < 2 ^ 48
  readable : ∀ p < numPages.toNat, Readable numFields (pageIdOf tableId p) (pages p)

/-- The states of a scan, by what lies ahead. -/
structure Ahead (tableId : UInt16) (numPages numFields : UInt64) (pages : Nat → List UInt8)
    (capacity : Nat) (scan : SeqScan) (ahead : List (Option Found)) : Prop where
  segment : scan.heapSegment.segmentId = tableId
  pageCount : scan.numPages = numPages
  fieldCount : scan.numFields = numFields
  loaded : ∃ loaded, Loaded tableId pages capacity numPages.toNat scan.bufferManager loaded ∧
    scan.currSegment ≤ loaded
  ahead : ahead = outcomes numFields pages capacity numPages.toNat scan.currSegment scan.currSlot

/-- What a call comes to, by what lies ahead. -/
def Comes (tableId : UInt16) (numPages numFields : UInt64) (pages : Nat → List UInt8)
    (capacity : Nat) (scan : SeqScan) : List (Option Found) → Prop
  | [] => ∃ scan', scan.next = some (scan', none) ∧
      Ahead tableId numPages numFields pages capacity scan' []
  | none :: _ => scan.next = none
  | some found :: rest => ∃ scan', scan.next = some (scan', some found) ∧
      Ahead tableId numPages numFields pages capacity scan' rest

/-- The page at the position, fixed, with its pointer set. -/
theorem Loaded.visit (holds : Loaded tableId pages capacity n bm loaded) (few : n < 2 ^ 48)
    (more : p < n) (at_p : p ≤ loaded) (fits : p + 1 < capacity)
    (readable : Readable numFields overallPageId (pages p)) :
    ∃ bm' f data, bm.fixPage (pageIdOf tableId p) = some (bm', f) ∧
      repoint bm' f = some (setData bm' f data) ∧
      Loaded tableId pages capacity n bm' (max loaded (p + 1)) ∧
      PagePool.Home bm' (pageIdOf tableId p) f ∧
      Agrees (pages p) data ∧ data.length = (getData bm' f).length ∧
      data.length = pageSize bm' ∧
      bm'.addresses[f]? = some (SlottedPage.bufferFrame data) := by
  obtain ⟨bm', f, fixed, home, holds'⟩ := holds.fixPage few more at_p fits
  obtain ⟨_, view⟩ := PagePool.shown bm' _ f holds'.wf home
  have sized := PagePool.sized bm' _ f holds'.wf home
  have agrees : Agrees (pages p) (getData bm' f) := view ▸ holds'.shown p more
  have room := readable.room
  have long : 32 ≤ (getData bm' f).length := by
    rw [agrees.length]
    omega
  have inPool : f < bm'.addresses.length := by
    obtain ⟨_, frame, at_f, _⟩ := home
    rw [holds'.addresses, ← holds'.pool]
    exact (List.getElem?_eq_some_iff.mp at_f).1
  have address := List.getElem?_eq_getElem inPool
  have pointed : repoint bm' f = some (setData bm' f (Image.overwrite (getData bm' f) 8
      (Image.bytesOf 8 bm'.addresses[f].toNat))) := by
    have isAddress : (FramePool.addresses bm')[f]? = some bm'.addresses[f] := address
    rw [repoint, isAddress]
    change copyIn bm' f 8 (Image.bytesOf 8 bm'.addresses[f].toNat) = _
    rw [copyIn, if_pos (by rw [Image.length_bytesOf]; omega)]
  refine ⟨bm', f, _, fixed, pointed, holds', home, agrees.overwrite (Image.length_bytesOf 8 _),
    Image.length_overwrite _ _ _, (Image.length_overwrite _ _ _).trans sized, ?_⟩
  rw [SlottedPage.bufferFrame_overwrite (by omega)]
  exact address

variable {scan : SeqScan} {ahead : List (Option Found)}

/-- `has_next` behind the last page. -/
theorem Ahead.end (isAhead : Ahead tableId numPages numFields pages capacity scan ahead)
    (done : numPages.toNat ≤ scan.currSegment) : ahead = [] ∧ scan.next = some (scan, none) := by
  have ended : ¬ scan.currSegment < numPages.toNat := by omega
  constructor
  · rw [isAhead.ahead, outcomes, if_neg ended]
  · rw [SeqScan.next, SeqScan.hasNext, dif_neg (by rw [isAhead.pageCount]; exact ended)]
    rfl

/-- `has_next` at a page without a frame. -/
theorem Ahead.full (isAhead : Ahead tableId numPages numFields pages capacity scan ahead)
    (few : numPages.toNat < 2 ^ 48) (more : scan.currSegment < numPages.toNat)
    (full : ¬ scan.currSegment + 1 < capacity) :
    (∃ rest, ahead = none :: rest) ∧ scan.next = none := by
  obtain ⟨loaded, holds, at_p⟩ := isAhead.loaded
  constructor
  · rw [isAhead.ahead, outcomes, if_pos more, pageOutcomes, if_neg full]
    exact ⟨_, rfl⟩
  · have missing := holds.fixPage_none few more at_p full
    rw [pageIdOf, ← isAhead.segment] at missing
    rw [SeqScan.next, SeqScan.hasNext, dif_pos (by rw [isAhead.pageCount]; exact more)]
    simp only [missing, Option.bind_eq_bind, Option.bind_none]

/-- `has_next` at a page with a frame: it is fixed, its pointer is set, and its slots are read as they
come. -/
theorem Ahead.visit (isAhead : Ahead tableId numPages numFields pages capacity scan ahead)
    (table : Table tableId numPages numFields pages) (more : scan.currSegment < numPages.toNat)
    (fits : scan.currSegment + 1 < capacity) :
    ∃ bm f data loaded,
      scan.bufferManager.fixPage (getOverallPageId scan.heapSegment.segmentId
        (UInt64.ofNat scan.currSegment)) = some (bm, f) ∧
      repoint bm f = some (setData bm f data) ∧
      SlottedPage.headerOf (getData (setData bm f data) f) =
        SlottedPage.headerOf (pages scan.currSegment) ∧
      Loaded tableId pages capacity numPages.toNat (HeapSystem.unfixPage true (setData bm f data) f)
        loaded ∧
      scan.currSegment + 1 ≤ loaded ∧
      ∀ slot < (SlottedPage.headerOf (pages scan.currSegment)).slotCount.toNat,
        scan.readTuple (setData bm f data)
            (tid (pageIdOf tableId scan.currSegment) (UInt16.ofNat slot)) =
          (outcome numFields (pages scan.currSegment) scan.currSegment slot).map fun found =>
            (setData bm f data, found.tuple) := by
  obtain ⟨loaded, holds, at_p⟩ := isAhead.loaded
  have few := table.few
  have readable := table.readable _ more
  obtain ⟨bm, f, data, fixed, pointed, holds', home, agrees, sized, whole, pointer⟩ :=
    holds.visit few more at_p fits readable
  have header : SlottedPage.headerOf (getData (setData bm f data) f) =
      SlottedPage.headerOf (pages scan.currSegment) := by
    rw [getData_setData_self sized, agrees.headerOf]
  rw [pageIdOf, ← isAhead.segment] at fixed
  refine ⟨bm, f, data, max loaded (scan.currSegment + 1), fixed, pointed, header,
    holds'.unfixPage few more home agrees whole, Nat.le_max_right _ _, fun slot isSlot => ?_⟩
  have inside : 40 + 8 * slot ≤ data.length := by
    have room := readable.room
    rw [agrees.length]
    omega
  have reads := readTuple_eq scan holds' (by omega) home isAhead.segment sized pointer
    (isSlot.trans (UInt16.toNat_lt _)) inside
  rwa [isAhead.fieldCount, agrees.outcome readable isSlot] at reads

/-- `has_next` behind the last slot of a page goes on with the next page. -/
theorem Ahead.turn (isAhead : Ahead tableId numPages numFields pages capacity scan ahead)
    (table : Table tableId numPages numFields pages) (more : scan.currSegment < numPages.toNat)
    (fits : scan.currSegment + 1 < capacity)
    (past : (SlottedPage.headerOf (pages scan.currSegment)).firstFreeSlot.toNat ≤ scan.currSlot) :
    ∃ scan', scan.next = scan'.next ∧ scan'.currSegment = scan.currSegment + 1 ∧
      Ahead tableId numPages numFields pages capacity scan' ahead := by
  obtain ⟨bm, f, data, loaded, fixed, pointed, header, holds, further, _⟩ :=
    isAhead.visit table more fits
  let scan' := { scan with
    bufferManager := HeapSystem.unfixPage true (setData bm f data) f
    currSegment := scan.currSegment + 1
    currSlot := 0 }
  have same : scan.hasNext = scan'.hasNext := by
    rw [SeqScan.hasNext, dif_pos (by rw [isAhead.pageCount]; exact more)]
    simp only [fixed, pointed, header, Option.bind_eq_bind, Option.bind_some,
      if_neg (Nat.not_lt.mpr past)]
    rfl
  refine ⟨scan', by rw [SeqScan.next, SeqScan.next, same], rfl, isAhead.segment, isAhead.pageCount,
    isAhead.fieldCount, ⟨loaded, holds, further⟩, ?_⟩
  rw [isAhead.ahead]
  exact outcomes_turn more fits past

/-- `has_next` at a slot reads it. -/
theorem Ahead.read (isAhead : Ahead tableId numPages numFields pages capacity scan ahead)
    (table : Table tableId numPages numFields pages) (more : scan.currSegment < numPages.toNat)
    (fits : scan.currSegment + 1 < capacity)
    (below : scan.currSlot < (SlottedPage.headerOf (pages scan.currSegment)).firstFreeSlot.toNat) :
    ∃ bm, scan.next = (outcome numFields (pages scan.currSegment) scan.currSegment
        scan.currSlot).map (fun found => ({ scan with
          bufferManager := bm
          currSlot := scan.currSlot + 1
          tuple := found.tuple }, some found)) ∧
      ∃ loaded, Loaded tableId pages capacity numPages.toNat bm loaded ∧
        scan.currSegment ≤ loaded := by
  obtain ⟨bm, f, data, loaded, fixed, pointed, header, holds, further, reads⟩ :=
    isAhead.visit table more fits
  have readable := table.readable _ more
  have isRead := reads scan.currSlot (below.trans_le readable.first)
  refine ⟨HeapSystem.unfixPage true (setData bm f data) f, ?_, loaded, holds, Nat.le_of_succ_le further⟩
  rw [SeqScan.next, SeqScan.hasNext, dif_pos (by rw [isAhead.pageCount]; exact more)]
  simp only [fixed, pointed, header, readable.pageId, if_pos below, isRead, Option.bind_eq_bind,
    Option.bind_some]
  cases came : outcome numFields (pages scan.currSegment) scan.currSegment scan.currSlot with
  | none => rfl
  | some found =>
    obtain ⟨segment, slot⟩ := outcome_position came
    rw [← segment, ← slot]
    rfl

/-- A call of `has_next` comes to the first outcome ahead; by induction on the pages that are left. -/
theorem Ahead.comes (isAhead : Ahead tableId numPages numFields pages capacity scan ahead)
    (table : Table tableId numPages numFields pages) :
    Comes tableId numPages numFields pages capacity scan ahead := by
  obtain ⟨left, isLeft⟩ : ∃ left, left = numPages.toNat - scan.currSegment := ⟨_, rfl⟩
  induction left generalizing scan with
  | zero =>
    obtain ⟨none, next⟩ := isAhead.end (by omega)
    subst none
    exact ⟨scan, next, isAhead⟩
  | succ left ih =>
    have more : scan.currSegment < numPages.toNat := by omega
    by_cases fits : scan.currSegment + 1 < capacity
    · by_cases below : scan.currSlot <
          (SlottedPage.headerOf (pages scan.currSegment)).firstFreeSlot.toNat
      · obtain ⟨bm', next, loaded⟩ := isAhead.read table more fits below
        have same := isAhead.ahead.trans (outcomes_slot more fits below)
        rw [same]
        cases came : outcome numFields (pages scan.currSegment) scan.currSegment scan.currSlot with
        | none =>
          rw [came] at next
          exact next
        | some found =>
          rw [came] at next
          exact ⟨_, next, isAhead.segment, isAhead.pageCount, isAhead.fieldCount, loaded, rfl⟩
      · obtain ⟨scan', next, turned, isAhead'⟩ := isAhead.turn table more fits (Nat.le_of_not_lt below)
        have later := ih isAhead' (by omega)
        unfold Comes at later ⊢
        rw [next]
        exact later
    · obtain ⟨⟨rest, none⟩, next⟩ := isAhead.full table.few more fits
      rw [none]
      exact next

theorem Table.walks (table : Table tableId numPages numFields pages) :
    Enumeration.Walks SeqScan.next SeqScan.reset
      (Ahead tableId numPages numFields pages capacity)
      (outcomes numFields pages capacity numPages.toNat 0 0) where
  found _ _ _ isAhead := isAhead.comes table
  stuck _ _ isAhead := isAhead.comes table
  ended _ isAhead := isAhead.comes table
  restart scan _ isAhead := by
    obtain ⟨loaded, holds, _⟩ := isAhead.loaded
    exact ⟨isAhead.segment, isAhead.pageCount, isAhead.fieldCount, ⟨loaded, holds, Nat.zero_le _⟩, rfl⟩

/-! ## Live records -/

/-- The live slots of a compact page. -/
theorem Readable.liveSlots_eq (readable : Readable numFields overallPageId data)
    (compact : Compact data) :
    liveSlots data = List.range (SlottedPage.headerOf data).firstFreeSlot.toNat := by
  obtain ⟨behind, isBehind⟩ := Nat.exists_eq_add_of_le readable.first
  have split : List.range (SlottedPage.headerOf data).slotCount.toNat =
      List.range (SlottedPage.headerOf data).firstFreeSlot.toNat ++
        List.range' (SlottedPage.headerOf data).firstFreeSlot.toNat behind := by
    simpa only [List.range_eq_range', Nat.zero_add, isBehind] using
      (List.range'_append_1 (s := 0) (m := (SlottedPage.headerOf data).firstFreeSlot.toNat)
        (n := behind)).symm
  rw [liveSlots, split, List.filter_append, List.filter_eq_self.mpr, List.filter_eq_nil_iff.mpr,
    List.append_nil]
  · intro slot member
    obtain ⟨low, high⟩ := List.mem_range'_1.mp member
    simpa using fun live => Nat.not_lt.mpr low ((compact slot (by omega)).mp live)
  · intro slot member
    have below := List.mem_range.mp member
    simpa using (compact slot (by omega)).mpr below

theorem mem_liveRecords {found : Found} :
    found ∈ liveRecords numFields pages n ↔ ∃ p < n, ∃ slot ∈ liveSlots (pages p),
      tupleAt numFields (pages p) p slot = found := by
  simp only [liveRecords, List.mem_flatMap, List.mem_range, List.mem_map]

theorem mem_liveSlots : slot ∈ liveSlots data ↔
    slot < (SlottedPage.headerOf data).slotCount.toNat ∧ SlottedPage.slotsOf data slot ≠ 0 := by
  simp [liveSlots]

theorem mem_outcomes {came : Option Found} :
    came ∈ outcomes numFields pages capacity n 0 0 ↔
      ∃ p < n, came ∈ pageOutcomes numFields pages capacity 0 p := by
  rw [outcomes_start]
  simp only [outcomesFrom, List.mem_flatMap, List.mem_range'_1, Nat.zero_le, true_and, Nat.sub_zero,
    Nat.zero_add]

theorem mem_pageOutcomes (fits : p + 1 < capacity) {came : Option Found} :
    came ∈ pageOutcomes numFields pages capacity 0 p ↔
      ∃ slot < (SlottedPage.headerOf (pages p)).firstFreeSlot.toNat,
        outcome numFields (pages p) p slot = came := by
  rw [pageOutcomes, if_pos fits, List.drop_zero]
  simp only [List.mem_map, List.mem_range]

/-- In compact pages that get a frame each, what lies ahead of a new scan is what lives there. -/
theorem Table.outcomes_eq (table : Table tableId numPages numFields pages)
    (compact : ∀ p < numPages.toNat, Compact (pages p))
    (fits : ∀ p < numPages.toNat, p + 1 < capacity) :
    outcomes numFields pages capacity numPages.toNat 0 0 =
      (liveRecords numFields pages numPages.toNat).map some := by
  rw [outcomes_start, outcomesFrom, liveRecords, List.map_flatMap, Nat.sub_zero,
    ← List.range_eq_range']
  refine List.flatMap_congr fun p member => ?_
  have isPage := List.mem_range.mp member
  have readable := table.readable p isPage
  rw [pageOutcomes, if_pos (fits p isPage), List.drop_zero,
    readable.liveSlots_eq (compact p isPage), List.map_map]
  refine List.map_congr_left fun slot isSlot => ?_
  have below := List.mem_range.mp isSlot
  have inside := below.trans_le readable.first
  exact readable.outcome inside ((compact p isPage slot inside).mpr below) p

/-- Otherwise it is not: a page without a frame ends the program, and the position of a tuple
is that of its slot. -/
theorem Table.outcomes_eq_iff (table : Table tableId numPages numFields pages) :
    outcomes numFields pages capacity numPages.toNat 0 0 =
        (liveRecords numFields pages numPages.toNat).map some ↔
      (∀ p < numPages.toNat, Compact (pages p)) ∧ ∀ p < numPages.toNat, p + 1 < capacity := by
  constructor
  · intro same
    have shows : ∀ came, (∃ p < numPages.toNat, came ∈ pageOutcomes numFields pages capacity 0 p) ↔
        ∃ found, found ∈ liveRecords numFields pages numPages.toNat ∧ some found = came := by
      intro came
      rw [← mem_outcomes, same, List.mem_map]
    have fits : ∀ p < numPages.toNat, p + 1 < capacity := by
      intro p isPage
      by_contra full
      have stuck : none ∈ pageOutcomes numFields pages capacity 0 p := by
        rw [pageOutcomes, if_neg full, List.mem_singleton]
      obtain ⟨found, _, wrong⟩ := (shows none).mp ⟨p, isPage, stuck⟩
      cases wrong
    refine ⟨fun p isPage slot isSlot => ⟨fun live => ?_, fun below => ?_⟩, fits⟩
    · have isLive : tupleAt numFields (pages p) p slot ∈ liveRecords numFields pages numPages.toNat :=
        mem_liveRecords.mpr ⟨p, isPage, slot, mem_liveSlots.mpr ⟨isSlot, live⟩, rfl⟩
      obtain ⟨q, isPage', member⟩ := (shows _).mpr ⟨_, isLive, rfl⟩
      obtain ⟨slot', below, reads⟩ := (mem_pageOutcomes (fits q isPage')).mp member
      obtain ⟨segment, isSlot'⟩ := outcome_position reads
      have here : p = q := segment
      have at_slot : slot = slot' := isSlot'
      rw [here, at_slot]
      exact below
    · obtain ⟨found, isLive, isFound⟩ := (shows _).mp
        ⟨p, isPage, (mem_pageOutcomes (fits p isPage)).mpr ⟨slot, below, rfl⟩⟩
      obtain ⟨segment, isSlot'⟩ := outcome_position isFound.symm
      obtain ⟨q, _, slot', member, isTuple⟩ := mem_liveRecords.mp isLive
      have here : q = p := (congrArg Found.segment isTuple).trans segment
      have at_slot : slot' = slot := (congrArg Found.slot isTuple).trans isSlot'
      rw [here, at_slot] at member
      exact (mem_liveSlots.mp member).2
  · rintro ⟨compact, fits⟩
    exact table.outcomes_eq compact fits

/-- The bytes of a page of a table in the segment files. -/
def pagesOf (pageSize : Nat) (disk : Disk UInt8) (tableId : UInt16) (p : Nat) : List UInt8 :=
  (List.range pageSize).map (disk.byte pageSize (pageIdOf tableId p))

section New

variable {pageSize pageCount : Nat} {pageSize_lt : pageSize < 2 ^ 64} {disk : Disk UInt8}
  {logFile : List UInt8} {addresses : List UInt64} {distinct : addresses.Nodup}

/-- The buffer manager of a new scan. -/
theorem Loaded.new (enough : addresses.length = pageCount) (few : n < 2 ^ 48) :
    Loaded tableId (pagesOf pageSize disk tableId) pageCount n
      (.new pageSize pageSize_lt pageCount disk logFile addresses distinct) 0 where
  wf := BufferManager.Wf.new pageSize pageSize_lt pageCount disk
  pool := List.length_replicate
  addresses := enough
  counter := rfl
  room := Or.inl rfl
  frames p isPage := by
    refine iff_of_false (fun present => ?_) (Nat.not_lt_zero p)
    obtain ⟨frame, member, isPage'⟩ := present
    rw [List.eq_of_mem_replicate member] at isPage'
    exact pageIdOf_valid (by omega) isPage'.symm
  shown p _ := by
    have same : (BufferManager.new pageSize pageSize_lt pageCount disk).shown (pageIdOf tableId p) =
        pagesOf pageSize disk tableId p :=
      List.map_congr_left fun i _ => BufferManager.byte_new pageSize pageSize_lt pageCount disk _ i
    exact ⟨congrArg List.length same, fun i _ => congrArg (·[i]?) same.symm⟩

/-- A scan over pages that it can read. -/
theorem Table.enumerates_iff
    (table : Table tableId numPages numFields (pagesOf pageSize disk tableId))
    (enough : addresses.length = pageCount) :
    Enumeration.Enumerates SeqScan.next SeqScan.reset
        (SeqScan.new tableId numPages numFields
          (.new pageSize pageSize_lt pageCount disk logFile addresses distinct)).reset
        (liveRecords numFields (pagesOf pageSize disk tableId) numPages.toNat) ↔
      (∀ p < numPages.toNat, Compact (pagesOf pageSize disk tableId p)) ∧
        ∀ p < numPages.toNat, p + 1 < pageCount := by
  have isAhead : Ahead tableId numPages numFields (pagesOf pageSize disk tableId) pageCount
      (SeqScan.new tableId numPages numFields
        (.new pageSize pageSize_lt pageCount disk logFile addresses distinct)).reset
      (outcomes numFields (pagesOf pageSize disk tableId) pageCount numPages.toNat 0 0) :=
    ⟨rfl, rfl, rfl, ⟨0, Loaded.new enough table.few, Nat.le_refl 0⟩, rfl⟩
  exact (table.walks.enumerates_iff isAhead).trans table.outcomes_eq_iff

end New

/-- A scan over pages that calls of `addSlot` and freed slots have made returns what lives there,
again behind every `reset`, exactly if the live slots of each page are those below its first
free slot and the pool has a frame for each page. -/
theorem scan_iff_compact (pageSize : Nat) (pageSize_lt : pageSize < 2 ^ 64) (pageCount : Nat)
    (disk : Disk UInt8) (logFile : List UInt8) (addresses : List UInt64) (distinct : addresses.Nodup)
    (enough : addresses.length = pageCount) (tableId : UInt16) (numPages numFields : UInt64)
    (few : numPages.toNat < 2 ^ 48)
    (produced : ∀ p < numPages.toNat,
      Produced numFields (pageIdOf tableId p) (pagesOf pageSize disk tableId p)) :
    Enumeration.Enumerates SeqScan.next SeqScan.reset
        (SeqScan.new tableId numPages numFields
          (.new pageSize pageSize_lt pageCount disk logFile addresses distinct)).reset
        (liveRecords numFields (pagesOf pageSize disk tableId) numPages.toNat) ↔
      (∀ p < numPages.toNat, Compact (pagesOf pageSize disk tableId p)) ∧
        ∀ p < numPages.toNat, p + 1 < pageCount := by
  have table : Table tableId numPages numFields (pagesOf pageSize disk tableId) :=
    ⟨few, fun p isPage => (produced p isPage).readable⟩
  exact table.enumerates_iff enough

/-- A page of 96 bytes with records of one field, the first one at its end. -/
def filledPage (pageId : UInt64) (values : List UInt8) : List UInt8 :=
  let n := values.length
  SlottedPage.headerBytes
      ⟨pageId, .ofNat n, .ofNat n, .ofNat (96 - 4 * n), .ofNat (64 - 12 * n)⟩ 0 ++
    List.replicate 4 0 ++
    (List.range n).flatMap (fun slot =>
      SlottedPage.slotBytes (SlottedPage.slotValue (.ofNat (92 - 4 * slot)) 4)) ++
    List.replicate (64 - 12 * n) 0 ++ values.reverse.flatMap fun value => [value, 0, 0, 0]

/-- Three such pages. -/
def filledPages : List UInt8 :=
  filledPage (pageIdOf 1 0) [1, 3] ++ filledPage (pageIdOf 1 1) [5] ++
    filledPage (pageIdOf 1 2) [7, 2, 4]

/-- A table of three pages with six records, in a pool of four frames. -/
theorem scan_iff_compact_three :
    Enumeration.Enumerates SeqScan.next SeqScan.reset
        (SeqScan.new 1 3 1
          (.new 96 (by decide) 4 (fun _ => filledPages) [] [10, 20, 30, 40] (by decide))).reset
        (liveRecords 1 (pagesOf 96 (fun _ => filledPages) 1) 3) ∧
      (liveRecords 1 (pagesOf 96 (fun _ => filledPages) 1) 3).map
        (fun found => (found.segment, found.slot, found.tuple)) =
      [(0, 0, [1]), (0, 1, [3]), (1, 0, [5]), (2, 0, [7]), (2, 1, [2]), (2, 2, [4])] := by
  have pages : ∀ p < (3 : UInt64).toNat,
      Produced 1 (pageIdOf 1 p) (pagesOf 96 (fun _ => filledPages) 1 p) ∧
        Compact (pagesOf 96 (fun _ => filledPages) 1 p) := by
    intro p isPage
    unfold Compact
    obtain rfl | rfl | rfl : p = 0 ∨ p = 1 ∨ p = 2 := by
      have few : p < 3 := isPage
      omega
    · exact ⟨produced_of_run (fun _ => 0) [.addSlot 4, .addSlot 4] (by decide +kernel)
        (by decide +kernel) (by decide +kernel) (by decide +kernel), by decide +kernel⟩
    · exact ⟨produced_of_run (fun _ => 0) [.addSlot 4] (by decide +kernel) (by decide +kernel)
        (by decide +kernel) (by decide +kernel), by decide +kernel⟩
    · exact ⟨produced_of_run (fun _ => 0) [.addSlot 4, .addSlot 4, .addSlot 4] (by decide +kernel)
        (by decide +kernel) (by decide +kernel) (by decide +kernel), by decide +kernel⟩
  refine ⟨?_, by decide +kernel⟩
  refine (scan_iff_compact 96 (by decide) 4 _ [] [10, 20, 30, 40] (by decide) rfl 1 3 1 (by decide)
    fun p isPage => (pages p isPage).1).mpr ⟨fun p isPage => (pages p isPage).2, fun p isPage => ?_⟩
  exact Nat.succ_lt_succ isPage

/-- A page of 96 bytes in which slot 0 was freed and the next record took slot 2. -/
def freedPage (pageId : UInt64) : List UInt8 :=
  SlottedPage.headerBytes ⟨pageId, 3, 0, 84, 28⟩ 0 ++ List.replicate 4 0 ++
    SlottedPage.slotBytes 0 ++ SlottedPage.slotBytes (SlottedPage.slotValue 88 4) ++
    SlottedPage.slotBytes (SlottedPage.slotValue 84 4) ++ List.replicate 40 0

/-- The scan returns neither of its two records. -/
theorem not_enumerates_freed :
    Produced 1 (pageIdOf 1 0) (pagesOf 96 (fun _ => freedPage (pageIdOf 1 0)) 1 0) ∧
      ¬ Enumeration.Enumerates SeqScan.next SeqScan.reset
        (SeqScan.new 1 1 1
          (.new 96 (by decide) 2 (fun _ => freedPage (pageIdOf 1 0)) [] [10, 20] (by decide))).reset
        (liveRecords 1 (pagesOf 96 (fun _ => freedPage (pageIdOf 1 0)) 1) 1) := by
  have produced : Produced 1 (pageIdOf 1 0) (pagesOf 96 (fun _ => freedPage (pageIdOf 1 0)) 1 0) :=
    produced_of_run (fun _ => 0) [.addSlot 4, .addSlot 4, .freeSlot 0, .addSlot 4]
      (by decide +kernel) (by decide +kernel) (by decide +kernel) (by decide +kernel)
  refine ⟨produced, fun enumerates => ?_⟩
  have table : Table 1 1 1 (pagesOf 96 (fun _ => freedPage (pageIdOf 1 0)) 1) := by
    refine ⟨by decide, fun p isPage => ?_⟩
    obtain rfl : p = 0 := Nat.lt_one_iff.mp isPage
    exact produced.readable
  have enough : ([10, 20] : List UInt64).length = 2 := rfl
  have compact := ((table.enumerates_iff enough).mp enumerates).1 0 Nat.one_pos
  revert compact
  unfold Compact
  decide +kernel

end BuzzDB.Operators
