import BuzzDB.Heap.HeapSegment

/-!
# Freed slots

Pages whose slots are freed as well, by `setSlot` with zero.  The header keeps the first free slot
that the last `addSlot` found; freeing a slot does not look for it again, so that it may not be the
lowest any more.  It stays free, and this is what the next `addSlot` needs.
-/

namespace BuzzDB.SlottedPage

/-- `setSlot`. -/
def setSlot (page : SlottedPage) (slotId : UInt16) (value : UInt64) : SlottedPage :=
  { page with slots := Function.update page.slots slotId.toNat value }

/-- A call of `addSlot`, or of `setSlot` with zero. -/
inductive Operation
  | addSlot (size : UInt32)
  | freeSlot (slotId : UInt16)

/-- One operation on a page. -/
def apply (page : SlottedPage) : Operation → Option SlottedPage
  | .addSlot size => page.step size
  | .freeSlot slotId => some (page.setSlot slotId 0)

/-- The freed slot is one of the page. -/
def Freeable (page : SlottedPage) : Operation → Prop
  | .addSlot _ => True
  | .freeSlot slotId => slotId.toNat < page.header.slotCount.toNat

/-- A request leaves room for its slot, and a freed slot is one of the page. -/
def Allowed (page : SlottedPage) : Operation → Prop
  | .addSlot size => page.Fits size
  | .freeSlot slotId => slotId.toNat < page.header.slotCount.toNat

instance (page : SlottedPage) : (operation : Operation) → Decidable (page.Allowed operation)
  | .addSlot size => inferInstanceAs (Decidable (page.Fits size))
  | .freeSlot _ => inferInstanceAs (Decidable (_ < _))

/-- A page that was constructed for a page id. -/
def newFor (buffer : Nat → UInt64) (pageSize : UInt32) (overallPageId : UInt64) : SlottedPage :=
  { new buffer pageSize with header := { (new buffer pageSize).header with overallPageId } }

variable {page page' : SlottedPage} {pageSize size : UInt32} {operation : Operation}
  {operations : List Operation} {slots : Nat → UInt64} {slotCount : UInt16}

/-! ## The first free slot -/

/-- The slot is the lowest one that is zero, or the end of the slot array if none is. -/
structure LowestFree (slots : Nat → UInt64) (slotCount slot : UInt16) : Prop where
  le : slot.toNat ≤ slotCount.toNat
  live : ∀ i < slot.toNat, slots i ≠ 0
  free : slot = slotCount ∨ slots slot.toNat = 0

theorem findFreeSlot_lowest (slots : Nat → UInt64) (slotCount : UInt16) :
    LowestFree slots slotCount (findFreeSlot slots slotCount) := by
  have bound := slotCount.toNat_lt
  unfold findFreeSlot
  split
  · rename_i slot found
    obtain ⟨isFree, inside, before⟩ := List.find?_range_eq_some.mp found
    have less := List.mem_range.mp inside
    have number : (UInt16.ofNat slot).toNat = slot :=
      UInt16.toNat_ofNat_of_lt' (show slot < 2 ^ 16 by omega)
    constructor
    · rw [number]
      exact less.le
    · intro i low
      rw [number] at low
      simpa using before i low
    · rw [number]
      exact Or.inr (of_decide_eq_true isFree)
  · rename_i none
    refine ⟨le_rfl, fun i low => ?_, Or.inl rfl⟩
    simpa using List.find?_eq_none.mp none i (List.mem_range.mpr low)

/-- What the header knows about the first free slot between two requests. -/
structure Cached (page : SlottedPage) : Prop where
  le : page.header.firstFreeSlot.toNat ≤ page.header.slotCount.toNat
  free : page.header.firstFreeSlot = page.header.slotCount ∨
    page.slots page.header.firstFreeSlot.toNat = 0

theorem LowestFree.cached
    (lowest : LowestFree page.slots page.header.slotCount page.header.firstFreeSlot) : page.Cached :=
  ⟨lowest.le, lowest.free⟩

/-- Every request looks for the first free slot again. -/
theorem step_lowest (stepped : page.step size = some page') :
    LowestFree page'.slots page'.header.slotCount page'.header.firstFreeSlot := by
  obtain ⟨result, added, rfl⟩ := Option.map_eq_some_iff.mp stepped
  obtain ⟨_, same⟩ := Option.ite_none_left_eq_some.mp added
  rw [← Option.some.inj same]
  exact findFreeSlot_lowest _ _

/-- Freeing another slot leaves the first free slot free. -/
theorem Cached.apply (cached : page.Cached) (applied : page.apply operation = some page') :
    page'.Cached := by
  cases operation with
  | addSlot size => exact (step_lowest applied).cached
  | freeSlot slotId =>
    cases applied
    refine ⟨cached.le, cached.free.imp_right fun empty => ?_⟩
    change Function.update page.slots slotId.toNat 0 page.header.firstFreeSlot.toNat = 0
    rw [Function.update_apply, empty, ite_self]

theorem Cached.newFor (buffer : Nat → UInt64) (pageSize : UInt32) (overallPageId : UInt64) :
    (newFor buffer pageSize overallPageId).Cached :=
  ⟨le_rfl, Or.inl rfl⟩

/-! ## The space -/

/-- The header of a page in which every request left room for its slot. -/
structure Spaced (pageSize : UInt32) (page : SlottedPage) : Prop where
  cached : page.Cached
  free : page.header.freeSpace.toNat + 32 + 8 * page.header.slotCount.toNat =
    page.header.dataStart.toNat
  start : page.header.dataStart.toNat ≤ pageSize.toNat

theorem Spaced.newFor (buffer : Nat → UInt64) (lower : 32 ≤ pageSize.toNat) (overallPageId : UInt64) :
    Spaced pageSize (newFor buffer pageSize overallPageId) where
  cached := Cached.newFor buffer pageSize overallPageId
  free := (Inv.new buffer lower).free
  start := le_rfl

/-- What `addSlot` makes of a request that fits. -/
structure Allots (page : SlottedPage) (size : UInt32) (page' : SlottedPage) (t : UInt64) : Prop where
  added : page.addSlot size = some (page', t)
  slot : HeapSegment.slotIdOf t = page.header.firstFreeSlot
  fresh : page.header.slotCount.toNat ≤ (HeapSegment.slotIdOf t).toNat ∨
    page.slots (HeapSegment.slotIdOf t).toNat = 0
  others : ∀ other, other ≠ (HeapSegment.slotIdOf t).toNat → page'.slots other = page.slots other
  lowest : LowestFree page'.slots page'.header.slotCount page'.header.firstFreeSlot

theorem Spaced.allots (spaced : Spaced pageSize page) (fits : page.Fits size) :
    ∃ page' t, Allots page size page' t := by
  have fits : size.toNat + 8 ≤ page.header.freeSpace.toNat := fits
  have room : ¬ size > page.header.freeSpace :=
    UInt32.not_lt.mpr (UInt32.le_iff_toNat_le.mpr (by omega))
  have added : ∃ result, page.addSlot size = some result := ⟨_, if_neg room⟩
  obtain ⟨⟨page', t⟩, added⟩ := added
  obtain ⟨slots, isTid⟩ := addSlot_slots added
  have slot : HeapSegment.slotIdOf t = page.header.firstFreeSlot := by
    rw [isTid, HeapSegment.slotIdOf_tid]
  refine ⟨page', t, added, slot, ?_, fun other different => ?_, ?_⟩
  · rw [slot]
    exact spaced.cached.free.imp_left fun atEnd => by rw [atEnd]
  · rw [slot] at different
    rw [slots, Function.update_of_ne different]
  · exact step_lowest (Option.map_eq_some_iff.mpr ⟨(page', t), added, rfl⟩)

/-- The space behind the slots and the records, as `addSlot` computes it. -/
theorem toNat_space {dataStart : UInt32} (room : 32 + 8 * slotCount.toNat ≤ dataStart.toNat) :
    (dataStart - slotCount.toUInt32 * sizeofSlot - sizeofHeader).toNat + 32 + 8 * slotCount.toNat =
      dataStart.toNat := by
  have bound := slotCount.toNat_lt
  have slotSpace : (slotCount.toUInt32 * sizeofSlot).toNat = slotCount.toNat * 8 := by
    rw [UInt32.toNat_mul, UInt16.toNat_toUInt32]
    exact Nat.mod_eq_of_lt (by change _ * 8 < _; omega)
  have header : sizeofHeader.toNat = 32 := rfl
  have first : (dataStart - slotCount.toUInt32 * sizeofSlot).toNat =
      dataStart.toNat - slotCount.toNat * 8 := by
    rw [UInt32.toNat_sub_of_le _ _ (UInt32.le_iff_toNat_le.mpr (by omega)), slotSpace]
  rw [UInt32.toNat_sub_of_le _ _ (UInt32.le_iff_toNat_le.mpr (by omega)), first, header]
  omega

/-- The header behind a request. -/
theorem step_header (stepped : page.step size = some page') :
    page'.header.dataStart = page.header.dataStart - size ∧
      page'.header.slotCount = (if page.header.firstFreeSlot = page.header.slotCount
        then page.header.slotCount + 1 else page.header.slotCount) ∧
      page'.header.freeSpace = page'.header.dataStart -
        page'.header.slotCount.toUInt32 * sizeofSlot - sizeofHeader := by
  obtain ⟨result, added, rfl⟩ := Option.map_eq_some_iff.mp stepped
  obtain ⟨_, same⟩ := Option.ite_none_left_eq_some.mp added
  rw [← Option.some.inj same]
  exact ⟨rfl, rfl, rfl⟩

theorem Spaced.apply (spaced : Spaced pageSize page)
    (allowed : page.Allowed operation) (applied : page.apply operation = some page') :
    Spaced pageSize page' := by
  have cached := spaced.cached.apply applied
  have free := spaced.free
  have start := spaced.start
  cases operation with
  | freeSlot slotId =>
    cases applied
    exact ⟨cached, free, start⟩
  | addSlot size =>
    have fits : size.toNat + 8 ≤ page.header.freeSpace.toNat := allowed
    obtain ⟨dataStart, slotCount, freeSpace⟩ := step_header applied
    have toNat_dataStart : page'.header.dataStart.toNat = page.header.dataStart.toNat - size.toNat := by
      rw [dataStart, UInt32.toNat_sub_of_le _ _ (UInt32.le_iff_toNat_le.mpr (by omega))]
    have atMost : page'.header.slotCount.toNat ≤ page.header.slotCount.toNat + 1 := by
      rw [slotCount]
      split
      · rw [UInt16.toNat_add]
        exact Nat.mod_le _ _
      · exact Nat.le_succ _
    refine ⟨cached, ?_, by omega⟩
    rw [freeSpace]
    exact toNat_space (by omega)

/-- Behind every run of requests that fit and of freed slots the next request that fits gets a slot
that was not live, changes no other one, and leaves the lowest free slot in the header. -/
theorem addSlot_allots (buffer : Nat → UInt64) (overallPageId : UInt64) (lower : 32 ≤ pageSize.toNat)
    (allowed : Machine.Along apply Allowed (newFor buffer pageSize overallPageId) operations)
    (ran : Machine.run apply (newFor buffer pageSize overallPageId) operations = some page)
    (fits : page.Fits size) :
    ∃ page' t, page.addSlot size = some (page', t) ∧
      (page.header.slotCount.toNat ≤ (HeapSegment.slotIdOf t).toNat ∨
        page.slots (HeapSegment.slotIdOf t).toNat = 0) ∧
      (∀ other, other ≠ (HeapSegment.slotIdOf t).toNat → page'.slots other = page.slots other) ∧
      LowestFree page'.slots page'.header.slotCount page'.header.firstFreeSlot := by
  have spaced : Spaced pageSize page :=
    Machine.invariant (P := Spaced pageSize)
      (fun _ _ _ spaced allowed applied => spaced.apply allowed applied)
      (Spaced.newFor buffer lower overallPageId) allowed ran
  obtain ⟨page', t, allots⟩ := spaced.allots fits
  exact ⟨page', t, allots.added, allots.fresh, allots.others, allots.lowest⟩

/-- Two records in a page of 96 bytes, the first of which is freed before the third one. -/
theorem addSlot_allots_freed :
    ∃ page, Machine.run apply (newFor (fun _ => 7) 96 5)
        [.addSlot 4, .addSlot 4, .freeSlot 0] = some page ∧
      ∃ page' t, page.addSlot 8 = some (page', t) ∧
        (page.header.slotCount.toNat ≤ (HeapSegment.slotIdOf t).toNat ∨
          page.slots (HeapSegment.slotIdOf t).toNat = 0) ∧
        (∀ other, other ≠ (HeapSegment.slotIdOf t).toNat → page'.slots other = page.slots other) ∧
        LowestFree page'.slots page'.header.slotCount page'.header.firstFreeSlot := by
  have ran : (Machine.run apply (newFor (fun _ => 7) 96 5)
      [.addSlot 4, .addSlot 4, .freeSlot 0]).map (fun page => decide (page.Fits 8)) = some true := by
    decide +kernel
  obtain ⟨page, ran, fits⟩ := Option.map_eq_some_iff.mp ran
  exact ⟨page, ran, addSlot_allots (fun _ => 7) 5 (by decide) (by decide +kernel) ran
    (of_decide_eq_true fits)⟩

end BuzzDB.SlottedPage
