import BuzzDB.Lib.Machine
import Mathlib.Algebra.Order.Ring.Nat
import Mathlib.Data.UInt
import Mathlib.Order.CompletePartialOrder
import Mathlib.Order.Interval.Set.Disjoint

/-!
# Slotted pages

`SlottedPage` of the storage manager: a header, the slot array behind it, which grows up, and
the records, which grow down from the end of the page.  The memory behind the header
is an array of words; where no slot has been written yet it holds what the page was
constructed over.

The regions stay apart as long as every request leaves room for its slot; the check of
the callers, `size <= free_space`, does not ask for that.
-/

namespace BuzzDB

/-- `sizeof(header)`. -/
def sizeofHeader : UInt32 := 32

/-- `sizeof(Slot)`. -/
def sizeofSlot : UInt32 := 8

/-- `SlottedPage::Header`. -/
structure SlottedPage.Header where
  overallPageId : UInt64
  slotCount : UInt16
  firstFreeSlot : UInt16
  dataStart : UInt32
  freeSpace : UInt32

/-- `SlottedPage`. -/
structure SlottedPage where
  header : SlottedPage.Header
  slots : Nat → UInt64

/-- `TID`. -/
def tid (page : UInt64) (slot : UInt16) : UInt64 := (page <<< 16) ||| slot.toUInt64

namespace SlottedPage

/-- The constructor. -/
def new (buffer : Nat → UInt64) (pageSize : UInt32) : SlottedPage where
  header :=
    { overallPageId := 0xFFFFFFFFFFFFFFFF
      slotCount := 0
      firstFreeSlot := 0
      dataStart := pageSize
      freeSpace := pageSize - sizeofHeader }
  slots := buffer

/-- The value of a slot for a record. -/
def slotValue (offset length : UInt64) : UInt64 :=
  let t : UInt64 := 0xFFFFFFFFFFFFFFFF
  let s : UInt64 := 0
  (t <<< 56) + ((s <<< 56) >>> 8) + ((offset <<< 40) >>> 16) + ((length <<< 40) >>> 40)

/-- The offset in the value of a slot. -/
def slotOffset (value : UInt64) : UInt32 := ((value <<< 16) >>> 40).toUInt32

/-- The length in the value of a slot. -/
def slotLength (value : UInt64) : UInt32 := ((value <<< 40) >>> 40).toUInt32

variable (page : SlottedPage)

/-- The first empty slot, or the end of the slot array. -/
def findFreeSlot (slots : Nat → UInt64) (slotCount : UInt16) : UInt16 :=
  match (List.range slotCount.toNat).find? fun slot => slots slot = 0 with
  | some slot => UInt16.ofNat slot
  | none => slotCount

/-- `addSlot`, with the page as it leaves it; a record that is larger than the free space ends the
program. -/
def addSlot (size : UInt32) : Option (SlottedPage × UInt64) :=
  let header := page.header
  let dataStart := header.dataStart - size
  if size > header.freeSpace then none
  else
    let slots := Function.update page.slots
      (if header.firstFreeSlot = header.slotCount then header.slotCount.toNat
        else header.firstFreeSlot.toNat)
      (slotValue dataStart.toUInt64 size.toUInt64)
    let slotCount := if header.firstFreeSlot = header.slotCount then header.slotCount + 1
      else header.slotCount
    let slotSpace := slotCount.toUInt32 * sizeofSlot
    some ({
      header :=
        { header with
          dataStart
          slotCount
          freeSpace := dataStart - slotSpace - sizeofHeader
          firstFreeSlot := findFreeSlot slots slotCount }
      slots }, tid header.overallPageId header.firstFreeSlot)

/-- One call of `addSlot`. -/
def step (size : UInt32) : Option SlottedPage := (page.addSlot size).map Prod.fst

/-! ## The layout -/

/-- The bytes from `start` up to `stop`. -/
structure Region where
  start : Nat
  stop : Nat

/-- The positions of a region. -/
def Region.bytes (region : Region) : Set Nat := Set.Ico region.start region.stop

/-- The record of a slot. -/
def record (slot : Nat) : Region where
  start := (slotOffset (page.slots slot)).toNat
  stop := (slotOffset (page.slots slot)).toNat + (slotLength (page.slots slot)).toNat

/-- The header, the slot array and the records. -/
def regions : List Region :=
  ⟨0, 32⟩ :: ⟨32, 32 + 8 * page.header.slotCount.toNat⟩ ::
    (List.range page.header.slotCount.toNat).map page.record

/-- What the layout of a page should be. -/
structure Layout (pageSize : UInt32) : Prop where
  inside : ∀ region ∈ page.regions, region.stop ≤ pageSize.toNat
  disjoint : page.regions.Pairwise fun region other => Disjoint region.bytes other.bytes
  freeSpace : (page.header.freeSpace.toNat : Int) =
    page.header.dataStart.toNat - 32 - 8 * page.header.slotCount.toNat

/-- The request leaves room for a new slot. -/
def Fits (size : UInt32) : Prop := size.toNat + 8 ≤ page.header.freeSpace.toNat

instance (size : UInt32) : Decidable (page.Fits size) := inferInstanceAs (Decidable (_ ≤ _))

/-! ## Slots -/

variable {page page' : SlottedPage} {offset length pageSize size : UInt32}

theorem toNat_slotValue (smallOffset : offset.toNat < 2 ^ 24) (smallLength : length.toNat < 2 ^ 24) :
    (slotValue offset.toUInt64 length.toUInt64).toNat =
      255 * 2 ^ 56 + offset.toNat * 2 ^ 24 + length.toNat := by
  simp [slotValue, UInt64.toNat_shiftLeft, UInt64.toNat_shiftRight, Nat.shiftLeft_eq,
    Nat.shiftRight_eq_div_pow]
  omega

theorem slotValue_ne_zero (smallOffset : offset.toNat < 2 ^ 24)
    (smallLength : length.toNat < 2 ^ 24) : slotValue offset.toUInt64 length.toUInt64 ≠ 0 := by
  intro empty
  have value := toNat_slotValue smallOffset smallLength
  rw [empty] at value
  change 0 = _ at value
  omega

theorem toNat_slotOffset (smallOffset : offset.toNat < 2 ^ 24) (smallLength : length.toNat < 2 ^ 24) :
    (slotOffset (slotValue offset.toUInt64 length.toUInt64)).toNat = offset.toNat := by
  have value := toNat_slotValue smallOffset smallLength
  rw [slotOffset, UInt64.toNat_toUInt32, UInt64.toNat_shiftRight, UInt64.toNat_shiftLeft, value]
  simp only [Nat.shiftLeft_eq, Nat.shiftRight_eq_div_pow, UInt64.reduceToNat, Nat.reduceMod]
  omega

theorem toNat_slotLength (smallOffset : offset.toNat < 2 ^ 24) (smallLength : length.toNat < 2 ^ 24) :
    (slotLength (slotValue offset.toUInt64 length.toUInt64)).toNat = length.toNat := by
  have value := toNat_slotValue smallOffset smallLength
  rw [slotLength, UInt64.toNat_toUInt32, UInt64.toNat_shiftRight, UInt64.toNat_shiftLeft, value]
  simp only [Nat.shiftLeft_eq, Nat.shiftRight_eq_div_pow, UInt64.reduceToNat, Nat.reduceMod]
  omega

/-- Slots that have a value are not found again. -/
theorem findFreeSlot_eq {slots : Nat → UInt64} {slotCount : UInt16}
    (full : ∀ slot < slotCount.toNat, slots slot ≠ 0) : findFreeSlot slots slotCount = slotCount := by
  have none : ((List.range slotCount.toNat).find? fun slot => slots slot = 0) = none :=
    List.find?_eq_none.mpr fun slot member empty =>
      full slot (List.mem_range.mp member) (of_decide_eq_true empty)
  rw [findFreeSlot, none]

/-- `addSlot` changes one slot, and names it. -/
theorem addSlot_slots {newTid : UInt64} (added : page.addSlot size = some (page', newTid)) :
    page'.slots = Function.update page.slots page.header.firstFreeSlot.toNat
        (page'.slots page.header.firstFreeSlot.toNat) ∧
      newTid = tid page.header.overallPageId page.header.firstFreeSlot := by
  obtain ⟨_, same⟩ := Option.ite_none_left_eq_some.mp added
  have index : (if page.header.firstFreeSlot = page.header.slotCount
      then page.header.slotCount.toNat else page.header.firstFreeSlot.toNat) =
        page.header.firstFreeSlot.toNat := by
    split
    · rename_i atEnd
      rw [atEnd]
    · rfl
  rw [index] at same
  cases same
  refine ⟨?_, rfl⟩
  dsimp only
  rw [Function.update_self]

theorem step_overallPageId (stepped : page.step size = some page') :
    page'.header.overallPageId = page.header.overallPageId := by
  obtain ⟨result, added, rfl⟩ := Option.map_eq_some_iff.mp stepped
  obtain ⟨_, same⟩ := Option.ite_none_left_eq_some.mp added
  rw [← Option.some.inj same]

/-! ## Requests that fit -/

/-- The invariant: the slots are all in use, and the records follow each other downwards from the
end of the page to `data_start`. -/
structure Inv (pageSize : UInt32) (page : SlottedPage) : Prop where
  first : page.header.firstFreeSlot = page.header.slotCount
  free : page.header.freeSpace.toNat + 32 + 8 * page.header.slotCount.toNat =
    page.header.dataStart.toNat
  start : page.header.dataStart.toNat ≤ pageSize.toNat
  full : ∀ slot < page.header.slotCount.toNat, page.slots slot ≠ 0
  above : ∀ slot < page.header.slotCount.toNat,
    page.header.dataStart.toNat ≤ (page.record slot).start
  inside : ∀ slot < page.header.slotCount.toNat, (page.record slot).stop ≤ pageSize.toNat
  below : ∀ slot < page.header.slotCount.toNat, ∀ later < page.header.slotCount.toNat,
    slot < later → (page.record later).stop ≤ (page.record slot).start

theorem Inv.new (buffer : Nat → UInt64) (header : 32 ≤ pageSize.toNat) :
    Inv pageSize (SlottedPage.new buffer pageSize) where
  first := rfl
  free := by
    change (pageSize - sizeofHeader).toNat + 32 + 0 = pageSize.toNat
    have fits : sizeofHeader ≤ pageSize := UInt32.le_iff_toNat_le.mpr header
    rw [UInt32.toNat_sub_of_le _ _ fits]
    exact Nat.sub_add_cancel header
  start := Nat.le_refl _
  full _ impossible := absurd impossible (Nat.not_lt_zero _)
  above _ impossible := absurd impossible (Nat.not_lt_zero _)
  inside _ impossible := absurd impossible (Nat.not_lt_zero _)
  below _ impossible := absurd impossible (Nat.not_lt_zero _)

/-- The invariant is one of the header, but for its page id, and of the slots that are in use. -/
theorem Inv.congr (inv : Inv pageSize page)
    (header : page'.header = { page.header with overallPageId := page'.header.overallPageId })
    (slots : ∀ slot < page.header.slotCount.toNat, page'.slots slot = page.slots slot) :
    Inv pageSize page' := by
  have record : ∀ slot < page.header.slotCount.toNat, page'.record slot = page.record slot := by
    intro slot isSlot
    rw [SlottedPage.record, slots slot isSlot, SlottedPage.record]
  have count : page'.header.slotCount = page.header.slotCount := by rw [header]
  have start : page'.header.dataStart = page.header.dataStart := by rw [header]
  constructor
  · rw [header]
    exact inv.first
  · rw [header]
    exact inv.free
  · rw [header]
    exact inv.start
  · intro slot isSlot
    rw [count] at isSlot
    rw [slots slot isSlot]
    exact inv.full slot isSlot
  · intro slot isSlot
    rw [count] at isSlot
    rw [start, record slot isSlot]
    exact inv.above slot isSlot
  · intro slot isSlot
    rw [count] at isSlot
    rw [record slot isSlot]
    exact inv.inside slot isSlot
  · intro slot isSlot later isLater order
    rw [count] at isSlot isLater
    rw [record slot isSlot, record later isLater]
    exact inv.below slot isSlot later isLater order

/-- Regions that follow each other have no byte in common. -/
theorem Region.disjoint {region other : Region} (follows : region.stop ≤ other.start) :
    Disjoint region.bytes other.bytes :=
  Set.Ico_disjoint_Ico.mpr ((min_le_left _ _).trans (follows.trans (le_max_right _ _)))

theorem Inv.layout (inv : Inv pageSize page) : page.Layout pageSize where
  inside region member := by
    have free := inv.free
    have start := inv.start
    rcases List.mem_cons.mp member with rfl | member
    · dsimp only
      omega
    · rcases List.mem_cons.mp member with rfl | member
      · dsimp only
        omega
      · obtain ⟨slot, isSlot, rfl⟩ := List.mem_map.mp member
        exact inv.inside slot (List.mem_range.mp isSlot)
  disjoint := by
    have free := inv.free
    have behind : ∀ region ∈ (List.range page.header.slotCount.toNat).map page.record,
        32 + 8 * page.header.slotCount.toNat ≤ region.start := by
      intro region member
      obtain ⟨slot, isSlot, rfl⟩ := List.mem_map.mp member
      have above := inv.above slot (List.mem_range.mp isSlot)
      omega
    refine List.pairwise_cons.mpr ⟨fun region member => ?_, List.pairwise_cons.mpr
      ⟨fun region member => Region.disjoint (behind region member), ?_⟩⟩
    · refine Region.disjoint ?_
      rcases List.mem_cons.mp member with rfl | member
      · exact Nat.le_refl _
      · exact (Nat.le_add_right _ _).trans (behind region member)
    · refine List.pairwise_map.mpr (List.Pairwise.imp_of_mem ?_ List.pairwise_lt_range)
      intro slot later isSlot isLater order
      exact (Region.disjoint (inv.below slot (List.mem_range.mp isSlot) later
        (List.mem_range.mp isLater) order)).symm
  freeSpace := by
    have free := inv.free
    omega

/-- What `addSlot` does to a page in order. -/
structure Adds (page : SlottedPage) (size : UInt32) (page' : SlottedPage) : Prop where
  checked : size.toNat ≤ page.header.freeSpace.toNat
  slotCount : page'.header.slotCount.toNat = page.header.slotCount.toNat + 1
  firstFreeSlot : page'.header.firstFreeSlot = page'.header.slotCount
  dataStart : page'.header.dataStart.toNat + size.toNat = page.header.dataStart.toNat
  freeSpace : page'.header.freeSpace =
    page'.header.dataStart - page'.header.slotCount.toUInt32 * sizeofSlot - sizeofHeader
  new : page'.slots page.header.slotCount.toNat =
    slotValue page'.header.dataStart.toUInt64 size.toUInt64
  others : ∀ slot < page.header.slotCount.toNat, page'.slots slot = page.slots slot

/-- A slot can describe the record: there is a further slot id, and the offset and the length have 24
bits. -/
structure Describes (page : SlottedPage) (size : UInt32) : Prop where
  slot : page.header.slotCount.toNat + 1 < 2 ^ 16
  offset : page.header.dataStart.toNat < 2 ^ 24 + size.toNat
  length : size.toNat < 2 ^ 24

instance (page : SlottedPage) (size : UInt32) : Decidable (page.Describes size) :=
  decidable_of_iff (page.header.slotCount.toNat + 1 < 2 ^ 16 ∧
      page.header.dataStart.toNat < 2 ^ 24 + size.toNat ∧ size.toNat < 2 ^ 24)
    ⟨fun ⟨slot, offset, length⟩ => ⟨slot, offset, length⟩,
      fun ⟨slot, offset, length⟩ => ⟨slot, offset, length⟩⟩

theorem Inv.adds_of_describes (inv : Inv pageSize page) (describes : page.Describes size)
    (stepped : page.step size = some page') : Adds page size page' := by
  have free := inv.free
  obtain ⟨slot, offset, length⟩ := describes
  obtain ⟨result, added, rfl⟩ := Option.map_eq_some_iff.mp stepped
  obtain ⟨fits, same⟩ := Option.ite_none_left_eq_some.mp added
  have checked : size.toNat ≤ page.header.freeSpace.toNat :=
    UInt32.le_iff_toNat_le.mp (UInt32.not_lt.mp fits)
  rw [if_pos inv.first, if_pos inv.first] at same
  have dataStart : (page.header.dataStart - size).toNat =
      page.header.dataStart.toNat - size.toNat := by
    refine UInt32.toNat_sub_of_le _ _ (UInt32.le_iff_toNat_le.mpr ?_)
    omega
  have slotCount : (page.header.slotCount + 1).toNat = page.header.slotCount.toNat + 1 := by
    rw [UInt16.toNat_add]
    exact Nat.mod_eq_of_lt slot
  cases same
  refine ⟨checked, slotCount, findFreeSlot_eq fun slot isSlot => ?_, ?_, rfl,
    Function.update_self _ _ _, fun slot isSlot => Function.update_of_ne (Nat.ne_of_lt isSlot) _ _⟩
  · rw [slotCount] at isSlot
    rcases Nat.lt_succ_iff_lt_or_eq.mp isSlot with before | rfl
    · rw [Function.update_of_ne (Nat.ne_of_lt before)]
      exact inv.full slot before
    · rw [Function.update_self]
      exact slotValue_ne_zero (by omega) (by omega)
  · dsimp only
    omega

/-- In a page of at most 64 KiB a slot can describe every record that there is space for. -/
theorem Inv.describes (inv : Inv pageSize page) (small : pageSize.toNat ≤ 65536)
    (checked : size.toNat ≤ page.header.freeSpace.toNat) : page.Describes size := by
  have free := inv.free
  have start := inv.start
  constructor <;> omega

theorem Inv.adds (inv : Inv pageSize page) (small : pageSize.toNat ≤ 65536)
    (stepped : page.step size = some page') : Adds page size page' := by
  obtain ⟨result, added, _⟩ := Option.map_eq_some_iff.mp stepped
  obtain ⟨fits, _⟩ := Option.ite_none_left_eq_some.mp added
  have checked : size.toNat ≤ page.header.freeSpace.toNat :=
    UInt32.le_iff_toNat_le.mp (UInt32.not_lt.mp fits)
  exact inv.adds_of_describes (inv.describes small checked) stepped

/-- The free space of the page behind a request, before it is stored in 32 bits. -/
theorem Adds.toNat_freeSpace (adds : Adds page size page') (inv : Inv pageSize page)
    (fits : page.Fits size) :
    page'.header.freeSpace.toNat + 32 + 8 * page'.header.slotCount.toNat =
      page'.header.dataStart.toNat := by
  have fits : size.toNat + 8 ≤ page.header.freeSpace.toNat := fits
  have free := inv.free
  have slotCount := adds.slotCount
  have dataStart := adds.dataStart
  have slotSpace : (page'.header.slotCount.toUInt32 * sizeofSlot).toNat =
      page'.header.slotCount.toNat * 8 := by
    rw [UInt32.toNat_mul, UInt16.toNat_toUInt32]
    exact Nat.mod_eq_of_lt (by have := page'.header.slotCount.toNat_lt; change _ * 8 < _; omega)
  have first : (page'.header.dataStart - page'.header.slotCount.toUInt32 * sizeofSlot).toNat =
      page'.header.dataStart.toNat - page'.header.slotCount.toNat * 8 := by
    rw [UInt32.toNat_sub_of_le _ _ (UInt32.le_iff_toNat_le.mpr (by omega)), slotSpace]
  rw [adds.freeSpace, UInt32.toNat_sub_of_le _ _ (UInt32.le_iff_toNat_le.mpr ?_), first]
  · change _ - 32 + 32 + _ = _
    omega
  · rw [first]
    change 32 ≤ _
    omega

theorem Inv.step_of_describes (inv : Inv pageSize page) (describes : page.Describes size)
    (fits : page.Fits size) (stepped : page.step size = some page') : Inv pageSize page' := by
  have adds := inv.adds_of_describes describes stepped
  obtain ⟨-, offset, length⟩ := describes
  have free := inv.free
  have start := inv.start
  have slotCount := adds.slotCount
  have dataStart := adds.dataStart
  have old : ∀ slot < page.header.slotCount.toNat, page'.record slot = page.record slot := by
    intro slot isSlot
    rw [record, adds.others slot isSlot, record]
  have newStart : (page'.record page.header.slotCount.toNat).start =
      page'.header.dataStart.toNat := by
    rw [record, adds.new]
    exact toNat_slotOffset (by omega) (by omega)
  have newStop : (page'.record page.header.slotCount.toNat).stop =
      page'.header.dataStart.toNat + size.toNat := by
    rw [record, adds.new]
    exact congrArg₂ _ (toNat_slotOffset (by omega) (by omega))
      (toNat_slotLength (by omega) (by omega))
  have split : ∀ slot < page'.header.slotCount.toNat,
      slot < page.header.slotCount.toNat ∨ slot = page.header.slotCount.toNat := by
    intro slot isSlot
    omega
  refine ⟨adds.firstFreeSlot, adds.toNat_freeSpace inv fits, by omega, fun slot isSlot => ?_,
    fun slot isSlot => ?_, fun slot isSlot => ?_, fun slot isSlot later isLater order => ?_⟩
  · rcases split slot isSlot with before | rfl
    · rw [adds.others slot before]
      exact inv.full slot before
    · rw [adds.new]
      exact slotValue_ne_zero (by omega) (by omega)
  · rcases split slot isSlot with before | rfl
    · have above := inv.above slot before
      rw [old slot before]
      omega
    · exact newStart.ge
  · rcases split slot isSlot with before | rfl
    · rw [old slot before]
      exact inv.inside slot before
    · rw [newStop]
      omega
  · have before : slot < page.header.slotCount.toNat := by omega
    rw [old slot before]
    rcases split later isLater with laterBefore | rfl
    · rw [old later laterBefore]
      exact inv.below slot before later laterBefore order
    · have above := inv.above slot before
      rw [newStop]
      omega

theorem Inv.step (inv : Inv pageSize page) (small : pageSize.toNat ≤ 65536)
    (fits : page.Fits size) (stepped : page.step size = some page') : Inv pageSize page' := by
  have checked : size.toNat ≤ page.header.freeSpace.toNat := (Nat.le_add_right _ _).trans fits
  exact inv.step_of_describes (inv.describes small checked) fits stepped

/-- A request that leaves no room for its slot makes the free space negative. -/
theorem Inv.broken (inv : Inv pageSize page) (small : pageSize.toNat ≤ 65536)
    (tight : ¬ page.Fits size) (stepped : page.step size = some page') :
    ¬ page'.Layout pageSize := by
  intro layout
  have adds := inv.adds small stepped
  have tight : ¬ size.toNat + 8 ≤ page.header.freeSpace.toNat := tight
  have free := inv.free
  have slotCount := adds.slotCount
  have dataStart := adds.dataStart
  have freeSpace := layout.freeSpace
  omega

/-- The layout is kept exactly as long as every request leaves room for its slot. -/
theorem layout_iff_fits (buffer : Nat → UInt64) (lower : 32 ≤ pageSize.toNat)
    (upper : pageSize.toNat ≤ 65536) {sizes : List UInt32}
    (ran : Machine.run step (new buffer pageSize) sizes = some page) :
    Machine.Always step (Layout · pageSize) (new buffer pageSize) sizes ↔
      Machine.Along step Fits (new buffer pageSize) sizes :=
  Machine.always_iff_along (fun _ _ _ inv fits stepped => inv.step upper fits stepped)
    (fun _ inv => inv.layout) (fun _ _ _ inv tight stepped => inv.broken upper tight stepped)
    (Inv.new buffer lower) ran

/-- Two records and their slots in a page of 64 bytes. -/
theorem layout_iff_fits_two :
    Machine.Always step (Layout · 64) (new (fun _ => 0) 64) [4, 12] := by
  have ran : (Machine.run step (new (fun _ => 0) 64) [4, 12]).isSome := by decide +kernel
  obtain ⟨page, ran⟩ := Option.isSome_iff_exists.mp ran
  exact (layout_iff_fits (fun _ => 0) (by decide) (by decide) ran).mpr (by decide +kernel)

/-- A record that takes all of the free space leaves none for its slot. -/
theorem not_layout_full : ¬ ∀ (buffer : Nat → UInt64) (pageSize : UInt32) (sizes : List UInt32)
    (page : SlottedPage), 32 ≤ pageSize.toNat → pageSize.toNat ≤ 65536 →
    Machine.run step (new buffer pageSize) sizes = some page → page.Layout pageSize := by
  intro layout
  have ran : (Machine.run step (new (fun _ => 0) 64) [32]).map
      (fun page => (page.header.freeSpace, page.header.dataStart, page.header.slotCount)) =
        some (0xFFFFFFF8, 32, 1) := by decide +kernel
  obtain ⟨page, ran, result⟩ := Option.map_eq_some_iff.mp ran
  have freeSpace := (layout (fun _ => 0) 64 [32] page (by decide) (by decide) ran).freeSpace
  rw [Prod.mk.injEq, Prod.mk.injEq] at result
  obtain ⟨free, start, count⟩ := result
  rw [free, start, count] at freeSpace
  exact absurd freeSpace (by decide)

end SlottedPage

end BuzzDB
