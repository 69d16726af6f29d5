import BuzzDB.Storage.PageBytes

/-!
# Slotted pages in frames

`SlottedPage` as `HeapSegment` has it, in the memory of a frame.  `getSlot` and `addSlot` find
the slot array behind `header.buffer_frame`, which may be another frame than the one that they
are called in.

A copy that reaches past the end of a frame, or goes through a pointer to no frame, is `none`.
-/

namespace BuzzDB

/-- The frames of a buffer manager and the addresses of their data. -/
class FramePool (σ : Type) where
  pageSize : σ → Nat
  addresses : σ → List UInt64
  getData : σ → Nat → List UInt8
  setData : σ → Nat → List UInt8 → σ
  getData_setData : ∀ s f data g, data.length = (getData s f).length →
    getData (setData s f data) g = if g = f then data else getData s g
  setData_setData : ∀ s f data data', setData (setData s f data) f data' = setData s f data'
  addresses_setData : ∀ s f data, addresses (setData s f data) = addresses s

namespace FramePool

variable {σ : Type} [FramePool σ] (s : σ)

/-- `memcpy(dest, &frame.get_data()[offset], n)`. -/
def copyOut (frameId offset n : Nat) : Option (List UInt8) :=
  if offset + n ≤ (getData s frameId).length then some (((getData s frameId).drop offset).take n)
  else none

/-- `memcpy(&frame.get_data()[offset], src, n)`. -/
def copyIn (frameId offset : Nat) (src : List UInt8) : Option σ :=
  if offset + src.length ≤ (getData s frameId).length then
    some (setData s frameId (Image.overwrite (getData s frameId) offset src))
  else none

/-- The frame that `header.buffer_frame` of the page in a frame points to. -/
def slotFrame (frameId : Nat) : Option Nat :=
  (addresses s).idxOf? (SlottedPage.bufferFrame (getData s frameId))

/-- `getSlot`. -/
def getSlot (frameId : Nat) (slotId : UInt16) : Option UInt64 := do
  let base ← slotFrame s frameId
  let slot ← copyOut s base (32 + 8 * slotId.toNat) 8
  return UInt64.ofNat (Image.natOf slot)

/-- `addSlot`. -/
def addSlot (frameId : Nat) (size : UInt32) : Option (σ × UInt64) := do
  let data := getData s frameId
  let base ← slotFrame s frameId
  let page : SlottedPage := ⟨SlottedPage.headerOf data, SlottedPage.slotsOf (getData s base)⟩
  let (page', newTid) ← page.addSlot size
  let slot := page.header.firstFreeSlot.toNat
  let s ← copyIn s base (32 + 8 * slot) (SlottedPage.slotBytes (page'.slots slot))
  let s ← copyIn s frameId 0 (SlottedPage.headerBytes page'.header (SlottedPage.bufferFrame data))
  if 32 + 8 * page'.header.slotCount.toNat ≤ (getData s base).length then return (s, newTid) else none

/-- `new (frame.get_data()) SlottedPage(..)`, and the page id that `allocate` stores behind it. -/
def newPage (frameId : Nat) (overallPageId : UInt64) : Option σ := do
  let address ← (addresses s)[frameId]?
  let page := SlottedPage.new (SlottedPage.slotsOf (getData s frameId)) (UInt32.ofNat (pageSize s))
  copyIn s frameId 0 (SlottedPage.headerBytes { page.header with overallPageId } address)

/-- `page->header.buffer_frame = reinterpret_cast<char*>(page)`, as scans do before they read. -/
def repoint (frameId : Nat) : Option σ := do
  let address ← (addresses s)[frameId]?
  copyIn s frameId 8 (Image.bytesOf 8 address.toNat)

/-! ## In the frame that the page points to -/

variable {s} {s' : σ} {f offset n : Nat} {src record : List UInt8} {size : UInt32} {newTid : UInt64}

theorem copyOut_eq_some (copied : copyOut s f offset n = some record) :
    offset + n ≤ (getData s f).length ∧ record = ((getData s f).drop offset).take n := by
  unfold copyOut at copied
  split at copied
  · rename_i inside
    exact ⟨inside, (Option.some.inj copied).symm⟩
  · cases copied

theorem copyIn_eq_some (copied : copyIn s f offset src = some s') :
    offset + src.length ≤ (getData s f).length ∧
      s' = setData s f (Image.overwrite (getData s f) offset src) := by
  unfold copyIn at copied
  split at copied
  · rename_i inside
    exact ⟨inside, (Option.some.inj copied).symm⟩
  · cases copied

theorem getData_setData_self {data : List UInt8} (length : data.length = (getData s f).length) :
    getData (setData s f data) f = data := by
  rw [getData_setData s f data f length, if_pos rfl]

/-- A copy into one frame leaves the other ones. -/
theorem getData_copyIn (copied : copyIn s f offset src = some s') (g : Nat) :
    getData s' g = if g = f then Image.overwrite (getData s f) offset src else getData s g := by
  obtain ⟨-, rfl⟩ := copyIn_eq_some copied
  exact getData_setData s f _ g (Image.length_overwrite _ _ _)

theorem addresses_copyIn (copied : copyIn s f offset src = some s') :
    addresses s' = addresses s := by
  obtain ⟨-, rfl⟩ := copyIn_eq_some copied
  exact addresses_setData s f _

theorem copyOut_of_inside (inside : offset + n ≤ (getData s f).length) :
    copyOut s f offset n = some (((getData s f).drop offset).take n) := by
  rw [copyOut, if_pos inside]

/-- `getSlot` of a page that points to its own frame. -/
theorem getSlot_spec {slotId : UInt16} {value : UInt64} (own : slotFrame s f = some f)
    (got : getSlot s f slotId = some value) :
    value = SlottedPage.slotsOf (getData s f) slotId.toNat := by
  obtain ⟨base, isBase, got⟩ := Option.bind_eq_some_iff.mp got
  obtain ⟨slot, copied, same⟩ := Option.bind_eq_some_iff.mp got
  cases own.symm.trans isBase
  rw [(copyOut_eq_some copied).2] at same
  exact (Option.some.inj same).symm

theorem getSlot_of_inside {slotId : UInt16} {base : Nat} (isBase : slotFrame s f = some base)
    (inside : 40 + 8 * slotId.toNat ≤ (getData s base).length) :
    getSlot s f slotId = some (SlottedPage.slotsOf (getData s base) slotId.toNat) := by
  have copied : copyOut s base (32 + 8 * slotId.toNat) 8 = _ := copyOut_of_inside (by omega)
  rw [getSlot, isBase]
  change (copyOut s base (32 + 8 * slotId.toNat) 8).bind _ = _
  rw [copied]
  rfl

/-- The bytes of a page before and behind an `addSlot`. -/
structure Grows (data : List UInt8) (size : UInt32) (data' : List UInt8) : Prop where
  length : data'.length = data.length
  pointer : SlottedPage.bufferFrame data' = SlottedPage.bufferFrame data
  stepped : (SlottedPage.ofBytes data).step size = some (SlottedPage.ofBytes data')
  kept : ∀ i, 40 + 8 * (SlottedPage.headerOf data).firstFreeSlot.toNat ≤ i → data'[i]? = data[i]?

/-- The two copies of an `addSlot`. -/
theorem grows_copied {data : List UInt8} {page' : SlottedPage} {slot : Nat}
    (added : (SlottedPage.ofBytes data).addSlot size = some (page', newTid))
    (isSlot : (SlottedPage.headerOf data).firstFreeSlot.toNat = slot)
    (inside : 40 + 8 * slot ≤ data.length) :
    Grows data size (Image.overwrite
      (Image.overwrite data (32 + 8 * slot) (SlottedPage.slotBytes (page'.slots slot))) 0
      (SlottedPage.headerBytes page'.header (SlottedPage.bufferFrame data))) := by
  have slots := (SlottedPage.addSlot_slots added).1
  have length : 28 ≤
      (Image.overwrite data (32 + 8 * slot) (SlottedPage.slotBytes (page'.slots slot))).length := by
    rw [Image.length_overwrite]
    omega
  have header := SlottedPage.headerOf_overwrite length page'.header (SlottedPage.bufferFrame data)
  refine ⟨?_, header.2, Option.map_eq_some_iff.mpr ⟨_, added, ?_⟩, fun i behind => ?_⟩
  · rw [Image.length_overwrite, Image.length_overwrite]
  · change page'.slots = Function.update (SlottedPage.slotsOf data)
      (SlottedPage.headerOf data).firstFreeSlot.toNat
      (page'.slots (SlottedPage.headerOf data).firstFreeSlot.toNat) at slots
    rw [isSlot, ← SlottedPage.slotsOf_overwrite_slot inside] at slots
    rw [SlottedPage.ofBytes, header.1, SlottedPage.slotsOf_overwrite_header (by
      rw [SlottedPage.length_headerBytes]; decide), ← slots]
  · rw [isSlot] at behind
    rw [Image.getElem?_overwrite, SlottedPage.length_headerBytes, if_neg (by omega),
      Image.getElem?_overwrite, SlottedPage.length_slotBytes, if_neg (by omega)]

/-- The steps of an `addSlot` that returns. -/
theorem addSlot_eq_some (added : addSlot s f size = some (s', newTid)) :
    ∃ base page' mid, slotFrame s f = some base ∧
      SlottedPage.addSlot ⟨SlottedPage.headerOf (getData s f), SlottedPage.slotsOf (getData s base)⟩
        size = some (page', newTid) ∧
      copyIn s base (32 + 8 * (SlottedPage.headerOf (getData s f)).firstFreeSlot.toNat)
        (SlottedPage.slotBytes
          (page'.slots (SlottedPage.headerOf (getData s f)).firstFreeSlot.toNat)) = some mid ∧
      copyIn mid f 0 (SlottedPage.headerBytes page'.header
        (SlottedPage.bufferFrame (getData s f))) = some s' := by
  obtain ⟨base, isBase, added⟩ := Option.bind_eq_some_iff.mp added
  obtain ⟨⟨page', t⟩, wordAdded, added⟩ := Option.bind_eq_some_iff.mp added
  obtain ⟨mid, slotCopied, added⟩ := Option.bind_eq_some_iff.mp added
  obtain ⟨last, headerCopied, added⟩ := Option.bind_eq_some_iff.mp added
  split at added
  · cases added
    exact ⟨base, page', mid, isBase, wordAdded, slotCopied, headerCopied⟩
  · cases added

/-- What `addSlot` returns depends on the header only. -/
theorem addSlot_tid (added : addSlot s f size = some (s', newTid)) :
    newTid = tid (SlottedPage.headerOf (getData s f)).overallPageId
      (SlottedPage.headerOf (getData s f)).firstFreeSlot := by
  obtain ⟨base, page', mid, -, wordAdded, -, -⟩ := addSlot_eq_some added
  exact (SlottedPage.addSlot_slots wordAdded).2

/-- `addSlot` of a page that points to its own frame. -/
theorem addSlot_spec (own : slotFrame s f = some f) (added : addSlot s f size = some (s', newTid)) :
    ∃ data', Grows (getData s f) size data' ∧ s' = setData s f data' ∧
      newTid = tid (SlottedPage.headerOf (getData s f)).overallPageId
        (SlottedPage.headerOf (getData s f)).firstFreeSlot := by
  have isTid := addSlot_tid added
  obtain ⟨base, page', mid, isBase, wordAdded, slotCopied, headerCopied⟩ := addSlot_eq_some added
  cases own.symm.trans isBase
  obtain ⟨slotInside, rfl⟩ := copyIn_eq_some slotCopied
  obtain ⟨headerInside, rfl⟩ := copyIn_eq_some headerCopied
  rw [SlottedPage.length_slotBytes] at slotInside
  refine ⟨_, grows_copied wordAdded rfl (by omega), ?_, isTid⟩
  rw [setData_setData, getData_setData_self (Image.length_overwrite _ _ _)]

/-- The page that `newPage` puts into a frame, over the bytes that were there. -/
structure Constructed (overallPageId address : UInt64) (pageSize : UInt32) (old data : List UInt8) :
    Prop where
  length : data.length = old.length
  room : 28 ≤ old.length
  pointer : SlottedPage.bufferFrame data = address
  page : SlottedPage.ofBytes data =
    { SlottedPage.new (SlottedPage.slotsOf old) pageSize with
      header := { (SlottedPage.new (SlottedPage.slotsOf old) pageSize).header with overallPageId } }

theorem repoint_spec (repointed : repoint s f = some s') :
    ∃ address, (addresses s)[f]? = some address ∧ 16 ≤ (getData s f).length ∧
      s' = setData s f (Image.overwrite (getData s f) 8 (Image.bytesOf 8 address.toNat)) := by
  obtain ⟨address, isAddress, copied⟩ := Option.bind_eq_some_iff.mp repointed
  obtain ⟨inside, same⟩ := copyIn_eq_some copied
  rw [Image.length_bytesOf] at inside
  exact ⟨address, isAddress, inside, same⟩

theorem newPage_spec {overallPageId : UInt64} (constructed : newPage s f overallPageId = some s') :
    ∃ data address, (addresses s)[f]? = some address ∧
      Constructed overallPageId address (UInt32.ofNat (pageSize s)) (getData s f) data ∧
      s' = setData s f data := by
  obtain ⟨address, isAddress, copied⟩ := Option.bind_eq_some_iff.mp constructed
  obtain ⟨inside, rfl⟩ := copyIn_eq_some copied
  rw [SlottedPage.length_headerBytes, Nat.zero_add] at inside
  obtain ⟨header, pointer⟩ := SlottedPage.headerOf_overwrite inside
    { (SlottedPage.new (SlottedPage.slotsOf (getData s f)) (UInt32.ofNat (pageSize s))).header with
      overallPageId } address
  refine ⟨_, address, isAddress, ⟨?_, inside, pointer, ?_⟩, rfl⟩
  · rw [Image.length_overwrite]
  · rw [SlottedPage.ofBytes, header, SlottedPage.slotsOf_overwrite_header (by
      rw [SlottedPage.length_headerBytes]; decide)]
    rfl

end FramePool

end BuzzDB
