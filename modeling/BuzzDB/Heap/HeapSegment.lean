import BuzzDB.Heap.FramePool
import BuzzDB.Storage.Segment

/-!
# Heap segments

`HeapSegment`, whose functions are the same in all labs but for the calls to the buffer manager:
`fixPage` and `unfix` are those that a function makes in front of its work on a frame and behind
it.
-/

namespace BuzzDB

/-- `BufferManager::get_overall_page_id`. -/
def getOverallPageId (segmentId : UInt16) (segmentPageId : UInt64) : UInt64 :=
  (segmentId.toUInt64 <<< 48) ||| segmentPageId

/-- `HeapSegment`, without the references it holds. -/
structure HeapSegment where
  segmentId : UInt16
  pageCount : UInt64

namespace HeapSegment

open FramePool

/-- The constructor. -/
def new (segmentId : UInt16) : HeapSegment := ⟨segmentId, 0⟩

/-- The page of a `TID`. -/
def overallPageIdOf (segmentId : UInt16) (tid : UInt64) : UInt64 :=
  getOverallPageId segmentId (tid >>> 16)

/-- The slot of a `TID`. -/
def slotIdOf (tid : UInt64) : UInt16 := (tid &&& (((1 : UInt64) <<< 16) - 1)).toUInt16

/-- The pages of the segment. -/
def pages (segment : HeapSegment) : List UInt64 :=
  (List.range segment.pageCount.toNat).map fun itr =>
    getOverallPageId segment.segmentId (UInt64.ofNat itr)

variable {σ : Type} [FramePool σ] (fixPage : σ → UInt64 → Option (σ × Nat)) (unfix : σ → Nat → σ)

/-- The loop of `allocate` over the pages of the segment; a page without space stays fixed. -/
def findSpace (size : UInt32) (s : σ) : List UInt64 → Option (σ × Option Nat)
  | [] => some (s, none)
  | pageId :: rest => do
    let (s, frameId) ← fixPage s pageId
    if size > (SlottedPage.headerOf (getData s frameId)).freeSpace then findSpace size s rest
    else some (s, some frameId)

/-- `allocate`. -/
def allocate (segment : HeapSegment) (s : σ) (size : UInt32) : Option (σ × HeapSegment × UInt64) := do
  match ← findSpace fixPage size s segment.pages with
  | (s, some frameId) =>
    let (s, tid) ← addSlot s frameId size
    return (unfix s frameId, segment, tid)
  | (s, none) =>
    let pageId := getOverallPageId segment.segmentId segment.pageCount
    let segment := { segment with pageCount := segment.pageCount + 1 }
    let (s, frameId) ← fixPage s pageId
    let s ← newPage s frameId pageId
    let (s, tid) ← addSlot s frameId size
    return (unfix s frameId, segment, tid)

/-- `read`, with the bytes that it copies and what it returns. -/
def read (segment : HeapSegment) (s : σ) (tid : UInt64) (capacity : UInt32) :
    Option (σ × List UInt8 × UInt32) := do
  let (s, frameId) ← fixPage s (overallPageIdOf segment.segmentId tid)
  let value ← getSlot s frameId (slotIdOf tid)
  let length := SlottedPage.slotLength value
  let offset := SlottedPage.slotOffset value
  if capacity ≤ length then
    let record ← copyOut s frameId offset.toNat capacity.toNat
    return (unfix s frameId, record, length)
  else none

/-- The change that a `write` makes to its page. -/
structure Change where
  pageId : UInt64
  offset : UInt32
  beforeRecord : List UInt8

/-- `write`, up to what it logs. -/
def write (segment : HeapSegment) (s : σ) (tid : UInt64) (record : List UInt8) :
    Option (σ × Change) := do
  let pageId := overallPageIdOf segment.segmentId tid
  let (s, frameId) ← fixPage s pageId
  let value ← getSlot s frameId (slotIdOf tid)
  let offset := SlottedPage.slotOffset value
  let beforeRecord ← copyOut s frameId offset.toNat record.length
  let s ← copyIn s frameId offset.toNat record
  return (unfix s frameId, ⟨pageId, offset, beforeRecord⟩)

/-! ## Calls that return -/

section Calls

variable {fixPage unfix} {segment segment' : HeapSegment} {s s' mid : σ} {f : Nat}
  {t value : UInt64} {size capacity : UInt32} {record : List UInt8}

/-- An `allocate` finds a page with space, or constructs the next one. -/
theorem allocate_cases (ran : segment.allocate fixPage unfix s size = some (s', segment', t)) :
    (∃ mid f added, findSpace fixPage size s segment.pages = some (mid, some f) ∧
      addSlot mid f size = some (added, t) ∧ s' = unfix added f ∧ segment' = segment) ∨
    ∃ mid fixed f constructed added, findSpace fixPage size s segment.pages = some (mid, none) ∧
      fixPage mid (getOverallPageId segment.segmentId segment.pageCount) = some (fixed, f) ∧
      newPage fixed f (getOverallPageId segment.segmentId segment.pageCount) = some constructed ∧
      addSlot constructed f size = some (added, t) ∧ s' = unfix added f ∧
      segment' = { segment with pageCount := segment.pageCount + 1 } := by
  obtain ⟨⟨mid, found⟩, searched, ran⟩ := Option.bind_eq_some_iff.mp ran
  cases found with
  | some f =>
    obtain ⟨⟨added, t'⟩, isAdded, same⟩ := Option.bind_eq_some_iff.mp ran
    cases same
    exact Or.inl ⟨mid, f, added, searched, isAdded, rfl, rfl⟩
  | none =>
    obtain ⟨⟨fixed, f⟩, isFixed, ran⟩ := Option.bind_eq_some_iff.mp ran
    obtain ⟨constructed, isConstructed, ran⟩ := Option.bind_eq_some_iff.mp ran
    obtain ⟨⟨added, t'⟩, isAdded, same⟩ := Option.bind_eq_some_iff.mp ran
    cases same
    exact Or.inr ⟨mid, fixed, f, constructed, added, searched, isFixed, isConstructed, isAdded, rfl,
      rfl⟩

/-- `read` copies the record that its slot tells. -/
theorem read_eq (fixed : fixPage s (overallPageIdOf segment.segmentId t) = some (mid, f))
    (got : getSlot mid f (slotIdOf t) = some value) (capacity : UInt32) :
    segment.read fixPage unfix s t capacity =
      if capacity ≤ SlottedPage.slotLength value then
        (copyOut mid f (SlottedPage.slotOffset value).toNat capacity.toNat).map fun record =>
          (unfix mid f, record, SlottedPage.slotLength value)
      else none := by
  rw [read, fixed]
  change (getSlot mid f (slotIdOf t)).bind _ = _
  rw [got]
  dsimp only [Option.bind]
  split
  · cases copyOut mid f (SlottedPage.slotOffset value).toNat capacity.toNat with
    | some record => rfl
    | none => rfl
  · rfl

theorem read_eq_some {result : List UInt8 × UInt32}
    (ran : segment.read fixPage unfix s t capacity = some (s', result)) :
    ∃ mid f, fixPage s (overallPageIdOf segment.segmentId t) = some (mid, f) ∧
      s' = unfix mid f := by
  obtain ⟨⟨mid, f⟩, fixed, rest⟩ := Option.bind_eq_some_iff.mp ran
  obtain ⟨value, got, -⟩ := Option.bind_eq_some_iff.mp rest
  rw [read_eq fixed got] at ran
  obtain ⟨-, copied⟩ := Option.ite_none_right_eq_some.mp ran
  obtain ⟨_, -, same⟩ := Option.map_eq_some_iff.mp copied
  cases same
  exact ⟨mid, f, fixed, rfl⟩

/-- `write` copies to the record that its slot tells. -/
theorem write_eq (fixed : fixPage s (overallPageIdOf segment.segmentId t) = some (mid, f))
    (got : getSlot mid f (slotIdOf t) = some value) (record : List UInt8) :
    segment.write fixPage unfix s t record =
      (copyOut mid f (SlottedPage.slotOffset value).toNat record.length).bind fun beforeRecord =>
        (copyIn mid f (SlottedPage.slotOffset value).toNat record).map fun written =>
          (unfix written f, ⟨overallPageIdOf segment.segmentId t, SlottedPage.slotOffset value,
            beforeRecord⟩) := by
  rw [write, fixed]
  change (getSlot mid f (slotIdOf t)).bind _ = _
  rw [got]
  dsimp only [Option.bind]
  cases copyOut mid f (SlottedPage.slotOffset value).toNat record.length with
  | some beforeRecord =>
    cases copyIn mid f (SlottedPage.slotOffset value).toNat record with
    | some written => rfl
    | none => rfl
  | none => rfl

theorem write_eq_some {change : Change}
    (ran : segment.write fixPage unfix s t record = some (s', change)) :
    ∃ mid f value written, fixPage s (overallPageIdOf segment.segmentId t) = some (mid, f) ∧
      getSlot mid f (slotIdOf t) = some value ∧
      copyIn mid f (SlottedPage.slotOffset value).toNat record = some written ∧
      s' = unfix written f := by
  obtain ⟨⟨mid, f⟩, fixed, rest⟩ := Option.bind_eq_some_iff.mp ran
  obtain ⟨value, got, -⟩ := Option.bind_eq_some_iff.mp rest
  rw [write_eq fixed got] at ran
  obtain ⟨_, -, copied⟩ := Option.bind_eq_some_iff.mp ran
  obtain ⟨written, isWritten, same⟩ := Option.map_eq_some_iff.mp copied
  cases same
  exact ⟨mid, f, value, written, fixed, got, isWritten, rfl⟩

end Calls

/-! ## Page ids -/

variable {segmentId : UInt16} {k j : UInt64} {slot : UInt16}

theorem toNat_getOverallPageId (few : k.toNat < 2 ^ 48) :
    (getOverallPageId segmentId k).toNat = segmentId.toNat * 2 ^ 48 + k.toNat := by
  have segment := segmentId.toNat_lt
  have shifted : (segmentId.toUInt64 <<< 48).toNat = segmentId.toNat <<< 48 := by
    rw [UInt64.toNat_shiftLeft, UInt16.toNat_toUInt64]
    change segmentId.toNat <<< 48 % 2 ^ 64 = _
    rw [Nat.shiftLeft_eq]
    omega
  rw [getOverallPageId, UInt64.toNat_or, shifted, ← Nat.shiftLeft_add_eq_or_of_lt few,
    Nat.shiftLeft_eq]

theorem toNat_tid (page : UInt64) (slot : UInt16) :
    (tid page slot).toNat = page.toNat % 2 ^ 48 * 2 ^ 16 + slot.toNat := by
  have slot_lt := slot.toNat_lt
  have shifted : (page <<< 16).toNat = (page.toNat % 2 ^ 48) <<< 16 := by
    rw [UInt64.toNat_shiftLeft]
    change page.toNat <<< 16 % 2 ^ 64 = _
    rw [Nat.shiftLeft_eq, Nat.shiftLeft_eq]
    omega
  rw [tid, UInt64.toNat_or, shifted, UInt16.toNat_toUInt64, ← Nat.shiftLeft_add_eq_or_of_lt slot_lt,
    Nat.shiftLeft_eq]

/-- The page of a `TID` that names it. -/
theorem overallPageIdOf_tid (few : k.toNat < 2 ^ 48) :
    overallPageIdOf segmentId (tid (getOverallPageId segmentId k) slot) =
      getOverallPageId segmentId k := by
  apply congrArg (getOverallPageId segmentId)
  apply UInt64.toNat_inj.mp
  have slot_lt := slot.toNat_lt
  rw [UInt64.toNat_shiftRight, toNat_tid, toNat_getOverallPageId few]
  change _ >>> 16 = _
  rw [Nat.shiftRight_eq_div_pow]
  omega

theorem slotIdOf_tid (page : UInt64) : slotIdOf (tid page slot) = slot := by
  apply UInt16.toNat_inj.mp
  have slot_lt := slot.toNat_lt
  rw [slotIdOf, UInt64.toNat_toUInt16, UInt64.toNat_and, toNat_tid,
    show (((1 : UInt64) <<< 16) - 1).toNat = 2 ^ 16 - 1 from rfl, Nat.and_two_pow_sub_one_eq_mod]
  omega

/-- A segment has `2 ^ 48` pages. -/
theorem getOverallPageId_inj (few : k.toNat < 2 ^ 48) (few' : j.toNat < 2 ^ 48)
    (same : getOverallPageId segmentId k = getOverallPageId segmentId j) : k = j := by
  have numbers := congrArg UInt64.toNat same
  rw [toNat_getOverallPageId few, toNat_getOverallPageId few'] at numbers
  apply UInt64.toNat_inj.mp
  omega

end HeapSegment

end BuzzDB
