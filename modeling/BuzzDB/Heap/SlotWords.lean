import BuzzDB.Heap.RecordIsolation

/-!
# Tuple ids and slot words

A `TID` is a page id that is shifted by 16 bits, with a slot number in their place: the segment is
shifted out.  `read` and `write` put their own segment id there, and so come back to the page only
in the segment that the `TID` was allocated in.

A slot word has 24 bits each for the offset and the length of its record, and a byte of ones in
front, by which it differs from the word of a free slot.
-/

namespace BuzzDB

/-! ## Words -/

namespace SlottedPage

variable {page page' : SlottedPage} {offset length size : UInt32} {t : UInt64}

/-- What is in the slot that `addSlot` names. -/
theorem addSlot_word (added : page.addSlot size = some (page', t)) :
    page'.slots page.header.firstFreeSlot.toNat =
      slotValue (page.header.dataStart - size).toUInt64 size.toUInt64 := by
  obtain ⟨-, same⟩ := Option.ite_none_left_eq_some.mp added
  cases same
  dsimp only
  split
  · rename_i atEnd
    rw [atEnd, Function.update_self]
  · rw [Function.update_self]

/-- The word of a slot is not that of a free one, and has the offset and the length that it was made
of. -/
theorem slotValue_decodes (smallOffset : offset.toNat < 2 ^ 24)
    (smallLength : length.toNat < 2 ^ 24) :
    slotValue offset.toUInt64 length.toUInt64 ≠ 0 ∧
      slotOffset (slotValue offset.toUInt64 length.toUInt64) = offset ∧
      slotLength (slotValue offset.toUInt64 length.toUInt64) = length :=
  ⟨slotValue_ne_zero smallOffset smallLength,
    UInt32.toNat_inj.mp (toNat_slotOffset smallOffset smallLength),
    UInt32.toNat_inj.mp (toNat_slotLength smallOffset smallLength)⟩

end SlottedPage

/-! ## In frames -/

namespace FramePool

variable {σ : Type} [FramePool σ] {s s' : σ} {f : Nat} {size : UInt32} {t : UInt64}

/-- The slot that `addSlot` names has its word, in whichever frame the slot array is. -/
theorem getSlot_addSlot (added : addSlot s f size = some (s', t)) :
    getSlot s' f (SlottedPage.headerOf (getData s f)).firstFreeSlot =
      some (SlottedPage.slotValue ((SlottedPage.headerOf (getData s f)).dataStart - size).toUInt64
        size.toUInt64) := by
  obtain ⟨base, page', mid, isBase, wordAdded, slotCopied, headerCopied⟩ := addSlot_eq_some added
  obtain ⟨slotInside, -⟩ := copyIn_eq_some slotCopied
  obtain ⟨headerInside, -⟩ := copyIn_eq_some headerCopied
  rw [SlottedPage.length_slotBytes] at slotInside
  rw [SlottedPage.length_headerBytes, Nat.zero_add] at headerInside
  have inHeader := getData_copyIn headerCopied
  have inSlot := getData_copyIn slotCopied base
  rw [if_pos rfl] at inSlot
  have length : (getData s' base).length = (getData s base).length := by
    rw [inHeader base]
    split
    · rename_i same
      rw [Image.length_overwrite, ← same, inSlot, Image.length_overwrite]
    · rw [inSlot, Image.length_overwrite]
  -- The header goes over bytes in front of the slots, and has the pointer that was there.
  have slots : SlottedPage.slotsOf (getData s' base) = SlottedPage.slotsOf (getData mid base) := by
    rw [inHeader base]
    split
    · rename_i same
      have inFront : 0 + (SlottedPage.headerBytes page'.header
          (SlottedPage.bufferFrame (getData s f))).length ≤ 32 := by
        rw [SlottedPage.length_headerBytes]
        decide
      rw [SlottedPage.slotsOf_overwrite_header inFront, same]
    · rfl
  have pointer : slotFrame s' f = some base := by
    rw [slotFrame, addresses_copyIn headerCopied, addresses_copyIn slotCopied, inHeader f,
      if_pos rfl, (SlottedPage.headerOf_overwrite headerInside _ _).2]
    exact isBase
  rw [getSlot_of_inside pointer (by omega), slots, inSlot,
    SlottedPage.slotsOf_overwrite_slot (by omega), Function.update_self]
  exact congrArg some (SlottedPage.addSlot_word wordAdded)

end FramePool

/-! ## In segments -/

namespace HeapSegment

open FramePool

variable {σ : Type} [FramePool σ] {segment : HeapSegment} {s s' : σ} {f : Nat} {k t : UInt64}
  {slot : UInt16} {offset size : UInt32}

/-- The parts of an overall page id. -/
theorem getOverallPageId_decodes (segmentId : UInt16) (few : k.toNat < 2 ^ 48) :
    getSegmentId (getOverallPageId segmentId k) = segmentId ∧
      getSegmentPageId (getOverallPageId segmentId k) = k := by
  have number : (getOverallPageId segmentId k).toNat = segmentId.toNat * 2 ^ 48 + k.toNat :=
    toNat_getOverallPageId few
  constructor
  · apply UInt16.toNat_inj.mp
    rw [getSegmentId_toNat, number]
    omega
  · apply UInt64.toNat_inj.mp
    rw [getSegmentPageId_toNat, number]
    omega

/-- What `addSlot` packs into the `TID` and into the slot of a record is what `read` and `write` of
the segment take out again: the page, the slot, the offset and the length. -/
theorem read_write_addSlot (few : k.toNat < 2 ^ 48)
    (isPage : (SlottedPage.headerOf (getData s f)).overallPageId =
      getOverallPageId segment.segmentId k)
    (isSlot : (SlottedPage.headerOf (getData s f)).firstFreeSlot = slot)
    (isOffset : (SlottedPage.headerOf (getData s f)).dataStart - size = offset)
    (added : addSlot s f size = some (s', t)) :
    t.toNat = k.toNat * 2 ^ 16 + slot.toNat ∧
    overallPageIdOf segment.segmentId t = getOverallPageId segment.segmentId k ∧
    getSegmentId (overallPageIdOf segment.segmentId t) = segment.segmentId ∧
    getSegmentPageId (overallPageIdOf segment.segmentId t) = k ∧
    slotIdOf t = slot ∧
    ∃ word, getSlot s' f slot = some word ∧
      (offset.toNat < 2 ^ 24 → size.toNat < 2 ^ 24 →
        word ≠ 0 ∧ SlottedPage.slotOffset word = offset ∧ SlottedPage.slotLength word = size ∧
        ∀ (fixPage : σ → UInt64 → Option (σ × Nat)) (unfix : σ → Nat → σ) later mid g,
          fixPage later (getOverallPageId segment.segmentId k) = some (mid, g) →
          getSlot mid g slot = some word →
          (∀ capacity, segment.read fixPage unfix later t capacity =
            if capacity ≤ size then
              (copyOut mid g offset.toNat capacity.toNat).map fun record =>
                (unfix mid g, record, size)
            else none) ∧
          ∀ record, segment.write fixPage unfix later t record =
            (copyOut mid g offset.toNat record.length).bind fun beforeRecord =>
              (copyIn mid g offset.toNat record).map fun written =>
                (unfix written g,
                  ⟨getOverallPageId segment.segmentId k, offset, beforeRecord⟩)) := by
  have word := getSlot_addSlot added
  have isTid := addSlot_tid added
  rw [isSlot, isOffset] at word
  rw [isPage, isSlot] at isTid
  have page : overallPageIdOf segment.segmentId t = getOverallPageId segment.segmentId k := by
    rw [isTid, overallPageIdOf_tid few]
  have isSlotId : slotIdOf t = slot := by rw [isTid, slotIdOf_tid]
  obtain ⟨segmentId, index⟩ := getOverallPageId_decodes segment.segmentId few
  have number : t.toNat = k.toNat * 2 ^ 16 + slot.toNat := by
    rw [isTid, toNat_tid, toNat_getOverallPageId few]
    omega
  rw [page]
  refine ⟨number, rfl, segmentId, index, isSlotId, _, word, fun smallOffset smallSize => ?_⟩
  obtain ⟨nonzero, isOffset, isLength⟩ := SlottedPage.slotValue_decodes smallOffset smallSize
  refine ⟨nonzero, isOffset, isLength, fun fixPage unfix later mid g fixed got =>
    ⟨fun capacity => ?_, fun record => ?_⟩⟩
  · rw [← page] at fixed
    rw [← isSlotId] at got
    rw [read_eq fixed got, isOffset, isLength]
  · rw [← page] at fixed
    rw [← isSlotId] at got
    rw [write_eq fixed got, isOffset, page]

/-- The second record on page 3 of segment 7, of 5 bytes. -/
theorem read_write_addSlot_second : ∃ (s s' : Recovery.HeapSystem) (t word : UInt64),
    addSlot s 0 5 = some (s', t) ∧ t.toNat = 3 * 2 ^ 16 + 1 ∧
      overallPageIdOf 7 t = getOverallPageId 7 3 ∧ slotIdOf t = 1 ∧
      getSlot s' 0 1 = some word ∧ word ≠ 0 ∧ SlottedPage.slotOffset word = 115 ∧
        SlottedPage.slotLength word = 5 := by
  have constructed : ∃ fixed ∈ HeapState.recoverySegment.pool.fixPage (getOverallPageId 7 3),
      ∃ page ∈ newPage fixed.1 0 (getOverallPageId 7 3), ∃ first ∈ addSlot page 0 8,
      ∃ result ∈ addSlot first.1 0 5,
        (SlottedPage.headerOf (getData first.1 0)).overallPageId = getOverallPageId 7 3 ∧
        (SlottedPage.headerOf (getData first.1 0)).firstFreeSlot = 1 ∧
        (SlottedPage.headerOf (getData first.1 0)).dataStart - 5 = 115 := by
    decide +kernel
  obtain ⟨_, _, _, _, ⟨s, _⟩, _, ⟨s', t⟩, added, isPage, isSlot, isOffset⟩ := constructed
  have few : (3 : UInt64).toNat < 2 ^ 48 := by decide
  have isPage : (SlottedPage.headerOf (getData s 0)).overallPageId =
      getOverallPageId (HeapSegment.new 7).segmentId 3 := isPage
  obtain ⟨number, page, -, -, slot, word, got, decodes⟩ :=
    read_write_addSlot few isPage isSlot isOffset added
  obtain ⟨nonzero, offset, length, -⟩ := decodes (by decide) (by decide)
  exact ⟨s, s', t, word, added, number, page, slot, got, nonzero, offset, length⟩

end HeapSegment

end BuzzDB
