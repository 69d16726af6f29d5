import BuzzDB.Lib.Image
import BuzzDB.Storage.SlottedPage

/-!
# The bytes of a slotted page

A page as it lies in memory and on disk: the fields of its header, in the order of the
struct, and the slot array behind them.  One field is `buffer_frame`, the address at which
the page was constructed.
-/

namespace BuzzDB.SlottedPage

/-- The fields of the header. -/
def headerOf (data : List UInt8) : Header where
  overallPageId := .ofNat (Image.word data 0 8)
  slotCount := .ofNat (Image.word data 16 2)
  firstFreeSlot := .ofNat (Image.word data 18 2)
  dataStart := .ofNat (Image.word data 20 4)
  freeSpace := .ofNat (Image.word data 24 4)

/-- `header.buffer_frame`. -/
def bufferFrame (data : List UInt8) : UInt64 := .ofNat (Image.word data 8 8)

/-- The slot array behind a header. -/
def slotsOf (data : List UInt8) (slot : Nat) : UInt64 := .ofNat (Image.word data (32 + 8 * slot) 8)

/-- The page in some bytes. -/
def ofBytes (data : List UInt8) : SlottedPage := ⟨headerOf data, slotsOf data⟩

/-- The bytes of a header, without the padding at its end. -/
def headerBytes (header : Header) (bufferFrame : UInt64) : List UInt8 :=
  Image.bytesOf 8 header.overallPageId.toNat ++ (Image.bytesOf 8 bufferFrame.toNat ++
    (Image.bytesOf 2 header.slotCount.toNat ++ (Image.bytesOf 2 header.firstFreeSlot.toNat ++
      (Image.bytesOf 4 header.dataStart.toNat ++
        (Image.bytesOf 4 header.freeSpace.toNat ++ [])))))

/-- The bytes of a slot. -/
def slotBytes (value : UInt64) : List UInt8 := Image.bytesOf 8 value.toNat

@[simp] theorem length_headerBytes (header : Header) (bufferFrame : UInt64) :
    (headerBytes header bufferFrame).length = 28 := by
  simp only [headerBytes, List.length_append, Image.length_bytesOf, List.length_nil]

@[simp] theorem length_slotBytes (value : UInt64) : (slotBytes value).length = 8 :=
  Image.length_bytesOf 8 _

variable {data other : List UInt8} {header : Header} {pointer : UInt64} {off slot : Nat}
  {src : List UInt8}

/-! ## Reading -/

/-- The header and its pointer are in the first 28 bytes. -/
theorem headerOf_congr (same : ∀ i < 28, data[i]? = other[i]?) :
    headerOf data = headerOf other ∧ bufferFrame data = bufferFrame other := by
  have word : ∀ off k, off + k ≤ 28 → Image.word data off k = Image.word other off k :=
    fun off k inside => Image.word_congr fun i _ high => same i (by omega)
  unfold headerOf bufferFrame
  rw [word 0 8 (by decide), word 8 8 (by decide), word 16 2 (by decide), word 18 2 (by decide),
    word 20 4 (by decide), word 24 4 (by decide)]
  exact ⟨rfl, rfl⟩

theorem slotsOf_congr (same : ∀ i, 32 + 8 * slot ≤ i → i < 40 + 8 * slot → data[i]? = other[i]?) :
    slotsOf data slot = slotsOf other slot :=
  congrArg UInt64.ofNat (Image.word_congr fun i low high => same i low (by omega))

/-! ## Writing -/

/-- A header that was written. -/
theorem headerOf_overwrite (fits : 28 ≤ data.length) (header : Header) (pointer : UInt64) :
    headerOf (Image.overwrite data 0 (headerBytes header pointer)) = header ∧
      bufferFrame (Image.overwrite data 0 (headerBytes header pointer)) = pointer := by
  have length := length_headerBytes header pointer
  have word : ∀ off k, off + k ≤ 28 →
      Image.word (Image.overwrite data 0 (headerBytes header pointer)) off k =
        Image.word (headerBytes header pointer) off k := by
    intro off k inside
    have written : Image.word (Image.overwrite data 0 (headerBytes header pointer)) (0 + off) k =
        Image.word (headerBytes header pointer) off k :=
      Image.word_overwrite (by omega) (by omega)
    rwa [Nat.zero_add] at written
  unfold headerOf bufferFrame
  rw [word 0 8 (by decide), word 8 8 (by decide), word 16 2 (by decide), word 18 2 (by decide),
    word 20 4 (by decide), word 24 4 (by decide)]
  simp (disch := decide) only [headerBytes, Image.word_skip, Image.word_bytesOf, Nat.reduceSub]
  obtain ⟨overallPageId, slotCount, firstFreeSlot, dataStart, freeSpace⟩ := header
  simp

/-- A write behind the header. -/
theorem headerOf_overwrite_behind (behind : 28 ≤ off) :
    headerOf (Image.overwrite data off src) = headerOf data ∧
      bufferFrame (Image.overwrite data off src) = bufferFrame data := by
  apply headerOf_congr
  intro i inside
  rw [Image.getElem?_overwrite, if_neg (by omega)]

/-- A write to the header. -/
theorem slotsOf_overwrite_header (inside : off + src.length ≤ 32) :
    slotsOf (Image.overwrite data off src) = slotsOf data := by
  funext slot
  apply slotsOf_congr
  intro i low _
  rw [Image.getElem?_overwrite, if_neg (by omega)]

/-- A pointer that was written. -/
theorem bufferFrame_overwrite (fits : 16 ≤ data.length) (pointer : UInt64) :
    bufferFrame (Image.overwrite data 8 (Image.bytesOf 8 pointer.toNat)) = pointer := by
  rw [bufferFrame, Image.word_overwrite_bytesOf _ (by omega)]
  simp

/-- A slot that was written. -/
theorem slotsOf_overwrite_slot (fits : 40 + 8 * slot ≤ data.length) (value : UInt64) :
    slotsOf (Image.overwrite data (32 + 8 * slot) (slotBytes value)) =
      Function.update (slotsOf data) slot value := by
  have length := length_slotBytes value
  funext other
  by_cases here : other = slot
  · subst here
    rw [Function.update_self, slotsOf, slotBytes, Image.word_overwrite_bytesOf _ (by omega)]
    simp
  · rw [Function.update_of_ne here]
    apply slotsOf_congr
    intro i low high
    rw [Image.getElem?_overwrite, if_neg (by omega)]

end BuzzDB.SlottedPage
