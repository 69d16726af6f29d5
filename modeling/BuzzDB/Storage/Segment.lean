import BuzzDB.Storage.PosixFile
import Mathlib.Logic.Function.Basic

/-!
# Pages in segment files

The page addressing of `buffer_manager.h` and the file accesses of `read_frame` and
`write_frame`, which are the same in all buffer managers of the repository.  A page
id splits into a 16-bit segment id, which names the file, and a 48-bit index, which
gives the offset.  Offsets are naturals: with pages of up to 65536 bytes the product of
index and page size stays below `2 ^ 64`.  With larger pages it may not, and then only
the indexes whose offset is an `off_t`, below `2 ^ 63`, are those of pages in a file.
-/

namespace BuzzDB

/-- `INVALID_PAGE_ID`. -/
def invalidPageId : UInt64 := 0xFFFFFFFFFFFFFFFF

/-- `BufferManager::get_segment_id`. -/
def getSegmentId (pageId : UInt64) : UInt16 := (pageId >>> 48).toUInt16

/-- `BufferManager::get_segment_page_id`. -/
def getSegmentPageId (pageId : UInt64) : UInt64 := pageId &&& (((1 : UInt64) <<< 48) - 1)

theorem getSegmentId_toNat (pageId : UInt64) :
    (getSegmentId pageId).toNat = pageId.toNat / 2 ^ 48 := by
  have bound := pageId.toNat_lt
  have shift : (pageId >>> 48).toNat = pageId.toNat / 2 ^ 48 := by
    rw [UInt64.toNat_shiftRight, Nat.shiftRight_eq_div_pow]
    rfl
  rw [getSegmentId, UInt64.toNat_toUInt16, shift]
  exact Nat.mod_eq_of_lt (by omega)

theorem getSegmentPageId_toNat (pageId : UInt64) :
    (getSegmentPageId pageId).toNat = pageId.toNat % 2 ^ 48 := by
  rw [getSegmentPageId, UInt64.toNat_and,
    show (((1 : UInt64) <<< 48) - 1).toNat = 2 ^ 48 - 1 from rfl, Nat.and_two_pow_sub_one_eq_mod]

/-- A page id is determined by its segment and its index there. -/
theorem pageId_ext {p q : UInt64} (segment : getSegmentId p = getSegmentId q)
    (index : getSegmentPageId p = getSegmentPageId q) : p = q := by
  have high := congrArg UInt16.toNat segment
  have low := congrArg UInt64.toNat index
  rw [getSegmentId_toNat, getSegmentId_toNat] at high
  rw [getSegmentPageId_toNat, getSegmentPageId_toNat] at low
  apply UInt64.toNat_inj.mp
  omega

variable {α : Type*} [Zero α]

/-- The segment files, by the segment id that is their name.  A file that does not exist is
empty: `File::open_file` creates it. -/
abbrev Disk (α : Type*) := UInt16 → List α

namespace Disk

/-- Offset of a page in its segment file. -/
def start (pageSize : Nat) (pageId : UInt64) : Nat := (getSegmentPageId pageId).toNat * pageSize

/-- The file access of `BufferManager::read_frame`, into the bytes `block` of the frame. -/
def readPage (disk : Disk α) (pageSize : Nat) (pageId : UInt64) (block : List α) : List α :=
  (PosixFile.openFile (disk (getSegmentId pageId)) .write).readBlock (start pageSize pageId) block

/-- The file access of `BufferManager::write_frame`. -/
def writePage (disk : Disk α) (pageSize : Nat) (pageId : UInt64) (data : List α) : Disk α :=
  match (PosixFile.openFile (disk (getSegmentId pageId)) .write).writeBlock data
      (start pageSize pageId) with
  | none => disk
  | some file => Function.update disk (getSegmentId pageId) file.content

/-- Byte `i` of a page on disk; zero where the file ends before it. -/
def byte (disk : Disk α) (pageSize : Nat) (pageId : UInt64) (i : Nat) : α :=
  if i < pageSize then (disk (getSegmentId pageId)).getD (start pageSize pageId + i) 0 else 0

variable {disk : Disk α} {pageSize : Nat} {p q : UInt64} {data : List α} {i : Nat}

/-- Ranges of different pages in one segment file do not meet. -/
theorem start_disjoint (segment : getSegmentId p = getSegmentId q) (different : p ≠ q)
    {i j : Nat} (hi : i < pageSize) (hj : j < pageSize) :
    start pageSize p + i ≠ start pageSize q + j := by
  have index : (getSegmentPageId p).toNat ≠ (getSegmentPageId q).toNat :=
    fun same => different (pageId_ext segment (UInt64.toNat_inj.mp same))
  unfold start
  intro same
  rcases Nat.lt_or_gt_of_ne index with less | greater
  · have step := Nat.mul_le_mul_right pageSize less
    rw [Nat.succ_mul] at step
    omega
  · have step := Nat.mul_le_mul_right pageSize greater
    rw [Nat.succ_mul] at step
    omega

theorem writePage_eq :
    disk.writePage pageSize p data =
      Function.update disk (getSegmentId p)
        (Image.splice (disk (getSegmentId p)) (start pageSize p) data) := by
  unfold writePage PosixFile.writeBlock PosixFile.openFile
  split
  · rename_i none
    split at none <;> cases none
  · rename_i file written
    split at written
    · rename_i empty
      cases written
      rw [List.eq_nil_of_length_eq_zero empty, Image.splice, if_pos (by rfl),
        Function.update_eq_self]
    · cases written
      rfl

/-- Writing a page sets its bytes and no other page's. -/
theorem byte_writePage (length : data.length = pageSize) :
    (disk.writePage pageSize p data).byte pageSize q i =
      if q = p then data.getD i 0 else disk.byte pageSize q i := by
  rw [writePage_eq]
  unfold byte
  by_cases inside : i < pageSize
  · rw [if_pos inside, if_pos inside]
    by_cases same : q = p
    · rw [if_pos same, same, Function.update_self, Image.getD_splice, if_pos (by omega),
        Nat.add_sub_cancel_left]
    · rw [if_neg same]
      by_cases segment : getSegmentId q = getSegmentId p
      · rw [segment, Function.update_self, Image.getD_splice, if_neg]
        rintro ⟨low, high⟩
        have inside' : start pageSize q + i - start pageSize p < pageSize := by omega
        exact start_disjoint segment same inside inside' (by omega)
      · rw [Function.update_of_ne segment]
  · rw [if_neg inside, if_neg inside]
    split
    · rw [List.getD_eq_default _ _ (by omega)]
    · rfl

/-- No file gets shorter. -/
theorem length_writePage (disk : Disk α) (pageSize : Nat) (p : UInt64) (data : List α)
    (segment : UInt16) : (disk segment).length ≤ (disk.writePage pageSize p data segment).length := by
  rw [writePage_eq]
  rcases eq_or_ne segment (getSegmentId p) with rfl | different
  · rw [Function.update_self, Image.length_splice]
    split
    · exact Nat.le_refl _
    · exact Nat.le_max_left _ _
  · rw [Function.update_of_ne different]

/-- What is on disk after a page has been written. -/
theorem mem_writePage {segment : UInt16} {x : α}
    (member : x ∈ (disk.writePage pageSize p data) segment) :
    x ∈ disk segment ∨ x = 0 ∨ x ∈ data := by
  rw [writePage_eq] at member
  rcases eq_or_ne segment (getSegmentId p) with rfl | different
  · rw [Function.update_self] at member
    exact Image.mem_splice member
  · rw [Function.update_of_ne different] at member
    exact Or.inl member

/-- Reading a page into zeroed memory. -/
theorem getD_readPage_zeros :
    (disk.readPage pageSize p (List.replicate pageSize (0 : α))).getD i 0 =
      disk.byte pageSize p i :=
  Image.getD_fill_zeros _ _ _ _

/-- A page is read as it is on disk exactly when the bytes that the file does not reach are zero
already. -/
theorem readPage_iff_blank {block : List α} (length : block.length = pageSize) :
    (∀ i, (disk.readPage pageSize p block).getD i 0 = disk.byte pageSize p i) ↔
      ∀ i < pageSize, (disk (getSegmentId p)).length ≤ start pageSize p + i →
        block.getD i 0 = 0 := by
  have read : ∀ i, (disk.readPage pageSize p block).getD i 0 =
      if i < block.length ∧ start pageSize p + i < (disk (getSegmentId p)).length then
        (disk (getSegmentId p)).getD (start pageSize p + i) 0 else block.getD i 0 :=
    Image.getD_fill (disk (getSegmentId p)) (start pageSize p) block
  constructor
  · intro same i inside behind
    have here := same i
    rwa [read, if_neg (by omega), byte, if_pos inside, List.getD_eq_default _ _ behind] at here
  · intro blank i
    rw [read, byte, length]
    by_cases inside : i < pageSize
    · by_cases within : start pageSize p + i < (disk (getSegmentId p)).length
      · rw [if_pos ⟨inside, within⟩, if_pos inside]
      · rw [if_neg (within ·.2), if_pos inside, blank i inside (Nat.not_lt.mp within),
          List.getD_eq_default _ _ (Nat.not_lt.mp within)]
    · rw [if_neg (inside ·.1), if_neg inside, List.getD_eq_default _ _ (by omega)]

omit [Zero α] in
theorem mem_readPage {block : List α} {x : α} (member : x ∈ disk.readPage pageSize p block) :
    x ∈ disk (getSegmentId p) ∨ x ∈ block :=
  Image.mem_fill member

omit [Zero α] in
theorem mem_readPage_of_whole {block : List α} {x : α}
    (whole : start pageSize p + block.length ≤ (disk (getSegmentId p)).length)
    (member : x ∈ disk.readPage pageSize p block) : x ∈ disk (getSegmentId p) :=
  Image.mem_fill_of_whole whole member

omit [Zero α] in
@[simp] theorem length_readPage (block : List α) :
    (disk.readPage pageSize p block).length = block.length :=
  Image.length_fill _ _ _

end Disk

end BuzzDB
