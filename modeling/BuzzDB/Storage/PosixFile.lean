import BuzzDB.Lib.Image

/-!
# Block files

`storage/posix_file.cc`.  A file on disk is its byte image; an open `PosixFile` adds
the mode it was opened with and the length it remembers.  `pread`, `pwrite` and
`ftruncate` have their POSIX meaning: the retry loops of `read_block` and
`write_block` move the whole block, or what the file holds of it.

The element type is a parameter: the code never looks inside a byte.
-/

namespace BuzzDB

variable {α : Type*} [Zero α]

/-- `File::Mode`. -/
inductive Mode
  | read
  | write
  deriving DecidableEq

/-- `PosixFile`: `content` is what the descriptor refers to. -/
structure PosixFile (α : Type*) where
  mode : Mode
  content : List α
  cachedSize : Nat

namespace PosixFile

/-- `File::open_file`: the length is read once, when the file is opened. -/
def openFile (content : List α) (mode : Mode) : PosixFile α := ⟨mode, content, content.length⟩

/-- `File::make_temporary_file`. -/
def makeTemporaryFile : PosixFile α := ⟨.write, [], 0⟩

/-- `PosixFile::size`. -/
def size (file : PosixFile α) : Nat := file.cachedSize

/-- `PosixFile::resize`; `none` is the `system_error` of a failed `ftruncate`. -/
def resize (file : PosixFile α) (newSize : Nat) : Option (PosixFile α) :=
  if newSize = file.cachedSize then some file
  else match file.mode with
    | .read => none
    | .write => some
      { file with
        content := file.content.take newSize ++ List.replicate (newSize - file.content.length) 0
        cachedSize := newSize }

/-- `PosixFile::read_block` into a buffer of the size of the block. -/
def readBlock (file : PosixFile α) (offset : Nat) (block : List α) : List α :=
  Image.fill file.content offset block

/-- `PosixFile::write_block`; `none` is the `system_error` of a failed `pwrite`.  An empty block
makes no system call. -/
def writeBlock (file : PosixFile α) (block : List α) (offset : Nat) : Option (PosixFile α) :=
  if block.length = 0 then some file
  else match file.mode with
    | .read => none
    | .write => some { file with content := Image.splice file.content offset block }

/-- The remembered length is the real one.  This is what `File::write_block` asks its callers to
keep: they may not write past `size()` without a `resize` first. -/
def Synced (file : PosixFile α) : Prop := file.cachedSize = file.content.length

omit [Zero α] in
theorem openFile_synced (content : List α) (mode : Mode) : (openFile content mode).Synced := rfl

/-- `resize` of a file whose length is known gives it exactly the new length. -/
theorem resize_spec {file : PosixFile α} (synced : file.Synced) (writable : file.mode = .write)
    (newSize : Nat) :
    ∃ resized, file.resize newSize = some resized ∧ resized.mode = .write ∧ resized.Synced ∧
      resized.content.length = newSize := by
  unfold resize
  split
  · rename_i same
    exact ⟨file, rfl, writable, synced, by rw [same]; exact synced.symm⟩
  · rw [writable]
    have length : (file.content.take newSize ++
        List.replicate (newSize - file.content.length) 0).length = newSize := by
      rw [List.length_append, List.length_take, List.length_replicate]
      omega
    exact ⟨_, rfl, rfl, length.symm, length⟩

/-- A write inside the file replaces the written range and nothing else. -/
theorem writeBlock_spec {file : PosixFile α} (synced : file.Synced) (writable : file.mode = .write)
    {block : List α} {offset : Nat} (inside : offset + block.length ≤ file.size) :
    ∃ written, file.writeBlock block offset = some written ∧ written.mode = .write ∧
      written.Synced ∧ written.content.length = file.content.length ∧
      written.content = Image.overwrite file.content offset block := by
  have bound : offset + block.length ≤ file.content.length := by
    rw [← show file.size = file.content.length from synced]
    exact inside
  unfold writeBlock
  split
  · rename_i empty
    rw [List.eq_nil_of_length_eq_zero empty, Image.overwrite_nil_right]
    exact ⟨file, rfl, writable, synced, rfl, rfl⟩
  · rename_i nonempty
    rw [writable]
    have grown : Image.splice file.content offset block =
        Image.overwrite file.content offset block := by
      rw [Image.splice, if_neg nonempty, Nat.sub_eq_zero_of_le bound, List.replicate_zero,
        List.append_nil]
    have length : (Image.splice file.content offset block).length = file.content.length := by
      rw [grown, Image.length_overwrite]
    exact ⟨_, rfl, rfl, synced.trans length.symm, length, grown⟩

end PosixFile

end BuzzDB
