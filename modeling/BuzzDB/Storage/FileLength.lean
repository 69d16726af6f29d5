import BuzzDB.Lib.Machine
import BuzzDB.Storage.PosixFile

/-!
# The length of a file

`write_block` and `resize` of a file that is open for writing, with what the system calls return: a
`pwrite` may move a part of what is left, or nothing, or fail, and an `ftruncate` may fail.  A call
that throws leaves the file as far as it got, and the next call goes on from there.

`size()` is the length that `resize` has set.  A `write_block` past it makes the file longer without
setting it; `file.h` asks the callers to `resize` first.
-/

namespace BuzzDB

variable {α : Type*} [Zero α]

/-- What `pwrite` returns; it never moves more than it was asked for. -/
inductive Transfer
  | moved (count : Nat)
  | failed

namespace PosixFile

/-- The bytes that the loop of `write_block` moves of the `left` ones, where `pwrite` returns
`results n` with `n` bytes left. -/
def movedBytes (results : Nat → Transfer) (left : Nat) : Nat :=
  if left = 0 then 0
  else match results left with
    | .failed => 0
    | .moved count =>
      if _none : min count left = 0 then 0
      else min count left + movedBytes results (left - min count left)
termination_by left

/-- The loop of `write_block`, with whether it ends without throwing. -/
def writeLoop (results : Nat → Transfer) (content : List α) (offset : Nat) (block : List α) :
    List α × Bool :=
  if block.length = 0 then (content, true)
  else match results block.length with
    | .failed => (content, false)
    | .moved count =>
      if _none : min count block.length = 0 then (content, true)
      else
        writeLoop results (Image.splice content offset (block.take (min count block.length)))
          (offset + min count block.length) (block.drop (min count block.length))
termination_by block.length
decreasing_by
  rw [List.length_drop]
  omega

/-- A call, with what its system calls return. -/
inductive Call (α : Type*)
  | writeBlock (block : List α) (offset : Nat) (results : Nat → Transfer)
  | resize (newSize : Nat) (succeeds : Bool)

/-- The file behind a call, which may have thrown. -/
def call (file : PosixFile α) : Call α → PosixFile α
  | .writeBlock block offset results =>
    { file with content := (writeLoop results file.content offset block).1 }
  | .resize newSize succeeds =>
    if newSize = file.cachedSize then file
    else if succeeds then
      { file with
        content := file.content.take newSize ++ List.replicate (newSize - file.content.length) 0
        cachedSize := newSize }
    else file

/-- One call. -/
def step (file : PosixFile α) (c : Call α) : Option (PosixFile α) := some (file.call c)

/-- A `resize` that returns keeps what is in front of the new length, and fills up with zeros. -/
def Resizes (file : PosixFile α) : Call α → Prop
  | .writeBlock _ _ _ => True
  | .resize newSize succeeds => newSize = file.cachedSize ∨ succeeds = true →
    (file.call (.resize newSize succeeds)).content =
      file.content.take newSize ++ List.replicate (newSize - file.content.length) 0

/-- The length of the file is tracked: `size()` is the real one in every state, and every `resize`
that returns does what it says. -/
def Tracks (file : PosixFile α) (calls : List (Call α)) : Prop :=
  Machine.Always step Synced file calls ∧ Machine.Along step Resizes file calls

/-- No byte is written past `size()`. -/
def Inside (file : PosixFile α) : Call α → Prop
  | .writeBlock block offset results =>
    movedBytes results block.length ≠ 0 → offset + movedBytes results block.length ≤ file.size
  | .resize _ _ => True

variable {file file' : PosixFile α} {c : Call α} {calls : List (Call α)} {results : Nat → Transfer}

/-! ## The loop of `write_block` -/

/-- The file reaches as far as the loop has moved bytes. -/
theorem length_writeLoop (results : Nat → Transfer) (content : List α) (offset : Nat)
    (block : List α) :
    (writeLoop results content offset block).1.length =
      if movedBytes results block.length = 0 then content.length
      else max content.length (offset + movedBytes results block.length) := by
  induction content, offset, block using @writeLoop.induct α _ results with
  | case1 content offset block empty =>
    have noBytes : movedBytes results block.length = 0 := by rw [movedBytes, if_pos empty]
    rw [writeLoop, if_pos empty, noBytes, if_pos rfl]
  | case2 content offset block some failed =>
    have noBytes : movedBytes results block.length = 0 := by
      rw [movedBytes, if_neg some, failed]
    rw [writeLoop, if_neg some, failed, noBytes, if_pos rfl]
  | case3 content offset block some count moved none =>
    have noBytes : movedBytes results block.length = 0 := by
      rw [movedBytes, if_neg some, moved]
      exact dif_pos none
    rw [writeLoop, if_neg some, moved, noBytes, if_pos rfl]
    dsimp only
    rw [dif_pos none]
  | case4 content offset block some count moved more ih =>
    have taken : (block.take (min count block.length)).length = min count block.length := by
      rw [List.length_take]
      omega
    have bytes : movedBytes results block.length = min count block.length +
        movedBytes results (block.length - min count block.length) := by
      rw [movedBytes, if_neg some, moved]
      exact dif_neg more
    rw [Image.length_splice, taken, if_neg more, List.length_drop] at ih
    rw [writeLoop, if_neg some, moved, bytes]
    dsimp only
    rw [dif_neg more, ih]
    split <;> split <;> omega

/-- Where every `pwrite` moves what is left, the loop is the `write_block` of a whole block. -/
theorem writeBlock_eq (writable : file.mode = .write) (block : List α) (offset : Nat)
    (whole : ∀ left, results left = .moved left) :
    file.writeBlock block offset = some (file.call (.writeBlock block offset results)) := by
  rw [writeBlock, call, writeLoop]
  split
  · rfl
  · rename_i nonempty
    have all : min block.length block.length = block.length := Nat.min_self _
    rw [writable, whole]
    dsimp only
    rw [all, dif_neg nonempty, List.take_length, List.drop_length, writeLoop]
    rfl

/-- A `resize` whose `ftruncate` succeeds is the one of the file. -/
theorem resize_eq (writable : file.mode = .write) (newSize : Nat) :
    file.resize newSize = some (file.call (.resize newSize true)) := by
  rw [resize, call]
  split
  · rfl
  · rw [writable]
    rfl

/-! ## Runs of calls -/

theorem Synced.call (synced : file.Synced) (inside : file.Inside c) : (file.call c).Synced := by
  cases c with
  | writeBlock block offset results =>
    change file.cachedSize = (writeLoop results file.content offset block).1.length
    rw [length_writeLoop, synced]
    split
    · rfl
    · rename_i some
      have within := inside some
      rw [size, synced] at within
      exact (Nat.max_eq_left within).symm
  | resize newSize succeeds =>
    unfold PosixFile.call
    dsimp only
    split
    · exact synced
    · split
      · change newSize = (List.take newSize file.content ++ _).length
        rw [List.length_append, List.length_take, List.length_replicate]
        omega
      · exact synced

theorem Synced.resizes (synced : file.Synced) (c : Call α) : file.Resizes c := by
  cases c with
  | writeBlock block offset results => trivial
  | resize newSize succeeds =>
    intro returns
    unfold PosixFile.call
    dsimp only
    split
    · rename_i same
      have length : newSize = file.content.length := same.trans synced
      rw [length, List.take_length, Nat.sub_self, List.replicate_zero, List.append_nil]
    · rename_i differs
      rw [if_pos (returns.resolve_left differs)]

/-- A byte behind `size()` makes the file longer than it is known to be. -/
theorem not_synced_of_outside (outside : ¬ file.Inside c) : ¬ (file.call c).Synced := by
  cases c with
  | resize newSize succeeds => exact absurd trivial outside
  | writeBlock block offset results =>
    intro kept
    obtain ⟨some, past⟩ := Classical.not_imp.mp outside
    change file.cachedSize = (writeLoop results file.content offset block).1.length at kept
    rw [length_writeLoop, if_neg some] at kept
    rw [size] at past
    omega

/-- The length is tracked exactly as long as no byte is written past `size()`. -/
theorem tracks_iff_inside (content : List α) (calls : List (Call α)) :
    Tracks (openFile content .write) calls ↔
      Machine.Along step Inside (openFile content .write) calls := by
  have ran : ∀ (calls : List (Call α)) (file : PosixFile α), ∃ file', Machine.run step file calls =
      some file' := by
    intro calls
    induction calls with
    | nil => exact fun file => ⟨file, rfl⟩
    | cons c calls ih => exact fun file => ih (file.call c)
  obtain ⟨last, ran⟩ := ran calls (openFile content .write)
  have always : Machine.Always step Synced (openFile content .write) calls ↔
      Machine.Along step Inside (openFile content .write) calls := Machine.always_iff_along (P := Synced)
    (fun file c _ synced inside stepped => Option.some.inj stepped ▸ synced.call inside)
    (fun _ => id)
    (fun file c _ _ outside stepped => Option.some.inj stepped ▸ not_synced_of_outside outside)
    (openFile_synced content .write) ran
  constructor
  · intro tracks
    exact always.mp tracks.1
  · intro inside
    refine ⟨always.mpr inside, ?_⟩
    exact Machine.along_of_invariant (P := Synced)
      (fun file c _ synced inside stepped => Option.some.inj stepped ▸ synced.call inside)
      (fun file c synced _ => synced.resizes c) (openFile_synced content .write) inside

/-- Eight bytes into an empty file: the file has eight bytes and `size()` is zero, so that `resize` to
zero returns and changes nothing. -/
theorem not_tracks_append :
    let file : PosixFile UInt8 := openFile [] .write
    let write : Call UInt8 := .writeBlock [1, 2, 3, 4, 5, 6, 7, 8] 0 .moved
    ¬ Tracks file [write, .resize 0 true] ∧
      ((file.call write).call (.resize 0 true)).content.length = 8 := by
  intro file write
  have bytes : movedBytes .moved 8 = 8 := by simp [movedBytes]
  have length : (writeLoop .moved file.content 0 [1, 2, 3, 4, 5, 6, 7, 8]).1.length = 8 := by
    rw [length_writeLoop]
    change (if movedBytes .moved 8 = 0 then _ else _) = _
    simp [bytes, file, openFile]
  have outside : ¬ file.Inside write := by
    intro inside
    change movedBytes .moved 8 ≠ 0 → 0 + movedBytes .moved 8 ≤ 0 at inside
    rw [bytes] at inside
    exact absurd (inside (by decide)) (by decide)
  exact ⟨fun tracks => not_synced_of_outside outside (tracks.1.2 _ rfl).head, length⟩

end PosixFile

end BuzzDB
