import BuzzDB.Storage.Segment
import Mathlib.Data.List.Basic

/-!
# The buffer manager of the recovery lab

`buffer/buffer_manager.cc` of lab 2 (lab 4 has the same file): a pool of frames that
are handed out in order and never reused, without locking.  `exit(-1)` is `none`.

Callers see a page through its frame or, when it has none, through the next
`fix_page`, which reads it from its segment file.  `byte` is that view and
`durable` the bytes in the segment files; `Wf` is what makes every operation an
operation on these two.
-/

namespace BuzzDB.Recovery

/-- `BufferFrame`. -/
structure BufferFrame where
  pageId : UInt64
  data : List UInt8
  dirty : Bool

/-- A frame as the constructor and the discard operations leave it. -/
def BufferFrame.blank (pageSize : Nat) : BufferFrame :=
  ⟨invalidPageId, List.replicate pageSize 0, false⟩

/-- `BufferManager`, with the segment files it opens; `capacity_` is the length of the pool. -/
structure BufferManager where
  pageSize : Nat
  pageSize_lt : pageSize < 2 ^ 64
  pool : List BufferFrame
  pageCounter : Nat
  disk : Disk UInt8

namespace BufferManager

/-- The constructor, over existing segment files. -/
def new (pageSize : Nat) (pageSize_lt : pageSize < 2 ^ 64) (pageCount : Nat) (disk : Disk UInt8) :
    BufferManager :=
  ⟨pageSize, pageSize_lt, List.replicate pageCount (BufferFrame.blank pageSize), 0, disk⟩

/-- `get_frame_id_of_page`; `INVALID_FRAME_ID` is `none`. -/
def getFrameIdOfPage (bm : BufferManager) (pageId : UInt64) : Option Nat :=
  bm.pool.findIdx? fun frame => frame.pageId == pageId

/-- The bytes of a frame. -/
def getData (bm : BufferManager) (frameId : Nat) : List UInt8 :=
  match bm.pool[frameId]? with
  | some frame => frame.data
  | none => []

/-- `fix_page`: the frame of the page, which is loaded into the next unused frame when the page
has none. -/
def fixPage (bm : BufferManager) (pageId : UInt64) : Option (BufferManager × Nat) :=
  if pageId = invalidPageId then none
  else
    match bm.getFrameIdOfPage pageId with
    | some frameId => some (bm, frameId)
    | none =>
      let freeFrameId := bm.pageCounter
      let pageCounter := bm.pageCounter + 1
      if bm.pool.length ≤ pageCounter then none
      else
        let data := bm.disk.readPage bm.pageSize pageId (bm.getData freeFrameId)
        some ({ bm with
                pageCounter := pageCounter
                pool := bm.pool.set freeFrameId ⟨pageId, data, false⟩ }, freeFrameId)

/-- `memcpy(&frame.get_data()[offset], src, n)`. -/
def memcpy (bm : BufferManager) (frameId offset : Nat) (src : List UInt8) : BufferManager :=
  match bm.pool[frameId]? with
  | some frame =>
    { bm with
      pool := bm.pool.set frameId { frame with data := Image.overwrite frame.data offset src } }
  | none => bm

/-- `unfix_page`. -/
def unfixPage (bm : BufferManager) (frameId : Nat) (isDirty : Bool) : BufferManager :=
  match bm.pool[frameId]? with
  | some frame =>
    { bm with pool := bm.pool.set frameId { frame with dirty := frame.dirty || isDirty } }
  | none => bm

/-- The write of `frame`'s page in `flush_page` and `flush_all_pages`. -/
def writeFrame (pageSize : Nat) (disk : Disk UInt8) (frame : BufferFrame) : Disk UInt8 :=
  if frame.dirty then disk.writePage pageSize frame.pageId frame.data else disk

/-- `flush_page`. -/
def flushPage (bm : BufferManager) (pageId : UInt64) : BufferManager :=
  match bm.getFrameIdOfPage pageId with
  | some frameId =>
    match bm.pool[frameId]? with
    | some frame => { bm with disk := writeFrame bm.pageSize bm.disk frame }
    | none => bm
  | none => bm

/-- `discard_page`. -/
def discardPage (bm : BufferManager) (pageId : UInt64) : BufferManager :=
  match bm.getFrameIdOfPage pageId with
  | some frameId => { bm with pool := bm.pool.set frameId (BufferFrame.blank bm.pageSize) }
  | none => bm

/-- `flush_all_pages`. -/
def flushAllPages (bm : BufferManager) : BufferManager :=
  { bm with disk := bm.pool.foldl (writeFrame bm.pageSize) bm.disk }

/-- `discard_all_pages`. -/
def discardAllPages (bm : BufferManager) : BufferManager :=
  { bm with pool := bm.pool.map fun _ => BufferFrame.blank bm.pageSize }

/-! ## What callers see -/

/-- The frame that holds a page. -/
def resident (bm : BufferManager) (pageId : UInt64) : Option BufferFrame :=
  if pageId = invalidPageId then none else bm.pool.find? fun frame => frame.pageId == pageId

/-- Byte `i` of a page in its segment file. -/
def durable (bm : BufferManager) (pageId : UInt64) (i : Nat) : UInt8 :=
  bm.disk.byte bm.pageSize pageId i

/-- Byte `i` of a page as the next `fix_page` shows it. -/
def byte (bm : BufferManager) (pageId : UInt64) (i : Nat) : UInt8 :=
  match bm.resident pageId with
  | some frame => frame.data.getD i 0
  | none => bm.durable pageId i

/-- The pool is consistent: frames have the size of a page, unused and discarded frames are
blank, no page has two frames, and only a dirty frame differs from the segment file. -/
structure Wf (bm : BufferManager) : Prop where
  length : ∀ frame ∈ bm.pool, frame.data.length = bm.pageSize
  blank : ∀ frame ∈ bm.pool, frame.pageId = invalidPageId → frame = BufferFrame.blank bm.pageSize
  fresh : ∀ (f : Nat) (frame : BufferFrame), bm.pool[f]? = some frame → bm.pageCounter ≤ f → frame.pageId = invalidPageId
  unique : ∀ (f g : Nat) (frame other : BufferFrame), bm.pool[f]? = some frame → bm.pool[g]? = some other →
    frame.pageId = other.pageId → frame.pageId ≠ invalidPageId → f = g
  clean : ∀ frame ∈ bm.pool, frame.dirty = false → frame.pageId ≠ invalidPageId →
    ∀ i, frame.data.getD i 0 = bm.durable frame.pageId i

variable {bm bm' : BufferManager} {pageId q : UInt64} {frame : BufferFrame} {f offset i : Nat}
  {src : List UInt8}

/-- Replace frame `f` and advance the counter to `counter`. -/
def setFrame (bm : BufferManager) (f : Nat) (frame : BufferFrame) (counter : Nat) : BufferManager :=
  { bm with pool := bm.pool.set f frame, pageCounter := counter }

theorem Wf.resident_eq (wf : bm.Wf) (at_f : bm.pool[f]? = some frame)
    (valid : frame.pageId ≠ invalidPageId) : bm.resident frame.pageId = some frame := by
  rw [resident, if_neg valid]
  cases found : bm.pool.find? fun other => other.pageId == frame.pageId with
  | none =>
    have absent := List.find?_eq_none.mp found frame (List.mem_of_getElem? at_f)
    simp at absent
  | some other =>
    have same : other.pageId = frame.pageId := by simpa using List.find?_some found
    obtain ⟨g, at_g⟩ := List.getElem?_of_mem (List.mem_of_find?_eq_some found)
    have index := wf.unique g f other frame at_g at_f same (same ▸ valid)
    rw [index, at_f] at at_g
    exact at_g.symm

theorem resident_mem (found : bm.resident pageId = some frame) :
    frame ∈ bm.pool ∧ frame.pageId = pageId ∧ pageId ≠ invalidPageId := by
  unfold resident at found
  split at found
  · cases found
  · rename_i valid
    exact ⟨List.mem_of_find?_eq_some found, by simpa using List.find?_some found, valid⟩

theorem resident_eq_none (absent : ∀ frame ∈ bm.pool, frame.pageId ≠ pageId) :
    bm.resident pageId = none := by
  rw [resident]
  split
  · rfl
  · rw [List.find?_eq_none]
    intro frame member same
    exact absent frame member (by simpa using same)

theorem Wf.byte_eq (wf : bm.Wf) (at_f : bm.pool[f]? = some frame)
    (valid : frame.pageId ≠ invalidPageId) : bm.byte frame.pageId i = frame.data.getD i 0 := by
  rw [byte, wf.resident_eq at_f valid]

theorem byte_eq_durable (absent : ∀ frame ∈ bm.pool, frame.pageId ≠ pageId) :
    bm.byte pageId i = bm.durable pageId i := by
  rw [byte, resident_eq_none absent]

/-- `INVALID_PAGE_ID` has no frame. -/
theorem byte_invalid : bm.byte invalidPageId i = bm.durable invalidPageId i := by
  rw [byte, resident, if_pos rfl]

theorem getElem?_setFrame {counter g : Nat} {frame' : BufferFrame}
    (at_f : bm.pool[f]? = some frame) :
    (bm.setFrame f frame' counter).pool[g]? = if g = f then some frame' else bm.pool[g]? := by
  have inside : f < bm.pool.length := (List.getElem?_eq_some_iff.mp at_f).1
  rw [setFrame, List.getElem?_set]
  by_cases same : g = f
  · rw [if_pos same.symm, if_pos inside, if_pos same]
  · rw [if_neg (Ne.symm same), if_neg same]

/-- Putting a frame of a page where the page was, or into a blank frame, keeps the pool
consistent. -/
theorem Wf.setFrame {counter : Nat} {frame' : BufferFrame} (wf : bm.Wf)
    (at_f : bm.pool[f]? = some frame) (valid : frame'.pageId ≠ invalidPageId)
    (only : ∀ g other, bm.pool[g]? = some other → other.pageId = frame'.pageId → g = f)
    (length : frame'.data.length = bm.pageSize)
    (clean : frame'.dirty = false → ∀ i, frame'.data.getD i 0 = bm.durable frame'.pageId i)
    (used : f < counter) (advance : bm.pageCounter ≤ counter) :
    (bm.setFrame f frame' counter).Wf := by
  have split : ∀ other ∈ (bm.setFrame f frame' counter).pool, other = frame' ∨ other ∈ bm.pool := by
    intro other member
    exact (List.mem_or_eq_of_mem_set member).symm
  constructor
  · intro other member
    rcases split other member with rfl | old
    · exact length
    · exact wf.length other old
  · intro other member invalid
    rcases split other member with rfl | old
    · exact absurd invalid valid
    · exact wf.blank other old invalid
  · intro g other at_g late
    rw [getElem?_setFrame at_f, if_neg (by change counter ≤ g at late; omega)] at at_g
    exact wf.fresh g other at_g (Nat.le_trans advance late)
  · intro g h one two at_g at_h same notInvalid
    rw [getElem?_setFrame at_f] at at_g at_h
    split at at_g
    · rename_i gf
      cases at_g
      split at at_h
      · rename_i hf
        rw [gf, hf]
      · rw [gf, only h two at_h same.symm]
    · split at at_h
      · rename_i hf
        cases at_h
        rw [hf, only g one at_g same]
      · exact wf.unique g h one two at_g at_h same notInvalid
  · intro other member notDirty notInvalid i
    rcases split other member with rfl | old
    · exact clean notDirty i
    · exact wf.clean other old notDirty notInvalid i

/-- A page that is in the frame neither before nor behind. -/
theorem Wf.byte_setFrame_of_ne {counter : Nat} {frame' : BufferFrame} (wf : bm.Wf)
    (wf' : (bm.setFrame f frame' counter).Wf) (at_f : bm.pool[f]? = some frame)
    (before : frame.pageId = q → q = invalidPageId) (behind : frame'.pageId = q → q = invalidPageId) :
    (bm.setFrame f frame' counter).byte q i = bm.byte q i := by
  by_cases invalid : q = invalidPageId
  · rw [invalid, byte_invalid, byte_invalid]
    rfl
  by_cases present : ∃ other ∈ bm.pool, other.pageId = q
  · obtain ⟨other, member, rfl⟩ := present
    obtain ⟨g, at_g⟩ := List.getElem?_of_mem member
    have different : g ≠ f := by
      rintro rfl
      rw [at_f, Option.some.injEq] at at_g
      exact invalid (before (at_g ▸ rfl))
    have at_g' : (bm.setFrame f frame' counter).pool[g]? = some other := by
      rw [getElem?_setFrame at_f, if_neg different, at_g]
    rw [wf.byte_eq at_g invalid, wf'.byte_eq at_g' invalid]
  · have absent : ∀ other ∈ bm.pool, other.pageId ≠ q :=
      fun other member isQ => present ⟨other, member, isQ⟩
    rw [byte_eq_durable absent, byte_eq_durable]
    · rfl
    · intro other member isQ
      rcases List.mem_or_eq_of_mem_set member with old | rfl
      · exact absent other old isQ
      · exact invalid (behind isQ)

theorem byte_setFrame {counter : Nat} {frame' : BufferFrame} (wf : bm.Wf)
    (wf' : (bm.setFrame f frame' counter).Wf) (at_f : bm.pool[f]? = some frame)
    (valid : frame'.pageId ≠ invalidPageId)
    (kept : frame.pageId = frame'.pageId ∨ frame.pageId = invalidPageId) :
    (bm.setFrame f frame' counter).byte q i =
      if q = frame'.pageId then frame'.data.getD i 0 else bm.byte q i := by
  have at_f' : (bm.setFrame f frame' counter).pool[f]? = some frame' := by
    rw [getElem?_setFrame at_f, if_pos rfl]
  by_cases same : q = frame'.pageId
  · rw [if_pos same, same, wf'.byte_eq at_f' valid]
  · rw [if_neg same]
    apply wf.byte_setFrame_of_ne wf' at_f
    · intro isQ
      rcases kept with isSame | invalid
      · exact absurd (isQ.symm.trans isSame) same
      · exact isQ.symm.trans invalid
    · intro isQ
      exact absurd isQ.symm same

/-! ## The operations -/

theorem Wf.new (pageSize : Nat) (pageSize_lt : pageSize < 2 ^ 64) (pageCount : Nat)
    (disk : Disk UInt8) : (new pageSize pageSize_lt pageCount disk).Wf where
  length frame member := by
    rw [List.eq_of_mem_replicate member]
    exact List.length_replicate
  blank frame member _ := List.eq_of_mem_replicate member
  fresh f frame at_f _ := by
    rw [List.eq_of_mem_replicate (List.mem_of_getElem? at_f)]
    rfl
  unique f g frame other at_f _ _ valid := by
    rw [List.eq_of_mem_replicate (List.mem_of_getElem? at_f)] at valid
    exact absurd rfl valid
  clean frame member _ valid := by
    rw [List.eq_of_mem_replicate member] at valid
    exact absurd rfl valid

/-- A pool without resident pages shows the segment files. -/
theorem byte_of_blank (blank : ∀ frame ∈ bm.pool, frame.pageId = invalidPageId) :
    bm.byte q i = bm.durable q i := by
  by_cases invalid : q = invalidPageId
  · rw [invalid, byte_invalid]
  · exact byte_eq_durable fun frame member isQ => invalid (isQ.symm.trans (blank frame member))

theorem byte_new (pageSize : Nat) (pageSize_lt : pageSize < 2 ^ 64) (pageCount : Nat)
    (disk : Disk UInt8) (pageId : UInt64) (i : Nat) :
    (new pageSize pageSize_lt pageCount disk).byte pageId i = disk.byte pageSize pageId i :=
  byte_of_blank fun frame member => by
    rw [List.eq_of_mem_replicate member]
    rfl

theorem getFrameIdOfPage_spec (found : bm.getFrameIdOfPage pageId = some f) :
    ∃ frame, bm.pool[f]? = some frame ∧ frame.pageId = pageId := by
  obtain ⟨inside, same, _⟩ := List.findIdx?_eq_some_iff_getElem.mp found
  exact ⟨bm.pool[f], List.getElem?_eq_getElem inside, by simpa using same⟩

theorem getFrameIdOfPage_none (missing : bm.getFrameIdOfPage pageId = none) :
    ∀ frame ∈ bm.pool, frame.pageId ≠ pageId := by
  intro frame member same
  have h := List.findIdx?_eq_none_iff.mp missing frame member
  rw [same] at h
  simp at h

/-- What `fix_page` guarantees: the returned frame holds the page, and no byte of any page has
changed, neither in the view nor on disk. -/
structure Fixed (bm : BufferManager) (pageId : UInt64) (bm' : BufferManager) (f : Nat) : Prop where
  wf : bm'.Wf
  valid : pageId ≠ invalidPageId
  frame : ∃ frame, bm'.pool[f]? = some frame ∧ frame.pageId = pageId
  used : f < bm'.pageCounter
  byte : ∀ q i, bm'.byte q i = bm.byte q i
  disk : bm'.disk = bm.disk
  pageSize : bm'.pageSize = bm.pageSize

theorem Wf.fixPage (wf : bm.Wf) (fixed : bm.fixPage pageId = some (bm', f)) :
    Fixed bm pageId bm' f := by
  unfold BufferManager.fixPage at fixed
  split at fixed
  · cases fixed
  rename_i valid
  split at fixed
  · rename_i frameId found
    cases fixed
    obtain ⟨frame, at_f, same⟩ := getFrameIdOfPage_spec found
    refine ⟨wf, valid, ⟨frame, at_f, same⟩, ?_, fun _ _ => rfl, rfl, rfl⟩
    by_contra late
    exact valid (same ▸ wf.fresh f frame at_f (Nat.not_lt.mp late))
  · rename_i missing
    dsimp only at fixed
    split at fixed
    · cases fixed
    rename_i room
    cases fixed
    have absent := getFrameIdOfPage_none missing
    have inside : bm.pageCounter < bm.pool.length := by omega
    have at_f : bm.pool[bm.pageCounter]? = some bm.pool[bm.pageCounter] :=
      List.getElem?_eq_getElem inside
    have unused := wf.fresh _ _ at_f (Nat.le_refl _)
    have isBlank := wf.blank _ (List.mem_of_getElem? at_f) unused
    have dataEq : bm.getData bm.pageCounter = List.replicate bm.pageSize 0 := by
      rw [getData, at_f, isBlank]
      rfl
    have bytes : ∀ i, (bm.disk.readPage bm.pageSize pageId (bm.getData bm.pageCounter)).getD i 0 =
        bm.durable pageId i := by
      intro i
      rw [dataEq, Disk.getD_readPage_zeros]
      rfl
    have wf' : (bm.setFrame bm.pageCounter
        ⟨pageId, bm.disk.readPage bm.pageSize pageId (bm.getData bm.pageCounter), false⟩
        (bm.pageCounter + 1)).Wf := by
      refine wf.setFrame at_f valid (fun g other at_g isPage => ?_) ?_ (fun _ => bytes)
        (Nat.lt_succ_self _) (Nat.le_succ _)
      · exact absurd isPage (absent other (List.mem_of_getElem? at_g))
      · rw [Disk.length_readPage, dataEq, List.length_replicate]
    have at_f' : (bm.setFrame bm.pageCounter
        ⟨pageId, bm.disk.readPage bm.pageSize pageId (bm.getData bm.pageCounter), false⟩
        (bm.pageCounter + 1)).pool[bm.pageCounter]? = some _ :=
      (getElem?_setFrame at_f).trans (if_pos rfl)
    refine ⟨wf', valid, ⟨_, at_f', rfl⟩, Nat.lt_succ_self _, fun q i => ?_, rfl, rfl⟩
    refine (byte_setFrame wf wf' at_f valid (Or.inr unused)).trans ?_
    split
    · rename_i same
      rw [same, byte_eq_durable absent]
      exact bytes i
    · rfl

/-- Fix a page, copy bytes into it and unfix it dirty. -/
def writePage (bm : BufferManager) (pageId : UInt64) (offset : Nat) (src : List UInt8) :
    Option BufferManager := do
  let (bm, frameId) ← bm.fixPage pageId
  return (bm.memcpy frameId offset src).unfixPage frameId true

/-- What a page write guarantees. -/
structure Written (bm : BufferManager) (pageId : UInt64) (offset : Nat) (src : List UInt8)
    (bm' : BufferManager) : Prop where
  wf : bm'.Wf
  valid : pageId ≠ invalidPageId
  byte : ∀ q i, bm'.byte q i =
    if q = pageId ∧ i < bm.pageSize ∧ offset ≤ i ∧ i < offset + src.length then src.getD (i - offset) 0
    else bm.byte q i
  disk : bm'.disk = bm.disk
  pageSize : bm'.pageSize = bm.pageSize

/-- The copy into a fixed page. -/
theorem Wf.memcpy_unfixPage (wf : bm.Wf) (offset : Nat) (src : List UInt8)
    (at_f : bm.pool[f]? = some frame)
    (valid : frame.pageId ≠ invalidPageId) (used : f < bm.pageCounter) :
    Written bm frame.pageId offset src ((bm.memcpy f offset src).unfixPage f true) := by
  have inside : f < bm.pool.length := (List.getElem?_eq_some_iff.mp at_f).1
  have result : (bm.memcpy f offset src).unfixPage f true =
      bm.setFrame f ⟨frame.pageId, Image.overwrite frame.data offset src, true⟩ bm.pageCounter := by
    have at_f' : (bm.pool.set f { frame with data := Image.overwrite frame.data offset src })[f]? =
        some { frame with data := Image.overwrite frame.data offset src } := by
      rw [List.getElem?_set, if_pos rfl, if_pos inside]
    simp only [memcpy, at_f, unfixPage, at_f', List.set_set, Bool.or_true, BufferManager.setFrame]
  have wf' : (bm.setFrame f ⟨frame.pageId, Image.overwrite frame.data offset src, true⟩
      bm.pageCounter).Wf := by
    refine wf.setFrame at_f valid (fun g other at_g same => ?_) ?_ (fun h => by cases h) used (Nat.le_refl _)
    · exact wf.unique g f other frame at_g at_f same (same ▸ valid)
    · rw [Image.length_overwrite, wf.length frame (List.mem_of_getElem? at_f)]
  rw [result]
  refine ⟨wf', valid, fun q i => ?_, rfl, rfl⟩
  rw [byte_setFrame wf wf' at_f valid (Or.inl rfl)]
  by_cases same : q = frame.pageId
  · rw [if_pos same, Image.getD_overwrite, wf.length frame (List.mem_of_getElem? at_f), same,
      wf.byte_eq at_f valid]
    simp only [true_and]
  · rw [if_neg same, if_neg fun h => same h.1]

theorem Wf.writePage (wf : bm.Wf) (written : bm.writePage pageId offset src = some bm') :
    Written bm pageId offset src bm' := by
  unfold BufferManager.writePage at written
  rcases fixed : bm.fixPage pageId with _ | ⟨fixedBm, f⟩
  · rw [fixed] at written
    cases written
  · rw [fixed] at written
    cases written
    obtain ⟨wf', valid, ⟨frame, at_f, rfl⟩, used, bytes, disk, size⟩ := wf.fixPage fixed
    have copied := wf'.memcpy_unfixPage offset src at_f valid used
    refine ⟨copied.wf, valid, fun q i => ?_, copied.disk.trans disk, copied.pageSize.trans size⟩
    rw [copied.byte, size, bytes]

theorem durable_writeFrame {disk : Disk UInt8} {pageSize : Nat}
    (length : frame.data.length = pageSize) :
    (writeFrame pageSize disk frame).byte pageSize q i =
      if frame.dirty = true ∧ q = frame.pageId then frame.data.getD i 0
      else disk.byte pageSize q i := by
  unfold writeFrame
  cases frame.dirty with
  | true =>
    rw [if_pos rfl, Disk.byte_writePage length]
    simp only [true_and]
  | false =>
    rw [if_neg Bool.false_ne_true, if_neg fun h => Bool.false_ne_true h.1]

/-- A disk that shows the same bytes of every page up to dirty resident ones keeps the pool
consistent. -/
theorem Wf.flush (wf : bm.Wf) (disk : Disk UInt8)
    (flushed : ∀ q i, disk.byte bm.pageSize q i = bm.durable q i ∨
      disk.byte bm.pageSize q i = bm.byte q i) :
    ({ bm with disk := disk } : BufferManager).Wf ∧
      ∀ q i, ({ bm with disk := disk } : BufferManager).byte q i = bm.byte q i := by
  constructor
  · refine ⟨wf.length, wf.blank, wf.fresh, wf.unique, ?_⟩
    intro frame member notDirty valid i
    obtain ⟨f, at_f⟩ := List.getElem?_of_mem member
    rcases flushed frame.pageId i with h | h
    · exact (wf.clean frame member notDirty valid i).trans h.symm
    · rw [wf.byte_eq at_f valid] at h
      exact h.symm
  · intro q i
    by_cases present : ∃ frame, bm.resident q = some frame
    · obtain ⟨frame, found⟩ := present
      have found' : ({ bm with disk := disk } : BufferManager).resident q = some frame := found
      rw [byte, byte, found, found']
    · have missing : bm.resident q = none := by
        cases h : bm.resident q with
        | none => rfl
        | some frame => exact absurd ⟨frame, h⟩ present
      have missing' : ({ bm with disk := disk } : BufferManager).resident q = none := missing
      have same : bm.byte q i = bm.durable q i := by rw [byte, missing]
      have onDisk : disk.byte bm.pageSize q i = bm.durable q i := by
        rcases flushed q i with h | h
        · exact h
        · rw [h, same]
      rw [same, ← onDisk, byte, missing']
      rfl

/-- What a flush guarantees: the view is the same, and the pages in `pages` are durable. -/
structure Flushed (bm : BufferManager) (pages : UInt64 → Bool) (bm' : BufferManager) : Prop where
  wf : bm'.Wf
  byte : ∀ q i, bm'.byte q i = bm.byte q i
  durable : ∀ q i, bm'.durable q i = if pages q then bm.byte q i else bm.durable q i
  pageSize : bm'.pageSize = bm.pageSize

theorem Wf.clean_eq (wf : bm.Wf) (at_f : bm.pool[f]? = some frame) (notDirty : frame.dirty = false)
    (i : Nat) : bm.byte frame.pageId i = bm.durable frame.pageId i := by
  by_cases valid : frame.pageId = invalidPageId
  · rw [valid, byte_invalid]
  · rw [wf.byte_eq at_f valid]
    exact wf.clean frame (List.mem_of_getElem? at_f) notDirty valid i

theorem Wf.dirty_valid (wf : bm.Wf) (member : frame ∈ bm.pool) (isDirty : frame.dirty = true) :
    frame.pageId ≠ invalidPageId := by
  intro invalid
  rw [wf.blank frame member invalid] at isDirty
  cases isDirty

theorem Wf.flushPage (wf : bm.Wf) (pageId : UInt64) :
    Flushed bm (fun q => q == pageId) (bm.flushPage pageId) := by
  unfold BufferManager.flushPage
  split
  · rename_i frameId found
    obtain ⟨frame, at_f, rfl⟩ := getFrameIdOfPage_spec found
    rw [at_f]
    have length := wf.length frame (List.mem_of_getElem? at_f)
    have written : ∀ q i, (writeFrame bm.pageSize bm.disk frame).byte bm.pageSize q i =
        if q == frame.pageId then bm.byte q i else bm.durable q i := by
      intro q i
      rw [durable_writeFrame length]
      by_cases same : q = frame.pageId
      · rw [if_pos (beq_iff_eq.mpr same), same]
        by_cases isDirty : frame.dirty = true
        · rw [if_pos ⟨isDirty, rfl⟩,
            wf.byte_eq at_f (wf.dirty_valid (List.mem_of_getElem? at_f) isDirty)]
        · rw [if_neg fun h => isDirty h.1, wf.clean_eq at_f (Bool.not_eq_true _ ▸ isDirty)]
          rfl
      · rw [if_neg fun h => same h.2, if_neg fun h => same (beq_iff_eq.mp h)]
        rfl
    obtain ⟨wf', bytes⟩ := wf.flush (writeFrame bm.pageSize bm.disk frame) fun q i => by
      rw [written]
      split
      · exact Or.inr rfl
      · exact Or.inl rfl
    exact ⟨wf', bytes, written, rfl⟩
  · rename_i missing
    refine ⟨wf, fun _ _ => rfl, fun q i => ?_, rfl⟩
    split
    · rename_i same
      rw [beq_iff_eq.mp same, byte_eq_durable (getFrameIdOfPage_none missing)]
    · rfl

/-- Writing the dirty frames among `frames` one after the other. -/
theorem durable_foldl {frames : List BufferFrame} {pageSize : Nat} (disk : Disk UInt8)
    (q : UInt64) (length : ∀ frame ∈ frames, frame.data.length = pageSize)
    (unique : frames.Pairwise fun one two => one.dirty = true → two.dirty = true →
      one.pageId ≠ two.pageId) :
    (∀ frame ∈ frames, frame.dirty = true →
      (frames.foldl (writeFrame pageSize) disk).byte pageSize frame.pageId i =
        frame.data.getD i 0) ∧
    ((∀ frame ∈ frames, frame.dirty = true → frame.pageId ≠ q) →
      (frames.foldl (writeFrame pageSize) disk).byte pageSize q i = disk.byte pageSize q i) := by
  induction frames generalizing disk q with
  | nil => exact ⟨fun frame absent => (List.not_mem_nil absent).elim, fun _ => rfl⟩
  | cons head rest ih =>
    rw [List.pairwise_cons] at unique
    have rests := ih (writeFrame pageSize disk head) q
      (fun frame member => length frame (List.mem_cons_of_mem _ member)) unique.2
    rw [List.foldl_cons]
    constructor
    · intro frame member isDirty
      rcases List.mem_cons.mp member with rfl | later
      · have last := (ih (writeFrame pageSize disk frame) frame.pageId
          (fun other member => length other (List.mem_cons_of_mem _ member)) unique.2).2
          fun other member otherDirty same => unique.1 other member isDirty otherDirty same.symm
        rw [last, durable_writeFrame (length frame List.mem_cons_self), if_pos ⟨isDirty, rfl⟩]
      · exact rests.1 frame later isDirty
    · intro others
      rw [rests.2 fun frame member => others frame (List.mem_cons_of_mem _ member),
        durable_writeFrame (length head List.mem_cons_self), if_neg]
      exact fun h => others head List.mem_cons_self h.1 h.2.symm

theorem Wf.flushAllPages (wf : bm.Wf) : Flushed bm (fun _ => true) bm.flushAllPages := by
  have unique : bm.pool.Pairwise fun one two => one.dirty = true → two.dirty = true →
      one.pageId ≠ two.pageId := by
    rw [List.pairwise_iff_getElem]
    intro f g hf hg less dirtyF _ same
    have index := wf.unique f g _ _ (List.getElem?_eq_getElem hf) (List.getElem?_eq_getElem hg) same
      (wf.dirty_valid (List.getElem_mem hf) dirtyF)
    omega
  have written : ∀ q i, (bm.pool.foldl (writeFrame bm.pageSize) bm.disk).byte bm.pageSize q i =
      bm.byte q i := by
    intro q i
    have fold := durable_foldl (i := i) bm.disk q wf.length unique
    by_cases present : ∃ frame ∈ bm.pool, frame.dirty = true ∧ frame.pageId = q
    · obtain ⟨frame, member, isDirty, rfl⟩ := present
      obtain ⟨f, at_f⟩ := List.getElem?_of_mem member
      rw [fold.1 frame member isDirty, wf.byte_eq at_f (wf.dirty_valid member isDirty)]
    · rw [fold.2 fun frame member isDirty same => present ⟨frame, member, isDirty, same⟩]
      cases found : bm.resident q with
      | none =>
        rw [byte, found]
        rfl
      | some frame =>
        obtain ⟨member, rfl, _⟩ := resident_mem found
        obtain ⟨f, at_f⟩ := List.getElem?_of_mem member
        have notDirty : frame.dirty = false :=
          Bool.eq_false_iff.mpr fun isDirty => present ⟨frame, member, isDirty, rfl⟩
        exact (wf.clean_eq at_f notDirty i).symm
  obtain ⟨wf', bytes⟩ := wf.flush (bm.pool.foldl (writeFrame bm.pageSize) bm.disk)
    fun q i => Or.inr (written q i)
  exact ⟨wf', bytes, written, rfl⟩

/-- Flushes of some pages. -/
theorem Wf.flushPages (wf : bm.Wf) (pages : List UInt64) :
    (pages.foldl BufferManager.flushPage bm).Wf ∧
      (pages.foldl BufferManager.flushPage bm).pageSize = bm.pageSize ∧
      ∀ q i, (pages.foldl BufferManager.flushPage bm).byte q i = bm.byte q i ∧
        ((pages.foldl BufferManager.flushPage bm).durable q i = bm.durable q i ∨
          (pages.foldl BufferManager.flushPage bm).durable q i = bm.byte q i) := by
  induction pages generalizing bm with
  | nil => exact ⟨wf, rfl, fun q i => ⟨rfl, Or.inl rfl⟩⟩
  | cons page pages ih =>
    have first := wf.flushPage page
    obtain ⟨wf', pageSize, bytes⟩ := ih first.wf
    refine ⟨wf', pageSize.trans first.pageSize, fun q i => ?_⟩
    obtain ⟨view, disk⟩ := bytes q i
    rw [first.byte] at view disk
    refine ⟨view, ?_⟩
    rcases disk with same | same
    · rw [List.foldl_cons, same, first.durable]
      split
      · exact Or.inr rfl
      · exact Or.inl rfl
    · exact Or.inr same

/-- What a discard guarantees: the segment files are untouched, and the pages in `pages` show
them again. -/
structure Discarded (bm : BufferManager) (pages : UInt64 → Bool) (bm' : BufferManager) : Prop where
  wf : bm'.Wf
  byte : ∀ q i, bm'.byte q i = if pages q then bm.durable q i else bm.byte q i
  disk : bm'.disk = bm.disk
  pageSize : bm'.pageSize = bm.pageSize

theorem getElem?_blankFrame (at_f : bm.pool[f]? = some frame) (g : Nat) :
    (bm.pool.set f (BufferFrame.blank bm.pageSize))[g]? =
      if g = f then some (BufferFrame.blank bm.pageSize) else bm.pool[g]? :=
  (getElem?_setFrame at_f : (bm.setFrame f _ bm.pageCounter).pool[g]? = _)

/-- A frame that is emptied. -/
theorem Wf.blankFrame (wf : bm.Wf) (at_f : bm.pool[f]? = some frame) :
    ({ bm with pool := bm.pool.set f (BufferFrame.blank bm.pageSize) } : BufferManager).Wf := by
  refine ⟨?_, ?_, ?_, ?_, ?_⟩
  · intro other member
    rcases List.mem_or_eq_of_mem_set member with old | rfl
    · exact wf.length other old
    · exact List.length_replicate
  · intro other member invalid
    rcases List.mem_or_eq_of_mem_set member with old | rfl
    · exact wf.blank other old invalid
    · rfl
  · intro g other at_g late
    rw [getElem?_blankFrame at_f] at at_g
    split at at_g
    · cases at_g
      rfl
    · exact wf.fresh g other at_g late
  · intro g h one two at_g at_h same notInvalid
    rw [getElem?_blankFrame at_f] at at_g at_h
    split at at_g
    · cases at_g
      exact absurd rfl notInvalid
    · split at at_h
      · cases at_h
        exact absurd same notInvalid
      · exact wf.unique g h one two at_g at_h same notInvalid
  · intro other member notDirty notInvalid i
    rcases List.mem_or_eq_of_mem_set member with old | rfl
    · exact wf.clean other old notDirty notInvalid i
    · exact absurd rfl notInvalid

theorem Wf.discardPage (wf : bm.Wf) (pageId : UInt64) :
    Discarded bm (fun q => q == pageId) (bm.discardPage pageId) := by
  unfold BufferManager.discardPage
  split
  · rename_i f found
    obtain ⟨frame, at_f, rfl⟩ := getFrameIdOfPage_spec found
    by_cases valid : frame.pageId = invalidPageId
    · have same : bm.pool.set f (BufferFrame.blank bm.pageSize) = bm.pool := by
        obtain ⟨inside, isFrame⟩ := List.getElem?_eq_some_iff.mp at_f
        rw [← wf.blank frame (List.mem_of_getElem? at_f) valid, ← isFrame]
        exact List.set_getElem_self inside
      rw [same]
      refine ⟨wf, fun q i => ?_, rfl, rfl⟩
      split
      · rename_i isPage
        rw [beq_iff_eq.mp isPage, valid, byte_invalid]
      · rfl
    have lookup : ∀ g, (bm.pool.set f (BufferFrame.blank bm.pageSize))[g]? =
        if g = f then some (BufferFrame.blank bm.pageSize) else bm.pool[g]? := getElem?_blankFrame at_f
    have wf' := wf.blankFrame at_f
    refine ⟨wf', fun q i => ?_, rfl, rfl⟩
    by_cases same : q = frame.pageId
    · rw [if_pos (beq_iff_eq.mpr same), same, byte_eq_durable]
      · rfl
      · intro other member isPage
        obtain ⟨g, at_g⟩ := List.getElem?_of_mem member
        rw [lookup] at at_g
        split at at_g
        · cases at_g
          exact valid isPage.symm
        · rename_i different
          exact different (wf.unique g f other frame at_g at_f isPage (isPage ▸ valid))
    · rw [if_neg fun h => same (beq_iff_eq.mp h)]
      exact wf.byte_setFrame_of_ne wf' at_f (fun isQ => absurd isQ.symm same) Eq.symm
  · rename_i missing
    refine ⟨wf, fun q i => ?_, rfl, rfl⟩
    split
    · rename_i same
      rw [beq_iff_eq.mp same, byte_eq_durable (getFrameIdOfPage_none missing)]
    · rfl

theorem discarded_all (bm : BufferManager) :
    Discarded bm (fun _ => true) bm.discardAllPages := by
  have blank : ∀ frame ∈ bm.discardAllPages.pool, frame = BufferFrame.blank bm.pageSize := by
    intro frame member
    obtain ⟨_, _, rfl⟩ := List.mem_map.mp member
    rfl
  have invalid : ∀ frame ∈ bm.discardAllPages.pool, frame.pageId = invalidPageId := by
    intro frame member
    rw [blank frame member]
    rfl
  refine ⟨⟨?_, fun frame member _ => blank frame member, ?_, ?_, ?_⟩, fun q i => ?_, rfl, rfl⟩
  · intro frame member
    rw [blank frame member]
    exact List.length_replicate
  · exact fun f frame at_f _ => invalid frame (List.mem_of_getElem? at_f)
  · exact fun f g frame other at_f _ _ valid =>
      absurd (invalid frame (List.mem_of_getElem? at_f)) valid
  · exact fun frame member _ valid => absurd (invalid frame member) valid
  · rw [if_pos rfl]
    exact byte_of_blank invalid

end BufferManager

end BuzzDB.Recovery
