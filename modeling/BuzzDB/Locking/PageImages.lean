import BuzzDB.Locking.HeapSystem

/-!
# The images of pages

What the segment file has of a page, its image, changes only when a frame is written back, and then
the image is what the frame holds.  `HeapSegment` calls neither, so its functions leave all
images as they are.
-/

namespace BuzzDB.Locking

open FramePool PagePool HeapSegment

namespace BufferManager

variable {bm mid bm' : BufferManager UInt8} {t p q : UInt64} {f g : Nat}

/-- What the segment file has of a page. -/
def image (bm : BufferManager UInt8) (pageId : UInt64) : List UInt8 :=
  (List.range bm.pageSize).map (bm.disk.byte bm.pageSize pageId)

/-- The image is the same, and no file has become shorter. -/
structure SameImage (bm bm' : BufferManager UInt8) (p : UInt64) : Prop where
  image : bm'.image p = bm.image p
  onDisk : bm.OnDisk p → bm'.OnDisk p

theorem SameImage.refl (bm : BufferManager UInt8) (p : UInt64) : SameImage bm bm p := ⟨rfl, id⟩

theorem SameImage.trans (first : SameImage bm mid p) (second : SameImage mid bm' p) :
    SameImage bm bm' p :=
  ⟨second.image.trans first.image, fun onDisk => second.onDisk (first.onDisk onDisk)⟩

/-- Another disk is the only thing that changes an image. -/
theorem sameImage_of_disk (disk : bm'.disk = bm.disk) (pageSize : bm'.pageSize = bm.pageSize)
    (p : UInt64) : SameImage bm bm' p := by
  refine ⟨?_, fun onDisk => ⟨onDisk.1, ?_⟩⟩
  · rw [BufferManager.image, BufferManager.image, disk, pageSize]
  · rw [disk, pageSize]
    exact onDisk.2

/-! ## Writing back -/

/-- Frames are written back: the image of a page is what its frame holds, or the same as before, and
then the frame is as dirty as before. -/
structure Writes (bm bm' : BufferManager UInt8) : Prop where
  wf : bm'.Wf
  pageSize : bm'.pageSize = bm.pageSize
  pageTable : bm'.pageTable = bm.pageTable
  data : ∀ f, (bm'.pool f).data = (bm.pool f).data
  mapped : ∀ p f, p ≠ invalidPageId → bm.pageTable p = some f →
    (bm'.OnDisk p ∧ bm'.image p = (bm.pool f).data) ∨
      (SameImage bm bm' p ∧ (bm'.pool f).dirty = (bm.pool f).dirty)
  missing : ∀ p, p ≠ invalidPageId → bm.pageTable p = none → SameImage bm bm' p

/-- A step that leaves the frames and the disk alone. -/
theorem writes_of_same (wf : bm'.Wf) (pool : bm'.pool = bm.pool)
    (pageTable : bm'.pageTable = bm.pageTable) (disk : bm'.disk = bm.disk)
    (pageSize : bm'.pageSize = bm.pageSize) : Writes bm bm' where
  wf := wf
  pageSize := pageSize
  pageTable := pageTable
  data f := by rw [pool]
  mapped p f _ _ := Or.inr ⟨sameImage_of_disk disk pageSize p, by rw [pool]⟩
  missing p _ _ := sameImage_of_disk disk pageSize p

theorem Writes.refl (wf : bm.Wf) : Writes bm bm := writes_of_same wf rfl rfl rfl rfl

theorem Writes.trans (first : Writes bm mid) (second : Writes mid bm') : Writes bm bm' where
  wf := second.wf
  pageSize := second.pageSize.trans first.pageSize
  pageTable := second.pageTable.trans first.pageTable
  data f := (second.data f).trans (first.data f)
  mapped p f valid isMapped := by
    have still : mid.pageTable p = some f := by rw [first.pageTable, isMapped]
    rcases second.mapped p f valid still with ⟨onDisk, image⟩ | ⟨same', dirty'⟩
    · exact Or.inl ⟨onDisk, image.trans (first.data f)⟩
    · rcases first.mapped p f valid isMapped with ⟨onDisk, image⟩ | ⟨same, dirty⟩
      · exact Or.inl ⟨same'.onDisk onDisk, same'.image.trans image⟩
      · exact Or.inr ⟨same.trans same', dirty'.trans dirty⟩
  missing p valid isMissing := by
    have still : mid.pageTable p = none := by rw [first.pageTable, isMissing]
    exact (first.missing p valid isMissing).trans (second.missing p valid still)

/-- What `write_frame` does to the images of valid pages. -/
theorem image_writePage (wf : bm.Wf) (g : Nat) (bm' : BufferManager UInt8)
    (disk : bm'.disk = bm.disk.writePage bm.pageSize (bm.pool g).pageId (bm.pool g).data)
    (pageSize : bm'.pageSize = bm.pageSize) (valid : p ≠ invalidPageId) :
    if (bm.pool g).pageId = p then bm'.OnDisk p ∧ bm'.image p = (bm.pool g).data
    else SameImage bm bm' p := by
  have length := wf.length g
  split
  · rename_i here
    subst here
    refine ⟨⟨valid, ?_⟩, ?_⟩
    · rw [disk, pageSize, Disk.writePage_eq, Function.update_self, Image.length_splice, length]
      split
      · rename_i empty
        rw [Disk.start, empty]
        omega
      · omega
    · rw [BufferManager.image, disk, pageSize]
      refine (List.map_congr_left fun i _ => ?_).trans (Image.map_getD_range length)
      rw [Disk.byte_writePage length, if_pos rfl]
  · rename_i elsewhere
    refine ⟨?_, fun onDisk => ⟨valid, ?_⟩⟩
    · rw [BufferManager.image, BufferManager.image, disk, pageSize]
      refine List.map_congr_left fun i _ => ?_
      rw [Disk.byte_writePage length, if_neg (Ne.symm elsewhere)]
    · rw [disk, pageSize]
      exact onDisk.2.trans (Disk.length_writePage _ _ _ _ _)

theorem writes_flushFrame (wf : bm.Wf) (g : Nat) : Writes bm (bm.flushFrame g) := by
  have flushes := (flushFrame_flushes bm g).1
  refine ⟨flushes.wf wf, flushes.pageSize, flushes.pageTable, flushes.data,
    fun p f valid isMapped => ?_, fun p valid isMissing => ?_⟩
  · unfold BufferManager.flushFrame
    split
    · have written := image_writePage wf g ((bm.writeFrame g).put g
        { bm.pool g with dirty := false }) rfl rfl valid
      rcases eq_or_ne f g with rfl | different
      · rw [if_pos (wf.mapped p f isMapped)] at written
        exact Or.inl written
      · rw [if_neg] at written
        · have same : ((bm.writeFrame g).put g { bm.pool g with dirty := false }).pool f =
              bm.pool f := pool_put_of_ne different
          exact Or.inr ⟨written, congrArg BufferFrame.dirty same⟩
        · -- the other frame would be the frame of the page
          intro here
          have other := wf.stray g (here ▸ valid)
          rw [here, isMapped] at other
          exact different (Option.some.inj other)
    · exact Or.inr ⟨.refl bm p, rfl⟩
  · unfold BufferManager.flushFrame
    split
    · have written := image_writePage wf g ((bm.writeFrame g).put g
        { bm.pool g with dirty := false }) rfl rfl valid
      rw [if_neg] at written
      · exact written
      · intro here
        have other := wf.stray g (here ▸ valid)
        rw [here, isMissing] at other
        cases other
    · exact .refl bm p

theorem writes_flushPage (wf : bm.Wf) (p : UInt64) : Writes bm (bm.flushPage p) := by
  unfold BufferManager.flushPage
  split
  · exact writes_flushFrame wf _
  · exact .refl wf

/-- One write after the other. -/
theorem writes_foldl {β : Type*} {flush : BufferManager UInt8 → β → BufferManager UInt8}
    (one : ∀ bm x, bm.Wf → Writes bm (flush bm x)) (xs : List β) (wf : bm.Wf) :
    Writes bm (xs.foldl flush bm) := by
  induction xs generalizing bm with
  | nil => exact .refl wf
  | cons x xs ih =>
    have first := one bm x wf
    exact first.trans (ih first.wf)

theorem writes_flushAllPages (wf : bm.Wf) : Writes bm bm.flushAllPages :=
  writes_foldl (fun _ f wf => writes_flushFrame wf f) (List.range bm.capacity) wf

theorem writes_transactionComplete (wf : bm.Wf) (t : UInt64) :
    Writes bm (bm.transactionComplete t) := by
  have flushed : Writes bm (bm.flushPages t) :=
    writes_foldl (fun _ p wf => writes_flushPage wf p) _ wf
  exact flushed.trans (writes_of_same (flushed.wf.congr rfl rfl rfl rfl) rfl rfl rfl rfl)

/-- `transaction_complete` writes the dirty pages that the transaction has fixed. -/
theorem completed_image (wf : bm.Wf) (valid : p ≠ invalidPageId) (isMapped : bm.pageTable p = some f)
    (tracked : p ∈ SetMap.get bm.txnPages t) (dirty : (bm.pool f).dirty = true) :
    (bm.transactionComplete t).OnDisk p ∧
      (bm.transactionComplete t).image p = (bm.pool f).data := by
  have clean : ((bm.transactionComplete t).pool f).dirty = false :=
    foldl_flushPage_clean tracked bm isMapped
  rcases (writes_transactionComplete wf t).mapped p f valid isMapped with written | ⟨_, same⟩
  · exact written
  · rw [clean, dirty] at same
    cases same

/-- A page that is not flushed, or whose frame is clean. -/
theorem flushPage_image (wf : bm.Wf) (valid : p ≠ invalidPageId)
    (clean : q = p → ∀ f, bm.pageTable p = some f → (bm.pool f).dirty = false) :
    (bm.flushPage q).image p = bm.image p := by
  unfold BufferManager.flushPage
  split
  · rename_i g isMapped
    unfold BufferManager.flushFrame
    split
    · rename_i dirty
      have written := image_writePage wf g ((bm.writeFrame g).put g
        { bm.pool g with dirty := false }) rfl rfl valid
      rw [if_neg] at written
      · exact written.image
      · intro here
        rw [wf.mapped q g isMapped] at here
        subst here
        rw [clean rfl g isMapped] at dirty
        cases dirty
    · rfl
  · rfl

/-- `transaction_complete` writes no other pages. -/
theorem uncompleted_image (wf : bm.Wf) (valid : p ≠ invalidPageId)
    (clean : p ∈ SetMap.get bm.txnPages t → ∀ f, bm.pageTable p = some f → (bm.pool f).dirty = false) :
    (bm.transactionComplete t).image p = bm.image p := by
  change ((SetMap.get bm.txnPages t).foldl BufferManager.flushPage bm).image p = bm.image p
  generalize SetMap.get bm.txnPages t = pages at clean ⊢
  induction pages generalizing bm with
  | nil => rfl
  | cons q pages ih =>
    have flushes := flushPage_flushes bm q
    rw [List.foldl_cons, ih (flushes.wf wf), flushPage_image wf valid]
    · intro here
      exact clean (here ▸ List.mem_cons_self)
    · intro later f isMapped
      rw [flushes.pageTable] at isMapped
      exact flushes.clean f (clean (List.mem_cons_of_mem q later) f isMapped)

/-! ## Fixing a page -/

/-- `fix_page` reads pages only, and maps only its own. -/
theorem Wf.fixPage_reads {mode : LockMode} (wf : bm.Wf)
    (fixed : bm.fixPage t p mode = (bm', .frame f)) :
    bm'.disk = bm.disk ∧ ∀ q, q ≠ p → bm'.pageTable q = bm.pageTable q := by
  have fixes := wf.fixPage t p mode
  rw [fixed] at fixes
  refine ⟨?_, fun q different => ?_⟩
  · cases isMapped : bm.pageTable p with
    | some g => exact (fixPage_finds isMapped fixed).2.2.1
    | none => exact (wf.fixPage_loads isMapped fixed).2.2.1
  · cases found : bm.pageTable q with
    | some g => exact fixes.mapped q g found
    | none => exact fixes.missing q different found

/-- A request that is refused for a page in the pool. -/
theorem fixPage_refused {mode : LockMode} (isMapped : bm.pageTable p = some f)
    (refused : (bm.fixPage t p mode).2 = .abort) :
    (bm.fixPage t p mode).1 =
      { bm with lockManager := (bm.lockManager.acquireLock t p mode).1 } := by
  unfold BufferManager.fixPage at refused ⊢
  rw [isMapped] at refused ⊢
  dsimp only at refused ⊢
  split at refused
  · cases refused
  · rename_i denied
    rw [if_neg denied]

end BufferManager

/-! ## The functions of a segment -/

namespace HeapSystem

variable {s s' mid : HeapSystem} {segment segment' : HeapSegment} {txnId tid p : UInt64} {f : Nat}
  {exclusive : Bool} {size capacity : UInt32} {record src : List UInt8}

theorem fixPage_reads (wf : s.bm.Wf) (fixed : fixPage txnId exclusive s p = some (s', f)) :
    s'.bm.disk = s.bm.disk ∧ ∀ q, q ≠ p → s'.bm.pageTable q = s.bm.pageTable q := by
  unfold fixPage at fixed
  split at fixed
  · rename_i found
    cases fixed
    exact wf.fixPage_reads found
  · cases fixed

theorem disk_findSpace {pages : List UInt64} {found : Option Nat} (wf : s.bm.Wf)
    (ran : findSpace (fixPage txnId exclusive) size s pages = some (s', found)) :
    s'.bm.Wf ∧ s'.bm.disk = s.bm.disk := by
  induction pages generalizing s with
  | nil =>
    cases ran
    exact ⟨wf, rfl⟩
  | cons p pages ih =>
    obtain ⟨⟨mid, f⟩, fixed, ran⟩ := Option.bind_eq_some_iff.mp ran
    have wf' : mid.bm.Wf := (fixes txnId exclusive s p mid f wf fixed).1.wf
    have disk := (fixPage_reads wf fixed).1
    dsimp only at ran
    split at ran
    · obtain ⟨wf'', disk'⟩ := ih wf' ran
      exact ⟨wf'', disk'.trans disk⟩
    · cases ran
      exact ⟨wf', disk⟩

theorem disk_copyIn {offset : Nat} (copied : copyIn s f offset src = some s') :
    s'.bm.disk = s.bm.disk := by
  obtain ⟨_, rfl⟩ := copyIn_eq_some copied
  rfl

theorem disk_addSlot (added : addSlot s f size = some (s', tid)) : s'.bm.disk = s.bm.disk := by
  obtain ⟨base, page', mid, -, -, slotCopied, headerCopied⟩ := addSlot_eq_some added
  exact (disk_copyIn headerCopied).trans (disk_copyIn slotCopied)

theorem disk_newPage (constructed : newPage s f p = some s') : s'.bm.disk = s.bm.disk := by
  obtain ⟨address, _, copied⟩ := Option.bind_eq_some_iff.mp constructed
  exact disk_copyIn copied

/-- `allocate` writes nothing back. -/
theorem disk_allocate (wf : s.bm.Wf)
    (ran : HeapManager.allocate (σ := HeapSystem) txnId s segment size = some (s', segment', tid)) :
    s'.bm.disk = s.bm.disk := by
  rcases allocate_cases ran with ⟨mid, f, added, searched, isAdded, rfl, -⟩ |
    ⟨mid, mid', f, mid'', added, searched, fixed, isConstructed, isAdded, rfl, -⟩
  · exact (disk_addSlot isAdded).trans (disk_findSpace wf searched).2
  · obtain ⟨wf', disk⟩ := disk_findSpace wf searched
    calc
      s'.bm.disk = mid''.bm.disk := disk_addSlot isAdded
      _ = mid'.bm.disk := disk_newPage isConstructed
      _ = mid.bm.disk := (fixPage_reads wf' fixed).1
      _ = s.bm.disk := disk

/-- `write` writes nothing back, and maps no page but that of its record. -/
theorem write_reads (wf : s.bm.Wf)
    (ran : HeapManager.write (σ := HeapSystem) txnId s segment tid record = some s') :
    s'.bm.disk = s.bm.disk ∧ ∀ q, q ≠ overallPageIdOf segment.segmentId tid →
      s'.bm.pageTable q = s.bm.pageTable q := by
  obtain ⟨⟨written, change⟩, wrote, same⟩ := Option.bind_eq_some_iff.mp ran
  cases same
  obtain ⟨mid, f, value, copied, fixed, -, isCopied, rfl⟩ := write_eq_some wrote
  obtain ⟨_, rfl⟩ := copyIn_eq_some isCopied
  obtain ⟨disk, table⟩ : mid.bm.disk = s.bm.disk ∧ ∀ q, q ≠ _ →
      mid.bm.pageTable q = s.bm.pageTable q := fixPage_reads wf fixed
  exact ⟨disk, table⟩

/-- `read` does no more. -/
theorem read_reads {result : List UInt8 × UInt32} (wf : s.bm.Wf)
    (ran : HeapManager.read (σ := HeapSystem) txnId s segment tid capacity = some (s', result)) :
    s'.bm.disk = s.bm.disk ∧ ∀ q, q ≠ overallPageIdOf segment.segmentId tid →
      s'.bm.pageTable q = s.bm.pageTable q := by
  obtain ⟨mid, f, fixed, same⟩ := read_eq_some ran
  obtain ⟨disk, table⟩ : mid.bm.disk = s.bm.disk ∧ ∀ q, q ≠ _ →
      mid.bm.pageTable q = s.bm.pageTable q := fixPage_reads wf fixed
  rw [same]
  exact ⟨disk, table⟩

end HeapSystem

end BuzzDB.Locking
