import BuzzDB.Heap.HeapManager
import BuzzDB.Locking.Restores

/-!
# Heap segments of lab 3

The functions of `HeapSegment` over the buffer manager of this lab: every call is on behalf of a
transaction, whose locks keep the frames, so that nothing is unfixed.  A call that throws has no
result.

A page that has no frame is read into the bytes of a free frame.  It is whole when its segment
file reaches to its end.
-/

namespace BuzzDB.Locking

open PagePool HeapSegment

namespace BufferManager

variable {bm bm' : BufferManager UInt8} {t p q : UInt64} {f g : Nat} {mode : LockMode}

/-- The bytes of a page: those of its frame, or those in its segment file. -/
def shown (bm : BufferManager UInt8) (pageId : UInt64) : List UInt8 :=
  match bm.pageTable pageId with
  | some frameId => (bm.pool frameId).data
  | none => (List.range bm.pageSize).map (bm.disk.byte bm.pageSize pageId)

/-- Change the bytes of a frame. -/
def setData (bm : BufferManager UInt8) (frameId : Nat) (data : List UInt8) : BufferManager UInt8 :=
  bm.put frameId { bm.pool frameId with data }

theorem put_put (bm : BufferManager UInt8) (f : Nat) (frame frame' : BufferFrame UInt8) :
    (bm.put f frame).put f frame' = bm.put f frame' := by
  simp only [put, Function.update_idem]

theorem setData_setData (bm : BufferManager UInt8) (f : Nat) (data data' : List UInt8) :
    (bm.setData f data).setData f data' = bm.setData f data' := by
  rw [setData, setData, setData, pool_put_self, put_put]

/-- Changed bytes, and `mark_dirty`. -/
theorem unfixPage_setData (bm : BufferManager UInt8) (f : Nat) (data : List UInt8) :
    (bm.setData f data).unfixPage f true =
      bm.put f { bm.pool f with data, dirty := true } := by
  rw [BufferManager.unfixPage, if_pos rfl, setData, pool_put_self, put_put]

/-- The segment file has the whole page. -/
def OnDisk (bm : BufferManager UInt8) (pageId : UInt64) : Prop :=
  pageId ≠ invalidPageId ∧
    Disk.start bm.pageSize pageId + bm.pageSize ≤ (bm.disk (getSegmentId pageId)).length

instance (bm : BufferManager UInt8) (pageId : UInt64) : Decidable (bm.OnDisk pageId) :=
  inferInstanceAs (Decidable (_ ∧ _))

/-- A page that `fix_page` finds in the pool. -/
theorem fixPage_finds (isMapped : bm.pageTable p = some g)
    (fixed : bm.fixPage t p mode = (bm', .frame f)) :
    f = g ∧ bm'.pool = bm.pool ∧ bm'.disk = bm.disk ∧ bm'.pageSize = bm.pageSize := by
  unfold BufferManager.fixPage at fixed
  rw [isMapped] at fixed
  dsimp only at fixed
  split at fixed
  · rw [track_eq] at fixed
    cases fixed
    exact ⟨rfl, rfl, rfl, rfl⟩
  · cases fixed

/-- Loading a page changes no other frame, and takes none that is in use. -/
theorem Wf.fixPage_others (wf : bm.Wf) (missing : bm.pageTable p = none)
    (fixed : bm.fixPage t p mode = (bm', .frame f)) :
    (∀ q, bm.pageTable q ≠ some f) ∧ ∀ g, g ≠ f → bm'.pool g = bm.pool g := by
  unfold BufferManager.fixPage at fixed
  rw [missing] at fixed
  cases loads : bm.mapPage t p with
  | none =>
    rw [loads] at fixed
    cases fixed
  | some loaded =>
    obtain ⟨mid, g⟩ := loaded
    have maps := wf.mapPage missing loads
    rw [loads] at fixed
    dsimp only at fixed
    split at fixed
    · cases fixed
      refine ⟨maps.unused, fun h different => ?_⟩
      rw [BufferManager.readFrame, pool_put_of_ne different]
      exact maps.others h different
    · cases fixed

/-- A page that is whole on disk is read as it is there. -/
theorem OnDisk.readPage (onDisk : bm.OnDisk p) {block : List UInt8} (length : block.length = bm.pageSize) :
    bm.disk.readPage bm.pageSize p block =
      (List.range bm.pageSize).map (bm.disk.byte bm.pageSize p) := by
  have whole := onDisk.2
  have same : ∀ i, (bm.disk.readPage bm.pageSize p block).getD i 0 = bm.disk.byte bm.pageSize p i :=
    (Disk.readPage_iff_blank length).mpr fun i inside behind => by omega
  rw [← Image.map_getD_range ((Disk.length_readPage block).trans length)]
  exact List.map_congr_left fun i _ => same i

/-- What `fix_page` does to the pages that callers know. -/
theorem Wf.fixPage_shown (wf : bm.Wf) (fixed : bm.fixPage t p mode = (bm', .frame f)) :
    bm'.pageSize = bm.pageSize ∧
      ∀ q, (bm.pageTable q).isSome ∨ bm.OnDisk q →
        ((bm'.pageTable q).isSome ∨ bm'.OnDisk q) ∧ bm'.shown q = bm.shown q := by
  have fixes := wf.fixPage t p mode
  rw [fixed] at fixes
  cases isMapped : bm.pageTable p with
  | some g =>
    obtain ⟨rfl, pool, disk, pageSize⟩ := fixPage_finds isMapped fixed
    refine ⟨pageSize, fun q whole => ?_⟩
    cases found : bm.pageTable q with
    | some h =>
      have found' := fixes.mapped q h found
      refine ⟨Or.inl (Option.isSome_of_eq_some found'), ?_⟩
      rw [BufferManager.shown, BufferManager.shown, found, found', pool]
    | none =>
      have elsewhere : q ≠ p := fun same => by rw [same, isMapped] at found; cases found
      have found' := fixes.missing q elsewhere found
      have onDisk : bm.OnDisk q := whole.resolve_left (by rw [found]; exact Bool.false_ne_true)
      refine ⟨Or.inr ⟨onDisk.1, by rw [disk, pageSize]; exact onDisk.2⟩, ?_⟩
      rw [BufferManager.shown, BufferManager.shown, found, found', disk, pageSize]
  | none =>
    obtain ⟨_, data, disk, pageSize⟩ := wf.fixPage_loads isMapped fixed
    obtain ⟨unused, others⟩ := wf.fixPage_others isMapped fixed
    refine ⟨pageSize, fun q whole => ?_⟩
    cases found : bm.pageTable q with
    | some h =>
      have found' := fixes.mapped q h found
      have different : h ≠ f := fun same => unused q (same ▸ found)
      refine ⟨Or.inl (Option.isSome_of_eq_some found'), ?_⟩
      rw [BufferManager.shown, BufferManager.shown, found, found']
      exact congrArg (·.data) (others h different)
    | none =>
      have onDisk : bm.OnDisk q := whole.resolve_left (by rw [found]; exact Bool.false_ne_true)
      by_cases here : q = p
      · subst here
        have found' := (fixes.frame f rfl).1
        refine ⟨Or.inl (Option.isSome_of_eq_some found'), ?_⟩
        rw [BufferManager.shown, BufferManager.shown, found, found']
        exact data.trans (onDisk.readPage (wf.length f))
      · have found' := fixes.missing q here found
        refine ⟨Or.inr ⟨onDisk.1, by rw [disk, pageSize]; exact onDisk.2⟩, ?_⟩
        rw [BufferManager.shown, BufferManager.shown, found, found', disk, pageSize]

end BufferManager

/-- The buffer manager, with the addresses of the frames. -/
structure HeapSystem where
  bm : BufferManager UInt8
  addresses : List UInt64
  distinct : addresses.Nodup

namespace HeapSystem

/-- A freshly constructed buffer manager, over existing segment files. -/
def new (pageSize pageCount : Nat) (disk : Disk UInt8) (addresses : List UInt64)
    (distinct : addresses.Nodup) : HeapSystem :=
  ⟨.new pageSize pageCount disk, addresses, distinct⟩

instance : PagePool HeapSystem where
  pageSize s := s.bm.pageSize
  addresses s := s.addresses
  getData s frameId := (s.bm.pool frameId).data
  setData s frameId data := { s with bm := s.bm.setData frameId data }
  getData_setData s f data g _ := by
    change ((s.bm.setData f data).pool g).data = if g = f then data else (s.bm.pool g).data
    rcases eq_or_ne g f with rfl | different
    · rw [BufferManager.setData, BufferManager.pool_put_self, if_pos rfl]
    · rw [BufferManager.setData, BufferManager.pool_put_of_ne different, if_neg different]
  setData_setData s f data data' :=
    congrArg (fun bm => { s with bm }) (BufferManager.setData_setData s.bm f data data')
  addresses_setData _ _ _ := rfl
  Wf s := s.bm.Wf
  Home s p f := s.bm.pageTable p = some f
  Whole s p := (s.bm.pageTable p).isSome ∨ s.bm.OnDisk p
  view s := s.bm.shown
  nodup s _ := s.distinct
  single s p f g _ home home' := Option.some.inj (home.symm.trans home')
  shown s p f _ home := by
    refine ⟨Or.inl (Option.isSome_of_eq_some home), ?_⟩
    rw [BufferManager.shown, home]
  sized s _ f wf _ := wf.length f

variable {s s' : HeapSystem} {p q : UInt64} {f : Nat}

/-- `LockMode::EXCLUSIVE` or `LockMode::SHARED`. -/
def modeOf (exclusive : Bool) : LockMode := if exclusive then .exclusive else .shared

/-- `fix_page`. -/
def fixPage (txnId : UInt64) (exclusive : Bool) (s : HeapSystem) (pageId : UInt64) :
    Option (HeapSystem × Nat) :=
  match s.bm.fixPage txnId pageId (modeOf exclusive) with
  | (bm, .frame frameId) => some ({ s with bm }, frameId)
  | _ => none

/-- `mark_dirty`. -/
def markDirty (s : HeapSystem) (frameId : Nat) : HeapSystem :=
  { s with bm := s.bm.unfixPage frameId true }

theorem fixes (txnId : UInt64) (exclusive : Bool) : Fixes (fixPage txnId exclusive) := by
  intro s p s' f wf ran
  unfold fixPage at ran
  split at ran
  case h_2 => cases ran
  rename_i bm frameId fixed
  cases ran
  have fixes := BufferManager.Wf.fixPage wf txnId p (modeOf exclusive)
  obtain ⟨pageSize, shown⟩ := BufferManager.Wf.fixPage_shown wf fixed
  rw [fixed] at fixes
  exact ⟨⟨fixes.wf, rfl, pageSize, shown, fixes.mapped⟩, (fixes.frame f rfl).1⟩

/-- Other bytes in the frame of a page. -/
theorem puts {data : List UInt8} (wf : Wf s) (home : Home s p f) (length : data.length = s.bm.pageSize)
    (dirty : Bool) :
    Puts s p data { s with bm := s.bm.put f { s.bm.pool f with data, dirty } } := by
  have isMapped : s.bm.pageTable p = some f := home
  generalize isFrame : ({ s.bm.pool f with data, dirty } : BufferFrame UInt8) = frame
  have page : frame.pageId = (s.bm.pool f).pageId := by rw [← isFrame]
  have bytes : frame.data = data := by rw [← isFrame]
  refine ⟨BufferManager.Wf.put wf page (bytes ▸ length), rfl, rfl,
    ⟨Or.inl (Option.isSome_of_eq_some home), ?_⟩, fun q different whole => ⟨whole, ?_⟩, fun _ _ => id⟩
  · change (s.bm.put f frame).shown p = data
    rw [BufferManager.shown]
    change (match s.bm.pageTable p with
      | some g => ((s.bm.put f frame).pool g).data
      | none => _) = _
    rw [isMapped, ← bytes]
    exact congrArg (·.data) (BufferManager.pool_put_self s.bm f frame)
  · change (s.bm.put f frame).shown q = s.bm.shown q
    rw [BufferManager.shown, BufferManager.shown]
    change (match s.bm.pageTable q with
      | some g => ((s.bm.put f frame).pool g).data
      | none => _) = _
    cases found : s.bm.pageTable q with
    | none => rfl
    | some g =>
      have elsewhere : g ≠ f := by
        intro same
        exact different (BufferManager.Wf.injective wf (same ▸ found) isMapped)
      change ((s.bm.put f frame).pool g).data = (s.bm.pool g).data
      rw [BufferManager.pool_put_of_ne elsewhere]

/-- The calls in `HeapSegment`, for a transaction. -/
instance : HeapManager HeapSystem where
  Caller := UInt64
  fixPage := fixPage
  allocated s _ := s
  hasRead s _ := s
  written := markDirty
  logChange _ s _ _ := s
  fixes := fixes
  allocated_closes s _ f _ wf home length := puts wf home length (s.bm.pool f).dirty
  hasRead_leaves _ _ _ wf _ := Keeps.refl wf
  written_closes s p f data wf home length := by
    have same := BufferManager.unfixPage_setData s.bm f data
    change Puts s p data { s with bm := (s.bm.setData f data).unfixPage f true }
    rw [same]
    exact puts wf home length true
  logChange_keeps _ _ _ _ wf := Keeps.refl wf

end HeapSystem

end BuzzDB.Locking
