import BuzzDB.Heap.HeapManager
import BuzzDB.Recovery.Frames
import BuzzDB.Recovery.History

/-!
# Heap segments of labs 2 and 4

The functions of `HeapSegment` over the buffer manager and the log manager of these labs.  The
addresses of the frames are those that the allocator has given their data.
-/

namespace BuzzDB.Recovery

open HeapSegment PagePool

namespace BufferManager

/-- Change the bytes of a frame. -/
def setData (bm : BufferManager) (frameId : Nat) (data : List UInt8) : BufferManager :=
  match bm.pool[frameId]? with
  | some frame => { bm with pool := bm.pool.set frameId { frame with data } }
  | none => bm

/-- A page as the next `fix_page` shows it. -/
def shown (bm : BufferManager) (pageId : UInt64) : List UInt8 :=
  (List.range bm.pageSize).map (bm.byte pageId)

variable {bm bm' : BufferManager} {pageId : UInt64} {frame : BufferFrame} {f g : Nat}
  {data : List UInt8}

theorem getData_of_at (at_f : bm.pool[f]? = some frame) : bm.getData f = frame.data := by
  rw [getData, at_f]

theorem setData_of_at (at_f : bm.pool[f]? = some frame) :
    bm.setData f data = { bm with pool := bm.pool.set f { frame with data } } := by
  rw [setData, at_f]

theorem getElem?_setData (at_f : bm.pool[f]? = some frame) (g : Nat) :
    (bm.setData f data).pool[g]? = if g = f then some { frame with data } else bm.pool[g]? := by
  have inside : f < bm.pool.length := (List.getElem?_eq_some_iff.mp at_f).1
  rw [setData_of_at at_f, List.getElem?_set]
  by_cases same : g = f
  · rw [if_pos same.symm, if_pos inside, if_pos same]
  · rw [if_neg (Ne.symm same), if_neg same]

theorem getData_setData (length : data.length = (bm.getData f).length) :
    (bm.setData f data).getData g = if g = f then data else bm.getData g := by
  cases at_f : bm.pool[f]? with
  | some frame =>
    rw [getData, getElem?_setData at_f]
    by_cases same : g = f
    · rw [if_pos same, if_pos same]
    · rw [if_neg same, if_neg same, getData]
  | none =>
    have empty : bm.getData f = [] := by rw [getData, at_f]
    rw [empty] at length
    have unchanged : bm.setData f data = bm := by rw [setData, at_f]
    rw [unchanged, List.eq_nil_of_length_eq_zero length]
    split
    · rename_i same
      rw [same, empty]
    · rfl

theorem setData_setData (data' : List UInt8) :
    (bm.setData f data).setData f data' = bm.setData f data' := by
  cases at_f : bm.pool[f]? with
  | some frame =>
    have there : (bm.setData f data).pool[f]? = some { frame with data } := by
      rw [getElem?_setData at_f, if_pos rfl]
    rw [setData_of_at there, setData_of_at at_f, setData_of_at at_f, List.set_set]
  | none =>
    have unchanged : ∀ data, bm.setData f data = bm := fun data => by rw [setData, at_f]
    rw [unchanged, unchanged]

theorem setData_same (bm : BufferManager) (f : Nat) (data : List UInt8) :
    SameFrames bm (bm.setData f data) := by
  unfold setData
  split
  · rename_i frame at_f
    exact ⟨map_pageId_set at_f rfl, rfl⟩
  · exact ⟨rfl, rfl⟩

/-- Changed bytes, and `unfix_page(frame, true)`. -/
theorem Wf.setData_unfixPage (wf : bm.Wf) (at_f : bm.pool[f]? = some frame)
    (valid : frame.pageId ≠ invalidPageId) (length : data.length = bm.pageSize) :
    ((bm.setData f data).unfixPage f true).Wf ∧
      ((bm.setData f data).unfixPage f true).pageSize = bm.pageSize ∧
      ∀ q i, ((bm.setData f data).unfixPage f true).byte q i =
        if q = frame.pageId then data.getD i 0 else bm.byte q i := by
  have result : (bm.setData f data).unfixPage f true =
      bm.setFrame f ⟨frame.pageId, data, true⟩ bm.pageCounter := by
    have there : (bm.setData f data).pool[f]? = some { frame with data } := by
      rw [getElem?_setData at_f, if_pos rfl]
    rw [BufferManager.unfixPage, there, setData_of_at at_f]
    simp only [List.set_set, Bool.or_true, BufferManager.setFrame]
  have used : f < bm.pageCounter := by
    by_contra late
    exact valid (wf.fresh f frame at_f (Nat.not_lt.mp late))
  have wf' : (bm.setFrame f ⟨frame.pageId, data, true⟩ bm.pageCounter).Wf := by
    refine wf.setFrame at_f valid (fun g other at_g same => ?_) length (fun h => by cases h) used
      (Nat.le_refl _)
    exact wf.unique g f other frame at_g at_f same (same ▸ valid)
  rw [result]
  exact ⟨wf', rfl, fun q i => byte_setFrame wf wf' at_f valid (Or.inl rfl)⟩

end BufferManager

/-- The log manager and the buffer manager, with the addresses of the frames. -/
structure HeapSystem where
  sys : System
  addresses : List UInt64
  distinct : addresses.Nodup

namespace HeapSystem

/-- A freshly constructed system over existing files. -/
def new (pageSize : Nat) (pageSize_lt : pageSize < 2 ^ 64) (pageCount : Nat) (disk : Disk UInt8)
    (logFile : List UInt8) (addresses : List UInt64) (distinct : addresses.Nodup) : HeapSystem :=
  ⟨.new pageSize pageSize_lt pageCount disk logFile, addresses, distinct⟩

/-- Replace the buffer manager. -/
def withBm (s : HeapSystem) (bm : BufferManager) : HeapSystem := { s with sys := { s.sys with bm } }

instance : FramePool HeapSystem where
  pageSize s := s.sys.bm.pageSize
  addresses s := s.addresses
  getData s := s.sys.bm.getData
  setData s frameId data := s.withBm (s.sys.bm.setData frameId data)
  getData_setData s f data _ (length : data.length = (s.sys.bm.getData f).length) :=
    BufferManager.getData_setData length
  setData_setData s _ _ data' := congrArg s.withBm (BufferManager.setData_setData data')
  addresses_setData _ _ _ := rfl

/-- `fix_page`; locks are not taken. -/
def fixPage (s : HeapSystem) (pageId : UInt64) : Option (HeapSystem × Nat) :=
  (s.sys.bm.fixPage pageId).map fun result => (s.withBm result.1, result.2)

/-- `unfix_page`. -/
def unfixPage (isDirty : Bool) (s : HeapSystem) (frameId : Nat) : HeapSystem :=
  s.withBm (s.sys.bm.unfixPage frameId isDirty)

/-- A page is in a frame. -/
def Home (s : HeapSystem) (p : UInt64) (f : Nat) : Prop :=
  p ≠ invalidPageId ∧ ∃ frame, s.sys.bm.pool[f]? = some frame ∧ frame.pageId = p

instance : PagePool HeapSystem where
  Wf s := s.sys.bm.Wf
  Home := Home
  Whole _ _ := True
  view s := s.sys.bm.shown
  nodup s _ := s.distinct
  single s p f g wf home home' := by
    obtain ⟨valid, frame, at_f, isPage⟩ := home
    obtain ⟨_, other, at_g, isPage'⟩ := home'
    exact wf.unique f g frame other at_f at_g (isPage.trans isPage'.symm) (isPage ▸ valid)
  shown s p f wf home := by
    obtain ⟨valid, frame, at_f, rfl⟩ := home
    refine ⟨trivial, ?_⟩
    change (List.range s.sys.bm.pageSize).map (s.sys.bm.byte frame.pageId) = s.sys.bm.getData f
    rw [BufferManager.getData_of_at at_f,
      ← Image.map_getD_range (wf.length frame (List.mem_of_getElem? at_f))]
    exact List.map_congr_left fun i _ => wf.byte_eq at_f valid
  sized s p f wf home := by
    obtain ⟨_, frame, at_f, _⟩ := home
    change (s.sys.bm.getData f).length = s.sys.bm.pageSize
    rw [BufferManager.getData_of_at at_f]
    exact wf.length frame (List.mem_of_getElem? at_f)

/-- Buffer managers with the same bytes in the same pages. -/
theorem keeps_of_byte {s : HeapSystem} {bm' : BufferManager} (wf' : bm'.Wf)
    (pageSize : bm'.pageSize = s.sys.bm.pageSize) (byte : ∀ q i, bm'.byte q i = s.sys.bm.byte q i)
    (home : ∀ q f, PagePool.Home s q f → PagePool.Home (s.withBm bm') q f) : Keeps s (s.withBm bm') where
  wf := wf'
  addresses := rfl
  pageSize := pageSize
  view q _ := by
    refine ⟨trivial, ?_⟩
    change (List.range bm'.pageSize).map (bm'.byte q) =
      (List.range s.sys.bm.pageSize).map (s.sys.bm.byte q)
    rw [pageSize]
    exact List.map_congr_left fun i _ => byte q i
  home := home

theorem fixes : Fixes fixPage := by
  intro s p s' f wf ran
  obtain ⟨⟨bm', f'⟩, fixed, same⟩ := Option.map_eq_some_iff.mp ran
  cases same
  have guarantees := wf.fixPage fixed
  obtain ⟨frame, at_f, isPage⟩ := guarantees.frame
  refine ⟨keeps_of_byte guarantees.wf guarantees.pageSize guarantees.byte fun q g home => ?_,
    guarantees.valid, frame, at_f, isPage⟩
  obtain ⟨valid, other, at_g, isOther⟩ := home
  exact ⟨valid, other, wf.getElem?_fixPage fixed at_g (isOther ▸ valid), isOther⟩

/-- `unfix_page` leaves the pages in their frames. -/
theorem home_unfixPage {s : HeapSystem} {q : UInt64} {f g : Nat} (isDirty : Bool)
    (home : PagePool.Home s q g) : PagePool.Home (s.unfixPage isDirty f) q g := by
  obtain ⟨valid, other, at_g, isOther⟩ := home
  obtain ⟨frame', at_g', same⟩ :=
    (BufferManager.unfixPage_same s.sys.bm f isDirty).getElem? at_g
  exact ⟨valid, frame', at_g', same.trans isOther⟩

theorem leaves (isDirty : Bool) : Leaves (unfixPage isDirty) := by
  intro s p f wf home
  obtain ⟨valid, frame, at_f, rfl⟩ := home
  obtain ⟨wf', byte⟩ := wf.unfixPage at_f valid isDirty
  refine keeps_of_byte wf' ?_ byte fun q g home => home_unfixPage isDirty home
  rw [BufferManager.unfixPage, at_f]

theorem closes : Closes (unfixPage true) := by
  intro s p f data wf home length
  obtain ⟨valid, frame, at_f, rfl⟩ := home
  obtain ⟨wf', pageSize, byte⟩ := wf.setData_unfixPage at_f valid length
  refine ⟨wf', rfl, pageSize, ⟨trivial, ?_⟩, fun q different _ => ⟨trivial, ?_⟩,
    fun q g home => ?_⟩
  · refine Eq.trans ?_ (Image.map_getD_range length)
    change (List.range ((s.sys.bm.setData f data).unfixPage f true).pageSize).map _ =
      (List.range s.sys.bm.pageSize).map _
    rw [pageSize]
    exact List.map_congr_left fun i _ => (byte _ i).trans (if_pos rfl)
  · change (List.range ((s.sys.bm.setData f data).unfixPage f true).pageSize).map _ =
      (List.range s.sys.bm.pageSize).map _
    rw [pageSize]
    exact List.map_congr_left fun i _ => (byte q i).trans (if_neg different)
  · obtain ⟨valid, other, at_g, isOther⟩ := home
    obtain ⟨frame', at_g', same⟩ := ((BufferManager.setData_same s.sys.bm f data).trans
      (BufferManager.unfixPage_same _ f true)).getElem? at_g
    exact ⟨valid, frame', at_g', same.trans isOther⟩

/-- `log_update` of a change. -/
def logChange (txnId : UInt64) (s : HeapSystem) (record : List UInt8) (change : Change) : HeapSystem :=
  let lm := s.sys.lm.logUpdate txnId change.pageId (UInt64.ofNat record.length)
    change.offset.toUInt64 change.beforeRecord record
  { s with sys := { s.sys with lm } }

/-- The calls in `HeapSegment`, on behalf of the transaction that a `write` is logged for. -/
instance : HeapManager HeapSystem where
  Caller := UInt64
  fixPage _ _ := fixPage
  allocated := unfixPage true
  hasRead := unfixPage false
  written := unfixPage true
  logChange := logChange
  fixes _ _ := fixes
  allocated_closes := closes
  hasRead_leaves := leaves false
  written_closes := closes
  logChange_keeps _ _ _ _ wf := ⟨wf, rfl, rfl, fun _ whole => ⟨whole, rfl⟩, fun _ _ => id⟩

end HeapSystem

end BuzzDB.Recovery
