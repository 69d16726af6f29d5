import BuzzDB.Lib.Cache
import BuzzDB.Recovery.Frames

/-!
# The buffer pool is a transparent cache

Clients of the buffer manager of labs 2 and 4: they fix pages, change and unfix the frames
they were given, and flush and discard.  The pool does with the bytes of the pages what a
write-back cache does, as long as it does not run out of frames.

A client has a frame from `fix_page` until its page is discarded; behind that the reference
is dangling.
-/

namespace BuzzDB

/-- The bytes of a page in its segment file, zero where nothing was written. -/
def Disk.page {α : Type*} [Zero α] (disk : Disk α) (pageSize : Nat) (pageId : UInt64) : List α :=
  (List.range pageSize).map (disk.byte pageSize pageId)

namespace Recovery.PoolClients

/-- A frame that `fix_page` has returned. -/
structure Handle where
  pageId : UInt64
  frameId : Nat
  deriving DecidableEq

/-- The buffer manager, and the frames of its clients. -/
structure State where
  bm : BufferManager
  handles : List Handle

/-- What clients do; `modify` is a change of a frame and its `unfix_page(frame, true)`. -/
inductive Action
  | fixPage (pageId : UInt64)
  | modify (handle : Handle) (offset : Nat) (src : List UInt8)
  | unfixPage (handle : Handle) (isDirty : Bool)
  | flushPage (pageId : UInt64)
  | flushAllPages
  | discardPage (pageId : UInt64)
  | discardAllPages

namespace State

/-- No frames, over existing segment files. -/
def new (pageSize : Nat) (pageSize_lt : pageSize < 2 ^ 64) (pageCount : Nat) (disk : Disk UInt8) :
    State :=
  ⟨BufferManager.new pageSize pageSize_lt pageCount disk, []⟩

variable (s : State)

/-- One action; `none` is the exit of `fix_page`. -/
def step : Action → Option State
  | .fixPage pageId =>
    (s.bm.fixPage pageId).map fun result => ⟨result.1, ⟨pageId, result.2⟩ :: s.handles⟩
  | .modify handle offset src =>
    some { s with bm := (s.bm.memcpy handle.frameId offset src).unfixPage handle.frameId true }
  | .unfixPage handle isDirty => some { s with bm := s.bm.unfixPage handle.frameId isDirty }
  | .flushPage pageId => some { s with bm := s.bm.flushPage pageId }
  | .flushAllPages => some { s with bm := s.bm.flushAllPages }
  | .discardPage pageId =>
    some ⟨s.bm.discardPage pageId, s.handles.filter fun handle => handle.pageId ≠ pageId⟩
  | .discardAllPages => some ⟨s.bm.discardAllPages, []⟩

/-- What clients may do: fix valid pages, and change the frames they have within the page. -/
def Legal : Action → Prop
  | .fixPage pageId => pageId ≠ invalidPageId
  | .modify handle offset src => handle ∈ s.handles ∧ offset + src.length ≤ s.bm.pageSize
  | .unfixPage handle _ => handle ∈ s.handles
  | _ => True

instance : DecidablePred s.Legal
  | .fixPage _ => inferInstanceAs (Decidable (_ ≠ _))
  | .modify _ _ _ => inferInstanceAs (Decidable (_ ∧ _))
  | .unfixPage _ _ => inferInstanceAs (Decidable (_ ∈ _))
  | .flushPage _ | .flushAllPages | .discardPage _ | .discardAllPages => isTrue trivial

end State

/-- What an action is to the cache. -/
def Action.ops : Action → List (Cache.Op UInt64 (List UInt8))
  | .fixPage pageId => [.fix pageId]
  | .modify handle offset src => [.modify handle.pageId fun data => Image.overwrite data offset src]
  | .unfixPage _ _ => []
  | .flushPage pageId => [.flush fun q => q == pageId]
  | .flushAllPages => [.flush fun _ => true]
  | .discardPage pageId => [.discard fun q => q == pageId]
  | .discardAllPages => [.discard fun _ => true]

/-- The cache behind some actions, over existing segment files. -/
def cacheOf (pageSize : Nat) (disk : Disk UInt8) (actions : List Action) :
    Cache UInt64 (List UInt8) :=
  (actions.flatMap Action.ops).foldl Cache.step (Cache.new (disk.page pageSize))

/-- The buffer manager has the resident and the durable pages of the cache, each resident page in one
frame, and `fix_page` returns what a reader of the cache sees. -/
structure Refines (bm : BufferManager) (c : Cache UInt64 (List UInt8)) : Prop where
  single : ∀ (f g : Nat) (frame other : BufferFrame), bm.pool[f]? = some frame →
    bm.pool[g]? = some other → frame.pageId = other.pageId → frame.pageId ≠ invalidPageId → f = g
  resident : ∀ pageId contents, pageId ≠ invalidPageId →
    ((∃ modified, c.resident pageId = some ⟨contents, modified⟩) ↔
      ∃ frame ∈ bm.pool, frame.pageId = pageId ∧ frame.data = contents)
  durable : ∀ pageId, bm.disk.page bm.pageSize pageId = c.durable pageId
  returns : ∀ pageId bm' f, bm.fixPage pageId = some (bm', f) → bm'.getData f = c.view pageId

/-- The buffer manager as its callers see it is the cache, and the clients' frames have their
pages. -/
structure Simulates (pageSize pageCount : Nat) (s : State) (c : Cache UInt64 (List UInt8)) :
    Prop where
  wf : s.bm.Wf
  size : s.bm.pageSize = pageSize
  capacity : s.bm.pool.length = pageCount
  counter : s.bm.pageCounter = c.loads
  coherent : c.Coherent
  resident : ∀ q, q ≠ invalidPageId → ((c.resident q).isSome ↔ s.bm.HasFrame q)
  view : ∀ q, (List.range pageSize).map (s.bm.byte q) = c.view q
  durable : ∀ q, s.bm.disk.page pageSize q = c.durable q
  handles : ∀ handle ∈ s.handles, handle.pageId ≠ invalidPageId ∧
    ∃ frame, s.bm.pool[handle.frameId]? = some frame ∧ frame.pageId = handle.pageId

variable {pageSize pageCount : Nat} {s s' : State} {c : Cache UInt64 (List UInt8)} {action : Action}
  {disk : Disk UInt8} {bm bm' : BufferManager} {pageId q : UInt64} {f : Nat}

/-! ## The operations -/

theorem Simulates.new (pageSize_lt : pageSize < 2 ^ 64) (disk : Disk UInt8) :
    Simulates pageSize pageCount (.new pageSize pageSize_lt pageCount disk)
      (Cache.new (disk.page pageSize)) where
  wf := .new pageSize pageSize_lt pageCount disk
  size := rfl
  capacity := List.length_replicate
  counter := rfl
  coherent := .new _
  resident q valid := by
    apply iff_of_false Bool.false_ne_true
    rintro ⟨frame, member, isQ⟩
    rw [List.eq_of_mem_replicate member] at isQ
    exact valid isQ.symm
  view q := List.map_congr_left fun i _ => BufferManager.byte_new pageSize pageSize_lt pageCount disk q i
  durable _ := rfl
  handles _ absent := (List.not_mem_nil absent).elim

/-- The pages of the files, where the durable bytes are those of the cache. -/
theorem page_eq {durable : List UInt8} (size : bm'.pageSize = pageSize)
    (bytes : ∀ i, bm'.durable q i = bm.byte q i)
    (view : (List.range pageSize).map (bm.byte q) = durable) :
    bm'.disk.page pageSize q = durable := by
  rw [← view]
  apply List.map_congr_left
  intro i _
  rw [← bytes, BufferManager.durable, size]

theorem Simulates.fixPage (sim : Simulates pageSize pageCount s c)
    (fixed : s.bm.fixPage pageId = some (bm', f)) :
    Simulates pageSize pageCount ⟨bm', ⟨pageId, f⟩ :: s.handles⟩ (c.fix pageId) := by
  have spec := sim.wf.fixPage fixed
  have touches := sim.wf.fixPage_touches fixed
  refine ⟨spec.wf, spec.pageSize.trans sim.size, touches.capacity.trans sim.capacity, ?_,
    sim.coherent.fix pageId, fun q valid => ?_, fun q => ?_, fun q => ?_, fun handle member => ?_⟩
  · rw [touches.counter, BufferManager.missing_singleton, Cache.loads_fix, sim.counter]
    have found := sim.resident pageId spec.valid
    by_cases has : s.bm.HasFrame pageId
    · rw [if_pos has, if_pos (found.mpr has)]
      rfl
    · rw [if_neg has, if_neg fun resident => has (found.mp resident)]
      rfl
  · rw [Cache.isSome_fix, touches.hasFrame q valid, sim.resident q valid, List.mem_singleton]
  · rw [Cache.view_fix, ← sim.view q]
    exact List.map_congr_left fun i _ => spec.byte q i
  · rw [Cache.durable_fix, ← sim.durable q, spec.disk]
  · rcases List.mem_cons.mp member with rfl | old
    · exact ⟨spec.valid, spec.frame⟩
    · obtain ⟨valid, frame, at_g, isPage⟩ := sim.handles handle old
      have kept := sim.wf.getElem?_fixPage fixed at_g (isPage ▸ valid)
      exact ⟨valid, frame, kept, isPage⟩

/-- Handles stay where no page changes its frame. -/
theorem Simulates.handles_same (sim : Simulates pageSize pageCount s c)
    (same : BufferManager.SameFrames s.bm bm') (handle : Handle) (member : handle ∈ s.handles) :
    handle.pageId ≠ invalidPageId ∧
      ∃ frame, bm'.pool[handle.frameId]? = some frame ∧ frame.pageId = handle.pageId := by
  obtain ⟨valid, frame, at_f, isPage⟩ := sim.handles handle member
  obtain ⟨frame', at_f', samePage⟩ := same.getElem? at_f
  exact ⟨valid, frame', at_f', samePage.trans isPage⟩

theorem Simulates.hasFrame_same (sim : Simulates pageSize pageCount s c)
    (same : BufferManager.SameFrames s.bm bm') (valid : q ≠ invalidPageId) :
    (c.resident q).isSome ↔ bm'.HasFrame q := by
  rw [sim.resident q valid, BufferManager.hasFrame_iff, BufferManager.hasFrame_iff, same.pages]

theorem Simulates.capacity_same (sim : Simulates pageSize pageCount s c)
    (same : BufferManager.SameFrames s.bm bm') : bm'.pool.length = pageCount := by
  have lengths := congrArg List.length same.pages
  rw [List.length_map, List.length_map] at lengths
  exact lengths.trans sim.capacity

theorem Simulates.modify (sim : Simulates pageSize pageCount s c) {handle : Handle}
    (member : handle ∈ s.handles) (offset : Nat) (src : List UInt8) :
    Simulates pageSize pageCount
      { s with bm := (s.bm.memcpy handle.frameId offset src).unfixPage handle.frameId true }
      (c.modify handle.pageId fun data => Image.overwrite data offset src) := by
  obtain ⟨valid, frame, at_f, isPage⟩ := sim.handles handle member
  have used : handle.frameId < s.bm.pageCounter := by
    by_contra late
    exact valid (isPage ▸ sim.wf.fresh _ _ at_f (Nat.not_lt.mp late))
  have written := sim.wf.memcpy_unfixPage offset src at_f (isPage ▸ valid) used
  have same := (BufferManager.memcpy_same s.bm handle.frameId offset src).trans
    (BufferManager.unfixPage_same _ handle.frameId true)
  have has : s.bm.HasFrame handle.pageId := ⟨frame, List.mem_of_getElem? at_f, isPage⟩
  obtain ⟨entry, found⟩ := Option.isSome_iff_exists.mp ((sim.resident _ valid).mpr has)
  refine ⟨written.wf, written.pageSize.trans sim.size, sim.capacity_same same,
    same.counter.trans sim.counter, sim.coherent.modify _ _, fun q isValid => ?_, fun q => ?_,
    fun q => ?_, sim.handles_same same⟩
  · rw [Cache.isSome_modify]
    exact sim.hasFrame_same same isValid
  · rw [Cache.view_modify found, ← sim.view, ← sim.view q]
    have length : ((List.range pageSize).map (s.bm.byte handle.pageId)).length = pageSize := by
      rw [List.length_map, List.length_range]
    split
    · rename_i isHandle
      subst isHandle
      have overwritten := Image.map_getD_range ((Image.length_overwrite _ offset src).trans length)
      rw [← overwritten]
      apply List.map_congr_left
      intro i inside
      have old : ((List.range pageSize).map (s.bm.byte handle.pageId)).getD i 0 =
          s.bm.byte handle.pageId i := by
        rw [List.getD_eq_getElem _ _ (by rw [length]; exact List.mem_range.mp inside),
          List.getElem_map, List.getElem_range]
      rw [written.byte, Image.getD_overwrite, old, length, sim.size, isPage]
      simp only [true_and]
    · rename_i different
      apply List.map_congr_left
      intro i _
      rw [written.byte, if_neg fun h => different (h.1.trans isPage)]
  · exact (congrArg (Disk.page · pageSize q) written.disk).trans (sim.durable q)

theorem Simulates.unfixPage (sim : Simulates pageSize pageCount s c) {handle : Handle}
    (member : handle ∈ s.handles) (isDirty : Bool) :
    Simulates pageSize pageCount { s with bm := s.bm.unfixPage handle.frameId isDirty } c := by
  obtain ⟨valid, frame, at_f, isPage⟩ := sim.handles handle member
  obtain ⟨wf, bytes⟩ := sim.wf.unfixPage at_f (isPage ▸ valid) isDirty
  have same := BufferManager.unfixPage_same s.bm handle.frameId isDirty
  have rest : (s.bm.unfixPage handle.frameId isDirty).pageSize = s.bm.pageSize ∧
      (s.bm.unfixPage handle.frameId isDirty).disk = s.bm.disk := by
    rw [BufferManager.unfixPage, at_f]
    exact ⟨rfl, rfl⟩
  refine ⟨wf, rest.1.trans sim.size, sim.capacity_same same, same.counter.trans sim.counter,
    sim.coherent, fun q isValid => sim.hasFrame_same same isValid, fun q => ?_, fun q => ?_,
    sim.handles_same same⟩
  · rw [← sim.view q]
    exact List.map_congr_left fun i _ => bytes q i
  · rw [rest.2]
    exact sim.durable q

theorem Simulates.flush (sim : Simulates pageSize pageCount s c) {covers : UInt64 → Bool}
    (flushed : BufferManager.Flushed s.bm covers bm') (pool : bm'.pool = s.bm.pool)
    (counter : bm'.pageCounter = s.bm.pageCounter) :
    Simulates pageSize pageCount { s with bm := bm' } (c.flush covers) := by
  have same : BufferManager.SameFrames s.bm bm' := ⟨congrArg _ pool, counter⟩
  have size := flushed.pageSize.trans sim.size
  refine ⟨flushed.wf, size, sim.capacity_same same, counter.trans sim.counter,
    sim.coherent.flush covers, fun q valid => ?_, fun q => ?_, fun q => ?_, sim.handles_same same⟩
  · rw [Cache.isSome_flush]
    exact sim.hasFrame_same same valid
  · rw [Cache.view_flush, ← sim.view q]
    exact List.map_congr_left fun i _ => flushed.byte q i
  · rw [Cache.durable_flush sim.coherent]
    split
    · rename_i covered
      apply page_eq size _ (sim.view q)
      intro i
      rw [flushed.durable, if_pos covered]
    · rename_i uncovered
      rw [← sim.durable q]
      apply List.map_congr_left
      intro i _
      have onDisk := flushed.durable q i
      rw [if_neg uncovered, BufferManager.durable, BufferManager.durable, size, sim.size] at onDisk
      exact onDisk

theorem Simulates.discard (sim : Simulates pageSize pageCount s c) {covers : UInt64 → Bool}
    {handles : List Handle} (discarded : BufferManager.Discarded s.bm covers bm')
    (capacity : bm'.pool.length = s.bm.pool.length) (counter : bm'.pageCounter = s.bm.pageCounter)
    (hasFrame : ∀ q, q ≠ invalidPageId → (bm'.HasFrame q ↔ s.bm.HasFrame q ∧ ¬ covers q = true))
    (handlesAt : ∀ handle ∈ handles, handle.pageId ≠ invalidPageId ∧
      ∃ frame, bm'.pool[handle.frameId]? = some frame ∧ frame.pageId = handle.pageId) :
    Simulates pageSize pageCount ⟨bm', handles⟩ (c.discard covers) := by
  refine ⟨discarded.wf, discarded.pageSize.trans sim.size, capacity.trans sim.capacity,
    counter.trans sim.counter, sim.coherent.discard covers, fun q valid => ?_, fun q => ?_,
    fun q => ?_, handlesAt⟩
  · rw [Cache.isSome_discard, hasFrame q valid, sim.resident q valid]
  · rw [Cache.view_discard, ← sim.durable q, ← sim.view q]
    split
    · rename_i covered
      apply List.map_congr_left
      intro i _
      rw [discarded.byte, if_pos covered, BufferManager.durable, sim.size]
    · rename_i uncovered
      apply List.map_congr_left
      intro i _
      rw [discarded.byte, if_neg uncovered]
  · exact (congrArg (Disk.page · pageSize q) discarded.disk).trans (sim.durable q)

/-! ## Runs -/

theorem Simulates.step (sim : Simulates pageSize pageCount s c) (legal : s.Legal action)
    (stepped : s.step action = some s') :
    Simulates pageSize pageCount s' (action.ops.foldl Cache.step c) := by
  cases action with
  | fixPage pageId =>
    obtain ⟨⟨bm', f⟩, fixed, rfl⟩ := Option.map_eq_some_iff.mp stepped
    exact sim.fixPage fixed
  | modify handle offset src =>
    cases stepped
    exact sim.modify legal.1 offset src
  | unfixPage handle isDirty =>
    cases stepped
    exact sim.unfixPage legal isDirty
  | flushPage pageId =>
    cases stepped
    have rest : (s.bm.flushPage pageId).pool = s.bm.pool ∧
        (s.bm.flushPage pageId).pageCounter = s.bm.pageCounter := by
      unfold BufferManager.flushPage
      split
      · split <;> exact ⟨rfl, rfl⟩
      · exact ⟨rfl, rfl⟩
    exact sim.flush (sim.wf.flushPage pageId) rest.1 rest.2
  | flushAllPages =>
    cases stepped
    exact sim.flush sim.wf.flushAllPages rfl rfl
  | discardPage pageId =>
    cases stepped
    obtain ⟨counter, capacity⟩ := s.bm.discardPage_counters pageId
    refine sim.discard (sim.wf.discardPage pageId) capacity counter (fun q valid => ?_)
      fun handle member => ?_
    · rw [sim.wf.hasFrame_discardPage valid, beq_iff_eq]
    · obtain ⟨old, kept⟩ := List.mem_filter.mp member
      obtain ⟨valid, frame, at_f, isPage⟩ := sim.handles handle old
      have different : frame.pageId ≠ pageId := isPage ▸ of_decide_eq_true kept
      exact ⟨valid, frame, BufferManager.getElem?_discardPage at_f different, isPage⟩
  | discardAllPages =>
    cases stepped
    refine sim.discard (BufferManager.discarded_all s.bm) (List.length_map _) rfl (fun q valid => ?_)
      fun handle absent => (List.not_mem_nil absent).elim
    apply iff_of_false
    · rintro ⟨frame, member, isQ⟩
      obtain ⟨_, _, rfl⟩ := List.mem_map.mp member
      exact valid isQ.symm
    · exact fun h => h.2 rfl

/-- A step gets through while there are frames for what it loads. -/
theorem Simulates.step_isSome (sim : Simulates pageSize pageCount s c) (legal : s.Legal action)
    (few : (action.ops.foldl Cache.step c).loads < pageCount) : (s.step action).isSome := by
  cases action with
  | fixPage pageId =>
    rw [State.step, Option.isSome_map, BufferManager.fixPage_isSome]
    refine ⟨fun invalid => legal (List.mem_singleton.mp invalid).symm, ?_⟩
    rw [BufferManager.missing_singleton, sim.counter, sim.capacity]
    split
    · exact Or.inl rfl
    · rename_i missing
      change (c.fix pageId).loads < pageCount at few
      rw [Cache.loads_fix, if_neg fun found => missing ((sim.resident pageId legal).mp found)] at few
      exact Or.inr few
  | modify | unfixPage | flushPage | flushAllPages | discardPage | discardAllPages => rfl

theorem Simulates.of_run {actions : List Action} (sim : Simulates pageSize pageCount s c)
    (legal : Machine.Along State.step State.Legal s actions)
    (ran : Machine.run State.step s actions = some s') :
    Simulates pageSize pageCount s' ((actions.flatMap Action.ops).foldl Cache.step c) := by
  induction actions generalizing s c with
  | nil =>
    cases ran
    exact sim
  | cons action actions ih =>
    obtain ⟨mid, stepped, rest⟩ := Machine.run_cons ran
    rw [List.flatMap_cons, List.foldl_append]
    exact ih (sim.step legal.1 stepped) (legal.2 mid stepped) rest

theorem Simulates.run_isSome {actions : List Action} (sim : Simulates pageSize pageCount s c)
    (legal : Machine.Along State.step State.Legal s actions)
    (few : ((actions.flatMap Action.ops).foldl Cache.step c).loads < pageCount) :
    (Machine.run State.step s actions).isSome := by
  induction actions generalizing s c with
  | nil => rfl
  | cons action actions ih =>
    rw [List.flatMap_cons, List.foldl_append] at few
    have first := Nat.lt_of_le_of_lt (Cache.loads_foldl _ _) few
    obtain ⟨mid, stepped⟩ := Option.isSome_iff_exists.mp (sim.step_isSome legal.1 first)
    rw [Machine.run, List.foldlM_cons, stepped]
    exact ih (sim.step legal.1 stepped) (legal.2 mid stepped) few

/-! ## What callers see -/

/-- A resident page has in its frame what readers of the cache see. -/
theorem Simulates.data_eq (sim : Simulates pageSize pageCount s c) {frame : BufferFrame}
    (at_f : s.bm.pool[f]? = some frame) (valid : frame.pageId ≠ invalidPageId) :
    frame.data = c.view frame.pageId := by
  have length := sim.wf.length frame (List.mem_of_getElem? at_f)
  rw [← sim.view, ← Image.map_getD_range (length.trans sim.size)]
  apply List.map_congr_left
  intro i _
  exact (sim.wf.byte_eq at_f valid).symm

theorem Simulates.refines (sim : Simulates pageSize pageCount s c) : Refines s.bm c where
  single := sim.wf.unique
  resident pageId contents valid := by
    constructor
    · rintro ⟨modified, found⟩
      have has := (sim.resident pageId valid).mp (Option.isSome_of_eq_some found)
      obtain ⟨frame, member, rfl⟩ := has
      obtain ⟨f, at_f⟩ := List.getElem?_of_mem member
      exact ⟨frame, member, rfl, (sim.data_eq at_f valid).trans (Cache.view_of_resident found)⟩
    · rintro ⟨frame, member, rfl, rfl⟩
      obtain ⟨f, at_f⟩ := List.getElem?_of_mem member
      have found := (sim.resident frame.pageId valid).mpr ⟨frame, member, rfl⟩
      obtain ⟨⟨contents, modified⟩, found⟩ := Option.isSome_iff_exists.mp found
      refine ⟨modified, ?_⟩
      rw [found, sim.data_eq at_f valid, Cache.view_of_resident found]
  durable q := by
    rw [sim.size]
    exact sim.durable q
  returns pageId bm' f fixed := by
    have sim' := sim.fixPage fixed
    obtain ⟨valid, frame, at_f, isPage⟩ := sim'.handles ⟨pageId, f⟩ List.mem_cons_self
    have data := sim'.data_eq at_f (isPage ▸ valid)
    rw [isPage, Cache.view_fix] at data
    have at_f : bm'.pool[f]? = some frame := at_f
    rw [BufferManager.getData, at_f, ← data]

/-- Clients that load fewer pages than there are frames work on a transparent cache: `fix_page`
never exits, and the buffer manager has the resident and the durable pages of the cache. -/
theorem refines_cache (pageSize_le : pageSize ≤ 65536) (pageCount : Nat) (disk : Disk UInt8)
    (actions : List Action)
    (legal : Machine.Along State.step State.Legal
      (.new pageSize (Nat.lt_of_le_of_lt pageSize_le (by decide)) pageCount disk) actions)
    (few : (cacheOf pageSize disk actions).loads < pageCount) :
    ∃ s, Machine.run State.step
        (.new pageSize (Nat.lt_of_le_of_lt pageSize_le (by decide)) pageCount disk) actions = some s ∧
      Refines s.bm (cacheOf pageSize disk actions) := by
  have start : Simulates pageSize pageCount
      (.new pageSize (Nat.lt_of_le_of_lt pageSize_le (by decide)) pageCount disk) _ := .new _ disk
  obtain ⟨s, ran⟩ := Option.isSome_iff_exists.mp (start.run_isSome legal few)
  exact ⟨s, ran, (start.of_run legal ran).refines⟩

/-- Page 1 of segment 0 and page 1 of segment 1: one is changed and flushed, then both are dropped and
loaded again. -/
def reloads : List Action :=
  [.fixPage 1, .modify ⟨1, 0⟩ 2 [7, 8], .fixPage 0x1000000000001, .modify ⟨0x1000000000001, 1⟩ 0 [9],
    .flushPage 1, .discardAllPages, .fixPage 1, .fixPage 0x1000000000001]

theorem refines_cache_reloads :
    (Machine.run State.step (.new 4 (by decide) 5 fun _ => []) reloads).map (fun s =>
      s.bm.pool.map BufferFrame.data) =
        some [[0, 0, 0, 0], [0, 0, 0, 0], [0, 0, 7, 8], [0, 0, 0, 0], [0, 0, 0, 0]] ∧
      ∃ s, Machine.run State.step (.new 4 (by decide) 5 fun _ => []) reloads = some s ∧
        Refines s.bm (cacheOf 4 (fun _ => []) reloads) :=
  ⟨by decide +kernel, refines_cache (by decide) 5 (fun _ => []) reloads (by decide +kernel)
    (by decide +kernel)⟩

end Recovery.PoolClients

end BuzzDB
