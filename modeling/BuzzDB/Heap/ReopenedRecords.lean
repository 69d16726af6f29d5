import BuzzDB.Heap.RecordIsolation
import BuzzDB.Heap.Reopening

/-!
# Records of reopened segments

A segment is filled, its pages are flushed and the buffers discarded, and a new `HeapSegment` with the
same id goes on.  Its records survive writes.  They do not survive an `allocate`: how many
pages a segment has is known to the earlier `HeapSegment` only.
-/

namespace BuzzDB

open PagePool

/-! ## Pages with changed bytes -/

/-- A page whose bytes have been changed is still found. -/
theorem Recovery.BufferManager.Wf.refixPage {bm bm' : BufferManager} {frame : BufferFrame} {f f' : Nat}
    {data : List UInt8} (wf : bm.Wf) (at_f : bm.pool[f]? = some frame)
    (valid : frame.pageId ≠ invalidPageId)
    (fixed : (bm.setData f data).fixPage frame.pageId = some (bm', f')) :
    bm' = bm.setData f data ∧ f' = f := by
  have there : (bm.setData f data).pool[f]? = some { frame with data } := by
    rw [getElem?_setData at_f, if_pos rfl]
  rw [BufferManager.fixPage, if_neg valid] at fixed
  cases found : (bm.setData f data).getFrameIdOfPage frame.pageId with
  | none => exact (getFrameIdOfPage_none found _ (List.mem_of_getElem? there) rfl).elim
  | some g =>
    rw [found] at fixed
    cases fixed
    obtain ⟨other, at_g, isPage⟩ := getFrameIdOfPage_spec found
    rw [getElem?_setData at_f] at at_g
    refine ⟨rfl, ?_⟩
    by_contra different
    rw [if_neg different] at at_g
    exact different (wf.unique f' f other frame at_g at_f isPage (isPage ▸ valid))

instance : HeapReader Recovery.HeapSystem where
  refixes _ _ s p f data s' f' wf home length fixed := by
    have sized := sized s p f wf home
    have own := FramePool.getData_setData_self (length.trans sized.symm)
    obtain ⟨valid, frame, at_f, rfl⟩ := home
    obtain ⟨⟨bm', g⟩, found, same⟩ := Option.map_eq_some_iff.mp fixed
    cases same
    obtain ⟨rfl, rfl⟩ := Recovery.BufferManager.Wf.refixPage wf at_f valid found
    exact ⟨rfl, own, rfl⟩

instance : HeapReader Locking.HeapSystem where
  refixes caller exclusive s p f data s' f' wf home length fixed := by
    have puts := HeapManager.allocated_closes s p f data wf home length
    obtain ⟨keeps, home'⟩ := HeapManager.fixes caller exclusive _ p s' f' puts.wf fixed
    have home'' := keeps.home p f (puts.home p f home)
    obtain ⟨_, same⟩ := keeps.view p puts.self.1
    refine ⟨single s' p f' f keeps.wf home' home'', ?_, keeps.addresses.trans puts.addresses⟩
    rw [← (shown s' p f keeps.wf home'').2, same, puts.self.2]

namespace HeapState

/-! ## Labs 2 and 4 -/

/-- A new segment, over the pages that an earlier one has flushed. -/
def reopenRecovery (s : HeapState Recovery.HeapSystem) (addresses : List UInt64)
    (distinct : addresses.Nodup) : HeapState Recovery.HeapSystem :=
  .new s.segment.segmentId
    { sys := { s.pool.sys with bm := s.pool.sys.bm.flushAllPages.discardAllPages }
      addresses
      distinct }

theorem reopenRecovery_views {s : HeapState Recovery.HeapSystem} (wf : Wf s.pool) (addresses : List UInt64)
    (distinct : addresses.Nodup) : Wf (s.reopenRecovery addresses distinct).pool ∧
      ∀ p, view (s.reopenRecovery addresses distinct).pool p = view s.pool p := by
  have flushed := Recovery.BufferManager.Wf.flushAllPages wf
  have discarded := Recovery.BufferManager.discarded_all s.pool.sys.bm.flushAllPages
  refine ⟨discarded.wf, fun p => ?_⟩
  apply List.map_congr_left
  intro i _
  exact (discarded.byte p i).trans (flushed.durable p i)

/-! ## Lab 3 -/

/-- The buffer manager behind the ends of some transactions and `flush_all_pages`. -/
def flushedLocking (s : HeapState Locking.HeapSystem) (txns : List UInt64) :
    Locking.BufferManager UInt8 :=
  (txns.foldl Locking.BufferManager.transactionComplete s.pool.bm).flushAllPages

/-- The pages of the segment have been flushed: `allocate` does not mark a page as dirty, so that only
those that have been written to are. -/
def FlushedLocking (s : HeapState Locking.HeapSystem) (txns : List UInt64) : Prop :=
  ∀ p ∈ s.segment.pages, (s.flushedLocking txns).OnDisk p ∧
    (s.flushedLocking txns).discardAllPages.shown p = s.pool.bm.shown p

instance (s : HeapState Locking.HeapSystem) (txns : List UInt64) : Decidable (s.FlushedLocking txns) :=
  List.decidableBAll _ _

/-- A new segment, over the pages that an earlier one has flushed. -/
def reopenLocking (s : HeapState Locking.HeapSystem) (txns : List UInt64) (addresses : List UInt64)
    (distinct : addresses.Nodup) : HeapState Locking.HeapSystem :=
  .new s.segment.segmentId ⟨(s.flushedLocking txns).discardAllPages, addresses, distinct⟩

/-! ## Both -/

/-- Nothing survives where nothing was. -/
theorem survives_nil {σ : Type} [HeapManager σ] {s s' : HeapState σ} {later : List (HeapAction σ)}
    (noTids : s.tids = []) : Survives s later s' := by
  refine ⟨fun tid member => ?_, fun tid member => ?_, fun tid _ => ?_⟩ <;> rw [noTids] at *
  · exact (List.not_mem_nil member).elim
  · exact (List.not_mem_nil member).elim
  · exact List.not_mem_nil

theorem segmentId_of_run {σ : Type} [HeapManager σ] {s : HeapState σ} {pool : σ}
    {actions : List (HeapAction σ)} {segmentId : UInt16}
    (ran : Machine.run step (new segmentId pool) actions = some s) : s.segment.segmentId = segmentId :=
  Machine.reached (P := fun s => s.segment.segmentId = segmentId)
    (fun _ _ _ same stepped => (step_tids stepped).1.trans same) rfl ran

/-- A contained run keeps its records. -/
theorem holds_of_run {σ : Type} [HeapManager σ] {s : HeapState σ} {pool : σ}
    {actions : List (HeapAction σ)} {segmentId : UInt16} (wf : Wf pool)
    (contained : Machine.Along step Contained (new segmentId pool) actions)
    (ran : Machine.run step (new segmentId pool) actions = some s) :
    s.segment.Holds s.pool s.tids :=
  (Machine.invariant (fun _ _ _ => Kept.step) (Kept.new wf segmentId) contained ran).holds

/-- When records survive that their segment is opened again, over either buffer manager. -/
theorem survives_of_rewrites (segmentId : UInt16) (pageSize pageCount : Nat) (disk : Disk UInt8)
    (addresses : List UInt64) (distinct : addresses.Nodup) (addresses' : List UInt64)
    (distinct' : addresses'.Nodup) :
    (∀ pageSize_lt logFile earlier s later s',
      Machine.run step (openRecovery segmentId pageSize pageSize_lt pageCount disk logFile addresses
        distinct) earlier = some s →
      Machine.run step (s.reopenRecovery addresses' distinct') later = some s' →
      (s.tids = [] ∨
          Machine.Along step Contained (openRecovery segmentId pageSize pageSize_lt pageCount disk
            logFile addresses distinct) earlier ∧
          Machine.Along step (fun s' action => s'.Rewrites s.tids action)
            (s.reopenRecovery addresses' distinct') later →
        Survives s later s') ∧
      (s.tids ≠ [] → s'.tids ≠ [] → ¬ Survives s later s')) ∧
    ∀ earlier s txns later s',
      Machine.run step (openLocking segmentId pageSize pageCount disk addresses distinct) earlier =
        some s →
      Machine.run step (s.reopenLocking txns addresses' distinct') later = some s' →
      (s.tids = [] ∨
          Machine.Along step Contained (openLocking segmentId pageSize pageCount disk addresses distinct)
            earlier ∧
          s.FlushedLocking txns ∧
          Machine.Along step (fun s' action => s'.Rewrites s.tids action)
            (s.reopenLocking txns addresses' distinct') later →
        Survives s later s') ∧
      (s.tids ≠ [] → s'.tids ≠ [] → ¬ Survives s later s') := by
  constructor
  · intro pageSize_lt logFile earlier s later s' ran ran'
    obtain rfl := segmentId_of_run ran
    refine ⟨fun condition => ?_, not_survives ran ran'⟩
    rcases condition with noTids | ⟨contained, rewrites⟩
    · exact survives_nil noTids
    · have wf := Recovery.BufferManager.Wf.new pageSize pageSize_lt pageCount disk
      have holds := holds_of_run wf contained ran
      obtain ⟨wf', views⟩ := reopenRecovery_views holds.wf addresses' distinct'
      exact survives holds wf' (fun p _ => ⟨trivial, views p⟩) rewrites ran'
  · intro earlier s txns later s' ran ran'
    obtain rfl := segmentId_of_run ran
    refine ⟨fun condition => ?_, not_survives ran ran'⟩
    rcases condition with noTids | ⟨contained, isFlushed, rewrites⟩
    · exact survives_nil noTids
    · have wf := Locking.BufferManager.Wf.new pageSize pageCount disk
      have holds := holds_of_run wf contained ran
      have wf' := Locking.BufferManager.Wf.discardAllPages (s.flushedLocking txns)
      refine survives holds wf' (fun p member => ?_) rewrites ran'
      obtain ⟨onDisk, same⟩ := isFlushed p member
      exact ⟨Or.inr onDisk, same⟩

/-- A record that is allocated and written. -/
def oneRecord {σ : Type} [HeapManager σ] (caller : HeapManager.Caller σ) : List (HeapAction σ) :=
  [.allocate caller 8, .write caller 0 (List.replicate 8 1)]

/-- A write to it, through a new segment. -/
theorem survives_oneRecord :
    (∃ s ∈ Machine.run step recoverySegment (oneRecord (0 : UInt64)),
      ∃ s' ∈ Machine.run step (s.reopenRecovery [8192, 4096, 12288] (by decide))
        [.write (0 : UInt64) 0 [2]], s.tids ≠ [] ∧ Survives s [.write (0 : UInt64) 0 [2]] s') ∧
    ∃ s ∈ Machine.run step lockingSegment (oneRecord (0 : UInt64)),
      ∃ s' ∈ Machine.run step (s.reopenLocking [0] [4096, 8192, 12288] (by decide))
        [.write (1 : UInt64) 0 [2]], s.tids ≠ [] ∧ Survives s [.write (1 : UInt64) 0 [2]] s' := by
  have recovery : ∃ s ∈ Machine.run step recoverySegment (oneRecord (0 : UInt64)),
      ∃ s' ∈ Machine.run step (s.reopenRecovery [8192, 4096, 12288] (by decide))
        [.write (0 : UInt64) 0 [2]], s.tids ≠ [] ∧
          Machine.Along step Contained recoverySegment (oneRecord (0 : UInt64)) ∧
          Machine.Along step (fun s' action => s'.Rewrites s.tids action)
            (s.reopenRecovery [8192, 4096, 12288] (by decide)) [.write (0 : UInt64) 0 [2]] := by
    decide +kernel
  have locking : ∃ s ∈ Machine.run step lockingSegment (oneRecord (0 : UInt64)),
      ∃ s' ∈ Machine.run step (s.reopenLocking [0] [4096, 8192, 12288] (by decide))
        [.write (1 : UInt64) 0 [2]], s.tids ≠ [] ∧
          Machine.Along step Contained lockingSegment (oneRecord (0 : UInt64)) ∧
          s.FlushedLocking [0] ∧
          Machine.Along step (fun s' action => s'.Rewrites s.tids action)
            (s.reopenLocking [0] [4096, 8192, 12288] (by decide)) [.write (1 : UInt64) 0 [2]] := by
    decide +kernel
  constructor
  · obtain ⟨s, ran, s', ran', some, condition⟩ := recovery
    refine ⟨s, ran, s', ran', some, ?_⟩
    have survives := survives_of_rewrites 7 128 3 (fun _ => []) [4096, 8192, 12288] (by decide)
      [8192, 4096, 12288] (by decide)
    exact (survives.1 (by decide) [] (oneRecord (0 : UInt64)) s [.write (0 : UInt64) 0 [2]] s' ran
      ran').1 (Or.inr condition)
  · obtain ⟨s, ran, s', ran', some, condition⟩ := locking
    refine ⟨s, ran, s', ran', some, ?_⟩
    have survives := survives_of_rewrites 7 128 3 (fun _ => []) [4096, 8192, 12288] (by decide)
      [4096, 8192, 12288] (by decide)
    exact (survives.2 (oneRecord (0 : UInt64)) s [0] [.write (1 : UInt64) 0 [2]] s' ran ran').1
      (Or.inr condition)

/-- An `allocate` through a new segment returns the `TID` of a record that is there. -/
theorem not_survives_oneRecord :
    ¬ (∀ segmentId pageSize pageSize_lt pageCount disk logFile addresses distinct earlier s addresses'
        distinct' later s',
      Machine.run step (openRecovery segmentId pageSize pageSize_lt pageCount disk logFile addresses
        distinct) earlier = some s →
      Machine.run step (s.reopenRecovery addresses' distinct') later = some s' →
      Survives s later s') ∧
    ¬ ∀ segmentId pageSize pageCount disk addresses distinct earlier s txns addresses' distinct' later s',
      Machine.run step (openLocking segmentId pageSize pageCount disk addresses distinct) earlier =
        some s →
      s.FlushedLocking txns →
      Machine.run step (s.reopenLocking txns addresses' distinct') later = some s' →
      Survives s later s' := by
  have recovery : ∃ s ∈ Machine.run step recoverySegment (oneRecord (0 : UInt64)),
      ∃ s' ∈ Machine.run step (s.reopenRecovery [4096, 8192, 12288] (by decide))
        [.allocate (0 : UInt64) 8], 0 ∈ s.tids ∧ 0 ∈ s'.tids := by
    decide +kernel
  have locking : ∃ s ∈ Machine.run step lockingSegment (oneRecord (0 : UInt64)),
      ∃ s' ∈ Machine.run step (s.reopenLocking [0] [4096, 8192, 12288] (by decide))
        [.allocate (1 : UInt64) 8], s.FlushedLocking [0] ∧ 0 ∈ s.tids ∧ 0 ∈ s'.tids := by
    decide +kernel
  constructor
  · intro survives
    obtain ⟨s, ran, s', ran', old, new⟩ := recovery
    have kept : Survives s [.allocate (0 : UInt64) 8] s' :=
      survives 7 128 (by decide) 3 (fun _ => []) [] [4096, 8192, 12288] (by decide)
        (oneRecord (0 : UInt64)) s [4096, 8192, 12288] (by decide) [.allocate (0 : UInt64) 8] s' ran ran'
    exact kept.fresh 0 new old
  · intro survives
    obtain ⟨s, ran, s', ran', isFlushed, old, new⟩ := locking
    have kept : Survives s [.allocate (1 : UInt64) 8] s' :=
      survives 7 128 3 (fun _ => []) [4096, 8192, 12288] (by decide) (oneRecord (0 : UInt64)) s [0]
        [4096, 8192, 12288] (by decide) [.allocate (1 : UInt64) 8] s' ran isFlushed ran'
    exact kept.fresh 0 new old

end HeapState

end BuzzDB
