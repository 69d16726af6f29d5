import BuzzDB.Locking.Durability
import BuzzDB.Locking.Operations

/-!
# A locked page keeps its frame

In every run the pages that a transaction has locked are those it has fixed.  The frame that
`fix_page` has returned stays with its page, as long as no `transaction_abort` discards a
page that another transaction has locked, in whatever mode.
-/

namespace BuzzDB.Locking

variable {α : Type*}

namespace BufferManager

variable {bm bm' : BufferManager α} {p : UInt64} {f : Nat}

/-! ## What a flush writes -/

/-- The page ids that `write_frame` is called with, for one frame, -/
def frameWrites (bm : BufferManager α) (frameId : Nat) : List UInt64 :=
  if (bm.pool frameId).dirty then [(bm.pool frameId).pageId] else []

/-- for one page, -/
def pageWrites (bm : BufferManager α) (pageId : UInt64) : List UInt64 :=
  match bm.pageTable pageId with
  | some frameId => bm.frameWrites frameId
  | none => []

/-- and for one flush after the other. -/
def allWrites {β : Type*} (flush : BufferManager α → β → BufferManager α)
    (writes : BufferManager α → β → List UInt64) : BufferManager α → List β → List UInt64
  | _, [] => []
  | bm, x :: xs => writes bm x ++ allWrites flush writes (flush bm x) xs

/-- Dirty frames belong to pages. -/
def DirtyPaged (bm : BufferManager α) : Prop :=
  ∀ f, (bm.pool f).dirty = true → (bm.pool f).pageId ≠ invalidPageId

theorem DirtyPaged.flushes (paged : bm.DirtyPaged) (flushes : Flushes bm bm') : bm'.DirtyPaged := by
  intro f dirty
  rw [flushes.pageId]
  refine paged f ?_
  by_contra clean
  have still := flushes.clean f (Bool.not_eq_true _ ▸ clean)
  rw [dirty] at still
  cases still

theorem DirtyPaged.put (paged : bm.DirtyPaged) {frame : BufferFrame α}
    (valid : frame.dirty = true → frame.pageId ≠ invalidPageId) : (bm.put f frame).DirtyPaged := by
  intro g dirty
  rcases eq_or_ne g f with rfl | different
  · rw [pool_put_self] at dirty ⊢
    exact valid dirty
  · rw [pool_put_of_ne different] at dirty ⊢
    exact paged g dirty

theorem DirtyPaged.discardAll (pages : List UInt64) : ∀ bm : BufferManager α, bm.DirtyPaged →
    (pages.foldl BufferManager.discardPage bm).DirtyPaged := by
  induction pages with
  | nil => exact fun _ paged => paged
  | cons p pages ih =>
    intro bm paged
    refine ih (bm.discardPage p) ?_
    unfold BufferManager.discardPage
    split
    · rename_i f _
      have emptied : (bm.put f { bm.pool f with pageId := invalidPageId, dirty := false }).DirtyPaged :=
        paged.put fun impossible => by cases impossible
      exact emptied
    · exact paged

theorem DirtyPaged.frameWrites (paged : bm.DirtyPaged) (f : Nat) :
    invalidPageId ∉ bm.frameWrites f := by
  unfold BufferManager.frameWrites
  split
  · rename_i dirty
    exact fun member => paged f dirty (List.mem_singleton.mp member).symm
  · exact List.not_mem_nil

theorem DirtyPaged.pageWrites (paged : bm.DirtyPaged) (p : UInt64) :
    invalidPageId ∉ bm.pageWrites p := by
  unfold BufferManager.pageWrites
  split
  · exact paged.frameWrites _
  · exact List.not_mem_nil

theorem DirtyPaged.allWrites {β : Type*} {flush : BufferManager α → β → BufferManager α}
    {writes : BufferManager α → β → List UInt64} (one : ∀ bm x, Flushes bm (flush bm x))
    (valid : ∀ bm x, bm.DirtyPaged → invalidPageId ∉ writes bm x) (xs : List β) :
    ∀ bm, bm.DirtyPaged → invalidPageId ∉ BufferManager.allWrites flush writes bm xs := by
  induction xs with
  | nil => exact fun _ _ => List.not_mem_nil
  | cons x xs ih =>
    intro bm paged member
    rcases List.mem_append.mp member with first | later
    · exact valid bm x paged first
    · exact ih (flush bm x) (paged.flushes (one bm x)) later

end BufferManager

namespace Durability

open BufferManager (Flushes Fixes Ends)

variable {s s' : State α} {bm bm' : BufferManager α} {action : Action α} {t u p : UInt64} {f : Nat}
  {mode : LockMode}

/-- The call names a page. -/
def Action.NamesPage : Action α → Prop
  | .fixPage _ pageId _ => pageId ≠ invalidPageId
  | _ => True

instance : DecidablePred (@Action.NamesPage α)
  | .fixPage _ _ _ => inferInstanceAs (Decidable (_ ≠ _))
  | .write _ _ _ | .unfixPage _ _ | .flushPage _ | .flushAllPages | .transactionComplete _
  | .transactionAbort _ => isTrue trivial

namespace State

/-! ## Every run -/

/-- Whoever has fixed a page has it locked, and the other way round. -/
structure Locked (s : State α) : Prop where
  tables : s.bm.Tables
  covers : ∀ h ∈ s.handles, Covers (s.bm.lockManager.granted h.pageId) h.txnId h.mode
  held : ∀ t p, Covers (s.bm.lockManager.granted p) t .shared →
    ∃ h ∈ s.handles, h.txnId = t ∧ h.pageId = p

theorem step_fixPage [Zero α] (stepped : s.step (.fixPage t p mode) = some s') :
    (∃ f, (s.bm.fixPage t p mode).2 = .frame f ∧
        s' = ⟨(s.bm.fixPage t p mode).1, ⟨t, p, mode, f⟩ :: s.handles, s.promised⟩) ∨
      (∀ f, (s.bm.fixPage t p mode).2 ≠ .frame f) ∧
        s' = ⟨(s.bm.fixPage t p mode).1, s.handles, s.promised⟩ := by
  simp only [State.step] at stepped
  split at stepped
  · rename_i bm f fixed
    cases stepped
    rw [fixed]
    exact Or.inl ⟨f, rfl, rfl⟩
  · rename_i bm result noFrame fixed
    cases stepped
    rw [fixed]
    exact Or.inr ⟨fun f same => noFrame f same, rfl⟩

/-- A step that leaves handles and locks as they are. -/
theorem Locked.keep (locked : s.Locked) (tables : bm'.Tables)
    (lockManager : bm'.lockManager = s.bm.lockManager)
    (promised : UInt64 → UInt64 → Option (List α)) : Locked ⟨bm', s.handles, promised⟩ where
  tables := tables
  covers := lockManager ▸ locked.covers
  held := lockManager ▸ locked.held

/-- A call that ends a transaction. -/
theorem Locked.ended (locked : s.Locked) (ends : Ends s.bm t bm') : (s.ended t bm').Locked := by
  refine ⟨locked.tables.ends ends, fun h member => ?_, fun u p covers => ?_⟩
  · obtain ⟨before, different⟩ := List.mem_filter.mp member
    exact (ends.others (of_decide_eq_true different) h.pageId h.mode).mpr (locked.covers h before)
  · have different : u ≠ t := fun same => ends.gone locked.tables p .shared (same ▸ covers)
    obtain ⟨h, before, rfl, page⟩ := locked.held u p ((ends.others different p .shared).mp covers)
    exact ⟨h, List.mem_filter.mpr ⟨before, decide_eq_true different⟩, rfl, page⟩

theorem Locked.fixPage [Zero α] (locked : s.Locked)
    (stepped : s.step (.fixPage t p mode) = some s') : s'.Locked := by
  have fixes := locked.tables.wf.fixPage t p mode
  have tables := locked.tables.fixes fixes
  have spec := acquireLock_spec s.bm.lockManager t p mode
  have old : ∀ q u other, Covers (s.bm.lockManager.granted q) u other →
      Covers ((s.bm.fixPage t p mode).1.lockManager.granted q) u other := by
    intro q u other covers
    by_cases full : (s.bm.fixPage t p mode).2 = .bufferFull
    · exact (fixes.full full).1.symm ▸ covers
    · exact (fixes.request full).1.symm ▸ spec.keeps covers
  rcases step_fixPage stepped with ⟨f, isFrame, rfl⟩ | ⟨noFrame, rfl⟩
  · refine ⟨tables, fun h member => ?_, fun u q covers => ?_⟩
    · rcases List.mem_cons.mp member with rfl | before
      · have answered : (s.bm.fixPage t p mode).2 ≠ .bufferFull ∧
            (s.bm.fixPage t p mode).2 ≠ .abort := by
          rw [isFrame]
          exact ⟨fun impossible => (by cases impossible), fun impossible => by cases impossible⟩
        obtain ⟨lockManager, acquired⟩ := fixes.request answered.1
        exact lockManager.symm ▸ spec.covers (acquired.mpr answered.2)
      · exact old h.pageId h.txnId h.mode (locked.covers h before)
    · rcases fixes.covers_or covers with before | ⟨rfl, rfl, _⟩
      · obtain ⟨h, member, own⟩ := locked.held u q before
        exact ⟨h, List.mem_cons_of_mem _ member, own⟩
      · exact ⟨_, List.mem_cons_self, rfl, rfl⟩
  · refine ⟨tables, fun h member => ?_, fun u q covers => ?_⟩
    · exact old h.pageId h.txnId h.mode (locked.covers h member)
    · rcases fixes.covers_or covers with before | ⟨_, _, f, isFrame⟩
      · exact locked.held u q before
      · exact absurd isFrame (noFrame f)

variable [Zero α]

theorem Locked.new (pageSize pageCount : Nat) (disk : Disk α) :
    (new pageSize pageCount disk).Locked where
  tables := BufferManager.Tables.new pageSize pageCount disk
  covers _ member := by cases member
  held t p covers := by
    obtain ⟨lock, impossible, _⟩ := covers
    cases impossible

theorem Locked.step (locked : s.Locked) (stepped : s.step action = some s') : s'.Locked := by
  have tables := locked.tables
  cases action with
  | fixPage t p mode => exact locked.fixPage stepped
  | write h offset value =>
    simp only [State.step] at stepped
    split at stepped
    · cases stepped
      exact locked.keep (tables.operate (.write h.frameId offset value)) rfl _
    · cases stepped
  | unfixPage h isDirty =>
    simp only [State.step] at stepped
    split at stepped
    · cases stepped
      refine locked.keep (tables.operate (.unfixPage h.frameId isDirty)) ?_ _
      rw [BufferManager.operate, BufferManager.unfixPage]
      split <;> rfl
    · cases stepped
  | flushPage p =>
    cases stepped
    have flushes := BufferManager.flushPage_flushes s.bm p
    exact locked.keep (tables.flushes flushes) flushes.lockManager _
  | flushAllPages =>
    cases stepped
    have flushes := BufferManager.flushAllPages_flushes s.bm
    exact locked.keep (tables.flushes flushes) flushes.lockManager _
  | transactionComplete t =>
    cases stepped
    exact locked.ended (tables.wf.transactionComplete t).1
  | transactionAbort t =>
    cases stepped
    exact locked.ended (tables.wf.transactionAbort t).1

/-! ## Frames that stay -/

/-- The page ids that the calls of a step give to `write_frame`. -/
def writes (s : State α) : Action α → List UInt64
  | .flushPage pageId => s.bm.pageWrites pageId
  | .flushAllPages =>
    BufferManager.allWrites BufferManager.flushFrame BufferManager.frameWrites s.bm
      (List.range s.bm.capacity)
  | .transactionComplete txnId =>
    BufferManager.allWrites BufferManager.flushPage BufferManager.pageWrites s.bm
      (SetMap.get s.bm.txnPages txnId)
  | _ => []

/-- Whoever has fixed a page still has its frame, only frames of pages are dirty, and no step can
write a frame without a page. -/
structure Resident (s : State α) : Prop where
  mapped : ∀ h ∈ s.handles, s.bm.pageTable h.pageId = some h.frameId
  notFree : ∀ h ∈ s.handles, h.frameId ∉ s.bm.freeFrames
  page : ∀ h ∈ s.handles, (s.bm.pool h.frameId).pageId = h.pageId
  alone : ∀ h ∈ s.handles, ∀ q, s.bm.pageTable q = some h.frameId → q = h.pageId
  dirty : ∀ f, (s.bm.pool f).dirty = true → s.bm.pageTable (s.bm.pool f).pageId = some f
  writes : ∀ action, invalidPageId ∉ s.writes action

omit [Zero α] in
/-- `transaction_abort` discards no page that another transaction has locked. -/
def Spares (s : State α) : Action α → Prop
  | .transactionAbort txnId =>
    ∀ pageId ∈ SetMap.get s.bm.txnPages txnId, s.bm.pageTable pageId ≠ none →
      ∀ lock ∈ s.bm.lockManager.granted pageId, lock.txnId = txnId
  | _ => True

instance : DecidablePred s.Spares
  | .transactionAbort _ => List.decidableBAll _ _
  | .fixPage _ _ _ | .write _ _ _ | .unfixPage _ _ | .flushPage _ | .flushAllPages
  | .transactionComplete _ => isTrue trivial

/-- The invariant. -/
structure Stays (s : State α) : Prop extends s.Locked where
  mapped : ∀ h ∈ s.handles, s.bm.pageTable h.pageId = some h.frameId
  valid : ∀ h ∈ s.handles, h.pageId ≠ invalidPageId
  paged : s.bm.DirtyPaged

theorem Stays.resident (stays : s.Stays) : s.Resident where
  mapped := stays.mapped
  notFree h member free := stays.tables.wf.free h.frameId free h.pageId (stays.mapped h member)
  page h member := stays.tables.wf.mapped h.pageId h.frameId (stays.mapped h member)
  alone h member q there := stays.tables.wf.injective there (stays.mapped h member)
  dirty f isDirty := stays.tables.wf.stray f (stays.paged f isDirty)
  writes action := by
    cases action with
    | flushPage p => exact stays.paged.pageWrites p
    | flushAllPages =>
      exact BufferManager.DirtyPaged.allWrites
        (fun bm f => (BufferManager.flushFrame_flushes bm f).1)
        (fun bm f paged => paged.frameWrites f) _ s.bm stays.paged
    | transactionComplete t =>
      exact BufferManager.DirtyPaged.allWrites BufferManager.flushPage_flushes
        (fun bm p paged => paged.pageWrites p) _ s.bm stays.paged
    | _ => exact List.not_mem_nil

theorem Stays.new (pageSize pageCount : Nat) (disk : Disk α) :
    (new pageSize pageCount disk).Stays where
  toLocked := Locked.new pageSize pageCount disk
  mapped _ member := by cases member
  valid _ member := by cases member
  paged _ impossible := by cases impossible

theorem Stays.fixPage (stays : s.Stays) (valid : p ≠ invalidPageId)
    (stepped : s.step (.fixPage t p mode) = some s') : s'.Stays := by
  have fixes := stays.tables.wf.fixPage t p mode
  have tables := stays.toLocked.step stepped
  have old : ∀ h ∈ s.handles,
      (s.bm.fixPage t p mode).1.pageTable h.pageId = some h.frameId := fun h member =>
    fixes.mapped h.pageId h.frameId (stays.mapped h member)
  have paged : (s.bm.fixPage t p mode).1.DirtyPaged := by
    intro f isDirty
    rw [fixes.dirty] at isDirty
    rcases fixes.pageId f with same | isPage
    · exact same ▸ stays.paged f isDirty
    · rw [isPage]
      exact valid
  rcases step_fixPage stepped with ⟨f, isFrame, rfl⟩ | ⟨_, rfl⟩
  · refine ⟨tables, fun h member => ?_, fun h member => ?_, paged⟩
    · rcases List.mem_cons.mp member with rfl | before
      · exact (fixes.frame f isFrame).1
      · exact old h before
    · rcases List.mem_cons.mp member with rfl | before
      · exact valid
      · exact stays.valid h before
  · exact ⟨tables, old, stays.valid, paged⟩

/-- Marking a frame that belongs to a page. -/
theorem Stays.unfixPage (stays : s.Stays) {h : Handle} (member : h ∈ s.handles) (isDirty : Bool) :
    (s.bm.unfixPage h.frameId isDirty).DirtyPaged ∧
      (s.bm.unfixPage h.frameId isDirty).pageTable = s.bm.pageTable := by
  unfold BufferManager.unfixPage
  split
  · refine ⟨stays.paged.put fun _ => ?_, rfl⟩
    rw [stays.resident.page h member]
    exact stays.valid h member
  · exact ⟨stays.paged, rfl⟩

theorem Stays.transactionAbort (stays : s.Stays) (spares : s.Spares (.transactionAbort t)) :
    (s.ended t (s.bm.transactionAbort t)).Stays := by
  have wf : (s.bm.releaseAllLocks t).Wf := stays.tables.wf.congr rfl rfl rfl rfl
  have discards := wf.discardAll (SetMap.get s.bm.txnPages t)
  have stepped : s.step (.transactionAbort t) = some (s.ended t (s.bm.transactionAbort t)) := rfl
  refine ⟨stays.toLocked.step stepped, fun h member => ?_, fun h member => ?_, ?_⟩
  · obtain ⟨before, different⟩ := List.mem_filter.mp member
    have there := stays.mapped h before
    refine (discards.kept h.pageId fun tracked => ?_).trans there
    -- the lock of the handle is somebody else's
    obtain ⟨lock, inside, own, _⟩ := stays.covers h before
    have isMapped : s.bm.pageTable h.pageId ≠ none := by
      rw [there]
      exact Option.some_ne_none _
    have same := spares h.pageId tracked isMapped lock inside
    exact of_decide_eq_true different (own.symm.trans same)
  · exact stays.valid h (List.mem_filter.mp member).1
  · exact BufferManager.DirtyPaged.discardAll _ (s.bm.releaseAllLocks t) stays.paged

theorem Stays.step (stays : s.Stays) (names : action.NamesPage) (spares : s.Spares action)
    (stepped : s.step action = some s') : s'.Stays := by
  have tables := stays.toLocked.step stepped
  cases action with
  | fixPage t p mode => exact stays.fixPage names stepped
  | write h offset value =>
    simp only [State.step] at stepped
    split at stepped
    · cases stepped
      exact ⟨tables, stays.mapped, stays.valid, stays.paged.put (stays.paged h.frameId)⟩
    · cases stepped
  | unfixPage h isDirty =>
    simp only [State.step] at stepped
    split at stepped
    · rename_i member
      cases stepped
      obtain ⟨paged, table⟩ := stays.unfixPage member isDirty
      exact ⟨tables, table ▸ stays.mapped, stays.valid, paged⟩
    · cases stepped
  | flushPage p =>
    cases stepped
    have flushes := BufferManager.flushPage_flushes s.bm p
    exact ⟨tables, flushes.pageTable ▸ stays.mapped, stays.valid, stays.paged.flushes flushes⟩
  | flushAllPages =>
    cases stepped
    have flushes := BufferManager.foldl_flushes
      (fun bm f => (BufferManager.flushFrame_flushes bm f).1) (List.range s.bm.capacity) s.bm
    exact ⟨tables, flushes.pageTable ▸ stays.mapped, stays.valid, stays.paged.flushes flushes⟩
  | transactionComplete t =>
    cases stepped
    have flushes := BufferManager.flushPages_flushes s.bm t
    have paged : (s.bm.flushPages t).DirtyPaged := stays.paged.flushes flushes
    refine ⟨tables, fun h member => ?_, fun h member => ?_, paged⟩
    · have there := stays.mapped h (List.mem_filter.mp member).1
      exact (congrFun flushes.pageTable h.pageId).trans there
    · exact stays.valid h (List.mem_filter.mp member).1
  | transactionAbort t =>
    cases stepped
    exact stays.transactionAbort spares

/-- A transaction that has fixed a page loses its frame when another one's abort discards it. -/
theorem Stays.broken (stays : s.Stays) (discards : ¬ s.Spares action)
    (stepped : s.step action = some s') : ¬ s'.Resident := by
  cases action with
  | transactionAbort t =>
    cases stepped
    intro resident
    refine discards fun p tracked isMapped lock member => ?_
    by_contra different
    obtain ⟨h, before, own, rfl⟩ := stays.held lock.txnId p ⟨lock, member, rfl, fun impossible => by
      cases impossible⟩
    have after : h ∈ (s.ended t (s.bm.transactionAbort t)).handles :=
      List.mem_filter.mpr ⟨before, decide_eq_true (own ▸ different)⟩
    have wf : (s.bm.releaseAllLocks t).Wf := stays.tables.wf.congr rfl rfl rfl rfl
    have gone := (wf.discardAll (SetMap.get s.bm.txnPages t)).gone h.pageId tracked
    have there := resident.mapped h after
    rw [show (s.ended t (s.bm.transactionAbort t)).bm.pageTable h.pageId = none from gone] at there
    cases there
  | _ => exact absurd trivial discards

end State

/-- Frames stay with their pages exactly in the runs in which no abort discards a page that
another transaction has locked. -/
theorem resident_iff [Zero α] {pageSize pageCount : Nat} {disk : Disk α} {actions : List (Action α)}
    (names : ∀ action ∈ actions, action.NamesPage)
    (ran : Machine.run State.step (State.new pageSize pageCount disk) actions = some s) :
    Machine.Always State.step State.Resident (State.new pageSize pageCount disk) actions ↔
      Machine.Along State.step State.Spares (State.new pageSize pageCount disk) actions :=
  Machine.always_iff_along_of
    (fun _ _ _ names stays spares stepped => State.Stays.step stays names spares stepped)
    (fun _ stays => State.Stays.resident stays)
    (fun _ _ _ _ stays discards stepped => State.Stays.broken stays discards stepped)
    (State.Stays.new pageSize pageCount disk) names ran

/-- Transactions 1 and 2 share page 0; 1 completes and 2 aborts. -/
theorem resident_iff_shared :
    ∃ s : State UInt8, Machine.run State.step (State.new 2 4 fun _ => [])
        [.fixPage 1 0 .shared, .fixPage 2 0 .shared, .transactionComplete 1, .transactionAbort 2] =
          some s ∧
      Machine.Always State.step State.Resident (State.new 2 4 fun _ => ([] : List UInt8))
        [.fixPage 1 0 .shared, .fixPage 2 0 .shared, .transactionComplete 1, .transactionAbort 2] :=
  ⟨_, rfl, (resident_iff (by decide) rfl).mpr (by decide +kernel)⟩

/-- Transactions 1 and 2 share page 0; 1 aborts, and 2 has lost its frame. -/
theorem not_resident_shared :
    ¬ ∀ (pageSize pageCount : Nat) (disk : Disk UInt8) (actions : List (Action UInt8))
      (s : State UInt8), (∀ action ∈ actions, action.NamesPage) →
      Machine.run State.step (State.new pageSize pageCount disk) actions = some s →
      Machine.Always State.step State.Resident (State.new pageSize pageCount disk) actions := by
  intro resident
  have all := resident 2 4 (fun _ => [])
    [.fixPage 1 0 .shared, .fixPage 2 0 .shared, .transactionAbort 1] _ (by decide) rfl
  have last := ((all.2 _ rfl).2 _ rfl).2 _ rfl
  have there := last.mapped ⟨2, 0, .shared, 0⟩ (by decide +kernel)
  exact absurd there (by decide +kernel)

end Durability

end BuzzDB.Locking
