import BuzzDB.Locking.Operations

/-!
# Free frames and mapped frames

The five operations that move frames between `free_frames_` and `page_table_` move each frame
at most once, also `fix_page` where it is refused the lock behind the load and `discard_pages`
where the pages it names have been evicted by others.  `Tiles` is the invariant.

`PublicCall` has `discard_pages` as a call of its own, which `Operation` takes as a part of
`transaction_abort` only.
-/

namespace BuzzDB.Locking.BufferManager

variable {α : Type*}

/-- Every frame is free or mapped, and no other frame is. -/
def Tiles (bm : BufferManager α) : Prop :=
  ∀ f, f < bm.capacity ↔ f ∈ bm.freeFrames ∨ ∃ p, bm.pageTable p = some f

variable {bm bm' : BufferManager α} {t p : UInt64} {f : Nat} {mode : LockMode}

theorem Tiles.congr (tiles : bm.Tiles) (capacity : bm'.capacity = bm.capacity)
    (freeFrames : bm'.freeFrames = bm.freeFrames) (pageTable : bm'.pageTable = bm.pageTable) :
    bm'.Tiles := by
  intro f
  rw [capacity, freeFrames, pageTable]
  exact tiles f

/-- A frame goes from the front of the list to a page. -/
theorem Tiles.mapPage (tiles : bm.Tiles) (missing : bm.pageTable p = none)
    (ran : bm.mapPage t p = some (bm', f)) : bm'.Tiles := by
  unfold BufferManager.mapPage at ran
  split at ran
  · cases ran
  · rename_i frameId rest isFree
    obtain ⟨rfl, rfl⟩ := Prod.mk.inj (Option.some.inj ran)
    rw [track_eq]
    intro g
    have before := tiles g
    rw [isFree, List.mem_cons, or_assoc, or_left_comm] at before
    refine before.trans (or_congr_right ?_)
    constructor
    · intro known
      rcases known with rfl | ⟨q, isMapped⟩
      · exact ⟨p, Function.update_self _ _ _⟩
      · have different : q ≠ p := fun same => by
          rw [same, missing] at isMapped
          cases isMapped
        exact ⟨q, (Function.update_of_ne different _ _).trans isMapped⟩
    · intro ⟨q, isMapped⟩
      change Function.update bm.pageTable p (some frameId) q = some g at isMapped
      rcases eq_or_ne q p with rfl | different
      · rw [Function.update_self] at isMapped
        exact Or.inl (Option.some.inj isMapped).symm
      · rw [Function.update_of_ne different] at isMapped
        exact Or.inr ⟨q, isMapped⟩

/-- A frame goes from its page to the end of the list. -/
theorem Tiles.discardPage (tiles : bm.Tiles) (p : UInt64) : (bm.discardPage p).Tiles := by
  unfold BufferManager.discardPage
  split
  · rename_i frameId isMapped
    intro g
    refine (tiles g).trans ?_
    change _ ↔ g ∈ bm.freeFrames ++ [frameId] ∨
      ∃ q, Function.update bm.pageTable p none q = some g
    rw [List.mem_append, List.mem_singleton, or_assoc]
    refine or_congr_right ⟨fun ⟨q, there⟩ => ?_, fun known => ?_⟩
    · rcases eq_or_ne q p with rfl | different
      · exact Or.inl (Option.some.inj (there.symm.trans isMapped))
      · exact Or.inr ⟨q, (Function.update_of_ne different _ _).trans there⟩
    · rcases known with rfl | ⟨q, there⟩
      · exact ⟨p, isMapped⟩
      · rcases eq_or_ne q p with rfl | different
        · rw [Function.update_self] at there
          cases there
        · rw [Function.update_of_ne different] at there
          exact ⟨q, there⟩
  · exact tiles

theorem Tiles.discardAll (pages : List UInt64) :
    ∀ bm : BufferManager α, bm.Tiles → (pages.foldl BufferManager.discardPage bm).Tiles := by
  induction pages with
  | nil => exact fun bm tiles => tiles
  | cons p pages ih => exact fun bm tiles => ih _ (tiles.discardPage p)

theorem Tiles.discardPages (tiles : bm.Tiles) (t : UInt64) : (bm.discardPages t).Tiles :=
  (Tiles.discardAll _ bm tiles).congr rfl rfl rfl

theorem Wf.discardPages (wf : bm.Wf) (t : UInt64) : (bm.discardPages t).Wf :=
  (wf.discardAll (SetMap.get bm.txnPages t)).wf.congr rfl rfl rfl rfl

theorem Tiles.fixPage (tiles : bm.Tiles) (t p : UInt64) (mode : LockMode) :
    (bm.fixPage t p mode).1.Tiles := by
  unfold BufferManager.fixPage
  cases isMapped : bm.pageTable p with
  | some f =>
    dsimp only
    split
    · rw [track_eq]
      exact tiles.congr rfl rfl rfl
    · exact tiles.congr rfl rfl rfl
  | none =>
    dsimp only
    cases loads : bm.mapPage t p with
    | none => exact tiles
    | some loaded =>
      have mapped := tiles.mapPage isMapped loads
      dsimp only
      split <;> exact mapped.congr rfl rfl rfl

theorem Tiles.flushes (tiles : bm.Tiles) (flushes : Flushes bm bm')
    (capacity : bm'.capacity = bm.capacity) : bm'.Tiles :=
  tiles.congr capacity flushes.freeFrames flushes.pageTable

theorem capacity_foldl {β : Type*} {flush : BufferManager α → β → BufferManager α}
    (one : ∀ bm x, (flush bm x).capacity = bm.capacity) (xs : List β) :
    ∀ bm : BufferManager α, (xs.foldl flush bm).capacity = bm.capacity := by
  induction xs with
  | nil => exact fun _ => rfl
  | cons x xs ih => exact fun bm => (ih _).trans (one bm x)

variable [Zero α]

theorem capacity_flushFrame (bm : BufferManager α) (f : Nat) :
    (bm.flushFrame f).capacity = bm.capacity := by
  unfold BufferManager.flushFrame
  split <;> rfl

theorem capacity_flushPage (bm : BufferManager α) (p : UInt64) :
    (bm.flushPage p).capacity = bm.capacity := by
  unfold BufferManager.flushPage
  split
  · exact capacity_flushFrame bm _
  · rfl

theorem Tiles.flushPages (tiles : bm.Tiles) (t : UInt64) : (bm.flushPages t).Tiles :=
  tiles.flushes (flushPages_flushes bm t) (capacity_foldl capacity_flushPage _ bm)

theorem Tiles.new (pageSize pageCount : Nat) (disk : Disk α) :
    (new pageSize pageCount disk).Tiles := by
  intro f
  change f < pageCount ↔ f ∈ List.range pageCount ∨ ∃ p : UInt64, none = some f
  simp

theorem Tiles.operate (tiles : bm.Tiles) (operation : Operation α) : (bm.operate operation).Tiles := by
  cases operation with
  | fixPage t p mode => exact tiles.fixPage t p mode
  | write f offset value => exact tiles.congr rfl rfl rfl
  | unfixPage f isDirty =>
    rw [BufferManager.operate, BufferManager.unfixPage]
    split <;> exact tiles.congr rfl rfl rfl
  | flushAllPages =>
    exact tiles.flushes (flushAllPages_flushes bm) (capacity_foldl capacity_flushFrame _ bm)
  | flushPage p => exact tiles.flushes (flushPage_flushes bm p) (capacity_flushPage bm p)
  | discardPage p => exact tiles.discardPage p
  | discardAllPages =>
    intro f
    change f < bm.capacity ↔ f ∈ List.range bm.capacity ∨ ∃ p : UInt64, none = some f
    simp
  | flushPages t => exact tiles.flushPages t
  | transactionComplete t => exact (tiles.flushPages t).congr rfl rfl rfl
  | transactionAbort t =>
    have released : (bm.releaseAllLocks t).Tiles := tiles.congr rfl rfl rfl
    exact (released.discardPages t).congr rfl rfl rfl

/-! ## Any sequence of calls -/

/-- A public call. -/
inductive PublicCall (α : Type*)
  | operation (operation : Operation α)
  | discardPages (txnId : UInt64)

/-- One call. -/
def call (bm : BufferManager α) : PublicCall α → BufferManager α
  | .operation operation => bm.operate operation
  | .discardPages txnId => bm.discardPages txnId

/-- One call after the other. -/
def callAll (bm : BufferManager α) (calls : List (PublicCall α)) : BufferManager α :=
  calls.foldl call bm

/-- Every frame is either once in `free_frames_` or the frame of one page, whose id it has. -/
structure Partitioned (bm : BufferManager α) : Prop where
  each : ∀ f < bm.capacity,
    bm.freeFrames.count f = 1 ∧ (∀ p, bm.pageTable p ≠ some f) ∨
      f ∉ bm.freeFrames ∧ ∃! p, bm.pageTable p = some f
  others : ∀ f, bm.capacity ≤ f → f ∉ bm.freeFrames ∧ ∀ p, bm.pageTable p ≠ some f
  pageId : ∀ p f, bm.pageTable p = some f → (bm.pool f).pageId = p

omit [Zero α] in
theorem Tiles.partitioned (tiles : bm.Tiles) (wf : bm.Wf) : bm.Partitioned where
  each f bound := by
    rcases (tiles f).mp bound with isFree | ⟨p, isMapped⟩
    · exact Or.inl ⟨List.count_eq_one_of_mem wf.nodup isFree, wf.free f isFree⟩
    · refine Or.inr ⟨fun isFree => wf.free f isFree p isMapped, p, isMapped, fun q there => ?_⟩
      exact wf.injective there isMapped
  others f outside := by
    have unknown := mt (tiles f).mpr (Nat.not_lt.mpr outside)
    exact ⟨fun isFree => unknown (Or.inl isFree), fun p isMapped => unknown (Or.inr ⟨p, isMapped⟩)⟩
  pageId := wf.mapped

theorem Wf.operate (wf : bm.Wf) (operation : Operation α) : (bm.operate operation).Wf := by
  cases operation with
  | fixPage t p mode => exact (wf.fixPage t p mode).wf
  | write f offset value => exact wf.writeData f offset value
  | unfixPage f isDirty => exact wf.unfixPage f isDirty
  | flushAllPages => exact (flushAllPages_flushes bm).wf wf
  | flushPage p => exact (flushPage_flushes bm p).wf wf
  | discardPage p => exact (wf.discardPage p).wf
  | discardAllPages => exact Wf.discardAllPages bm
  | flushPages t => exact (flushPages_flushes bm t).wf wf
  | transactionComplete t => exact (wf.transactionComplete t).1.wf
  | transactionAbort t => exact (wf.transactionAbort t).1.wf

theorem Wf.call (wf : bm.Wf) (c : PublicCall α) : (bm.call c).Wf := by
  cases c with
  | operation operation => exact wf.operate operation
  | discardPages t => exact wf.discardPages t

theorem Tiles.call (tiles : bm.Tiles) (c : PublicCall α) : (bm.call c).Tiles := by
  cases c with
  | operation operation => exact tiles.operate operation
  | discardPages t => exact tiles.discardPages t

/-- What every call keeps holds behind any sequence of calls. -/
theorem callAll_induction {P : BufferManager α → Prop} (keeps : ∀ bm c, P bm → P (bm.call c))
    (calls : List (PublicCall α)) : ∀ bm : BufferManager α, P bm → P (bm.callAll calls) := by
  induction calls with
  | nil => exact fun bm holds => holds
  | cons c calls ih => exact fun bm holds => ih _ (keeps bm c holds)

/-- No frame is lost or shared, whatever the calls are. -/
theorem callAll_partitioned (pageSize pageCount : Nat) (disk : Disk α)
    (calls : List (PublicCall α)) :
    ((new pageSize pageCount disk).callAll calls).Partitioned := by
  have both := callAll_induction (P := fun bm => bm.Tiles ∧ bm.Wf)
    (fun bm c holds => ⟨holds.1.call c, holds.2.call c⟩) calls (new pageSize pageCount disk)
    ⟨Tiles.new pageSize pageCount disk, Wf.new pageSize pageCount disk⟩
  exact both.1.partitioned both.2

end BuzzDB.Locking.BufferManager
