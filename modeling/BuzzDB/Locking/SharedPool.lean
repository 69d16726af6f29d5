import BuzzDB.Locking.Progress
import Mathlib.Data.Set.Card

/-!
# Frames under interleaved calls

Frames go from `free_frames_` to a page in the first section of `fix_page`, and back in the sections
that discard pages.  The other sections leave the pool as it is, also those that run without
`pool_mutex_`: the reads, the writes and the flushes of `flush_all_pages`.

So every frame is free or has one page whatever the interleaving, and a page that is missing is
refused with a `buffer_full_error` only while as many pages as there are frames are in the pool.
-/

namespace BuzzDB.Locking

namespace BufferManager

variable {α : Type*} {bm bm' : BufferManager α} {t p : UInt64} {f pageCount : Nat}

/-- The pages in the pool. -/
def mappedPages (bm : BufferManager α) : Set UInt64 := {p | bm.pageTable p ≠ none}

/-- The pages in the pool and the free frames come to the capacity. -/
theorem Tiles.ncard_mappedPages (tiles : bm.Tiles) (wf : bm.Wf) :
    bm.mappedPages.ncard + bm.freeFrames.length = bm.capacity := by
  have isFree : ∀ f, f ∈ bm.freeFrames.toFinset ↔ f ∈ bm.freeFrames := fun _ => List.mem_toFinset
  have inside : bm.freeFrames.toFinset ⊆ Finset.range bm.capacity := by
    intro f member
    exact Finset.mem_range.mpr ((tiles f).mpr (Or.inl ((isFree f).mp member)))
  have frames : bm.mappedPages.ncard =
      (↑(Finset.range bm.capacity \ bm.freeFrames.toFinset) : Set Nat).ncard := by
    refine Set.ncard_congr (fun p _ => (bm.pageTable p).getD 0) (fun p isMapped => ?_)
      (fun p q isMapped isMapped' same => ?_) fun f member => ?_
    · obtain ⟨f, there⟩ := Option.ne_none_iff_exists'.mp isMapped
      rw [there, Option.getD_some, Finset.mem_coe, Finset.mem_sdiff, Finset.mem_range, isFree]
      exact ⟨(tiles f).mpr (Or.inr ⟨p, there⟩), fun member => wf.free f member p there⟩
    · obtain ⟨f, there⟩ := Option.ne_none_iff_exists'.mp isMapped
      obtain ⟨g, there'⟩ := Option.ne_none_iff_exists'.mp isMapped'
      rw [there, there', Option.getD_some, Option.getD_some] at same
      exact wf.injective there (same ▸ there')
    · rw [Finset.mem_coe, Finset.mem_sdiff, Finset.mem_range, isFree] at member
      obtain ⟨p, there⟩ := ((tiles f).mp member.1).resolve_left member.2
      refine ⟨p, ?_, ?_⟩
      · change bm.pageTable p ≠ none
        rw [there]
        exact Option.some_ne_none f
      · rw [there, Option.getD_some]
  have card := Finset.card_sdiff_add_card_eq_card inside
  rw [Finset.card_range, List.toFinset_card_of_nodup wf.nodup] at card
  rw [frames, Set.ncard_coe_finset, card]

theorem mapPage_eq_none_iff : bm.mapPage t p = none ↔ bm.freeFrames = [] := by
  unfold BufferManager.mapPage
  split <;> simp [*]

/-- What every section keeps of the pool. -/
structure Accounts (pageCount : Nat) (bm : BufferManager α) : Prop where
  tiles : bm.Tiles
  wf : bm.Wf
  capacity : bm.capacity = pageCount

theorem Accounts.new [Zero α] (pageSize pageCount : Nat) (disk : Disk α) :
    (new pageSize pageCount disk).Accounts pageCount :=
  ⟨.new pageSize pageCount disk, .new pageSize pageCount disk, rfl⟩

section Accounts

variable (accounts : bm.Accounts pageCount)

include accounts

/-- A section that moves no frame. -/
theorem Accounts.keep (wf : bm'.Wf) (capacity : bm'.capacity = bm.capacity)
    (freeFrames : bm'.freeFrames = bm.freeFrames) (pageTable : bm'.pageTable = bm.pageTable) :
    bm'.Accounts pageCount :=
  ⟨accounts.tiles.congr capacity freeFrames pageTable, wf, capacity.trans accounts.capacity⟩

theorem Accounts.relock (lockManager : LockManager) :
    ({ bm with lockManager } : BufferManager α).Accounts pageCount :=
  accounts.keep (accounts.wf.congr rfl rfl rfl rfl) rfl rfl rfl

theorem Accounts.track (t p : UInt64) : (bm.track t p).Accounts pageCount := by
  refine accounts.keep (accounts.wf.track t p) ?_ ?_ ?_ <;> rw [track_eq]

theorem Accounts.flushes (flushes : Flushes bm bm') (capacity : bm'.capacity = bm.capacity) :
    bm'.Accounts pageCount :=
  accounts.keep (flushes.wf accounts.wf) capacity flushes.freeFrames flushes.pageTable

theorem Accounts.unfixPage (f : Nat) (isDirty : Bool) : (bm.unfixPage f isDirty).Accounts pageCount := by
  refine accounts.keep (accounts.wf.unfixPage f isDirty) ?_ ?_ ?_ <;>
    rw [BufferManager.unfixPage] <;> split <;> rfl

theorem Accounts.mapPage (missing : bm.pageTable p = none) (ran : bm.mapPage t p = some (bm', f)) :
    bm'.Accounts pageCount := by
  refine ⟨accounts.tiles.mapPage missing ran, (accounts.wf.mapPage missing ran).wf, ?_⟩
  unfold BufferManager.mapPage at ran
  split at ran
  · cases ran
  · cases ran
    rw [track_eq]
    exact accounts.capacity

theorem Accounts.discardPage (p : UInt64) : (bm.discardPage p).Accounts pageCount := by
  refine ⟨accounts.tiles.discardPage p, (accounts.wf.discardPage p).wf, ?_⟩
  unfold BufferManager.discardPage
  split <;> exact accounts.capacity

theorem Accounts.discardPages (t : UInt64) : (bm.discardPages t).Accounts pageCount :=
  ⟨accounts.tiles.discardPages t, accounts.wf.discardPages t,
    (discardPages_keeps bm t).2.trans accounts.capacity⟩

theorem Accounts.discardAllPages [Zero α] : bm.discardAllPages.Accounts pageCount :=
  ⟨accounts.tiles.operate .discardAllPages, Wf.discardAllPages bm, accounts.capacity⟩

theorem Accounts.readFrame [Zero α] (f : Nat) : (bm.readFrame f).Accounts pageCount := by
  refine accounts.keep (accounts.wf.put rfl ?_) rfl rfl rfl
  exact (Disk.length_readPage _).trans (accounts.wf.length f)

end Accounts

end BufferManager

/-! ## Threads -/

namespace Threads.State

open BufferManager (Accounts)

variable {τ α : Type*} [DecidableEq τ] [Zero α] {s s' : State τ α} {u : τ} {choice : Choice}
  {pageCount : Nat}

theorem accounts_nextSection (accounts : s.bm.Accounts pageCount)
    (stepped : s.nextSection u choice = some s') : s'.bm.Accounts pageCount := by
  unfold State.nextSection at stepped
  cases isAt : s.pcs u with
  | idle => rw [isAt] at stepped; cases stepped
  | fixing t p mode f loads a =>
    rw [isAt] at stepped
    obtain ⟨⟨lm, outcome⟩, -, rfl⟩ := Option.map_eq_some_iff.mp stepped
    cases outcome with
    | next => exact accounts.relock lm
    | returned =>
      cases loads with
      | true => exact accounts.relock lm
      | false => exact (accounts.relock lm).track t p
    | threw => exact accounts.relock lm
  | reading t p f =>
    rw [isAt] at stepped
    cases choice with
    | proceed =>
      cases stepped
      exact accounts.readFrame f
    | _ => cases stepped
  | flushing t =>
    rw [isAt] at stepped
    cases choice with
    | proceed =>
      obtain ⟨-, rfl⟩ := locked_eq_some stepped
      exact accounts.flushes (BufferManager.flushPages_flushes s.bm t)
        (BufferManager.capacity_foldl BufferManager.capacity_flushPage _ _)
    | _ => cases stepped
  | completing | aborting =>
    rw [isAt] at stepped
    cases choice with
    | proceed =>
      obtain ⟨⟨lm, outcome⟩, -, rfl⟩ := Option.map_eq_some_iff.mp stepped
      cases outcome <;> exact accounts.relock lm
    | _ => cases stepped
  | discarding t =>
    rw [isAt] at stepped
    cases choice with
    | proceed =>
      obtain ⟨-, rfl⟩ := locked_eq_some stepped
      exact accounts.discardPages t
    | _ => cases stepped
  | ending t completes =>
    rw [isAt] at stepped
    cases choice with
    | proceed =>
      obtain ⟨-, rfl⟩ := locked_eq_some stepped
      exact accounts.keep (accounts.wf.congr rfl rfl rfl rfl) rfl rfl rfl
    | _ => cases stepped
  | flushingAll f =>
    rw [isAt] at stepped
    cases choice with
    | proceed =>
      dsimp only at stepped
      split at stepped
      · cases stepped
        exact accounts.flushes (BufferManager.flushFrame_flushes s.bm f).1
          (BufferManager.capacity_flushFrame s.bm f)
      · cases stepped
        exact accounts
    | _ => cases stepped

theorem accounts_step {action : Action τ α} (accounts : s.bm.Accounts pageCount)
    (stepped : s.step action = some s') : s'.bm.Accounts pageCount := by
  cases action with
  | fixPage u t p mode =>
    obtain ⟨-, -, rfl⟩ := section_eq_some stepped
    unfold State.startFix
    cases isMapped : s.bm.pageTable p with
    | some f => exact accounts
    | none =>
      cases maps : s.bm.mapPage t p with
      | none => exact accounts
      | some loaded => exact accounts.mapPage isMapped maps
  | write u f offset value =>
    obtain ⟨-, rfl⟩ := call_eq_some stepped
    exact accounts.keep (accounts.wf.writeData f offset value) rfl rfl rfl
  | unfixPage u f isDirty =>
    obtain ⟨-, rfl⟩ := call_eq_some stepped
    exact accounts.unfixPage f isDirty
  | flushPage u p =>
    obtain ⟨-, -, rfl⟩ := section_eq_some stepped
    exact accounts.flushes (BufferManager.flushPage_flushes s.bm p)
      (BufferManager.capacity_flushPage s.bm p)
  | flushPages u t =>
    obtain ⟨-, -, rfl⟩ := section_eq_some stepped
    exact accounts.flushes (BufferManager.flushPages_flushes s.bm t)
      (BufferManager.capacity_foldl BufferManager.capacity_flushPage _ _)
  | discardPage u p =>
    obtain ⟨-, -, rfl⟩ := section_eq_some stepped
    exact accounts.discardPage p
  | discardPages u t =>
    obtain ⟨-, -, rfl⟩ := section_eq_some stepped
    exact accounts.discardPages t
  | discardAllPages u =>
    obtain ⟨-, -, rfl⟩ := section_eq_some stepped
    exact accounts.discardAllPages
  | flushAllPages | transactionComplete | transactionAbort =>
    obtain ⟨-, rfl⟩ := call_eq_some stepped
    exact accounts
  | step u choice => exact accounts_nextSection accounts stepped

end Threads.State

namespace Threads

variable {τ α : Type*} [DecidableEq τ] [Zero α] {s : State τ α}

/-- Whatever the threads do, no frame is lost or shared, and `fix_page` of a page that is not in the pool
finds no free frame exactly while the pool has as many pages as frames. -/
theorem pool_partitioned {pageSize pageCount : Nat} {disk : Disk α} {actions : List (Action τ α)}
    (ran : Machine.run State.step (State.new pageSize pageCount disk) actions = some s) :
    s.bm.Partitioned ∧
      ∀ t p, s.bm.mapPage t p = none ↔ s.bm.mappedPages.ncard = pageCount := by
  have accounts : s.bm.Accounts pageCount :=
    Machine.reached (P := fun s : State τ α => s.bm.Accounts pageCount)
      (fun _ _ _ accounts stepped => State.accounts_step accounts stepped)
      (.new pageSize pageCount disk) ran
  refine ⟨accounts.tiles.partitioned accounts.wf, fun t p => ?_⟩
  have total := accounts.tiles.ncard_mappedPages accounts.wf
  rw [accounts.capacity] at total
  rw [BufferManager.mapPage_eq_none_iff, ← List.length_eq_zero_iff]
  omega

/-- The pool is full while thread 0 has page 0 and thread 1 waits for it with page 1 mapped. -/
theorem pool_partitioned_full : ∃ s : State (Fin 2) UInt8,
    Machine.run State.step twoFrames (.fixPage 0 1 0 .exclusive :: sections 0 7 ++
      [.fixPage 1 2 1 .shared]) = some s ∧ s.bm.mapPage 3 2 = none ∧ s.bm.mappedPages.ncard = 2 := by
  generalize isRun : Machine.run State.step twoFrames (.fixPage 0 1 0 .exclusive :: sections 0 7 ++
    [.fixPage 1 2 1 .shared]) = result
  have facts : result.map (fun s => s.bm.freeFrames) = some [] := by
    rw [← isRun]
    decide +kernel
  obtain ⟨s, isSome, empty⟩ := Option.map_eq_some_iff.mp facts
  have full : s.bm.mapPage 3 2 = none := BufferManager.mapPage_eq_none_iff.mpr empty
  exact ⟨s, isSome, full, ((pool_partitioned (isRun.trans isSome)).2 3 2).mp full⟩

end Threads

end BuzzDB.Locking
