import BuzzDB.Locking.BlockedHolders
import BuzzDB.Locking.FrameTable
import Mathlib.Algebra.Order.BigOperators.Group.Finset
import Mathlib.Data.Set.Finite.Basic

/-!
# Every call returns

`fix_page` keeps `pool_mutex_` while it asks for the lock, and the scan in `acquire_lock` keeps
the mutex of the lock manager.  Whoever keeps a mutex needs no other one that is kept: a wait in
`grant_lock` ends with its timeout, even where the holder of the lock that is waited for needs
`pool_mutex_` to complete.

So some call can always go on.  And no call goes on for ever: its sections are bounded by the pages
in `txn_locks_`, which no call but a request adds to.
-/

namespace BuzzDB.Locking

/-! ## Sections of the lock manager -/

/-- In the scan of `acquire_lock`. -/
def AcquirePc.scans : AcquirePc → Bool
  | .scan _ _ _ => true
  | _ => false

/-- More than the sections that a request may still have, where `txn_locks_` has at most `pages`
pages. -/
def AcquirePc.rank (pages : Nat) : AcquirePc → Nat
  | .record _ => 1
  | .wait _ | .waitUpgrade _ _ => 2
  | .grant _ => 3
  | .deadlock lockHolders => lockHolders.length + 4
  | .scan remaining lockHolders _ => 2 * remaining.length + lockHolders.length + 5
  | .beginScan => 2 * pages + 6
  | .canUpgrade => 2 * pages + 7
  | .hasExclusive => 2 * pages + 8
  | .hasLock => 2 * pages + 9
  | .getFrame => 2 * pages + 10

/-- The same for a release. -/
def ReleasePc.rank (pages : Nat) : ReleasePc → Nat
  | .snapshot => 3 * pages + 2
  | .getFrame pageIds => 3 * pageIds.length + 1
  | .frame _ pageIds => 3 * pageIds.length + 3
  | .forget _ pageIds => 3 * pageIds.length + 2

section Calls

variable {lm lm' : LockManager} {t p : UInt64} {mode : LockMode} {pc pc' : AcquirePc} {choice : Choice}
  {outcome : Outcome AcquirePc} {pages : Nat}

theorem LockManager.length_holders_le (lm : LockManager) (t p : UInt64) :
    (lm.holders t p).length ≤ SetMap.size lm.txnLocks := by
  rw [holders, List.length_map]
  refine SetMap.length_filter_le _ fun entry kept => ?_
  simp only [Bool.and_eq_true, decide_eq_true_eq] at kept
  exact List.length_pos_of_mem kept.2

theorem AcquirePc.rank_mono {more : Nat} (le : pages ≤ more) (pc : AcquirePc) :
    pc.rank pages ≤ pc.rank more := by
  cases pc <;> simp only [AcquirePc.rank] <;> omega

theorem ReleasePc.rank_mono {more : Nat} (le : pages ≤ more) (pc : ReleasePc) :
    pc.rank pages ≤ pc.rank more := by
  cases pc <;> simp only [ReleasePc.rank] <;> omega

/-- A section of a request lowers its rank, and adds nothing to `txn_locks_` but with the last one. -/
theorem AcquirePc.step_rank (ran : pc.step lm t p mode choice = some (lm', .next pc'))
    (few : SetMap.size lm.txnLocks ≤ pages) :
    pc'.rank pages < pc.rank pages ∧ lm'.txnLocks = lm.txnLocks := by
  cases AcquirePc.step_cases ran with
  | beginsScan =>
    have holders := lm.length_holders_le t p
    refine ⟨?_, rfl⟩
    simp only [AcquirePc.rank, List.length_nil]
    omega
  | @visits holder remaining lockHolders _ member =>
    have longer := StdSet.length_insert_le idLt holder lockHolders
    have shorter := List.length_erase_add_one member
    refine ⟨?_, rfl⟩
    simp only [AcquirePc.rank]
    omega
  | _ =>
    refine ⟨?_, rfl⟩
    simp only [AcquirePc.rank, List.length_cons, List.length_nil]
    omega

theorem AcquirePc.step_size (ran : pc.step lm t p mode choice = some (lm', outcome)) :
    SetMap.size lm'.txnLocks ≤ SetMap.size lm.txnLocks + 1 := by
  cases AcquirePc.step_cases ran with
  | records => exact SetMap.size_add_le _ t p
  | _ => exact Nat.le_succ _

/-- The mutex of the lock manager is kept by scans. -/
theorem AcquirePc.step_mutex (ran : pc.step lm t p mode choice = some (lm', outcome)) :
    lm'.mutex = none ∨ (∃ pc', outcome = .next pc' ∧ pc'.scans = true) ∨
      lm'.mutex = lm.mutex ∧ pc.scans = false := by
  cases AcquirePc.step_cases ran with
  | findsConflict | findsNone => exact Or.inl rfl
  | beginsScan | visits => exact Or.inr (Or.inl ⟨_, rfl, rfl⟩)
  | _ => exact Or.inr (Or.inr ⟨rfl, rfl⟩)

/-- A request can go on while nobody keeps the mutex of the lock manager, and its scan always can. -/
theorem AcquirePc.step_available (free : lm.mutex = none ∨ pc.scans = true) :
    ∃ choice, (pc.step lm t p mode choice).isSome = true := by
  have locked : pc.scans = false → ∀ result : LockManager × Outcome AcquirePc,
      (lm.locked result).isSome = true := by
    intro outside result
    rw [LockManager.locked, if_pos (free.resolve_right (Bool.eq_false_iff.mp outside))]
    rfl
  cases pc with
  | getFrame | beginScan | record => exact ⟨.proceed, locked rfl _⟩
  | scan remaining lockHolders conflict =>
    cases remaining with
    | nil => exact ⟨.proceed, rfl⟩
    | cons holder remaining =>
      refine ⟨.visit holder, ?_⟩
      simp [AcquirePc.step]
  | deadlock lockHolders =>
    cases lockHolders with
    | nil => exact ⟨.proceed, rfl⟩
    | cons holder lockHolders => exact ⟨.proceed, locked rfl _⟩
  | grant =>
    refine ⟨.proceed, ?_⟩
    simp only [AcquirePc.step]
    split <;> rfl
  | waitUpgrade =>
    cases goesOn : (lm.pageLocks p).upgradePred t with
    | true => exact ⟨.proceed, by simp [AcquirePc.step, goesOn]⟩
    | false => exact ⟨.timeout, by simp [AcquirePc.step, goesOn]⟩
  | wait =>
    cases goesOn : (lm.pageLocks p).waitPred t mode with
    | true => exact ⟨.proceed, by simp [AcquirePc.step, goesOn]⟩
    | false => exact ⟨.timeout, by simp [AcquirePc.step, goesOn]⟩
  | _ => exact ⟨.proceed, rfl⟩

variable {r r' : ReleasePc} {released : Outcome ReleasePc}

theorem ReleasePc.Does.rank (does : r.Does lm t lm' (.next r')) (few : SetMap.size lm.txnLocks ≤ pages) :
    r'.rank pages < r.rank pages := by
  have own := SetMap.length_get_le lm.txnLocks t
  cases does <;> simp only [ReleasePc.rank, List.length_cons] <;> omega

theorem ReleasePc.Does.size (does : r.Does lm t lm' released) :
    SetMap.size lm'.txnLocks ≤ SetMap.size lm.txnLocks := by
  cases does with
  | forget p => exact SetMap.size_remove_le _ t p
  | _ => exact Nat.le_refl _

theorem ReleasePc.Does.mutex (does : r.Does lm t lm' released) : lm'.mutex = lm.mutex := by
  cases does <;> rfl

theorem ReleasePc.step_available (free : lm.mutex = none) : (r.step lm t).isSome = true := by
  have locked : ∀ result : LockManager × Outcome ReleasePc, (lm.locked result).isSome = true := by
    intro result
    rw [LockManager.locked, if_pos free]
    rfl
  cases r with
  | snapshot | forget => exact locked _
  | getFrame pages =>
    cases pages with
    | nil => rfl
    | cons => exact locked _
  | frame => rfl

end Calls

/-! ## Sections of the buffer manager -/

namespace BufferManager

variable {α : Type*} {bm bm' : BufferManager α} {t p : UInt64} {f : Nat}

theorem discardPages_keeps (bm : BufferManager α) (t : UInt64) :
    (bm.discardPages t).lockManager = bm.lockManager ∧ (bm.discardPages t).capacity = bm.capacity := by
  have one : ∀ (bm : BufferManager α) (p : UInt64),
      (bm.discardPage p).lockManager = bm.lockManager ∧ (bm.discardPage p).capacity = bm.capacity := by
    intro bm p
    unfold BufferManager.discardPage
    split <;> exact ⟨rfl, rfl⟩
  have all : ∀ (pages : List UInt64) (bm : BufferManager α),
      (pages.foldl BufferManager.discardPage bm).lockManager = bm.lockManager := by
    intro pages
    induction pages with
    | nil => exact fun _ => rfl
    | cons p pages ih => exact fun bm => (ih _).trans (one bm p).1
  exact ⟨all _ bm, capacity_foldl (fun bm p => (one bm p).2) _ bm⟩

theorem mapPage_lockManager (maps : bm.mapPage t p = some (bm', f)) :
    bm'.lockManager = bm.lockManager := by
  unfold BufferManager.mapPage at maps
  split at maps
  · cases maps
  · cases maps
    rw [track_eq]
    rfl

end BufferManager

/-! ## Threads -/

namespace Threads

/-- More than the sections that a call may still have. -/
def Pc.rank (pages capacity : Nat) : Pc → Nat
  | .idle => 0
  | .reading _ _ _ | .ending _ _ => 1
  | .discarding _ => 2
  | .fixing _ _ _ _ _ pc | .completing _ pc => pc.rank pages + 1
  | .aborting _ pc => pc.rank pages + 2
  | .flushing _ => 3 * pages + 4
  | .flushingAll frameId => capacity - frameId + 1

theorem Pc.rank_mono {pages more : Nat} (le : pages ≤ more) (capacity : Nat) (pc : Pc) :
    pc.rank pages capacity ≤ pc.rank more capacity := by
  cases pc with
  | fixing t p mode f loads pc => exact Nat.add_le_add_right (pc.rank_mono le) 1
  | completing t pc => exact Nat.add_le_add_right (pc.rank_mono le) 1
  | aborting t pc => exact Nat.add_le_add_right (pc.rank_mono le) 2
  | flushing => exact Nat.add_le_add_right (Nat.mul_le_mul_left 3 le) 4
  | _ => exact Nat.le_refl _

/-- The next section of a call that is running. -/
def Action.IsSection {τ α : Type*} : Action τ α → Prop
  | .step _ _ => True
  | _ => False

namespace State

variable {τ α : Type*}

/-- The pages in `txn_locks_`, and one for the call that may add another. -/
def pages (s : State τ α) : Nat :=
  SetMap.size s.bm.lockManager.txnLocks + if s.poolMutex.isSome then 1 else 0

/-- More than the sections that the calls of the threads in `busy` may still have. -/
def distance (busy : Finset τ) (s : State τ α) : Nat :=
  ∑ u ∈ busy, (s.pcs u).rank s.pages s.bm.capacity

/-- Every mutex that is kept is kept by a running call. -/
structure Kept (s : State τ α) : Prop where
  pool : ∀ u, s.poolMutex = some u → (s.pcs u).locks = true
  lockManager : s.bm.lockManager.mutex ≠ none → ∃ u, (s.pcs u).scans = true

variable [DecidableEq τ] [Zero α]

/-- The sections that the running calls still have, in any order, are bounded, and as long as a call is
running some call can go on.  Behind the last section no mutex is kept. -/
def Returns (s : State τ α) : Prop :=
  ∃ bound, ∀ sections s', (∀ action ∈ sections, Action.IsSection action) →
    Machine.run State.step s sections = some s' →
      sections.length ≤ bound ∧
        ((∃ u choice, (s'.nextSection u choice).isSome = true) ∨
          (∀ u, s'.pcs u = .idle) ∧ s'.poolMutex = none ∧ s'.bm.lockManager.mutex = none)

/-- What an action of thread `u`, which ends at `pc`, does to the mutexes. -/
structure Passes (s : State τ α) (u : τ) (pc : Pc) (s' : State τ α) : Prop where
  pcs : s'.pcs = Function.update s.pcs u pc
  pool : s'.poolMutex = none ∨ s'.poolMutex = some u ∧ pc.locks = true ∨
    s'.poolMutex = s.poolMutex ∧ (s.pcs u).locks = pc.locks
  lockManager : s'.bm.lockManager.mutex = none ∨ pc.scans = true ∨
    s'.bm.lockManager.mutex = s.bm.lockManager.mutex ∧ (s.pcs u).scans = false

/-- A section of a running call brings it nearer to its end, and the others no farther from theirs. -/
structure Nears (s : State τ α) (u : τ) (pc : Pc) (s' : State τ α) : Prop where
  rank : pc.rank s.pages s.bm.capacity < (s.pcs u).rank s.pages s.bm.capacity
  pages : s'.pages ≤ s.pages
  capacity : s'.bm.capacity = s.bm.capacity

variable {s s' : State τ α} {u : τ} {pc : Pc} {choice : Choice}

omit [DecidableEq τ] in
theorem Kept.new (pageSize pageCount : Nat) (disk : Disk α) :
    (State.new pageSize pageCount disk : State τ α).Kept :=
  ⟨nofun, fun impossible => absurd rfl impossible⟩

omit [Zero α] in
theorem Kept.passes (kept : s.Kept) (passes : s.Passes u pc s') : s'.Kept where
  pool v taken := by
    rw [passes.pcs]
    rcases passes.pool with free | ⟨mine, locks⟩ | ⟨same, locks⟩
    · rw [free] at taken
      cases taken
    · obtain rfl := Option.some.inj (mine.symm.trans taken)
      rwa [Function.update_self]
    · have before := kept.pool v (same.symm.trans taken)
      rcases eq_or_ne v u with rfl | different
      · rw [Function.update_self, ← locks]
        exact before
      · rwa [Function.update_of_ne different]
  lockManager taken := by
    rw [passes.pcs]
    rcases passes.lockManager with free | scans | ⟨same, outside⟩
    · exact absurd free taken
    · exact ⟨u, by rwa [Function.update_self]⟩
    · obtain ⟨v, scans⟩ := kept.lockManager (same ▸ taken)
      have different : v ≠ u := by
        rintro rfl
        rw [outside] at scans
        cases scans
      exact ⟨v, by rwa [Function.update_of_ne different]⟩

/-! ## What a section does -/

theorem Pc.scans_fixing {t p : UInt64} {mode : LockMode} {f : Nat} {loads : Bool} {a : AcquirePc} :
    (Pc.fixing t p mode f loads a).scans = a.scans := by
  cases a <;> rfl

omit [Zero α] in
/-- A section of the request of `fix_page`. -/
theorem acquired_passes {t p : UInt64} {mode : LockMode} {f : Nat} {loads : Bool} {a : AcquirePc}
    {lm : LockManager} {outcome : Outcome AcquirePc} (isAt : s.pcs u = .fixing t p mode f loads a)
    (ran : a.step s.bm.lockManager t p mode choice = some (lm, outcome)) :
    ∃ pc, s.Passes u pc (s.acquired u t p mode f loads lm outcome) ∧
      (s.Owns → s.Nears u pc (s.acquired u t p mode f loads lm outcome)) := by
  have inside : (s.pcs u).locks = true := isAt ▸ rfl
  have outside : (s.pcs u).scans = a.scans := isAt ▸ Pc.scans_fixing
  have mutex := AcquirePc.step_mutex ran
  have size := AcquirePc.step_size ran
  have here : s.Owns → s.pages = SetMap.size s.bm.lockManager.txnLocks + 1 := by
    intro owns
    rw [State.pages, owns u inside]
    rfl
  have ends : ∀ s' : State τ α, ∀ pc : Pc, s'.poolMutex = none → s'.bm.lockManager.txnLocks = lm.txnLocks →
      s'.bm.capacity = s.bm.capacity → pc.rank s.pages s.bm.capacity ≤ 1 → s.Owns → s.Nears u pc s' := by
    intro s' pc free tables capacity few owns
    refine ⟨?_, ?_, capacity⟩
    · have positive : 0 < a.rank s.pages := by
        cases a <;> exact Nat.succ_pos _
      rw [isAt]
      change _ < a.rank s.pages + 1
      omega
    · rw [here owns, State.pages, free, tables]
      exact size
  cases outcome with
  | next next =>
    refine ⟨.fixing t p mode f loads next, ⟨rfl, Or.inr (Or.inr ⟨rfl, inside⟩), ?_⟩, fun owns => ?_⟩
    · rcases mutex with free | ⟨pc', same, scans⟩ | ⟨same, still⟩
      · exact Or.inl free
      · cases same
        exact Or.inr (Or.inl (Pc.scans_fixing.trans scans))
      · exact Or.inr (Or.inr ⟨same, outside.trans still⟩)
    · obtain ⟨lower, tables⟩ := AcquirePc.step_rank ran
        (show SetMap.size s.bm.lockManager.txnLocks ≤ s.pages from Nat.le_add_right _ _)
      refine ⟨?_, ?_, rfl⟩
      · rw [isAt]
        exact Nat.add_lt_add_right lower 1
      · change SetMap.size lm.txnLocks + _ ≤ _
        rw [tables]
        exact Nat.le_refl _
  | returned =>
    have unlocked : lm.mutex = none ∨ lm.mutex = s.bm.lockManager.mutex ∧ a.scans = false := by
      rcases mutex with free | ⟨_, impossible, _⟩ | same
      · exact Or.inl free
      · cases impossible
      · exact Or.inr same
    cases loads with
    | true =>
      refine ⟨.reading t p f, ⟨rfl, Or.inl rfl, ?_⟩, ends _ _ rfl rfl rfl (Nat.le_refl 1)⟩
      exact unlocked.imp_right fun both => Or.inr ⟨both.1, outside.trans both.2⟩
    | false =>
      refine ⟨.idle, ⟨rfl, Or.inl rfl, ?_⟩, ends _ _ rfl ?_ ?_ (Nat.zero_le 1)⟩
      · refine unlocked.imp (fun free => ?_) fun both => Or.inr ⟨?_, outside.trans both.2⟩
        · change (BufferManager.track _ t p).lockManager.mutex = none
          rwa [BufferManager.track_eq]
        · change (BufferManager.track _ t p).lockManager.mutex = _
          rw [BufferManager.track_eq]
          exact both.1
      · change (BufferManager.track _ t p).lockManager.txnLocks = _
        rw [BufferManager.track_eq]
      · change (BufferManager.track _ t p).capacity = _
        rw [BufferManager.track_eq]
  | threw =>
    refine ⟨.idle, ⟨rfl, Or.inl rfl, ?_⟩, ends _ _ rfl rfl rfl (Nat.zero_le 1)⟩
    rcases mutex with free | ⟨_, impossible, _⟩ | ⟨same, still⟩
    · exact Or.inl free
    · cases impossible
    · exact Or.inr (Or.inr ⟨same, outside.trans still⟩)

omit [Zero α] in
/-- A section that takes no mutex over its end, and does not ask for a lock. -/
theorem Passes.quiet (pcs : s'.pcs = Function.update s.pcs u pc) (poolMutex : s'.poolMutex = s.poolMutex)
    (outside : (s.pcs u).locks = false) (still : pc.locks = false)
    (mutex : s'.bm.lockManager.mutex = s.bm.lockManager.mutex) : s.Passes u pc s' := by
  refine ⟨pcs, Or.inr (Or.inr ⟨poolMutex, outside.trans still.symm⟩), Or.inr (Or.inr ⟨mutex, ?_⟩)⟩
  cases isAt : s.pcs u with
  | fixing =>
    rw [isAt] at outside
    cases outside
  | _ => rfl

omit [DecidableEq τ] [Zero α] in
theorem Nears.quiet (poolMutex : s'.poolMutex = s.poolMutex)
    (size : SetMap.size s'.bm.lockManager.txnLocks ≤ SetMap.size s.bm.lockManager.txnLocks)
    (capacity : s'.bm.capacity = s.bm.capacity)
    (rank : pc.rank s.pages s.bm.capacity < (s.pcs u).rank s.pages s.bm.capacity) : s.Nears u pc s' := by
  refine ⟨rank, ?_, capacity⟩
  rw [State.pages, State.pages, poolMutex]
  exact Nat.add_le_add_right size _

omit [Zero α] in
theorem released_passes {lm : LockManager} {t : UInt64} {behind : Pc} {r : ReleasePc}
    {calls : ReleasePc → Pc} {outcome : Outcome ReleasePc} {more : Nat} (isAt : s.pcs u = calls r)
    (outside : ∀ next, (calls next).locks = false) (ends : behind.locks = false)
    (rank : ∀ next, (calls next).rank s.pages s.bm.capacity = next.rank s.pages + more)
    (few : behind.rank s.pages s.bm.capacity ≤ more)
    (ran : r.step s.bm.lockManager t = some (lm, outcome)) :
    ∃ pc, s.Passes u pc (s.released u calls behind lm outcome) ∧
      (s.Owns → s.Nears u pc (s.released u calls behind lm outcome)) := by
  have does := ReleasePc.step_does ran
  have positive : 0 < r.rank s.pages := by
    cases r <;> exact Nat.succ_pos _
  have before : (s.pcs u).locks = false := isAt ▸ outside r
  have last : behind.rank s.pages s.bm.capacity < (s.pcs u).rank s.pages s.bm.capacity := by
    rw [isAt, rank]
    omega
  cases outcome with
  | next next =>
    refine ⟨calls next, .quiet rfl rfl before (outside next) does.mutex, fun _ => ?_⟩
    refine .quiet rfl does.size rfl ?_
    have lower : next.rank s.pages < r.rank s.pages := does.rank (Nat.le_add_right _ _)
    rw [isAt, rank, rank]
    exact Nat.add_lt_add_right lower more
  | returned => exact ⟨behind, .quiet rfl rfl before ends does.mutex, fun _ => .quiet rfl does.size rfl last⟩
  | threw => cases does

/-- The sections of all calls. -/
theorem nextSection_passes (stepped : s.nextSection u choice = some s') :
    ∃ pc, s.Passes u pc s' ∧ (s.Owns → s.Nears u pc s') := by
  unfold State.nextSection at stepped
  cases isAt : s.pcs u with
  | idle => rw [isAt] at stepped; cases stepped
  | fixing t p mode f loads a =>
    rw [isAt] at stepped
    obtain ⟨result, ran, rfl⟩ := Option.map_eq_some_iff.mp stepped
    exact acquired_passes isAt ran
  | reading t p f =>
    rw [isAt] at stepped
    cases choice with
    | proceed =>
      cases stepped
      refine ⟨.idle, .quiet rfl rfl (isAt ▸ rfl) rfl rfl, fun _ => .quiet rfl (Nat.le_refl _) rfl ?_⟩
      rw [isAt]
      exact Nat.one_pos
    | _ => cases stepped
  | flushing t =>
    rw [isAt] at stepped
    cases choice with
    | proceed =>
      obtain ⟨_, rfl⟩ := locked_eq_some stepped
      have same := (BufferManager.flushPages_flushes s.bm t).lockManager
      refine ⟨.completing t .snapshot, .quiet rfl rfl (isAt ▸ rfl) rfl (congrArg LockManager.mutex same),
        fun _ => .quiet rfl (Nat.le_of_eq (congrArg (fun lm => SetMap.size lm.txnLocks) same)) ?_ ?_⟩
      · exact BufferManager.capacity_foldl BufferManager.capacity_flushPage _ _
      · rw [isAt]
        exact Nat.lt_succ_self _
    | _ => cases stepped
  | completing t r =>
    rw [isAt] at stepped
    cases choice with
    | proceed =>
      obtain ⟨result, ran, rfl⟩ := Option.map_eq_some_iff.mp stepped
      exact released_passes isAt (fun _ => rfl) rfl (fun _ => rfl) (Nat.le_refl 1) ran
    | _ => cases stepped
  | aborting t r =>
    rw [isAt] at stepped
    cases choice with
    | proceed =>
      obtain ⟨result, ran, rfl⟩ := Option.map_eq_some_iff.mp stepped
      exact released_passes isAt (fun _ => rfl) rfl (fun _ => rfl) (Nat.le_refl 2) ran
    | _ => cases stepped
  | discarding t =>
    rw [isAt] at stepped
    cases choice with
    | proceed =>
      obtain ⟨_, rfl⟩ := locked_eq_some stepped
      obtain ⟨same, capacity⟩ := BufferManager.discardPages_keeps s.bm t
      refine ⟨.ending t false, .quiet rfl rfl (isAt ▸ rfl) rfl (congrArg LockManager.mutex same),
        fun _ => .quiet rfl (Nat.le_of_eq (congrArg (fun lm => SetMap.size lm.txnLocks) same)) capacity ?_⟩
      rw [isAt]
      exact Nat.lt_succ_self 1
    | _ => cases stepped
  | ending t completes =>
    rw [isAt] at stepped
    cases choice with
    | proceed =>
      obtain ⟨_, rfl⟩ := locked_eq_some stepped
      refine ⟨.idle, .quiet rfl rfl (isAt ▸ rfl) rfl rfl, fun _ => .quiet rfl (Nat.le_refl _) rfl ?_⟩
      rw [isAt]
      exact Nat.one_pos
    | _ => cases stepped
  | flushingAll f =>
    rw [isAt] at stepped
    cases choice with
    | proceed =>
      dsimp only at stepped
      split at stepped
      · rename_i inside
        cases stepped
        have same := (BufferManager.flushFrame_flushes s.bm f).1.lockManager
        refine ⟨.flushingAll (f + 1), .quiet rfl rfl (isAt ▸ rfl) rfl (congrArg LockManager.mutex same),
          fun _ => .quiet rfl (Nat.le_of_eq (congrArg (fun lm => SetMap.size lm.txnLocks) same))
            (BufferManager.capacity_flushFrame s.bm f) ?_⟩
        rw [isAt]
        change s.bm.capacity - (f + 1) + 1 < s.bm.capacity - f + 1
        omega
      · cases stepped
        refine ⟨.idle, .quiet rfl rfl (isAt ▸ rfl) rfl rfl, fun _ => .quiet rfl (Nat.le_refl _) rfl ?_⟩
        rw [isAt]
        exact Nat.succ_pos _
    | _ => cases stepped

omit [Zero α] in
/-- An action of a thread between its calls. -/
theorem Passes.idle (isAt : s.pcs u = .idle) (pcs : s'.pcs = s.pcs) (poolMutex : s'.poolMutex = s.poolMutex)
    (same : s'.bm.lockManager = s.bm.lockManager) : s.Passes u .idle s' := by
  refine .quiet ?_ poolMutex (isAt ▸ rfl) rfl (congrArg LockManager.mutex same)
  rw [pcs, ← isAt, Function.update_eq_self]

omit [Zero α] in
theorem startFix_passes {t p : UInt64} {mode : LockMode} (isAt : s.pcs u = .idle) :
    ∃ pc, s.Passes u pc (s.startFix u t p mode) := by
  have outside : (s.pcs u).scans = false := isAt ▸ rfl
  unfold State.startFix
  split
  · exact ⟨_, rfl, Or.inr (Or.inl ⟨rfl, rfl⟩), Or.inr (Or.inr ⟨rfl, outside⟩)⟩
  · split
    · exact ⟨.idle, .idle isAt rfl rfl rfl⟩
    · rename_i bm f maps
      have same := BufferManager.mapPage_lockManager maps
      exact ⟨_, rfl, Or.inr (Or.inl ⟨rfl, rfl⟩),
        Or.inr (Or.inr ⟨congrArg LockManager.mutex same, outside⟩)⟩

theorem step_passes {action : Action τ α} (stepped : s.step action = some s') :
    ∃ u pc, s.Passes u pc s' := by
  cases action with
  | fixPage u t p mode =>
    obtain ⟨idle, _, rfl⟩ := section_eq_some stepped
    exact ⟨u, startFix_passes idle⟩
  | write u =>
    obtain ⟨idle, rfl⟩ := call_eq_some stepped
    exact ⟨u, .idle, .idle idle rfl rfl rfl⟩
  | unfixPage u f isDirty =>
    obtain ⟨idle, rfl⟩ := call_eq_some stepped
    have same : (s.bm.unfixPage f isDirty).lockManager = s.bm.lockManager := by
      unfold BufferManager.unfixPage
      split <;> rfl
    exact ⟨u, .idle, .idle idle rfl rfl same⟩
  | flushPage u p =>
    obtain ⟨idle, _, rfl⟩ := section_eq_some stepped
    exact ⟨u, .idle, .idle idle rfl rfl (BufferManager.flushPage_flushes s.bm p).lockManager⟩
  | flushPages u t =>
    obtain ⟨idle, _, rfl⟩ := section_eq_some stepped
    exact ⟨u, .idle, .idle idle rfl rfl (BufferManager.flushPages_flushes s.bm t).lockManager⟩
  | discardPage u p =>
    obtain ⟨idle, _, rfl⟩ := section_eq_some stepped
    have same : (s.bm.discardPage p).lockManager = s.bm.lockManager := by
      unfold BufferManager.discardPage
      split <;> rfl
    exact ⟨u, .idle, .idle idle rfl rfl same⟩
  | discardPages u t =>
    obtain ⟨idle, _, rfl⟩ := section_eq_some stepped
    exact ⟨u, .idle, .idle idle rfl rfl (BufferManager.discardPages_keeps s.bm t).1⟩
  | discardAllPages u =>
    obtain ⟨idle, _, rfl⟩ := section_eq_some stepped
    exact ⟨u, .idle, .idle idle rfl rfl rfl⟩
  | flushAllPages u | transactionComplete u | transactionAbort u =>
    obtain ⟨idle, rfl⟩ := call_eq_some stepped
    exact ⟨u, _, .quiet rfl rfl (idle ▸ rfl) rfl rfl⟩
  | step u choice =>
    obtain ⟨pc, passes, _⟩ := nextSection_passes stepped
    exact ⟨u, pc, passes⟩

/-! ## Some call can go on -/

/-- A running call that has the mutexes that are taken. -/
theorem available (running : s.pcs u ≠ .idle)
    (pool : s.poolMutex = none ∨ (s.pcs u).locks = true)
    (lockManager : s.bm.lockManager.mutex = none ∨ (s.pcs u).scans = true) :
    ∃ choice, (s.nextSection u choice).isSome = true := by
  unfold State.nextSection
  cases isAt : s.pcs u with
  | idle => exact absurd isAt running
  | fixing t p mode f loads a =>
    rw [isAt, Pc.scans_fixing] at lockManager
    obtain ⟨choice, goesOn⟩ : ∃ choice, (a.step s.bm.lockManager t p mode choice).isSome = true :=
      AcquirePc.step_available lockManager
    exact ⟨choice, Option.isSome_map.trans goesOn⟩
  | reading => exact ⟨.proceed, rfl⟩
  | flushing | discarding | ending =>
    rw [isAt] at pool
    have free : s.poolMutex = none := pool.resolve_right Bool.false_ne_true
    refine ⟨.proceed, ?_⟩
    simp only [State.locked, free]
    rfl
  | completing t r | aborting t r =>
    rw [isAt] at lockManager
    have goesOn : (r.step s.bm.lockManager t).isSome = true :=
      ReleasePc.step_available (lockManager.resolve_right Bool.false_ne_true)
    exact ⟨.proceed, Option.isSome_map.trans goesOn⟩
  | flushingAll f =>
    refine ⟨.proceed, ?_⟩
    dsimp only
    split <;> rfl

/-- Whoever keeps a mutex can go on, and where none is kept everybody can. -/
theorem Kept.available (kept : s.Kept) {u : τ} (running : s.pcs u ≠ .idle) :
    ∃ u choice, (s.nextSection u choice).isSome = true := by
  by_cases lmFree : s.bm.lockManager.mutex = none
  · cases taken : s.poolMutex with
    | none => exact ⟨u, State.available running (Or.inl taken) (Or.inl lmFree)⟩
    | some v =>
      have locks := kept.pool v taken
      have runs : s.pcs v ≠ .idle := by
        intro idle
        rw [idle] at locks
        cases locks
      exact ⟨v, State.available runs (Or.inr locks) (Or.inl lmFree)⟩
  · obtain ⟨v, scans⟩ := kept.lockManager lmFree
    have locks : (s.pcs v).locks = true := by
      cases isAt : s.pcs v with
      | fixing => rfl
      | _ =>
        rw [isAt] at scans
        cases scans
    have runs : s.pcs v ≠ .idle := by
      intro idle
      rw [idle] at scans
      cases scans
    exact ⟨v, State.available runs (Or.inr locks) (Or.inr scans)⟩

/-! ## No call goes on for ever -/

/-- The running calls are those of the threads in `busy`. -/
def Busy (busy : Finset τ) (s : State τ α) : Prop := ∀ u, s.pcs u ≠ .idle → u ∈ busy

omit [Zero α] in
theorem Busy.passes {busy : Finset τ} (isBusy : s.Busy busy) (passes : s.Passes u pc s') :
    s'.Busy (insert u busy) := by
  intro v running
  rw [passes.pcs] at running
  rcases eq_or_ne v u with rfl | different
  · exact Finset.mem_insert_self v busy
  · rw [Function.update_of_ne different] at running
    exact Finset.mem_insert_of_mem (isBusy v running)

omit [Zero α] in
theorem Nears.distance_lt {busy : Finset τ} (nears : s.Nears u pc s') (passes : s.Passes u pc s')
    (inside : u ∈ busy) : s'.distance busy < s.distance busy := by
  have mine : s'.pcs u = pc := by
    rw [passes.pcs, Function.update_self]
  have lower : (s'.pcs u).rank s'.pages s'.bm.capacity < (s.pcs u).rank s.pages s.bm.capacity := by
    rw [mine, nears.capacity]
    exact Nat.lt_of_le_of_lt (pc.rank_mono nears.pages _) nears.rank
  refine Finset.sum_lt_sum (fun v _ => ?_) ⟨u, inside, lower⟩
  rcases eq_or_ne v u with rfl | different
  · exact Nat.le_of_lt lower
  · rw [passes.pcs, Function.update_of_ne different, nears.capacity]
    exact Pc.rank_mono nears.pages _ _

/-- What the sections of the running calls keep. -/
structure Running (busy : Finset τ) (s : State τ α) : Prop where
  owns : s.Owns
  kept : s.Kept
  busy : s.Busy busy

theorem Running.section {busy : Finset τ} {action : Action τ α} (running : s.Running busy)
    (isSection : action.IsSection) (stepped : s.step action = some s') :
    s'.Running busy ∧ s'.distance busy < s.distance busy := by
  cases action with
  | step u choice =>
    obtain ⟨pc, passes, nears⟩ := nextSection_passes stepped
    have inside : u ∈ busy := by
      apply running.busy u
      intro idle
      change s.nextSection u choice = some s' at stepped
      unfold State.nextSection at stepped
      rw [idle] at stepped
      cases stepped
    have isBusy := running.busy.passes passes
    rw [Finset.insert_eq_self.mpr inside] at isBusy
    exact ⟨⟨running.owns.step stepped, running.kept.passes passes, isBusy⟩,
      (nears running.owns).distance_lt passes inside⟩
  | _ => cases isSection

end State

variable {τ α : Type*} [DecidableEq τ] [Zero α] {s : State τ α}

/-- Whatever has been called, all calls that are running return. -/
theorem calls_return {pageSize pageCount : Nat} {disk : Disk α} {actions : List (Action τ α)}
    (ran : Machine.run State.step (State.new pageSize pageCount disk) actions = some s) :
    s.Returns := by
  have reached : ∃ busy, s.Running busy := by
    refine Machine.reached (P := fun s => ∃ busy, State.Running busy s) ?_
      ⟨∅, .new pageSize pageCount disk, .new pageSize pageCount disk, fun _ runs => absurd rfl runs⟩ ran
    rintro s action s' ⟨busy, running⟩ stepped
    obtain ⟨u, pc, passes⟩ := State.step_passes stepped
    exact ⟨_, running.owns.step stepped, running.kept.passes passes, running.busy.passes passes⟩
  obtain ⟨busy, running⟩ := reached
  refine ⟨s.distance busy, fun sections s' areSections goesOn => ?_⟩
  obtain ⟨atEnd, bounded⟩ := Machine.length_le_rank (State.distance busy)
    (fun _ _ _ running isSection stepped => State.Running.section running isSection stepped) running
    areSections goesOn
  refine ⟨Nat.le_trans (Nat.le_add_right _ _) bounded, ?_⟩
  by_cases runs : ∃ u, s'.pcs u ≠ .idle
  · obtain ⟨u, runs⟩ := runs
    exact Or.inl (atEnd.kept.available runs)
  · have idle : ∀ u, s'.pcs u = .idle := fun u => not_not.mp (not_exists.mp runs u)
    refine Or.inr ⟨idle, ?_, ?_⟩
    · by_contra taken
      obtain ⟨u, taken⟩ := Option.ne_none_iff_exists'.mp taken
      have locks := atEnd.kept.pool u taken
      rw [idle u] at locks
      cases locks
    · by_contra taken
      obtain ⟨u, scans⟩ := atEnd.kept.lockManager taken
      rw [idle u] at scans
      cases scans

/-- Transaction 2 waits for the page of transaction 1 and keeps `pool_mutex_`, which the call that
completes transaction 1 needs. -/
theorem calls_return_waiting : ∃ s, Machine.run State.step twoFrames
      (.fixPage 0 1 0 .exclusive :: sections 0 7 ++ requests 1 2 .shared 1 ++ sections 1 1 ++
        [.transactionComplete 0 1]) = some s ∧
    s.pcs 0 = .flushing 1 ∧ s.poolMutex = some 1 ∧ s.Returns := by
  generalize isRun : Machine.run State.step twoFrames (.fixPage 0 1 0 .exclusive :: sections 0 7 ++
    requests 1 2 .shared 1 ++ sections 1 1 ++ [.transactionComplete 0 1]) = result
  have facts : result.map (fun s => (s.pcs 0, s.poolMutex)) = some (.flushing 1, some 1) := by
    rw [← isRun]
    decide +kernel
  obtain ⟨s, isSome, both⟩ := Option.map_eq_some_iff.mp facts
  rw [Prod.mk.injEq] at both
  exact ⟨s, isSome, both.1, both.2, calls_return (isRun.trans isSome)⟩

end Threads

end BuzzDB.Locking
