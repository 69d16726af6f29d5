import BuzzDB.Locking.LockVectors

/-!
# Queries of the lock tables

`can_grant_lock` of a page's lock, and `has_lock`, `get_page_ids_for_txn` and
`has_exclusive_locks_on_page` of the lock manager.  The first reads the table of one page, the next two
only `txn_locks_`, and the last both.

They are exact as far as the two tables agree, and no upgrade has written into the table of another
page.  Where a lock has been granted and its `acquire_lock` is
still to record it, `has_exclusive_locks_on_page` may not see it yet, but it never reports one that
nobody has.
-/

namespace BuzzDB.Locking

/-- `can_grant_lock`. -/
def FrameLockManager.canGrantLock (f : FrameLockManager) (txnId : UInt64) (mode : LockMode) : Bool :=
  match f.grantedLocks.find? fun lock => lock.txnId = txnId with
  | some lock =>
    if mode = .shared ∨ lock.mode = .exclusive then true else f.grantedLocks.length = 1
  | none =>
    if f.grantedLocks.isEmpty then true
    else
      match mode with
      | .shared => !f.grantedLocks.any fun lock => lock.mode = .exclusive
      | .exclusive => false

namespace LockManager

variable (lm : LockManager)

/-- `has_lock`. -/
def hasLock (txnId pageId : UInt64) : Bool := pageId ∈ SetMap.get lm.txnLocks txnId

/-- `get_page_ids_for_txn`. -/
def getPageIdsForTxn (txnId : UInt64) : List UInt64 := SetMap.get lm.txnLocks txnId

/-- `has_exclusive_locks_on_page`. -/
def hasExclusiveLocksOnPage (pageId txnId : UInt64) : Bool :=
  lm.txnLocks.entries.any fun entry =>
    entry.1 ≠ txnId && pageId ∈ entry.2 && (lm.pageLocks pageId).hasExclusiveLock entry.1

end LockManager

variable {f : FrameLockManager} {lm : LockManager} {t p : UInt64} {mode : LockMode}

/-- Without an entry of its own, the transaction gets a lock that `grant_lock` can add. -/
theorem canGrantLock_of_absent (absent : Absent f.grantedLocks t) :
    f.canGrantLock t mode = f.canGrant t mode := by
  have none : (f.grantedLocks.find? fun lock => lock.txnId = t) = none :=
    List.find?_eq_none.mpr fun lock member own => absent lock member (of_decide_eq_true own)
  rw [FrameLockManager.canGrantLock.eq_def, none]
  cases mode with
  | exclusive =>
    cases empty : f.grantedLocks.isEmpty <;> simp [FrameLockManager.canGrant, empty]
  | shared =>
    dsimp only
    rw [FrameLockManager.canGrant, List.not_any_eq_all_not, Bool.eq_iff_iff]
    cases empty : f.grantedLocks with
    | nil => simp
    | cons lock locks =>
      rw [← empty, if_neg (by simp [empty]), List.all_eq_true, List.all_eq_true]
      refine forall₂_congr fun other member => ?_
      simp [absent other member]

/-- `can_grant_lock` is the test of `grant_lock`. -/
theorem canGrantLock_iff_granted :
    f.canGrantLock t mode = true ↔ ∃ f', f.grantLock t mode = .granted f' := by
  cases found : f.grantedLocks.find? fun lock => lock.txnId = t with
  | some lock =>
    rw [FrameLockManager.canGrantLock.eq_def, FrameLockManager.grantLock, found]
    dsimp only
    cases isMode : lock.mode <;> cases mode <;> simp
    -- A shared entry, and a request for the exclusive lock.
    split <;> simp [*]
  | none =>
    have absent : Absent f.grantedLocks t := fun lock member own =>
      List.find?_eq_none.mp found lock member (decide_eq_true own)
    rw [canGrantLock_of_absent absent, FrameLockManager.grantLock, found]
    dsimp only
    split <;> simp [*]

/-! ## What is in the way of a lock -/

/-- No lock of another transaction is in the way. -/
def Unopposed (granted : List Lock) (txnId : UInt64) (mode : LockMode) : Prop :=
  ∀ lock ∈ granted, lock.txnId ≠ txnId → mode = .shared ∧ lock.mode = .shared

theorem unopposed_of_absent (absent : Absent f.grantedLocks t) :
    f.canGrant t mode = true ↔ Unopposed f.grantedLocks t mode := by
  cases mode with
  | exclusive =>
    rw [FrameLockManager.canGrant, List.isEmpty_iff]
    constructor
    · intro empty lock member
      rw [empty] at member
      cases member
    · intro unopposed
      refine List.eq_nil_iff_forall_not_mem.mpr fun lock member => ?_
      cases (unopposed lock member (absent lock member)).1
  | shared =>
    rw [FrameLockManager.canGrant, List.all_eq_true]
    refine forall₂_congr fun lock member => ?_
    cases lock.mode <;> simp [absent lock member]

theorem Compatible.canGrantLock_iff (compatible : Compatible f.grantedLocks) :
    f.canGrantLock t mode = true ↔ Unopposed f.grantedLocks t mode := by
  cases found : f.grantedLocks.find? fun lock => lock.txnId = t with
  | none =>
    have absent : Absent f.grantedLocks t := fun lock member own =>
      List.find?_eq_none.mp found lock member (decide_eq_true own)
    rw [canGrantLock_of_absent absent, unopposed_of_absent absent]
  | some lock =>
    have member := List.mem_of_find?_eq_some found
    have own : lock.txnId = t := by
      have matched := List.find?_some found
      exact of_decide_eq_true matched
    have alone : f.grantedLocks = [lock] → Unopposed f.grantedLocks t mode := by
      intro only other inside different
      rw [only] at inside
      rw [List.mem_singleton.mp inside] at different
      exact absurd own different
    rw [FrameLockManager.canGrantLock.eq_def, found]
    dsimp only
    by_cases isExclusive : lock.mode = .exclusive
    · rw [if_pos (Or.inr isExclusive)]
      exact iff_of_true rfl (alone (compatible.alone lock member isExclusive))
    cases mode with
    | shared =>
      rw [if_pos (Or.inl rfl)]
      refine iff_of_true rfl fun other inside _ => ⟨rfl, ?_⟩
      cases otherMode : other.mode with
      | shared => rfl
      | exclusive =>
        have only := compatible.alone other inside otherMode
        rw [only, List.mem_singleton] at member
        exact absurd (member ▸ otherMode) isExclusive
    | exclusive =>
      rw [if_neg (by simp [isExclusive]), decide_eq_true_eq]
      constructor
      · intro one
        obtain ⟨only, isOnly⟩ := List.length_eq_one_iff.mp one
        rw [isOnly, List.mem_singleton] at member
        exact alone (member ▸ isOnly)
      · intro unopposed
        have mine : ∀ other ∈ f.grantedLocks, other.txnId = t := by
          intro other inside
          by_contra different
          cases (unopposed other inside different).1
        have ids : f.grantedLocks.map Lock.txnId = List.replicate f.grantedLocks.length t := by
          rw [List.eq_replicate_iff]
          refine ⟨List.length_map _, fun id inside => ?_⟩
          obtain ⟨other, isOther, rfl⟩ := List.mem_map.mp inside
          exact mine other isOther
        have few : f.grantedLocks.length ≤ 1 := by
          rw [← List.nodup_replicate (a := t), ← ids]
          exact compatible.single
        exact Nat.le_antisymm few (List.length_pos_of_mem member)

/-! ## Every reachable state -/

theorem hasExclusiveLocksOnPage_iff : lm.hasExclusiveLocksOnPage p t = true ↔
    ∃ u, u ≠ t ∧ p ∈ SetMap.get lm.txnLocks u ∧ Covers (lm.granted p) u .exclusive := by
  rw [LockManager.hasExclusiveLocksOnPage, List.any_eq_true]
  constructor
  · rintro ⟨entry, inside, found⟩
    simp only [Bool.and_eq_true, decide_eq_true_eq] at found
    obtain ⟨⟨different, member⟩, exclusive⟩ := found
    exact ⟨entry.1, different, SetMap.mem_get.mpr ⟨entry, inside, rfl, member⟩,
      hasExclusiveLock_iff.mp exclusive⟩
  · rintro ⟨u, different, recorded, exclusive⟩
    obtain ⟨entry, inside, rfl, member⟩ := SetMap.mem_get.mp recorded
    refine ⟨entry, inside, ?_⟩
    simp only [Bool.and_eq_true, decide_eq_true_eq]
    exact ⟨⟨different, member⟩, hasExclusiveLock_iff.mpr exclusive⟩

/-- The transaction has been granted the lock on the page and is still to record it. -/
def Pc.Records (pageId : UInt64) : Pc → Prop
  | .acquire p _ (.record _) => p = pageId
  | _ => False

/-- What the queries say in a state. -/
structure State.Answers (s : State) : Prop where
  canGrantLock : ∀ p t mode,
    ((s.lm.pageLocks p).canGrantLock t mode = true ↔ Unopposed (s.lm.granted p) t mode) ∧
      ((s.lm.pageLocks p).canGrantLock t mode = true ↔
        ∃ f, (s.lm.pageLocks p).grantLock t mode = .granted f)
  hasLock : ∀ t, s.pcs t = .idle → ∀ p,
    (s.lm.hasLock t p = true ↔ Covers (s.lm.granted p) t .shared) ∧
      (p ∈ s.lm.getPageIdsForTxn t ↔ Covers (s.lm.granted p) t .shared)
  reports : ∀ p t, s.lm.hasExclusiveLocksOnPage p t = true →
    ∃ u, u ≠ t ∧ Covers (s.lm.granted p) u .exclusive
  misses : ∀ p t u, u ≠ t → Covers (s.lm.granted p) u .exclusive →
    s.lm.hasExclusiveLocksOnPage p t = true ∨ (s.pcs u).Records p

theorem State.Consistent.answers {s : State} (consistent : s.Consistent) : s.Answers := by
  refine ⟨fun p t mode => ⟨(consistent.compatible p).canGrantLock_iff, canGrantLock_iff_granted⟩,
    fun t idle p => ?_, fun p t found => ?_, fun p t u different exclusive => ?_⟩
  · have exact := (State.recorded_idle idle).symm.trans (consistent.entries t p).symm
    exact ⟨decide_eq_true_iff.trans exact, exact⟩
  · obtain ⟨u, different, -, exclusive⟩ := hasExclusiveLocksOnPage_iff.mp found
    exact ⟨u, different, exclusive⟩
  · have recorded := (consistent.entries u p).mp exclusive.shared
    by_cases records : (s.pcs u).Records p
    · exact Or.inr records
    · refine Or.inl (hasExclusiveLocksOnPage_iff.mpr ⟨u, different, ?_, exclusive⟩)
      unfold State.Recorded at recorded
      split at recorded
      · rename_i q mode afterConflict isAt
        refine recorded.resolve_left fun same => records ?_
        rw [isAt]
        exact same.symm
      · exact recorded.2
      · exact recorded

/-- The queries are exact in every state that the calls reach, but for the locks that a call is still to
record, as long as every upgrade that goes on finds the vector of its page where it was. -/
theorem queries_exact {s : Placed} {actions : List (Action × GrowingVectors.Allocation)}
    (inBlock : Machine.Along Placed.step Placed.InBlock Placed.new actions)
    (ran : Machine.run Placed.step Placed.new actions = some s) : s.calls.Answers :=
  State.Consistent.answers (State.Consistent.run (Placed.run_calls inBlock ran))

/-- Transaction 1 has upgraded its lock on page 0. -/
theorem queries_exact_upgrade : ∃ s,
    Machine.run Placed.step Placed.new (upgradeInBlock 1 2) = some s ∧ s.calls.Answers ∧
      s.calls.lm.hasExclusiveLocksOnPage 0 2 = true ∧ s.calls.lm.getPageIdsForTxn 1 = [0] ∧
      (s.calls.lm.pageLocks 0).canGrantLock 2 .shared = false := by
  have inBlock : Machine.Along Placed.step Placed.InBlock Placed.new (upgradeInBlock 1 2) := by
    decide +kernel
  generalize isRun : Machine.run Placed.step Placed.new (upgradeInBlock 1 2) = result
  have facts : result.map (fun s => (s.calls.lm.hasExclusiveLocksOnPage 0 2,
      s.calls.lm.getPageIdsForTxn 1, (s.calls.lm.pageLocks 0).canGrantLock 2 .shared)) =
        some (true, [0], false) := by
    rw [← isRun]
    decide +kernel
  obtain ⟨s, isSome, answers⟩ := Option.map_eq_some_iff.mp facts
  simp only [Prod.mk.injEq] at answers
  exact ⟨s, isSome, queries_exact inBlock (isRun.trans isSome), answers⟩

end BuzzDB.Locking
