import BuzzDB.Locking.WholeCalls

/-!
# The two tables of locks

Between whole calls `txn_locks_` has a page for a transaction exactly where the lock of the
page has an entry for it, so `release_all_locks` finds every lock, and a page that nobody
has locked is granted at once.
-/

namespace BuzzDB.Locking.LockManager

/-- `txn_locks_` and the locks of the pages have the same entries. -/
def Agree (lm : LockManager) : Prop :=
  ∀ t p, p ∈ SetMap.get lm.txnLocks t ↔ Covers (lm.granted p) t .shared

variable {lm : LockManager} {t u p q : UInt64} {mode : LockMode} {afterConflict : Bool}

theorem Agree.new : new.Agree := by
  intro t p
  constructor
  · intro impossible
    cases impossible
  · rintro ⟨lock, impossible, _⟩
    cases impossible

theorem mem_add {m : SetMap UInt64 UInt64} :
    q ∈ SetMap.get (SetMap.add idLt m t p) u ↔ u = t ∧ q = p ∨ q ∈ SetMap.get m u := by
  rcases eq_or_ne u t with rfl | different
  · rw [SetMap.get_add_self, StdSet.mem_insert idLt_strict]
    simp
  · rw [SetMap.get_add_of_ne different]
    simp [different]

theorem mem_remove {m : SetMap UInt64 UInt64} :
    q ∈ SetMap.get (SetMap.remove m t p) u ↔ q ∈ SetMap.get m u ∧ ¬ (u = t ∧ q = p) := by
  rcases eq_or_ne u t with rfl | different
  · rw [SetMap.get_remove_self, StdSet.mem_erase]
    simp
  · rw [SetMap.get_remove_of_ne different]
    simp [different]

theorem mem_holders : u ∈ lm.holders t p ↔ u ≠ t ∧ p ∈ SetMap.get lm.txnLocks u := by
  rw [SetMap.mem_get, holders, List.mem_map]
  constructor
  · rintro ⟨entry, member, rfl⟩
    obtain ⟨inside, holds⟩ := List.mem_filter.mp member
    rw [Bool.and_eq_true, decide_eq_true_eq, decide_eq_true_eq] at holds
    exact ⟨holds.1, entry, inside, rfl, holds.2⟩
  · rintro ⟨other, entry, inside, rfl, holds⟩
    refine ⟨entry, List.mem_filter.mpr ⟨inside, ?_⟩, rfl⟩
    rw [Bool.and_eq_true, decide_eq_true_eq, decide_eq_true_eq]
    exact ⟨other, holds⟩

/-! ## Requests -/

theorem Agree.grantOrThrow (agree : lm.Agree) :
    (lm.grantOrThrow t p mode afterConflict).1.Agree := by
  unfold LockManager.grantOrThrow
  rcases grantLock_cases (lm.pageLocks p) t mode with
    ⟨f, isGranted, gains, covers⟩ | ⟨position, waits, _⟩ | ⟨f, waits, same, _⟩
  · rw [isGranted]
    intro u q
    change q ∈ SetMap.get (SetMap.add idLt lm.txnLocks t p) u ↔
      Covers ((lm.setFrame p f).granted q) u .shared
    rw [mem_add, agree u q]
    rcases eq_or_ne q p with rfl | elsewhere
    · rw [granted_setFrame_self]
      rcases eq_or_ne u t with rfl | different
      · exact ⟨fun _ => covers.shared, fun _ => Or.inl ⟨rfl, rfl⟩⟩
      · rw [gains.others different]
        exact or_iff_right fun own => different own.1
    · rw [granted_setFrame_of_ne lm f elsewhere]
      exact or_iff_right fun here => elsewhere here.2
  · rw [waits]
    exact agree
  · rw [waits]
    intro u q
    refine (agree u q).trans ?_
    change _ ↔ Covers ((lm.setFrame p (f.stopWaiting t)).granted q) u .shared
    rcases eq_or_ne q p with rfl | elsewhere
    · rw [granted_setFrame_self]
      exact same ▸ Iff.rfl
    · rw [granted_setFrame_of_ne lm _ elsewhere]

theorem Agree.acquireLock (agree : lm.Agree) (t p : UInt64) (mode : LockMode) :
    (lm.acquireLock t p mode).1.Agree := by
  simp only [LockManager.acquireLock]
  split
  · exact agree
  · split
    · exact agree.grantOrThrow
    · unfold LockManager.afterScan
      split
      · generalize LockManager.checkDeadlocks t lm.waitingGraph _ = result
        obtain ⟨hasDeadlock, graph⟩ := result
        have same : ({ lm with waitingGraph := graph } : LockManager).Agree := agree
        cases hasDeadlock with
        | true => exact same
        | false => exact same.grantOrThrow
      · exact agree.grantOrThrow

/-- A page that nobody has locked is granted. -/
theorem acquireLock_free (agree : lm.Agree) (free : lm.granted p = []) :
    (lm.acquireLock t p mode).2 = true := by
  have noLock : (lm.pageLocks p).hasLock t = false := by
    refine Bool.eq_false_iff.mpr fun has => ?_
    obtain ⟨lock, member, _⟩ := hasLock_iff.mp has
    exact absurd (free ▸ member : lock ∈ []) List.not_mem_nil
  have noHolder : lm.holders t p = [] := by
    refine List.eq_nil_iff_forall_not_mem.mpr fun u member => ?_
    obtain ⟨lock, inside, _⟩ := (agree u p).mp (mem_holders.mp member).2
    exact absurd (free ▸ inside : lock ∈ []) List.not_mem_nil
  have empty : (lm.pageLocks p).grantedLocks = [] := free
  have canGrant : (lm.pageLocks p).canGrant t mode = true := by
    cases mode with
    | shared => rw [FrameLockManager.canGrant, empty, List.all_nil]
    | exclusive => rw [FrameLockManager.canGrant, empty, List.isEmpty_nil]
  have granted : (lm.pageLocks p).grantLock t mode =
      .granted ((lm.pageLocks p).addLock t mode) := by
    rw [FrameLockManager.grantLock, empty]
    simp only [List.find?_nil, canGrant, if_true]
  simp only [LockManager.acquireLock, noLock, noHolder, LockManager.afterScan,
    LockManager.grantOrThrow, granted, List.any_nil, Bool.false_eq_true, false_and, if_false]

/-! ## Releases -/

theorem Agree.releaseLock (agree : lm.Agree) (t p : UInt64) : (lm.releaseLock t p).Agree := by
  intro u q
  change q ∈ SetMap.get (SetMap.remove lm.txnLocks t p) u ↔
    Covers ((lm.setFrame p ((lm.pageLocks p).releaseLock t)).granted q) u .shared
  rw [mem_remove, agree u q]
  rcases eq_or_ne q p with rfl | elsewhere
  · rw [granted_setFrame_self]
    rcases eq_or_ne u t with rfl | different
    · have absent := releaseLock_absent (lm.pageLocks q) u
      exact ⟨fun both => absurd ⟨rfl, rfl⟩ both.2, fun covers => absurd covers absent.not_covers⟩
    · rw [releaseLock_covers different]
      exact and_iff_left fun own => different own.1
  · rw [granted_setFrame_of_ne lm _ elsewhere]
    exact and_iff_left fun here => elsewhere here.2

theorem get_releaseLock (lm : LockManager) (t p : UInt64) :
    SetMap.get (lm.releaseLock t p).txnLocks t = StdSet.erase p (SetMap.get lm.txnLocks t) :=
  SetMap.get_remove_self lm.txnLocks t p

/-- `release_all_locks` keeps the tables in agreement and leaves no lock of the transaction. -/
theorem Agree.releaseAllLocks (agree : lm.Agree) (t : UInt64) :
    (lm.releaseAllLocks t).Agree ∧ ∀ p, Absent ((lm.releaseAllLocks t).granted p) t := by
  have releases : ∀ (pages : List UInt64) (lm : LockManager), lm.Agree →
      (pages.foldl (fun lm page => lm.releaseLock t page) lm).Agree ∧
        ∀ p, p ∈ SetMap.get (pages.foldl (fun lm page => lm.releaseLock t page) lm).txnLocks t →
          p ∈ SetMap.get lm.txnLocks t ∧ p ∉ pages := by
    intro pages
    induction pages with
    | nil => exact fun lm agree => ⟨agree, fun p member => ⟨member, List.not_mem_nil⟩⟩
    | cons page pages ih =>
      intro lm agree
      obtain ⟨agree', rest⟩ := ih (lm.releaseLock t page) (agree.releaseLock t page)
      refine ⟨agree', fun p member => ?_⟩
      obtain ⟨before, notLater⟩ := rest p member
      rw [get_releaseLock, StdSet.mem_erase] at before
      exact ⟨before.1, List.not_mem_cons_of_ne_of_not_mem before.2 notLater⟩
  obtain ⟨agree', left⟩ := releases (SetMap.get lm.txnLocks t) lm agree
  refine ⟨agree', fun p => absent_iff.mpr fun covers => ?_⟩
  obtain ⟨before, notThere⟩ := left p ((agree' t p).mpr covers)
  exact notThere before

end BuzzDB.Locking.LockManager
