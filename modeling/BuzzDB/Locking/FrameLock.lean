import Mathlib.Data.List.Basic
import Mathlib.Data.List.Nodup

/-!
# The lock of a page

`FrameLockManager` of lab 3.  Every function here is one critical section of its mutex;
`grant_lock` has one up to its wait and one behind it.  A wait ends when its predicate
holds, or with the timeout when it does not.

The waiting upgrade keeps a reference to its entry: `existing_lock` is the position in
`granted_locks_` that the entry had before the wait.  The reference is one into the memory of the
vector, and the position is where it points as long as no grant moves the vector.
-/

namespace BuzzDB.Locking

/-- `LockMode`. -/
inductive LockMode
  | shared
  | exclusive
  deriving DecidableEq

/-- `Lock`. -/
structure Lock where
  txnId : UInt64
  mode : LockMode
  deriving DecidableEq

/-- `FrameLockManager`. -/
structure FrameLockManager where
  grantedLocks : List Lock := []
  waitingLocks : List Lock := []
  deriving DecidableEq

namespace FrameLockManager

variable (f : FrameLockManager) (txnId : UInt64) (mode : LockMode)

/-- `has_lock`. -/
def hasLock : Bool := f.grantedLocks.any fun lock => lock.txnId = txnId

/-- `has_exclusive_lock`. -/
def hasExclusiveLock : Bool :=
  f.grantedLocks.any fun lock => lock.txnId = txnId && lock.mode = .exclusive

/-- `has_shared_lock`. -/
def hasSharedLock : Bool :=
  f.grantedLocks.any fun lock => lock.txnId = txnId && lock.mode = .shared

/-- `can_upgrade_lock`. -/
def canUpgradeLock : Bool := f.hasSharedLock txnId && f.grantedLocks.length = 1

/-- `existing_lock.mode = LockMode::EXCLUSIVE`.  A position behind the end of the vector is not in
the table. -/
def setExclusive (existingLock : Nat) : FrameLockManager :=
  { f with
    grantedLocks := f.grantedLocks.modify existingLock fun lock => { lock with mode := .exclusive } }

/-- Add an entry, unless the transaction has one. -/
def addLock : FrameLockManager :=
  if f.hasLock txnId then f else { f with grantedLocks := f.grantedLocks ++ [⟨txnId, mode⟩] }

/-- Whether a lock that the transaction does not have yet can be granted. -/
def canGrant : Bool :=
  match mode with
  | .exclusive => f.grantedLocks.isEmpty
  | .shared => f.grantedLocks.all fun lock => !(lock.mode = .exclusive && lock.txnId ≠ txnId)

/-- How the first critical section of `grant_lock` ends. -/
inductive Grant
  | granted (f : FrameLockManager)
  | waitUpgrade (existingLock : Nat)
  | wait (f : FrameLockManager)

/-- `grant_lock`, up to its wait. -/
def grantLock : Grant :=
  match f.grantedLocks.find? fun lock => lock.txnId = txnId with
  | some lock =>
    let existingLock := f.grantedLocks.findIdx fun lock => lock.txnId = txnId
    if lock.mode = mode ∨ lock.mode = .exclusive then .granted f
    else if f.grantedLocks.length = 1 then .granted (f.setExclusive existingLock)
    else .waitUpgrade existingLock
  | none =>
    if f.canGrant txnId mode then .granted (f.addLock txnId mode)
    else .wait { f with waitingLocks := f.waitingLocks ++ [⟨txnId, mode⟩] }

/-- The predicate of the wait for an upgrade. -/
def upgradePred : Bool :=
  match f.grantedLocks with
  | [lock] => lock.txnId = txnId
  | _ => false

/-- The predicate of the wait for a new lock. -/
def waitPred : Bool :=
  match mode with
  | .exclusive => f.grantedLocks.all fun lock => lock.txnId = txnId
  | .shared => f.grantedLocks.all fun lock => !(lock.mode = .exclusive && lock.txnId ≠ txnId)

/-- Leave the waiting queue. -/
def stopWaiting : FrameLockManager :=
  { f with waitingLocks := f.waitingLocks.eraseP fun lock => lock.txnId = txnId }

/-- `release_lock`. -/
def releaseLock : FrameLockManager :=
  { f with grantedLocks := f.grantedLocks.filter fun lock => lock.txnId ≠ txnId }

end FrameLockManager

/-! ## What a transaction holds -/

/-- The transaction has an entry, an exclusive one if the mode is exclusive. -/
def Covers (granted : List Lock) (txnId : UInt64) (mode : LockMode) : Prop :=
  ∃ lock ∈ granted, lock.txnId = txnId ∧ (mode = .exclusive → lock.mode = .exclusive)

/-- The transaction has no entry. -/
def Absent (granted : List Lock) (txnId : UInt64) : Prop := ∀ lock ∈ granted, lock.txnId ≠ txnId

/-- What the lock table of a page should be: one entry for each transaction, and no other entry
beside an exclusive one. -/
structure Compatible (granted : List Lock) : Prop where
  single : (granted.map Lock.txnId).Nodup
  alone : ∀ lock ∈ granted, lock.mode = .exclusive → granted = [lock]

/-- What a call for a lock can do to the table. -/
inductive Gains (txnId : UInt64) (mode : LockMode) : List Lock → List Lock → Prop
  | same (granted : List Lock) : Gains txnId mode granted granted
  | add {granted : List Lock} (absent : Absent granted txnId)
      (free : mode = .exclusive → granted = []) (shared : ∀ lock ∈ granted, lock.mode = .shared) :
      Gains txnId mode granted (granted ++ [⟨txnId, mode⟩])
  | upgrade {lock : Lock} (own : lock.txnId = txnId) :
      Gains txnId mode [lock] [⟨txnId, .exclusive⟩]

variable {f f' : FrameLockManager} {granted granted' : List Lock} {t u : UInt64}
  {mode other : LockMode}

theorem Covers.shared (covers : Covers granted t mode) : Covers granted t .shared := by
  obtain ⟨lock, member, own, _⟩ := covers
  exact ⟨lock, member, own, fun impossible => by cases impossible⟩

theorem Absent.not_covers (absent : Absent granted t) : ¬ Covers granted t mode := by
  rintro ⟨lock, member, own, _⟩
  exact absent lock member own

/-- An exclusive entry excludes. -/
theorem Compatible.excludes (compatible : Compatible granted) (mine : Covers granted t .exclusive)
    (yours : Covers granted u mode) : u = t := by
  obtain ⟨lock, member, own, exclusive⟩ := mine
  obtain ⟨lock', member', own', _⟩ := yours
  rw [compatible.alone lock member (exclusive rfl), List.mem_singleton] at member'
  rw [← own, ← own', member']

theorem Compatible.nil : Compatible [] where
  single := List.nodup_nil
  alone _ absent := by cases absent

theorem Gains.compatible (gains : Gains t mode granted granted') (compatible : Compatible granted) :
    Compatible granted' := by
  cases gains with
  | same => exact compatible
  | add absent free shared =>
    refine ⟨?_, fun lock member exclusive => ?_⟩
    · rw [List.map_append, List.nodup_append]
      refine ⟨compatible.single, List.nodup_singleton _, fun x inOld y inNew same => ?_⟩
      obtain ⟨lock, member, rfl⟩ := List.mem_map.mp inOld
      rw [List.map_singleton, List.mem_singleton] at inNew
      exact absent lock member (same.trans inNew)
    · rcases List.mem_append.mp member with old | new
      · rw [shared lock old] at exclusive
        cases exclusive
      · rw [List.mem_singleton.mp new] at exclusive ⊢
        rw [free exclusive, List.nil_append]
  | upgrade own =>
    refine ⟨List.nodup_singleton _, fun lock member _ => ?_⟩
    rw [List.mem_singleton.mp member]

/-- The others keep what they have. -/
theorem Gains.others (gains : Gains t mode granted granted') (different : u ≠ t) :
    Covers granted' u other ↔ Covers granted u other := by
  cases gains with
  | same => exact Iff.rfl
  | add absent free shared =>
    constructor
    · rintro ⟨lock, member, own, exclusive⟩
      rcases List.mem_append.mp member with old | new
      · exact ⟨lock, old, own, exclusive⟩
      · rw [List.mem_singleton.mp new] at own
        exact absurd own.symm different
    · rintro ⟨lock, member, own, exclusive⟩
      exact ⟨lock, List.mem_append_left _ member, own, exclusive⟩
  | upgrade own =>
    constructor
    · rintro ⟨lock, member, own', _⟩
      rw [List.mem_singleton.mp member] at own'
      exact absurd own'.symm different
    · rintro ⟨lock, member, own', _⟩
      rw [List.mem_singleton.mp member, own] at own'
      exact absurd own'.symm different

/-- The transaction itself loses nothing. -/
theorem Gains.keeps (gains : Gains t mode granted granted') (covers : Covers granted t other) :
    Covers granted' t other := by
  cases gains with
  | same => exact covers
  | add absent free shared => exact absurd covers absent.not_covers
  | upgrade own => exact ⟨_, List.mem_singleton_self _, rfl, fun _ => rfl⟩

theorem absent_iff : Absent granted t ↔ ¬ Covers granted t .shared := by
  constructor
  · exact Absent.not_covers
  · intro uncovered lock member own
    exact uncovered ⟨lock, member, own, fun impossible => by cases impossible⟩

theorem Gains.absent (gains : Gains t mode granted granted') (different : u ≠ t) :
    Absent granted' u ↔ Absent granted u := by
  rw [absent_iff, absent_iff, gains.others different]

/-! ## Releasing -/

theorem releaseLock_absent (f : FrameLockManager) (t : UInt64) :
    Absent (f.releaseLock t).grantedLocks t := by
  intro lock member
  exact of_decide_eq_true (List.mem_filter.mp member).2

theorem releaseLock_covers (different : u ≠ t) :
    Covers (f.releaseLock t).grantedLocks u mode ↔ Covers f.grantedLocks u mode := by
  constructor
  · rintro ⟨lock, member, own, exclusive⟩
    exact ⟨lock, (List.mem_filter.mp member).1, own, exclusive⟩
  · rintro ⟨lock, member, own, exclusive⟩
    exact ⟨lock, List.mem_filter.mpr ⟨member, decide_eq_true (own ▸ different)⟩, own, exclusive⟩

theorem Compatible.releaseLock (compatible : Compatible f.grantedLocks) (t : UInt64) :
    Compatible (f.releaseLock t).grantedLocks where
  single := compatible.single.sublist (List.filter_sublist.map Lock.txnId)
  alone lock member exclusive := by
    obtain ⟨inside, other⟩ := List.mem_filter.mp member
    have only := compatible.alone lock inside exclusive
    rw [FrameLockManager.releaseLock, only]
    exact List.filter_eq_self.mpr fun k inside => List.mem_singleton.mp inside ▸ other

/-! ## Granting -/

theorem hasLock_iff : f.hasLock t = true ↔ Covers f.grantedLocks t .shared := by
  rw [FrameLockManager.hasLock, List.any_eq_true]
  constructor
  · rintro ⟨lock, member, own⟩
    exact ⟨lock, member, of_decide_eq_true own, fun impossible => by cases impossible⟩
  · rintro ⟨lock, member, own, _⟩
    exact ⟨lock, member, decide_eq_true own⟩

theorem hasExclusiveLock_iff : f.hasExclusiveLock t = true ↔ Covers f.grantedLocks t .exclusive := by
  rw [FrameLockManager.hasExclusiveLock, List.any_eq_true]
  constructor
  · rintro ⟨lock, member, own⟩
    rw [Bool.and_eq_true, decide_eq_true_eq, decide_eq_true_eq] at own
    exact ⟨lock, member, own.1, fun _ => own.2⟩
  · rintro ⟨lock, member, own, exclusive⟩
    refine ⟨lock, member, ?_⟩
    rw [Bool.and_eq_true, decide_eq_true_eq, decide_eq_true_eq]
    exact ⟨own, exclusive rfl⟩

theorem addLock_eq (absent : Absent f.grantedLocks t) :
    (f.addLock t mode).grantedLocks = f.grantedLocks ++ [⟨t, mode⟩] := by
  rw [FrameLockManager.addLock, if_neg (mt hasLock_iff.mp absent.not_covers)]

/-- Adding an entry where the predicate for it holds. -/
theorem addLock_gains (absent : Absent f.grantedLocks t)
    (free : mode = .exclusive → f.grantedLocks = [])
    (shared : ∀ lock ∈ f.grantedLocks, lock.mode = .shared) :
    Gains t mode f.grantedLocks (f.addLock t mode).grantedLocks ∧
      Covers (f.addLock t mode).grantedLocks t mode := by
  rw [addLock_eq absent]
  refine ⟨.add absent free shared, ⟨t, mode⟩, ?_, rfl, fun exclusive => exclusive⟩
  exact List.mem_append_right _ (List.mem_singleton_self _)

/-- An upgrade may go on where the transaction has the only lock. -/
theorem upgradePred_iff :
    f.upgradePred t = true ↔ ∃ lock, f.grantedLocks = [lock] ∧ lock.txnId = t := by
  unfold FrameLockManager.upgradePred
  constructor
  · intro pred
    split at pred
    · rename_i lock only
      exact ⟨lock, only, of_decide_eq_true pred⟩
    · cases pred
  · intro alone
    obtain ⟨lock, only, own⟩ := alone
    rw [only]
    exact decide_eq_true own

/-- Where every entry that could be in the way is the transaction's own, and it has none, the table
is free for the mode. -/
theorem free_of_waitPred (absent : Absent f.grantedLocks t) (pred : f.waitPred t mode = true) :
    (mode = .exclusive → f.grantedLocks = []) ∧ ∀ lock ∈ f.grantedLocks, lock.mode = .shared := by
  cases mode with
  | exclusive =>
    have empty : f.grantedLocks = [] := by
      refine List.eq_nil_iff_forall_not_mem.mpr fun lock member => absent lock member ?_
      exact of_decide_eq_true (List.all_eq_true.mp pred lock member)
    refine ⟨fun _ => empty, fun lock member => ?_⟩
    rw [empty] at member
    cases member
  | shared =>
    refine ⟨fun impossible => (by cases impossible), fun lock member => ?_⟩
    have allowed := List.all_eq_true.mp pred lock member
    have other := absent lock member
    cases isMode : lock.mode with
    | shared => rfl
    | exclusive => simp [isMode, other] at allowed

theorem canGrant_waitPred (canGrant : f.canGrant t mode = true) : f.waitPred t mode = true := by
  cases mode with
  | shared => exact canGrant
  | exclusive =>
    have empty : f.grantedLocks = [] := List.isEmpty_iff.mp canGrant
    rw [FrameLockManager.waitPred, empty, List.all_nil]

/-- An upgrade at the first position of a table with one entry. -/
theorem setExclusive_gains {lock : Lock} (only : f.grantedLocks = [lock]) (own : lock.txnId = t) :
    Gains t mode f.grantedLocks (f.setExclusive 0).grantedLocks ∧
      Covers (f.setExclusive 0).grantedLocks t .exclusive := by
  have upgraded : (f.setExclusive 0).grantedLocks = [⟨t, .exclusive⟩] := by
    rw [FrameLockManager.setExclusive, only, ← own]
    rfl
  rw [upgraded, only]
  exact ⟨.upgrade own, ⟨t, .exclusive⟩, List.mem_singleton_self _, rfl, fun _ => rfl⟩

/-- How `grant_lock` can leave its first critical section. -/
theorem grantLock_cases (f : FrameLockManager) (t : UInt64) (mode : LockMode) :
    (∃ f', f.grantLock t mode = .granted f' ∧ Gains t mode f.grantedLocks f'.grantedLocks ∧
        Covers f'.grantedLocks t mode) ∨
      (∃ position, f.grantLock t mode = .waitUpgrade position ∧ mode = .exclusive ∧
        Covers f.grantedLocks t .shared) ∨
      ∃ f', f.grantLock t mode = .wait f' ∧ f'.grantedLocks = f.grantedLocks ∧
        Absent f.grantedLocks t := by
  unfold FrameLockManager.grantLock
  cases found : f.grantedLocks.find? fun lock => lock.txnId = t with
  | some lock =>
    have own : lock.txnId = t := by
      have matched := List.find?_some found
      exact of_decide_eq_true matched
    have member := List.mem_of_find?_eq_some found
    dsimp only
    split
    · rename_i enough
      refine Or.inl ⟨f, rfl, .same _, lock, member, own, fun exclusive => ?_⟩
      exact enough.elim (fun same => same.trans exclusive) id
    · rename_i insufficient
      have isExclusive : mode = .exclusive := by
        rcases not_or.mp insufficient with ⟨differs, notExclusive⟩
        cases lockMode : lock.mode with
        | exclusive => exact absurd lockMode notExclusive
        | shared =>
          cases mode with
          | exclusive => rfl
          | shared => exact absurd lockMode differs
      split
      · rename_i one
        obtain ⟨only, isOnly⟩ := List.length_eq_one_iff.mp one
        rw [isOnly, List.mem_singleton] at member
        have first : f.grantedLocks.findIdx (fun lock => lock.txnId = t) = 0 := by
          rw [isOnly, List.findIdx_cons, ← member, own]
          simp
        rw [first]
        subst isExclusive
        exact Or.inl ⟨_, rfl, setExclusive_gains isOnly (member ▸ own)⟩
      · exact Or.inr (Or.inl ⟨_, rfl, isExclusive, lock, member, own, nofun⟩)
  | none =>
    have absent : Absent f.grantedLocks t := by
      intro lock member own
      exact List.find?_eq_none.mp found lock member (decide_eq_true own)
    dsimp only
    split
    · rename_i canGrant
      obtain ⟨free, shared⟩ := free_of_waitPred absent (canGrant_waitPred canGrant)
      exact Or.inl ⟨_, rfl, addLock_gains absent free shared⟩
    · exact Or.inr (Or.inr ⟨_, rfl, rfl, absent⟩)

end BuzzDB.Locking
