import BuzzDB.Locking.LockManager

/-!
# Calls of the lock manager

`acquire_lock`, `release_lock` and `release_all_locks` as sequences of critical
sections.  Between two of them a call is at one of the places of `AcquirePc` or
`ReleasePc`; `step` runs the section that comes next, if the mutex it needs is free.

The scan of `txn_locks_` in `acquire_lock` holds the mutex of the lock manager over
several sections of frame mutexes, and meets the transactions in any order.
-/

namespace BuzzDB.Locking

/-- Where a call of `acquire_lock` is. -/
inductive AcquirePc
  | getFrame
  | hasLock
  | hasExclusive
  | canUpgrade
  | beginScan
  | scan (remaining lockHolders : List UInt64) (conflictExists : Bool)
  | deadlock (lockHolders : List UInt64)
  | grant (afterConflict : Bool)
  | waitUpgrade (existingLock : Nat) (afterConflict : Bool)
  | wait (afterConflict : Bool)
  | record (afterConflict : Bool)
  deriving DecidableEq

/-- What the machine around a call decides: which transaction a scan looks at next, and whether a
wait ends with its timeout. -/
inductive Choice
  | proceed
  | visit (holder : UInt64)
  | timeout
  deriving DecidableEq

/-- How a section ends. -/
inductive Outcome (Pc : Type)
  | next (pc : Pc)
  | returned
  | threw
  deriving DecidableEq

section Acquire

variable (lm : LockManager) (txnId pageId : UInt64) (mode : LockMode)

/-- A section of the mutex of the lock manager. -/
def LockManager.locked {α : Type} (result : LockManager × Outcome α) :
    Option (LockManager × Outcome α) :=
  if lm.mutex = none then some result else none

/-- The next section of `acquire_lock`. -/
def AcquirePc.step (pc : AcquirePc) (choice : Choice) :
    Option (LockManager × Outcome AcquirePc) :=
  let frame := lm.pageLocks pageId
  match pc, choice with
  | .getFrame, .proceed => lm.locked (lm, .next .hasLock)
  | .hasLock, .proceed =>
    some (lm,
      if frame.hasLock txnId then (if mode = .shared then .returned else .next .hasExclusive)
      else .next .beginScan)
  | .hasExclusive, .proceed =>
    some (lm, if frame.hasExclusiveLock txnId then .returned else .next .canUpgrade)
  | .canUpgrade, .proceed =>
    some (lm, .next (if frame.canUpgradeLock txnId then .grant false else .beginScan))
  | .beginScan, .proceed =>
    lm.locked ({ lm with mutex := some txnId }, .next (.scan (lm.holders txnId pageId) [] false))
  | .scan remaining lockHolders conflictExists, .visit holder =>
    if holder ∈ remaining then
      some (lm, .next (.scan (remaining.erase holder) (StdSet.insert idLt holder lockHolders)
        (conflictExists || mode = .exclusive || frame.hasExclusiveLock holder)))
    else none
  | .scan remaining lockHolders conflictExists, .proceed =>
    if remaining = [] then
      some ({ lm with mutex := none },
        .next (if conflictExists then .deadlock lockHolders else .grant false))
    else none
  | .deadlock [], .proceed => some (lm, .next (.grant true))
  | .deadlock (holder :: lockHolders), .proceed =>
    let (hasDeadlock, waitingGraph) := checkDeadlock lm.waitingGraph txnId holder
    lm.locked ({ lm with waitingGraph },
      if hasDeadlock then .threw else .next (.deadlock lockHolders))
  | .grant afterConflict, .proceed =>
    match frame.grantLock txnId mode with
    | .granted f => some (lm.setFrame pageId f, .next (.record afterConflict))
    | .waitUpgrade existingLock => some (lm, .next (.waitUpgrade existingLock afterConflict))
    | .wait f => some (lm.setFrame pageId f, .next (.wait afterConflict))
  | .waitUpgrade existingLock afterConflict, .proceed =>
    if frame.upgradePred txnId then
      some (lm.setFrame pageId (frame.setExclusive existingLock), .next (.record afterConflict))
    else none
  | .waitUpgrade _ _, .timeout => if frame.upgradePred txnId then none else some (lm, .threw)
  | .wait afterConflict, .proceed =>
    if frame.waitPred txnId mode then
      some (lm.setFrame pageId ((frame.stopWaiting txnId).addLock txnId mode),
        .next (.record afterConflict))
    else none
  | .wait _, .timeout =>
    if frame.waitPred txnId mode then none
    else some (lm.setFrame pageId (frame.stopWaiting txnId), .threw)
  | .record afterConflict, .proceed =>
    lm.locked (lm.record txnId pageId afterConflict, .returned)
  | _, _ => none

end Acquire

/-- Where a call of `release_lock` or `release_all_locks` is; the pages are those still to be
released. -/
inductive ReleasePc
  | snapshot
  | getFrame (pages : List UInt64)
  | frame (pageId : UInt64) (pages : List UInt64)
  | forget (pageId : UInt64) (pages : List UInt64)
  deriving DecidableEq

/-- The next section of a release. -/
def ReleasePc.step (lm : LockManager) (txnId : UInt64) (pc : ReleasePc) :
    Option (LockManager × Outcome ReleasePc) :=
  match pc with
  | .snapshot => lm.locked (lm, .next (.getFrame (SetMap.get lm.txnLocks txnId)))
  | .getFrame [] => some (lm, .returned)
  | .getFrame (pageId :: pages) => lm.locked (lm, .next (.frame pageId pages))
  | .frame pageId pages =>
    some (lm.setFrame pageId ((lm.pageLocks pageId).releaseLock txnId), .next (.forget pageId pages))
  | .forget pageId pages => lm.locked (lm.forget txnId pageId, .next (.getFrame pages))

/-! ## What a section does to the lock tables -/

variable {lm lm' : LockManager} {t u p q : UInt64} {mode other : LockMode} {pc : AcquirePc}
  {choice : Choice} {outcome : Outcome AcquirePc}

theorem LockManager.locked_eq_some {α : Type} {result result' : LockManager × Outcome α}
    (ran : lm.locked result = some result') : result = result' ∧ lm.mutex = none := by
  unfold locked at ran
  split at ran
  · rename_i free
    cases ran
    exact ⟨rfl, free⟩
  · cases ran

/-- The sections of `acquire_lock`, and when they can run. -/
inductive AcquirePc.Steps (lm : LockManager) (t p : UInt64) (mode : LockMode) :
    AcquirePc → Choice → LockManager → Outcome AcquirePc → Prop
  | found (free : lm.mutex = none) : Steps lm t p mode .getFrame .proceed lm (.next .hasLock)
  | holds (has : Covers (lm.granted p) t .shared) (shared : mode = .shared) :
      Steps lm t p mode .hasLock .proceed lm .returned
  | holdsShared (has : Covers (lm.granted p) t .shared) (exclusive : mode = .exclusive) :
      Steps lm t p mode .hasLock .proceed lm (.next .hasExclusive)
  | lacks (hasNone : ¬ Covers (lm.granted p) t .shared) :
      Steps lm t p mode .hasLock .proceed lm (.next .beginScan)
  | holdsExclusive (has : Covers (lm.granted p) t .exclusive) :
      Steps lm t p mode .hasExclusive .proceed lm .returned
  | lacksExclusive (hasNone : ¬ Covers (lm.granted p) t .exclusive) :
      Steps lm t p mode .hasExclusive .proceed lm (.next .canUpgrade)
  | upgrades (alone : (lm.pageLocks p).canUpgradeLock t = true) :
      Steps lm t p mode .canUpgrade .proceed lm (.next (.grant false))
  | upgradesLater (others : (lm.pageLocks p).canUpgradeLock t = false) :
      Steps lm t p mode .canUpgrade .proceed lm (.next .beginScan)
  | beginsScan (free : lm.mutex = none) :
      Steps lm t p mode .beginScan .proceed { lm with mutex := some t }
        (.next (.scan (lm.holders t p) [] false))
  | visits {holder : UInt64} {remaining lockHolders : List UInt64} {conflictExists : Bool}
      (member : holder ∈ remaining) :
      Steps lm t p mode (.scan remaining lockHolders conflictExists) (.visit holder) lm
        (.next (.scan (remaining.erase holder) (StdSet.insert idLt holder lockHolders)
          (conflictExists || mode = .exclusive || (lm.pageLocks p).hasExclusiveLock holder)))
  | findsConflict {lockHolders : List UInt64} :
      Steps lm t p mode (.scan [] lockHolders true) .proceed { lm with mutex := none }
        (.next (.deadlock lockHolders))
  | findsNone {lockHolders : List UInt64} :
      Steps lm t p mode (.scan [] lockHolders false) .proceed { lm with mutex := none }
        (.next (.grant false))
  | checked : Steps lm t p mode (.deadlock []) .proceed lm (.next (.grant true))
  | reports {holder : UInt64} {lockHolders : List UInt64} (free : lm.mutex = none)
      (report : (checkDeadlock lm.waitingGraph t holder).1 = true) :
      Steps lm t p mode (.deadlock (holder :: lockHolders)) .proceed
        { lm with waitingGraph := (checkDeadlock lm.waitingGraph t holder).2 } .threw
  | checks {holder : UInt64} {lockHolders : List UInt64} (free : lm.mutex = none)
      (silent : (checkDeadlock lm.waitingGraph t holder).1 = false) :
      Steps lm t p mode (.deadlock (holder :: lockHolders)) .proceed
        { lm with waitingGraph := (checkDeadlock lm.waitingGraph t holder).2 }
        (.next (.deadlock lockHolders))
  | grants {afterConflict : Bool} {f : FrameLockManager}
      (gains : Gains t mode (lm.granted p) f.grantedLocks) (covers : Covers f.grantedLocks t mode) :
      Steps lm t p mode (.grant afterConflict) .proceed (lm.setFrame p f)
        (.next (.record afterConflict))
  | blocksUpgrade {afterConflict : Bool} {existingLock : Nat} (exclusive : mode = .exclusive)
      (has : Covers (lm.granted p) t .shared) :
      Steps lm t p mode (.grant afterConflict) .proceed lm
        (.next (.waitUpgrade existingLock afterConflict))
  | blocks {afterConflict : Bool} {f : FrameLockManager} (same : f.grantedLocks = lm.granted p)
      (absent : Absent (lm.granted p) t) :
      Steps lm t p mode (.grant afterConflict) .proceed (lm.setFrame p f)
        (.next (.wait afterConflict))
  | upgradeGoesOn {existingLock : Nat} {afterConflict : Bool} {lock : Lock}
      (only : lm.granted p = [lock]) (own : lock.txnId = t) :
      Steps lm t p mode (.waitUpgrade existingLock afterConflict) .proceed
        (lm.setFrame p ((lm.pageLocks p).setExclusive existingLock)) (.next (.record afterConflict))
  | upgradeTimesOut {existingLock : Nat} {afterConflict : Bool}
      (pred : (lm.pageLocks p).upgradePred t = false) :
      Steps lm t p mode (.waitUpgrade existingLock afterConflict) .timeout lm .threw
  | goesOn {afterConflict : Bool} (pred : (lm.pageLocks p).waitPred t mode = true) :
      Steps lm t p mode (.wait afterConflict) .proceed
        (lm.setFrame p (((lm.pageLocks p).stopWaiting t).addLock t mode))
        (.next (.record afterConflict))
  | timesOut {afterConflict : Bool} (pred : (lm.pageLocks p).waitPred t mode = false) :
      Steps lm t p mode (.wait afterConflict) .timeout
        (lm.setFrame p ((lm.pageLocks p).stopWaiting t)) .threw
  | records {afterConflict : Bool} (free : lm.mutex = none) :
      Steps lm t p mode (.record afterConflict) .proceed (lm.record t p afterConflict) .returned

/-- The section that looks for a lock of the transaction. -/
theorem AcquirePc.hasLock_cases
    (ran : AcquirePc.hasLock.step lm t p mode .proceed = some (lm', outcome)) :
    AcquirePc.hasLock.Steps lm t p mode .proceed lm' outcome := by
  simp only [AcquirePc.step] at ran
  split at ran
  · rename_i has
    split at ran
    · rename_i shared
      cases ran
      exact .holds (hasLock_iff.mp has) shared
    · rename_i notShared
      cases ran
      cases mode with
      | shared => exact absurd rfl notShared
      | exclusive => exact .holdsShared (hasLock_iff.mp has) rfl
  · rename_i hasNone
    cases ran
    exact .lacks (mt hasLock_iff.mpr hasNone)

theorem AcquirePc.hasExclusive_cases
    (ran : AcquirePc.hasExclusive.step lm t p mode .proceed = some (lm', outcome)) :
    AcquirePc.hasExclusive.Steps lm t p mode .proceed lm' outcome := by
  simp only [AcquirePc.step] at ran
  split at ran
  · rename_i has
    cases ran
    exact .holdsExclusive (hasExclusiveLock_iff.mp has)
  · rename_i hasNone
    cases ran
    exact .lacksExclusive (mt hasExclusiveLock_iff.mpr hasNone)

theorem AcquirePc.canUpgrade_cases
    (ran : AcquirePc.canUpgrade.step lm t p mode .proceed = some (lm', outcome)) :
    AcquirePc.canUpgrade.Steps lm t p mode .proceed lm' outcome := by
  simp only [AcquirePc.step] at ran
  split at ran
  · rename_i alone
    cases ran
    exact .upgrades alone
  · rename_i others
    cases ran
    exact .upgradesLater (Bool.eq_false_iff.mpr others)

/-- A section of the scan, which looks at a transaction that remains or ends when none does. -/
theorem AcquirePc.scan_cases {remaining lockHolders : List UInt64} {conflictExists : Bool}
    (ran : (AcquirePc.scan remaining lockHolders conflictExists).step lm t p mode choice =
      some (lm', outcome)) :
    (AcquirePc.scan remaining lockHolders conflictExists).Steps lm t p mode choice lm' outcome := by
  cases choice with
  | timeout => cases ran
  | visit holder =>
    obtain ⟨member, same⟩ := Option.ite_none_right_eq_some.mp ran
    cases same
    exact .visits member
  | proceed =>
    obtain ⟨done, same⟩ := Option.ite_none_right_eq_some.mp ran
    cases same
    subst done
    cases conflictExists with
    | true => exact .findsConflict
    | false => exact .findsNone

/-- A check for a deadlock with the next holder. -/
theorem AcquirePc.deadlock_cases {lockHolders : List UInt64}
    (ran : (AcquirePc.deadlock lockHolders).step lm t p mode .proceed = some (lm', outcome)) :
    (AcquirePc.deadlock lockHolders).Steps lm t p mode .proceed lm' outcome := by
  cases lockHolders with
  | nil =>
    cases ran
    exact .checked
  | cons holder lockHolders =>
    simp only [AcquirePc.step] at ran
    obtain ⟨same, free⟩ := LockManager.locked_eq_some ran
    cases same
    cases report : (checkDeadlock lm.waitingGraph t holder).1 with
    | true => exact .reports free report
    | false => exact .checks free report

/-- The first section of `grant_lock`. -/
theorem AcquirePc.grant_cases {afterConflict : Bool}
    (ran : (AcquirePc.grant afterConflict).step lm t p mode .proceed = some (lm', outcome)) :
    (AcquirePc.grant afterConflict).Steps lm t p mode .proceed lm' outcome := by
  simp only [AcquirePc.step] at ran
  rcases grantLock_cases (lm.pageLocks p) t mode with
    ⟨f, isGranted, gains, covers⟩ | ⟨position, waits, exclusive, has⟩ | ⟨f, waits, same, absent⟩
  · rw [isGranted] at ran
    cases ran
    exact .grants gains covers
  · rw [waits] at ran
    cases ran
    exact .blocksUpgrade exclusive has
  · rw [waits] at ran
    cases ran
    exact .blocks same absent

/-- The end of a wait for an upgrade. -/
theorem AcquirePc.waitUpgrade_cases {existingLock : Nat} {afterConflict : Bool}
    (ran : (AcquirePc.waitUpgrade existingLock afterConflict).step lm t p mode choice =
      some (lm', outcome)) :
    (AcquirePc.waitUpgrade existingLock afterConflict).Steps lm t p mode choice lm' outcome := by
  cases choice with
  | visit holder => cases ran
  | timeout =>
    obtain ⟨pred, same⟩ := Option.ite_none_left_eq_some.mp ran
    cases same
    exact .upgradeTimesOut (Bool.eq_false_iff.mpr pred)
  | proceed =>
    obtain ⟨pred, same⟩ := Option.ite_none_right_eq_some.mp ran
    cases same
    obtain ⟨lock, only, own⟩ := upgradePred_iff.mp pred
    exact .upgradeGoesOn only own

/-- The end of a wait for a new lock. -/
theorem AcquirePc.wait_cases {afterConflict : Bool}
    (ran : (AcquirePc.wait afterConflict).step lm t p mode choice = some (lm', outcome)) :
    (AcquirePc.wait afterConflict).Steps lm t p mode choice lm' outcome := by
  cases choice with
  | visit holder => cases ran
  | timeout =>
    obtain ⟨pred, same⟩ := Option.ite_none_left_eq_some.mp ran
    cases same
    exact .timesOut (Bool.eq_false_iff.mpr pred)
  | proceed =>
    obtain ⟨pred, same⟩ := Option.ite_none_right_eq_some.mp ran
    cases same
    exact .goesOn pred

theorem AcquirePc.step_cases (ran : pc.step lm t p mode choice = some (lm', outcome)) :
    pc.Steps lm t p mode choice lm' outcome := by
  cases pc with
  | scan => exact scan_cases ran
  | waitUpgrade => exact waitUpgrade_cases ran
  | wait => exact wait_cases ran
  | deadlock lockHolders =>
    cases choice with
    | proceed => exact deadlock_cases ran
    | _ => cases lockHolders <;> cases ran
  | getFrame | beginScan | record =>
    cases choice with
    | proceed =>
      obtain ⟨same, free⟩ := LockManager.locked_eq_some ran
      cases same
      first | exact .found free | exact .beginsScan free | exact .records free
    | _ => cases ran
  | hasLock | hasExclusive | canUpgrade | grant =>
    cases choice with
    | proceed =>
      first
        | exact hasLock_cases ran
        | exact hasExclusive_cases ran
        | exact canUpgrade_cases ran
        | exact grant_cases ran
    | _ => cases ran

/-- What a call knows about the entry of its transaction. -/
def AcquirePc.Knows (granted : List Lock) (t : UInt64) (mode : LockMode) : AcquirePc → Prop
  | .waitUpgrade _ _ => mode = .exclusive
  | .wait _ => Absent granted t
  | .record _ => Covers granted t mode
  | .hasExclusive => mode = .exclusive
  | _ => True

/-- What a call knows behind a section. -/
def Outcome.Knows (granted : List Lock) (t : UInt64) (mode : LockMode) : Outcome AcquirePc → Prop
  | .next pc => pc.Knows granted t mode
  | .returned => Covers granted t mode
  | .threw => True

/-- What a call knows depends on the entries of its own transaction only. -/
theorem AcquirePc.Knows.others {granted granted' : List Lock}
    (same : ∀ other, Covers granted' u other ↔ Covers granted u other)
    (knows : pc.Knows granted u mode) : pc.Knows granted' u mode := by
  cases pc with
  | wait afterConflict =>
    have absent : Absent granted u := knows
    rw [absent_iff, ← same, ← absent_iff] at absent
    exact absent
  | record afterConflict => exact (same mode).mpr knows
  | _ => exact knows

/-- A waiting upgrade goes on only with a reference to the first position of the table. -/
def AcquirePc.InPlace (choice : Choice) : AcquirePc → Prop
  | .waitUpgrade existingLock _ => choice = .proceed → existingLock = 0
  | _ => True

instance (choice : Choice) : DecidablePred (AcquirePc.InPlace choice)
  | .waitUpgrade existingLock _ =>
    inferInstanceAs (Decidable (choice = .proceed → existingLock = 0))
  | .getFrame | .hasLock | .hasExclusive | .canUpgrade | .beginScan | .scan _ _ _ | .deadlock _
  | .grant _ | .wait _ | .record _ => isTrue trivial

/-- A request of `t` for a lock on page `p` has changed the tables, if at all, by granting it. -/
structure Grants (lm : LockManager) (t p : UInt64) (mode : LockMode) (lm' : LockManager) : Prop where
  gains : Gains t mode (lm.granted p) (lm'.granted p)
  others : ∀ q, q ≠ p → lm'.granted q = lm.granted q

theorem Grants.same (tables : lm'.pageLocks = lm.pageLocks) : Grants lm t p mode lm' := by
  have granted : ∀ q, lm'.granted q = lm.granted q := fun q => by
    rw [LockManager.granted, tables, LockManager.granted]
  refine ⟨?_, fun q _ => granted q⟩
  rw [granted p]
  exact .same _

theorem Grants.frame {f : FrameLockManager} (gains : Gains t mode (lm.granted p) f.grantedLocks) :
    Grants lm t p mode (lm.setFrame p f) where
  gains := by rwa [LockManager.granted_setFrame_self]
  others q different := lm.granted_setFrame_of_ne f different

/-- No other transaction's entries change. -/
theorem Grants.covers_iff (grants : Grants lm t p mode lm') (different : u ≠ t) (q : UInt64)
    (other : LockMode) : Covers (lm'.granted q) u other ↔ Covers (lm.granted q) u other := by
  rcases eq_or_ne q p with rfl | elsewhere
  · exact grants.gains.others different
  · rw [grants.others q elsewhere]

/-- No entry is taken away. -/
theorem Grants.keeps (grants : Grants lm t p mode lm') (covers : Covers (lm.granted q) u other) :
    Covers (lm'.granted q) u other := by
  rcases eq_or_ne u t with rfl | different
  · rcases eq_or_ne q p with rfl | elsewhere
    · exact grants.gains.keeps covers
    · rwa [grants.others q elsewhere]
  · exact (grants.covers_iff different q other).mpr covers

theorem Grants.compatible (grants : Grants lm t p mode lm')
    (compatible : ∀ q, Compatible (lm.granted q)) (q : UInt64) : Compatible (lm'.granted q) := by
  rcases eq_or_ne q p with rfl | elsewhere
  · exact grants.gains.compatible (compatible q)
  · rw [grants.others q elsewhere]
    exact compatible q

/-- What a section of `acquire_lock` guarantees. -/
structure AcquireStep (lm : LockManager) (t p : UInt64) (mode : LockMode) (pc : AcquirePc)
    (lm' : LockManager) (outcome : Outcome AcquirePc) : Prop extends Grants lm t p mode lm' where
  knows : outcome.Knows (lm'.granted p) t mode
  txnLocks : ∀ u, u ≠ t → SetMap.get lm'.txnLocks u = SetMap.get lm.txnLocks u
  keepsLocked : ∀ q ∈ SetMap.get lm.txnLocks t, q ∈ SetMap.get lm'.txnLocks t
  records : ∀ afterConflict, pc = .record afterConflict →
    outcome = .returned ∧ p ∈ SetMap.get lm'.txnLocks t
  grants : lm'.granted p ≠ lm.granted p → ∃ afterConflict, outcome = .next (.record afterConflict)

/-- A section that leaves the tables as they are. -/
theorem AcquireStep.same (tables : lm'.pageLocks = lm.pageLocks) (txnLocks : lm'.txnLocks = lm.txnLocks)
    (early : ∀ afterConflict, pc ≠ .record afterConflict)
    (knows : outcome.Knows (lm.granted p) t mode) : AcquireStep lm t p mode pc lm' outcome where
  toGrants := .same tables
  knows := by rwa [LockManager.granted, tables]
  txnLocks _ _ := by rw [txnLocks]
  keepsLocked _ member := by rwa [txnLocks]
  records afterConflict last := absurd last (early afterConflict)
  grants changed := absurd (by rw [LockManager.granted, tables, LockManager.granted]) changed

/-- A section that changes the table of the page. -/
theorem AcquireStep.frame {f : FrameLockManager}
    (gains : Gains t mode (lm.granted p) f.grantedLocks)
    (early : ∀ afterConflict, pc ≠ .record afterConflict)
    (grants : f.grantedLocks ≠ lm.granted p →
      ∃ afterConflict, outcome = .next (.record afterConflict))
    (knows : outcome.Knows f.grantedLocks t mode) :
    AcquireStep lm t p mode pc (lm.setFrame p f) outcome where
  toGrants := .frame gains
  knows := by rwa [LockManager.granted_setFrame_self]
  txnLocks _ _ := rfl
  keepsLocked _ := id
  records afterConflict last := absurd last (early afterConflict)
  grants changed := grants fun same =>
    changed ((LockManager.granted_setFrame_self lm p f).trans same)

theorem AcquirePc.step_spec (knows : pc.Knows (lm.granted p) t mode) (inPlace : pc.InPlace choice)
    (ran : pc.step lm t p mode choice = some (lm', outcome)) :
    AcquireStep lm t p mode pc lm' outcome := by
  cases AcquirePc.step_cases ran with
  | found | lacks | lacksExclusive | upgrades | upgradesLater | beginsScan | visits | findsConflict |
      findsNone | checked | reports | checks | upgradeTimesOut =>
    exact .same rfl rfl nofun trivial
  | holds has shared => exact .same rfl rfl nofun (shared ▸ has)
  | holdsShared _ exclusive => exact .same rfl rfl nofun exclusive
  | blocksUpgrade exclusive => exact .same rfl rfl nofun exclusive
  | holdsExclusive has =>
    have isExclusive : mode = .exclusive := knows
    exact .same rfl rfl nofun (isExclusive ▸ has)
  | grants gains covers => exact .frame gains nofun (fun _ => ⟨_, rfl⟩) covers
  | blocks same absent =>
    refine .frame (same ▸ .same _) nofun (fun changed => absurd same changed) ?_
    rw [same]
    exact absent
  | upgradeGoesOn only own =>
    obtain rfl := inPlace rfl
    have isExclusive : mode = .exclusive := knows
    subst isExclusive
    obtain ⟨gains, covers⟩ := setExclusive_gains only own
    exact .frame gains nofun (fun _ => ⟨_, rfl⟩) covers
  | goesOn pred =>
    have absent : Absent (lm.granted p) t := knows
    obtain ⟨free, shared⟩ := free_of_waitPred absent pred
    obtain ⟨gains, covers⟩ := addLock_gains
      (f := (lm.pageLocks p).stopWaiting t) absent free shared
    exact .frame gains nofun (fun _ => ⟨_, rfl⟩) covers
  | timesOut => exact .frame (.same _) nofun (fun changed => absurd rfl changed) trivial
  | records =>
    refine ⟨.same rfl, knows, fun u different => SetMap.get_add_of_ne different, fun q member => ?_,
      fun _ _ => ⟨rfl, ?_⟩, fun changed => absurd rfl changed⟩
    · rw [LockManager.record, SetMap.get_add_self]
      exact StdSet.mem_insert_of_mem member
    · rw [LockManager.record, SetMap.get_add_self]
      exact StdSet.mem_insert_self idLt_strict p _

/-! ## What a section of a release does -/

/-- A section of a release, and what it leaves. -/
inductive ReleasePc.Does (lm : LockManager) (t : UInt64) :
    ReleasePc → LockManager → Outcome ReleasePc → Prop
  | snapshot : Does lm t .snapshot lm (.next (.getFrame (SetMap.get lm.txnLocks t)))
  | done : Does lm t (.getFrame []) lm .returned
  | getFrame (p : UInt64) (pages : List UInt64) :
      Does lm t (.getFrame (p :: pages)) lm (.next (.frame p pages))
  | frame (p : UInt64) (pages : List UInt64) :
      Does lm t (.frame p pages) (lm.setFrame p ((lm.pageLocks p).releaseLock t))
        (.next (.forget p pages))
  | forget (p : UInt64) (pages : List UInt64) :
      Does lm t (.forget p pages) (lm.forget t p) (.next (.getFrame pages))

theorem ReleasePc.step_does {r : ReleasePc} {outcome : Outcome ReleasePc}
    (ran : r.step lm t = some (lm', outcome)) : r.Does lm t lm' outcome := by
  cases r with
  | snapshot =>
    obtain ⟨same, _⟩ := LockManager.locked_eq_some ran
    cases same
    exact .snapshot
  | getFrame pages =>
    cases pages with
    | nil =>
      cases ran
      exact .done
    | cons p pages =>
      obtain ⟨same, _⟩ := LockManager.locked_eq_some ran
      cases same
      exact .getFrame p pages
  | frame p pages =>
    cases ran
    exact .frame p pages
  | forget p pages =>
    obtain ⟨same, _⟩ := LockManager.locked_eq_some ran
    cases same
    exact .forget p pages

/-- The entries behind a release of the page. -/
theorem covers_release (lm : LockManager) (kept : u ≠ t ∨ q ≠ p) :
    Covers ((lm.setFrame p ((lm.pageLocks p).releaseLock t)).granted q) u other ↔
      Covers (lm.granted q) u other := by
  rcases eq_or_ne q p with rfl | elsewhere
  · rw [LockManager.granted_setFrame_self]
    exact releaseLock_covers (kept.resolve_right fun differs => differs rfl)
  · rw [LockManager.granted_setFrame_of_ne _ _ elsewhere]

theorem compatible_release (compatible : ∀ q, Compatible (lm.granted q)) (t p q : UInt64) :
    Compatible ((lm.setFrame p ((lm.pageLocks p).releaseLock t)).granted q) := by
  rcases eq_or_ne q p with rfl | different
  · rw [LockManager.granted_setFrame_self]
    exact (compatible q).releaseLock t
  · rw [LockManager.granted_setFrame_of_ne _ _ different]
    exact compatible q

namespace ReleasePc.Does

variable {r : ReleasePc} {released : Outcome ReleasePc} (does : r.Does lm t lm' released)

include does

theorem others (different : u ≠ t) :
    Covers (lm'.granted q) u other ↔ Covers (lm.granted q) u other := by
  cases does with
  | frame p pages => exact covers_release lm (Or.inl different)
  | _ => exact Iff.rfl

theorem txnLocks (different : u ≠ t) : SetMap.get lm'.txnLocks u = SetMap.get lm.txnLocks u := by
  cases does with
  | forget p pages => exact SetMap.get_remove_of_ne different
  | _ => rfl

theorem compatible (compatible : ∀ q, Compatible (lm.granted q)) (q : UInt64) :
    Compatible (lm'.granted q) := by
  cases does with
  | frame p pages => exact compatible_release compatible t p q
  | _ => exact compatible q

/-- No entry is added. -/
theorem shrinks {lock : Lock} (member : lock ∈ lm'.granted q) : lock ∈ lm.granted q := by
  cases does with
  | frame p pages =>
    rcases eq_or_ne q p with rfl | elsewhere
    · rw [LockManager.granted_setFrame_self] at member
      exact (List.mem_filter.mp member).1
    · rwa [LockManager.granted_setFrame_of_ne _ _ elsewhere] at member
  | _ => exact member

theorem fewer (covers : Covers (lm'.granted q) u other) : Covers (lm.granted q) u other := by
  obtain ⟨lock, member, own, strong⟩ := covers
  exact ⟨lock, does.shrinks member, own, strong⟩

end ReleasePc.Does

/-- What a section of a release does to the lock tables. -/
theorem ReleasePc.step_spec {pc : ReleasePc} {outcome : Outcome ReleasePc}
    (ran : pc.step lm t = some (lm', outcome)) :
    (∃ p pages, pc = .frame p pages ∧ outcome = .next (.forget p pages) ∧
        lm' = lm.setFrame p ((lm.pageLocks p).releaseLock t)) ∨
      ((∀ p pages, pc ≠ .frame p pages) ∧ lm'.pageLocks = lm.pageLocks) := by
  cases ReleasePc.step_does ran with
  | frame p pages => exact Or.inl ⟨p, pages, rfl, rfl, rfl⟩
  | snapshot | done | getFrame | forget => exact Or.inr ⟨fun _ _ => nofun, rfl⟩

/-! ## What a release comes to -/

/-- The pages that a release has still to come to, of those that were locked. -/
def ReleasePc.Pending (q : UInt64) : ReleasePc → Prop
  | .snapshot => True
  | .getFrame pages => q ∈ pages
  | .frame p pages => q = p ∨ q ∈ pages
  | .forget p pages => q ≠ p ∧ q ∈ pages

/-- What a section of a release guarantees. -/
structure ReleaseStep (lm : LockManager) (t : UInt64) (lm' : LockManager)
    (outcome : Outcome ReleasePc) : Prop where
  covers : ∀ u, u ≠ t → ∀ q mode, Covers (lm'.granted q) u mode ↔ Covers (lm.granted q) u mode
  txnLocks : ∀ u, u ≠ t → SetMap.get lm'.txnLocks u = SetMap.get lm.txnLocks u
  compatible : (∀ q, Compatible (lm.granted q)) → ∀ q, Compatible (lm'.granted q)
  shrinks : ∀ q lock, lock ∈ lm'.granted q → lock ∈ lm.granted q
  locked : ∀ q, Covers (lm'.granted q) t .shared → q ∈ SetMap.get lm'.txnLocks t
  pending : ∀ q, Covers (lm'.granted q) t .shared → ∃ pc, outcome = .next pc ∧ pc.Pending q

/-- A release comes to every page that its transaction has locked. -/
theorem ReleasePc.Does.releases {pc : ReleasePc} {outcome : Outcome ReleasePc}
    (does : pc.Does lm t lm' outcome)
    (locked : ∀ q, Covers (lm.granted q) t .shared → q ∈ SetMap.get lm.txnLocks t)
    (pending : ∀ q, Covers (lm.granted q) t .shared → pc.Pending q) :
    ReleaseStep lm t lm' outcome := by
  have fewer : ∀ q, Covers (lm'.granted q) t .shared → Covers (lm.granted q) t .shared :=
    fun _ => does.fewer
  refine ⟨fun u different q mode => does.others different, fun u different => does.txnLocks different,
    does.compatible, fun q lock => does.shrinks, fun q covers => ?_, fun q covers => ?_⟩
  · cases does with
    | forget p pages =>
      rw [LockManager.forget, SetMap.get_remove_self]
      exact StdSet.mem_erase.mpr ⟨locked q covers, (pending q covers).1⟩
    | snapshot | done | getFrame => exact locked q covers
    | frame => exact locked q (fewer q covers)
  · cases does with
    | snapshot => exact ⟨_, rfl, locked q covers⟩
    | done => exact absurd (pending q covers) List.not_mem_nil
    | getFrame p pages => exact ⟨_, rfl, List.mem_cons.mp (pending q covers)⟩
    | frame p pages =>
      have gone : q ≠ p := by
        rintro rfl
        rw [LockManager.granted_setFrame_self] at covers
        exact (releaseLock_absent _ t).not_covers covers
      have before := pending q ((covers_release lm (Or.inr gone)).mp covers)
      exact ⟨_, rfl, gone, before.resolve_left gone⟩
    | forget p pages => exact ⟨_, rfl, (pending q covers).2⟩

theorem ReleasePc.step_releases {pc : ReleasePc} {outcome : Outcome ReleasePc}
    (locked : ∀ q, Covers (lm.granted q) t .shared → q ∈ SetMap.get lm.txnLocks t)
    (pending : ∀ q, Covers (lm.granted q) t .shared → pc.Pending q)
    (ran : pc.step lm t = some (lm', outcome)) : ReleaseStep lm t lm' outcome :=
  (ReleasePc.step_does ran).releases locked pending

end BuzzDB.Locking
