import BuzzDB.Locking.Calls

/-!
# Calls without interruption

The calls of the lock manager when their sections follow one another directly.  A wait
ends with its timeout then: nobody can release what it waits for.

`acquireLock_run` and `releaseAllLocks_run` say that these functions are runs of the
sections.
-/

namespace BuzzDB.Locking

namespace LockManager

variable (lm : LockManager) (txnId pageId : UInt64) (mode : LockMode)

/-- `grant_lock` and the section behind it. -/
def grantOrThrow (afterConflict : Bool) : LockManager × Bool :=
  match (lm.pageLocks pageId).grantLock txnId mode with
  | .granted f => ((lm.setFrame pageId f).record txnId pageId afterConflict, true)
  | .waitUpgrade _ => (lm, false)
  | .wait f => (lm.setFrame pageId (f.stopWaiting txnId), false)

/-- `check_deadlock` for one holder after the other. -/
def checkDeadlocks (graph : WaitingGraph) : List UInt64 → Bool × WaitingGraph
  | [] => (false, graph)
  | holder :: lockHolders =>
    let (hasDeadlock, graph) := checkDeadlock graph txnId holder
    if hasDeadlock then (true, graph) else checkDeadlocks graph lockHolders

/-- `acquire_lock` behind the scan. -/
def afterScan (lockHolders : List UInt64) (conflictExists : Bool) : LockManager × Bool :=
  if conflictExists then
    let (hasDeadlock, waitingGraph) := checkDeadlocks txnId lm.waitingGraph lockHolders
    if hasDeadlock then ({ lm with waitingGraph }, false)
    else { lm with waitingGraph }.grantOrThrow txnId pageId mode true
  else lm.grantOrThrow txnId pageId mode false

/-- `acquire_lock`; it throws instead of returning false. -/
def acquireLock : LockManager × Bool :=
  let frame := lm.pageLocks pageId
  if frame.hasLock txnId ∧ (mode = .shared ∨ frame.hasExclusiveLock txnId) then (lm, true)
  else if frame.hasLock txnId ∧ frame.canUpgradeLock txnId then
    lm.grantOrThrow txnId pageId mode false
  else
    let holders := lm.holders txnId pageId
    lm.afterScan txnId pageId mode
      (holders.foldl (fun set holder => StdSet.insert idLt holder set) [])
      (holders.any fun holder => mode = .exclusive || frame.hasExclusiveLock holder)

/-- `release_lock`. -/
def releaseLock : LockManager :=
  (lm.setFrame pageId ((lm.pageLocks pageId).releaseLock txnId)).forget txnId pageId

/-- `release_all_locks`. -/
def releaseAllLocks : LockManager :=
  (SetMap.get lm.txnLocks txnId).foldl (fun lm pageId => lm.releaseLock txnId pageId) lm

end LockManager

/-! ## They are runs of the sections -/

/-- The sections of `acquire_lock` from `pc` to its end. -/
inductive AcquireRun (t p : UInt64) (mode : LockMode) :
    LockManager → AcquirePc → LockManager → Outcome AcquirePc → Prop
  | last {lm lm' : LockManager} {pc : AcquirePc} {outcome : Outcome AcquirePc} (choice : Choice)
      (ran : pc.step lm t p mode choice = some (lm', outcome)) (ends : ∀ pc', outcome ≠ .next pc') :
      AcquireRun t p mode lm pc lm' outcome
  | more {lm mid lm' : LockManager} {pc pc' : AcquirePc} {outcome : Outcome AcquirePc}
      (choice : Choice) (ran : pc.step lm t p mode choice = some (mid, .next pc'))
      (rest : AcquireRun t p mode mid pc' lm' outcome) : AcquireRun t p mode lm pc lm' outcome

/-- The sections of a release from `pc` to its end. -/
inductive ReleaseRun (t : UInt64) : LockManager → ReleasePc → LockManager → Prop
  | last {lm lm' : LockManager} {pc : ReleasePc} (ran : pc.step lm t = some (lm', .returned)) :
      ReleaseRun t lm pc lm'
  | more {lm mid lm' : LockManager} {pc pc' : ReleasePc}
      (ran : pc.step lm t = some (mid, .next pc')) (rest : ReleaseRun t mid pc' lm') :
      ReleaseRun t lm pc lm'

/-- How `acquire_lock` ends. -/
def ended (acquired : Bool) : Outcome AcquirePc := if acquired then .returned else .threw

variable {lm lm' : LockManager} {t u p q : UInt64} {mode other : LockMode} {afterConflict : Bool}

theorem ended_ends (acquired : Bool) (pc : AcquirePc) : ended acquired ≠ .next pc := by
  cases acquired <;> nofun

theorem setFrame_setFrame (lm : LockManager) (p : UInt64) (f f' : FrameLockManager) :
    (lm.setFrame p f).setFrame p f' = lm.setFrame p f' := by
  simp only [LockManager.setFrame, Function.update_idem]

/-- A lock that is not granted at once cannot be had by waiting. -/
theorem grantLock_waits {f : FrameLockManager} :
    (∀ position, f.grantLock t mode = .waitUpgrade position → f.upgradePred t = false) ∧
      ∀ f', f.grantLock t mode = .wait f' → f'.waitPred t mode = false := by
  unfold FrameLockManager.grantLock
  constructor
  · intro position waits
    split at waits
    · dsimp only at waits
      split at waits
      · cases waits
      · split at waits
        · cases waits
        · rename_i many
          refine Bool.eq_false_iff.mpr fun pred => ?_
          obtain ⟨lock, only, -⟩ := upgradePred_iff.mp pred
          exact absurd (congrArg List.length only) many
    · split at waits <;> cases waits
  · intro f' waits
    split at waits
    · dsimp only at waits
      split at waits
      · cases waits
      · split at waits <;> cases waits
    · rename_i none
      split at waits
      · cases waits
      · rename_i refused
        cases waits
        cases mode with
        | shared => exact Bool.not_eq_true _ ▸ refused
        | exclusive =>
          refine Bool.eq_false_iff.mpr fun own => refused ?_
          refine List.isEmpty_iff.mpr (List.eq_nil_iff_forall_not_mem.mpr fun lock member => ?_)
          exact List.find?_eq_none.mp none lock member (List.all_eq_true.mp own lock member)

theorem grantOrThrow_run (free : lm.mutex = none) :
    AcquireRun t p mode lm (.grant afterConflict) (lm.grantOrThrow t p mode afterConflict).1
      (ended (lm.grantOrThrow t p mode afterConflict).2) := by
  obtain ⟨upgradeWaits, newWaits⟩ := @grantLock_waits t mode (lm.pageLocks p)
  unfold LockManager.grantOrThrow
  cases grant : (lm.pageLocks p).grantLock t mode with
  | granted f =>
    have first : AcquirePc.step lm t p mode (.grant afterConflict) .proceed =
        some (lm.setFrame p f, .next (.record afterConflict)) := by
      simp only [AcquirePc.step, grant]
    exact .more .proceed first (.last .proceed (if_pos free) (ended_ends _))
  | waitUpgrade position =>
    have first : AcquirePc.step lm t p mode (.grant afterConflict) .proceed =
        some (lm, .next (.waitUpgrade position afterConflict)) := by
      simp only [AcquirePc.step, grant]
    refine .more .proceed first (.last .timeout ?_ (ended_ends _))
    simp only [AcquirePc.step, upgradeWaits position grant]
    rfl
  | wait f =>
    have first : AcquirePc.step lm t p mode (.grant afterConflict) .proceed =
        some (lm.setFrame p f, .next (.wait afterConflict)) := by
      simp only [AcquirePc.step, grant]
    have same : (lm.setFrame p f).pageLocks p = f := Function.update_self _ _ _
    refine .more .proceed first (.last .timeout ?_ (ended_ends _))
    simp only [AcquirePc.step, same, newWaits f grant, setFrame_setFrame]
    rfl

/-- The scan meets the holders in the order of the list. -/
theorem scan_run {outcome : Outcome AcquirePc} {remaining : List UInt64} :
    ∀ (lockHolders : List UInt64) (conflict : Bool),
      AcquireRun t p mode lm (.scan []
        (remaining.foldl (fun set holder => StdSet.insert idLt holder set) lockHolders)
        (conflict || remaining.any fun holder =>
          mode = .exclusive || (lm.pageLocks p).hasExclusiveLock holder)) lm' outcome →
      AcquireRun t p mode lm (.scan remaining lockHolders conflict) lm' outcome := by
  induction remaining with
  | nil =>
    intro lockHolders conflict rest
    simpa using rest
  | cons holder remaining ih =>
    intro lockHolders conflict rest
    have first : AcquirePc.step lm t p mode (.scan (holder :: remaining) lockHolders conflict)
        (.visit holder) = some (lm, .next (.scan remaining (StdSet.insert idLt holder lockHolders)
          (conflict || mode = .exclusive || (lm.pageLocks p).hasExclusiveLock holder))) := by
      simp only [AcquirePc.step, List.mem_cons_self, if_true, List.erase_cons_head]
    refine .more (.visit holder) first (ih _ _ ?_)
    rw [List.foldl_cons, List.any_cons, ← Bool.or_assoc, ← Bool.or_assoc] at rest
    exact rest

/-- The sections of the deadlock check, one for each holder. -/
theorem deadlock_run {outcome : Outcome AcquirePc} (free : lm.mutex = none)
    (lockHolders : List UInt64) :
    ∀ graph : WaitingGraph,
      (∀ hasDeadlock graph', LockManager.checkDeadlocks t graph lockHolders = (hasDeadlock, graph') →
        if hasDeadlock then lm' = { lm with waitingGraph := graph' } ∧ outcome = .threw
        else AcquireRun t p mode { lm with waitingGraph := graph' } (.grant true) lm' outcome) →
      AcquireRun t p mode { lm with waitingGraph := graph } (.deadlock lockHolders) lm' outcome := by
  induction lockHolders with
  | nil => exact fun graph rest => .more .proceed rfl (rest false graph rfl)
  | cons holder lockHolders ih =>
    intro graph rest
    cases checked : checkDeadlock graph t holder with
    | mk hasDeadlock graph' =>
      simp only [LockManager.checkDeadlocks, checked] at rest
      have first : AcquirePc.step { lm with waitingGraph := graph } t p mode
          (.deadlock (holder :: lockHolders)) .proceed =
          some ({ lm with waitingGraph := graph' },
            if hasDeadlock then .threw else .next (.deadlock lockHolders)) := by
        simp only [AcquirePc.step, checked, LockManager.locked, free, if_true]
      cases hasDeadlock with
      | true =>
        obtain ⟨rfl, rfl⟩ := rest true graph' rfl
        exact .last .proceed first (ended_ends false)
      | false => exact .more .proceed first (ih graph' rest)

theorem afterScan_run (free : lm.mutex = none) {lockHolders : List UInt64} {conflict : Bool} :
    AcquireRun t p mode lm (if conflict then .deadlock lockHolders else .grant false)
      (lm.afterScan t p mode lockHolders conflict).1
      (ended (lm.afterScan t p mode lockHolders conflict).2) := by
  cases conflict with
  | false => exact grantOrThrow_run free
  | true =>
    refine deadlock_run free lockHolders lm.waitingGraph fun hasDeadlock graph' checked => ?_
    simp only [LockManager.afterScan, checked, if_true]
    cases hasDeadlock with
    | true => exact ⟨rfl, rfl⟩
    | false => exact grantOrThrow_run free

/-- `acquire_lock` is the run of its sections in which every wait times out. -/
theorem acquireLock_run (free : lm.mutex = none) :
    AcquireRun t p mode lm .getFrame (lm.acquireLock t p mode).1
      (ended (lm.acquireLock t p mode).2) := by
  have unlocked : ({ { lm with mutex := some t } with mutex := none } : LockManager) = lm := by
    rw [← free]
  have scans : ∀ result : LockManager × Bool,
      (∀ conflict, conflict = ((lm.holders t p).any fun holder =>
          mode = .exclusive || (lm.pageLocks p).hasExclusiveLock holder) →
        AcquireRun t p mode lm (if conflict then .deadlock ((lm.holders t p).foldl
          (fun set holder => StdSet.insert idLt holder set) []) else .grant false) result.1
          (ended result.2)) →
      AcquireRun t p mode lm .beginScan result.1 (ended result.2) := by
    intro result rest
    refine .more .proceed (if_pos free) (scan_run _ _ (.more .proceed ?_ (rest _ rfl)))
    simp only [AcquirePc.step, Bool.false_or, if_true, unlocked]
  refine .more .proceed (if_pos free) ?_
  simp only [LockManager.acquireLock]
  split
  · rename_i enough
    obtain ⟨has, covers⟩ := enough
    rcases covers with rfl | exclusive
    · refine .last .proceed ?_ (ended_ends _)
      simp only [AcquirePc.step, has, if_true]
      rfl
    · cases mode with
      | shared =>
        refine .last .proceed ?_ (ended_ends _)
        simp only [AcquirePc.step, has, if_true]
        rfl
      | exclusive =>
        have first : AcquirePc.step lm t p .exclusive .hasLock .proceed =
            some (lm, .next .hasExclusive) := by
          simp only [AcquirePc.step, has, if_true]
          rfl
        refine .more .proceed first (.last .proceed ?_ (ended_ends _))
        simp only [AcquirePc.step, exclusive, if_true]
        rfl
  · rename_i notEnough
    cases has : (lm.pageLocks p).hasLock t with
    | false =>
      have first : AcquirePc.step lm t p mode .hasLock .proceed = some (lm, .next .beginScan) := by
        simp only [AcquirePc.step, has]
        rfl
      rw [if_neg (fun both => Bool.false_ne_true both.1)]
      refine .more .proceed first (scans _ fun conflict isConflict => ?_)
      subst isConflict
      exact afterScan_run free
    | true =>
      obtain ⟨notShared, notExclusive⟩ := not_or.mp fun covers => notEnough ⟨has, covers⟩
      have first : AcquirePc.step lm t p mode .hasLock .proceed = some (lm, .next .hasExclusive) := by
        simp only [AcquirePc.step, has, if_true, if_neg notShared]
      have second : AcquirePc.step lm t p mode .hasExclusive .proceed =
          some (lm, .next .canUpgrade) := by
        simp only [AcquirePc.step, if_neg notExclusive]
      refine .more .proceed first (.more .proceed second ?_)
      split
      · rename_i upgrade
        have third : AcquirePc.step lm t p mode .canUpgrade .proceed =
            some (lm, .next (.grant false)) := by
          simp only [AcquirePc.step, if_pos upgrade.2]
        exact .more .proceed third (grantOrThrow_run free)
      · rename_i noUpgrade
        have third : AcquirePc.step lm t p mode .canUpgrade .proceed =
            some (lm, .next .beginScan) := by
          simp only [AcquirePc.step, if_neg fun can => noUpgrade ⟨rfl, can⟩]
        refine .more .proceed third (scans _ fun conflict isConflict => ?_)
        subst isConflict
        exact afterScan_run free

/-- The releases of the pages, one after the other. -/
theorem releases_run (pages : List UInt64) : ∀ lm : LockManager, lm.mutex = none →
    ReleaseRun t lm (.getFrame pages)
      (pages.foldl (fun lm pageId => lm.releaseLock t pageId) lm) := by
  induction pages with
  | nil => exact fun lm _ => .last rfl
  | cons p pages ih =>
    intro lm free
    have first : ReleasePc.step lm t (.getFrame (p :: pages)) = some (lm, .next (.frame p pages)) :=
      if_pos free
    have third : ReleasePc.step (lm.setFrame p ((lm.pageLocks p).releaseLock t)) t
        (.forget p pages) = some (lm.releaseLock t p, .next (.getFrame pages)) := if_pos free
    exact .more first (.more rfl (.more third (ih _ free)))

theorem releaseAllLocks_run (free : lm.mutex = none) :
    ReleaseRun t lm .snapshot (lm.releaseAllLocks t) := by
  have first : ReleasePc.step lm t .snapshot =
      some (lm, .next (.getFrame (SetMap.get lm.txnLocks t))) := if_pos free
  exact .more first (releases_run _ lm free)

/-! ## What they do to the lock tables -/

/-- What `acquire_lock` guarantees. -/
structure Acquires (lm : LockManager) (t p : UInt64) (mode : LockMode) (lm' : LockManager)
    (acquired : Bool) : Prop extends Grants lm t p mode lm' where
  covers : acquired = true → Covers (lm'.granted p) t mode
  refused : acquired = false → lm'.granted p = lm.granted p

/-- A call that leaves the tables as they are. -/
theorem Acquires.same {acquired : Bool} (tables : lm'.pageLocks = lm.pageLocks)
    (covers : acquired = true → Covers (lm.granted p) t mode) :
    Acquires lm t p mode lm' acquired where
  toGrants := .same tables
  covers := by rwa [LockManager.granted, tables]
  refused _ := by rw [LockManager.granted, tables, LockManager.granted]

theorem grantOrThrow_spec (lm : LockManager) : Acquires lm t p mode
    (lm.grantOrThrow t p mode afterConflict).1 (lm.grantOrThrow t p mode afterConflict).2 := by
  unfold LockManager.grantOrThrow
  rcases grantLock_cases (lm.pageLocks p) t mode with
    ⟨f, isGranted, gains, covers⟩ | ⟨position, waits, _⟩ | ⟨f, waits, same, _⟩
  · rw [isGranted]
    obtain ⟨gains, others⟩ : Grants lm t p mode (lm.setFrame p f) := .frame gains
    refine ⟨⟨gains, others⟩, fun _ => ?_, fun impossible => by cases impossible⟩
    exact (LockManager.granted_setFrame_self lm p f).symm ▸ covers
  · rw [waits]
    exact .same rfl fun impossible => by cases impossible
  · rw [waits]
    have table : (f.stopWaiting t).grantedLocks = lm.granted p := same
    refine ⟨.frame (table ▸ .same _), fun impossible => (by cases impossible), fun _ => ?_⟩
    exact (LockManager.granted_setFrame_self lm p _).trans table

theorem acquireLock_spec (lm : LockManager) (t p : UInt64) (mode : LockMode) :
    Acquires lm t p mode (lm.acquireLock t p mode).1 (lm.acquireLock t p mode).2 := by
  simp only [LockManager.acquireLock]
  split
  · rename_i enough
    refine .same rfl fun _ => ?_
    rcases enough with ⟨has, rfl | exclusive⟩
    · exact hasLock_iff.mp has
    · obtain ⟨lock, member, own, isExclusive⟩ := hasExclusiveLock_iff.mp exclusive
      exact ⟨lock, member, own, fun _ => isExclusive rfl⟩
  · split
    · exact grantOrThrow_spec lm
    · unfold LockManager.afterScan
      split
      · generalize LockManager.checkDeadlocks t lm.waitingGraph _ = result
        obtain ⟨hasDeadlock, graph⟩ := result
        cases hasDeadlock with
        | true => exact .same rfl fun impossible => by cases impossible
        | false =>
          obtain ⟨⟨gains, others⟩, covers, refused⟩ :=
            grantOrThrow_spec (t := t) (p := p) { lm with waitingGraph := graph }
          exact ⟨⟨gains, others⟩, covers, refused⟩
      · exact grantOrThrow_spec lm

/-- What a release of all pages of a transaction does to the lock tables. -/
structure Releases (lm : LockManager) (t : UInt64) (lm' : LockManager) : Prop where
  others : ∀ u, u ≠ t → ∀ q mode, Covers (lm'.granted q) u mode ↔ Covers (lm.granted q) u mode
  compatible : (∀ q, Compatible (lm.granted q)) → ∀ q, Compatible (lm'.granted q)

theorem releaseAllLocks_spec (lm : LockManager) (t : UInt64) :
    Releases lm t (lm.releaseAllLocks t) := by
  unfold LockManager.releaseAllLocks
  generalize SetMap.get lm.txnLocks t = pages
  induction pages generalizing lm with
  | nil => exact ⟨fun _ _ _ _ => Iff.rfl, id⟩
  | cons p pages ih =>
    obtain ⟨others, compatible⟩ := ih (lm.releaseLock t p)
    refine ⟨fun u different q mode => ?_, fun before => compatible ?_⟩
    · exact (others u different q mode).trans (covers_release lm (Or.inl different))
    · exact compatible_release before t p

end BuzzDB.Locking
