import BuzzDB.Locking.Exclusion
import Mathlib.Tactic.TFAE

/-!
# No lost wake-ups

The condition variable of `FrameLockManager`.  A call that finds the predicate of its wait
false goes to sleep, and looks again when it is awake: behind the `notify_all` of
`release_lock`, behind its deadline, or for no reason.

Granting a lock never makes the predicate of another call true, and releasing one notifies.  So a
call sleeps only while its predicate is false.  The machines of the other modules have no
condition variable, and let a wait end whenever its predicate holds: their runs are those that are
possible with one.
-/

namespace BuzzDB.Locking

/-! ## What others do to a predicate -/

/-- What a grant for `t` leaves of the table: the entries of the others are there, and none of them is
alone that was not. -/
structure Grows (t : UInt64) (granted granted' : List Lock) : Prop where
  keeps : ∀ lock ∈ granted, ∃ lock' ∈ granted', lock'.txnId = lock.txnId ∧
    (lock.mode = .exclusive → lock'.mode = .exclusive)
  alone : ∀ lock, granted' = [lock] → lock.txnId ≠ t → granted = [lock]

section Grows

variable {t u : UInt64} {mode other : LockMode} {f f' : FrameLockManager} {granted granted' : List Lock}

theorem Grows.refl (t : UInt64) (granted : List Lock) : Grows t granted granted :=
  ⟨fun lock member => ⟨lock, member, rfl, id⟩, fun _ same _ => same⟩

theorem Gains.grows (gains : Gains t mode granted granted') : Grows t granted granted' := by
  cases gains with
  | same => exact .refl t granted
  | add absent free shared =>
    refine ⟨fun lock member => ⟨lock, List.mem_append_left _ member, rfl, id⟩, fun lock only own => ?_⟩
    have last : (⟨t, mode⟩ : Lock) ∈ [lock] := only ▸ List.mem_append_right _ (List.mem_singleton_self _)
    rw [← List.mem_singleton.mp last] at own
    exact absurd rfl own
  | @upgrade entry own =>
    refine ⟨fun lock member => ⟨_, List.mem_singleton_self _, ?_, fun _ => rfl⟩, fun lock only own => ?_⟩
    · rw [List.mem_singleton.mp member, ‹entry.txnId = t›]
    · cases only
      exact absurd rfl own

/-- An upgrade that goes on, whatever position it writes to. -/
theorem grows_setExclusive {lock : Lock} (only : f.grantedLocks = [lock]) (own : lock.txnId = t)
    (existingLock : Nat) : Grows t f.grantedLocks (f.setExclusive existingLock).grantedLocks := by
  cases existingLock with
  | zero =>
    have gains : Gains t .exclusive _ _ := (setExclusive_gains only own).1
    exact gains.grows
  | succ position =>
    rw [upgrade_elsewhere f (upgradePred_iff.mpr ⟨lock, only, own⟩) (Nat.succ_ne_zero position)]
    exact .refl t _

theorem waitPred_iff : f.waitPred u mode = true ↔
    ∀ lock ∈ f.grantedLocks, (mode = .exclusive ∨ lock.mode = .exclusive) → lock.txnId = u := by
  cases mode with
  | exclusive => simp [FrameLockManager.waitPred]
  | shared => simp [FrameLockManager.waitPred, imp_iff_not_or]

/-- A predicate that holds behind a grant for another transaction has held before. -/
theorem Grows.waitPred (grows : Grows t f.grantedLocks f'.grantedLocks)
    (pred : f'.waitPred u mode = true) : f.waitPred u mode = true := by
  rw [waitPred_iff] at pred ⊢
  intro lock member conflicts
  obtain ⟨lock', member', same, strong⟩ := grows.keeps lock member
  exact same.symm.trans (pred lock' member' (conflicts.imp_right strong))

theorem Grows.upgradePred (grows : Grows t f.grantedLocks f'.grantedLocks) (different : u ≠ t)
    (pred : f'.upgradePred u = true) : f.upgradePred u = true := by
  obtain ⟨lock, only, own⟩ := upgradePred_iff.mp pred
  exact upgradePred_iff.mpr ⟨lock, grows.alone lock only (own ▸ different), own⟩

end Grows

/-! ## Sleeping -/

namespace Wakeups

/-- The page whose lock the call waits for. -/
def waitsAt : Pc → Option UInt64
  | .acquire pageId _ (.wait _) | .acquire pageId _ (.waitUpgrade _ _) => some pageId
  | _ => none

/-- The call is in a wait, and its predicate is false. -/
def blocked (lm : LockManager) (txnId : UInt64) : Pc → Bool
  | .acquire pageId mode (.wait _) => !(lm.pageLocks pageId).waitPred txnId mode
  | .acquire pageId _ (.waitUpgrade _ _) => !(lm.pageLocks pageId).upgradePred txnId
  | _ => false

/-- The callers of the lock manager, and who of them sleeps. -/
structure State where
  calls : Locking.State
  asleep : UInt64 → Bool

/-- A section of a call, the deadline of a wait, a wake-up for no reason, or a look at the predicate. -/
inductive Action
  | call (action : Locking.Action)
  | deadline (txnId : UInt64)
  | spurious (txnId : UInt64)
  | recheck (txnId : UInt64)

/-- Who acts. -/
def actor : Locking.Action → UInt64
  | .acquireLock txnId _ _ | .releaseLock txnId _ | .releaseAllLocks txnId | .step txnId _ => txnId

/-- The page that is notified. -/
def notifies (s : Locking.State) : Locking.Action → Option UInt64
  | .step txnId _ =>
    match s.pcs txnId with
    | .release pc => pc.releases
    | _ => none
  | _ => none

namespace State

def new : State := ⟨Locking.State.new, fun _ => false⟩

variable (s : State)

/-- Behind a section: whoever has come to a wait sleeps if its predicate is false, and whoever waits for a
page that is notified is awake. -/
def behind (action : Locking.Action) (calls : Locking.State) : State where
  calls := calls
  asleep u :=
    if u = actor action then blocked calls.lm u (calls.pcs u)
    else s.asleep u &&
      !((notifies s.calls action).isSome && waitsAt (s.calls.pcs u) = notifies s.calls action)

/-- One action.  A call that sleeps does nothing. -/
def step : Action → Option State
  | .call action =>
    if s.asleep (actor action) then none else (s.calls.step action).map (s.behind action)
  | .deadline txnId | .spurious txnId =>
    some { s with asleep := Function.update s.asleep txnId false }
  | .recheck txnId =>
    if blocked s.calls.lm txnId (s.calls.pcs txnId) then
      some { s with asleep := Function.update s.asleep txnId true }
    else none

/-- Nobody sleeps whose predicate holds. -/
def NoneLost : Prop := ∀ u, s.asleep u = true → blocked s.calls.lm u (s.calls.pcs u) = true

end State

/-- The sections of the calls. -/
def calls : List Action → List Locking.Action
  | [] => []
  | .call action :: actions => action :: calls actions
  | _ :: actions => calls actions

/-- An action, where it is a timeout behind the deadline. -/
def around : Locking.Action → List Action
  | .step txnId .timeout => [.deadline txnId, .call (.step txnId .timeout)]
  | action => [.call action]

/-- The run in which nobody wakes up but by a notification or its deadline. -/
def withDeadlines (actions : List Locking.Action) : List Action := actions.flatMap around

variable {s s' : Locking.State} {c c' : State} {action : Locking.Action} {lm lm' : LockManager}
  {t u p : UInt64} {mode : LockMode} {pc : Pc}

theorem blocked_congr (same : lm'.pageLocks = lm.pageLocks) : blocked lm' u pc = blocked lm u pc := by
  unfold blocked
  rw [same]

theorem blocked_setFrame_of_ne (f : FrameLockManager) (elsewhere : waitsAt pc ≠ some p) :
    blocked (lm.setFrame p f) u pc = blocked lm u pc := by
  have frame : ∀ q, some q ≠ some p → (lm.setFrame p f).pageLocks q = lm.pageLocks q := fun q different =>
    Function.update_of_ne (fun same => different (congrArg some same)) _ _
  unfold blocked
  split
  · rw [frame _ elsewhere]
  · rw [frame _ elsewhere]
  · rfl

/-- A grant for another transaction lets no wait go on. -/
theorem blocked_of_grows (grows : ∀ q, Grows t (lm.granted q) (lm'.granted q)) (different : u ≠ t)
    (waits : blocked lm u pc = true) : blocked lm' u pc = true := by
  unfold blocked at waits ⊢
  split at waits
  · rename_i q _ _
    rw [Bool.not_eq_true', Bool.eq_false_iff] at waits ⊢
    exact fun pred => waits ((grows q).waitPred pred)
  · rename_i q _ _ _
    rw [Bool.not_eq_true', Bool.eq_false_iff] at waits ⊢
    exact fun pred => waits ((grows q).upgradePred different pred)
  · cases waits

/-- A section of `acquire_lock` only adds to the tables. -/
theorem grows_of_steps {pc : AcquirePc} {choice : Choice} {outcome : Outcome AcquirePc}
    (steps : pc.Steps lm t p mode choice lm' outcome) (q : UInt64) :
    Grows t (lm.granted q) (lm'.granted q) := by
  have frame : ∀ f : FrameLockManager, Grows t (lm.granted p) f.grantedLocks →
      Grows t (lm.granted q) ((lm.setFrame p f).granted q) := by
    intro f grows
    rcases eq_or_ne q p with rfl | elsewhere
    · rwa [LockManager.granted_setFrame_self]
    · rw [LockManager.granted_setFrame_of_ne _ _ elsewhere]
      exact .refl t _
  cases steps with
  | grants gains covers => exact frame _ gains.grows
  | blocks same absent => exact frame _ (same ▸ .refl t _)
  | upgradeGoesOn only own => exact frame _ (grows_setExclusive only own _)
  | @goesOn afterConflict pred =>
    refine frame _ ?_
    by_cases has : ((lm.pageLocks p).stopWaiting t).hasLock t
    · rw [FrameLockManager.addLock, if_pos has]
      exact .refl t _
    · have absent : Absent (lm.granted p) t := absent_iff.mpr (mt hasLock_iff.mpr has)
      obtain ⟨free, shared⟩ := free_of_waitPred absent pred
      have gains : Gains t mode _ _ := (addLock_gains (f := (lm.pageLocks p).stopWaiting t) absent free shared).1
      exact gains.grows
  | timesOut pred => exact frame _ (.refl t _)
  | _ => exact .refl t _

/-- What a section leaves blocked, unless it notifies. -/
theorem blocked_step (stepped : s.step action = some s') (different : u ≠ actor action)
    (silent : waitsAt (s.pcs u) = none ∨ waitsAt (s.pcs u) ≠ notifies s action)
    (waits : blocked s.lm u (s.pcs u) = true) : blocked s'.lm u (s'.pcs u) = true := by
  have started : ∀ t pc, u ≠ t → s.start t pc = some s' → blocked s'.lm u (s'.pcs u) = true := by
    intro t pc different started
    unfold Locking.State.start at started
    split at started
    · cases started
      exact (congrArg (blocked s.lm u) (Function.update_of_ne different _ _)).trans waits
    · cases started
  cases action with
  | acquireLock t p mode => exact started t _ different stepped
  | releaseLock t p => exact started t _ different stepped
  | releaseAllLocks t => exact started t _ different stepped
  | step t choice =>
    change u ≠ t at different
    cases isAt : s.pcs t with
    | idle =>
      simp only [Locking.State.step, isAt] at stepped
      cases stepped
    | acquire p mode pc =>
      simp only [Locking.State.step, isAt] at stepped
      obtain ⟨⟨lm, outcome⟩, ran, rfl⟩ := Option.map_eq_some_iff.mp stepped
      have grows := grows_of_steps (AcquirePc.step_cases ran)
      have after := blocked_of_grows grows different waits
      cases outcome <;> exact (congrArg (blocked lm u) (Function.update_of_ne different _ _)).trans after
    | release pc =>
      simp only [Locking.State.step, isAt] at stepped
      obtain ⟨⟨lm, outcome⟩, ran, rfl⟩ := Option.map_eq_some_iff.mp stepped
      refine (congrArg (blocked lm u) (Function.update_of_ne different _ _)).trans ?_
      rcases ReleasePc.step_spec ran with ⟨p, pages, rfl, rfl, rfl⟩ | ⟨elsewhere, tables⟩
      · have isNotified : notifies s (.step t choice) = some p := by
          simp only [notifies, isAt]
          rfl
        rw [blocked_setFrame_of_ne]
        · exact waits
        · rcases silent with none | other
          · rw [none]
            exact (Option.some_ne_none p).symm
          · rwa [isNotified] at other
      · rwa [blocked_congr tables]

theorem State.NoneLost.step {action : Action} (none : c.NoneLost) (stepped : c.step action = some c') :
    c'.NoneLost := by
  cases action with
  | deadline t | spurious t =>
    cases stepped
    intro u sleeps
    rcases eq_or_ne u t with rfl | different
    · cases (Function.update_self (f := c.asleep) u false).symm.trans sleeps
    · exact none u ((Function.update_of_ne different _ _).symm.trans sleeps)
  | recheck t =>
    obtain ⟨waits, same⟩ := Option.ite_none_right_eq_some.mp stepped
    cases same
    intro u sleeps
    rcases eq_or_ne u t with rfl | different
    · exact waits
    · exact none u ((Function.update_of_ne different _ _).symm.trans sleeps)
  | call action =>
    obtain ⟨-, ran⟩ := Option.ite_none_left_eq_some.mp stepped
    obtain ⟨calls, section', rfl⟩ := Option.map_eq_some_iff.mp ran
    intro u sleeps
    change (if u = actor action then _ else _) = true at sleeps
    split at sleeps
    · exact sleeps
    · rename_i different
      rw [Bool.and_eq_true, Bool.not_eq_true', Bool.and_eq_false_iff] at sleeps
      obtain ⟨before, silent⟩ := sleeps
      refine blocked_step section' different ?_ (none u before)
      rcases silent with nobody | elsewhere
      · rw [Option.isSome_eq_false_iff, Option.isNone_iff_eq_none] at nobody
        rw [nobody]
        exact (eq_or_ne _ _)
      · exact Or.inr (of_decide_eq_false elsewhere)

/-- Whatever the calls do and in whatever order, a call that sleeps waits for a predicate that is
false: no wake-up is lost. -/
theorem noneLost {actions : List Action} (ran : Machine.run State.step State.new actions = some c) :
    c.NoneLost :=
  Machine.reached (fun _ _ _ none stepped => State.NoneLost.step none stepped)
    (fun _ impossible => by cases impossible) ran

/-- Transaction 2 waits for a lock of transaction 1. -/
def oneSleeps : List Locking.Action :=
  .acquireLock 1 0 .exclusive :: sections 1 6 ++
  .acquireLock 2 0 .shared :: sections 2 3 ++ .step 2 (.visit 1) :: sections 2 4

theorem noneLost_oneSleeps : ∃ c, Machine.run State.step State.new (oneSleeps.map .call) = some c ∧
    c.asleep 2 = true ∧ c.NoneLost := by
  generalize isRun : Machine.run State.step State.new (oneSleeps.map .call) = result
  have sleeps : result.map (fun c => c.asleep 2) = some true := by
    rw [← isRun]
    decide +kernel
  obtain ⟨c, isSome, asleep⟩ := Option.map_eq_some_iff.mp sleeps
  exact ⟨c, isSome, asleep, noneLost (isRun.trans isSome)⟩

/-! ## Runs with and without the condition variable -/

theorem around_eq (action : Locking.Action) : around action = [.call action] ∨
    ∃ t, action = .step t .timeout ∧ around action = [.deadline t, .call (.step t .timeout)] := by
  unfold around
  split
  · exact Or.inr ⟨_, rfl, rfl⟩
  · exact Or.inl rfl

theorem calls_withDeadlines (actions : List Locking.Action) : calls (withDeadlines actions) = actions := by
  induction actions with
  | nil => rfl
  | cons action actions ih =>
    rw [withDeadlines, List.flatMap_cons, ← withDeadlines]
    rcases around_eq action with plain | ⟨t, rfl, late⟩
    · rw [plain]
      exact congrArg _ ih
    · rw [late]
      exact congrArg _ ih

/-- The condition variable makes no call do what it could not do without. -/
theorem calls_run {actions : List Action} (ran : Machine.run State.step c actions = some c') :
    Machine.run Locking.State.step c.calls (calls actions) = some c'.calls := by
  induction actions generalizing c with
  | nil =>
    cases ran
    rfl
  | cons action actions ih =>
    obtain ⟨mid, stepped, rest⟩ := Machine.run_cons ran
    have later := ih rest
    cases action with
    | call action =>
      obtain ⟨-, section'⟩ := Option.ite_none_left_eq_some.mp stepped
      obtain ⟨calls, next, rfl⟩ := Option.map_eq_some_iff.mp section'
      rw [Wakeups.calls, Machine.run, List.foldlM_cons, next]
      exact later
    | deadline t | spurious t =>
      cases stepped
      exact later
    | recheck t =>
      obtain ⟨-, same⟩ := Option.ite_none_right_eq_some.mp stepped
      cases same
      exact later

/-- A wait whose predicate is false ends with its timeout only. -/
theorem timeout_of_blocked (waits : blocked s.lm (actor action) (s.pcs (actor action)) = true)
    (stepped : s.step action = some s') : ∃ t, action = .step t .timeout := by
  have notIdle : ∀ t pc, s.start t pc = some s' → s.pcs t = .idle := by
    intro t pc started
    unfold Locking.State.start at started
    split at started
    · assumption
    · cases started
  have idle : ∀ t, s.pcs t = .idle → blocked s.lm t (s.pcs t) = true → False := by
    intro t isAt waits
    rw [isAt] at waits
    cases waits
  cases action with
  | acquireLock t p mode => exact (idle t (notIdle t _ stepped) waits).elim
  | releaseLock t p => exact (idle t (notIdle t _ stepped) waits).elim
  | releaseAllLocks t => exact (idle t (notIdle t _ stepped) waits).elim
  | step t choice =>
    change blocked s.lm t (s.pcs t) = true at waits
    cases isAt : s.pcs t with
    | idle => exact (idle t isAt waits).elim
    | release pc =>
      rw [isAt] at waits
      cases waits
    | acquire p mode pc =>
      rw [isAt] at waits
      simp only [Locking.State.step, isAt] at stepped
      obtain ⟨⟨lm, outcome⟩, ran, -⟩ := Option.map_eq_some_iff.mp stepped
      cases AcquirePc.step_cases ran with
      | goesOn pred =>
        rw [blocked, pred] at waits
        cases waits
      | upgradeGoesOn only own =>
        rw [blocked, upgradePred_iff.mpr ⟨_, only, own⟩] at waits
        cases waits
      | timesOut | upgradeTimesOut => exact ⟨t, rfl⟩
      | _ => cases waits

theorem run_around (sound : c.NoneLost) (stepped : c.calls.step action = some s') :
    ∃ c', Machine.run State.step c (around action) = some c' ∧ c'.calls = s' := by
  have goesOn : ∀ d : State, d.calls = c.calls → d.asleep (actor action) = false →
      d.step (.call action) = some (d.behind action s') := by
    intro d same awake
    rw [State.step, awake, if_neg Bool.false_ne_true, same, stepped]
    rfl
  rcases around_eq action with plain | ⟨t, rfl, late⟩
  · by_cases sleeps : c.asleep (actor action) = true
    · obtain ⟨t, rfl⟩ := timeout_of_blocked (sound _ sleeps) stepped
      cases plain
    · rw [plain, Machine.run, List.foldlM_cons, goesOn c rfl (Bool.eq_false_iff.mpr sleeps)]
      exact ⟨_, rfl, rfl⟩
  · have timesOut := goesOn { c with asleep := Function.update c.asleep t false } rfl
      (Function.update_self _ _ _)
    rw [late]
    change ∃ c', Machine.run State.step { c with asleep := Function.update c.asleep t false }
      [.call (.step t .timeout)] = some c' ∧ _
    rw [Machine.run, List.foldlM_cons, timesOut]
    exact ⟨_, rfl, rfl⟩

/-- Notifications and deadlines are all that a run needs to go on. -/
theorem run_withDeadlines {actions : List Locking.Action} (sound : c.NoneLost)
    (ran : Machine.run Locking.State.step c.calls actions = some s) :
    ∃ c', Machine.run State.step c (withDeadlines actions) = some c' ∧ c'.calls = s := by
  induction actions generalizing c with
  | nil =>
    cases ran
    exact ⟨c, rfl, rfl⟩
  | cons action actions ih =>
    obtain ⟨mid, stepped, rest⟩ := Machine.run_cons ran
    obtain ⟨d, first, rfl⟩ := run_around sound stepped
    have soundBehind : d.NoneLost :=
      Machine.reached (fun _ _ _ sound stepped => State.NoneLost.step sound stepped) sound first
    obtain ⟨c', later, same⟩ := ih soundBehind rest
    refine ⟨c', ?_, same⟩
    rw [withDeadlines, List.flatMap_cons, Machine.run_append, first]
    exact later

/-- What calls can do whose waits end whenever their predicates hold is what they can do with the
condition variable, and no wake-up for no reason is needed for it. -/
theorem waits_exact (actions : List Locking.Action) (s : Locking.State) :
    List.TFAE [Machine.run Locking.State.step Locking.State.new actions = some s,
      ∃ c, Machine.run State.step State.new (withDeadlines actions) = some c ∧ c.calls = s,
      ∃ actions' c, calls actions' = actions ∧ Machine.run State.step State.new actions' = some c ∧
        c.calls = s] := by
  tfae_have 1 → 2 := fun ran =>
    run_withDeadlines (c := State.new) (fun _ impossible => by cases impossible) ran
  tfae_have 2 → 3 := fun ⟨c, ran, same⟩ => ⟨_, c, calls_withDeadlines actions, ran, same⟩
  tfae_have 3 → 1 := by
    rintro ⟨actions', c, rfl, ran, rfl⟩
    exact calls_run ran
  tfae_finish

end Wakeups

end BuzzDB.Locking
