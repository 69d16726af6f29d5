import BuzzDB.Lib.Machine
import BuzzDB.Locking.Calls

/-!
# Exclusive locks exclude

Any number of transactions, each in one call of the lock manager at a time, and any
order of their critical sections.  `held` records what the calls have promised: a lock is
held from the return of its `acquire_lock` to the section that releases the page.

An exclusive lock excludes every other one as long as no waiting upgrade goes on with a
reference to a position other than the first.  Where one does, the entry stays shared:
the table has one entry then, and the reference is behind its end.
-/

namespace BuzzDB.Locking

/-- What a transaction is doing. -/
inductive Pc
  | idle
  | acquire (pageId : UInt64) (mode : LockMode) (pc : AcquirePc)
  | release (pc : ReleasePc)

/-- A lock that `acquire_lock` has returned. -/
structure Hold where
  txnId : UInt64
  pageId : UInt64
  mode : LockMode
  deriving DecidableEq

/-- The lock manager and its callers. -/
structure State where
  lm : LockManager
  pcs : UInt64 → Pc
  held : List Hold

/-- What can happen next. -/
inductive Action
  | acquireLock (txnId pageId : UInt64) (mode : LockMode)
  | releaseLock (txnId pageId : UInt64)
  | releaseAllLocks (txnId : UInt64)
  | step (txnId : UInt64) (choice : Choice)

/-- The page that the next section of a release takes the lock of. -/
def ReleasePc.releases : ReleasePc → Option UInt64
  | .frame pageId _ => some pageId
  | _ => none

namespace State

/-- No locks and no calls. -/
def new : State := ⟨LockManager.new, fun _ => .idle, []⟩

variable (s : State)

/-- A transaction that is in no call starts one. -/
def start (txnId : UInt64) (pc : Pc) : Option State :=
  match s.pcs txnId with
  | .idle => some { s with pcs := Function.update s.pcs txnId pc }
  | _ => none

/-- Behind a section of `acquire_lock`. -/
def acquired (txnId pageId : UInt64) (mode : LockMode) (lm : LockManager) :
    Outcome AcquirePc → State
  | .next pc => { s with lm, pcs := Function.update s.pcs txnId (.acquire pageId mode pc) }
  | .returned =>
    ⟨lm, Function.update s.pcs txnId .idle, ⟨txnId, pageId, mode⟩ :: s.held⟩
  | .threw => { s with lm, pcs := Function.update s.pcs txnId .idle }

/-- Behind a section of a release. -/
def released (txnId : UInt64) (pageId : Option UInt64) (lm : LockManager)
    (outcome : Outcome ReleasePc) : State where
  lm := lm
  pcs := Function.update s.pcs txnId <| match outcome with
    | .next pc => .release pc
    | _ => .idle
  held := s.held.filter fun hold => !(hold.txnId = txnId && pageId = some hold.pageId)

/-- One action. -/
def step : Action → Option State
  | .acquireLock txnId pageId mode => s.start txnId (.acquire pageId mode .getFrame)
  | .releaseLock txnId pageId => s.start txnId (.release (.getFrame [pageId]))
  | .releaseAllLocks txnId => s.start txnId (.release .snapshot)
  | .step txnId choice =>
    match s.pcs txnId with
    | .idle => none
    | .acquire pageId mode pc =>
      (pc.step s.lm txnId pageId mode choice).map fun result =>
        s.acquired txnId pageId mode result.1 result.2
    | .release pc =>
      (pc.step s.lm txnId).map fun result => s.released txnId pc.releases result.1 result.2

/-- No lock is held beside an exclusive one of another transaction. -/
def Excludes : Prop :=
  ∀ mine ∈ s.held, ∀ yours ∈ s.held, mine.mode = .exclusive → mine.pageId = yours.pageId →
    yours.txnId = mine.txnId

instance : Decidable s.Excludes := inferInstanceAs (Decidable (∀ _ ∈ _, ∀ _ ∈ _, _))

/-- The action is not a waiting upgrade that goes on with a reference to a position other than
the first. -/
def InPlace : Action → Prop
  | .step txnId choice =>
    match s.pcs txnId with
    | .acquire _ _ pc => pc.InPlace choice
    | _ => True
  | _ => True

instance : DecidablePred s.InPlace
  | .step txnId choice =>
    match isAt : s.pcs txnId with
    | .acquire _ _ pc => decidable_of_iff (pc.InPlace choice) (by simp only [InPlace, isAt])
    | .idle | .release _ => isTrue (by simp only [InPlace, isAt])
  | .acquireLock _ _ _ | .releaseLock _ _ | .releaseAllLocks _ => isTrue trivial

/-- The tables are compatible, they have what is held, and every call knows what it should. -/
structure Inv : Prop where
  compatible : ∀ p, Compatible (s.lm.granted p)
  covers : ∀ hold ∈ s.held, Covers (s.lm.granted hold.pageId) hold.txnId hold.mode
  knows : ∀ t p mode pc, s.pcs t = .acquire p mode pc → pc.Knows (s.lm.granted p) t mode

end State

variable {s s' : State} {t u p q : UInt64} {mode : LockMode}

theorem State.Inv.new : State.new.Inv where
  compatible _ := Compatible.nil
  covers _ member := by cases member
  knows _ _ _ _ impossible := by cases impossible

theorem State.Inv.excludes (inv : s.Inv) : s.Excludes := by
  intro mine inMine yours inYours exclusive same
  have myEntry := inv.covers mine inMine
  rw [exclusive, same] at myEntry
  exact (inv.compatible yours.pageId).excludes myEntry (inv.covers yours inYours)

/-- Starting a call that knows nothing yet. -/
theorem State.Inv.start {pc : Pc} (inv : s.Inv)
    (fresh : ∀ p mode a, pc = .acquire p mode a → a = .getFrame)
    (started : s.start t pc = some s') : s'.Inv := by
  unfold State.start at started
  split at started
  · cases started
    refine ⟨inv.compatible, inv.covers, fun u p mode a isAt => ?_⟩
    rcases eq_or_ne u t with rfl | different
    · rw [fresh p mode a ((Function.update_self _ _ _).symm.trans isAt)]
      trivial
    · exact inv.knows u p mode a ((Function.update_of_ne different _ _).symm.trans isAt)
  · cases started

theorem State.Inv.acquired {lm : LockManager} {pc : AcquirePc} {outcome : Outcome AcquirePc}
    (inv : s.Inv) (spec : AcquireStep s.lm t p mode pc lm outcome) : (s.acquired t p mode lm outcome).Inv := by
  have others : ∀ pc, ∀ u, u ≠ t → ∀ q other a, Function.update s.pcs t pc u = .acquire q other a →
      a.Knows (lm.granted q) u other := by
    intro pc u different q other a isAt
    rw [Function.update_of_ne different] at isAt
    exact (inv.knows u q other a isAt).others (spec.covers_iff different q)
  cases outcome with
  | next pc =>
    refine ⟨spec.compatible inv.compatible,
      fun hold member => spec.keeps (inv.covers hold member), fun u q other a isAt => ?_⟩
    rcases eq_or_ne u t with rfl | different
    · cases (Function.update_self _ _ _).symm.trans isAt
      exact spec.knows
    · exact others _ u different q other a isAt
  | returned =>
    refine ⟨spec.compatible inv.compatible, fun hold member => ?_, fun u q other a isAt => ?_⟩
    · rcases List.mem_cons.mp member with rfl | old
      · exact spec.knows
      · exact spec.keeps (inv.covers hold old)
    · rcases eq_or_ne u t with rfl | different
      · cases (Function.update_self _ _ _).symm.trans isAt
      · exact others _ u different q other a isAt
  | threw =>
    refine ⟨spec.compatible inv.compatible,
      fun hold member => spec.keeps (inv.covers hold member), fun u q other a isAt => ?_⟩
    rcases eq_or_ne u t with rfl | different
    · cases (Function.update_self _ _ _).symm.trans isAt
    · exact others _ u different q other a isAt

theorem State.Inv.released {lm : LockManager} {pc : ReleasePc} {outcome : Outcome ReleasePc}
    (inv : s.Inv) (ran : pc.step s.lm t = some (lm, outcome)) :
    (s.released t pc.releases lm outcome).Inv := by
  have mine : ∀ q other a, (s.released t pc.releases lm outcome).pcs t ≠ .acquire q other a := by
    intro q other a isAt
    have here := (Function.update_self _ _ _).symm.trans isAt
    split at here <;> cases here
  rcases ReleasePc.step_spec ran with ⟨p, pages, rfl, rfl, rfl⟩ | ⟨elsewhere, tables⟩
  · refine ⟨compatible_release inv.compatible t p, fun hold member => ?_, fun u q other a isAt => ?_⟩
    · obtain ⟨old, stays⟩ := List.mem_filter.mp member
      have kept : hold.txnId ≠ t ∨ hold.pageId ≠ p := by
        by_contra both
        obtain ⟨same, page⟩ := not_or.mp both
        simp [ReleasePc.releases, not_not.mp same, not_not.mp page] at stays
      exact (covers_release s.lm kept).mpr (inv.covers hold old)
    · rcases eq_or_ne u t with rfl | different
      · exact absurd isAt (mine q other a)
      · have before := (Function.update_of_ne different _ _).symm.trans isAt
        exact (inv.knows u q other a before).others
          fun _ => covers_release s.lm (Or.inl different)
  · have same : ∀ q, lm.granted q = s.lm.granted q := fun q => by
      rw [LockManager.granted, tables, LockManager.granted]
    refine ⟨fun q => same q ▸ inv.compatible q, fun hold member => ?_, fun u q other a isAt => ?_⟩
    · exact same hold.pageId ▸ inv.covers hold (List.mem_filter.mp member).1
    · rcases eq_or_ne u t with rfl | different
      · exact absurd isAt (mine q other a)
      · have before := (Function.update_of_ne different _ _).symm.trans isAt
        exact same q ▸ inv.knows u q other a before

theorem State.Inv.step {action : Action} (inv : s.Inv) (inPlace : s.InPlace action)
    (stepped : s.step action = some s') : s'.Inv := by
  cases action with
  | acquireLock t p mode =>
    refine inv.start (fun q other a same => ?_) stepped
    cases same
    rfl
  | releaseLock t p => exact inv.start (fun _ _ _ impossible => by cases impossible) stepped
  | releaseAllLocks t => exact inv.start (fun _ _ _ impossible => by cases impossible) stepped
  | step t choice =>
    cases isAt : s.pcs t with
    | idle =>
      simp only [State.step, isAt] at stepped
      cases stepped
    | acquire p mode pc =>
      simp only [State.step, State.InPlace, isAt] at stepped inPlace
      obtain ⟨result, ran, rfl⟩ := Option.map_eq_some_iff.mp stepped
      exact inv.acquired (AcquirePc.step_spec (inv.knows t p mode pc isAt) inPlace ran)
    | release pc =>
      simp only [State.step, isAt] at stepped
      obtain ⟨result, ran, rfl⟩ := Option.map_eq_some_iff.mp stepped
      exact inv.released ran

/-- As long as every waiting upgrade that goes on has a reference to the first position, a held
exclusive lock is the only lock that is held on its page. -/
theorem excludes_of_inPlace {actions : List Action}
    (inPlace : Machine.Along State.step State.InPlace State.new actions)
    (ran : Machine.run State.step State.new actions = some s) : s.Excludes :=
  State.Inv.excludes <| Machine.invariant
    (fun _ _ _ inv inPlace stepped => State.Inv.step inv inPlace stepped) State.Inv.new inPlace ran

/-- Any other reference leaves the table as it is: the upgrade returns with a shared entry. -/
theorem upgrade_elsewhere (f : FrameLockManager) {existingLock : Nat}
    (pred : f.upgradePred t = true) (behind : existingLock ≠ 0) :
    f.setExclusive existingLock = f := by
  obtain ⟨lock, only, -⟩ := upgradePred_iff.mp pred
  obtain ⟨position, rfl⟩ := Nat.exists_eq_succ_of_ne_zero behind
  have unchanged : f.grantedLocks.modify (position + 1)
      (fun lock => { lock with mode := .exclusive }) = f.grantedLocks := by
    rw [only, List.modify_succ_cons, List.modify_nil]
  rw [FrameLockManager.setExclusive, unchanged]

/-! ## An upgrade from each position -/

/-- The next sections of a call. -/
def sections (t : UInt64) (n : Nat) : List Action := List.replicate n (.step t .proceed)

/-- Transactions 1 and 2 share page 0; `t` waits for the upgrade until `u` releases. -/
def upgradeRun (t u : UInt64) : List Action :=
  .acquireLock 1 0 .shared :: sections 1 6 ++
  .acquireLock 2 0 .shared :: sections 2 3 ++ .step 2 (.visit 1) :: sections 2 3 ++
  .acquireLock t 0 .exclusive :: sections t 5 ++ .step t (.visit u) :: sections t 4 ++
  .releaseLock u 0 :: sections u 4 ++ sections t 2

/-- Transaction 1 has the first entry, and its upgrade excludes. -/
theorem excludes_of_inPlace_first :
    ∃ s, Machine.run State.step State.new (upgradeRun 1 2) = some s ∧
      s.held = [⟨1, 0, .exclusive⟩, ⟨1, 0, .shared⟩] ∧ s.Excludes := by
  obtain ⟨s, ran⟩ := Option.isSome_iff_exists.mp
    (show (Machine.run State.step State.new (upgradeRun 1 2)).isSome by decide +kernel)
  have held : (Machine.run State.step State.new (upgradeRun 1 2)).map State.held =
      some [⟨1, 0, .exclusive⟩, ⟨1, 0, .shared⟩] := by decide +kernel
  rw [ran] at held
  exact ⟨s, ran, Option.some.inj held, excludes_of_inPlace (by decide +kernel) ran⟩

/-- Transaction 2 has the second: its upgrade is granted, and then a shared lock for 3. -/
theorem not_excludes_second :
    ¬ ∀ actions s, Machine.run State.step State.new actions = some s → s.Excludes := by
  intro excludes
  have broken : (Machine.run State.step State.new
      (upgradeRun 2 1 ++ .acquireLock 3 0 .shared :: sections 3 3 ++
        .step 3 (.visit 2) :: sections 3 3)).any (fun s => ¬ s.Excludes) := by decide +kernel
  obtain ⟨s, ran, overlap⟩ := (Option.any_eq_true _ _).mp broken
  exact of_decide_eq_true overlap (excludes _ s ran)

end BuzzDB.Locking
