import BuzzDB.Locking.Exclusion
import BuzzDB.Locking.LockTables
import BuzzDB.Locking.WaitingGraph

/-!
# Waiting transactions

Who waits for whom: a transaction in a wait of `grant_lock` waits for every other one with
a lock on the page that is in the way of its request.  `Does` says what each section of
`acquire_lock` does to the locks and to the waiting graph, in whatever position a waiting
upgrade goes on.

`Requests` holds in every state a run reaches: a transaction does not have the lock that it
asks for, and is not among the holders that it checks.
-/

namespace BuzzDB.Locking

/-- The locks that a request conflicts with: those with this mode or a stronger one. -/
def LockMode.against : LockMode → LockMode
  | .shared => .exclusive
  | .exclusive => .shared

/-- The transaction has a lock that is in the way of a request of another one. -/
def InTheWay (granted : List Lock) (txnId : UInt64) (mode : LockMode) : Prop :=
  Covers granted txnId mode.against

instance (granted : List Lock) (txnId : UInt64) (mode : LockMode) :
    Decidable (InTheWay granted txnId mode) := List.decidableBEx _ _

/-- No other transaction is in the way. -/
def Clear (granted : List Lock) (txnId : UInt64) (mode : LockMode) : Prop :=
  ∀ u, u ≠ txnId → ¬ InTheWay granted u mode

variable {granted granted' : List Lock} {lm lm' : LockManager} {t u v p q : UInt64}
  {mode other : LockMode} {pc : AcquirePc} {choice : Choice} {outcome : Outcome AcquirePc}

theorem clear_iff : Clear granted t mode ↔
    ∀ lock ∈ granted, lock.txnId ≠ t → ¬ InTheWay granted lock.txnId mode := by
  constructor
  · intro clear lock _ different
    exact clear lock.txnId different
  · rintro clear u different ⟨lock, member, rfl, strong⟩
    exact clear lock member different ⟨lock, member, rfl, strong⟩

instance (granted : List Lock) (txnId : UInt64) (mode : LockMode) :
    Decidable (Clear granted txnId mode) :=
  decidable_of_iff (∀ lock ∈ granted, lock.txnId ≠ txnId → ¬ InTheWay granted lock.txnId mode)
    clear_iff.symm

/-- A table whose only entry is the transaction's own is clear. -/
theorem clear_singleton {lock : Lock} (own : lock.txnId = t) : Clear [lock] t mode := by
  rintro u different ⟨other, member, isOther, _⟩
  rw [List.mem_singleton.mp member, own] at isOther
  exact different isOther.symm

/-- What is granted was free. -/
theorem Gains.clear (gains : Gains t mode granted granted') (lacks : ¬ Covers granted t mode)
    (covers : Covers granted' t mode) : Clear granted t mode := by
  cases gains with
  | same => exact absurd covers lacks
  | add absent free shared =>
    rintro u _ ⟨lock, member, _, strong⟩
    cases mode with
    | exclusive =>
      rw [free rfl] at member
      cases member
    | shared =>
      have isExclusive := strong rfl
      rw [shared lock member] at isExclusive
      cases isExclusive
  | upgrade own => exact clear_singleton own

/-- What the transaction has beyond what it had is the lock it asked for. -/
theorem Gains.new (gains : Gains t mode granted granted') (lacks : ¬ Covers granted t mode)
    (covers : Covers granted' t other) :
    Covers granted t other ∨ other = .shared ∨ mode = .exclusive := by
  cases gains with
  | same => exact Or.inl covers
  | add absent free shared =>
    obtain ⟨lock, member, own, strong⟩ := covers
    rcases List.mem_append.mp member with old | new
    · exact absurd own (absent lock old)
    · cases other with
      | shared => exact Or.inr (Or.inl rfl)
      | exclusive =>
        rw [List.mem_singleton.mp new] at strong
        exact Or.inr (Or.inr (strong rfl))
  | upgrade own =>
    cases mode with
    | exclusive => exact Or.inr (Or.inr rfl)
    | shared => exact absurd ⟨_, List.mem_singleton_self _, own, fun same => by cases same⟩ lacks

/-! ## Where a call is -/

/-- In front of the checks. -/
def AcquirePc.looking : AcquirePc → Bool
  | .getFrame | .hasLock | .hasExclusive | .canUpgrade | .beginScan | .scan _ _ _ => true
  | _ => false

/-- In a wait of `grant_lock`. -/
def AcquirePc.waits : AcquirePc → Bool
  | .waitUpgrade _ _ | .wait _ => true
  | _ => false

/-- What a call knows about its own transaction: it lacks the lock, and the holders are others. -/
def AcquirePc.Requests (granted : List Lock) (t : UInt64) (mode : LockMode) : AcquirePc → Prop
  | .getFrame | .hasLock | .record _ => True
  | .hasExclusive => mode = .exclusive
  | .canUpgrade | .beginScan | .grant _ => ¬ Covers granted t mode
  | .scan remaining lockHolders conflictExists => ¬ Covers granted t mode ∧
      t ∉ remaining ∧ t ∉ lockHolders ∧ (conflictExists = true → lockHolders ≠ [])
  | .deadlock lockHolders => ¬ Covers granted t mode ∧ t ∉ lockHolders
  | .waitUpgrade _ _ => ¬ Covers granted t mode ∧ mode = .exclusive
  | .wait _ => Absent granted t

/-- It depends on the entries of the transaction only. -/
theorem AcquirePc.Requests.others (same : ∀ other, Covers granted' t other ↔ Covers granted t other)
    (requests : pc.Requests granted t mode) : pc.Requests granted' t mode := by
  have lacks : ¬ Covers granted t mode → ¬ Covers granted' t mode := mt (same mode).mp
  cases pc with
  | getFrame | hasLock | hasExclusive | record => exact requests
  | canUpgrade | beginScan | grant => exact lacks requests
  | scan | deadlock | waitUpgrade => exact ⟨lacks requests.1, requests.2⟩
  | wait => exact absent_iff.mpr (mt (same .shared).mp (absent_iff.mp requests))

/-- The sections in front of the checks go on with each other, with the checks, or with a request
that has found no conflict. -/
def Outcome.Found : Outcome AcquirePc → Prop
  | .next (.deadlock lockHolders) => lockHolders ≠ []
  | .next pc => pc.looking = true ∨ pc = .grant false
  | .returned => True
  | .threw => False

def Outcome.Requests (granted : List Lock) (t : UInt64) (mode : LockMode) : Outcome AcquirePc → Prop
  | .next pc => pc.Requests granted t mode
  | _ => True

/-- Neither the locks nor the waiting graph change. -/
structure Quiet (lm lm' : LockManager) : Prop where
  waitingGraph : lm'.waitingGraph = lm.waitingGraph
  txnLocks : lm'.txnLocks = lm.txnLocks
  granted : ∀ q, lm'.granted q = lm.granted q

theorem Quiet.refl (lm : LockManager) : Quiet lm lm := ⟨rfl, rfl, fun _ => rfl⟩

theorem Quiet.setFrame {f : FrameLockManager} (same : f.grantedLocks = lm.granted p) :
    Quiet lm (lm.setFrame p f) := by
  refine ⟨rfl, rfl, fun q => ?_⟩
  rcases eq_or_ne q p with rfl | elsewhere
  · rw [LockManager.granted_setFrame_self, same]
  · exact lm.granted_setFrame_of_ne f elsewhere

/-- A lock on page `p` is granted to `t`. -/
structure Granting (lm : LockManager) (t p : UInt64) (mode : LockMode) (lm' : LockManager) : Prop where
  waitingGraph : lm'.waitingGraph = lm.waitingGraph
  txnLocks : lm'.txnLocks = lm.txnLocks
  elsewhere : ∀ q, q ≠ p → lm'.granted q = lm.granted q
  others : ∀ u, u ≠ t → ∀ other, Covers (lm'.granted p) u other ↔ Covers (lm.granted p) u other
  keeps : ∀ other, Covers (lm.granted p) t other → Covers (lm'.granted p) t other
  new : ∀ other, Covers (lm'.granted p) t other →
    Covers (lm.granted p) t other ∨ other = .shared ∨ mode = .exclusive
  clear : Clear (lm.granted p) t mode

theorem Granting.of_gains {f : FrameLockManager}
    (gains : Gains t mode (lm.granted p) f.grantedLocks) (lacks : ¬ Covers (lm.granted p) t mode)
    (clear : Clear (lm.granted p) t mode) : Granting lm t p mode (lm.setFrame p f) := by
  refine ⟨rfl, rfl, fun q => lm.granted_setFrame_of_ne f, ?_, ?_, ?_, clear⟩
  · intro u different other
    rw [LockManager.granted_setFrame_self]
    exact gains.others different
  · intro other covers
    rw [LockManager.granted_setFrame_self]
    exact gains.keeps covers
  · intro other covers
    rw [LockManager.granted_setFrame_self] at covers
    exact gains.new lacks covers

/-! ## What a section of `acquire_lock` does -/

inductive AcquirePc.Does (lm : LockManager) (t p : UInt64) (mode : LockMode) :
    AcquirePc → LockManager → Outcome AcquirePc → Prop
  | looks {pc : AcquirePc} {lm' : LockManager} {outcome : Outcome AcquirePc}
      (looking : pc.looking = true) (quiet : Quiet lm lm') (found : outcome.Found)
      (requests : outcome.Requests (lm.granted p) t mode) : Does lm t p mode pc lm' outcome
  | reports {holder : UInt64} {lockHolders : List UInt64}
      (report : (checkDeadlock lm.waitingGraph t holder).1 = true) :
      Does lm t p mode (.deadlock (holder :: lockHolders))
        { lm with waitingGraph := (checkDeadlock lm.waitingGraph t holder).2 } .threw
  | checks {holder : UInt64} {lockHolders : List UInt64}
      (silent : (checkDeadlock lm.waitingGraph t holder).1 = false) :
      Does lm t p mode (.deadlock (holder :: lockHolders))
        { lm with waitingGraph := lm.waitingGraph.insert t [holder] } (.next (.deadlock lockHolders))
  | checked : Does lm t p mode (.deadlock []) lm (.next (.grant true))
  | blocks {afterConflict : Bool} {pc' : AcquirePc} {lm' : LockManager} (quiet : Quiet lm lm')
      (waits : (∃ existingLock, pc' = .waitUpgrade existingLock afterConflict) ∨
        pc' = .wait afterConflict)
      (requests : pc'.Requests (lm.granted p) t mode) :
      Does lm t p mode (.grant afterConflict) lm' (.next pc')
  | grants {afterConflict : Bool} {pc : AcquirePc} {lm' : LockManager}
      (asks : pc = .grant afterConflict ∨ (∃ existingLock, pc = .waitUpgrade existingLock afterConflict) ∨
        pc = .wait afterConflict)
      (granting : Granting lm t p mode lm') :
      Does lm t p mode pc lm' (.next (.record afterConflict))
  | timesOut {pc : AcquirePc} {lm' : LockManager} (waits : pc.waits = true) (quiet : Quiet lm lm') :
      Does lm t p mode pc lm' .threw
  | records {afterConflict : Bool} :
      Does lm t p mode (.record afterConflict) (lm.record t p afterConflict) .returned

theorem AcquirePc.step_does (requests : pc.Requests (lm.granted p) t mode)
    (ran : pc.step lm t p mode choice = some (lm', outcome)) : pc.Does lm t p mode lm' outcome := by
  cases AcquirePc.step_cases ran with
  | found => exact .looks rfl (.refl lm) (Or.inl rfl) trivial
  | holds | holdsExclusive => exact .looks rfl (.refl lm) trivial trivial
  | holdsShared _ exclusive => exact .looks rfl (.refl lm) (Or.inl rfl) exclusive
  | lacks hasNone =>
    have absent : Absent (lm.granted p) t := absent_iff.mpr hasNone
    exact .looks rfl (.refl lm) (Or.inl rfl) absent.not_covers
  | lacksExclusive hasNone =>
    have exclusive : mode = .exclusive := requests
    exact .looks rfl (.refl lm) (Or.inl rfl) (exclusive ▸ hasNone)
  | upgrades => exact .looks rfl (.refl lm) (Or.inr rfl) requests
  | upgradesLater => exact .looks rfl (.refl lm) (Or.inl rfl) requests
  | beginsScan =>
    refine .looks rfl ⟨rfl, rfl, fun _ => rfl⟩ (Or.inl rfl)
      ⟨requests, fun own => ?_, List.not_mem_nil, fun impossible => by cases impossible⟩
    exact (LockManager.mem_holders.mp own).1 rfl
  | @visits holder remaining lockHolders conflictExists member =>
    obtain ⟨lacks, notRemaining, notHolder, conflict⟩ := requests
    refine .looks rfl (.refl lm) (Or.inl rfl) ⟨lacks, ?_, ?_, fun _ empty => ?_⟩
    · exact fun inside => notRemaining (List.mem_of_mem_erase inside)
    · intro inside
      rcases StdSet.mem_of_mem_insert inside with rfl | old
      · exact notRemaining member
      · exact notHolder old
    · have inserted := StdSet.mem_insert_self idLt_strict holder lockHolders
      rw [empty] at inserted
      cases inserted
  | findsConflict =>
    obtain ⟨lacks, _, notHolder, conflict⟩ := requests
    exact .looks rfl ⟨rfl, rfl, fun _ => rfl⟩ (conflict rfl) ⟨lacks, notHolder⟩
  | findsNone => exact .looks rfl ⟨rfl, rfl, fun _ => rfl⟩ (Or.inr rfl) requests.1
  | checked => exact .checked
  | reports _ report => exact .reports report
  | checks _ silent =>
    rw [checkDeadlock_silent silent]
    exact .checks silent
  | grants gains covers =>
    exact .grants (Or.inl rfl) (.of_gains gains requests (gains.clear requests covers))
  | blocksUpgrade exclusive => exact .blocks (.refl lm) (Or.inl ⟨_, rfl⟩) ⟨requests, exclusive⟩
  | blocks same absent => exact .blocks (.setFrame same) (Or.inr rfl) absent
  | @upgradeGoesOn existingLock afterConflict lock only own =>
    obtain ⟨lacks, exclusive⟩ := requests
    have clear : Clear (lm.granted p) t mode := by
      rw [only]
      exact clear_singleton own
    refine .grants (Or.inr (Or.inl ⟨existingLock, rfl⟩)) (.of_gains ?_ lacks clear)
    by_cases first : existingLock = 0
    · subst first exclusive
      exact (setExclusive_gains only own).1
    · rw [upgrade_elsewhere _ (upgradePred_iff.mpr ⟨lock, only, own⟩) first]
      exact .same _
  | upgradeTimesOut => exact .timesOut rfl (.refl lm)
  | goesOn pred =>
    have absent : Absent (lm.granted p) t := requests
    obtain ⟨free, shared⟩ := free_of_waitPred absent pred
    obtain ⟨gains, covers⟩ := addLock_gains (f := (lm.pageLocks p).stopWaiting t) absent free shared
    exact .grants (Or.inr (Or.inr rfl))
      (.of_gains gains absent.not_covers (gains.clear absent.not_covers covers))
  | timesOut => exact .timesOut rfl (.setFrame rfl)
  | records => exact .records

namespace AcquirePc.Does

variable (does : pc.Does lm t p mode lm' outcome)

include does

/-- The others keep what they have. -/
theorem others (different : u ≠ t) (q : UInt64) (other : LockMode) :
    Covers (lm'.granted q) u other ↔ Covers (lm.granted q) u other := by
  cases does with
  | looks _ quiet | blocks quiet | timesOut _ quiet => rw [quiet.granted]
  | reports | checks | checked | records => exact Iff.rfl
  | grants _ granting =>
    rcases eq_or_ne q p with rfl | elsewhere
    · exact granting.others u different other
    · rw [granting.elsewhere q elsewhere]

/-- No lock is given back. -/
theorem keeps (covers : Covers (lm.granted q) u other) : Covers (lm'.granted q) u other := by
  rcases eq_or_ne u t with rfl | different
  · cases does with
    | looks _ quiet | blocks quiet | timesOut _ quiet => rwa [quiet.granted]
    | reports | checks | checked | records => exact covers
    | grants _ granting =>
      rcases eq_or_ne q p with rfl | elsewhere
      · exact granting.keeps other covers
      · rwa [granting.elsewhere q elsewhere]
  · exact (does.others different q other).mpr covers

/-- A call adds no edge of another transaction. -/
theorem edge (different : u ≠ t) (edge : Edge lm'.waitingGraph u v) : Edge lm.waitingGraph u v := by
  cases does with
  | looks _ quiet | blocks quiet | timesOut _ quiet => rwa [quiet.waitingGraph] at edge
  | reports report => exact (checkDeadlock_reported report edge).2.2
  | checks => exact (edge_insert.mp edge).resolve_left (fun own => different own.1) |>.2
  | checked => exact edge
  | grants _ granting => rwa [granting.waitingGraph] at edge
  | records =>
    rename_i afterConflict
    cases afterConflict with
    | true => exact (edge_erase.mp edge).2
    | false => exact edge

theorem txnLocks (different : u ≠ t) : SetMap.get lm'.txnLocks u = SetMap.get lm.txnLocks u := by
  cases does with
  | looks _ quiet | blocks quiet | timesOut _ quiet => rw [quiet.txnLocks]
  | reports | checks | checked => rfl
  | grants _ granting => rw [granting.txnLocks]
  | records => exact SetMap.get_add_of_ne different

theorem requests (before : pc.Requests (lm.granted p) t mode) :
    outcome.Requests (lm'.granted p) t mode := by
  cases does with
  | looks _ quiet _ requests =>
    rw [quiet.granted]
    exact requests
  | blocks quiet _ requests =>
    change AcquirePc.Requests _ t mode _
    rw [quiet.granted]
    exact requests
  | checks =>
    exact ⟨before.1, fun member => before.2 (List.mem_cons_of_mem _ member)⟩
  | checked => exact before.1
  | reports | grants | timesOut | records => trivial

end AcquirePc.Does

/-! ## What a section of a release does -/

namespace ReleasePc.Does

variable {r : ReleasePc} {released : Outcome ReleasePc} (does : r.Does lm t lm' released)

include does

/-- Only edges of the transaction, and to it, are taken away. -/
theorem edge (edge : Edge lm'.waitingGraph u v) : Edge lm.waitingGraph u v := by
  cases does with
  | forget p pages => exact (edge_erase.mp (edge_removeAll.mp edge).2).2
  | _ => exact edge

theorem edge_kept (different : u ≠ t) (kept : v ≠ t ∨ ∀ p pages, r ≠ .forget p pages)
    (edge : Edge lm.waitingGraph u v) : Edge lm'.waitingGraph u v := by
  cases does with
  | forget p pages =>
    exact edge_removeAll.mpr ⟨kept.resolve_right fun never => never p pages rfl,
      edge_erase.mpr ⟨different, edge⟩⟩
  | _ => exact edge

end ReleasePc.Does

/-! ## Who waits for whom -/

/-- The action is one of these transactions'. -/
def Action.By (txns : List UInt64) : Action → Prop
  | .acquireLock t _ _ | .releaseLock t _ | .releaseAllLocks t | .step t _ => t ∈ txns

instance (txns : List UInt64) : DecidablePred (Action.By txns)
  | .acquireLock _ _ _ | .releaseLock _ _ | .releaseAllLocks _ | .step _ _ =>
    inferInstanceAs (Decidable (_ ∈ _))

deriving instance DecidableEq for Pc

namespace State

variable {s s' : State}

/-- The transaction is in a wait of `grant_lock`, and the other one is in its way. -/
def WaitsFor (s : State) (t u : UInt64) : Prop :=
  ∃ p mode pc, s.pcs t = .acquire p mode pc ∧ pc.waits = true ∧ u ≠ t ∧
    InTheWay (s.lm.granted p) u mode

/-- What a transaction is doing behind a section of `acquire_lock`. -/
def behind (p : UInt64) (mode : LockMode) : Outcome AcquirePc → Pc
  | .next pc => .acquire p mode pc
  | _ => .idle

theorem acquired_pcs {outcome : Outcome AcquirePc} :
    (s.acquired t p mode lm outcome).pcs = Function.update s.pcs t (behind p mode outcome) := by
  cases outcome <;> rfl

theorem acquired_lm {outcome : Outcome AcquirePc} : (s.acquired t p mode lm outcome).lm = lm := by
  cases outcome <;> rfl

/-- Every call knows that its transaction lacks what it asks for. -/
def Asks (s : State) : Prop :=
  ∀ t p mode pc, s.pcs t = .acquire p mode pc → pc.Requests (s.lm.granted p) t mode

theorem Asks.new : State.new.Asks := fun _ _ _ _ impossible => by cases impossible

theorem Asks.others (asks : s.Asks) (different : u ≠ t)
    (same : ∀ q other, Covers (lm.granted q) u other ↔ Covers (s.lm.granted q) u other)
    {new : Pc} (isAt : Function.update s.pcs t new u = .acquire q mode pc) :
    pc.Requests (lm.granted q) u mode := by
  rw [Function.update_of_ne different] at isAt
  exact (asks u q mode pc isAt).others (same q)

/-! ## What an action does -/

/-- The actions that start a call, and where the call starts. -/
inductive Starts : Action → UInt64 → Pc → Prop
  | acquireLock (t p : UInt64) (mode : LockMode) :
      Starts (.acquireLock t p mode) t (.acquire p mode .getFrame)
  | releaseLock (t p : UInt64) : Starts (.releaseLock t p) t (.release (.getFrame [p]))
  | releaseAllLocks (t : UInt64) : Starts (.releaseAllLocks t) t (.release .snapshot)

inductive Did (s : State) : Action → State → Prop
  | starts {action : Action} {t : UInt64} {new : Pc} (idle : s.pcs t = .idle)
      (starts : Starts action t new) : Did s action { s with pcs := Function.update s.pcs t new }
  | acquires {t p : UInt64} {choice : Choice} {mode : LockMode} {pc : AcquirePc} {lm : LockManager}
      {outcome : Outcome AcquirePc} (isAt : s.pcs t = .acquire p mode pc)
      (ran : pc.step s.lm t p mode choice = some (lm, outcome))
      (does : pc.Does s.lm t p mode lm outcome) :
      Did s (.step t choice) (s.acquired t p mode lm outcome)
  | releases {t : UInt64} {choice : Choice} {r : ReleasePc} {lm : LockManager}
      {outcome : Outcome ReleasePc} (isAt : s.pcs t = .release r)
      (does : r.Does s.lm t lm outcome) :
      Did s (.step t choice) (s.released t r.releases lm outcome)

theorem start_did {action : Action} {new : Pc} (starts : Starts action t new)
    (started : s.start t new = some s') : s.Did action s' := by
  unfold State.start at started
  split at started
  · rename_i idle
    cases started
    exact .starts idle starts
  · cases started

theorem step_did {action : Action} (asks : s.Asks) (stepped : s.step action = some s') :
    s.Did action s' := by
  cases action with
  | acquireLock t p mode => exact start_did (.acquireLock t p mode) stepped
  | releaseLock t p => exact start_did (.releaseLock t p) stepped
  | releaseAllLocks t => exact start_did (.releaseAllLocks t) stepped
  | step t choice =>
    cases isAt : s.pcs t with
    | idle =>
      simp only [State.step, isAt] at stepped
      cases stepped
    | acquire p mode pc =>
      simp only [State.step, isAt] at stepped
      obtain ⟨⟨lm, outcome⟩, ran, rfl⟩ := Option.map_eq_some_iff.mp stepped
      exact .acquires isAt ran (AcquirePc.step_does (asks t p mode pc isAt) ran)
    | release r =>
      simp only [State.step, isAt] at stepped
      obtain ⟨⟨lm, outcome⟩, ran, rfl⟩ := Option.map_eq_some_iff.mp stepped
      exact .releases isAt (ReleasePc.step_does ran)

theorem Asks.step {action : Action} (asks : s.Asks) (did : s.Did action s') : s'.Asks := by
  intro u q other pc here
  cases did with
  | starts idle starts =>
    rename_i t new
    rcases eq_or_ne u t with rfl | different
    · cases starts with
      | acquireLock =>
        cases (Function.update_self _ _ _).symm.trans here
        trivial
      | releaseLock | releaseAllLocks => cases (Function.update_self _ _ _).symm.trans here
    · exact asks.others different (fun _ _ => Iff.rfl) here
  | acquires isAt ran does =>
    rename_i t p choice mode pc lm outcome
    rw [acquired_pcs] at here
    rw [acquired_lm]
    rcases eq_or_ne u t with rfl | different
    · rw [Function.update_self] at here
      cases outcome with
      | next next =>
        cases here
        exact does.requests (asks u q other _ isAt)
      | returned | threw => cases here
    · exact asks.others different (does.others different) here
  | releases isAt does =>
    rename_i t choice r lm outcome
    rcases eq_or_ne u t with rfl | different
    · have own := (Function.update_self _ _ _).symm.trans here
      split at own <;> cases own
    · exact asks.others different (fun _ _ => does.others different) here

/-! ## Who calls -/

/-- Only these transactions are in calls. -/
def Callers (txns : List UInt64) (s : State) : Prop := ∀ t, s.pcs t ≠ .idle → t ∈ txns

theorem Callers.update {txns : List UInt64} (callers : s.Callers txns) (member : t ∈ txns) (new : Pc)
    (notIdle : Function.update s.pcs t new u ≠ .idle) : u ∈ txns := by
  rcases eq_or_ne u t with rfl | different
  · exact member
  · rw [Function.update_of_ne different] at notIdle
    exact callers u notIdle

theorem Callers.step {txns : List UInt64} {action : Action} (callers : s.Callers txns)
    (did : s.Did action s') (called : action.By txns) : s'.Callers txns := by
  intro u notIdle
  cases did with
  | starts idle starts => exact callers.update (by cases starts <;> exact called) _ notIdle
  | acquires isAt =>
    rw [acquired_pcs] at notIdle
    exact callers.update called _ notIdle
  | releases isAt => exact callers.update called _ notIdle

end State

/-- Transactions 1 and 2 have pages 0 and 1; 2 waits for page 0, and 1 is about to be checked for
page 1. -/
def crossRun : List Action :=
  .acquireLock 1 0 .exclusive :: sections 1 6 ++ .acquireLock 2 1 .exclusive :: sections 2 6 ++
  .acquireLock 2 0 .exclusive :: sections 2 3 ++ .step 2 (.visit 1) :: sections 2 4 ++
  .acquireLock 1 1 .exclusive :: sections 1 3 ++ .step 1 (.visit 2) :: sections 1 1

end BuzzDB.Locking
