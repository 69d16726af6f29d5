import BuzzDB.Locking.Waiters

/-!
# Spurious deadlocks

A wait that times out leaves its edges in the waiting graph.  `release_all_locks` takes them
away only with a lock that it releases: for a transaction that has none they stay, and a
later cycle over them is reported.

A `Session` is the lock manager with callers that call `release_all_locks` behind every
throw.  As long as only transactions with locks time out, and the graph is not read while a
call is between two of its updates, every reported cycle is one of waiting transactions.
-/

namespace BuzzDB.Locking

open Paths Relation

/-- The lock manager with its callers; `thrown` are those that have to call `release_all_locks`. -/
structure Session where
  state : State
  thrown : List UInt64

/-- Between a check and the grant. -/
def AcquirePc.checked : AcquirePc → Bool
  | .deadlock _ | .grant true | .waitUpgrade _ true | .wait true => true
  | _ => false

/-- In a wait of `grant_lock`, or granted behind one. -/
def AcquirePc.inGrantLock : AcquirePc → Bool
  | .waitUpgrade _ _ | .wait _ | .record true => true
  | _ => false

/-- A release that will take its transaction out of the waiting graph. -/
def ReleasePc.WillForget (locked : List UInt64) : ReleasePc → Prop
  | .snapshot => locked ≠ []
  | .getFrame pages => pages ≠ []
  | .frame _ _ | .forget _ _ => True

namespace State

variable (s : State) (t : UInt64)

/-- The section ends the call with an exception. -/
def throws (choice : Choice) : Bool :=
  match s.pcs t with
  | .acquire p mode pc => (pc.step s.lm t p mode choice).any fun result => result.2 = .threw
  | _ => false

/-- The transaction has released a lock and is about to leave the waiting graph. -/
def Forgetting : Prop := ∃ p pages, s.pcs t = .release (.forget p pages)

/-- The transaction is in a wait, or has just been granted its lock behind one. -/
def inGrantLock : Bool :=
  match s.pcs t with
  | .acquire _ _ pc => pc.inGrantLock
  | _ => false

end State

namespace Session

def new : Session := ⟨State.new, []⟩

variable (c : Session)

/-- A request of a transaction that has to call `release_all_locks` first. -/
def Forbidden : Action → Prop
  | .acquireLock t _ _ => t ∈ c.thrown
  | _ => False

instance : DecidablePred c.Forbidden
  | .acquireLock _ _ _ => inferInstanceAs (Decidable (_ ∈ _))
  | .releaseLock _ _ | .releaseAllLocks _ | .step _ _ => isFalse id

/-- Who has to call `release_all_locks` behind an action. -/
def thrownBehind : Action → List UInt64
  | .releaseAllLocks t => c.thrown.filter fun u => u ≠ t
  | .step t choice => if c.state.throws t choice then t :: c.thrown else c.thrown
  | _ => c.thrown

/-- One action of a caller that keeps to the rule. -/
def step (action : Action) : Option Session :=
  if c.Forbidden action then none
  else (c.state.step action).map fun s => ⟨s, c.thrownBehind action⟩

/-- A section of `acquire_lock` leaves no edge behind that is not one of a waiting transaction, and
does not read the graph while another call is about to change it. -/
def OrderlyAcquire (t p : UInt64) (mode : LockMode) (choice : Choice) : AcquirePc → Prop
  | .deadlock (holder :: _) => InTheWay (c.state.lm.granted p) holder mode ∧
    (Leads (Edge c.state.lm.waitingGraph) {t} holder t →
      ∀ u ∈ c.state.lm.waitingGraph.keys, u ≠ t → SetMap.get c.state.lm.waitingGraph u ≠ [] →
        c.state.inGrantLock u)
  | .waitUpgrade _ _ | .wait _ => choice = .timeout → SetMap.get c.state.lm.waitingGraph t ≠ [] →
    SetMap.get c.state.lm.txnLocks t ≠ []
  | _ => True

instance (t p : UInt64) (mode : LockMode) (choice : Choice) :
    DecidablePred (c.OrderlyAcquire t p mode choice)
  | .deadlock (_ :: _) =>
    have : Decidable (∀ u ∈ c.state.lm.waitingGraph.keys, u ≠ t →
        SetMap.get c.state.lm.waitingGraph u ≠ [] → c.state.inGrantLock u) := List.decidableBAll _ _
    inferInstanceAs (Decidable (_ ∧ (_ → _)))
  | .waitUpgrade _ _ | .wait _ => inferInstanceAs (Decidable (_ → _ → _))
  | .getFrame | .hasLock | .hasExclusive | .canUpgrade | .beginScan | .scan _ _ _ | .deadlock []
  | .grant _ | .record _ => isTrue trivial

def Orderly : Action → Prop
  | .step t choice =>
    match c.state.pcs t with
    | .acquire p mode pc => c.OrderlyAcquire t p mode choice pc
    | _ => True
  | _ => True

instance : DecidablePred c.Orderly
  | .step t choice => by
    unfold Orderly
    dsimp only
    split <;> infer_instance
  | .acquireLock _ _ _ | .releaseLock _ _ | .releaseAllLocks _ => isTrue trivial

/-- A deadlock that the action reports is one: the holder waits, over other waiting transactions,
for the requester. -/
def Real : Action → Prop
  | .step t choice => ∀ p mode holder lockHolders,
    c.state.pcs t = .acquire p mode (.deadlock (holder :: lockHolders)) →
    c.state.throws t choice = true →
    InTheWay (c.state.lm.granted p) holder mode ∧ holder ≠ t ∧
      ReflTransGen c.state.WaitsFor holder t
  | _ => True

/-- No transaction that is in no call, and has no throw to answer, has an edge. -/
def NoneLeft : Prop :=
  ∀ t u, c.state.pcs t = .idle → t ∉ c.thrown → ¬ Edge c.state.lm.waitingGraph t u

/-- The transaction will leave the waiting graph before its next request. -/
def Leaves (t : UInt64) : Pc → Prop
  | .idle => t ∈ c.thrown ∧ SetMap.get c.state.lm.txnLocks t ≠ []
  | .release r => r.WillForget (SetMap.get c.state.lm.txnLocks t)
  | .acquire _ _ _ => False

/-- An edge of a transaction that is not leaving is one to a holder that is in its way, or that has
just released its lock. -/
def Justified (t u : UInt64) : Prop :=
  c.Leaves t (c.state.pcs t) ∨
    ∃ p mode pc, c.state.pcs t = .acquire p mode pc ∧
      (pc.checked = true ∧ u ≠ t ∧ InTheWay (c.state.lm.granted p) u mode ∨
        (pc.checked = true ∨ pc = .record true) ∧ c.state.Forgetting u)

structure Inv : Prop where
  asks : c.state.Asks
  edges : ∀ t u, Edge c.state.lm.waitingGraph t u → c.Justified t u

variable {c} {c' : Session} {s : State} {t u x p q : UInt64} {mode : LockMode} {pc : AcquirePc}
  {lm : LockManager} {choice : Choice} {action : Action}

theorem step_eq_some (stepped : c.step action = some c') :
    ¬ c.Forbidden action ∧ ∃ s, c.state.step action = some s ∧ c' = ⟨s, c.thrownBehind action⟩ := by
  unfold Session.step at stepped
  split at stepped
  · cases stepped
  · rename_i allowed
    obtain ⟨s, ran, rfl⟩ := Option.map_eq_some_iff.mp stepped
    exact ⟨allowed, s, ran, rfl⟩

theorem Inv.new : Session.new.Inv where
  asks := State.Asks.new
  edges _ _ impossible := by cases impossible

/-- An edge of another transaction than the one that goes on. -/
theorem Justified.others (justified : c.Justified x u)
    (samePc : c'.state.pcs x = c.state.pcs x) (stillThrown : x ∈ c.thrown → x ∈ c'.thrown)
    (locked : SetMap.get c'.state.lm.txnLocks x = SetMap.get c.state.lm.txnLocks x)
    (covers : ∀ q mode, InTheWay (c.state.lm.granted q) u mode →
      InTheWay (c'.state.lm.granted q) u mode ∨ c'.state.Forgetting u)
    (forgetting : c.state.Forgetting u → c'.state.Forgetting u) : c'.Justified x u := by
  rcases justified with leaves | ⟨q, mode, pc, isAt, why⟩
  · refine Or.inl ?_
    rw [samePc]
    cases isAt : c.state.pcs x with
    | idle =>
      rw [isAt] at leaves
      exact ⟨stillThrown leaves.1, locked ▸ leaves.2⟩
    | release r =>
      rw [isAt] at leaves
      change r.WillForget _
      rw [locked]
      exact leaves
    | acquire =>
      rw [isAt] at leaves
      exact leaves.elim
  · refine Or.inr ⟨q, mode, pc, samePc.trans isAt, ?_⟩
    rcases why with ⟨checked, different, inTheWay⟩ | ⟨behind, forgets⟩
    · rcases covers q mode inTheWay with still | forgets
      · exact Or.inl ⟨checked, different, still⟩
      · exact Or.inr ⟨Or.inl checked, forgets⟩
    · exact Or.inr ⟨behind, forgetting forgets⟩

theorem stillThrown (thrown : x ∈ c.thrown) (t : UInt64) (choice : Choice) :
    x ∈ c.thrownBehind (.step t choice) := by
  change x ∈ (if c.state.throws t choice then t :: c.thrown else c.thrown)
  split
  · exact List.mem_cons_of_mem t thrown
  · exact thrown

/-- Whoever is in no call, or looks for a lock, has no justified edge unless it leaves. -/
theorem Justified.leaves (justified : c.Justified t u)
    (elsewhere : ∀ p mode pc, c.state.pcs t = .acquire p mode pc →
      pc.checked = false ∧ pc ≠ .record true) : c.Leaves t (c.state.pcs t) := by
  rcases justified with leaves | ⟨p, mode, pc, isAt, why⟩
  · exact leaves
  · obtain ⟨notChecked, notGranted⟩ := elsewhere p mode pc isAt
    rcases why with ⟨checked, _⟩ | ⟨checked | granted, _⟩
    · rw [notChecked] at checked
      cases checked
    · rw [notChecked] at checked
      cases checked
    · exact absurd granted notGranted

/-! ## The start of a call -/

theorem Inv.starts {new : Pc} (inv : c.Inv) (idle : c.state.pcs t = .idle)
    (starts : State.Starts action t new) (allowed : ¬ c.Forbidden action) :
    Inv ⟨{ c.state with pcs := Function.update c.state.pcs t new }, c.thrownBehind action⟩ where
  asks := inv.asks.step (.starts idle starts)
  edges x u edge := by
    have justified := inv.edges x u edge
    rcases eq_or_ne x t with rfl | different
    · have leaves := justified.leaves fun p mode pc isAt => by cases isAt.symm.trans idle
      rw [idle] at leaves
      refine Or.inl ?_
      change Leaves _ x (Function.update c.state.pcs x new x)
      rw [Function.update_self]
      cases starts with
      | acquireLock => exact absurd leaves.1 allowed
      | releaseLock t p => exact List.cons_ne_nil p []
      | releaseAllLocks => exact leaves.2
    · refine justified.others (Function.update_of_ne different _ _) (fun thrown => ?_) rfl
        (fun _ _ => Or.inl) fun ⟨p, pages, isAt⟩ => ⟨p, pages, ?_⟩
      · cases starts with
        | releaseAllLocks => exact List.mem_filter.mpr ⟨thrown, decide_eq_true different⟩
        | acquireLock | releaseLock => exact thrown
      · rcases eq_or_ne u t with rfl | other
        · cases isAt.symm.trans idle
        · exact (Function.update_of_ne other _ _).trans isAt

/-! ## Sections of `acquire_lock` -/

variable {outcome : Outcome AcquirePc}

/-- Whoever throws has to call `release_all_locks`. -/
theorem mem_thrownBehind (isAt : c.state.pcs t = .acquire p mode pc)
    (ran : pc.step c.state.lm t p mode choice = some (lm, .threw)) :
    t ∈ c.thrownBehind (.step t choice) := by
  have throws : c.state.throws t choice = true := by
    rw [State.throws, isAt]
    dsimp only
    rw [ran]
    rfl
  change t ∈ (if c.state.throws t choice then t :: c.thrown else c.thrown)
  rw [if_pos throws]
  exact List.mem_cons_self

theorem not_checked_of_looking (looking : pc.looking = true) :
    pc.checked = false ∧ pc ≠ .record true := by
  cases pc with
  | deadlock | grant | waitUpgrade | wait | record => cases looking
  | _ => exact ⟨rfl, fun impossible => by cases impossible⟩

/-- A wait throws with its timeout only. -/
theorem timeout_of_threw {lm lm' : LockManager} (waits : pc.waits = true)
    (ran : pc.step lm t p mode choice = some (lm', .threw)) : choice = .timeout := by
  cases AcquirePc.step_cases ran with
  | upgradeTimesOut | timesOut => rfl
  | reports => cases waits

/-- Why the transaction has an edge while it is in a call for a lock. -/
theorem Inv.why (inv : c.Inv) (isAt : c.state.pcs t = .acquire p mode pc)
    (edge : Edge c.state.lm.waitingGraph t u) :
    pc.checked = true ∧ u ≠ t ∧ InTheWay (c.state.lm.granted p) u mode ∨
      (pc.checked = true ∨ pc = .record true) ∧ c.state.Forgetting u := by
  rcases inv.edges t u edge with leaves | ⟨q, other, a, here, why⟩
  · rw [isAt] at leaves
    exact leaves.elim
  · cases isAt.symm.trans here
    exact why

/-- In front of the checks a transaction has no edge. -/
theorem Inv.no_edge (inv : c.Inv) (isAt : c.state.pcs t = .acquire p mode pc)
    (notChecked : pc.checked = false) (notGranted : pc ≠ .record true) :
    ¬ Edge c.state.lm.waitingGraph t u := by
  intro edge
  rcases inv.why isAt edge with ⟨checked, _⟩ | ⟨checked | granted, _⟩
  · rw [notChecked] at checked
    cases checked
  · rw [notChecked] at checked
    cases checked
  · exact notGranted granted

/-- The edges of the transaction whose call goes on. -/
theorem Inv.next {next : AcquirePc} (inv : c.Inv) (isAt : c.state.pcs t = .acquire p mode pc)
    (does : pc.Does c.state.lm t p mode lm (.next next))
    (orderly : c.OrderlyAcquire t p mode choice pc) (edge : Edge lm.waitingGraph t u) :
    next.checked = true ∧ u ≠ t ∧ InTheWay (lm.granted p) u mode ∨
      (next.checked = true ∨ next = .record true) ∧ c.state.Forgetting u := by
  have requests := inv.asks t p mode pc isAt
  cases does with
  | looks looking quiet =>
    rw [quiet.waitingGraph] at edge
    obtain ⟨notChecked, notGranted⟩ := not_checked_of_looking looking
    exact absurd edge (inv.no_edge isAt notChecked notGranted)
  | checks =>
    rcases edge_insert.mp edge with ⟨_, rfl⟩ | ⟨impossible, _⟩
    · refine Or.inl ⟨rfl, ?_, orderly.1⟩
      rintro rfl
      exact requests.2 List.mem_cons_self
    · exact absurd rfl impossible
  | checked =>
    rcases inv.why isAt edge with ⟨_, holds⟩ | ⟨_, forgets⟩
    · exact Or.inl ⟨rfl, holds⟩
    · exact Or.inr ⟨Or.inl rfl, forgets⟩
  | blocks quiet waits stillRequests =>
    rename_i afterConflict
    rw [quiet.waitingGraph] at edge
    rw [quiet.granted]
    have checkedBoth : (AcquirePc.grant afterConflict).checked = true → next.checked = true := by
      intro checked
      cases afterConflict with
      | false => cases checked
      | true => rcases waits with ⟨existingLock, rfl⟩ | rfl <;> rfl
    rcases inv.why isAt edge with ⟨checked, holds⟩ | ⟨checked | granted, forgets⟩
    · exact Or.inl ⟨checkedBoth checked, holds⟩
    · exact Or.inr ⟨Or.inl (checkedBoth checked), forgets⟩
    · cases granted
  | grants asks granting =>
    rename_i afterConflict
    rw [granting.waitingGraph] at edge
    rcases inv.why isAt edge with ⟨_, different, inTheWay⟩ | ⟨checked | granted, forgets⟩
    · exact absurd inTheWay (granting.clear u different)
    · refine Or.inr ⟨Or.inr ?_, forgets⟩
      cases afterConflict with
      | true => rfl
      | false => rcases asks with rfl | ⟨existingLock, rfl⟩ | rfl <;> cases checked
    · rcases asks with rfl | ⟨existingLock, rfl⟩ | rfl <;> cases granted

/-- A transaction whose call returns has no edge left, and one whose call throws leaves. -/
theorem Inv.ends (inv : c.Inv) (isAt : c.state.pcs t = .acquire p mode pc)
    (ran : pc.step c.state.lm t p mode choice = some (lm, outcome))
    (does : pc.Does c.state.lm t p mode lm outcome)
    (orderly : c.OrderlyAcquire t p mode choice pc) (edge : Edge lm.waitingGraph t u)
    (ended : ∀ next, outcome ≠ .next next) :
    t ∈ c.thrownBehind (.step t choice) ∧ SetMap.get lm.txnLocks t ≠ [] := by
  cases does with
  | looks looking quiet =>
    rw [quiet.waitingGraph] at edge
    obtain ⟨notChecked, notGranted⟩ := not_checked_of_looking looking
    exact absurd edge (inv.no_edge isAt notChecked notGranted)
  | reports report => exact absurd rfl (checkDeadlock_reported report edge).1
  | checks | checked | blocks | grants => exact absurd rfl (ended _)
  | timesOut waits quiet =>
    refine ⟨mem_thrownBehind isAt ran, ?_⟩
    rw [quiet.waitingGraph] at edge
    rw [quiet.txnLocks]
    have timedOut := timeout_of_threw waits ran
    cases pc with
    | waitUpgrade | wait => exact orderly timedOut (List.ne_nil_of_mem edge)
    | _ => cases waits
  | records =>
    rename_i afterConflict
    cases afterConflict with
    | true => exact absurd rfl (edge_erase.mp edge).1
    | false => exact absurd edge (inv.no_edge isAt rfl fun impossible => by cases impossible)

theorem Inv.acquired (inv : c.Inv) (isAt : c.state.pcs t = .acquire p mode pc)
    (ran : pc.step c.state.lm t p mode choice = some (lm, outcome))
    (does : pc.Does c.state.lm t p mode lm outcome)
    (orderly : c.OrderlyAcquire t p mode choice pc) :
    Inv ⟨c.state.acquired t p mode lm outcome, c.thrownBehind (.step t choice)⟩ where
  asks := inv.asks.step (.acquires isAt ran does)
  edges x u edge := by
    dsimp only at edge
    rw [State.acquired_lm] at edge
    have forgetting : c.state.Forgetting u → (c.state.acquired t p mode lm outcome).Forgetting u := by
      rintro ⟨q, pages, here⟩
      refine ⟨q, pages, ?_⟩
      rw [State.acquired_pcs, Function.update_of_ne]
      · exact here
      · rintro rfl
        cases isAt.symm.trans here
    rcases eq_or_ne x t with rfl | different
    · have newPc : (c.state.acquired x p mode lm outcome).pcs x = State.behind p mode outcome := by
        rw [State.acquired_pcs, Function.update_self]
      cases outcome with
      | next next =>
        rcases inv.next isAt does orderly edge with holds | ⟨behind, forgets⟩
        · exact Or.inr ⟨p, mode, next, newPc, Or.inl holds⟩
        · exact Or.inr ⟨p, mode, next, newPc, Or.inr ⟨behind, forgetting forgets⟩⟩
      | returned | threw =>
        refine Or.inl ?_
        dsimp only
        rw [newPc]
        exact inv.ends isAt ran does orderly edge fun next impossible => by cases impossible
    · refine (inv.edges x u (does.edge different edge)).others ?_
        (fun thrown => stillThrown thrown t choice) ?_ (fun q mode' inTheWay => Or.inl ?_) forgetting
      · dsimp only
        rw [State.acquired_pcs, Function.update_of_ne different]
      · dsimp only
        rw [State.acquired_lm]
        exact does.txnLocks different
      · dsimp only
        rw [State.acquired_lm]
        exact does.keeps inTheWay

/-! ## Sections of a release -/

theorem Inv.released {r : ReleasePc} {outcome : Outcome ReleasePc} (inv : c.Inv)
    (isAt : c.state.pcs t = .release r) (does : r.Does c.state.lm t lm outcome) :
    Inv ⟨c.state.released t r.releases lm outcome, c.thrownBehind (.step t choice)⟩ where
  asks := inv.asks.step (.releases isAt does : c.state.Did (.step t choice) _)
  edges x u edge := by
    have justified := inv.edges x u (does.edge edge)
    rcases eq_or_ne x t with rfl | different
    · have leaves := justified.leaves fun p mode pc here => by cases isAt.symm.trans here
      rw [isAt] at leaves
      refine Or.inl ?_
      change Leaves _ x (Function.update c.state.pcs x _ x)
      rw [Function.update_self]
      cases does with
      | snapshot => exact leaves
      | done => exact absurd rfl leaves
      | getFrame | frame => trivial
      | forget => exact absurd rfl (edge_erase.mp (edge_removeAll.mp edge).2).1
    · refine justified.others (Function.update_of_ne different _ _)
        (fun thrown => stillThrown thrown t choice) (does.txnLocks different) ?_ ?_
      · intro q mode inTheWay
        rcases eq_or_ne u t with rfl | other
        · cases does with
          | frame p pages => exact Or.inr ⟨p, pages, Function.update_self _ _ _⟩
          | _ => exact Or.inl inTheWay
        · exact Or.inl ((does.others other).mpr inTheWay)
      · rintro ⟨q, pages, here⟩
        rcases eq_or_ne u t with rfl | other
        · cases isAt.symm.trans here
          cases does with
          | forget => exact absurd rfl (edge_removeAll.mp edge).1
        · exact ⟨q, pages, (Function.update_of_ne other _ _).trans here⟩

theorem Inv.step (inv : c.Inv) (orderly : c.Orderly action) (stepped : c.step action = some c') :
    c'.Inv := by
  obtain ⟨allowed, s, moved, rfl⟩ := step_eq_some stepped
  have did := State.step_did inv.asks moved
  cases did with
  | starts idle starts => exact inv.starts idle starts allowed
  | acquires isAt ran does =>
    unfold Orderly at orderly
    dsimp only at orderly
    rw [isAt] at orderly
    exact inv.acquired isAt ran does orderly
  | releases isAt does => exact inv.released isAt does

/-! ## Reported deadlocks -/

theorem Inv.noneLeft (inv : c.Inv) : c.NoneLeft := by
  intro t u idle notThrown edge
  have leaves := (inv.edges t u edge).leaves fun p mode pc here => by cases idle.symm.trans here
  rw [idle] at leaves
  exact notThrown leaves.1

theorem waits_of_inGrantLock (inGrantLock : pc.inGrantLock = true) (checked : pc.checked = true) :
    pc.waits = true := by
  cases pc with
  | waitUpgrade | wait => rfl
  | record => cases checked
  | _ => cases inGrantLock

/-- A path of the graph is one of waiting transactions, if all that have edges are in `grant_lock`:
who has just released a lock has none. -/
theorem Inv.waits (inv : c.Inv) (requester : c.state.pcs t = .acquire p mode pc)
    (inGrantLock : ∀ x, x ≠ t → ∀ y, Edge c.state.lm.waitingGraph x y → c.state.inGrantLock x)
    (leads : Leads (Edge c.state.lm.waitingGraph) {t} x t) : ReflTransGen c.state.WaitsFor x t := by
  induction leads using ReflTransGen.head_induction_on with
  | refl => exact .refl
  | head step rest ih =>
    rename_i x y
    obtain ⟨different, edge⟩ := step
    have here := inGrantLock x different y edge
    have notForgetting : ¬ c.state.Forgetting y := by
      rintro ⟨q, pages, isAt⟩
      rcases ReflTransGen.cases_head rest with rfl | ⟨z, next, _⟩
      · cases requester.symm.trans isAt
      · have further := inGrantLock y next.1 z next.2
        rw [State.inGrantLock, isAt] at further
        cases further
    refine .head ?_ ih
    rcases inv.edges x y edge with leaves | ⟨q, other, a, isAt, why⟩
    · cases isAt : c.state.pcs x with
      | acquire =>
        rw [isAt] at leaves
        exact leaves.elim
      | idle | release =>
        rw [State.inGrantLock, isAt] at here
        cases here
    · obtain ⟨checked, notSelf, inTheWay⟩ := why.resolve_right fun both => notForgetting both.2
      rw [State.inGrantLock, isAt] at here
      exact ⟨q, other, a, isAt, waits_of_inGrantLock here checked, notSelf, inTheWay⟩

theorem Inv.real (inv : c.Inv) (orderly : c.Orderly action) : c.Real action := by
  cases action with
  | step t choice =>
    intro p mode holder lockHolders isAt throws
    unfold Orderly at orderly
    dsimp only at orderly
    rw [isAt] at orderly
    obtain ⟨inTheWay, inGrantLock⟩ := orderly
    have requests := inv.asks t p mode _ isAt
    have leads : Leads (Edge c.state.lm.waitingGraph) {t} holder t := by
      rw [State.throws, isAt] at throws
      obtain ⟨⟨lm, outcome⟩, ran, threw⟩ := (Option.any_eq_true _ _).mp throws
      obtain rfl : outcome = .threw := of_decide_eq_true threw
      cases AcquirePc.step_does requests ran with
      | looks looking => cases looking
      | reports report => exact checkDeadlock_iff.mp report
      | timesOut waits => cases waits
    refine ⟨inTheWay, ?_, inv.waits isAt (fun x different y edge => ?_) leads⟩
    · rintro rfl
      exact requests.2 List.mem_cons_self
    · refine inGrantLock leads x ?_ different (List.ne_nil_of_mem edge)
      obtain ⟨entry, member, rfl, _⟩ := SetMap.mem_get.mp edge
      exact List.mem_map_of_mem member
  | _ => trivial

end Session

/-- As long as the steps are orderly, every reported deadlock is one, and no transaction that is in
no call, and has no throw to answer, keeps an edge. -/
theorem real_of_orderly {actions : List Action}
    (orderly : Machine.Along Session.step Session.Orderly Session.new actions) :
    Machine.Along Session.step Session.Real Session.new actions ∧
      Machine.Always Session.step Session.NoneLeft Session.new actions :=
  ⟨Machine.along_of_invariant (fun _ _ _ inv orderly stepped => Session.Inv.step inv orderly stepped)
      (fun _ _ inv orderly => Session.Inv.real inv orderly) Session.Inv.new orderly,
    Machine.always (fun _ _ _ inv orderly stepped => Session.Inv.step inv orderly stepped)
      (fun _ inv => Session.Inv.noneLeft inv) Session.Inv.new orderly⟩

/-- Every step is orderly, and the last one reports the deadlock. -/
theorem real_of_orderly_cross :
    (Machine.run Session.step Session.new crossRun).any (fun c => c.state.throws 1 .proceed) ∧
      Machine.Along Session.step Session.Real Session.new (crossRun ++ [.step 1 .proceed]) := by
  have orderly : Machine.Along Session.step Session.Orderly Session.new
      (crossRun ++ [.step 1 .proceed]) := by decide +kernel
  exact ⟨by decide +kernel, (real_of_orderly orderly).1⟩

/-- Transaction 2 has no lock when its wait for page 0 times out.  It releases all locks, and gets
page 1; then 1 is about to be checked for page 1. -/
def staleRun : List Action :=
  .acquireLock 1 0 .exclusive :: sections 1 6 ++
  .acquireLock 2 0 .exclusive :: sections 2 3 ++ .step 2 (.visit 1) :: sections 2 4 ++
  .step 2 .timeout :: .releaseAllLocks 2 :: sections 2 2 ++
  .acquireLock 2 1 .exclusive :: sections 2 6 ++
  .acquireLock 1 1 .exclusive :: sections 1 3 ++ .step 1 (.visit 2) :: sections 1 1

/-- The edge that the timeout has left makes a cycle with a transaction that is in no call. -/
theorem not_real_stale :
    ¬ ∀ actions, Machine.Along Session.step Session.Real Session.new actions := by
  intro real
  have broken : (Machine.run Session.step Session.new staleRun).any (fun c =>
      c.state.pcs 2 = .idle ∧ c.state.pcs 1 = .acquire 1 .exclusive (.deadlock [2]) ∧
        c.state.throws 1 .proceed) := by decide +kernel
  obtain ⟨c, ran, facts⟩ := (Option.any_eq_true _ _).mp broken
  obtain ⟨idle, isAt, throws⟩ := of_decide_eq_true facts
  have isReal := Machine.Along.last (a := .step 1 .proceed) (real _) ran
  obtain ⟨_, _, cycle⟩ := isReal 1 .exclusive 2 [] isAt throws
  rcases ReflTransGen.cases_head cycle with impossible | ⟨u, ⟨p, mode, pc, waits, _⟩, _⟩
  · exact absurd impossible (by decide)
  · cases idle.symm.trans waits

end BuzzDB.Locking
