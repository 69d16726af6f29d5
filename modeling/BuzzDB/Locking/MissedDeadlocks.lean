import BuzzDB.Locking.Waiters

/-!
# Missed deadlocks

The waiting graph loses edges of waiting transactions: each check replaces the one of the
check before, so that one holder is left; nobody who gets a lock becomes a holder that
others wait for; and a release, or a reported deadlock, takes away the edges to a
transaction that still has other locks.

As long as none of this happens, `waiting_graph_` has an edge to every transaction that is in
the way of a waiting one, and a request that closes a cycle is reported.
-/

namespace BuzzDB.Locking

open Paths Relation

/-- Behind its last check, and not granted. -/
def AcquirePc.pending : AcquirePc → Bool
  | .deadlock [] | .grant true | .waitUpgrade _ _ | .wait _ => true
  | _ => false

/-- Nobody but the holder is in the way. -/
def OnlyInTheWay (granted : List Lock) (txnId : UInt64) (mode : LockMode) (holder : UInt64) : Prop :=
  ∀ lock ∈ granted, lock.txnId ≠ txnId → InTheWay granted lock.txnId mode → lock.txnId = holder

instance (granted : List Lock) (txnId : UInt64) (mode : LockMode) (holder : UInt64) :
    Decidable (OnlyInTheWay granted txnId mode holder) :=
  List.decidableBAll _ _

namespace State

variable (s : State)

/-- What holds of the request of a transaction that is behind its last check. -/
def WhilePending (w : UInt64) (P : UInt64 → LockMode → Prop) : Prop :=
  match s.pcs w with
  | .acquire p mode pc => pc.pending = true → P p mode
  | _ => True

instance (w : UInt64) (P : UInt64 → LockMode → Prop) [∀ p mode, Decidable (P p mode)] :
    Decidable (s.WhilePending w P) := by
  unfold WhilePending
  split <;> infer_instance

variable (txns : List UInt64)

/-- What holds of all others that are behind their last check. -/
def Others (t : UInt64) (P : UInt64 → UInt64 → LockMode → Prop) : Prop :=
  ∀ w ∈ txns, w ≠ t → s.WhilePending w (P w)

instance (t : UInt64) (P : UInt64 → UInt64 → LockMode → Prop) [∀ w p mode, Decidable (P w p mode)] :
    Decidable (s.Others txns t P) := List.decidableBAll _ _

/-- A lock is granted only where no other transaction, behind its last check, gets a lock in its way
that was not there. -/
def NoOvertaking (t p : UInt64) (mode : LockMode) : Prop :=
  Clear (s.lm.granted p) t mode → s.Others txns t fun _ q m =>
    q = p → mode = .exclusive ∨ m = .exclusive → InTheWay (s.lm.granted p) t m

instance (t p : UInt64) (mode : LockMode) : Decidable (s.NoOvertaking txns t p mode) :=
  inferInstanceAs (Decidable (_ → State.Others _ _ _ _))

/-- The section of `acquire_lock` keeps the waiting graph complete. -/
def WatchedAcquire (t p : UInt64) (mode : LockMode) : AcquirePc → Prop
  | .deadlock (holder :: lockHolders) =>
    (lockHolders = [] → OnlyInTheWay (s.lm.granted p) t mode holder) ∧
      (Leads (Edge s.lm.waitingGraph) {t} holder t →
        s.Others txns t fun w q m => Clear (s.lm.granted q) w m)
  | .grant afterConflict =>
    (afterConflict = false → Clear (s.lm.granted p) t mode) ∧ s.NoOvertaking txns t p mode
  | .waitUpgrade _ _ | .wait _ => s.NoOvertaking txns t p mode
  | _ => True

instance (t p : UInt64) (mode : LockMode) : DecidablePred (s.WatchedAcquire txns t p mode)
  | .deadlock (_ :: _) => inferInstanceAs (Decidable ((_ → _) ∧ (_ → State.Others _ _ _ _)))
  | .grant _ => inferInstanceAs (Decidable ((_ → _) ∧ _))
  | .waitUpgrade _ _ | .wait _ => inferInstanceAs (Decidable (s.NoOvertaking txns t p mode))
  | .getFrame | .hasLock | .hasExclusive | .canUpgrade | .beginScan | .scan _ _ _ | .deadlock []
  | .record _ => isTrue trivial

/-- The action keeps the waiting graph complete. -/
def Watched (action : Action) : Prop :=
  action.By txns ∧ match action with
    | .step t _ =>
      match s.pcs t with
      | .acquire p mode pc => s.WatchedAcquire txns t p mode pc
      | .release (.forget _ _) => s.Others txns t fun _ q m => ¬ InTheWay (s.lm.granted q) t m
      | _ => True
    | _ => True

instance : DecidablePred (s.Watched txns) := fun action => by
  unfold Watched
  have inner : Decidable (match action with
    | .step t _ =>
      match s.pcs t with
      | .acquire p mode pc => s.WatchedAcquire txns t p mode pc
      | .release (.forget _ _) => s.Others txns t fun _ q m => ¬ InTheWay (s.lm.granted q) t m
      | _ => True
    | _ => True) := by
    split
    · split <;> infer_instance
    · infer_instance
  infer_instance

/-- The waiting graph misses nothing. -/
structure NoMissed : Prop where
  tracked : ∀ t u, s.WaitsFor t u → Edge s.lm.waitingGraph t u
  reported : ∀ t p mode holder lockHolders,
    s.pcs t = .acquire p mode (.deadlock (holder :: lockHolders)) →
    ReflTransGen s.WaitsFor holder t → (checkDeadlock s.lm.waitingGraph t holder).1 = true
  acyclic : Acyclic s.WaitsFor

/-- What the steps preserve: the edges are there from the last check on. -/
structure Tracks : Prop where
  callers : s.Callers txns
  asks : s.Asks
  tracked : ∀ w q m pc, s.pcs w = .acquire q m pc → pc.pending = true → ∀ u, u ≠ w →
    InTheWay (s.lm.granted q) u m → Edge s.lm.waitingGraph w u
  acyclic : Acyclic (Edge s.lm.waitingGraph)

end State

variable {s s' : State} {txns : List UInt64} {t u w p q : UInt64} {mode m : LockMode}
  {pc : AcquirePc} {lm : LockManager} {P : UInt64 → LockMode → Prop}

theorem AcquirePc.pending_of_waits (waits : pc.waits = true) : pc.pending = true := by
  cases pc with
  | waitUpgrade | wait => rfl
  | _ => cases waits

theorem State.WhilePending.at (holds : s.WhilePending w P) (isAt : s.pcs w = .acquire q m pc)
    (pending : pc.pending = true) : P q m := by
  rw [WhilePending, isAt] at holds
  exact holds pending

theorem OnlyInTheWay.eq {granted : List Lock} {holder : UInt64}
    (only : OnlyInTheWay granted t mode holder) (different : u ≠ t) (inTheWay : InTheWay granted u mode) :
    u = holder := by
  obtain ⟨lock, member, rfl, strong⟩ := inTheWay
  exact only lock member different ⟨lock, member, rfl, strong⟩

namespace State

theorem Tracks.noMissed (tracks : s.Tracks txns) : s.NoMissed := by
  have tracked : ∀ t u, s.WaitsFor t u → Edge s.lm.waitingGraph t u := by
    rintro t u ⟨p, mode, pc, isAt, waits, different, inTheWay⟩
    exact tracks.tracked t p mode pc isAt (AcquirePc.pending_of_waits waits) u different inTheWay
  refine ⟨tracked, fun t p mode holder lockHolders isAt cycle => ?_, tracks.acyclic.mono tracked⟩
  exact checkDeadlock_iff.mpr (Leads.first (ReflTransGen.mono tracked holder t cycle))

theorem Tracks.new : State.new.Tracks txns where
  callers _ notIdle := absurd rfl notIdle
  asks := Asks.new
  tracked _ _ _ _ impossible := by cases impossible
  acyclic x cycle := by
    obtain ⟨y, edge, _⟩ := TransGen.head'_iff.mp cycle
    cases edge

/-- A call that starts is behind no check. -/
theorem Tracks.starts {action : Action} {new : Pc} (tracks : s.Tracks txns) (idle : s.pcs t = .idle)
    (starts : Starts action t new) (called : action.By txns) :
    ({ s with pcs := Function.update s.pcs t new } : State).Tracks txns where
  callers := tracks.callers.step (.starts idle starts) called
  asks := tracks.asks.step (.starts idle starts)
  tracked w q m pc isAt pending := by
    rcases eq_or_ne w t with rfl | different
    · have own := (Function.update_self _ _ _).symm.trans isAt
      cases starts with
      | acquireLock =>
        cases own
        cases pending
      | releaseLock | releaseAllLocks => cases own
    · exact tracks.tracked w q m pc ((Function.update_of_ne different _ _).symm.trans isAt) pending
  acyclic := tracks.acyclic

/-! ## Sections of `acquire_lock` -/

/-- The edges of the transaction whose call goes on. -/
theorem Tracks.own {next : AcquirePc} (tracks : s.Tracks txns) (isAt : s.pcs t = .acquire p mode pc)
    (does : pc.Does s.lm t p mode lm (.next next)) (watched : s.WatchedAcquire txns t p mode pc)
    (pending : next.pending = true) (different : u ≠ t)
    (inTheWay : InTheWay (lm.granted p) u mode) : Edge lm.waitingGraph t u := by
  have before := tracks.tracked t p mode pc isAt
  cases does with
  | looks _ _ found =>
    cases next with
    | deadlock lockHolders =>
      cases lockHolders with
      | nil => exact absurd rfl found
      | cons => cases pending
    | grant afterConflict =>
      rcases found with impossible | notChecked
      · cases impossible
      · cases notChecked
        cases pending
    | waitUpgrade | wait =>
      rcases found with impossible | impossible
      · cases impossible
      · cases impossible
    | _ => cases pending
  | checks =>
    rename_i holder lockHolders silent
    cases lockHolders with
    | nil => exact edge_insert.mpr (Or.inl ⟨rfl, (watched.1 rfl).eq different inTheWay⟩)
    | cons => cases pending
  | checked => exact before rfl u different inTheWay
  | blocks quiet waits requests =>
    rename_i afterConflict
    rw [quiet.granted] at inTheWay
    rw [quiet.waitingGraph]
    cases afterConflict with
    | true => exact before rfl u different inTheWay
    | false => exact absurd inTheWay (watched.1 rfl u different)
  | grants => cases pending

/-- Only a grant puts the transaction in the way of another one. -/
theorem new_inTheWay {outcome : Outcome AcquirePc} (does : pc.Does s.lm t p mode lm outcome)
    (watched : s.WatchedAcquire txns t p mode pc) (member : w ∈ txns) (others : w ≠ t) {a : AcquirePc}
    (isAt : s.pcs w = .acquire q m a) (pending : a.pending = true)
    (inTheWay : InTheWay (lm.granted q) t m) : InTheWay (s.lm.granted q) t m := by
  cases does with
  | looks _ quiet | blocks quiet | timesOut _ quiet => rwa [quiet.granted] at inTheWay
  | reports | checks | checked | records => exact inTheWay
  | grants asks granting =>
    rcases eq_or_ne q p with rfl | elsewhere
    · have noOvertaking : s.NoOvertaking txns t q mode := by
        rcases asks with rfl | ⟨existingLock, rfl⟩ | rfl
        · exact watched.2
        · exact watched
        · exact watched
      have already := (noOvertaking granting.clear w member others).at isAt pending rfl
      rcases granting.new _ inTheWay with old | shared | exclusive
      · exact old
      · refine already (Or.inr ?_)
        cases m with
        | exclusive => rfl
        | shared => cases shared
      · exact already (Or.inl exclusive)
    · rwa [granting.elsewhere q elsewhere] at inTheWay

/-- The edges of the others stay, except behind a report. -/
theorem edge_stays {outcome : Outcome AcquirePc} (does : pc.Does s.lm t p mode lm outcome)
    (watched : s.WatchedAcquire txns t p mode pc) (member : w ∈ txns) (others : w ≠ t) {a : AcquirePc}
    (isAt : s.pcs w = .acquire q m a) (pending : a.pending = true) (different : u ≠ w)
    (inTheWay : InTheWay (s.lm.granted q) u m) (edge : Edge s.lm.waitingGraph w u) :
    Edge lm.waitingGraph w u := by
  cases does with
  | looks _ quiet | blocks quiet | timesOut _ quiet => rwa [quiet.waitingGraph]
  | reports report =>
    have clear := (watched.2 (checkDeadlock_iff.mp report) w member others).at isAt pending
    exact absurd inTheWay (clear u different)
  | checks => exact edge_insert.mpr (Or.inr ⟨others, edge⟩)
  | checked => exact edge
  | grants _ granting => rwa [granting.waitingGraph]
  | records =>
    rename_i afterConflict
    cases afterConflict with
    | true => exact edge_erase.mpr ⟨others, edge⟩
    | false => exact edge

/-- Only a check adds an edge, and only one that closes no cycle. -/
theorem acyclic_acquired {outcome : Outcome AcquirePc} (acyclic : Acyclic (Edge s.lm.waitingGraph))
    (does : pc.Does s.lm t p mode lm outcome) : Acyclic (Edge lm.waitingGraph) := by
  cases does with
  | looks _ quiet | blocks quiet | timesOut _ quiet => rwa [quiet.waitingGraph]
  | reports report => exact acyclic.mono fun x y edge => (checkDeadlock_reported report edge).2.2
  | checks silent =>
    refine acyclic.new_edges (x := t) (fun y different z edge => ?_) fun y edge back => ?_
    · exact (edge_insert.mp edge).resolve_left (fun own => different own.1) |>.2
    · rcases edge_insert.mp edge with ⟨_, rfl⟩ | ⟨different, _⟩
      · rw [checkDeadlock_iff.mpr back] at silent
        cases silent
      · exact different rfl
  | checked => exact acyclic
  | grants _ granting => rwa [granting.waitingGraph]
  | records =>
    rename_i afterConflict
    cases afterConflict with
    | true => exact acyclic.mono fun x y edge => (edge_erase.mp edge).2
    | false => exact acyclic

theorem Tracks.acquired {choice : Choice} {outcome : Outcome AcquirePc} (tracks : s.Tracks txns)
    (isAt : s.pcs t = .acquire p mode pc)
    (ran : pc.step s.lm t p mode choice = some (lm, outcome))
    (does : pc.Does s.lm t p mode lm outcome) (called : t ∈ txns)
    (watched : s.WatchedAcquire txns t p mode pc) :
    (s.acquired t p mode lm outcome).Tracks txns where
  callers := tracks.callers.step (.acquires isAt ran does) called
  asks := tracks.asks.step (.acquires isAt ran does)
  tracked w q m a here pending u different inTheWay := by
    rw [acquired_pcs] at here
    rw [acquired_lm] at inTheWay ⊢
    rcases eq_or_ne w t with rfl | others
    · rw [Function.update_self] at here
      cases outcome with
      | next next =>
        cases here
        exact tracks.own isAt does watched pending different inTheWay
      | returned | threw => cases here
    · rw [Function.update_of_ne others] at here
      have member : w ∈ txns := tracks.callers w fun idle => by cases here.symm.trans idle
      have before : InTheWay (s.lm.granted q) u m := by
        rcases eq_or_ne u t with rfl | other
        · exact new_inTheWay does watched member others here pending inTheWay
        · exact (does.others other q _).mp inTheWay
      exact edge_stays does watched member others here pending different before
        (tracks.tracked w q m a here pending u different before)
  acyclic := by
    rw [acquired_lm]
    exact acyclic_acquired tracks.acyclic does

/-! ## Sections of a release -/

theorem Tracks.released {choice : Choice} {r : ReleasePc} {outcome : Outcome ReleasePc}
    (tracks : s.Tracks txns) (isAt : s.pcs t = .release r) (does : r.Does s.lm t lm outcome)
    (watched : s.Watched txns (.step t choice)) :
    (s.released t r.releases lm outcome).Tracks txns where
  callers := tracks.callers.step (.releases isAt does : s.Did (.step t choice) _) watched.1
  asks := tracks.asks.step (.releases isAt does : s.Did (.step t choice) _)
  tracked w q m a here pending u different inTheWay := by
    rcases eq_or_ne w t with rfl | others
    · have own := (Function.update_self _ _ _).symm.trans here
      split at own <;> cases own
    · have old := (Function.update_of_ne others _ _).symm.trans here
      have before : InTheWay (s.lm.granted q) u m := does.fewer inTheWay
      refine does.edge_kept others ?_ (tracks.tracked w q m a old pending u different before)
      by_cases same : u = t
      · subst same
        refine Or.inr fun p pages isForget => ?_
        subst isForget
        have member : w ∈ txns := tracks.callers w fun idle => by cases old.symm.trans idle
        have kept := watched.2
        dsimp only at kept
        rw [isAt] at kept
        exact (kept w member others).at old pending before
      · exact Or.inl same
  acyclic := tracks.acyclic.mono fun x y => does.edge

theorem Tracks.step {action : Action} (tracks : s.Tracks txns) (watched : s.Watched txns action)
    (stepped : s.step action = some s') : s'.Tracks txns := by
  have did := step_did tracks.asks stepped
  cases did with
  | starts idle starts => exact tracks.starts idle starts watched.1
  | acquires isAt ran does =>
    have here := watched.2
    dsimp only at here
    rw [isAt] at here
    exact tracks.acquired isAt ran does watched.1 here
  | releases isAt does => exact tracks.released isAt does watched

end State

/-- As long as the steps are watched, every edge to a transaction in the way of a waiting one is in
the waiting graph, a request that closes a cycle is reported, and no cycle is there. -/
theorem noMissed_of_watched {txns : List UInt64} {actions : List Action}
    (watched : Machine.Along State.step (fun s => s.Watched txns) State.new actions) :
    Machine.Always State.step State.NoMissed State.new actions :=
  Machine.always (fun _ _ _ tracks watched stepped => State.Tracks.step tracks watched stepped)
    (fun _ tracks => State.Tracks.noMissed tracks) State.Tracks.new watched

/-! ## Two runs -/

/-- Every step is watched, and the check reports the deadlock. -/
theorem noMissed_of_watched_cross :
    (Machine.run State.step State.new crossRun).any (fun s =>
        (checkDeadlock s.lm.waitingGraph 1 2).1) ∧
      Machine.Always State.step State.NoMissed State.new crossRun := by
  have watched : Machine.Along State.step (fun s => s.Watched [1, 2]) State.new crossRun := by
    decide +kernel
  exact ⟨by decide +kernel, noMissed_of_watched watched⟩

/-- No call is between its update of the locks and its update of the waiting graph. -/
def State.BetweenUpdates (s : State) : Prop :=
  ∃ t, (∃ p mode afterConflict, s.pcs t = .acquire p mode (.record afterConflict)) ∨
    ∃ p pages, s.pcs t = .release (.forget p pages)

/-- Transactions 1 and 2 share page 0, and 3 waits for it. -/
def twoHolders : List Action :=
  .acquireLock 1 0 .shared :: sections 1 6 ++
  .acquireLock 2 0 .shared :: sections 2 3 ++ .step 2 (.visit 1) :: sections 2 3 ++
  .acquireLock 3 0 .exclusive :: sections 3 3 ++ .step 3 (.visit 1) :: .step 3 (.visit 2) ::
  sections 3 5

/-- Of two holders, the one that is checked last is left in the waiting graph. -/
theorem not_tracked_twoHolders :
    ¬ ∀ actions s, Machine.run State.step State.new actions = some s → ¬ s.BetweenUpdates →
      ∀ t u, s.WaitsFor t u → Edge s.lm.waitingGraph t u := by
  intro tracked
  have broken : (Machine.run State.step State.new twoHolders).any (fun s =>
      s.pcs 1 = .idle ∧ s.pcs 2 = .idle ∧ s.pcs 3 = .acquire 0 .exclusive (.wait true) ∧
        InTheWay (s.lm.granted 0) 1 .exclusive ∧ ¬ Edge s.lm.waitingGraph 3 1) := by
    decide +kernel
  obtain ⟨s, ran, facts⟩ := (Option.any_eq_true _ _).mp broken
  obtain ⟨first, second, third, inTheWay, missing⟩ := of_decide_eq_true facts
  have called : Machine.Along State.step (fun _ action => action.By [1, 2, 3]) State.new
      twoHolders := by decide +kernel
  have callers : s.Asks ∧ s.Callers [1, 2, 3] :=
    Machine.invariant (P := fun s => s.Asks ∧ s.Callers [1, 2, 3]) (fun s a s' holds called stepped =>
      have did := State.step_did holds.1 stepped
      ⟨holds.1.step did, holds.2.step did called⟩)
      ⟨State.Asks.new, fun _ notIdle => absurd rfl notIdle⟩ called ran
  refine missing (tracked _ s ran ?_ 3 1 ⟨0, .exclusive, _, third, rfl, by decide, inTheWay⟩)
  rintro ⟨t, between⟩
  have notIdle : s.pcs t ≠ .idle := by
    intro idle
    rcases between with ⟨p, mode, afterConflict, isAt⟩ | ⟨p, pages, isAt⟩
    · cases isAt.symm.trans idle
    · cases isAt.symm.trans idle
  have member := callers.2 t notIdle
  simp only [List.mem_cons, List.not_mem_nil, or_false] at member
  rcases member with rfl | rfl | rfl
  · exact notIdle first
  · exact notIdle second
  · rw [third] at between
    rcases between with ⟨p, mode, afterConflict, isAt⟩ | ⟨p, pages, isAt⟩
    · cases isAt
    · cases isAt

end BuzzDB.Locking
