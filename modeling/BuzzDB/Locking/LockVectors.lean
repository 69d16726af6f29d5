import BuzzDB.Lib.GrowingVectors
import BuzzDB.Locking.Consistency

/-!
# The vectors of the granted locks

`granted_locks_` is a vector, and `existing_lock` a reference into its memory.  While an upgrade waits
with it, `release_lock` moves entries inside of the vector, and a grant that finds the vector full
moves the whole vector to a larger block.  The block that it leaves may be given to the vector of
another page, and then the upgrade writes into the lock of another transaction there.

A write to a block that no vector is in changes no entry here; what else it does is undefined.
-/

namespace BuzzDB.Locking

open GrowingVectors

/-- The sections of `grant_lock` that can write to the vector. -/
def AcquirePc.writes : AcquirePc → Choice → Bool
  | .grant _, _ | .wait _, _ | .waitUpgrade _ _, .proceed => true
  | _, _ => false

/-- The lock manager and its callers, with the memory of the vectors, and for each transaction the
block that its `existing_lock` refers to. -/
structure Placed where
  calls : State
  storage : Storage UInt64
  reference : UInt64 → Option Nat

namespace Placed

/-- No locks and no calls. -/
def new : Placed := ⟨State.new, .new, fun _ => none⟩

variable (s : Placed)

/-- The granted locks of a page. -/
def granted (pageId : UInt64) : List Lock := s.calls.lm.granted pageId

/-- `existing_lock.mode = LockMode::EXCLUSIVE`, in the vector that is in the block now. -/
def writeReference (txnId : UInt64) (existingLock : Nat) : LockManager :=
  match (s.reference txnId).bind s.storage.owner with
  | some pageId =>
    s.calls.lm.setFrame pageId ((s.calls.lm.pageLocks pageId).setExclusive existingLock)
  | none => s.calls.lm

/-- Behind a section of `grant_lock` for the page: its vector has room for the entry, and a wait for an
upgrade refers to the vector as it is. -/
def behindGrant (txnId pageId : UInt64) (allocation : Allocation) (calls : State) : Option Placed := do
  let storage ← s.storage.fit pageId (calls.lm.granted pageId).length allocation
  return ⟨calls, storage, Function.update s.reference txnId (s.storage.block pageId)⟩

/-- One action, with what the allocator returns if a vector moves. -/
def step : Action × Allocation → Option Placed
  | (.step txnId choice, allocation) =>
    match s.calls.pcs txnId, choice with
    | .acquire pageId mode (.waitUpgrade existingLock afterConflict), .proceed =>
      if (s.calls.lm.pageLocks pageId).upgradePred txnId then
        some { s with
          calls := s.calls.acquired txnId pageId mode (s.writeReference txnId existingLock)
            (.next (.record afterConflict)) }
      else none
    | .acquire pageId _ (.grant _), choice | .acquire pageId _ (.wait _), choice =>
      (s.calls.step (.step txnId choice)).bind (s.behindGrant txnId pageId allocation)
    | _, choice => (s.calls.step (.step txnId choice)).map fun calls => { s with calls }
  | (action, _) => (s.calls.step action).map fun calls => { s with calls }

/-- The page on which the transaction waits for an upgrade. -/
def upgradePage (txnId : UInt64) : Option UInt64 :=
  match s.calls.pcs txnId with
  | .acquire pageId _ (.waitUpgrade _ _) => some pageId
  | _ => none

/-- The action is not an upgrade that goes on after the vector of its page has moved. -/
def InBlock : Action × Allocation → Prop
  | (.step txnId .proceed, _) =>
    ∀ pageId ∈ s.upgradePage txnId, (s.reference txnId).bind s.storage.owner = some pageId
  | _ => True

instance : DecidablePred s.InBlock
  | (.step txnId .proceed, _) => Option.decidableForallMem (s.upgradePage txnId)
  | (.step _ (.visit _), _) | (.step _ .timeout, _) | (.acquireLock _ _ _, _) | (.releaseLock _ _, _)
  | (.releaseAllLocks _, _) => isTrue trivial

/-- The action does not grow the vector of a page past its capacity while an upgrade waits on it. -/
def StaysPut (action : Action × Allocation) : Prop :=
  ∀ calls, s.calls.step action.1 = some calls → ∀ p,
    s.storage.capacity p < (calls.lm.granted p).length → ∀ t, s.upgradePage t ≠ some p

variable {s} {s' : Placed} {action : Action × Allocation} {actions : List (Action × Allocation)}
  {t u p q : UInt64} {mode : LockMode} {pc : AcquirePc} {choice : Choice} {lm lm' : LockManager}
  {outcome : Outcome AcquirePc}

/-- The sections that do not write leave the tables as they are, and begin no upgrade. -/
theorem quiet_of_not_writes (steps : pc.Steps lm t p mode choice lm' outcome)
    (early : pc.writes choice = false) :
    lm'.pageLocks = lm.pageLocks ∧
      ∀ existingLock afterConflict, outcome ≠ .next (.waitUpgrade existingLock afterConflict) := by
  cases steps with
  | grants | blocksUpgrade | blocks | upgradeGoesOn | goesOn | timesOut => cases early
  | _ => exact ⟨rfl, nofun⟩

/-! ## What an action does -/

/-- How an action ends. -/
inductive Steps (s : Placed) : Action × Allocation → Placed → Prop
  | upgrades {t p : UInt64} {mode : LockMode} {existingLock : Nat} {afterConflict : Bool}
      {allocation : Allocation}
      (isAt : s.calls.pcs t = .acquire p mode (.waitUpgrade existingLock afterConflict))
      (pred : (s.calls.lm.pageLocks p).upgradePred t = true) :
      Steps s (.step t .proceed, allocation)
        { s with
          calls := s.calls.acquired t p mode (s.writeReference t existingLock)
            (.next (.record afterConflict)) }
  | grants {t p : UInt64} {mode : LockMode} {pc : AcquirePc} {choice : Choice}
      {allocation : Allocation} {calls : State} {storage : Storage UInt64}
      (isAt : s.calls.pcs t = .acquire p mode pc)
      (asks : ∃ afterConflict, pc = .grant afterConflict ∨ pc = .wait afterConflict)
      (stepped : s.calls.step (.step t choice) = some calls)
      (fits : s.storage.fit p (calls.lm.granted p).length allocation = some storage) :
      Steps s (.step t choice, allocation)
        ⟨calls, storage, Function.update s.reference t (s.storage.block p)⟩
  | other {action : Action × Allocation} {calls : State} (stepped : s.calls.step action.1 = some calls)
      (early : ∀ t choice, action.1 = .step t choice → ∀ p mode pc, s.calls.pcs t = .acquire p mode pc →
        pc.writes choice = false) :
      Steps s action { s with calls }

theorem step_cases (stepped : s.step action = some s') : s.Steps action s' := by
  obtain ⟨action, allocation⟩ := action
  have elsewhere : ∀ t choice, action = .step t choice →
      (∀ p mode pc, s.calls.pcs t = .acquire p mode pc → pc.writes choice = false) →
      (s.calls.step action).map (fun calls => { s with calls }) = some s' →
      s.Steps (action, allocation) s' := by
    rintro t choice rfl early result
    obtain ⟨calls, ran, rfl⟩ := Option.map_eq_some_iff.mp result
    refine .other ran fun u choice' same => ?_
    cases same
    exact early
  cases action with
  | acquireLock | releaseLock | releaseAllLocks =>
    obtain ⟨calls, ran, rfl⟩ := Option.map_eq_some_iff.mp stepped
    exact .other ran nofun
  | step t choice =>
    cases isAt : s.calls.pcs t with
    | idle | release =>
      simp only [step, isAt] at stepped
      exact elsewhere t choice rfl (fun p mode pc there => by cases isAt.symm.trans there) stepped
    | acquire p mode pc =>
      by_cases writes : pc.writes choice = true
      · cases pc with
        | grant afterConflict | wait afterConflict =>
          simp only [step, isAt] at stepped
          obtain ⟨calls, ran, behind⟩ := Option.bind_eq_some_iff.mp stepped
          obtain ⟨storage, fits, same⟩ := Option.bind_eq_some_iff.mp behind
          cases same
          exact .grants isAt ⟨afterConflict, by simp⟩ ran fits
        | waitUpgrade existingLock afterConflict =>
          cases choice with
          | proceed =>
            simp only [step, isAt] at stepped
            obtain ⟨pred, same⟩ := Option.ite_none_right_eq_some.mp stepped
            cases same
            exact .upgrades isAt pred
          | _ => cases writes
        | _ => cases writes
      · refine elsewhere t choice rfl (fun p' mode' pc' there => ?_) ?_
        · cases isAt.symm.trans there
          exact Bool.eq_false_iff.mpr writes
        · cases pc with
          | grant | wait => exact absurd rfl writes
          | waitUpgrade =>
            cases choice with
            | proceed => exact absurd rfl writes
            | _ => simpa only [step, isAt] using stepped
          | _ => simpa only [step, isAt] using stepped

/-- An upgrade that goes on in its block is one of the position that it has kept. -/
theorem projects (inBlock : s.InBlock action) (stepped : s.step action = some s') :
    s.calls.step action.1 = some s'.calls := by
  cases step_cases stepped with
  | grants _ _ ran => exact ran
  | other ran => exact ran
  | @upgrades t p mode existingLock afterConflict _ isAt pred =>
    have waits : s.upgradePage t = some p := by simp only [upgradePage, isAt]
    have owned : (s.reference t).bind s.storage.owner = some p := inBlock p waits
    have writes : s.writeReference t existingLock =
        s.calls.lm.setFrame p ((s.calls.lm.pageLocks p).setExclusive existingLock) := by
      simp only [writeReference, owned]
    rw [writes]
    simp only [State.step, isAt, AcquirePc.step, if_pos pred, Option.map_some]

/-- A run whose upgrades find their vectors where they were is one of the calls alone. -/
theorem run_calls (inBlock : Machine.Along step InBlock s actions)
    (ran : Machine.run step s actions = some s') :
    Machine.run State.step s.calls (actions.map Prod.fst) = some s'.calls :=
  Machine.run_project (fun _ _ _ => projects) inBlock ran

/-! ## Where no vector moves -/

/-- Every vector has room for its entries, and every waiting upgrade refers to the block that the
vector of its page is in. -/
structure Inv (s : Placed) : Prop where
  calls : s.calls.Consistent
  wf : s.storage.Wf
  room : ∀ p, (s.calls.lm.granted p).length ≤ s.storage.capacity p
  refers : ∀ t, ∀ p ∈ s.upgradePage t, (s.reference t).bind s.storage.owner = some p

theorem Inv.new : new.Inv where
  calls := .new
  wf := .new
  room _ := Nat.le_refl 0
  refers _ _ := nofun

theorem Inv.inBlock (inv : s.Inv) : s.InBlock action := by
  unfold InBlock
  split
  · exact inv.refers _
  · trivial

/-- Where another transaction waits for an upgrade does not change. -/
theorem upgradePage_acquired (different : u ≠ t) {storage : Storage UInt64}
    {reference : UInt64 → Option Nat} :
    upgradePage ⟨s.calls.acquired t p mode lm outcome, storage, reference⟩ u = s.upgradePage u := by
  unfold upgradePage
  rw [State.acquired_pcs, Function.update_of_ne different]

/-- A transaction waits for an upgrade only behind a section that says so. -/
theorem upgradePage_of_not_waits {storage : Storage UInt64} {reference : UInt64 → Option Nat}
    (goesOn : ∀ existingLock afterConflict, outcome ≠ .next (.waitUpgrade existingLock afterConflict)) :
    upgradePage ⟨s.calls.acquired t p mode lm outcome, storage, reference⟩ t = none := by
  unfold upgradePage
  rw [State.acquired_pcs, Function.update_self]
  cases outcome with
  | next pc =>
    cases pc with
    | waitUpgrade existingLock afterConflict => exact absurd rfl (goesOn existingLock afterConflict)
    | _ => rfl
  | _ => rfl

/-- Behind an upgrade in its block the tables have as many entries as before. -/
theorem length_setExclusive (f : FrameLockManager) (existingLock : Nat) :
    (f.setExclusive existingLock).grantedLocks.length = f.grantedLocks.length :=
  List.length_modify _ _ _

theorem length_granted_setFrame {f : FrameLockManager}
    (length : f.grantedLocks.length ≤ (lm.granted p).length) (q : UInt64) :
    ((lm.setFrame p f).granted q).length ≤ (lm.granted q).length := by
  rcases eq_or_ne q p with rfl | elsewhere
  · rwa [LockManager.granted_setFrame_self]
  · rw [LockManager.granted_setFrame_of_ne _ _ elsewhere]

/-- A section that does not write adds no entry, and begins no upgrade. -/
theorem keeps_of_not_writes {action : Action} {calls : State} (asks : s.calls.Asks)
    (stepped : s.calls.step action = some calls)
    (early : ∀ t choice, action = .step t choice → ∀ p mode pc, s.calls.pcs t = .acquire p mode pc →
      pc.writes choice = false) :
    (∀ q, (calls.lm.granted q).length ≤ (s.calls.lm.granted q).length) ∧
      ∀ t, ∀ p ∈ ({ s with calls } : Placed).upgradePage t, p ∈ s.upgradePage t := by
  cases State.step_did asks stepped with
  | @starts _ u new idle starts =>
    refine ⟨fun _ => Nat.le_refl _, fun t p waits => ?_⟩
    rcases eq_or_ne t u with rfl | different
    · unfold upgradePage at waits
      simp only [Function.update_self] at waits
      cases starts <;> cases waits
    · unfold upgradePage at waits ⊢
      simp only [Function.update_of_ne different] at waits
      exact waits
  | @acquires u q choice mode pc lm outcome isAt ran =>
    obtain ⟨tables, goesOn⟩ :=
      quiet_of_not_writes (AcquirePc.step_cases ran) (early u choice rfl q mode pc isAt)
    refine ⟨fun q => ?_, fun t p waits => ?_⟩
    · rw [State.acquired_lm, LockManager.granted, tables, LockManager.granted]
    · rcases eq_or_ne t u with rfl | different
      · cases (upgradePage_of_not_waits goesOn).symm.trans waits
      · exact (upgradePage_acquired different).symm.trans waits
  | @releases u choice r lm outcome isAt does =>
    refine ⟨fun q => ?_, fun t p waits => ?_⟩
    · cases does with
      | frame q' pages => exact length_granted_setFrame (List.length_filter_le _ _) q
      | _ => exact Nat.le_refl _
    · rcases eq_or_ne t u with rfl | different
      · unfold upgradePage at waits
        simp only [State.released, Function.update_self] at waits
        split at waits
        · rename_i impossible
          split at impossible <;> cases impossible
        · cases waits
      · unfold upgradePage at waits ⊢
        simp only [State.released, Function.update_of_ne different] at waits
        exact waits

/-- A section behind which the transaction waits for an upgrade has found its entry, and changed
nothing. -/
theorem waits_of_upgradePage {storage : Storage UInt64} {reference : UInt64 → Option Nat}
    (steps : pc.Steps s.calls.lm t p mode choice lm outcome)
    (waits : q ∈ upgradePage ⟨s.calls.acquired t p mode lm outcome, storage, reference⟩ t) :
    q = p ∧ lm = s.calls.lm ∧ Covers (s.calls.lm.granted p) t .shared := by
  unfold upgradePage at waits
  simp only [State.acquired_pcs, Function.update_self] at waits
  cases steps with
  | blocksUpgrade exclusive has =>
    cases waits
    exact ⟨rfl, rfl, has⟩
  | _ => cases waits

/-- Entries that a section of `grant_lock` for the page leaves as they are elsewhere. -/
theorem granted_of_ne {calls : State} (asks : s.calls.Asks)
    (isAt : s.calls.pcs t = .acquire p mode pc)
    (stepped : s.calls.step (.step t choice) = some calls) (elsewhere : q ≠ p) :
    calls.lm.granted q = s.calls.lm.granted q := by
  simp only [State.step, isAt] at stepped
  obtain ⟨⟨lm, outcome⟩, ran, rfl⟩ := Option.map_eq_some_iff.mp stepped
  rw [State.acquired_lm]
  have grants := (AcquirePc.step_grants (asks t p mode pc isAt) ran).1
  exact grants.others q elsewhere

theorem Inv.grants {allocation : Allocation} {calls : State} {storage : Storage UInt64}
    (inv : s.Inv) (isAt : s.calls.pcs t = .acquire p mode pc)
    (stepped : s.calls.step (.step t choice) = some calls)
    (fits : s.storage.fit p (calls.lm.granted p).length allocation = some storage)
    (stays : s.StaysPut (.step t choice, allocation)) :
    Inv ⟨calls, storage, Function.update s.reference t (s.storage.block p)⟩ where
  calls := inv.calls.step stepped
  wf := inv.wf.fit fits
  room q := by
    rcases eq_or_ne q p with rfl | elsewhere
    · exact Storage.length_le_of_fit fits
    · change (calls.lm.granted q).length ≤ storage.capacity q
      rw [granted_of_ne inv.calls.asks isAt stepped elsewhere,
        Storage.capacity_fit_of_ne fits elsewhere]
      exact inv.room q
  refers u q waits := by
    simp only [State.step, isAt] at stepped
    obtain ⟨⟨lm, outcome⟩, ran, rfl⟩ := Option.map_eq_some_iff.mp stepped
    rcases eq_or_ne u t with rfl | different
    -- The upgrade begins to wait: its entry is in the vector, which therefore has a block.
    · obtain ⟨rfl, rfl, has⟩ := waits_of_upgradePage (AcquirePc.step_cases ran) waits
      rw [State.acquired_lm] at fits
      have unmoved : storage = s.storage := by
        rcases Storage.fit_cases fits with ⟨-, same⟩ | ⟨full, -⟩
        · exact same
        · exact absurd (inv.room q) (Nat.not_le.mpr full)
      change (Function.update s.reference u (s.storage.block q) u).bind storage.owner = some q
      rw [Function.update_self, unmoved]
      cases placed : s.storage.block q with
      | some block => exact (inv.wf.owns q block).mp placed
      | none =>
        obtain ⟨lock, member, -⟩ := has
        have entries := inv.room q
        rw [inv.wf.room q placed] at entries
        exact absurd (List.length_pos_of_mem member) (Nat.not_lt.mpr entries)
    · have before : q ∈ s.upgradePage u := (upgradePage_acquired different).symm.trans waits
      obtain ⟨block, refers, owned⟩ := Option.bind_eq_some_iff.mp (inv.refers u q before)
      change (Function.update s.reference t (s.storage.block p) u).bind storage.owner = some q
      rw [Function.update_of_ne different, refers]
      refine inv.wf.owner_fit fits owned fun grows same => ?_
      subst same
      refine stays _ ?_ q grows u before
      simp only [State.step, isAt, ran, Option.map_some]

theorem Inv.upgrades {existingLock : Nat} {afterConflict : Bool} (inv : s.Inv)
    (isAt : s.calls.pcs t = .acquire p mode (.waitUpgrade existingLock afterConflict))
    (pred : (s.calls.lm.pageLocks p).upgradePred t = true) :
    Inv { s with
      calls := s.calls.acquired t p mode (s.writeReference t existingLock)
        (.next (.record afterConflict)) } := by
  have owned : (s.reference t).bind s.storage.owner = some p :=
    inv.refers t p (by simp only [upgradePage, isAt]; rfl)
  have stepped : s.step (.step t .proceed, ⟨0, 0⟩) = some { s with
      calls := s.calls.acquired t p mode (s.writeReference t existingLock)
        (.next (.record afterConflict)) } := by
    simp only [step, isAt, if_pos pred]
  have projected := projects inv.inBlock stepped
  refine ⟨inv.calls.step projected, inv.wf, fun q => ?_, fun u q waits => ?_⟩
  · apply le_trans _ (inv.room q)
    simp only [writeReference, owned]
    exact length_granted_setFrame (Nat.le_of_eq (length_setExclusive _ _)) q
  · rcases eq_or_ne u t with rfl | different
    · have goesOn : ∀ existingLock' afterConflict', Outcome.next (AcquirePc.record afterConflict) ≠
          .next (.waitUpgrade existingLock' afterConflict') := fun _ _ impossible => by cases impossible
      cases (upgradePage_of_not_waits goesOn).symm.trans waits
    · exact inv.refers u q ((upgradePage_acquired different).symm.trans waits)

theorem Inv.step (inv : s.Inv) (stays : s.StaysPut action) (stepped : s.step action = some s') :
    s'.Inv := by
  cases step_cases stepped with
  | upgrades isAt pred => exact inv.upgrades isAt pred
  | grants isAt _ ran fits => exact inv.grants isAt ran fits stays
  | other ran early =>
    obtain ⟨entries, waiting⟩ := keeps_of_not_writes inv.calls.asks ran early
    exact ⟨inv.calls.step ran, inv.wf, fun q => (entries q).trans (inv.room q),
      fun t p waits => inv.refers t p (waiting t p waits)⟩

/-- Where no vector moves while an upgrade waits on its page, every upgrade goes on in its block. -/
theorem inBlock_of_staysPut (stays : Machine.Along step StaysPut new actions) :
    Machine.Along step InBlock new actions :=
  Machine.along_of_invariant (fun _ _ _ inv stays stepped => Inv.step inv stays stepped)
    (fun _ _ inv _ => inv.inBlock) .new stays

end Placed

variable {s : Placed} {actions : List (Action × Allocation)}

/-- In a run in which every upgrade that goes on finds the vector of its page where it was, whatever
order the sections came in and however the calls ended: the tables of the pages are compatible; for
a transaction in no call `txn_locks_` has what they have; only a release of the owner takes an entry
away; and a transaction that has called `release_all_locks` and is in no call again has no entry,
until it starts the next one. -/
theorem tables_consistent (inBlock : Machine.Along Placed.step Placed.InBlock Placed.new actions)
    (ran : Machine.run Placed.step Placed.new actions = some s) :
    (∀ p, Compatible (s.granted p)) ∧
      (∀ t, s.calls.pcs t = .idle → ∀ p,
        p ∈ SetMap.get s.calls.lm.txnLocks t ↔ Covers (s.granted p) t .shared) ∧
      (∀ action s', s.InBlock action → s.step action = some s' → ∀ t p mode,
        Covers (s.granted p) t mode → ¬ Covers (s'.granted p) t mode →
          ∃ choice pages, action.1 = .step t choice ∧ s.calls.pcs t = .release (.frame p pages)) ∧
      ∀ t room more s',
        Machine.Along Placed.step Placed.InBlock s ((.releaseAllLocks t, room) :: more) →
        Machine.run Placed.step s ((.releaseAllLocks t, room) :: more) = some s' →
        (∀ action ∈ more, ∀ pc, ¬ State.Starts action.1 t pc) → s'.calls.pcs t = .idle →
          ∀ p, Absent (s'.granted p) t := by
  have consistent := State.Consistent.run (Placed.run_calls inBlock ran)
  refine ⟨consistent.compatible, fun t idle p => ?_, fun action s' inBlock stepped t p mode => ?_,
    fun t room more s' inBlock later other idle p => ?_⟩
  · exact (State.recorded_idle idle).symm.trans (consistent.entries t p).symm
  · exact consistent.removes (Placed.projects inBlock stepped)
  · obtain ⟨mid, started, rest⟩ := Machine.run_cons (Placed.run_calls inBlock later)
    have others : ∀ action ∈ more.map Prod.fst, ∀ pc, ¬ State.Starts action t pc := by
      intro action member
      obtain ⟨both, isLater, rfl⟩ := List.mem_map.mp member
      exact other both isLater
    have released : s'.calls.Consistent ∧ s'.calls.Releasing t :=
      State.Releasing.run (consistent.step started) (.start started) others rest
    apply absent_iff.mpr
    intro covers
    obtain ⟨r, impossible, _⟩ := released.2.pending p covers
    cases idle.symm.trans impossible

/-- The actions with what the allocator returns to a vector that moves meanwhile. -/
def allocating (allocation : Allocation) (actions : List Action) : List (Action × Allocation) :=
  actions.map fun action => (action, allocation)

/-- Transactions 1 and 2 share page 0, whose vector moves to block 11 for the second entry; `t` waits
for the upgrade until `u` releases. -/
def upgradeInBlock (t u : UInt64) : List (Action × Allocation) :=
  allocating ⟨10, 1⟩ (.acquireLock 1 0 .shared :: sections 1 6) ++
  allocating ⟨11, 2⟩
    (.acquireLock 2 0 .shared :: sections 2 3 ++ .step 2 (.visit 1) :: sections 2 3 ++
      .acquireLock t 0 .exclusive :: sections t 5 ++ .step t (.visit u) :: sections t 4 ++
      .releaseLock u 0 :: sections u 4 ++ sections t 2)

/-- Transaction 2 has upgraded the second entry; then it releases all its locks. -/
theorem tables_consistent_upgrade :
    ∃ s s', Machine.run Placed.step Placed.new (upgradeInBlock 2 1) = some s ∧
      Machine.run Placed.step s (allocating ⟨12, 4⟩ (.releaseAllLocks 2 :: sections 2 5)) = some s' ∧
      Covers (s.granted 0) 2 .shared ∧ (∀ p, Compatible (s.granted p)) ∧ s'.calls.pcs 2 = .idle ∧
      ∀ p, Absent (s'.granted p) 2 := by
  obtain ⟨s', ran⟩ := Option.isSome_iff_exists.mp
    (show (Machine.run Placed.step Placed.new
      (upgradeInBlock 2 1 ++ allocating ⟨12, 4⟩ (.releaseAllLocks 2 :: sections 2 5))).isSome by
        decide +kernel)
  have inBlock : Machine.Along Placed.step Placed.InBlock Placed.new
      (upgradeInBlock 2 1 ++ allocating ⟨12, 4⟩ (.releaseAllLocks 2 :: sections 2 5)) := by
    decide +kernel
  have idle : (Machine.run Placed.step Placed.new
      (upgradeInBlock 2 1 ++ allocating ⟨12, 4⟩ (.releaseAllLocks 2 :: sections 2 5))).map
        (fun s => s.calls.pcs 2) = some .idle := by decide +kernel
  have locked : (Machine.run Placed.step Placed.new (upgradeInBlock 2 1)).map (fun s => s.granted 0) =
      some [⟨2, .shared⟩] := by decide +kernel
  have first : Machine.Along Placed.step Placed.InBlock Placed.new (upgradeInBlock 2 1) := by
    decide +kernel
  rw [ran] at idle
  rw [Machine.run_append] at ran
  obtain ⟨s, front, back⟩ := Option.bind_eq_some_iff.mp ran
  rw [front] at locked
  have released : s'.calls.pcs 2 = .idle := Option.some.inj idle
  have entry : s.granted 0 = [⟨2, .shared⟩] := Option.some.inj locked
  obtain ⟨compatible, -, -, released'⟩ := tables_consistent first front
  refine ⟨s, s', front, back, ?_, compatible, released, ?_⟩
  · rw [entry]
    exact ⟨⟨2, .shared⟩, List.mem_singleton_self _, rfl, nofun⟩
  · refine released' 2 _ _ s' (inBlock.behind front) back (fun action member pc starts => ?_) released
    obtain ⟨_, isSection, rfl⟩ := List.mem_map.mp member
    cases List.eq_of_mem_replicate isSection
    cases starts

/-- Transaction 2 has the first entry of page 0, whose vector is in block 11, and waits for an
upgrade.  The entry of 3 moves it to block 12, and the vector of page 1 moves to block 11 when 3
joins 4 there.  When 1 and 3 have released page 0, the upgrade of 2 goes on. -/
def upgradeElsewhere : List (Action × Allocation) :=
  allocating ⟨10, 1⟩ (.acquireLock 2 0 .shared :: sections 2 6) ++
  allocating ⟨11, 2⟩
    (.acquireLock 1 0 .shared :: sections 1 3 ++ .step 1 (.visit 2) :: sections 1 3 ++
      .acquireLock 2 0 .exclusive :: sections 2 5 ++ .step 2 (.visit 1) :: sections 2 4) ++
  allocating ⟨12, 4⟩
    (.acquireLock 3 0 .shared :: sections 3 3 ++ .step 3 (.visit 1) :: .step 3 (.visit 2) ::
      sections 3 3) ++
  allocating ⟨13, 1⟩ (.acquireLock 4 1 .shared :: sections 4 6) ++
  allocating ⟨11, 2⟩
    (.acquireLock 3 1 .shared :: sections 3 3 ++ .step 3 (.visit 4) :: sections 3 3 ++
      .releaseLock 1 0 :: sections 1 4 ++ .releaseLock 3 0 :: sections 3 4 ++ sections 2 2)

/-- The write has made the entry of 4 on page 1 exclusive, beside the shared one of 3. -/
theorem not_tables_consistent_moved :
    ¬ ∀ actions s, Machine.run Placed.step Placed.new actions = some s →
      ∀ p, Compatible (s.granted p) := by
  intro consistent
  have broken : (Machine.run Placed.step Placed.new upgradeElsewhere).any
      (fun s => s.granted 1 = [⟨4, .exclusive⟩, ⟨3, .shared⟩]) := by decide +kernel
  obtain ⟨s, ran, table⟩ := (Option.any_eq_true _ _).mp broken
  have compatible := consistent _ s ran 1
  rw [of_decide_eq_true table] at compatible
  cases compatible.alone ⟨4, .exclusive⟩ List.mem_cons_self rfl

end BuzzDB.Locking
