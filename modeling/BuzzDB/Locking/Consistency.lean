import BuzzDB.Locking.Waiters

/-!
# The lock tables at every section

The two tables of locks are changed in different sections, so between the sections of a
call they differ for its transaction: behind a grant the lock is not in `txn_locks_` yet,
and behind the first section of a release it is there still.  `Consistent` says that they
differ nowhere else, in whatever position a waiting upgrade goes on.
-/

namespace BuzzDB.Locking

variable {lm lm' : LockManager} {t u p q : UInt64} {mode other : LockMode} {pc : AcquirePc}
  {choice : Choice} {outcome : Outcome AcquirePc}

/-- Every section of `acquire_lock` keeps the tables of the pages compatible, and behind a grant
there is an entry. -/
theorem AcquirePc.step_grants (requests : pc.Requests (lm.granted p) t mode)
    (ran : pc.step lm t p mode choice = some (lm', outcome)) :
    Grants lm t p mode lm' ∧
      ∀ afterConflict, outcome = .next (.record afterConflict) → Covers (lm'.granted p) t .shared := by
  by_cases last : ∃ afterConflict, pc = .record afterConflict
  · obtain ⟨afterConflict, rfl⟩ := last
    cases AcquirePc.step_cases ran with
    | records => exact ⟨.same rfl, fun _ impossible => by cases impossible⟩
  have knows : pc.Knows (lm.granted p) t mode := by
    cases pc with
    | waitUpgrade => exact requests.2
    | record afterConflict => exact absurd ⟨afterConflict, rfl⟩ last
    | wait | hasExclusive => exact requests
    | _ => trivial
  by_cases inPlace : pc.InPlace choice
  · have spec := AcquirePc.step_spec knows inPlace ran
    refine ⟨spec.toGrants, fun afterConflict isGrant => ?_⟩
    have covers := spec.knows
    rw [isGrant] at covers
    exact Covers.shared covers
  -- The upgrade goes on with a reference behind the end of the table, and changes nothing.
  · cases AcquirePc.step_cases ran with
    | @upgradeGoesOn existingLock afterConflict lock only own =>
      obtain ⟨-, behind⟩ := Classical.not_imp.mp inPlace
      rw [upgrade_elsewhere _ (upgradePred_iff.mpr ⟨lock, only, own⟩) behind]
      refine ⟨.frame (.same _), fun _ _ => ?_⟩
      rw [LockManager.granted_setFrame_self]
      have member : lock ∈ lm.granted p := by
        rw [only]
        exact List.mem_singleton_self lock
      exact ⟨lock, member, own, fun impossible => by cases impossible⟩
    | upgradeTimesOut => exact absurd nofun inPlace
    | _ => exact absurd trivial inPlace

namespace State

variable {s s' : State} {actions : List Action}

/-- What `txn_locks_` has for a page, but for the sections in which the two tables are apart: the
lock is granted and not recorded, or released and not forgotten. -/
def Recorded (s : State) (t p : UInt64) : Prop :=
  match s.pcs t with
  | .acquire q _ (.record _) => p = q ∨ p ∈ SetMap.get s.lm.txnLocks t
  | .release (.forget q _) => p ≠ q ∧ p ∈ SetMap.get s.lm.txnLocks t
  | _ => p ∈ SetMap.get s.lm.txnLocks t

/-- The tables of the pages are compatible, and `txn_locks_` has what they have. -/
structure Consistent (s : State) : Prop where
  compatible : ∀ p, Compatible (s.lm.granted p)
  entries : ∀ t p, Covers (s.lm.granted p) t .shared ↔ s.Recorded t p
  asks : s.Asks

theorem Consistent.new : State.new.Consistent where
  compatible _ := Compatible.nil
  entries t p := by
    constructor
    · rintro ⟨lock, impossible, _⟩
      cases impossible
    · intro impossible
      cases impossible
  asks := .new

/-- A transaction that does nothing, and whose set is left alone. -/
theorem Recorded.others {s s' : State} (isAt : s'.pcs t = s.pcs t)
    (same : SetMap.get s'.lm.txnLocks t = SetMap.get s.lm.txnLocks t) :
    s'.Recorded t p ↔ s.Recorded t p := by
  unfold Recorded
  rw [isAt, same]

/-- Between the sections of `acquire_lock` other than the last, nothing is outstanding. -/
theorem recorded_acquire (isAt : s.pcs t = .acquire q mode pc)
    (early : ∀ afterConflict, pc ≠ .record afterConflict) :
    s.Recorded t p ↔ p ∈ SetMap.get s.lm.txnLocks t := by
  unfold Recorded
  rw [isAt]
  cases pc with
  | record afterConflict => exact absurd rfl (early afterConflict)
  | _ => exact Iff.rfl

theorem recorded_record {afterConflict : Bool} (isAt : s.pcs t = .acquire q mode (.record afterConflict)) :
    s.Recorded t p ↔ p = q ∨ p ∈ SetMap.get s.lm.txnLocks t := by
  unfold Recorded
  rw [isAt]

theorem recorded_idle (idle : s.pcs t = .idle) :
    s.Recorded t p ↔ p ∈ SetMap.get s.lm.txnLocks t := by
  unfold Recorded
  rw [idle]

theorem recorded_release {r : ReleasePc} (isAt : s.pcs t = .release r)
    (early : ∀ q pages, r ≠ .forget q pages) :
    s.Recorded t p ↔ p ∈ SetMap.get s.lm.txnLocks t := by
  unfold Recorded
  rw [isAt]
  cases r with
  | forget q pages => exact absurd rfl (early q pages)
  | _ => exact Iff.rfl

theorem recorded_forget {pages : List UInt64} (isAt : s.pcs t = .release (.forget q pages)) :
    s.Recorded t p ↔ p ≠ q ∧ p ∈ SetMap.get s.lm.txnLocks t := by
  unfold Recorded
  rw [isAt]

/-- Behind a section of `acquire_lock` that grants nothing. -/
theorem recorded_acquired {outcome : Outcome AcquirePc}
    (grantsNothing : ∀ afterConflict, outcome ≠ .next (.record afterConflict)) :
    (s.acquired t q mode lm outcome).Recorded t p ↔ p ∈ SetMap.get lm.txnLocks t := by
  cases outcome with
  | next pc =>
    apply recorded_acquire (Function.update_self _ _ _)
    intro afterConflict last
    exact grantsNothing afterConflict (congrArg Outcome.next last)
  | returned | threw => exact recorded_idle (Function.update_self _ _ _)

/-! ## What an action keeps -/

theorem Consistent.starts {action : Action} {new : Pc} (consistent : s.Consistent)
    (idle : s.pcs t = .idle) (starts : Starts action t new) (u p : UInt64) :
    Covers (s.lm.granted p) u .shared ↔
      State.Recorded { s with pcs := Function.update s.pcs t new } u p := by
  rw [consistent.entries u p]
  rcases eq_or_ne u t with rfl | different
  · rw [recorded_idle idle]
    apply Iff.symm
    cases starts with
    | acquireLock =>
      apply recorded_acquire (Function.update_self _ _ _)
      intro _ impossible
      cases impossible
    | releaseLock | releaseAllLocks =>
      apply recorded_release (Function.update_self _ _ _)
      intro _ _ impossible
      cases impossible
  · apply Iff.symm
    apply Recorded.others
    · exact Function.update_of_ne different _ _
    · rfl

/-- The entries of the transaction itself behind a section of `acquire_lock`. -/
theorem Consistent.acquires (consistent : s.Consistent) (isAt : s.pcs t = .acquire q mode pc)
    (ran : pc.step s.lm t q mode choice = some (lm', outcome))
    (does : pc.Does s.lm t q mode lm' outcome) (p : UInt64) :
    Covers (lm'.granted p) t .shared ↔ (s.acquired t q mode lm' outcome).Recorded t p := by
  have before := consistent.entries t p
  have unchanged : ∀ lm outcome, lm.granted p = s.lm.granted p →
      SetMap.get lm.txnLocks t = SetMap.get s.lm.txnLocks t →
      (∀ afterConflict, pc ≠ .record afterConflict) →
      (∀ afterConflict, outcome ≠ .next (.record afterConflict)) →
      (Covers (lm.granted p) t .shared ↔ (s.acquired t q mode lm outcome).Recorded t p) := by
    intro lm outcome granted txnLocks early grantsNothing
    rw [granted, before, recorded_acquire isAt early, recorded_acquired grantsNothing, txnLocks]
  cases does with
  | looks looking quiet found =>
    apply unchanged _ _ (quiet.granted p) (congrArg (SetMap.get · t) quiet.txnLocks)
    · rintro _ rfl
      cases looking
    · rintro _ rfl
      cases found with
      | inl looking => cases looking
      | inr impossible => cases impossible
  | reports | checks | checked =>
    exact unchanged _ _ rfl rfl (fun _ impossible => by cases impossible)
      fun _ impossible => by cases impossible
  | blocks quiet waits =>
    apply unchanged _ _ (quiet.granted p) (congrArg (SetMap.get · t) quiet.txnLocks)
    · intro _ impossible
      cases impossible
    · rintro _ same
      cases same
      rcases waits with ⟨_, impossible⟩ | impossible <;> cases impossible
  | timesOut waits quiet =>
    apply unchanged _ _ (quiet.granted p) (congrArg (SetMap.get · t) quiet.txnLocks)
    · rintro _ rfl
      cases waits
    · intro _ impossible
      cases impossible
  | grants asks granting =>
    have early : ∀ afterConflict, pc ≠ .record afterConflict := by
      rintro _ rfl
      rcases asks with impossible | ⟨_, impossible⟩ | impossible <;> cases impossible
    have entry := (AcquirePc.step_grants (consistent.asks t q mode _ isAt) ran).2 _ rfl
    rw [recorded_acquire isAt early] at before
    rw [recorded_record (Function.update_self _ _ _), acquired_lm, granting.txnLocks]
    rcases eq_or_ne p q with rfl | elsewhere
    · exact iff_of_true entry (Or.inl rfl)
    · rw [granting.elsewhere p elsewhere, before]
      exact (or_iff_right elsewhere).symm
  | records =>
    rw [recorded_record isAt] at before
    rw [recorded_idle (Function.update_self _ _ _)]
    apply before.trans
    rw [acquired_lm, LockManager.record, LockManager.mem_add]
    exact or_congr_left (and_iff_right rfl).symm

/-- The entries of the transaction itself behind a section of a release. -/
theorem Consistent.releases {r : ReleasePc} {outcome : Outcome ReleasePc}
    (consistent : s.Consistent) (isAt : s.pcs t = .release r)
    (does : r.Does s.lm t lm' outcome) (p : UInt64) :
    Covers (lm'.granted p) t .shared ↔ (s.released t r.releases lm' outcome).Recorded t p := by
  have before := consistent.entries t p
  cases does with
  | done =>
    rw [recorded_release isAt fun _ _ impossible => by cases impossible] at before
    apply before.trans
    apply Iff.symm
    exact recorded_idle (Function.update_self _ _ _)
  | snapshot | getFrame =>
    rw [recorded_release isAt fun _ _ impossible => by cases impossible] at before
    apply before.trans
    apply Iff.symm
    apply recorded_release (Function.update_self _ _ _)
    intro _ _ impossible
    cases impossible
  | frame q pages =>
    rw [recorded_release isAt fun _ _ impossible => by cases impossible] at before
    rw [recorded_forget (Function.update_self _ _ _)]
    rcases eq_or_ne p q with rfl | elsewhere
    · rw [LockManager.granted_setFrame_self]
      exact iff_of_false (releaseLock_absent _ t).not_covers fun both => both.1 rfl
    · rw [LockManager.granted_setFrame_of_ne _ _ elsewhere, before]
      exact (and_iff_right elsewhere).symm
  | forget q pages =>
    rw [recorded_forget isAt] at before
    rw [recorded_release (Function.update_self _ _ _) fun _ _ impossible => by cases impossible]
    apply before.trans
    change _ ↔ p ∈ SetMap.get (SetMap.remove s.lm.txnLocks t q) t
    rw [LockManager.mem_remove, and_comm]
    exact and_congr_right fun _ => not_congr (and_iff_right rfl).symm

theorem Consistent.step {action : Action} (consistent : s.Consistent)
    (stepped : s.step action = some s') : s'.Consistent := by
  have did := step_did consistent.asks stepped
  refine ⟨?_, ?_, consistent.asks.step did⟩
  · cases did with
    | starts => exact consistent.compatible
    | acquires isAt ran =>
      rw [acquired_lm]
      exact (AcquirePc.step_grants (consistent.asks _ _ _ _ isAt) ran).1.compatible
        consistent.compatible
    | releases isAt does => exact does.compatible consistent.compatible
  · intro u p
    cases did with
    | starts idle starts => exact consistent.starts idle starts u p
    | acquires isAt ran does =>
      rename_i t q choice mode pc lm outcome
      rw [acquired_lm]
      rcases eq_or_ne u t with rfl | different
      · exact consistent.acquires isAt ran does p
      · rw [does.others different, consistent.entries u p]
        apply (Recorded.others ?_ ?_).symm
        · rw [acquired_pcs, Function.update_of_ne different]
        · rw [acquired_lm, does.txnLocks different]
    | releases isAt does =>
      rename_i t choice r lm outcome
      rcases eq_or_ne u t with rfl | different
      · exact consistent.releases isAt does p
      · apply (does.others different).trans
        rw [consistent.entries u p]
        exact (Recorded.others (Function.update_of_ne different _ _)
          (does.txnLocks different)).symm

theorem Consistent.run (ran : Machine.run State.step State.new actions = some s) : s.Consistent :=
  Machine.reached (fun _ _ _ consistent stepped => Consistent.step consistent stepped) .new ran

/-- An entry goes only where its transaction releases the page. -/
theorem Consistent.removes {action : Action} (consistent : s.Consistent)
    (stepped : s.step action = some s') (covers : Covers (s.lm.granted p) t mode)
    (gone : ¬ Covers (s'.lm.granted p) t mode) :
    ∃ choice pages, action = .step t choice ∧ s.pcs t = .release (.frame p pages) := by
  cases step_did consistent.asks stepped with
  | starts => exact absurd covers gone
  | acquires isAt ran does =>
    rw [acquired_lm] at gone
    exact absurd (does.keeps covers) gone
  | releases isAt does =>
    rename_i u choice r lm outcome
    cases does with
    | frame q pages =>
      by_cases kept : t ≠ u ∨ p ≠ q
      · exact absurd ((covers_release s.lm kept).mpr covers) gone
      · obtain ⟨same, here⟩ := not_or.mp kept
        obtain rfl := not_not.mp same
        obtain rfl := not_not.mp here
        exact ⟨choice, pages, rfl, isAt⟩
    | snapshot | done | getFrame | forget => exact absurd covers gone

/-! ## The end of `release_all_locks` -/

/-- The transaction asks for no lock, and its release has still to come to every lock that it
has. -/
structure Releasing (t : UInt64) (s : State) : Prop where
  noRequest : ∀ p mode pc, s.pcs t ≠ .acquire p mode pc
  pending : ∀ p, Covers (s.lm.granted p) t .shared → ∃ r, s.pcs t = .release r ∧ r.Pending p

theorem Releasing.start (started : s.step (.releaseAllLocks t) = some s') : s'.Releasing t := by
  change s.start t _ = some s' at started
  unfold State.start at started
  split at started
  · cases started
    refine ⟨fun p mode pc impossible => ?_, fun p _ => ⟨.snapshot, Function.update_self _ _ _, trivial⟩⟩
    cases (Function.update_self _ _ _).symm.trans impossible
  · cases started

theorem Releasing.step {action : Action} (consistent : s.Consistent) (releasing : s.Releasing t)
    (other : ∀ pc, ¬ Starts action t pc) (stepped : s.step action = some s') : s'.Releasing t := by
  have elsewhere : s'.pcs t = s.pcs t →
      (∀ p, Covers (s'.lm.granted p) t .shared ↔ Covers (s.lm.granted p) t .shared) →
      s'.Releasing t := by
    intro isAt same
    refine ⟨fun p mode pc => isAt ▸ releasing.noRequest p mode pc, fun p covers => ?_⟩
    rw [isAt]
    exact releasing.pending p ((same p).mp covers)
  cases step_did consistent.asks stepped with
  | starts idle starts =>
    rename_i u new
    rcases eq_or_ne t u with rfl | different
    · exact absurd starts (other new)
    · exact elsewhere (Function.update_of_ne different _ _) fun _ => Iff.rfl
  | acquires isAt ran does =>
    rename_i u q choice mode pc lm outcome
    rcases eq_or_ne t u with rfl | different
    · exact absurd isAt (releasing.noRequest q mode pc)
    · apply elsewhere
      · rw [acquired_pcs, Function.update_of_ne different]
      · intro p
        rw [acquired_lm]
        exact does.others different p .shared
  | releases isAt does =>
    rename_i u choice r lm outcome
    rcases eq_or_ne t u with rfl | different
    · have locked : ∀ p, Covers (s.lm.granted p) t .shared → p ∈ SetMap.get s.lm.txnLocks t := by
        intro p covers
        have recorded := (consistent.entries t p).mp covers
        unfold Recorded at recorded
        rw [isAt] at recorded
        cases r with
        | forget q pages => exact recorded.2
        | snapshot | getFrame | frame => exact recorded
      have spec := does.releases locked fun p covers => by
        obtain ⟨r', here, pending⟩ := releasing.pending p covers
        cases isAt.symm.trans here
        exact pending
      refine ⟨fun p mode pc impossible => ?_, fun p covers => ?_⟩
      · have own := (Function.update_self _ _ _).symm.trans impossible
        split at own <;> cases own
      · obtain ⟨r', rfl, pending⟩ := spec.pending p covers
        exact ⟨r', Function.update_self _ _ _, pending⟩
    · exact elsewhere (Function.update_of_ne different _ _) fun p => does.others different

theorem Releasing.run (consistent : s.Consistent) (releasing : s.Releasing t)
    (other : ∀ action ∈ actions, ∀ pc, ¬ Starts action t pc)
    (ran : Machine.run State.step s actions = some s') : s'.Consistent ∧ s'.Releasing t := by
  induction actions generalizing s with
  | nil =>
    cases ran
    exact ⟨consistent, releasing⟩
  | cons action actions ih =>
    obtain ⟨mid, stepped, rest⟩ := Machine.run_cons ran
    have first := other action List.mem_cons_self
    exact ih (consistent.step stepped) (releasing.step consistent first stepped)
      (fun later member => other later (List.mem_cons_of_mem action member)) rest

end State

end BuzzDB.Locking
