import BuzzDB.Locking.Threads
import BuzzDB.Locking.Waiters

/-!
# Holders that a waiting request blocks

The wait in `grant_lock` gives back the mutex of the page's lock and nothing else: the call
of `fix_page` that waits has `pool_mutex_`, which `transaction_complete` needs before it
releases the lock that is waited for.
-/

namespace BuzzDB.Locking

instance (granted : List Lock) (txnId : UInt64) (mode : LockMode) :
    Decidable (Covers granted txnId mode) := List.decidableBEx _ _

variable {lm lm' : LockManager} {t p q : UInt64} {mode : LockMode} {pc pc' : AcquirePc}
  {choice : Choice}

/-- A section that ends in a wait grants nothing. -/
theorem AcquirePc.step_waits (ran : pc.step lm t p mode choice = some (lm', .next pc'))
    (waits : pc'.waits = true) (q : UInt64) : lm'.granted q = lm.granted q := by
  cases AcquirePc.step_cases ran with
  | blocksUpgrade => rfl
  | blocks same => exact (Quiet.setFrame same).granted q
  | _ => cases waits

/-- The section ends in a wait. -/
def Outcome.waits : Outcome AcquirePc → Bool
  | .next pc => pc.waits
  | _ => false

namespace Threads

/-- The page that a call of `fix_page` waits for in `grant_lock`. -/
def Pc.waitsFor : Pc → Option UInt64
  | .fixing _ pageId _ _ _ pc => if pc.waits then some pageId else none
  | _ => none

/-- The transaction of a call of `transaction_complete`. -/
def Pc.completes : Pc → Option UInt64
  | .flushing txnId | .completing txnId _ | .ending txnId true => some txnId
  | _ => none

/-- The same, in front of a section of `pool_mutex_`. -/
def Pc.atPool : Pc → Option UInt64
  | .flushing txnId | .ending txnId true => some txnId
  | _ => none

/-- The mutexes of the buffer manager, of the lock manager, and of the lock of a page. -/
inductive Mutex
  | pool
  | lockManager
  | page (pageId : UInt64)

/-- The mutex that the next section takes. -/
def Pc.Needs : Pc → Mutex → Prop
  | .flushing _, .pool | .discarding _, .pool | .ending _ _, .pool => True
  | .completing _ pc, .lockManager | .aborting _ pc, .lockManager =>
    pc ≠ .getFrame [] ∧ pc.releases = none
  | .completing _ pc, .page pageId | .aborting _ pc, .page pageId => pc.releases = some pageId
  | _, _ => False

/-- In the scan of `acquire_lock`. -/
def Pc.scans : Pc → Bool
  | .fixing _ _ _ _ _ (.scan _ _ _) => true
  | _ => false

namespace State

variable {τ α : Type*} [DecidableEq τ] [Zero α]

/-- The call of the thread keeps the mutex between its sections.  Nobody keeps that of a page: the
wait gives it back. -/
def Holds (s : State τ α) (thread : τ) : Mutex → Prop
  | .pool => s.poolMutex = some thread
  | .lockManager => s.bm.lockManager.mutex ≠ none ∧ (s.pcs thread).scans = true
  | .page _ => False

/-- The thread comes to a mutex that a waiting call of `fix_page` has. -/
def Blocked (s : State τ α) (thread : τ) : Prop :=
  ∃ mutex waiter, (s.pcs thread).Needs mutex ∧ s.Holds waiter mutex ∧ (s.pcs waiter).waitsFor ≠ none

/-- No `transaction_complete` of a transaction with a lock that a call of `fix_page` waits for is
blocked by a waiting call. -/
def Unblocked (s : State τ α) : Prop :=
  ∀ waiter, ∀ pageId ∈ (s.pcs waiter).waitsFor, ∀ thread, ∀ txnId ∈ (s.pcs thread).completes,
    Covers (s.bm.lockManager.granted pageId) txnId .shared → ¬ s.Blocked thread

/-- A call of `fix_page` waits for a page that the transaction has locked. -/
def Awaited (s : State τ α) (txnId : UInt64) : Prop :=
  ∃ waiter, ∃ pageId ∈ (s.pcs waiter).waitsFor,
    Covers (s.bm.lockManager.granted pageId) txnId .shared

/-- What a section must not do: go to wait for a page whose holder is in `transaction_complete` and in
front of `pool_mutex_`, or bring `transaction_complete` there while its transaction is awaited. -/
def YieldsSection (s : State τ α) (choice : Choice) : Pc → Prop
  | .fixing txnId pageId mode _ _ pc =>
    ∀ result ∈ pc.step s.bm.lockManager txnId pageId mode choice, result.2.waits = true →
      ∀ thread, ∀ u ∈ (s.pcs thread).atPool, ¬ Covers (s.bm.lockManager.granted pageId) u .shared
  | .completing txnId (.getFrame []) => ¬ s.Awaited txnId
  | _ => True

/-- Nobody completes an awaited transaction, and no call waits for one that is completing. -/
def Yields (s : State τ α) : Action τ α → Prop
  | .transactionComplete _ txnId => ¬ s.Awaited txnId
  | .step thread choice => s.YieldsSection choice (s.pcs thread)
  | _ => True

instance [Fintype τ] (s : State τ α) : DecidablePred s.Awaited :=
  fun _ => inferInstanceAs (Decidable (∃ _, ∃ _ ∈ _, _))

instance [Fintype τ] (s : State τ α) (choice : Choice) : DecidablePred (s.YieldsSection choice)
  | .fixing _ _ _ _ _ _ => inferInstanceAs (Decidable (∀ _ ∈ _, _ → ∀ _, ∀ _ ∈ _, ¬ _))
  | .completing _ (.getFrame []) => inferInstanceAs (Decidable (¬ _))
  | .idle | .reading _ _ _ | .flushing _ | .completing _ .snapshot
  | .completing _ (.getFrame (_ :: _)) | .completing _ (.frame _ _) | .completing _ (.forget _ _)
  | .aborting _ _ | .discarding _ | .ending _ _ | .flushingAll _ => isTrue trivial

instance [Fintype τ] (s : State τ α) : DecidablePred s.Yields
  | .transactionComplete _ _ => inferInstanceAs (Decidable (¬ _))
  | .step _ _ => inferInstanceAs (Decidable (s.YieldsSection _ _))
  | .fixPage _ _ _ _ | .write _ _ _ _ | .unfixPage _ _ _ | .flushPage _ _ | .discardPage _ _
  | .flushPages _ _ | .discardPages _ _ | .flushAllPages _ | .discardAllPages _
  | .transactionAbort _ _ => isTrue trivial

/-- The same as `Unblocked` where every waiting call has `pool_mutex_`. -/
def Clear (s : State τ α) : Prop :=
  ∀ waiter, ∀ pageId ∈ (s.pcs waiter).waitsFor, ∀ thread, ∀ txnId ∈ (s.pcs thread).atPool,
    ¬ Covers (s.bm.lockManager.granted pageId) txnId .shared

end State

variable {τ α : Type*} [DecidableEq τ] [Zero α] {s s' : State τ α} {u v w : τ} {t p : UInt64}
  {pc : Pc} {choice : Choice}

theorem Pc.locks_of_waitsFor (waits : p ∈ pc.waitsFor) : pc.locks = true := by
  cases pc with
  | fixing => rfl
  | _ => cases waits

theorem Pc.completes_of_atPool (atPool : t ∈ pc.atPool) : t ∈ pc.completes ∧ pc.Needs .pool := by
  cases pc with
  | flushing => exact ⟨atPool, trivial⟩
  | ending txnId completes =>
    cases completes with
    | true => exact ⟨atPool, trivial⟩
    | false => cases atPool
  | _ => cases atPool

namespace State

omit [DecidableEq τ] [Zero α] in
theorem Owns.waits (owns : s.Owns) (waits : p ∈ (s.pcs w).waitsFor) : s.poolMutex = some w :=
  owns w (Pc.locks_of_waitsFor waits)

omit [DecidableEq τ] [Zero α] in
/-- A waiting call keeps `pool_mutex_`, and no other mutex. -/
theorem unblocked_iff_clear (owns : s.Owns) : s.Unblocked ↔ s.Clear := by
  constructor
  · intro unblocked waiter pageId waits thread txnId atPool covers
    obtain ⟨completes, needs⟩ := Pc.completes_of_atPool atPool
    apply unblocked waiter pageId waits thread txnId completes covers
    refine ⟨.pool, waiter, needs, owns.waits waits, ?_⟩
    rw [Option.mem_def.mp waits]
    exact Option.some_ne_none pageId
  · rintro clear waiter pageId waits thread txnId completes covers ⟨mutex, other, needs, holds, awaits⟩
    apply clear waiter pageId waits thread txnId _ covers
    cases mutex with
    | pool =>
      cases isAt : s.pcs thread with
      | flushing =>
        rw [isAt] at completes
        exact completes
      | ending txnId completes' =>
        rw [isAt] at completes
        cases completes' with
        | true => exact completes
        | false => cases completes
      | discarding =>
        rw [isAt] at completes
        cases completes
      | _ =>
        rw [isAt] at needs
        exact needs.elim
    | lockManager =>
      exfalso
      cases isAt : s.pcs other with
      | fixing _ _ _ _ _ pc =>
        have scans := holds.2
        rw [isAt] at scans awaits
        cases pc with
        | scan => exact awaits rfl
        | _ => cases scans
      | _ =>
        rw [isAt] at awaits
        exact awaits rfl
    | page => exact holds.elim

/-! ## What an action keeps -/

omit [DecidableEq τ] in
theorem Clear.new (pageSize pageCount : Nat) (disk : Disk α) :
    (State.new pageSize pageCount disk : State τ α).Clear :=
  fun _ _ impossible => by cases impossible

omit [DecidableEq τ] [Zero α] in
/-- Nobody waits while `pool_mutex_` is free. -/
theorem Clear.free (owns : s.Owns) (free : s.poolMutex = none) : s.Clear := by
  intro waiter pageId waits
  have held := owns.waits waits
  rw [free] at held
  cases held

omit [Zero α] in
/-- An action of a thread that does not wait behind it, and that comes to `pool_mutex_` only with a
transaction that is not awaited. -/
theorem Clear.keep (clear : s.Clear) (pcs : s'.pcs = Function.update s.pcs u pc)
    (quiet : pc.waitsFor = none) (atPool : ∀ t ∈ pc.atPool, ¬ s.Awaited t)
    (fewer : ∀ p t, Covers (s'.bm.lockManager.granted p) t .shared →
      Covers (s.bm.lockManager.granted p) t .shared) : s'.Clear := by
  intro waiter pageId waits thread txnId here covers
  rw [pcs] at waits here
  have before : pageId ∈ (s.pcs waiter).waitsFor := by
    rcases eq_or_ne waiter u with rfl | different
    · rw [Function.update_self, quiet] at waits
      cases waits
    · rwa [Function.update_of_ne different] at waits
  rcases eq_or_ne thread u with rfl | different
  · rw [Function.update_self] at here
    exact atPool txnId here ⟨waiter, pageId, before, fewer pageId txnId covers⟩
  · rw [Function.update_of_ne different] at here
    exact clear waiter pageId before thread txnId here (fewer pageId txnId covers)

omit [Zero α] in
/-- An action of a thread between its calls, which grants nothing. -/
theorem Clear.idle (clear : s.Clear) (isAt : s.pcs u = .idle) (pcs : s'.pcs = s.pcs)
    (same : s'.bm.lockManager = s.bm.lockManager) : s'.Clear := by
  have unmoved : s'.pcs = Function.update s.pcs u .idle := by
    rw [pcs, ← isAt, Function.update_eq_self]
  exact clear.keep unmoved rfl (fun _ impossible => by cases impossible) fun _ _ covers =>
    same ▸ covers

omit [Zero α] in
/-- A call that takes `pool_mutex_` does not wait yet. -/
theorem Clear.startFix {mode : LockMode} (owns : s.Owns) (free : s.poolMutex = none) :
    (s.startFix u t p mode).Clear := by
  have enters : ∀ (s' : State τ α) (f : Nat) (loads : Bool),
      s'.pcs = Function.update s.pcs u (.fixing t p mode f loads .getFrame) → s'.Clear := by
    intro s' f loads pcs waiter pageId waits
    rw [pcs] at waits
    rcases eq_or_ne waiter u with rfl | different
    · rw [Function.update_self] at waits
      cases waits
    · rw [Function.update_of_ne different] at waits
      have held := owns.waits waits
      rw [free] at held
      cases held
  unfold State.startFix
  split
  · exact enters _ _ _ rfl
  · split
    · exact .free owns free
    · exact enters _ _ _ rfl

omit [Zero α] in
/-- The waiting calls behind a section of the request for the lock: the call itself, if it waits. -/
theorem Clear.acquired {mode : LockMode} {f : Nat} {loads : Bool} {a : AcquirePc} {lm : LockManager}
    {outcome : Outcome AcquirePc} (owns : s.Owns) (isAt : s.pcs u = .fixing t p mode f loads a)
    (ran : a.step s.bm.lockManager t p mode choice = some (lm, outcome))
    (yields : s.YieldsSection choice (s.pcs u)) :
    (s.acquired u t p mode f loads lm outcome).Clear := by
  have owns' : (s.acquired u t p mode f loads lm outcome).Owns := owns.turns (acquired_turns isAt)
  cases outcome with
  | next next =>
    intro waiter pageId waits thread txnId atPool
    have mine : s.poolMutex = some u := owns u (isAt ▸ rfl)
    obtain rfl := Option.some.inj ((owns'.waits waits).symm.trans mine)
    change pageId ∈ (Function.update s.pcs waiter (.fixing t p mode f loads next) waiter).waitsFor at waits
    change txnId ∈ (Function.update s.pcs waiter (.fixing t p mode f loads next) thread).atPool at atPool
    rw [Function.update_self] at waits
    have isWait : next.waits = true := by
      by_contra goesOn
      rw [Pc.waitsFor, if_neg goesOn] at waits
      cases waits
    rw [Pc.waitsFor, if_pos isWait, Option.mem_some] at waits
    have elsewhere : thread ≠ waiter := by
      rintro rfl
      rw [Function.update_self] at atPool
      cases atPool
    rw [Function.update_of_ne elsewhere] at atPool
    rw [isAt] at yields
    have uncovered := yields _ ran isWait thread txnId atPool
    rw [← waits]
    change ¬ Covers (lm.granted p) txnId .shared
    rw [AcquirePc.step_waits ran isWait p]
    exact uncovered
  | returned =>
    cases loads with
    | true => exact .free owns' rfl
    | false => exact .free owns' rfl
  | threw => exact .free owns' rfl

theorem Clear.nextSection (clear : s.Clear) (owns : s.Owns)
    (yields : s.YieldsSection choice (s.pcs u)) (stepped : s.nextSection u choice = some s') :
    s'.Clear := by
  have owns' := owns.turns (nextSection_turns stepped)
  unfold State.nextSection at stepped
  cases isAt : s.pcs u with
  | idle => rw [isAt] at stepped; cases stepped
  | fixing t p mode f loads a =>
    rw [isAt] at stepped
    obtain ⟨result, ran, rfl⟩ := Option.map_eq_some_iff.mp stepped
    exact .acquired owns isAt ran yields
  | reading =>
    rw [isAt] at stepped
    cases choice with
    | proceed =>
      cases stepped
      exact clear.keep rfl rfl (fun _ impossible => by cases impossible) fun _ _ => id
    | _ => cases stepped
  | flushing | discarding | ending =>
    rw [isAt] at stepped
    cases choice with
    | proceed =>
      obtain ⟨free, rfl⟩ := locked_eq_some stepped
      exact .free owns' free
    | _ => cases stepped
  | completing t r =>
    rw [isAt] at stepped yields
    cases choice with
    | proceed =>
      obtain ⟨⟨lm, outcome⟩, ran, rfl⟩ := Option.map_eq_some_iff.mp stepped
      have does := ReleasePc.step_does ran
      have fewer : ∀ p v, Covers (lm.granted p) v .shared →
          Covers (s.bm.lockManager.granted p) v .shared := fun _ _ => does.fewer
      cases outcome with
      | next next => exact clear.keep rfl rfl (fun _ impossible => by cases impossible) fewer
      | returned =>
        cases does
        have atEnd : ∀ v ∈ (Pc.ending t true).atPool, ¬ s.Awaited v := by
          intro v own
          cases own
          exact yields
        exact clear.keep rfl rfl atEnd fewer
      | threw => cases does
    | _ => cases stepped
  | aborting t r =>
    rw [isAt] at stepped
    cases choice with
    | proceed =>
      obtain ⟨⟨lm, outcome⟩, ran, rfl⟩ := Option.map_eq_some_iff.mp stepped
      have does := ReleasePc.step_does ran
      have fewer : ∀ p v, Covers (lm.granted p) v .shared →
          Covers (s.bm.lockManager.granted p) v .shared := fun _ _ => does.fewer
      cases outcome with
      | next | returned | threw =>
        exact clear.keep rfl rfl (fun _ impossible => by cases impossible) fewer
    | _ => cases stepped
  | flushingAll f =>
    rw [isAt] at stepped
    cases choice with
    | proceed =>
      dsimp only at stepped
      split at stepped
      · cases stepped
        have same := (BufferManager.flushFrame_flushes s.bm f).1.lockManager
        exact clear.keep rfl rfl (fun _ impossible => by cases impossible) fun _ _ covers =>
          same ▸ covers
      · cases stepped
        exact clear.keep rfl rfl (fun _ impossible => by cases impossible) fun _ _ => id
    | _ => cases stepped

theorem Clear.step {action : Action τ α} (clear : s.Clear) (owns : s.Owns)
    (yields : s.Yields action) (stepped : s.step action = some s') : s'.Clear := by
  have owns' := owns.step stepped
  cases action with
  | fixPage u t p mode =>
    obtain ⟨_, free, rfl⟩ := section_eq_some stepped
    exact .startFix owns free
  | write u =>
    obtain ⟨idle, rfl⟩ := call_eq_some stepped
    exact clear.idle idle rfl rfl
  | flushAllPages | transactionAbort =>
    obtain ⟨_, rfl⟩ := call_eq_some stepped
    exact clear.keep rfl rfl (fun _ impossible => by cases impossible) fun _ _ => id
  | unfixPage u f isDirty =>
    obtain ⟨idle, rfl⟩ := call_eq_some stepped
    have same : (s.bm.unfixPage f isDirty).lockManager = s.bm.lockManager := by
      unfold BufferManager.unfixPage
      split <;> rfl
    exact clear.idle idle rfl same
  | flushPage u | discardPage u | flushPages u | discardPages u | discardAllPages u =>
    obtain ⟨_, free, rfl⟩ := section_eq_some stepped
    exact .free owns' free
  | transactionComplete u t =>
    obtain ⟨_, rfl⟩ := call_eq_some stepped
    have atFlush : ∀ v ∈ (Pc.flushing t).atPool, ¬ s.Awaited v := by
      intro v own
      cases own
      exact yields
    exact clear.keep rfl rfl atFlush fun _ _ => id
  | step u choice => exact clear.nextSection owns yields stepped

/-! ## What breaks it -/

omit [Zero α] in
/-- A thread that comes to `pool_mutex_` with an awaited transaction. -/
theorem Awaited.broken (awaited : s.Awaited t) (outside : (s.pcs u).locks = false)
    (pcs : s'.pcs = Function.update s.pcs u pc) (atPool : t ∈ pc.atPool)
    (same : s'.bm.lockManager = s.bm.lockManager) : ¬ s'.Clear := by
  intro clear
  obtain ⟨waiter, pageId, waits, covers⟩ := awaited
  have different : waiter ≠ u := by
    rintro rfl
    rw [Pc.locks_of_waitsFor waits] at outside
    cases outside
  have still : pageId ∈ (s'.pcs waiter).waitsFor := by
    rw [pcs, Function.update_of_ne different]
    exact waits
  have here : t ∈ (s'.pcs u).atPool := by
    rw [pcs, Function.update_self]
    exact atPool
  rw [← same] at covers
  exact clear waiter pageId still u t here covers

theorem broken {action : Action τ α} (fails : ¬ s.Yields action)
    (stepped : s.step action = some s') : ¬ s'.Clear := by
  cases action with
  | transactionComplete u t =>
    obtain ⟨idle, rfl⟩ := call_eq_some stepped
    have awaited : s.Awaited t := not_not.mp fails
    have atFlush : t ∈ (Pc.flushing t).atPool := rfl
    exact awaited.broken (idle ▸ rfl) rfl atFlush rfl
  | step u choice =>
    change s.nextSection u choice = some s' at stepped
    change ¬ s.YieldsSection choice (s.pcs u) at fails
    unfold State.nextSection at stepped
    cases isAt : s.pcs u with
    | fixing t p mode f loads a =>
      rw [isAt] at stepped fails
      obtain ⟨result, ran, rfl⟩ := Option.map_eq_some_iff.mp stepped
      intro clear
      apply fails
      intro other same isWait thread v atPool covers
      obtain rfl := Option.some.inj (ran.symm.trans same)
      obtain ⟨lm, outcome⟩ := result
      obtain ⟨next, rfl, waits⟩ : ∃ next, outcome = .next next ∧ next.waits = true := by
        cases outcome with
        | next next => exact ⟨next, rfl, isWait⟩
        | _ => cases isWait
      have here : p ∈ ((s.acquired u t p mode f loads lm (.next next)).pcs u).waitsFor := by
        change p ∈ (Function.update s.pcs u (.fixing t p mode f loads next) u).waitsFor
        rw [Function.update_self, Pc.waitsFor, if_pos waits]
        rfl
      have elsewhere : thread ≠ u := by
        rintro rfl
        rw [isAt] at atPool
        cases atPool
      have there : v ∈ ((s.acquired u t p mode f loads lm (.next next)).pcs thread).atPool := by
        change v ∈ (Function.update s.pcs u (.fixing t p mode f loads next) thread).atPool
        rw [Function.update_of_ne elsewhere]
        exact atPool
      apply clear u p here thread v there
      change Covers (lm.granted p) v .shared
      rw [AcquirePc.step_waits ran waits p]
      exact covers
    | completing t r =>
      rw [isAt] at stepped fails
      cases choice with
      | proceed =>
        obtain ⟨result, ran, rfl⟩ := Option.map_eq_some_iff.mp stepped
        cases r with
        | getFrame pages =>
          cases pages with
          | nil =>
            cases ran
            have awaited : s.Awaited t := not_not.mp fails
            have atEnd : t ∈ (Pc.ending t true).atPool := rfl
            exact awaited.broken (isAt ▸ rfl) rfl atEnd rfl
          | cons => exact absurd trivial fails
        | _ => exact absurd trivial fails
      | _ => cases stepped
    | _ =>
      rw [isAt] at fails
      exact absurd trivial fails
  | _ => exact absurd trivial fails

end State

/-- The wait of a request blocks no `transaction_complete` of a holder exactly in the runs in which
no transaction that is waited for is completed, and no call goes to wait for one that is
completing. -/
theorem unblocked_iff {pageSize pageCount : Nat} {disk : Disk α} {actions : List (Action τ α)}
    (ran : Machine.run State.step (State.new pageSize pageCount disk) actions = some s) :
    Machine.Always State.step State.Unblocked (State.new pageSize pageCount disk) actions ↔
      Machine.Along State.step State.Yields (State.new pageSize pageCount disk) actions := by
  apply Machine.always_iff_along (P := fun s : State τ α => s.Owns ∧ s.Clear)
    (fun _ _ _ both yields stepped => ⟨both.1.step stepped, both.2.step both.1 yields stepped⟩)
    (fun _ both => (State.unblocked_iff_clear both.1).mpr both.2) _
    ⟨.new pageSize pageCount disk, .new pageSize pageCount disk⟩ ran
  intro s action s' both fails stepped unblocked
  exact State.broken fails stepped
    ((State.unblocked_iff_clear (both.1.step stepped)).mp unblocked)

/-- Transaction 2 asks for the page when transaction 1 has completed. -/
theorem unblocked_iff_completed :
    Machine.Always State.step State.Unblocked twoFrames
      (.fixPage 0 1 0 .exclusive :: sections 0 7 ++ .transactionComplete 0 1 :: sections 0 7 ++
        .fixPage 1 2 0 .exclusive :: sections 1 6) := by
  obtain ⟨s, ran⟩ := Option.isSome_iff_exists.mp
    (show (Machine.run State.step twoFrames
      (.fixPage 0 1 0 .exclusive :: sections 0 7 ++ .transactionComplete 0 1 :: sections 0 7 ++
        .fixPage 1 2 0 .exclusive :: sections 1 6)).isSome by decide +kernel)
  exact (unblocked_iff ran).mpr (by decide +kernel)

/-- Transaction 2 waits for the page of transaction 1, which completes: thread 0 is in front of
`flush_pages`, and the waiting call of thread 1 has `pool_mutex_`. -/
theorem not_unblocked_waiting :
    ¬ ∀ actions s, Machine.run State.step twoFrames actions = some s → s.Unblocked := by
  intro unblocked
  let actions := .fixPage 0 1 0 .exclusive :: sections 0 7 ++ requests 1 2 .shared 1 ++
    sections 1 1 ++ [.transactionComplete 0 1]
  obtain ⟨s, ran⟩ := Option.isSome_iff_exists.mp
    (show (Machine.run State.step twoFrames actions).isSome by decide +kernel)
  have facts : (Machine.run State.step twoFrames actions).map (fun s =>
      (s.poolMutex, s.pcs 0, (s.pcs 1).waitsFor, s.bm.lockManager.granted 0)) =
        some (some 1, .flushing 1, some 0, [⟨1, .exclusive⟩]) := by decide +kernel
  rw [ran, Option.map_some, Option.some.injEq, Prod.mk.injEq, Prod.mk.injEq, Prod.mk.injEq] at facts
  obtain ⟨mutex, flushing, waits, granted⟩ := facts
  apply unblocked actions s ran 1 0 waits 0 1
  · rw [flushing]
    rfl
  · rw [granted]
    decide
  · refine ⟨.pool, 1, ?_, mutex, ?_⟩
    · rw [flushing]
      trivial
    · rw [waits]
      exact Option.some_ne_none 0

end Threads

end BuzzDB.Locking
