import BuzzDB.Lib.Machine
import BuzzDB.Locking.Operations

/-!
# Threads in the buffer manager

Any number of threads, each in one call of the buffer manager at a time and for any
transaction, cut at the critical sections of `pool_mutex_` and of the lock manager.
`fix_page` keeps `pool_mutex_` while it asks for the lock, also while it waits, and reads a
page that it has mapped behind that section; `flush_all_pages` takes no mutex but that of
the files.

`source`, `refused` and `returned` are bookkeeping, which no step looks at.
-/

namespace BuzzDB.Locking.Threads

/-- Where the call of a thread is: `flushing` in front of `flush_pages` in `transaction_complete`,
`discarding` in front of `discard_pages` in `transaction_abort`, and `ending` in front of the last
section of either. -/
inductive Pc
  | idle
  | fixing (txnId pageId : UInt64) (mode : LockMode) (frameId : Nat) (loads : Bool) (pc : AcquirePc)
  | reading (txnId pageId : UInt64) (frameId : Nat)
  | flushing (txnId : UInt64)
  | completing (txnId : UInt64) (pc : ReleasePc)
  | aborting (txnId : UInt64) (pc : ReleasePc)
  | discarding (txnId : UInt64)
  | ending (txnId : UInt64) (completes : Bool)
  | flushingAll (frameId : Nat)
  deriving DecidableEq

/-- A frame that `fix_page` has returned, with the page it was read from at that time. -/
structure Return (τ : Type*) where
  thread : τ
  txnId : UInt64
  pageId : UInt64
  frameId : Nat
  source : Option UInt64
  deriving DecidableEq

/-- The buffer manager and the threads: `source` has for each frame the page that it has been read
from since it was last assigned to a page, and `refused` the pages whose last load ended in a
`transaction_abort_error`. -/
structure State (τ α : Type*) where
  bm : BufferManager α
  poolMutex : Option τ
  pcs : τ → Pc
  source : Nat → Option UInt64
  refused : UInt64 → Bool
  returned : List (Return τ)

/-- What can happen next. -/
inductive Action (τ α : Type*)
  | fixPage (thread : τ) (txnId pageId : UInt64) (mode : LockMode)
  | write (thread : τ) (frameId offset : Nat) (value : α)
  | unfixPage (thread : τ) (frameId : Nat) (isDirty : Bool)
  | flushPage (thread : τ) (pageId : UInt64)
  | discardPage (thread : τ) (pageId : UInt64)
  | flushPages (thread : τ) (txnId : UInt64)
  | discardPages (thread : τ) (txnId : UInt64)
  | flushAllPages (thread : τ)
  | discardAllPages (thread : τ)
  | transactionComplete (thread : τ) (txnId : UInt64)
  | transactionAbort (thread : τ) (txnId : UInt64)
  | step (thread : τ) (choice : Choice)

namespace State

variable {τ α : Type*} [DecidableEq τ] [Zero α]

/-- No calls, over existing segment files. -/
def new (pageSize pageCount : Nat) (disk : Disk α) : State τ α where
  bm := BufferManager.new pageSize pageCount disk
  poolMutex := none
  pcs := fun _ => .idle
  source := fun _ => none
  refused := fun _ => false
  returned := []

variable (s : State τ α)

/-- Move a thread. -/
def move (thread : τ) (pc : Pc) : State τ α := { s with pcs := Function.update s.pcs thread pc }

/-- A call that waits for no mutex of its own. -/
def call (thread : τ) (s' : State τ α) : Option (State τ α) :=
  if s.pcs thread = .idle then some s' else none

/-- A section of `pool_mutex_`. -/
def locked (s' : State τ α) : Option (State τ α) := if s.poolMutex = none then some s' else none

/-- `fix_page`, up to its request for the lock. -/
def startFix (thread : τ) (txnId pageId : UInt64) (mode : LockMode) : State τ α :=
  match s.bm.pageTable pageId with
  | some frameId =>
    { s.move thread (.fixing txnId pageId mode frameId false .getFrame) with
      poolMutex := some thread }
  | none =>
    match s.bm.mapPage txnId pageId with
    | none => s
    | some (bm, frameId) =>
      { s.move thread (.fixing txnId pageId mode frameId true .getFrame) with
        bm
        poolMutex := some thread
        source := Function.update s.source frameId none
        refused := Function.update s.refused pageId false }

/-- A frame is returned. -/
def returnFrame (thread : τ) (txnId pageId : UInt64) (frameId : Nat) : State τ α :=
  { s.move thread .idle with
    returned := ⟨thread, txnId, pageId, frameId, s.source frameId⟩ :: s.returned }

/-- Behind a section of the request for the lock. -/
def acquired (thread : τ) (txnId pageId : UInt64) (mode : LockMode) (frameId : Nat) (loads : Bool)
    (lockManager : LockManager) : Outcome AcquirePc → State τ α
  | .next pc =>
    { s.move thread (.fixing txnId pageId mode frameId loads pc) with
      bm := { s.bm with lockManager } }
  | .returned =>
    if loads then
      { s.move thread (.reading txnId pageId frameId) with
        bm := { s.bm with lockManager }
        poolMutex := none }
    else
      { s.returnFrame thread txnId pageId frameId with
        bm := ({ s.bm with lockManager } : BufferManager α).track txnId pageId
        poolMutex := none }
  | .threw =>
    { s.move thread .idle with
      bm := { s.bm with lockManager }
      poolMutex := none
      refused := if loads then Function.update s.refused pageId true else s.refused }

/-- `read_frame` of a page that is loaded, from the page that its frame has now. -/
def readLoaded (thread : τ) (txnId pageId : UInt64) (frameId : Nat) : State τ α :=
  returnFrame { s with
    bm := s.bm.readFrame frameId
    source := Function.update s.source frameId (some (s.bm.pool frameId).pageId) }
    thread txnId pageId frameId

/-- Behind a section of a release. -/
def released (thread : τ) (pc : ReleasePc → Pc) (behind : Pc) (lockManager : LockManager) :
    Outcome ReleasePc → State τ α
  | .next next => { s.move thread (pc next) with bm := { s.bm with lockManager } }
  | _ => { s.move thread behind with bm := { s.bm with lockManager } }

/-- The next section of a call. -/
def nextSection (thread : τ) (choice : Choice) : Option (State τ α) :=
  match s.pcs thread, choice with
  | .idle, _ => none
  | .fixing txnId pageId mode frameId loads pc, choice =>
    (pc.step s.bm.lockManager txnId pageId mode choice).map fun result =>
      s.acquired thread txnId pageId mode frameId loads result.1 result.2
  | .reading txnId pageId frameId, .proceed => some (s.readLoaded thread txnId pageId frameId)
  | .flushing txnId, .proceed =>
    s.locked { s.move thread (.completing txnId .snapshot) with bm := s.bm.flushPages txnId }
  | .completing txnId pc, .proceed =>
    (pc.step s.bm.lockManager txnId).map fun result =>
      s.released thread (.completing txnId) (.ending txnId true) result.1 result.2
  | .aborting txnId pc, .proceed =>
    (pc.step s.bm.lockManager txnId).map fun result =>
      s.released thread (.aborting txnId) (.discarding txnId) result.1 result.2
  | .discarding txnId, .proceed =>
    s.locked { s.move thread (.ending txnId false) with bm := s.bm.discardPages txnId }
  | .ending txnId _, .proceed =>
    s.locked { s.move thread .idle with bm := s.bm.eraseTxn txnId }
  | .flushingAll frameId, .proceed =>
    if frameId < s.bm.capacity then
      some { s.move thread (.flushingAll (frameId + 1)) with bm := s.bm.flushFrame frameId }
    else some (s.move thread .idle)
  | _, _ => none

/-- One action.  Whoever has a frame writes through it at any time. -/
def step : Action τ α → Option (State τ α)
  | .fixPage thread txnId pageId mode =>
    (s.call thread (s.startFix thread txnId pageId mode)).bind s.locked
  | .write thread frameId offset value =>
    s.call thread { s with bm := s.bm.writeData frameId offset value }
  | .unfixPage thread frameId isDirty =>
    s.call thread { s with bm := s.bm.unfixPage frameId isDirty }
  | .flushPage thread pageId =>
    (s.call thread { s with bm := s.bm.flushPage pageId }).bind s.locked
  | .discardPage thread pageId =>
    (s.call thread { s with bm := s.bm.discardPage pageId }).bind s.locked
  | .flushPages thread txnId =>
    (s.call thread { s with bm := s.bm.flushPages txnId }).bind s.locked
  | .discardPages thread txnId =>
    (s.call thread { s with bm := s.bm.discardPages txnId }).bind s.locked
  | .flushAllPages thread => s.call thread (s.move thread (.flushingAll 0))
  | .discardAllPages thread =>
    (s.call thread { s with bm := s.bm.discardAllPages, source := fun _ => none }).bind s.locked
  | .transactionComplete thread txnId => s.call thread (s.move thread (.flushing txnId))
  | .transactionAbort thread txnId => s.call thread (s.move thread (.aborting txnId .snapshot))
  | .step thread choice => s.nextSection thread choice

variable {s s' next : State τ α} {thread : τ} {pc : Pc}

omit [DecidableEq τ] [Zero α] in
theorem call_eq_some (called : s.call thread next = some s') : s.pcs thread = .idle ∧ next = s' := by
  unfold State.call at called
  split at called
  · rename_i idle
    exact ⟨idle, Option.some.inj called⟩
  · cases called

omit [DecidableEq τ] [Zero α] in
theorem locked_eq_some (ran : s.locked next = some s') : s.poolMutex = none ∧ next = s' := by
  unfold State.locked at ran
  split at ran
  · rename_i free
    exact ⟨free, Option.some.inj ran⟩
  · cases ran

omit [DecidableEq τ] [Zero α] in
/-- A call of one section of `pool_mutex_`. -/
theorem section_eq_some (ran : (s.call thread next).bind s.locked = some s') :
    s.pcs thread = .idle ∧ s.poolMutex = none ∧ next = s' := by
  obtain ⟨mid, called, held⟩ := Option.bind_eq_some_iff.mp ran
  obtain ⟨idle, rfl⟩ := call_eq_some called
  exact ⟨idle, locked_eq_some held⟩

end State

/-! ## Who has `pool_mutex_` -/

/-- In the section of `fix_page` that keeps `pool_mutex_`. -/
def Pc.locks : Pc → Bool
  | .fixing _ _ _ _ _ _ => true
  | _ => false

namespace State

variable {τ α : Type*} [DecidableEq τ] [Zero α]

/-- What an action of thread `u` does to the program counters and to `pool_mutex_`. -/
inductive Turns (s : State τ α) (u : τ) : State τ α → Prop
  | stays {s' : State τ α} (pc : Pc) (pcs : s'.pcs = Function.update s.pcs u pc)
      (outside : (s.pcs u).locks = false) (still : pc.locks = false)
      (poolMutex : s'.poolMutex = s.poolMutex) : Turns s u s'
  | enters {s' : State τ α} (pc : Pc) (pcs : s'.pcs = Function.update s.pcs u pc)
      (free : s.poolMutex = none) (poolMutex : s'.poolMutex = some u) : Turns s u s'
  | goesOn {s' : State τ α} (pc : Pc) (pcs : s'.pcs = Function.update s.pcs u pc)
      (inside : (s.pcs u).locks = true) (poolMutex : s'.poolMutex = s.poolMutex) : Turns s u s'
  | leaves {s' : State τ α} (pc : Pc) (pcs : s'.pcs = Function.update s.pcs u pc)
      (inside : (s.pcs u).locks = true) (outside : pc.locks = false)
      (poolMutex : s'.poolMutex = none) : Turns s u s'

/-- Every call that keeps `pool_mutex_` has it. -/
def Owns (s : State τ α) : Prop := ∀ u, (s.pcs u).locks = true → s.poolMutex = some u

variable {s s' : State τ α} {u v : τ} {pc : Pc} {choice : Choice}

omit [DecidableEq τ] in
theorem Owns.new (pageSize pageCount : Nat) (disk : Disk α) :
    (State.new pageSize pageCount disk : State τ α).Owns := fun _ impossible => by cases impossible

omit [Zero α] in
theorem Owns.turns (owns : s.Owns) (turns : s.Turns u s') : s'.Owns := by
  intro v inside
  cases turns with
  | stays pc pcs _ still poolMutex =>
    rw [pcs] at inside
    rw [poolMutex]
    rcases eq_or_ne v u with rfl | different
    · rw [Function.update_self, still] at inside
      cases inside
    · exact owns v (Function.update_of_ne different pc s.pcs ▸ inside)
  | enters pc pcs free poolMutex =>
    rw [pcs] at inside
    rw [poolMutex]
    rcases eq_or_ne v u with rfl | different
    · rfl
    · have before := owns v (Function.update_of_ne different pc s.pcs ▸ inside)
      rw [free] at before
      cases before
  | goesOn pc pcs mine poolMutex =>
    rw [pcs] at inside
    rw [poolMutex]
    rcases eq_or_ne v u with rfl | different
    · exact owns v mine
    · exact owns v (Function.update_of_ne different pc s.pcs ▸ inside)
  | leaves pc pcs mine outside _ =>
    rw [pcs] at inside
    rcases eq_or_ne v u with rfl | different
    · rw [Function.update_self, outside] at inside
      cases inside
    · have theirs := owns v (Function.update_of_ne different pc s.pcs ▸ inside)
      exact absurd (Option.some.inj (theirs.symm.trans (owns u mine))) different

omit [Zero α] in
/-- An action of a thread between its calls. -/
theorem Turns.idle (isAt : s.pcs u = .idle) (pcs : s'.pcs = s.pcs)
    (poolMutex : s'.poolMutex = s.poolMutex) : s.Turns u s' := by
  refine .stays .idle ?_ (isAt ▸ rfl) rfl poolMutex
  rw [pcs, ← isAt, Function.update_eq_self]

omit [Zero α] in
theorem startFix_turns {t p : UInt64} {mode : LockMode} (isAt : s.pcs u = .idle)
    (free : s.poolMutex = none) : s.Turns u (s.startFix u t p mode) := by
  unfold State.startFix
  split
  · exact .enters _ rfl free rfl
  · split
    · exact .idle isAt rfl rfl
    · exact .enters _ rfl free rfl

omit [Zero α] in
theorem acquired_turns {t p : UInt64} {mode : LockMode} {f : Nat} {loads : Bool} {a : AcquirePc}
    {lm : LockManager} {outcome : Outcome AcquirePc} (isAt : s.pcs u = .fixing t p mode f loads a) :
    s.Turns u (s.acquired u t p mode f loads lm outcome) := by
  have inside : (s.pcs u).locks = true := isAt ▸ rfl
  cases outcome with
  | next pc => exact .goesOn _ rfl inside rfl
  | returned =>
    cases loads with
    | true => exact .leaves _ rfl inside rfl rfl
    | false => exact .leaves _ rfl inside rfl rfl
  | threw => exact .leaves _ rfl inside rfl rfl

omit [Zero α] in
theorem released_turns {lm : LockManager} {behind : Pc} {pc : ReleasePc → Pc}
    {outcome : Outcome ReleasePc} (isAt : (s.pcs u).locks = false)
    (goesOn : ∀ next, (pc next).locks = false) (ends : behind.locks = false) :
    s.Turns u (s.released u pc behind lm outcome) := by
  cases outcome with
  | next next => exact .stays _ rfl isAt (goesOn next) rfl
  | returned | threw => exact .stays _ rfl isAt ends rfl

theorem nextSection_turns (stepped : s.nextSection u choice = some s') : s.Turns u s' := by
  unfold State.nextSection at stepped
  cases isAt : s.pcs u with
  | idle => rw [isAt] at stepped; cases stepped
  | fixing t p mode f loads pc =>
    rw [isAt] at stepped
    obtain ⟨result, ran, rfl⟩ := Option.map_eq_some_iff.mp stepped
    exact acquired_turns isAt
  | reading =>
    rw [isAt] at stepped
    cases choice with
    | proceed =>
      cases stepped
      exact .stays _ rfl (isAt ▸ rfl) rfl rfl
    | _ => cases stepped
  | flushing | discarding | ending =>
    rw [isAt] at stepped
    cases choice with
    | proceed =>
      obtain ⟨_, rfl⟩ := locked_eq_some stepped
      exact .stays _ rfl (isAt ▸ rfl) rfl rfl
    | _ => cases stepped
  | completing | aborting =>
    rw [isAt] at stepped
    cases choice with
    | proceed =>
      obtain ⟨result, ran, rfl⟩ := Option.map_eq_some_iff.mp stepped
      exact released_turns (isAt ▸ rfl) (fun _ => rfl) rfl
    | _ => cases stepped
  | flushingAll =>
    rw [isAt] at stepped
    cases choice with
    | proceed =>
      dsimp only at stepped
      split at stepped <;>
      · cases stepped
        exact .stays _ rfl (isAt ▸ rfl) rfl rfl
    | _ => cases stepped

theorem step_turns {action : Action τ α} (stepped : s.step action = some s') :
    ∃ u, s.Turns u s' := by
  cases action with
  | fixPage u t p mode =>
    obtain ⟨idle, free, rfl⟩ := section_eq_some stepped
    exact ⟨u, startFix_turns idle free⟩
  | write u | unfixPage u =>
    obtain ⟨idle, rfl⟩ := call_eq_some stepped
    exact ⟨u, .idle idle rfl rfl⟩
  | flushPage u | discardPage u | flushPages u | discardPages u | discardAllPages u =>
    obtain ⟨idle, _, rfl⟩ := section_eq_some stepped
    exact ⟨u, .idle idle rfl rfl⟩
  | flushAllPages u | transactionComplete u | transactionAbort u =>
    obtain ⟨idle, rfl⟩ := call_eq_some stepped
    exact ⟨u, .stays _ rfl (idle ▸ rfl) rfl rfl⟩
  | step u choice => exact ⟨u, nextSection_turns stepped⟩

theorem Owns.step {action : Action τ α} (owns : s.Owns) (stepped : s.step action = some s') :
    s'.Owns := by
  obtain ⟨u, turns⟩ := step_turns stepped
  exact owns.turns turns

end State

/-! ## Runs of two threads -/

/-- The next sections of a call. -/
def sections {τ α : Type} (thread : τ) (n : Nat) : List (Action τ α) :=
  List.replicate n (.step thread .proceed)

/-- The request of a thread for page 0 that another transaction has locked. -/
def requests (thread : Fin 2) (txnId : UInt64) (mode : LockMode) (holder : UInt64) :
    List (Action (Fin 2) UInt8) :=
  .fixPage thread txnId 0 mode :: sections thread 3 ++ .step thread (.visit holder) ::
    sections thread 3

/-- Two frames of two bytes, over a file of one page. -/
def twoFrames : State (Fin 2) UInt8 := .new 2 2 fun _ => [7, 8]

end BuzzDB.Locking.Threads
