import BuzzDB.Locking.Interleaving

/-!
# No dirty reads

In runs whose actions are sound no returned frame holds a byte of another transaction that
has not completed.  The invariant that carries the proof has four parts: the pool and the
lock tables are well formed; each transaction has what the place of its call says
(`Local`); a byte of a running transaction in a page is there under its exclusive lock, or
is about to be discarded (`Owes`); and what is on disk has completed.

An action is one of one transaction `t`.  `Frame` says what it leaves to the others, and
`Frame.local` that this keeps their parts of the invariant.
-/

namespace BuzzDB.Locking.Isolation

open BufferManager (Flushes Maps Discards)

namespace Pc

/-- The lock on the page is granted and not yet recorded. -/
def Records (pageId : UInt64) : Pc → Prop
  | .fixing p _ _ _ (.record _) => p = pageId
  | _ => False

/-- The call loads the page. -/
def Loads (pageId : UInt64) : Pc → Prop
  | .fixing p _ _ true _ => p = pageId
  | .reading p _ _ => p = pageId
  | _ => False

/-- The transaction is in `transaction_complete` or `transaction_abort`. -/
def Ends : Pc → Prop
  | .completing _ | .aborting _ | .discarding | .ending _ => True
  | _ => False

/-- The transaction has not yet discarded its pages. -/
def Aborts : Pc → Prop
  | .aborting _ | .discarding => True
  | _ => False

variable {pc : Pc} {p : UInt64}

theorem Ends.not_records (ends : pc.Ends) : ¬ pc.Records p := by
  cases pc with
  | fixing _ _ _ _ _ => exact ends.elim
  | _ => exact id

theorem Ends.not_loads (ends : pc.Ends) : ¬ pc.Loads p := by
  cases pc with
  | fixing _ _ _ _ _ => exact ends.elim
  | reading _ _ _ => exact ends.elim
  | _ => exact id

end Pc

namespace State

/-- What the place of a call says about its transaction. -/
def At (s : State) (t : UInt64) : Pc → Prop
  | .idle => True
  | .fixing p mode f loads pc =>
    t ≠ invalidTxnId ∧ s.poolMutex = some t ∧ s.bm.pageTable p = some f ∧
      pc.Knows (s.granted p) t mode ∧
      (loads = true → s.loading p = some t ∧ p ∈ SetMap.get s.bm.txnPages t)
  | .reading p mode f =>
    s.bm.pageTable p = some f ∧ Covers (s.granted p) t mode ∧ s.loading p = some t ∧
      p ∈ SetMap.get s.bm.txnPages t
  | .completing pc =>
    s.writer t ∈ s.completed ∧ ∀ p, Covers (s.granted p) t .shared → pc.Pending p
  | .aborting pc => ∀ p, Covers (s.granted p) t .shared → pc.Pending p
  | .discarding => ∀ p, ¬ Covers (s.granted p) t .shared
  | .ending completes =>
    (completes = true → s.writer t ∈ s.completed) ∧ ∀ p, ¬ Covers (s.granted p) t .shared

/-- What holds of one transaction. -/
structure Local (s : State) (t : UInt64) : Prop where
  place : s.At t (s.pcs t)
  mapped : ∀ p, Covers (s.granted p) t .shared → s.bm.pageTable p ≠ none
  locked : ∀ p, Covers (s.granted p) t .shared →
    (s.pcs t).Records p ∨ p ∈ SetMap.get s.bm.lockManager.txnLocks t
  tracked : ∀ p, Covers (s.granted p) t .shared →
    (s.pcs t).Records p ∨ p ∈ SetMap.get s.bm.txnPages t
  claims : ∀ p ∈ SetMap.get s.bm.txnPages t,
    Covers (s.granted p) t .shared ∨ s.loading p = some t ∨ (s.pcs t).Ends
  loading : ∀ p, s.loading p = some t → s.bm.pageTable p ≠ none ∧ (s.pcs t).Loads p ∧
    (∀ u mode, Covers (s.granted p) u mode → u = t) ∧
    ∀ h ∈ s.handles, h.txnId = t → h.pageId ≠ p
  handle : ∀ h ∈ s.handles, h.txnId = t → Covers (s.granted h.pageId) t h.mode ∧
    s.bm.pageTable h.pageId = some h.frameId ∧ ¬ (s.pcs t).Ends

/-- A transaction that has not completed may have left bytes in the page: it has the exclusive
lock, or will discard the page before anybody can get at it. -/
def Owes (s : State) (p : UInt64) (w : Writer) : Prop :=
  w.life = s.life w.txnId ∧ (Covers (s.granted p) w.txnId .exclusive ∨
    s.granted p = [] ∧ p ∈ SetMap.get s.bm.txnPages w.txnId ∧ (s.pcs w.txnId).Aborts)

/-- The invariant. -/
structure Inv (s : State) : Prop where
  wf : s.bm.Wf
  compatible : ∀ p, Compatible (s.granted p)
  all : ∀ t, s.Local t
  bytes : ∀ p f, s.bm.pageTable p = some f → s.loading p = none →
    ∀ byte ∈ (s.bm.pool f).data, ∀ w, byte.writer = some w → w ∈ s.completed ∨ s.Owes p w
  disk : ∀ segment, ∀ byte ∈ s.bm.disk segment, ∀ w, byte.writer = some w → w ∈ s.completed

/-- What an action of `t` leaves to the other transactions. -/
structure Frame (s s' : State) (t : UInt64) : Prop where
  pcs : ∀ u, u ≠ t → s'.pcs u = s.pcs u
  mutex : ∀ u, u ≠ t → s.poolMutex = some u → s'.poolMutex = some u
  covers : ∀ u, u ≠ t → ∀ p mode, Covers (s'.granted p) u mode ↔ Covers (s.granted p) u mode
  pageTable : ∀ u, u ≠ t → ∀ p f, s.poolMutex = some u ∨ Covers (s.granted p) u .shared →
    s.bm.pageTable p = some f → s'.bm.pageTable p = some f
  loading : ∀ u, u ≠ t → ∀ p, s'.loading p = some u ↔ s.loading p = some u
  gains : ∀ u, u ≠ t → ∀ p mode, s.loading p = some u → ¬ Covers (s'.granted p) t mode
  txnPages : ∀ u, u ≠ t → SetMap.get s'.bm.txnPages u = SetMap.get s.bm.txnPages u
  txnLocks : ∀ u, u ≠ t →
    SetMap.get s'.bm.lockManager.txnLocks u = SetMap.get s.bm.lockManager.txnLocks u
  life : ∀ u, u ≠ t → s'.life u = s.life u
  completed : ∀ w ∈ s.completed, w ∈ s'.completed
  handles : ∀ h ∈ s'.handles, h.txnId ≠ t → h ∈ s.handles

variable {s s' : State} {t u p q : UInt64} {f g : Nat} {mode other : LockMode} {w : Writer}

theorem Local.place_at {pc : Pc} (holds : s.Local t) (isAt : s.pcs t = pc) : s.At t pc :=
  isAt ▸ holds.place

/-- A loading call has the mutex of the pool or the lock on its page. -/
theorem Local.loading_safe (holds : s.Local t) (loads : s.loading p = some t) :
    s.poolMutex = some t ∨ Covers (s.granted p) t .shared := by
  have place := holds.place
  obtain ⟨-, isLoading, -, -⟩ := holds.loading p loads
  cases isAt : s.pcs t with
  | fixing p' mode f loads pc =>
    rw [isAt] at place
    exact Or.inl place.2.1
  | reading p' mode f =>
    rw [isAt] at place isLoading
    obtain rfl : p' = p := isLoading
    exact Or.inr place.2.1.shared
  | _ =>
    rw [isAt] at isLoading
    exact isLoading.elim

/-- The other transactions keep their parts of the invariant. -/
theorem Frame.local (frame : Frame s s' t) (different : u ≠ t) (holds : s.Local u) :
    s'.Local u := by
  have same := frame.pcs u different
  have covers := frame.covers u different
  have writer : s'.writer u = s.writer u := by
    rw [State.writer, frame.life u different, State.writer]
  have table : ∀ p, s.poolMutex = some u ∨ Covers (s.granted p) u .shared →
      s.bm.pageTable p ≠ none → s'.bm.pageTable p ≠ none := by
    intro p safe isMapped
    obtain ⟨f, there⟩ := Option.ne_none_iff_exists'.mp isMapped
    rw [frame.pageTable u different p f safe there]
    exact Option.some_ne_none f
  refine ⟨?_, fun p mine => ?_, fun p mine => ?_, fun p mine => ?_, fun p member => ?_,
    fun p loads => ?_, fun h member own => ?_⟩
  · have place := holds.place
    rw [same]
    cases isAt : s.pcs u with
    | idle => trivial
    | fixing p mode f loads pc =>
      rw [isAt] at place
      obtain ⟨valid, mutex, isMapped, knows, loading⟩ := place
      refine ⟨valid, frame.mutex u different mutex,
        frame.pageTable u different p f (Or.inl mutex) isMapped,
        AcquirePc.Knows.others (covers p) knows, fun isLoading => ?_⟩
      rw [frame.loading u different, frame.txnPages u different]
      exact loading isLoading
    | reading p mode f =>
      rw [isAt] at place
      obtain ⟨isMapped, mine, loading, tracked⟩ := place
      refine ⟨frame.pageTable u different p f (Or.inr mine.shared) isMapped, (covers p mode).mpr mine,
        (frame.loading u different p).mpr loading, ?_⟩
      rw [frame.txnPages u different]
      exact tracked
    | completing pc =>
      rw [isAt] at place
      refine ⟨?_, fun p mine => place.2 p ((covers p _).mp mine)⟩
      rw [writer]
      exact frame.completed _ place.1
    | aborting pc =>
      rw [isAt] at place
      exact fun p mine => place p ((covers p _).mp mine)
    | discarding =>
      rw [isAt] at place
      exact fun p mine => place p ((covers p _).mp mine)
    | ending completes =>
      rw [isAt] at place
      refine ⟨fun isComplete => ?_, fun p mine => place.2 p ((covers p _).mp mine)⟩
      rw [writer]
      exact frame.completed _ (place.1 isComplete)
  · have before := (covers p _).mp mine
    exact table p (Or.inr before) (holds.mapped p before)
  · rw [same, frame.txnLocks u different]
    exact holds.locked p ((covers p _).mp mine)
  · rw [same, frame.txnPages u different]
    exact holds.tracked p ((covers p _).mp mine)
  · rw [frame.txnPages u different] at member
    rw [same, covers, frame.loading u different]
    exact holds.claims p member
  · have before := (frame.loading u different p).mp loads
    obtain ⟨isMapped, isLoading, alone, free⟩ := holds.loading p before
    refine ⟨table p (holds.loading_safe before) isMapped, same ▸ isLoading,
      fun v mode theirs => ?_, fun h member own => ?_⟩
    · rcases eq_or_ne v t with rfl | elsewhere
      · exact absurd theirs (frame.gains u different p mode before)
      · exact alone v mode ((frame.covers v elsewhere p mode).mp theirs)
    · exact free h (frame.handles h member (own ▸ different)) own
  · obtain ⟨mine, isMapped, running⟩ := holds.handle h (frame.handles h member (own ▸ different)) own
    exact ⟨(covers _ _).mpr mine, frame.pageTable u different _ _ (Or.inr mine.shared) isMapped,
      same ▸ running⟩

/-- Bytes of others. -/
theorem Frame.owes (frame : Frame s s' t) (different : w.txnId ≠ t)
    (empty : s.granted p = [] → s'.granted p = []) (owes : s.Owes p w) : s'.Owes p w := by
  obtain ⟨alive, holds⟩ := owes
  refine ⟨alive.trans (frame.life _ different).symm, ?_⟩
  rw [frame.covers _ different, frame.txnPages _ different, frame.pcs _ different]
  exact holds.imp_right fun window => ⟨empty window.1, window.2⟩

/-- The invariant behind an action of `t`, from what it leaves to the others and its own part. -/
theorem Inv.frame (inv : s.Inv) (frame : Frame s s' t) (mine : s'.Local t) (wf : s'.bm.Wf)
    (compatible : ∀ p, Compatible (s'.granted p))
    (bytes : ∀ p f, s'.bm.pageTable p = some f → s'.loading p = none →
      ∀ byte ∈ (s'.bm.pool f).data, ∀ w, byte.writer = some w → w ∈ s'.completed ∨ s'.Owes p w)
    (disk : ∀ segment, ∀ byte ∈ s'.bm.disk segment, ∀ w, byte.writer = some w →
      w ∈ s'.completed) : s'.Inv where
  wf := wf
  compatible := compatible
  all u := by
    rcases eq_or_ne u t with rfl | different
    · exact mine
    · exact frame.local different (inv.all u)
  bytes := bytes
  disk := disk

end State

end BuzzDB.Locking.Isolation
