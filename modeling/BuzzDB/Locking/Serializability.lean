import BuzzDB.Lib.TwoPhase
import BuzzDB.Locking.DirtyReads

/-!
# Interleaved transactions are serializable

The interleaved calls of the buffer manager, with what the transactions read and write in the
frames they have been given.  A transaction commits with the section of
`transaction_complete` that flushes its pages.

In runs whose actions are sound, the committed transactions have read what they would have
read one after the other, in the order of their commits, and the segment files hold what
these have written.  The lock on a page is the lock on its bytes, so the calls are a
two-phase schedule; what has to be shown is that the frame of a locked page holds what its
transaction sees.
-/

namespace BuzzDB.Locking

namespace BufferManager

variable {α : Type*} [Zero α] {bm bm' : BufferManager α} {t p q : UInt64} {f : Nat}

/-- A clean frame of the page is as the page is on disk. -/
def Synced (bm : BufferManager α) (p : UInt64) : Prop :=
  ∀ f, bm.pageTable p = some f → (bm.pool f).dirty = false →
    ∀ i, (bm.pool f).data.getD i 0 = bm.disk.byte bm.pageSize p i

theorem byte_flushPage_of_ne (wf : bm.Wf) (different : p ≠ q) (i : Nat) :
    (bm.flushPage q).disk.byte bm.pageSize p i = bm.disk.byte bm.pageSize p i := by
  unfold BufferManager.flushPage
  cases isMapped : bm.pageTable q with
  | none => rfl
  | some g =>
    dsimp only
    unfold BufferManager.flushFrame
    split
    · change (bm.disk.writePage bm.pageSize (bm.pool g).pageId (bm.pool g).data).byte _ p i = _
      rw [Disk.byte_writePage (wf.length g), wf.mapped q g isMapped, if_neg different]
    · rfl

theorem Synced.flushPage (synced : bm.Synced p) (wf : bm.Wf) (q : UInt64) :
    (bm.flushPage q).Synced p := by
  intro f there clean i
  have flushes := flushPage_flushes bm q
  rw [flushes.pageTable] at there
  rw [flushes.data, flushes.pageSize]
  rcases eq_or_ne p q with rfl | different
  · rw [BufferManager.flushPage, there]
    dsimp only
    rw [BufferManager.flushFrame]
    split
    · change _ = (bm.disk.writePage bm.pageSize (bm.pool f).pageId (bm.pool f).data).byte _ p i
      rw [Disk.byte_writePage (wf.length f), wf.mapped p f there, if_pos rfl]
    · rename_i isClean
      exact synced f there (Bool.not_eq_true _ ▸ isClean) i
  · rw [byte_flushPage_of_ne wf different]
    refine synced f there ?_ i
    by_contra dirty
    rw [Bool.not_eq_false] at dirty
    have still : ((bm.flushPage q).pool f).dirty = true := by
      unfold BufferManager.flushPage
      cases isMapped : bm.pageTable q with
      | none => exact dirty
      | some g =>
        have elsewhere : f ≠ g := fun same => different (wf.injective there (same ▸ isMapped))
        dsimp only
        unfold BufferManager.flushFrame
        split
        · exact (congrArg BufferFrame.dirty (pool_put_of_ne elsewhere)).trans dirty
        · exact dirty
    rw [still] at clean
    cases clean

theorem Synced.flushes (pages : List UInt64) : ∀ bm : BufferManager α, bm.Wf → bm.Synced p →
    (pages.foldl BufferManager.flushPage bm).Synced p := by
  induction pages with
  | nil => exact fun _ _ synced => synced
  | cons q pages ih =>
    exact fun bm wf synced => ih _ ((flushPage_flushes bm q).wf wf) (synced.flushPage wf q)

theorem byte_flushes_of_not_mem {pages : List UInt64} (outside : p ∉ pages) (i : Nat) :
    ∀ bm : BufferManager α, bm.Wf →
      (pages.foldl BufferManager.flushPage bm).disk.byte bm.pageSize p i =
        bm.disk.byte bm.pageSize p i := by
  induction pages with
  | nil => exact fun _ _ => rfl
  | cons q pages ih =>
    intro bm wf
    obtain ⟨different, later⟩ := not_or.mp (mt List.mem_cons.mpr outside)
    have flushes := flushPage_flushes bm q
    refine Eq.trans ?_ (byte_flushPage_of_ne wf different i)
    rw [← flushes.pageSize]
    exact ih later _ (flushes.wf wf)

/-- A page that is flushed is on disk as it is in its frame. -/
theorem Synced.flushPages (synced : bm.Synced p) (wf : bm.Wf)
    (tracked : p ∈ SetMap.get bm.txnPages t) (there : bm.pageTable p = some f) (i : Nat) :
    (bm.flushPages t).disk.byte bm.pageSize p i = (bm.pool f).data.getD i 0 := by
  have flushes := flushPages_flushes bm t
  have synced' : (bm.flushPages t).Synced p := Synced.flushes _ bm wf synced
  have clean : ((bm.flushPages t).pool f).dirty = false := foldl_flushPage_clean tracked bm there
  rw [← flushes.pageSize, ← synced' f (flushes.pageTable ▸ there) clean, flushes.data]

end BufferManager

namespace Isolation

open TwoPhase (Access Schedule Locks)

/-! ## What transactions read and write -/

/-- The bytes of the segment files, by page and offset. -/
def contents (pageSize : Nat) (disk : Disk UInt8) (item : UInt64 × Nat) : UInt8 :=
  disk.byte pageSize item.1 item.2

namespace State

variable (s : State)

/-- What is on disk now. -/
def image (item : UInt64 × Nat) : UInt8 := (s.bm.disk.byte s.bm.pageSize item.1 item.2).value

/-- A byte of a frame. -/
def seen (frameId offset : Nat) : UInt8 := ((s.bm.pool frameId).data.getD offset 0).value

/-- Every page that a completing transaction has changed is marked dirty. -/
def Marked : Action → Prop
  | .transactionComplete txnId =>
    ∀ pageId ∈ SetMap.get s.bm.txnPages txnId, ∀ frameId ∈ s.bm.pageTable pageId,
      (s.bm.pool frameId).dirty = false → ∀ i < s.bm.pageSize,
        (s.bm.pool frameId).data.getD i 0 = s.bm.disk.byte s.bm.pageSize pageId i
  | _ => True

instance : DecidablePred s.Marked
  | .transactionComplete _ => List.decidableBAll _ _
  | .fixPage _ _ _ | .write _ _ _ | .unfixPage _ _ | .transactionAbort _ | .step _ _ =>
    isTrue trivial

end State

/-- The buffer manager and its callers, and what these have done in its pages. -/
structure Trace where
  state : State
  schedule : Schedule UInt64 (UInt64 × Nat) UInt8

namespace Trace

/-- An action, or a read in a frame that a transaction has been given. -/
inductive Event
  | action (action : Action)
  | read (handle : Handle) (offset : Nat) (value : UInt8)

/-- Nothing fixed, and nothing done. -/
def new (pageSize pageCount : Nat) (disk : Disk UInt8) : Trace :=
  ⟨State.new pageSize pageCount disk, Schedule.new (contents pageSize disk)⟩

variable (s : Trace)

/-- Writes stay inside the page. -/
def InPage : Action → Prop
  | .write _ offset _ => offset < s.state.bm.pageSize
  | _ => True

instance : DecidablePred s.InPage
  | .write _ _ _ => inferInstanceAs (Decidable (_ < _))
  | .fixPage _ _ _ | .unfixPage _ _ | .transactionComplete _ | .transactionAbort _ | .step _ _ =>
    isTrue trivial

/-- What is done behind an action. -/
def behind : Action → Schedule UInt64 (UInt64 × Nat) UInt8
  | .write handle offset value => s.schedule.record handle.txnId (.write (handle.pageId, offset) value)
  | .transactionComplete txnId => s.schedule.commit txnId
  | .transactionAbort txnId => s.schedule.abort txnId
  | _ => s.schedule

/-- One event.  A read returns what the frame holds. -/
def step : Event → Option Trace
  | .action action =>
    if s.InPage action then (s.state.step action).map fun state => ⟨state, s.behind action⟩ else none
  | .read handle offset value =>
    if handle ∈ s.state.handles ∧ s.state.pcs handle.txnId = .idle ∧
        s.state.seen handle.frameId offset = value then
      some ⟨s.state, s.schedule.record handle.txnId (.read (handle.pageId, offset) value)⟩
    else none

/-- The action is sound, and what completes has been marked. -/
def Sound : Event → Prop
  | .action action => s.state.Sound action ∧ s.state.Marked action
  | .read _ _ _ => True

instance : DecidablePred s.Sound
  | .action _ => inferInstanceAs (Decidable (_ ∧ _))
  | .read _ _ _ => isTrue trivial

end Trace

/-! ## What frames hold -/

namespace State

/-- The locks on pages. -/
def Inv.locks {s : State} (inv : s.Inv) : Locks UInt64 UInt64 where
  reads t p := Covers (s.granted p) t .shared
  writes t p := Covers (s.granted p) t .exclusive
  reads_of_writes := Covers.shared
  excludes writes reads := (inv.compatible _).excludes writes reads

/-- A transaction that aborts may have left bytes in the page, and is going to discard it. -/
def Stale (s : State) (p : UInt64) : Prop :=
  ∃ u, (s.pcs u).Aborts ∧ p ∈ SetMap.get s.bm.txnPages u ∧
    (Covers (s.granted p) u .exclusive ∨ s.granted p = [])

variable {s s' : State} {t u p : UInt64} {mode : LockMode}

theorem seen_congr {f : Nat} (same : (s'.bm.pool f).data = (s.bm.pool f).data) (i : Nat) :
    s'.seen f i = s.seen f i := by
  rw [seen, same, seen]

theorem image_congr (disk : s'.bm.disk = s.bm.disk) (pageSize : s'.bm.pageSize = s.bm.pageSize) :
    s'.image = s.image := by
  funext item
  rw [image, disk, pageSize, image]

/-- A page that a resting transaction has locked is not stale. -/
theorem Inv.not_stale (inv : s.Inv) (covers : Covers (s.granted p) t mode)
    (running : ¬ (s.pcs t).Aborts) : ¬ s.Stale p := by
  rintro ⟨u, aborts, -, exclusive | empty⟩
  · obtain rfl := (inv.compatible p).excludes exclusive covers
    exact running aborts
  · obtain ⟨lock, member, -⟩ := covers
    rw [empty] at member
    cases member

/-- A page stays stale until it is discarded. -/
theorem Stale.mono (stale : s.Stale p) (aborts : ∀ u, (s.pcs u).Aborts →
      p ∈ SetMap.get s.bm.txnPages u → (s'.pcs u).Aborts ∧ p ∈ SetMap.get s'.bm.txnPages u)
    (exclusive : ∀ u, (s.pcs u).Aborts → Covers (s.granted p) u .exclusive →
      Covers (s'.granted p) u .exclusive ∨ s'.granted p = [])
    (empty : (∃ u, (s.pcs u).Aborts ∧ p ∈ SetMap.get s.bm.txnPages u) → s.granted p = [] →
      s'.granted p = []) : s'.Stale p := by
  obtain ⟨u, isAborting, tracked, owes⟩ := stale
  obtain ⟨isAborting', tracked'⟩ := aborts u isAborting tracked
  refine ⟨u, isAborting', tracked', ?_⟩
  rcases owes with writes | none
  · exact exclusive u isAborting writes
  · exact Or.inr (empty ⟨u, isAborting, tracked⟩ none)

/-- An action of a transaction that does not abort. -/
theorem Stale.moves (stale : s.Stale p) (running : ¬ (s.pcs t).Aborts)
    (pcs : ∀ u, u ≠ t → s'.pcs u = s.pcs u)
    (txnPages : ∀ u, u ≠ t → SetMap.get s'.bm.txnPages u = SetMap.get s.bm.txnPages u)
    (granted : s'.granted p = s.granted p) : s'.Stale p := by
  refine stale.mono (fun u aborts tracked => ?_) (fun u _ writes => Or.inl (granted ▸ writes))
    fun _ empty => granted.trans empty
  have different : u ≠ t := fun same => running (same ▸ aborts)
  rw [pcs u different, txnPages u different]
  exact ⟨aborts, tracked⟩

end State

/-- The invariant: the frame of a page that is not stale holds what its only writer sees, or what
everybody sees. -/
structure Agrees (initial : UInt64 × Nat → UInt8) (s : Trace) : Prop where
  inv : s.state.Inv
  serial : s.schedule.Serial initial
  covered : s.schedule.Covered Prod.fst inv.locks
  ended : ∀ t, (s.state.pcs t).Ends → s.schedule.log t = []
  fresh : ∀ t p, s.state.loading p = some t → ∀ a ∈ s.schedule.log t, a.item.1 ≠ p
  frame : ∀ p f, s.state.bm.pageTable p = some f → s.state.loading p = none → ¬ s.state.Stale p →
    ∀ t, (∀ u, Covers (s.state.granted p) u .exclusive → u = t) →
      ∀ i, s.state.seen f i = s.schedule.view t (p, i)
  disk : s.state.image = s.schedule.store

namespace Agrees

variable {initial : UInt64 × Nat → UInt8} {s s' : Trace} {state : State} {t u p q : UInt64}
  {f g i : Nat} {mode : LockMode} {h : Handle}

/-- What a transaction without the exclusive lock sees of a page is committed. -/
theorem view_of_uncovered (agrees : Agrees initial s)
    (uncovered : ¬ Covers (s.state.granted p) t .exclusive) (i : Nat) :
    s.schedule.view t (p, i) = s.schedule.store (p, i) :=
  agrees.covered.view_of_unlocked uncovered

/-- A transaction that ends has nothing in its log. -/
theorem view_of_ends (agrees : Agrees initial s) (ends : (s.state.pcs t).Ends) :
    s.schedule.view t = s.schedule.store := by
  rw [Schedule.view, agrees.ended t ends]
  rfl

/-- The frame of a page that a resting transaction has locked holds what the transaction sees. -/
theorem seen_of_covers (agrees : Agrees initial s) (idle : s.state.pcs t = .idle)
    (covers : Covers (s.state.granted p) t mode) (there : s.state.bm.pageTable p = some f) (i : Nat) :
    s.state.seen f i = s.schedule.view t (p, i) := by
  have rests := (agrees.inv.all t).resting idle
  refine agrees.frame p f there (agrees.inv.read_of_covers rests covers)
    (agrees.inv.not_stale covers (by rw [idle]; exact id)) t (fun u writes => ?_) i
  exact ((agrees.inv.compatible p).excludes writes covers).symm

/-- An action that is neither a write nor the first section of an end. -/
theorem keep (agrees : Agrees initial s) (inv : state.Inv)
    (covers : ∀ u p mode, s.schedule.log u ≠ [] → Covers (s.state.granted p) u mode →
      Covers (state.granted p) u mode)
    (ended : ∀ u, (state.pcs u).Ends → (s.state.pcs u).Ends)
    (loading : ∀ u p, state.loading p = some u →
      s.state.loading p = some u ∨ ¬ Covers (s.state.granted p) u .shared)
    (frame : ∀ p f, state.bm.pageTable p = some f → state.loading p = none → ¬ state.Stale p →
      ∀ t, (∀ u, Covers (state.granted p) u .exclusive → u = t) →
        ∀ i, state.seen f i = s.schedule.view t (p, i))
    (disk : state.image = s.state.image) : Agrees initial ⟨state, s.schedule⟩ where
  inv := inv
  serial := agrees.serial
  covered := agrees.covered.relock (fun u p running => covers u p _ running)
    fun u p running => covers u p _ running
  ended u ends := agrees.ended u (ended u ends)
  fresh u p loads a member := by
    rcases loading u p loads with before | unlocked
    · exact agrees.fresh u p before a member
    · exact fun same => unlocked (same ▸ agrees.covered.reads u a member)
  frame := frame
  disk := disk.trans agrees.disk

/-! ## Between calls -/

/-- A write into a frame. -/
theorem write (agrees : Agrees initial s) (member : h ∈ s.state.handles)
    (idle : s.state.pcs h.txnId = .idle) (exclusive : h.mode = .exclusive)
    {offset : Nat} (inPage : offset < s.state.bm.pageSize) (value : UInt8) :
    Agrees initial ⟨{ s.state with
        bm := s.state.bm.writeData h.frameId offset ⟨value, some (s.state.writer h.txnId)⟩ },
      s.schedule.record h.txnId (.write (h.pageId, offset) value)⟩ := by
  obtain ⟨covers, there, -⟩ := (agrees.inv.all h.txnId).handle h member rfl
  rw [exclusive] at covers
  have rests := (agrees.inv.all h.txnId).resting idle
  have length := agrees.inv.wf.length h.frameId
  have only : ∀ u p, u ≠ h.txnId → s.schedule.view u p = (s.schedule.record h.txnId
      (.write (h.pageId, offset) value)).view u p := fun u p different => by
    rw [Schedule.view_record_of_ne different]
  refine {
    inv := agrees.inv.write member exclusive idle offset value
    serial := agrees.serial.of_same rfl rfl
    covered := agrees.covered.record trivial covers.shared fun i v same => ?_
    ended := fun u ends => ?_
    fresh := fun u p loads a inside => ?_
    frame := fun p f isMapped read notStale t alone i => ?_
    disk := agrees.disk }
  · cases same
    exact covers
  · have different : u ≠ h.txnId := by
      rintro rfl
      rw [idle] at ends
      exact ends
    exact (Schedule.log_record_of_ne different).trans (agrees.ended u ends)
  · have different : u ≠ h.txnId := fun same => rests.loading p (same ▸ loads)
    rw [Schedule.log_record_of_ne different] at inside
    exact agrees.fresh u p loads a inside
  · have before := agrees.frame p f isMapped read notStale t alone i
    rcases eq_or_ne p h.pageId with rfl | elsewhere
    · obtain rfl := Option.some.inj (there.symm.trans isMapped)
      obtain rfl := alone h.txnId covers
      rw [Schedule.view_record_self, Access.apply]
      change (((s.state.bm.put h.frameId _).pool h.frameId).data.getD i 0).value = _
      rw [BufferManager.pool_put_self]
      change ((List.set _ _ _ : List Byte).getD i 0).value = _
      rw [List.getD_eq_getElem?_getD, List.getElem?_set]
      rcases eq_or_ne offset i with rfl | apart
      · rw [if_pos rfl, if_pos (length ▸ inPage), Function.update_self]
        rfl
      · rw [if_neg apart, Function.update_of_ne fun same => apart (congrArg Prod.snd same).symm,
          ← before, State.seen, List.getD_eq_getElem?_getD]
    · have different : f ≠ h.frameId := fun same =>
        elsewhere (agrees.inv.wf.injective (same ▸ isMapped) there)
      have same : (s.state.bm.writeData h.frameId offset
          ⟨value, some (s.state.writer h.txnId)⟩).pool f = s.state.bm.pool f :=
        BufferManager.pool_put_of_ne different
      change (((s.state.bm.writeData _ _ _).pool f).data.getD i 0).value = _
      rw [same]
      refine before.trans ?_
      rcases eq_or_ne t h.txnId with rfl | other
      · rw [Schedule.view_record_self, Access.apply,
          Function.update_of_ne fun same => elsewhere (congrArg Prod.fst same)]
      · exact only t (p, i) other

/-- A read in a frame. -/
theorem read (agrees : Agrees initial s) (member : h ∈ s.state.handles)
    (idle : s.state.pcs h.txnId = .idle) (offset : Nat) :
    Agrees initial ⟨s.state, s.schedule.record h.txnId
      (.read (h.pageId, offset) (s.state.seen h.frameId offset))⟩ := by
  obtain ⟨covers, there, -⟩ := (agrees.inv.all h.txnId).handle h member rfl
  have rests := (agrees.inv.all h.txnId).resting idle
  have sees := agrees.seen_of_covers idle covers there offset
  refine {
    inv := agrees.inv
    serial := agrees.serial.of_same rfl rfl
    covered := agrees.covered.record sees.symm covers.shared nofun
    ended := fun u ends => ?_
    fresh := fun u p loads a inside => ?_
    frame := fun p f isMapped read notStale t alone i => ?_
    disk := agrees.disk }
  · have different : u ≠ h.txnId := by
      rintro rfl
      rw [idle] at ends
      exact ends
    exact (Schedule.log_record_of_ne different).trans (agrees.ended u ends)
  · have different : u ≠ h.txnId := fun same => rests.loading p (same ▸ loads)
    rw [Schedule.log_record_of_ne different] at inside
    exact agrees.fresh u p loads a inside
  · refine (agrees.frame p f isMapped read notStale t alone i).trans ?_
    rcases eq_or_ne t h.txnId with rfl | other
    · rw [Schedule.view_record_self]
      rfl
    · rw [Schedule.view_record_of_ne other]

theorem unfixPage (agrees : Agrees initial s) (frameId : Nat) (isDirty : Bool) :
    Agrees initial ⟨{ s.state with bm := s.state.bm.unfixPage frameId isDirty }, s.schedule⟩ := by
  have inv := agrees.inv.unfixPage frameId isDirty
  unfold BufferManager.unfixPage at inv ⊢
  split
  · rename_i dirty
    rw [if_pos dirty] at inv
    refine agrees.keep inv (fun _ _ _ _ => id) (fun _ => id) (fun _ _ => Or.inl)
      (fun p f there read notStale t alone i => ?_) rfl
    refine Eq.trans ?_ (agrees.frame p f there read notStale t alone i)
    change (((s.state.bm.put _ _).pool f).data.getD i 0).value = _
    rcases eq_or_ne f frameId with rfl | different
    · rw [BufferManager.pool_put_self]
      rfl
    · rw [BufferManager.pool_put_of_ne different]
      rfl
  · exact agrees

/-! ## Fixing pages -/

theorem lookup (agrees : Agrees initial s) (valid : t ≠ invalidTxnId)
    (idle : s.state.pcs t = .idle) (free : s.state.poolMutex = none)
    (isMapped : s.state.bm.pageTable p = some f) :
    Agrees initial ⟨{ s.state.move t (.fixing p mode f false .getFrame) with poolMutex := some t },
      s.schedule⟩ := by
  have moved : ∀ u, u ≠ t → Function.update s.state.pcs t (.fixing p mode f false .getFrame) u =
      s.state.pcs u := fun u different => Function.update_of_ne different _ _
  refine agrees.keep (agrees.inv.lookup valid idle free isMapped) (fun _ _ _ _ => id)
    (fun u ends => ?_) (fun _ _ => Or.inl) (fun q g there read notStale => ?_) rfl
  · change (Function.update s.state.pcs t _ u).Ends at ends
    rcases eq_or_ne u t with rfl | different
    · rw [Function.update_self] at ends
      exact ends.elim
    · exact moved u different ▸ ends
  · refine agrees.frame q g there read fun stale => notStale ?_
    exact stale.moves (t := t) (by rw [idle]; exact id) moved (fun _ _ => rfl) rfl

theorem load {bm : BufferManager Byte} (agrees : Agrees initial s) (valid : t ≠ invalidTxnId)
    (idle : s.state.pcs t = .idle) (free : s.state.poolMutex = none)
    (missing : s.state.bm.pageTable p = none) (maps : BufferManager.Maps s.state.bm t p bm f) :
    Agrees initial ⟨s.state.loadPage t p mode f bm, s.schedule⟩ := by
  have frame : State.Frame s.state (s.state.loadPage t p mode f bm) t :=
    agrees.inv.load_frame valid free missing maps
  refine agrees.keep (agrees.inv.load valid idle free missing maps) (fun u q mode _ covers => ?_)
    (fun u ends => ?_) (fun u q loads => ?_) (fun q g there read notStale t' alone i => ?_)
    (State.image_congr maps.disk maps.pageSize)
  · rw [State.loadPage_granted maps]
    exact covers
  · rcases eq_or_ne u t with rfl | different
    · rw [State.loadPage_pcs] at ends
      exact ends.elim
    · exact frame.pcs u different ▸ ends
  · change Function.update s.state.loading p (some t) q = some u at loads
    rcases eq_or_ne q p with rfl | elsewhere
    · exact Or.inr ((agrees.inv.unlocked missing u).1 .shared)
    · rw [Function.update_of_ne elsewhere] at loads
      exact Or.inl loads
  · change bm.pageTable q = some g at there
    change Function.update s.state.loading p (some t) q = none at read
    rcases eq_or_ne q p with rfl | elsewhere
    · rw [Function.update_self] at read
      cases read
    · rw [Function.update_of_ne elsewhere] at read
      rw [maps.pageTable, Function.update_of_ne elsewhere] at there
      have same := maps.others g fun same => maps.unused q (same ▸ there)
      refine (State.seen_congr (congrArg BufferFrame.data same) i).trans ?_
      refine agrees.frame q g there read (fun stale => notStale ?_) t' (fun u writes => ?_) i
      · exact stale.moves (t := t) (by rw [idle]; exact id) frame.pcs frame.txnPages
          (State.loadPage_granted maps q)
      · exact alone u (by rw [State.loadPage_granted maps]; exact writes)

theorem startFix (agrees : Agrees initial s) (valid : t ≠ invalidTxnId)
    (idle : s.state.pcs t = .idle) (free : s.state.poolMutex = none) :
    Agrees initial ⟨s.state.startFix t p mode, s.schedule⟩ := by
  cases isMapped : s.state.bm.pageTable p with
  | some f =>
    simp only [State.startFix, isMapped]
    exact agrees.lookup valid idle free isMapped
  | none =>
    simp only [State.startFix, isMapped]
    cases loads : s.state.bm.mapPage t p with
    | none => exact agrees
    | some loaded =>
      obtain ⟨bm, f⟩ := loaded
      exact agrees.load valid idle free isMapped (agrees.inv.wf.mapPage isMapped loads)

theorem acquired_pageSize (state : State) (t p : UInt64) (mode : LockMode) (f : Nat) (loads : Bool)
    (lm : LockManager) (outcome : Outcome AcquirePc) :
    (state.acquired t p mode f loads lm outcome).bm.pageSize = state.bm.pageSize := by
  cases outcome with
  | returned =>
    cases loads with
    | true => rfl
    | false =>
      have same := congrArg BufferManager.pageSize
        (BufferManager.track_eq ({ state.bm with lockManager := lm } : BufferManager Byte) t p)
      exact same
  | _ => rfl

/-- Where a lock is granted the page is not stale. -/
theorem not_stale_of_settled {loads : Bool} {pc : AcquirePc} {lm : LockManager}
    {outcome : Outcome AcquirePc} (agrees : Agrees initial s)
    (isAt : s.state.pcs t = .fixing p mode f loads pc)
    (spec : AcquireStep s.state.bm.lockManager t p mode pc lm outcome)
    (settled : s.state.Settled t p) (covers : Covers (lm.granted p) t mode) :
    ¬ s.state.Stale p := by
  rintro ⟨u, aborts, tracked, writes | empty⟩
  · have writes' : Covers (lm.granted p) u .exclusive := spec.keeps writes
    obtain rfl := (spec.compatible agrees.inv.compatible p).excludes writes' covers
    rw [isAt] at aborts
    exact aborts
  · have released := settled.2 u tracked
    unfold State.NotReleased at released
    cases isAborting : s.state.pcs u with
    | aborting _ | discarding =>
      rw [isAborting, empty] at released
      obtain ⟨lock, member, -⟩ := released
      cases member
    | _ =>
      rw [isAborting] at aborts
      exact aborts.elim

theorem request {loads : Bool} {pc : AcquirePc} {lm : LockManager} {outcome : Outcome AcquirePc}
    (agrees : Agrees initial s) (isAt : s.state.pcs t = .fixing p mode f loads pc)
    (spec : AcquireStep s.state.bm.lockManager t p mode pc lm outcome)
    (refused : loads = true → outcome ≠ .threw)
    (settled : lm.granted p ≠ s.state.granted p → s.state.Settled t p) :
    Agrees initial ⟨s.state.acquired t p mode f loads lm outcome, s.schedule⟩ := by
  obtain ⟨valid, -⟩ := (agrees.inv.all t).place_at isAt
  have inv := agrees.inv.request isAt spec refused settled
  have requests := State.acquired_requests s.state p mode f loads lm outcome valid
  have isAt' := State.acquired_pcs s.state t p mode f loads lm outcome
  have pageSize := acquired_pageSize s.state t p mode f loads lm outcome
  generalize s.state.acquired t p mode f loads lm outcome = state at inv requests isAt' pageSize ⊢
  refine agrees.keep inv (fun u q mode _ covers => requests.covers spec covers) (fun u ends => ?_)
    (fun u q isLoading => Or.inl (requests.loading ▸ isLoading))
    (fun q g there read notStale t' alone i => ?_) (State.image_congr requests.disk pageSize)
  · rcases eq_or_ne u t with rfl | different
    · rw [isAt'] at ends
      cases outcome with
      | returned => cases loads <;> exact ends.elim
      | _ => exact ends.elim
    · exact requests.pcs u different ▸ ends
  · rw [requests.pageTable] at there
    rw [requests.loading] at read
    refine (State.seen_congr (s := s.state) (by rw [requests.pool]) i).trans ?_
    refine agrees.frame q g there read ?_ t' (fun u writes => alone u ?_) i
    · rcases State.granted_or_settled spec settled q with same | ⟨rfl, isSettled, _, rfl⟩
      · refine fun stale => notStale (stale.moves (t := t) ?_ requests.pcs requests.txnPages ?_)
        · rw [isAt]
          exact id
        · rw [requests.granted]
          exact same
      · exact agrees.not_stale_of_settled isAt spec isSettled spec.knows
    · exact requests.covers spec writes

/-- A read that fills its frame. -/
theorem seen_readFrame (agrees : Agrees initial s) (there : s.state.bm.pageTable p = some f)
    (fills : s.state.Fills p f) (i : Nat) :
    (((s.state.bm.readFrame f).pool f).data.getD i 0).value = s.schedule.store (p, i) := by
  have page := agrees.inv.wf.mapped p f there
  have length := agrees.inv.wf.length f
  simp only [BufferManager.readFrame, BufferManager.pool_put_self, page]
  rw [(Disk.readPage_iff_blank length).mpr, ← agrees.disk]
  · rfl
  · intro j inside behind
    rcases fills with whole | blank
    · omega
    · rw [blank, List.getD_replicate _ inside]

theorem readFrame (agrees : Agrees initial s) (isAt : s.state.pcs t = .reading p mode f)
    (fills : s.state.Fills p f) :
    Agrees initial ⟨{ s.state.returnFrame ⟨t, p, mode, f⟩ (s.state.bm.readFrame f) with
      loading := Function.update s.state.loading p none }, s.schedule⟩ := by
  obtain ⟨there, covers, loadsP, -⟩ := (agrees.inv.all t).place_at isAt
  obtain ⟨-, -, onlyMine, -⟩ := (agrees.inv.all t).loading p loadsP
  have moved : ∀ u, u ≠ t → Function.update s.state.pcs t Pc.idle u = s.state.pcs u :=
    fun u different => Function.update_of_ne different _ _
  refine agrees.keep (agrees.inv.read isAt fills) (fun _ _ _ _ => id) (fun u ends => ?_)
    (fun u q loads => ?_) (fun q g isMapped read notStale t' alone i => ?_) rfl
  · change (Function.update s.state.pcs t Pc.idle u).Ends at ends
    rcases eq_or_ne u t with rfl | different
    · rw [Function.update_self] at ends
      exact ends.elim
    · exact moved u different ▸ ends
  · change Function.update s.state.loading p none q = some u at loads
    rcases eq_or_ne q p with rfl | elsewhere
    · rw [Function.update_self] at loads
      cases loads
    · rw [Function.update_of_ne elsewhere] at loads
      exact Or.inl loads
  · change Function.update s.state.loading p none q = none at read
    rcases eq_or_ne q p with rfl | elsewhere
    · obtain rfl := Option.some.inj (there.symm.trans isMapped)
      refine (agrees.seen_readFrame there fills i).trans (Eq.symm ?_)
      refine TwoPhase.effect_of_unwritten fun v member => ?_
      -- only the loading transaction has the lock, and it has not been there yet
      obtain rfl := onlyMine t' _ (agrees.covered.reads t' _ member)
      exact agrees.fresh t' q loadsP _ member rfl
    · rw [Function.update_of_ne elsewhere] at read
      have different : g ≠ f := fun same =>
        elsewhere (agrees.inv.wf.injective (same ▸ isMapped) there)
      refine (State.seen_congr (s := s.state) ?_ i).trans
        (agrees.frame q g isMapped read (fun stale => notStale ?_) t' alone i)
      · exact congrArg BufferFrame.data (BufferManager.pool_put_of_ne different)
      · exact stale.moves (t := t) (by rw [isAt]; exact id) moved (fun _ _ => rfl) rfl

/-! ## Ending transactions -/

/-- The pages that a completing transaction has written are on disk behind the flush. -/
theorem image_flushed (agrees : Agrees initial s) (idle : s.state.pcs t = .idle)
    (marked : s.state.Marked (.transactionComplete t)) :
    (s.state.startComplete t).image = s.schedule.view t := by
  have rests := (agrees.inv.all t).resting idle
  have wf := agrees.inv.wf
  have flushes := BufferManager.flushPages_flushes s.state.bm t
  funext ⟨p, i⟩
  change ((s.state.bm.flushPages t).disk.byte (s.state.bm.flushPages t).pageSize p i).value = _
  rw [flushes.pageSize]
  by_cases tracked : p ∈ SetMap.get s.state.bm.txnPages t
  · have covers := rests.claims p tracked
    obtain ⟨f, there⟩ := Option.ne_none_iff_exists'.mp ((agrees.inv.all t).mapped p covers)
    have synced : s.state.bm.Synced p := by
      intro g isMapped clean j
      by_cases inside : j < s.state.bm.pageSize
      · exact marked p tracked g isMapped clean j inside
      · rw [Disk.byte, if_neg inside, List.getD_eq_default]
        rw [wf.length]
        omega
    rw [synced.flushPages wf tracked there]
    exact agrees.seen_of_covers idle covers there i
  · rw [BufferManager.flushPages, BufferManager.byte_flushes_of_not_mem tracked i _ wf]
    rw [agrees.view_of_uncovered (fun writes => tracked (rests.tracked p writes.shared)) i,
      ← agrees.disk]
    rfl

theorem startComplete (agrees : Agrees initial s) (idle : s.state.pcs t = .idle)
    (marked : s.state.Marked (.transactionComplete t)) :
    Agrees initial ⟨s.state.startComplete t, s.schedule.commit t⟩ := by
  have rests := (agrees.inv.all t).resting idle
  have flushes := BufferManager.flushPages_flushes s.state.bm t
  have granted : ∀ q, (s.state.startComplete t).granted q = s.state.granted q := fun q =>
    congrArg (LockManager.granted · q) flushes.lockManager
  have moved : ∀ u, u ≠ t → (s.state.startComplete t).pcs u = s.state.pcs u :=
    fun u different => Function.update_of_ne different _ _
  refine {
    inv := agrees.inv.startComplete idle
    serial := agrees.serial.commit agrees.covered t
    covered := (agrees.covered.commit t).relock (fun u q _ covers => ?_) (fun u q _ covers => ?_)
    ended := fun u ends => ?_
    fresh := fun u p loads a inside => ?_
    frame := fun p f there read notStale u alone i => ?_
    disk := agrees.image_flushed idle marked }
  · change Covers ((s.state.startComplete t).granted q) u .shared
    rw [granted]
    exact covers
  · change Covers ((s.state.startComplete t).granted q) u .exclusive
    rw [granted]
    exact covers
  · rcases eq_or_ne u t with rfl | different
    · exact Schedule.log_abort_self
    · exact (Schedule.log_abort_of_ne different).trans (agrees.ended u (moved u different ▸ ends))
  · exact agrees.fresh u p loads a (Schedule.mem_log_abort inside)
  · change (s.state.bm.flushPages t).pageTable p = some f at there
    rw [flushes.pageTable] at there
    have before := agrees.frame p f there read
      (fun stale => notStale (stale.moves (t := t) (by rw [idle]; exact id) moved
        (fun _ _ => by rw [← flushes.txnPages]; rfl) (granted p))) u
      (fun w writes => alone w ((granted p).symm ▸ writes)) i
    refine (State.seen_congr (s := s.state) (flushes.data f) i).trans (before.trans ?_)
    rcases eq_or_ne u t with rfl | different
    · rw [Schedule.view_commit_self]
    · rw [Schedule.view_commit_of_ne different]
      refine TwoPhase.effect_congr (agrees.view_of_uncovered (fun writes => ?_) i).symm
      exact different (alone t ((granted p).symm ▸ writes)).symm

theorem startAbort (agrees : Agrees initial s) (idle : s.state.pcs t = .idle) :
    Agrees initial ⟨(s.state.dropHandles t).move t (.aborting .snapshot), s.schedule.abort t⟩ := by
  have rests := (agrees.inv.all t).resting idle
  have moved : ∀ u, u ≠ t → Function.update s.state.pcs t (.aborting .snapshot) u = s.state.pcs u :=
    fun u different => Function.update_of_ne different _ _
  refine {
    inv := agrees.inv.startAbort idle
    serial := agrees.serial.of_same rfl rfl
    covered := agrees.covered.abort t
    ended := fun u ends => ?_
    fresh := fun u p loads a inside => agrees.fresh u p loads a (Schedule.mem_log_abort inside)
    frame := fun p f there read notStale u alone i => ?_
    disk := agrees.disk }
  · rcases eq_or_ne u t with rfl | different
    · exact Schedule.log_abort_self
    · exact (Schedule.log_abort_of_ne different).trans (agrees.ended u (moved u different ▸ ends))
  · have before := agrees.frame p f there read
      (fun stale => notStale (stale.moves (t := t) (by rw [idle]; exact id) moved
        (fun _ _ => rfl) rfl)) u alone i
    refine Eq.trans before ?_
    rcases eq_or_ne u t with rfl | different
    · rw [Schedule.view_abort_self]
      refine agrees.view_of_uncovered (fun writes => notStale ?_) i
      have aborts : (Function.update s.state.pcs u (Pc.aborting .snapshot) u).Aborts := by
        rw [Function.update_self]
        trivial
      exact ⟨u, aborts, rests.tracked p writes.shared, Or.inl writes⟩
    · rw [Schedule.view_abort_of_ne different]

/-- A section of a release. -/
theorem release {pc : Pc} {lm : LockManager} {outcome : Outcome ReleasePc} (agrees : Agrees initial s)
    (ends : (s.state.pcs t).Ends)
    (releases : ReleaseStep s.state.bm.lockManager t lm outcome)
    (aborts : (s.state.pcs t).Aborts → pc.Aborts)
    (inv : State.Inv { s.state.move t pc with bm := { s.state.bm with lockManager := lm } }) :
    Agrees initial
      ⟨{ s.state.move t pc with bm := { s.state.bm with lockManager := lm } }, s.schedule⟩ := by
  have ending := (agrees.inv.all t).ending ends
  have moved : ∀ u, u ≠ t → Function.update s.state.pcs t pc u = s.state.pcs u :=
    fun u different => Function.update_of_ne different _ _
  have here : Function.update s.state.pcs t pc t = pc := Function.update_self _ _ _
  have aborting : ∀ u, (s.state.pcs u).Aborts → (Function.update s.state.pcs t pc u).Aborts := by
    intro u isAborting
    rcases eq_or_ne u t with rfl | different
    · exact here.symm ▸ aborts isAborting
    · exact (moved u different).symm ▸ isAborting
  have empty : ∀ q, s.state.granted q = [] → lm.granted q = [] := by
    intro q none
    refine List.eq_nil_iff_forall_not_mem.mpr fun lock member => ?_
    have inside : lock ∈ s.state.granted q := releases.shrinks q lock member
    rw [none] at inside
    cases inside
  refine agrees.keep inv (fun u q mode running covers => ?_) (fun u isEnding => ?_)
    (fun _ _ => Or.inl) (fun q g there read notStale u alone i => ?_) rfl
  · have different : u ≠ t := fun same => running (agrees.ended u (same ▸ ends))
    exact (releases.covers u different q mode).mpr covers
  · rcases eq_or_ne u t with rfl | different
    · exact ends
    · exact moved u different ▸ isEnding
  · by_cases gone : Covers (s.state.granted q) t .exclusive ∧ ¬ Covers (lm.granted q) t .exclusive
    · -- the lock of the only writer: its pages are committed, unless they are stale now
      obtain ⟨writes, released⟩ := gone
      obtain ⟨lock, member, own, isExclusive⟩ := writes
      have only := (agrees.inv.compatible q).alone lock member (isExclusive rfl)
      have free : lm.granted q = [] := by
        refine List.eq_nil_iff_forall_not_mem.mpr fun lock' member' => released ?_
        have same : lock' ∈ s.state.granted q := releases.shrinks q lock' member'
        rw [only, List.mem_singleton] at same
        exact ⟨lock', member', same ▸ own, same ▸ isExclusive⟩
      have writes : Covers (s.state.granted q) t .exclusive := ⟨lock, member, own, isExclusive⟩
      have completes : ¬ (s.state.pcs t).Aborts := fun isAborting => notStale
        ⟨t, aborting t isAborting, ending.tracked q writes.shared, Or.inr free⟩
      have before := agrees.frame q g there read (agrees.inv.not_stale writes completes) t
        (fun u writes' => (agrees.inv.compatible q).excludes writes writes'.shared) i
      refine before.trans ?_
      rw [agrees.view_of_ends ends]
      rcases eq_or_ne u t with rfl | different
      · rw [agrees.view_of_ends ends]
      · exact (agrees.view_of_uncovered (fun writes' => different
          ((agrees.inv.compatible q).excludes writes writes'.shared)) i).symm
    · have kept : ∀ w, Covers (s.state.granted q) w .exclusive → Covers (lm.granted q) w .exclusive := by
        intro w writes
        rcases eq_or_ne w t with rfl | different
        · exact by_contra fun released => gone ⟨writes, released⟩
        · exact (releases.covers w different q .exclusive).mpr writes
      refine agrees.frame q g there read (fun stale => notStale ?_) u
        (fun w writes => alone w (kept w writes)) i
      exact stale.mono (fun w isAborting tracked => ⟨aborting w isAborting, tracked⟩)
        (fun w _ writes => Or.inl (kept w writes)) fun _ none => empty q none

theorem complete {pc : ReleasePc} {lm : LockManager} {outcome : Outcome ReleasePc}
    (agrees : Agrees initial s) (isAt : s.state.pcs t = .completing pc)
    (ran : pc.step s.state.bm.lockManager t = some (lm, outcome)) :
    Agrees initial ⟨s.state.released t .completing (.ending true) lm outcome, s.schedule⟩ := by
  have ends : (s.state.pcs t).Ends := isAt.symm ▸ trivial
  have inv := agrees.inv.complete isAt ran
  obtain ⟨-, pending⟩ := (agrees.inv.all t).place_at isAt
  have releases := ReleasePc.step_releases ((agrees.inv.all t).ending ends).locked pending ran
  have running : ¬ (s.state.pcs t).Aborts := by
    rw [isAt]
    exact id
  cases outcome with
  | next next => exact agrees.release ends releases (fun aborts => absurd aborts running) inv
  | _ => exact agrees.release ends releases (fun aborts => absurd aborts running) inv

theorem abort {pc : ReleasePc} {lm : LockManager} {outcome : Outcome ReleasePc}
    (agrees : Agrees initial s) (isAt : s.state.pcs t = .aborting pc)
    (ran : pc.step s.state.bm.lockManager t = some (lm, outcome)) :
    Agrees initial ⟨s.state.released t .aborting .discarding lm outcome, s.schedule⟩ := by
  have ends : (s.state.pcs t).Ends := isAt.symm ▸ trivial
  have inv := agrees.inv.abort isAt ran
  have pending := (agrees.inv.all t).place_at isAt
  have releases := ReleasePc.step_releases ((agrees.inv.all t).ending ends).locked pending ran
  cases outcome with
  | next next => exact agrees.release ends releases (fun _ => trivial) inv
  | _ => exact agrees.release ends releases (fun _ => trivial) inv

/-- Stale pages of the transaction are gone, and the others stay as they are. -/
theorem discard (agrees : Agrees initial s) (isAt : s.state.pcs t = .discarding)
    (free : s.state.poolMutex = none)
    (sound : ∀ p ∈ SetMap.get s.state.bm.txnPages t, s.state.bm.pageTable p ≠ none →
      ∀ lock ∈ s.state.granted p, lock.txnId = t) :
    Agrees initial ⟨s.state.discarded t, s.schedule⟩ := by
  have discards := agrees.inv.wf.discardAll (SetMap.get s.state.bm.txnPages t)
  have granted : ∀ q, (s.state.discarded t).granted q = s.state.granted q := fun q =>
    congrArg (LockManager.granted · q) discards.lockManager
  have moved : ∀ u, u ≠ t → (s.state.discarded t).pcs u = s.state.pcs u :=
    fun u different => Function.update_of_ne different _ _
  refine agrees.keep (agrees.inv.discard isAt free sound) (fun u q mode _ covers => ?_)
    (fun u ends => ?_) (fun _ _ => Or.inl) (fun q g there read notStale u alone i => ?_)
    (State.image_congr discards.disk discards.pageSize)
  · rw [granted]
    exact covers
  · rcases eq_or_ne u t with rfl | different
    · rw [isAt]
      trivial
    · exact moved u different ▸ ends
  · have outside : q ∉ SetMap.get s.state.bm.txnPages t := by
      intro member
      cases (discards.gone q member).symm.trans there
    have before := (discards.kept q outside).symm.trans there
    refine (State.seen_congr (s := s.state) (discards.data g) i).trans
      (agrees.frame q g before read (fun stale => notStale ?_) u (fun w writes => ?_) i)
    · refine stale.mono (fun w aborts tracked => ?_) (fun w _ writes => ?_) fun _ empty => ?_
      · have different : w ≠ t := fun same => outside (same ▸ tracked)
        refine ⟨(moved w different).symm ▸ aborts, ?_⟩
        have same : SetMap.get (s.state.discarded t).bm.txnPages w = SetMap.get s.state.bm.txnPages w :=
          (SetMap.get_erase_of_ne different).trans (congrArg (SetMap.get · w) discards.txnPages)
        rw [same]
        exact tracked
      · exact Or.inl ((granted q).symm ▸ writes)
      · exact (granted q).trans empty
    · exact alone w ((granted q).symm ▸ writes)

theorem finish {completes : Bool} (agrees : Agrees initial s)
    (isAt : s.state.pcs t = .ending completes) :
    Agrees initial ⟨s.state.ended t, s.schedule⟩ := by
  have moved : ∀ u, u ≠ t → (s.state.ended t).pcs u = s.state.pcs u :=
    fun u different => Function.update_of_ne different _ _
  refine agrees.keep (agrees.inv.finish isAt) (fun _ _ _ _ => id) (fun u ends => ?_)
    (fun _ _ => Or.inl) (fun q g there read notStale => ?_) rfl
  · rcases eq_or_ne u t with rfl | different
    · rw [isAt]
      trivial
    · exact moved u different ▸ ends
  · refine agrees.frame q g there read fun stale => notStale ?_
    refine stale.moves (t := t) ?_ moved (fun u different => SetMap.get_erase_of_ne different) rfl
    rw [isAt]
    exact id

/-! ## Runs -/

theorem new (pageSize pageCount : Nat) (disk : Disk UInt8) :
    Agrees (contents pageSize disk) (Trace.new pageSize pageCount disk) where
  inv := State.Inv.new pageSize pageCount disk
  serial := Schedule.Serial.new _
  covered := Schedule.Covered.new _
  ended _ _ := rfl
  fresh _ _ _ _ member := (List.not_mem_nil member).elim
  frame _ _ impossible := by cases impossible
  disk := by
    funext ⟨p, i⟩
    change (Disk.byte (fun segment => (disk segment).map fun b => (⟨b, none⟩ : Byte)) pageSize p i).value =
      disk.byte pageSize p i
    unfold Disk.byte
    split
    · rw [List.getD_eq_getElem?_getD, List.getD_eq_getElem?_getD, List.getElem?_map]
      cases (disk (getSegmentId p))[Disk.start pageSize p + i]? <;> rfl
    · rfl

/-- One section. -/
theorem nextSection {choice : Choice} (agrees : Agrees initial s)
    (sound : s.state.SoundSection t choice (s.state.pcs t))
    (ran : s.state.nextSection t choice = some state) : Agrees initial ⟨state, s.schedule⟩ := by
  unfold State.nextSection at ran
  split at ran
  · cases ran
  · rename_i p mode f loads pc _ isAt
    obtain ⟨⟨lm, outcome⟩, stepped, rfl⟩ := Option.map_eq_some_iff.mp ran
    rw [isAt] at sound
    obtain ⟨inPlace, safe⟩ := sound
    obtain ⟨refused, settled⟩ := safe _ stepped
    obtain ⟨-, -, -, knows, -⟩ := (agrees.inv.all t).place_at isAt
    exact agrees.request isAt (AcquirePc.step_spec knows inPlace stepped) refused settled
  · rename_i p mode f isAt
    cases ran
    rw [isAt] at sound
    exact agrees.readFrame isAt sound
  · rename_i pc isAt
    obtain ⟨⟨lm, outcome⟩, stepped, rfl⟩ := Option.map_eq_some_iff.mp ran
    exact agrees.complete isAt stepped
  · rename_i pc isAt
    obtain ⟨⟨lm, outcome⟩, stepped, rfl⟩ := Option.map_eq_some_iff.mp ran
    exact agrees.abort isAt stepped
  · rename_i isAt
    obtain ⟨free, same⟩ := Option.ite_none_right_eq_some.mp ran
    cases same
    rw [isAt] at sound
    exact agrees.discard isAt free sound
  · rename_i completes isAt
    obtain ⟨-, same⟩ := Option.ite_none_right_eq_some.mp ran
    cases same
    exact agrees.finish isAt
  · cases ran

/-- One action. -/
theorem action {action : Action} (agrees : Agrees initial s) (inPage : s.InPage action)
    (sound : s.Sound (.action action)) (ran : s.state.step action = some state) :
    Agrees initial ⟨state, s.behind action⟩ := by
  obtain ⟨sound, marked⟩ := sound
  cases action with
  | step t choice => exact agrees.nextSection sound ran
  | fixPage t p mode =>
    obtain ⟨⟨idle, free⟩, same⟩ := Option.ite_none_right_eq_some.mp ran
    cases same
    exact agrees.startFix sound idle free
  | write h offset value =>
    obtain ⟨⟨member, idle, exclusive⟩, same⟩ := Option.ite_none_right_eq_some.mp ran
    cases same
    exact agrees.write member idle exclusive inPage value
  | unfixPage h isDirty =>
    obtain ⟨-, same⟩ := Option.ite_none_right_eq_some.mp ran
    cases same
    exact agrees.unfixPage h.frameId isDirty
  | transactionComplete t =>
    obtain ⟨⟨idle, -⟩, same⟩ := Option.ite_none_right_eq_some.mp ran
    cases same
    exact agrees.startComplete idle marked
  | transactionAbort t =>
    obtain ⟨idle, same⟩ := Option.ite_none_right_eq_some.mp ran
    cases same
    exact agrees.startAbort idle

theorem step {event : Trace.Event} (agrees : Agrees initial s) (sound : s.Sound event)
    (ran : s.step event = some s') : Agrees initial s' := by
  cases event with
  | action action =>
    obtain ⟨inPage, stepped⟩ := Option.ite_none_right_eq_some.mp ran
    obtain ⟨state, next, rfl⟩ := Option.map_eq_some_iff.mp stepped
    exact agrees.action inPage sound next
  | read h offset value =>
    obtain ⟨⟨member, idle, rfl⟩, same⟩ := Option.ite_none_right_eq_some.mp ran
    cases same
    exact agrees.read member idle offset

end Agrees

/-- The next sections of a call. -/
def Trace.sections (t : UInt64) (n : Nat) : List Trace.Event :=
  List.replicate n (.action (.step t .proceed))

/-- Transaction 2 changes a page beside transaction 1, and reads what 1 has left when 1 is done. -/
def Trace.handedOver : List Trace.Event :=
  .action (.fixPage 1 0 .exclusive) :: Trace.sections 1 7 ++
  .action (.fixPage 2 1 .exclusive) :: Trace.sections 2 7 ++
  .action (.write ⟨1, 0, .exclusive, 0⟩ 0 7) :: .action (.write ⟨2, 1, .exclusive, 1⟩ 1 5) ::
  .action (.unfixPage ⟨1, 0, .exclusive, 0⟩ true) :: .action (.transactionComplete 1) ::
  Trace.sections 1 6 ++ .action (.fixPage 2 0 .shared) :: Trace.sections 2 6 ++
  .read ⟨2, 0, .shared, 0⟩ 0 7 :: .action (.unfixPage ⟨2, 1, .exclusive, 1⟩ true) ::
  .action (.transactionComplete 2) :: Trace.sections 2 9

end Isolation

end BuzzDB.Locking
