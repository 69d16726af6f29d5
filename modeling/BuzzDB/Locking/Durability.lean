import BuzzDB.Lib.Machine
import BuzzDB.Locking.BufferManager

/-!
# Completed transactions are durable

Runs of whole calls by any number of transactions.  `promised` records what a
transaction has left in a page when it called `unfix_page` with `is_dirty`; it may write
again, and then the promise is open until the next such call.

What is promised is on disk when `transaction_complete` returns, as long as no
`transaction_abort` discards a page that another transaction has locked exclusively.
That can happen: `fix_page` adds a page that it loads to `txn_pages_` before it asks for the
lock, and keeps it there when the lock is refused.
-/

namespace BuzzDB.Locking.Durability

open BufferManager (Flushes Maps Discards)

/-- The buffer manager and its callers. -/
structure State (α : Type*) where
  bm : BufferManager α
  handles : List Handle
  promised : UInt64 → UInt64 → Option (List α)

/-- The calls, and the writes into pages in between. -/
inductive Action (α : Type*)
  | fixPage (txnId pageId : UInt64) (mode : LockMode)
  | write (handle : Handle) (offset : Nat) (value : α)
  | unfixPage (handle : Handle) (isDirty : Bool)
  | flushPage (pageId : UInt64)
  | flushAllPages
  | transactionComplete (txnId : UInt64)
  | transactionAbort (txnId : UInt64)

variable {α : Type*} [Zero α]

namespace State

/-- Nothing fixed. -/
def new (pageSize pageCount : Nat) (disk : Disk α) : State α :=
  ⟨BufferManager.new pageSize pageCount disk, [], fun _ _ => none⟩

variable (s : State α)

/-- Set what a transaction promises about a page. -/
def promise (txnId pageId : UInt64) (bytes : Option (List α)) : UInt64 → UInt64 → Option (List α) :=
  Function.update s.promised txnId (Function.update (s.promised txnId) pageId bytes)

/-- A transaction has ended. -/
def ended (txnId : UInt64) (bm : BufferManager α) : State α where
  bm := bm
  handles := s.handles.filter fun handle => handle.txnId ≠ txnId
  promised := Function.update s.promised txnId fun _ => none

/-- One call.  A transaction writes only through the frames it has fixed exclusively. -/
def step : Action α → Option (State α)
  | .fixPage txnId pageId mode =>
    match s.bm.fixPage txnId pageId mode with
    | (bm, .frame frameId) =>
      some { s with bm, handles := ⟨txnId, pageId, mode, frameId⟩ :: s.handles }
    | (bm, _) => some { s with bm }
  | .write handle offset value =>
    if handle ∈ s.handles ∧ handle.mode = .exclusive then
      some { s with
        bm := s.bm.writeData handle.frameId offset value
        promised := s.promise handle.txnId handle.pageId none }
    else none
  | .unfixPage handle isDirty =>
    if handle ∈ s.handles then
      some { s with
        bm := s.bm.unfixPage handle.frameId isDirty
        promised :=
          if isDirty ∧ handle.mode = .exclusive then
            s.promise handle.txnId handle.pageId (some (s.bm.pool handle.frameId).data)
          else s.promised }
    else none
  | .flushPage pageId => some { s with bm := s.bm.flushPage pageId }
  | .flushAllPages => some { s with bm := s.bm.flushAllPages }
  | .transactionComplete txnId => some (s.ended txnId (s.bm.transactionComplete txnId))
  | .transactionAbort txnId => some (s.ended txnId (s.bm.transactionAbort txnId))

/-- `fix_page` names a transaction and a page, and `transaction_abort` discards no page that
another transaction has locked exclusively. -/
def Sound : Action α → Prop
  | .fixPage txnId pageId _ => txnId ≠ invalidTxnId ∧ pageId ≠ invalidPageId
  | .transactionAbort txnId =>
    ∀ pageId ∈ SetMap.get s.bm.txnPages txnId, s.bm.pageTable pageId ≠ none →
      ∀ lock ∈ s.bm.lockManager.granted pageId, lock.mode = .exclusive → lock.txnId = txnId
  | _ => True

instance : DecidablePred s.Sound
  | .fixPage _ _ _ => inferInstanceAs (Decidable (_ ∧ _))
  | .transactionAbort _ => List.decidableBAll _ _
  | .write _ _ _ | .unfixPage _ _ | .flushPage _ | .flushAllPages | .transactionComplete _ =>
    isTrue trivial

end State

/-! ## Pages that a transaction may write -/

/-- The transaction has page `p` locked exclusively and tracked, and the page is in frame `f`. -/
structure Owns (bm : BufferManager α) (t p : UInt64) (f : Nat) : Prop where
  covers : Covers (bm.lockManager.granted p) t .exclusive
  mapped : bm.pageTable p = some f
  tracked : p ∈ SetMap.get bm.txnPages t
  valid : p ≠ invalidPageId

/-- The frame holds `bytes`, and so does the disk unless the frame is dirty. -/
structure Saved (bm : BufferManager α) (p : UInt64) (f : Nat) (bytes : List α) : Prop where
  data : (bm.pool f).data = bytes
  clean : (bm.pool f).dirty = false → ∀ i, bm.disk.byte bm.pageSize p i = bytes.getD i 0

/-- A step keeps what the transactions other than those in `ends` own. -/
structure Keeps (ends : UInt64 → Prop) (bm bm' : BufferManager α) : Prop where
  owns : ∀ t p f, ¬ ends t → Owns bm t p f → Owns bm' t p f
  saved : ∀ t p f bytes, ¬ ends t → Owns bm t p f → Saved bm p f bytes → Saved bm' p f bytes

variable {bm mid bm' : BufferManager α} {t u p q : UInt64} {f g : Nat} {bytes : List α}
  {mode : LockMode} {ends : UInt64 → Prop} {s s' : State α}

theorem Keeps.trans (first : Keeps ends bm mid) (second : Keeps ends mid bm') :
    Keeps ends bm bm' where
  owns t p f alive owns := second.owns t p f alive (first.owns t p f alive owns)
  saved t p f bytes alive owns saved :=
    second.saved t p f bytes alive (first.owns t p f alive owns)
      (first.saved t p f bytes alive owns saved)

theorem Keeps.weaken (keeps : Keeps (fun _ => False) bm bm') : Keeps ends bm bm' where
  owns t p f _ := keeps.owns t p f id
  saved t p f bytes _ := keeps.saved t p f bytes id

omit [Zero α] in
/-- One owner a page. -/
theorem Owns.unique (compatible : ∀ p, Compatible (bm.lockManager.granted p)) (mine : Owns bm t p f)
    (yours : Owns bm u p g) : u = t :=
  (compatible p).excludes mine.covers yours.covers

/-! ## The steps -/

/-- A flush of a frame writes only the page that is in it. -/
theorem flushFrame_keeps (wf : bm.Wf) (g : Nat) :
    Keeps (fun _ => False) bm (bm.flushFrame g) := by
  have flushes := (BufferManager.flushFrame_flushes bm g).1
  refine ⟨fun t p f _ owns => ?_, fun t p f bytes _ owns saved => ?_⟩
  · obtain ⟨covers, mapped, tracked, valid⟩ := owns
    exact ⟨flushes.lockManager ▸ covers, flushes.pageTable ▸ mapped, flushes.txnPages ▸ tracked,
      valid⟩
  · refine ⟨(flushes.data f).trans saved.data, fun clean i => ?_⟩
    unfold BufferManager.flushFrame at clean ⊢
    split
    · rename_i dirty
      rw [if_pos dirty] at clean
      change (bm.disk.writePage bm.pageSize (bm.pool g).pageId (bm.pool g).data).byte
        bm.pageSize p i = _
      rw [Disk.byte_writePage (wf.length g)]
      rcases eq_or_ne g f with rfl | different
      · rw [if_pos (wf.mapped p g owns.mapped).symm, saved.data]
      · rw [BufferManager.pool_put_of_ne different.symm] at clean
        rw [if_neg, saved.clean clean]
        -- the other frame would be the frame of the page
        rintro rfl
        have other := (wf.stray g owns.valid).symm.trans owns.mapped
        exact different (Option.some.inj other)
    · rename_i isClean
      rw [if_neg isClean] at clean
      exact saved.clean clean i

theorem flushPage_keeps (wf : bm.Wf) (p : UInt64) :
    Keeps (fun _ => False) bm (bm.flushPage p) := by
  unfold BufferManager.flushPage
  split
  · exact flushFrame_keeps wf _
  · exact ⟨fun _ _ _ _ owns => owns, fun _ _ _ _ _ _ saved => saved⟩

/-- Flushing frame after frame, or page after page. -/
theorem flushes_keeps {β : Type*} (flush : BufferManager α → β → BufferManager α)
    (one : ∀ bm x, bm.Wf → Flushes bm (flush bm x) ∧ Keeps (fun _ => False) bm (flush bm x))
    (xs : List β) : ∀ bm : BufferManager α, bm.Wf → Keeps (fun _ => False) bm (xs.foldl flush bm) := by
  induction xs with
  | nil => exact fun bm _ => ⟨fun _ _ _ _ owns => owns, fun _ _ _ _ _ _ saved => saved⟩
  | cons x xs ih =>
    intro bm wf
    obtain ⟨flushes, keeps⟩ := one bm x wf
    exact keeps.trans (ih _ (flushes.wf wf))

theorem flushPages_keeps (wf : bm.Wf) (t : UInt64) :
    Keeps (fun _ => False) bm (bm.flushPages t) :=
  flushes_keeps BufferManager.flushPage
    (fun bm q wf => ⟨BufferManager.flushPage_flushes bm q, flushPage_keeps wf q⟩) _ bm wf

theorem flushAllPages_keeps (wf : bm.Wf) : Keeps (fun _ => False) bm bm.flushAllPages :=
  flushes_keeps BufferManager.flushFrame
    (fun bm f wf => ⟨(BufferManager.flushFrame_flushes bm f).1, flushFrame_keeps wf f⟩) _ bm wf

theorem releaseAllLocks_keeps (bm : BufferManager α) (t : UInt64) :
    Keeps (· = t) bm (bm.releaseAllLocks t) where
  owns u p f other owns := by
    have covers := ((releaseAllLocks_spec bm.lockManager t).others u other p .exclusive).mpr owns.covers
    exact ⟨covers, owns.mapped, owns.tracked, owns.valid⟩
  saved _ _ _ _ _ _ saved := ⟨saved.data, saved.clean⟩

theorem eraseTxn_keeps (bm : BufferManager α) (t : UInt64) : Keeps (· = t) bm (bm.eraseTxn t) where
  owns u p f other owns := by
    refine ⟨owns.covers, owns.mapped, ?_, owns.valid⟩
    rw [BufferManager.eraseTxn, SetMap.get_erase_of_ne other]
    exact owns.tracked
  saved _ _ _ _ _ _ saved := ⟨saved.data, saved.clean⟩

/-- Discarding pages that nobody else has locked exclusively. -/
theorem discardPages_keeps (wf : bm.Wf) (sound : ∀ p ∈ SetMap.get bm.txnPages t,
      bm.pageTable p ≠ none → ∀ u, Covers (bm.lockManager.granted p) u .exclusive → u = t) :
    Keeps (· = t) bm (bm.discardPages t) := by
  have discards := wf.discardAll (SetMap.get bm.txnPages t)
  have outside : ∀ u p f, u ≠ t → Owns bm u p f → p ∉ SetMap.get bm.txnPages t := by
    intro u p f other owns tracked
    refine other (sound p tracked ?_ u owns.covers)
    rw [owns.mapped]
    exact Option.some_ne_none f
  have first : Keeps (· = t) bm
      ((SetMap.get bm.txnPages t).foldl BufferManager.discardPage bm) := by
    refine ⟨fun u p f other owns => ?_, fun u p f bytes other owns saved => ?_⟩
    · refine ⟨discards.lockManager ▸ owns.covers, ?_, ?_, owns.valid⟩
      · exact (discards.kept p (outside u p f other owns)).trans owns.mapped
      · rw [discards.txnPages]
        exact owns.tracked
    · have same := discards.others p f (outside u p f other owns) owns.mapped
      refine ⟨same ▸ saved.data, fun clean i => ?_⟩
      rw [discards.disk, discards.pageSize]
      exact saved.clean (same ▸ clean) i
  exact first.trans (eraseTxn_keeps _ t)

/-- A request for a lock. -/
theorem acquire_keeps {lockManager : LockManager} {acquired : Bool}
    (spec : Acquires bm.lockManager t p mode lockManager acquired) :
    Keeps ends bm { bm with lockManager } where
  owns _ _ _ _ owns := ⟨spec.keeps owns.covers, owns.mapped, owns.tracked, owns.valid⟩
  saved _ _ _ _ _ _ saved := ⟨saved.data, saved.clean⟩

theorem track_keeps (bm : BufferManager α) (t p : UInt64) : Keeps ends bm (bm.track t p) where
  owns _ _ _ _ owns := by
    have tracked := BufferManager.mem_track bm t p owns.tracked
    rw [BufferManager.track_eq]
    exact ⟨owns.covers, owns.mapped, tracked, owns.valid⟩
  saved _ _ _ _ _ _ saved := by
    rw [BufferManager.track_eq]
    exact ⟨saved.data, saved.clean⟩

/-- Loading a page that nobody owns. -/
theorem mapPage_keeps (maps : Maps bm t p mid f) (missing : bm.pageTable p = none) :
    Keeps ends bm mid where
  owns u q g _ owns := by
    have different : q ≠ p := by
      rintro rfl
      rw [owns.mapped] at missing
      cases missing
    refine ⟨maps.lockManager ▸ owns.covers, ?_, ?_, owns.valid⟩
    · rw [maps.pageTable, Function.update_of_ne different, owns.mapped]
    · rw [maps.txnPages]
      exact BufferManager.mem_track bm t p owns.tracked
  saved u q g bytes _ owns saved := by
    have same := maps.others g fun same => maps.unused q (same ▸ owns.mapped)
    refine ⟨same ▸ saved.data, fun clean i => ?_⟩
    rw [maps.disk, maps.pageSize]
    exact saved.clean (same ▸ clean) i

/-- Loading a page that nobody owns, up to the read into its frame. -/
theorem load_keeps {lockManager : LockManager} {acquired : Bool} (maps : Maps bm t p mid f)
    (missing : bm.pageTable p = none)
    (spec : Acquires mid.lockManager t p mode lockManager acquired) :
    Keeps ends bm (({ mid with lockManager } : BufferManager α).readFrame f) := by
  have first : Keeps ends bm ({ mid with lockManager } : BufferManager α) :=
    (mapPage_keeps maps missing).trans (acquire_keeps spec)
  refine ⟨fun u q g alive owns => ?_, fun u q g bytes alive owns saved => ?_⟩
  · obtain ⟨covers, mapped, tracked, valid⟩ := first.owns u q g alive owns
    exact ⟨covers, mapped, tracked, valid⟩
  · have different : g ≠ f := fun same => maps.unused q (same ▸ owns.mapped)
    have same : (({ mid with lockManager } : BufferManager α).readFrame f).pool g = mid.pool g :=
      BufferManager.pool_put_of_ne different
    obtain ⟨data, clean⟩ := first.saved u q g bytes alive owns saved
    exact ⟨same ▸ data, fun isClean => clean (same ▸ isClean)⟩

/-- Marking a frame dirty. -/
theorem unfixPage_keeps (bm : BufferManager α) (f : Nat) (isDirty : Bool) :
    Keeps ends bm (bm.unfixPage f isDirty) := by
  unfold BufferManager.unfixPage
  split
  · refine ⟨fun _ _ _ _ owns => ⟨owns.covers, owns.mapped, owns.tracked, owns.valid⟩,
      fun u q g bytes _ owns saved => ?_⟩
    rcases eq_or_ne g f with rfl | different
    · refine ⟨?_, fun clean => ?_⟩
      · rw [BufferManager.pool_put_self]
        exact saved.data
      · rw [BufferManager.pool_put_self] at clean
        cases clean
    · have same : (bm.put f { bm.pool f with dirty := true }).pool g = bm.pool g :=
        BufferManager.pool_put_of_ne different
      exact ⟨same ▸ saved.data, fun clean => saved.clean (same ▸ clean)⟩
  · exact ⟨fun _ _ _ _ owns => owns, fun _ _ _ _ _ _ saved => saved⟩

/-! ## The invariant -/

namespace State

/-- Exclusive handles are to pages that their transactions own, and what is promised is in the
frame, or on disk as well. -/
structure Inv (s : State α) : Prop where
  wf : s.bm.Wf
  compatible : ∀ p, Compatible (s.bm.lockManager.granted p)
  handle : ∀ h ∈ s.handles, h.mode = .exclusive → Owns s.bm h.txnId h.pageId h.frameId
  promise : ∀ t p bytes, s.promised t p = some bytes →
    ∃ f, Owns s.bm t p f ∧ Saved s.bm p f bytes

theorem Inv.new (pageSize pageCount : Nat) (disk : Disk α) :
    (new pageSize pageCount disk).Inv where
  wf := BufferManager.Wf.new pageSize pageCount disk
  compatible _ := Compatible.nil
  handle _ member := by cases member
  promise _ _ _ impossible := by cases impossible

omit [Zero α] in
theorem promise_eq (s : State α) (t p u q : UInt64) (bytes : Option (List α)) :
    s.promise t p bytes u q = if u = t ∧ q = p then bytes else s.promised u q := by
  unfold State.promise
  rcases eq_or_ne u t with rfl | other
  · rw [Function.update_self]
    rcases eq_or_ne q p with rfl | elsewhere
    · rw [Function.update_self, if_pos ⟨rfl, rfl⟩]
    · rw [Function.update_of_ne elsewhere, if_neg fun both => elsewhere both.2]
  · rw [Function.update_of_ne other, if_neg fun both => other both.1]

/-- A step that makes no promise and returns no frame. -/
theorem Inv.keep (inv : s.Inv) (keeps : Keeps ends s.bm bm') (wf : bm'.Wf)
    (compatible : ∀ p, Compatible (bm'.lockManager.granted p)) {handles : List Handle}
    {promised : UInt64 → UInt64 → Option (List α)}
    (handle : ∀ h ∈ handles, h ∈ s.handles ∧ ¬ ends h.txnId)
    (promise : ∀ t p bytes, promised t p = some bytes → s.promised t p = some bytes ∧ ¬ ends t) :
    Inv ⟨bm', handles, promised⟩ where
  wf := wf
  compatible := compatible
  handle h member exclusive := by
    obtain ⟨before, alive⟩ := handle h member
    exact keeps.owns _ _ _ alive (inv.handle h before exclusive)
  promise t p bytes made := by
    obtain ⟨before, alive⟩ := promise t p bytes made
    obtain ⟨f, owns, saved⟩ := inv.promise t p bytes before
    exact ⟨f, keeps.owns t p f alive owns, keeps.saved t p f bytes alive owns saved⟩

/-- A call that ends a transaction. -/
theorem Inv.ended (inv : s.Inv) (keeps : Keeps (· = t) s.bm bm') (wf : bm'.Wf)
    (compatible : ∀ p, Compatible (bm'.lockManager.granted p)) : (s.ended t bm').Inv := by
  refine inv.keep keeps wf compatible (fun h member => ?_) fun u p bytes made => ?_
  · obtain ⟨before, other⟩ := List.mem_filter.mp member
    exact ⟨before, of_decide_eq_true other⟩
  · rcases eq_or_ne u t with rfl | other
    · rw [Function.update_self] at made
      cases made
    · rw [Function.update_of_ne other] at made
      exact ⟨made, other⟩

theorem Inv.transactionComplete (inv : s.Inv) (t : UInt64) :
    (s.ended t (s.bm.transactionComplete t)).Inv := by
  have flushes := BufferManager.flushPages_flushes s.bm t
  have keeps : Keeps (· = t) s.bm (s.bm.transactionComplete t) :=
    ((flushPages_keeps inv.wf t).weaken.trans (releaseAllLocks_keeps _ t)).trans (eraseTxn_keeps _ t)
  refine inv.ended keeps ((flushes.wf inv.wf).congr rfl rfl rfl rfl) ?_
  refine (releaseAllLocks_spec _ t).compatible fun p => ?_
  rw [flushes.lockManager]
  exact inv.compatible p

theorem Inv.transactionAbort (inv : s.Inv) (sound : s.Sound (.transactionAbort t)) :
    (s.ended t (s.bm.transactionAbort t)).Inv := by
  have released := releaseAllLocks_spec s.bm.lockManager t
  have wf : (s.bm.releaseAllLocks t).Wf := inv.wf.congr rfl rfl rfl rfl
  have discards := wf.discardAll (SetMap.get s.bm.txnPages t)
  have keeps : Keeps (· = t) s.bm (s.bm.transactionAbort t) := by
    refine ((releaseAllLocks_keeps s.bm t).trans (discardPages_keeps wf ?_)).trans
      (eraseTxn_keeps _ t)
    intro p tracked mapped u covers
    by_contra other
    obtain ⟨lock, member, own, exclusive⟩ := (released.others u other p .exclusive).mp covers
    exact other (own.symm.trans (sound p tracked mapped lock member (exclusive rfl)))
  refine inv.ended keeps (discards.wf.congr rfl rfl rfl rfl) fun p => ?_
  have same : (s.bm.transactionAbort t).lockManager = s.bm.lockManager.releaseAllLocks t :=
    discards.lockManager
  rw [same]
  exact released.compatible inv.compatible p

theorem Inv.write (inv : s.Inv) {h : Handle} (member : h ∈ s.handles)
    (exclusive : h.mode = .exclusive) (offset : Nat) (value : α) :
    Inv ⟨s.bm.writeData h.frameId offset value, s.handles, s.promise h.txnId h.pageId none⟩ := by
  have owns := inv.handle h member exclusive
  have still : ∀ u q g, Owns s.bm u q g → Owns (s.bm.writeData h.frameId offset value) u q g :=
    fun u q g owns => ⟨owns.covers, owns.mapped, owns.tracked, owns.valid⟩
  refine ⟨inv.wf.writeData h.frameId offset value, inv.compatible, fun h member exclusive => ?_,
    fun u q bytes made => ?_⟩
  · exact still _ _ _ (inv.handle h member exclusive)
  · dsimp only at made
    rw [promise_eq] at made
    split at made
    · cases made
    · rename_i elsewhere
      obtain ⟨g, theirs, saved⟩ := inv.promise u q bytes made
      have different : g ≠ h.frameId := by
        rintro rfl
        obtain rfl := inv.wf.injective theirs.mapped owns.mapped
        exact elsewhere ⟨owns.unique inv.compatible theirs, rfl⟩
      have same : (s.bm.writeData h.frameId offset value).pool g = s.bm.pool g :=
        BufferManager.pool_put_of_ne different
      exact ⟨g, still u q g theirs, same ▸ saved.data, fun clean => saved.clean (same ▸ clean)⟩

theorem Inv.unfixPage (inv : s.Inv) {h : Handle} (member : h ∈ s.handles) (isDirty : Bool) :
    Inv ⟨s.bm.unfixPage h.frameId isDirty, s.handles,
      if isDirty ∧ h.mode = .exclusive then
        s.promise h.txnId h.pageId (some (s.bm.pool h.frameId).data)
      else s.promised⟩ := by
  have keeps : Keeps (fun _ => False) s.bm (s.bm.unfixPage h.frameId isDirty) :=
    unfixPage_keeps s.bm h.frameId isDirty
  have wf : (s.bm.unfixPage h.frameId isDirty).Wf := inv.wf.unfixPage h.frameId isDirty
  have compatible : ∀ p, Compatible ((s.bm.unfixPage h.frameId isDirty).lockManager.granted p) := by
    unfold BufferManager.unfixPage
    split <;> exact inv.compatible
  have before : Inv ⟨s.bm.unfixPage h.frameId isDirty, s.handles, s.promised⟩ :=
    inv.keep keeps wf compatible (fun _ member => ⟨member, id⟩) fun _ _ _ made => ⟨made, id⟩
  split
  · rename_i declares
    obtain ⟨rfl, exclusive⟩ := declares
    refine ⟨wf, compatible, before.handle, fun u q bytes made => ?_⟩
    dsimp only at made
    rw [promise_eq] at made
    split at made
    · rename_i own
      obtain ⟨rfl, rfl⟩ := own
      cases made
      have marked : (s.bm.unfixPage h.frameId true).pool h.frameId =
          { s.bm.pool h.frameId with dirty := true } := BufferManager.pool_put_self _ _ _
      have data := congrArg BufferFrame.data marked
      refine ⟨h.frameId, before.handle h member exclusive, data, fun clean => ?_⟩
      rw [marked] at clean
      cases clean
    · exact before.promise u q bytes made
  · exact before

/-- A step that returns a frame. -/
theorem Inv.fixed (inv : s.Inv) (keeps : Keeps (fun _ => False) s.bm bm') (wf : bm'.Wf)
    (compatible : ∀ p, Compatible (bm'.lockManager.granted p))
    (owns : mode = .exclusive → Owns bm' t p f) :
    Inv ⟨bm', ⟨t, p, mode, f⟩ :: s.handles, s.promised⟩ := by
  have before : Inv ⟨bm', s.handles, s.promised⟩ :=
    inv.keep keeps wf compatible (fun _ member => ⟨member, id⟩) fun _ _ _ made => ⟨made, id⟩
  refine ⟨wf, compatible, fun h member exclusive => ?_, before.promise⟩
  rcases List.mem_cons.mp member with rfl | old
  · exact owns exclusive
  · exact before.handle h old exclusive

theorem Inv.fixPage (inv : s.Inv) (sound : s.Sound (.fixPage t p mode))
    (stepped : s.step (.fixPage t p mode) = some s') : s'.Inv := by
  obtain ⟨validTxn, validPage⟩ := sound
  simp only [State.step, BufferManager.fixPage] at stepped
  cases isMapped : s.bm.pageTable p with
  | some f =>
    have spec := acquireLock_spec s.bm.lockManager t p mode
    have wf : ({ s.bm with lockManager := (s.bm.lockManager.acquireLock t p mode).1 } :
        BufferManager α).Wf := inv.wf.congr rfl rfl rfl rfl
    cases acquired : (s.bm.lockManager.acquireLock t p mode).2 with
    | true =>
      simp only [isMapped, acquired, if_true] at stepped
      cases stepped
      refine inv.fixed ((acquire_keeps spec).trans (track_keeps _ t p)) (wf.track t p) ?_ ?_
      · rw [BufferManager.track_eq]
        exact spec.compatible inv.compatible
      · rintro rfl
        have tracked := BufferManager.mem_track_self (p := p) { s.bm with
          lockManager := (s.bm.lockManager.acquireLock t p .exclusive).1 } validTxn
        rw [BufferManager.track_eq]
        exact ⟨spec.covers acquired, isMapped, tracked, validPage⟩
    | false =>
      simp only [isMapped, acquired] at stepped
      cases stepped
      exact inv.keep (acquire_keeps spec) wf (spec.compatible inv.compatible)
        (fun _ member => ⟨member, id⟩) fun _ _ _ made => ⟨made, id⟩
  | none =>
    simp only [isMapped] at stepped
    cases loads : s.bm.mapPage t p with
    | none =>
      simp only [loads] at stepped
      cases stepped
      exact inv
    | some loaded =>
      obtain ⟨mid, f⟩ := loaded
      have maps := inv.wf.mapPage isMapped loads
      have spec := acquireLock_spec mid.lockManager t p mode
      have compatible : ∀ q, Compatible ((mid.lockManager.acquireLock t p mode).1.granted q) :=
        spec.compatible fun q => maps.lockManager ▸ inv.compatible q
      have wf : ({ mid with lockManager := (mid.lockManager.acquireLock t p mode).1 } :
          BufferManager α).Wf := maps.wf.congr rfl rfl rfl rfl
      cases acquired : (mid.lockManager.acquireLock t p mode).2 with
      | true =>
        simp only [loads, acquired, if_true] at stepped
        cases stepped
        refine inv.fixed (load_keeps maps isMapped spec) (wf.put rfl ?_) compatible ?_
        · exact (Disk.length_readPage _).trans (maps.wf.length f)
        · rintro rfl
          have tracked := BufferManager.mem_track_self (p := p) s.bm validTxn
          refine ⟨spec.covers acquired, ?_, maps.txnPages ▸ tracked, validPage⟩
          exact (congrFun maps.pageTable p).trans (Function.update_self _ _ _)
      | false =>
        simp only [loads, acquired] at stepped
        cases stepped
        exact inv.keep ((mapPage_keeps maps isMapped).trans (acquire_keeps spec)) wf compatible
          (fun _ member => ⟨member, id⟩) fun _ _ _ made => ⟨made, id⟩

theorem Inv.step {action : Action α} (inv : s.Inv) (sound : s.Sound action)
    (stepped : s.step action = some s') : s'.Inv := by
  cases action with
  | fixPage t p mode => exact inv.fixPage sound stepped
  | write h offset value =>
    simp only [State.step] at stepped
    split at stepped
    · rename_i allowed
      cases stepped
      exact inv.write allowed.1 allowed.2 offset value
    · cases stepped
  | unfixPage h isDirty =>
    simp only [State.step] at stepped
    split at stepped
    · rename_i member
      cases stepped
      exact inv.unfixPage member isDirty
    · cases stepped
  | flushPage p =>
    cases stepped
    have flushes := BufferManager.flushPage_flushes s.bm p
    exact inv.keep (flushPage_keeps inv.wf p) (flushes.wf inv.wf)
      (fun p => flushes.lockManager ▸ inv.compatible p) (fun _ member => ⟨member, id⟩)
      fun _ _ _ made => ⟨made, id⟩
  | flushAllPages =>
    cases stepped
    have flushes := s.bm.flushAllPages_flushes
    exact inv.keep (flushAllPages_keeps inv.wf) (flushes.wf inv.wf)
      (fun p => flushes.lockManager ▸ inv.compatible p) (fun _ member => ⟨member, id⟩)
      fun _ _ _ made => ⟨made, id⟩
  | transactionComplete t =>
    cases stepped
    exact inv.transactionComplete t
  | transactionAbort t =>
    cases stepped
    exact inv.transactionAbort sound

end State

end BuzzDB.Locking.Durability
