import BuzzDB.Locking.FixSections

/-!
# No dirty reads in sound runs

The sections of `transaction_complete` and `transaction_abort` keep the invariant, and so
do runs: `isolated_of_sound`.  The last part is a run that reads the bytes of an aborted
transaction.
-/

namespace BuzzDB.Locking.Isolation

open BufferManager (Flushes Maps Discards)

namespace State

variable {s s' : State} {t u p q : UInt64} {f g : Nat} {mode other : LockMode} {w : Writer}

/-! ## Ending a transaction -/

/-- The frames of a transaction that ends. -/
theorem mem_dropHandles {h : Handle} (member : h ∈ (s.dropHandles t).handles) :
    h ∈ s.handles ∧ h.txnId ≠ t := by
  obtain ⟨before, other⟩ := List.mem_filter.mp member
  exact ⟨before, of_decide_eq_true other⟩

theorem Inv.startAbort (inv : s.Inv) (idle : s.pcs t = .idle) :
    ((s.dropHandles t).move t (.aborting .snapshot)).Inv := by
  have rests := (inv.all t).resting idle
  have here : Function.update s.pcs t (.aborting .snapshot) t = .aborting .snapshot :=
    Function.update_self _ _ _
  have frame : Frame s ((s.dropHandles t).move t (.aborting .snapshot)) t :=
    .same inv (fun u different => Function.update_of_ne different _ _) (fun _ _ => id) rfl rfl rfl
      rfl rfl (fun _ => id) fun h member _ => (mem_dropHandles member).1
  refine inv.frame frame ⟨?_, (inv.all t).mapped, fun q covers => Or.inr (rests.locked q covers),
    fun q covers => Or.inr (rests.tracked q covers), fun q member => Or.inl (rests.claims q member),
    fun q loads => absurd loads (rests.loading q),
    fun h member own => absurd own (mem_dropHandles member).2⟩ inv.wf inv.compatible
    (fun q g there read byte inside w wrote => ?_) inv.disk
  · change At _ t (Function.update s.pcs t _ t)
    rw [here]
    exact fun _ _ => trivial
  · refine (inv.bytes q g there read byte inside w wrote).imp_right (Owes.same frame rfl rfl ?_)
    rw [idle]
    exact id

/-- What the flush of a completing transaction writes. -/
theorem mem_flushed {segment : UInt16} {byte : Byte} (pages : List UInt64) :
    ∀ bm : BufferManager Byte, byte ∈ (pages.foldl BufferManager.flushPage bm).disk segment →
      byte ∈ bm.disk segment ∨ byte = 0 ∨
        ∃ p ∈ pages, ∃ f, bm.pageTable p = some f ∧ byte ∈ (bm.pool f).data := by
  induction pages with
  | nil => exact fun bm member => Or.inl member
  | cons p pages ih =>
    intro bm member
    have flushes := BufferManager.flushPage_flushes bm p
    rcases ih _ member with onDisk | zero | ⟨q, inPages, f, isMapped, inside⟩
    · unfold BufferManager.flushPage at onDisk
      split at onDisk
      · rename_i f isMapped
        unfold BufferManager.flushFrame at onDisk
        split at onDisk
        · rcases Disk.mem_writePage onDisk with before | zero | written
          · exact Or.inl before
          · exact Or.inr (Or.inl zero)
          · exact Or.inr (Or.inr ⟨p, List.mem_cons_self, f, isMapped, written⟩)
        · exact Or.inl onDisk
      · exact Or.inl onDisk
    · exact Or.inr (Or.inl zero)
    · rw [flushes.pageTable] at isMapped
      rw [flushes.data] at inside
      exact Or.inr (Or.inr ⟨q, List.mem_cons_of_mem p inPages, f, isMapped, inside⟩)

theorem Inv.startComplete (inv : s.Inv) (idle : s.pcs t = .idle) : (s.startComplete t).Inv := by
  have rests := (inv.all t).resting idle
  have flushes := BufferManager.flushPages_flushes s.bm t
  have here : Function.update s.pcs t (.completing .snapshot) t = .completing .snapshot :=
    Function.update_self _ _ _
  have granted : ∀ q, (s.startComplete t).granted q = s.granted q := fun q =>
    congrArg (LockManager.granted · q) flushes.lockManager
  have frame : Frame s (s.startComplete t) t :=
    .same inv (fun u different => Function.update_of_ne different _ _) (fun _ _ => id)
      flushes.lockManager flushes.pageTable flushes.txnPages rfl rfl
      (fun w member => List.mem_cons_of_mem _ member) fun h member _ => (mem_dropHandles member).1
  have mine : s.writer t ∈ (s.startComplete t).completed := List.mem_cons_self
  have before : ∀ {w}, w ∈ s.completed → w ∈ (s.startComplete t).completed :=
    fun member => List.mem_cons_of_mem _ member
  refine inv.frame frame ⟨?_, fun q covers => ?_, fun q covers => ?_, fun q covers => ?_,
    fun q member => ?_, fun q loads => absurd loads (rests.loading q),
    fun h member own => absurd own (mem_dropHandles member).2⟩ (flushes.wf inv.wf) (fun q => ?_)
    (fun q g there read byte inside w wrote => ?_) (fun segment byte member w wrote => ?_)
  · change At _ t (Function.update s.pcs t _ t)
    rw [here]
    exact ⟨mine, fun _ _ => trivial⟩
  · rw [granted] at covers
    change (s.bm.flushPages t).pageTable q ≠ none
    rw [flushes.pageTable]
    exact (inv.all t).mapped q covers
  · rw [granted] at covers
    refine Or.inr ?_
    change q ∈ SetMap.get (s.bm.flushPages t).lockManager.txnLocks t
    rw [flushes.lockManager]
    exact rests.locked q covers
  · rw [granted] at covers
    refine Or.inr ?_
    change q ∈ SetMap.get (s.bm.flushPages t).txnPages t
    rw [flushes.txnPages]
    exact rests.tracked q covers
  · change q ∈ SetMap.get (s.bm.flushPages t).txnPages t at member
    rw [flushes.txnPages] at member
    rw [granted]
    exact Or.inl (rests.claims q member)
  · rw [granted]
    exact inv.compatible q
  · change (s.bm.flushPages t).pageTable q = some g at there
    change byte ∈ ((s.bm.flushPages t).pool g).data at inside
    rw [flushes.pageTable] at there
    rw [flushes.data] at inside
    rcases inv.bytes q g there read byte inside w wrote with done | owes
    · exact Or.inl (before done)
    · refine Or.inr (Owes.same frame (granted q) rfl ?_ owes)
      rw [idle]
      exact id
  · rcases mem_flushed _ s.bm member with onDisk | rfl | ⟨q, inPages, f, isMapped, inside⟩
    · exact before (inv.disk segment byte onDisk w wrote)
    · cases wrote
    · have covers := rests.claims q inPages
      have read := inv.read_of_covers rests covers
      rcases inv.bytes_of_covers read covers isMapped inside wrote with done | rfl
      · exact before done
      · exact mine

/-- A transaction that has begun to end. -/
structure Ending (s : State) (t : UInt64) : Prop where
  locked : ∀ p, Covers (s.granted p) t .shared → p ∈ SetMap.get s.bm.lockManager.txnLocks t
  tracked : ∀ p, Covers (s.granted p) t .shared → p ∈ SetMap.get s.bm.txnPages t
  loading : ∀ p, s.loading p ≠ some t
  handle : ∀ h ∈ s.handles, h.txnId ≠ t

theorem Local.ending (holds : s.Local t) (ends : (s.pcs t).Ends) : s.Ending t where
  locked p covers := (holds.locked p covers).resolve_left (Pc.Ends.not_records ends)
  tracked p covers := (holds.tracked p covers).resolve_left (Pc.Ends.not_records ends)
  loading p loads := Pc.Ends.not_loads ends (holds.loading p loads).2.1
  handle h member own := (holds.handle h member own).2.2 ends

/-- Where all that a transaction has left is to end. -/
theorem Ending.local (ending : s.Ending t) (place : s.At t (s.pcs t)) (ends : (s.pcs t).Ends)
    (mapped : ∀ p, Covers (s.granted p) t .shared → s.bm.pageTable p ≠ none) : s.Local t where
  place := place
  mapped := mapped
  locked p covers := Or.inr (ending.locked p covers)
  tracked p covers := Or.inr (ending.tracked p covers)
  claims _ _ := Or.inr (Or.inr ends)
  loading p loads := absurd loads (ending.loading p)
  handle h member own := absurd own (ending.handle h member)

/-! ## Releasing the locks -/

/-- A section of a release: the bytes of the transaction are those of a completed one, or are in
pages that it is going to discard. -/
theorem Inv.release {lm : LockManager} {outcome : Outcome ReleasePc} {pc : Pc} (inv : s.Inv)
    (ends : (s.pcs t).Ends) (ends' : pc.Ends)
    (releases : ReleaseStep s.bm.lockManager t lm outcome)
    (place : At { s.move t pc with bm := { s.bm with lockManager := lm } } t pc)
    (settled : s.writer t ∈ s.completed ∨ pc.Aborts) :
    Inv { s.move t pc with bm := { s.bm with lockManager := lm } } := by
  have ending := (inv.all t).ending ends
  have here : Function.update s.pcs t pc t = pc := Function.update_self _ _ _
  have before : ∀ q, Covers (lm.granted q) t .shared → Covers (s.granted q) t .shared := by
    rintro q ⟨lock, member, own⟩
    exact ⟨lock, releases.shrinks q lock member, own⟩
  have empty : ∀ q, s.granted q = [] → lm.granted q = [] := by
    intro q none
    refine List.eq_nil_iff_forall_not_mem.mpr fun lock member => ?_
    have inside : lock ∈ s.granted q := releases.shrinks q lock member
    rw [none] at inside
    cases inside
  have frame : Frame s { s.move t pc with bm := { s.bm with lockManager := lm } } t := {
    pcs := fun u different => Function.update_of_ne different _ _
    mutex := fun _ _ => id
    covers := releases.covers
    pageTable := fun _ _ _ _ _ isMapped => isMapped
    loading := fun _ _ _ => Iff.rfl
    gains := fun u different q mode loads mine => different
      (((inv.all u).loading q loads).2.2.1 t _ (before q mine.shared)).symm
    txnPages := fun _ _ => rfl
    txnLocks := releases.txnLocks
    life := fun _ _ => rfl
    completed := fun _ => id
    handles := fun _ member _ => member }
  refine inv.frame frame (Ending.local ⟨releases.locked, fun q covers => ?_, ending.loading,
    ending.handle⟩ ?_ ?_ fun q covers => ?_) ⟨inv.wf.mapped, inv.wf.stray, inv.wf.free,
      inv.wf.nodup, inv.wf.length⟩ (releases.compatible inv.compatible)
    (fun q g there read byte inside w wrote => ?_) inv.disk
  · exact ending.tracked q (before q covers)
  · change At _ t (Function.update s.pcs t _ t)
    rw [here]
    exact place
  · change (Function.update s.pcs t _ t).Ends
    rw [here]
    exact ends'
  · exact (inv.all t).mapped q (before q covers)
  · rcases inv.bytes q g there read byte inside w wrote with done | owes
    · exact Or.inl done
    · rcases eq_or_ne w.txnId t with isT | different
      · obtain ⟨txnId, life⟩ := w
        obtain rfl : txnId = t := isT
        obtain ⟨alive, holds⟩ := owes
        obtain rfl : life = s.life txnId := alive
        rcases settled with done | aborts
        · exact Or.inl done
        · refine Or.inr ⟨rfl, ?_⟩
          by_cases still : Covers (lm.granted q) txnId .exclusive
          · exact Or.inl still
          · refine Or.inr ⟨?_, ?_, ?_⟩
            · rcases holds with exclusive | ⟨none, -⟩
              · -- nobody else has a lock beside it
                obtain ⟨lock, member, own, isExclusive⟩ := exclusive
                have alone := (inv.compatible q).alone lock member (isExclusive rfl)
                refine List.eq_nil_iff_forall_not_mem.mpr fun lock' member' => still ?_
                have same := releases.shrinks q lock' member'
                change lock' ∈ s.granted q at same
                rw [alone, List.mem_singleton] at same
                exact ⟨lock', member', same ▸ own, same ▸ isExclusive⟩
              · exact empty q none
            · rcases holds with exclusive | window
              · exact ending.tracked q exclusive.shared
              · exact window.2.1
            · change (Function.update s.pcs txnId _ txnId).Aborts
              rw [here]
              exact aborts
      · exact Or.inr (frame.owes different (empty q) owes)

theorem Inv.complete {pc : ReleasePc} {lm : LockManager} {outcome : Outcome ReleasePc}
    (inv : s.Inv) (isAt : s.pcs t = .completing pc)
    (ran : pc.step s.bm.lockManager t = some (lm, outcome)) :
    (s.released t .completing (.ending true) lm outcome).Inv := by
  have ends : (s.pcs t).Ends := by
    rw [isAt]
    trivial
  obtain ⟨done, pending⟩ := (inv.all t).place_at isAt
  have releases := ReleasePc.step_releases ((inv.all t).ending ends).locked pending ran
  cases outcome with
  | next next =>
    refine inv.release ends trivial releases ⟨done, fun p covers => ?_⟩ (Or.inl done)
    obtain ⟨pc', same, isPending⟩ := releases.pending p covers
    cases same
    exact isPending
  | _ =>
    refine inv.release ends trivial releases ⟨fun _ => done, fun p covers => ?_⟩ (Or.inl done)
    obtain ⟨_, impossible, -⟩ := releases.pending p covers
    cases impossible

theorem Inv.abort {pc : ReleasePc} {lm : LockManager} {outcome : Outcome ReleasePc}
    (inv : s.Inv) (isAt : s.pcs t = .aborting pc)
    (ran : pc.step s.bm.lockManager t = some (lm, outcome)) :
    (s.released t .aborting .discarding lm outcome).Inv := by
  have ends : (s.pcs t).Ends := by
    rw [isAt]
    trivial
  have pending := (inv.all t).place_at isAt
  have releases := ReleasePc.step_releases ((inv.all t).ending ends).locked pending ran
  cases outcome with
  | next next =>
    refine inv.release ends trivial releases (fun p covers => ?_) (Or.inr trivial)
    obtain ⟨pc', same, isPending⟩ := releases.pending p covers
    cases same
    exact isPending
  | _ =>
    refine inv.release ends trivial releases (fun p covers => ?_) (Or.inr trivial)
    obtain ⟨_, impossible, -⟩ := releases.pending p covers
    cases impossible

/-! ## Discarding the pages, and forgetting the transaction -/

/-- A transaction that has released its locks owes a page only if it is going to discard it. -/
theorem Owes.discards (unlocked : ∀ p, ¬ Covers (s.granted p) t .shared) (isT : w.txnId = t)
    (owes : s.Owes p w) : p ∈ SetMap.get s.bm.txnPages t ∧ (s.pcs t).Aborts := by
  obtain ⟨-, covers | window⟩ := owes
  · exact absurd (isT ▸ covers.shared) (unlocked p)
  · exact isT ▸ window.2

theorem Inv.discard (inv : s.Inv) (isAt : s.pcs t = .discarding) (free : s.poolMutex = none)
    (sound : ∀ p ∈ SetMap.get s.bm.txnPages t, s.bm.pageTable p ≠ none →
      ∀ lock ∈ s.granted p, lock.txnId = t) : (s.discarded t).Inv := by
  have ending := (inv.all t).ending (isAt ▸ trivial)
  have unlocked : ∀ p, ¬ Covers (s.granted p) t .shared := (inv.all t).place_at isAt
  have discards := inv.wf.discardAll (SetMap.get s.bm.txnPages t)
  have here : Function.update s.pcs t (.ending false) t = .ending false :=
    Function.update_self _ _ _
  have granted : ∀ q, (s.discarded t).granted q = s.granted q := fun q =>
    congrArg (LockManager.granted · q) discards.lockManager
  have frame : Frame s (s.discarded t) t := by
    refine {
      pcs := fun u different => Function.update_of_ne different _ _
      mutex := fun u _ taken => by rw [free] at taken; cases taken
      covers := fun u _ q mode => by rw [granted]
      pageTable := fun u different q f safe there => ?_
      loading := fun _ _ _ => Iff.rfl
      gains := fun u different q mode _ mine => unlocked q (granted q ▸ mine.shared)
      txnPages := fun u different => ?_
      txnLocks := fun u _ => congrArg (SetMap.get ·.txnLocks u) discards.lockManager
      life := fun _ _ => rfl
      completed := fun _ => id
      handles := fun _ member _ => member }
    · refine (discards.kept q fun member => ?_).trans there
      rcases safe with taken | ⟨lock, inside, own, -⟩
      · rw [free] at taken
        cases taken
      · have isMapped : s.bm.pageTable q ≠ none := there ▸ Option.some_ne_none f
        exact different (own.symm.trans (sound q member isMapped lock inside))
    · exact (SetMap.get_erase_of_ne different).trans (congrArg (SetMap.get · u) discards.txnPages)
  have unlocked' : ∀ q, ¬ Covers ((s.discarded t).granted q) t .shared :=
    fun q covers => unlocked q (granted q ▸ covers)
  refine inv.frame frame (Ending.local ⟨fun q covers => absurd covers (unlocked' q),
    fun q covers => absurd covers (unlocked' q), ending.loading, ending.handle⟩ ?_ ?_
    fun q covers => absurd covers (unlocked' q)) ?_ (fun q => ?_)
    (fun q g there read byte inside w wrote => ?_) (fun segment byte member => ?_)
  · change At _ t (Function.update s.pcs t _ t)
    rw [here]
    exact ⟨nofun, unlocked'⟩
  · change (Function.update s.pcs t _ t).Ends
    rw [here]
    trivial
  · exact ⟨discards.wf.mapped, discards.wf.stray, discards.wf.free, discards.wf.nodup,
      discards.wf.length⟩
  · rw [granted]
    exact inv.compatible q
  · change byte ∈ (((SetMap.get s.bm.txnPages t).foldl BufferManager.discardPage s.bm).pool g).data
      at inside
    rw [discards.data] at inside
    have outside : q ∉ SetMap.get s.bm.txnPages t := by
      intro member
      cases (discards.gone q member).symm.trans there
    have before := (discards.kept q outside).symm.trans there
    refine (inv.bytes q g before read byte inside w wrote).imp_right fun owes => ?_
    have different : w.txnId ≠ t := fun isT => outside (owes.discards unlocked isT).1
    exact frame.owes different (fun empty => (granted q).trans empty) owes
  · refine inv.disk segment byte ?_
    have same := congrFun discards.disk segment
    exact same ▸ member

theorem Inv.finish {completes : Bool} (inv : s.Inv) (isAt : s.pcs t = .ending completes) :
    (s.ended t).Inv := by
  have ending := (inv.all t).ending (isAt ▸ trivial)
  have unlocked := ((inv.all t).place_at isAt).2
  have here : Function.update s.pcs t .idle t = .idle := Function.update_self _ _ _
  have frame : Frame s (s.ended t) t := {
    pcs := fun u different => Function.update_of_ne different _ _
    mutex := fun _ _ => id
    covers := fun _ _ _ _ => Iff.rfl
    pageTable := fun _ _ _ _ _ there => there
    loading := fun _ _ _ => Iff.rfl
    gains := fun _ _ q _ _ mine => unlocked q mine.shared
    txnPages := fun _ different => SetMap.get_erase_of_ne different
    txnLocks := fun _ _ => rfl
    life := fun u different => Function.update_of_ne different _ _
    completed := fun _ => id
    handles := fun _ member _ => member }
  refine inv.frame frame ⟨?_, (inv.all t).mapped, fun q covers => absurd covers (unlocked q),
    fun q covers => absurd covers (unlocked q), fun q member => ?_,
    fun q loads => absurd loads (ending.loading q),
    fun h member own => absurd own (ending.handle h member)⟩
    ⟨inv.wf.mapped, inv.wf.stray, inv.wf.free, inv.wf.nodup, inv.wf.length⟩ inv.compatible
    (fun q g there read byte inside w wrote => ?_) inv.disk
  · change At _ t (Function.update s.pcs t _ t)
    rw [here]
    trivial
  · have none : SetMap.get (s.ended t).bm.txnPages t = [] := SetMap.get_erase_self _ t
    rw [none] at member
    cases member
  · refine (inv.bytes q g there read byte inside w wrote).imp_right fun owes => ?_
    have different : w.txnId ≠ t := by
      intro isT
      have aborts := (owes.discards unlocked isT).2
      rw [isAt] at aborts
      exact aborts
    exact frame.owes different id owes

/-! ## Runs -/

theorem Inv.new (pageSize pageCount : Nat) (disk : Disk UInt8) :
    (State.new pageSize pageCount disk).Inv where
  wf := .new pageSize pageCount _
  compatible _ := .nil
  all t := by
    have unlocked : ∀ p, ¬ Covers ((State.new pageSize pageCount disk).granted p) t .shared := by
      rintro p ⟨lock, impossible, -⟩
      cases impossible
    exact ⟨trivial, fun p covers => absurd covers (unlocked p),
      fun p covers => absurd covers (unlocked p), fun p covers => absurd covers (unlocked p),
      nofun, nofun, nofun⟩
  bytes _ _ impossible := by cases impossible
  disk segment byte member w wrote := by
    obtain ⟨value, -, rfl⟩ := List.mem_map.mp member
    cases wrote

/-- One section. -/
theorem Inv.nextSection {choice : Choice} (inv : s.Inv)
    (sound : s.SoundSection t choice (s.pcs t)) (ran : s.nextSection t choice = some s') :
    s'.Inv := by
  unfold State.nextSection at ran
  split at ran
  · cases ran
  · rename_i p mode f loads pc _ isAt
    obtain ⟨⟨lm, outcome⟩, stepped, rfl⟩ := Option.map_eq_some_iff.mp ran
    rw [isAt] at sound
    obtain ⟨inPlace, safe⟩ := sound
    obtain ⟨refused, settled⟩ := safe _ stepped
    obtain ⟨-, -, -, knows, -⟩ := (inv.all t).place_at isAt
    exact inv.request isAt (AcquirePc.step_spec knows inPlace stepped) refused settled
  · rename_i p mode f isAt
    cases ran
    rw [isAt] at sound
    exact inv.read isAt sound
  · rename_i pc isAt
    obtain ⟨⟨lm, outcome⟩, stepped, rfl⟩ := Option.map_eq_some_iff.mp ran
    exact inv.complete isAt stepped
  · rename_i pc isAt
    obtain ⟨⟨lm, outcome⟩, stepped, rfl⟩ := Option.map_eq_some_iff.mp ran
    exact inv.abort isAt stepped
  · rename_i isAt
    split at ran
    · rename_i free
      cases ran
      rw [isAt] at sound
      exact inv.discard isAt free sound
    · cases ran
  · rename_i completes isAt
    split at ran
    · cases ran
      exact inv.finish isAt
    · cases ran
  · cases ran

/-- One action. -/
theorem Inv.step {action : Action} (inv : s.Inv) (sound : s.Sound action)
    (ran : s.step action = some s') : s'.Inv := by
  cases action with
  | step t choice => exact inv.nextSection sound ran
  | fixPage t p mode =>
    obtain ⟨⟨idle, free⟩, same⟩ := Option.ite_none_right_eq_some.mp ran
    cases same
    exact inv.startFix sound idle free
  | write h offset value =>
    obtain ⟨⟨member, idle, exclusive⟩, same⟩ := Option.ite_none_right_eq_some.mp ran
    cases same
    exact inv.write member exclusive idle offset value
  | unfixPage h isDirty =>
    obtain ⟨-, same⟩ := Option.ite_none_right_eq_some.mp ran
    cases same
    exact inv.unfixPage h.frameId isDirty
  | transactionComplete t =>
    obtain ⟨⟨idle, -⟩, same⟩ := Option.ite_none_right_eq_some.mp ran
    cases same
    exact inv.startComplete idle
  | transactionAbort t =>
    obtain ⟨idle, same⟩ := Option.ite_none_right_eq_some.mp ran
    cases same
    exact inv.startAbort idle

/-- A frame that was returned is locked, and its page has been read. -/
theorem Inv.isolated (inv : s.Inv) : s.Isolated := by
  intro h member byte inside w wrote
  obtain ⟨covers, isMapped, -⟩ := (inv.all h.txnId).handle h member rfl
  have read : s.loading h.pageId = none := by
    cases isLoading : s.loading h.pageId with
    | none => rfl
    | some u =>
      obtain ⟨-, -, alone, free⟩ := (inv.all u).loading h.pageId isLoading
      exact absurd rfl (free h member (alone h.txnId h.mode covers))
  exact inv.bytes_of_covers read covers isMapped inside wrote

end State

/-- No frame that `fix_page` has returned ever holds a byte of another transaction that has not
completed, if every action on the way is sound. -/
theorem isolated_of_sound {pageSize pageCount : Nat} {disk : Disk UInt8} {actions : List Action}
    {s : State}
    (sound : Machine.Along State.step State.Sound (State.new pageSize pageCount disk) actions)
    (ran : Machine.run State.step (State.new pageSize pageCount disk) actions = some s) :
    s.Isolated :=
  (Machine.invariant (fun _ _ _ inv sound ran => inv.step sound ran)
    (State.Inv.new pageSize pageCount disk) sound ran).isolated

/-- Transaction 2 reads what transaction 1 has written and completed. -/
theorem isolated_of_sound_completed : ∃ s, Machine.run State.step (.new 2 4 fun _ => [])
    ([.fixPage 1 0 .exclusive] ++ List.replicate 7 (.step 1 .proceed) ++
      [.write ⟨1, 0, .exclusive, 0⟩ 0 7, .unfixPage ⟨1, 0, .exclusive, 0⟩ true,
        .transactionComplete 1] ++ List.replicate 6 (.step 1 .proceed) ++ [.fixPage 2 0 .shared] ++
      List.replicate 6 (.step 2 .proceed)) = some s ∧
    s.handles = [⟨2, 0, .shared, 0⟩] ∧ s.Isolated := by
  generalize isRun : Machine.run State.step (.new 2 4 fun _ => []) _ = result
  have returned : result.map State.handles = some [⟨2, 0, .shared, 0⟩] := by
    rw [← isRun]
    decide +kernel
  obtain ⟨s, isSome, handles⟩ := Option.map_eq_some_iff.mp returned
  exact ⟨s, isSome, handles, isolated_of_sound (by decide +kernel) (isRun.trans isSome)⟩

/-- The next sections of a call. -/
def sections (t : UInt64) (n : Nat) : List Action := List.replicate n (.step t .proceed)

/-- Transaction 1 writes, 2 waits for its lock, and 1 aborts. -/
def releasedRun : List Action :=
  .fixPage 1 0 .exclusive :: sections 1 7 ++
  .write ⟨1, 0, .exclusive, 0⟩ 0 7 :: .unfixPage ⟨1, 0, .exclusive, 0⟩ true ::
  .fixPage 2 0 .shared :: sections 2 3 ++ .step 2 (.visit 1) :: sections 2 4 ++
  .transactionAbort 1 :: sections 1 3 ++ sections 2 2

/-- `transaction_abort` of transaction 1 releases its lock before it discards the page, and
transaction 2, which has waited for the lock, returns from `fix_page` with the bytes in between. -/
theorem not_isolated_released : ¬ ∀ (pageSize pageCount : Nat) (disk : Disk UInt8)
    (actions : List Action) (s : State),
    Machine.run State.step (.new pageSize pageCount disk) actions = some s → s.Isolated := by
  intro isolated
  have dirty : (Machine.run State.step (.new 2 4 fun _ => []) releasedRun).map
      (fun s => decide s.Isolated) = some false := by decide +kernel
  obtain ⟨s, ran, result⟩ := Option.map_eq_some_iff.mp dirty
  exact of_decide_eq_false result (isolated 2 4 _ _ s ran)

end BuzzDB.Locking.Isolation
