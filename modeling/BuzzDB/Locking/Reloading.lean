import BuzzDB.Locking.PageImages

/-!
# Pages that are dropped and loaded again

What callers see of a page stays the same when a transaction completes, and when a page that its
segment file has is dropped.  Only its frame may be another one, when it is loaded again: the first
free one.
-/

namespace BuzzDB.Locking

open PagePool HeapSegment

namespace BufferManager

variable {bm mid bm' : BufferManager UInt8} {t p q : UInt64} {f g : Nat} {mode : LockMode}

/-! ## Completing -/

/-- The same pages in the same frames, and what callers see of them. -/
structure Same (bm bm' : BufferManager UInt8) : Prop where
  wf : bm'.Wf
  pageSize : bm'.pageSize = bm.pageSize
  pageTable : bm'.pageTable = bm.pageTable
  shown : ∀ q, (bm.pageTable q).isSome ∨ bm.OnDisk q →
    ((bm'.pageTable q).isSome ∨ bm'.OnDisk q) ∧ bm'.shown q = bm.shown q

/-- Writing back changes nothing for callers. -/
theorem Writes.same (writes : Writes bm bm') : Same bm bm' := by
  refine ⟨writes.wf, writes.pageSize, writes.pageTable, fun q whole => ?_⟩
  rw [BufferManager.shown, BufferManager.shown, writes.pageTable]
  cases found : bm.pageTable q with
  | some f => exact ⟨Or.inl rfl, writes.data f⟩
  | none =>
    rw [found] at whole
    have onDisk := whole.resolve_left Bool.false_ne_true
    have same := writes.missing q onDisk.1 found
    exact ⟨Or.inr (same.onDisk onDisk), same.image⟩

/-! ## Dropping -/

/-- The segment file has the bytes of the page. -/
def Saved (bm : BufferManager UInt8) (p : UInt64) : Prop :=
  bm.OnDisk p ∧ (List.range bm.pageSize).map (bm.disk.byte bm.pageSize p) = bm.shown p

instance (bm : BufferManager UInt8) (p : UInt64) : Decidable (bm.Saved p) :=
  inferInstanceAs (Decidable (_ ∧ _))

/-- Pages are dropped, and nothing else happens. -/
structure Drops (bm bm' : BufferManager UInt8) : Prop where
  wf : bm'.Wf
  pageSize : bm'.pageSize = bm.pageSize
  disk : bm'.disk = bm.disk
  kept : ∀ q f, bm'.pageTable q = some f →
    bm.pageTable q = some f ∧ (bm'.pool f).data = (bm.pool f).data

theorem Discards.drops {pages : List UInt64} (discards : Discards bm pages bm') : Drops bm bm' :=
  ⟨discards.wf, discards.pageSize, discards.disk,
    fun _ f isMapped => ⟨discards.fewer isMapped, discards.data f⟩⟩

theorem drops_discardPages (wf : bm.Wf) (t : UInt64) : Drops bm (bm.discardPages t) := by
  have discards := wf.discardAll (SetMap.get bm.txnPages t)
  have drops := discards.drops
  exact ⟨drops.wf.congr rfl rfl rfl rfl, drops.pageSize, drops.disk, drops.kept⟩

theorem drops_discardAllPages (bm : BufferManager UInt8) : Drops bm bm.discardAllPages :=
  ⟨Wf.discardAllPages bm, rfl, rfl, fun _ _ impossible => by cases impossible⟩

theorem drops_transactionAbort (wf : bm.Wf) (t : UInt64) : Drops bm (bm.transactionAbort t) := by
  have released : (bm.releaseAllLocks t).Wf := wf.congr rfl rfl rfl rfl
  have drops := drops_discardPages released t
  exact ⟨drops.wf.congr rfl rfl rfl rfl, drops.pageSize, drops.disk, drops.kept⟩

theorem Drops.sameImage (drops : Drops bm bm') (q : UInt64) : SameImage bm bm' q :=
  sameImage_of_disk drops.disk drops.pageSize q

/-- Callers see a page as before, or as its segment file has it. -/
theorem Drops.page (drops : Drops bm bm') (q : UInt64) :
    ((bm'.pageTable q).isSome ∧ (bm.pageTable q).isSome ∧ bm'.shown q = bm.shown q) ∨
      (bm'.pageTable q = none ∧ bm'.shown q = bm.image q) := by
  cases isMapped : bm'.pageTable q with
  | some f =>
    obtain ⟨before, same⟩ := drops.kept q f isMapped
    refine Or.inl ⟨rfl, Option.isSome_of_eq_some before, ?_⟩
    rw [BufferManager.shown, BufferManager.shown, isMapped, before]
    exact same
  | none =>
    refine Or.inr ⟨rfl, ?_⟩
    rw [BufferManager.shown, isMapped]
    exact (drops.sameImage q).image

/-- A page that has no frame is shown as its segment file has it. -/
theorem shown_of_missing (missing : bm.pageTable q = none) : bm.shown q = bm.image q := by
  rw [BufferManager.shown, missing]
  rfl

/-- A page that is still there, or that its segment file has. -/
theorem Drops.shown (drops : Drops bm bm') (whole : (bm.pageTable q).isSome ∨ bm.OnDisk q)
    (saved : (bm.pageTable q).isSome → bm'.pageTable q = none → bm.Saved q) :
    ((bm'.pageTable q).isSome ∨ bm'.OnDisk q) ∧ bm'.shown q = bm.shown q := by
  rcases drops.page q with ⟨still, _, same⟩ | ⟨missing, same⟩
  · exact ⟨Or.inl still, same⟩
  · cases before : bm.pageTable q with
    | some f =>
      obtain ⟨onDisk, image⟩ := saved (Option.isSome_of_eq_some before) missing
      exact ⟨Or.inr ((drops.sameImage q).onDisk onDisk), same.trans image⟩
    | none =>
      rw [before] at whole
      have onDisk := whole.resolve_left Bool.false_ne_true
      exact ⟨Or.inr ((drops.sameImage q).onDisk onDisk), same.trans (shown_of_missing before).symm⟩

/-! ## Loading -/

/-- How many of some pages would be loaded. -/
def loads (bm : BufferManager UInt8) (pages : List UInt64) : Nat :=
  pages.countP fun q => (bm.pageTable q).isNone

/-- The frame in which a page is, or is loaded behind so many other pages. -/
def frameBehind (bm : BufferManager UInt8) (loaded : Nat) (p : UInt64) : Option Nat :=
  match bm.pageTable p with
  | some f => some f
  | none => bm.freeFrames[loaded]?

/-- The frame that `fix_page` returns, and what it leaves for other pages. -/
theorem fixPage_frame (fixed : bm.fixPage t p mode = (bm', .frame f)) :
    bm.frameBehind 0 p = some f ∧ (∀ q, q ≠ p → bm'.pageTable q = bm.pageTable q) ∧
      bm'.freeFrames = bm.freeFrames.drop (bm.loads [p]) := by
  unfold BufferManager.fixPage at fixed
  rw [BufferManager.frameBehind, loads, List.countP_singleton]
  cases isMapped : bm.pageTable p with
  | some g =>
    rw [isMapped] at fixed
    dsimp only at fixed
    split at fixed
    · rw [track_eq] at fixed
      cases fixed
      exact ⟨rfl, fun _ _ => rfl, rfl⟩
    · cases fixed
  | none =>
    rw [isMapped] at fixed
    cases isLoaded : bm.mapPage t p with
    | none =>
      rw [isLoaded] at fixed
      cases fixed
    | some loaded =>
      rw [isLoaded] at fixed
      unfold BufferManager.mapPage at isLoaded
      split at isLoaded
      · cases isLoaded
      · rename_i frameId rest isFree
        rw [track_eq] at isLoaded
        cases isLoaded
        dsimp only at fixed
        split at fixed
        · cases fixed
          rw [isFree]
          exact ⟨rfl, fun q different => Function.update_of_ne different _ _, rfl⟩
        · cases fixed

end BufferManager

namespace HeapSystem

variable {s s' : HeapSystem} {t p : UInt64} {f : Nat} {exclusive : Bool} {size : UInt32}

theorem fixPage_frame (fixed : fixPage t exclusive s p = some (s', f)) :
    s.bm.frameBehind 0 p = some f := by
  unfold fixPage at fixed
  split at fixed
  · rename_i found
    cases fixed
    exact (BufferManager.fixPage_frame found).1
  · cases fixed

/-- The frame in which the loop of `allocate` finds its page: the pages in front of it are loaded before. -/
theorem findSpace_frame {pages : List UInt64} (wf : s.bm.Wf) (nodup : pages.Nodup)
    (ran : findSpace (fixPage t exclusive) size s pages = some (s', some f)) :
    ∃ front p back, pages = front ++ p :: back ∧ s'.bm.pageTable p = some f ∧
      s.bm.frameBehind (s.bm.loads front) p = some f := by
  induction pages generalizing s with
  | nil => cases ran
  | cons q rest ih =>
    obtain ⟨⟨mid, g⟩, fixed, ran⟩ := Option.bind_eq_some_iff.mp ran
    obtain ⟨keeps, home⟩ := fixes t exclusive s q mid g wf fixed
    unfold fixPage at fixed
    split at fixed
    case h_2 => cases fixed
    rename_i bm frameId found
    cases fixed
    obtain ⟨frame, others, freeFrames⟩ := BufferManager.fixPage_frame found
    obtain ⟨notInRest, nodup⟩ := List.nodup_cons.mp nodup
    dsimp only at ran
    split at ran
    · obtain ⟨front, p, back, same, isMapped, isFrame⟩ := ih keeps.wf nodup ran
      refine ⟨q :: front, p, back, by rw [same]; rfl, isMapped, ?_⟩
      have different : p ≠ q := by
        intro here
        exact notInRest (here ▸ same ▸ List.mem_append_right _ List.mem_cons_self)
      have loaded : s.bm.loads (q :: front) = s.bm.loads [q] + bm.loads front := by
        have count : bm.loads front = s.bm.loads front := by
          apply List.countP_congr
          intro x member
          have elsewhere : x ≠ q := by
            intro here
            exact notInRest (here ▸ same ▸ List.mem_append_left _ member)
          rw [others x elsewhere]
        rw [count]
        change List.countP _ ([q] ++ front) = _
        rw [List.countP_append]
        rfl
      rw [← isFrame, loaded, BufferManager.frameBehind, BufferManager.frameBehind]
      dsimp only
      rw [others p different, freeFrames, List.getElem?_drop]
    · cases ran
      exact ⟨[], q, rest, rfl, home, frame⟩

end HeapSystem

end BuzzDB.Locking
