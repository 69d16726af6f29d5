import BuzzDB.Locking.Allocations

/-!
# The slots of committed transactions

Each call keeps the invariant: writing back and dropping move pages between frames and the segment
file, reading and writing leave the slots, and `allocate` adds one that no grant has.
-/

namespace BuzzDB.Locking

open FramePool PagePool HeapSegment

namespace Allocations

namespace State

variable {s s' : State} {bm' : BufferManager UInt8} {pool : HeapSystem} {segment' : HeapSegment}
  {p q : UInt64} {f : Nat} {txnId tid t : UInt64} {record before data : List UInt8}
  {size capacity : UInt32} {exclusive : Bool} {g other : Grant} {action : Action}

/-! ## Writing back -/

/-- Where the image of a page comes from when frames are written back. -/
theorem written_image (writes : BufferManager.Writes s.pool.bm bm') (valid : p ≠ invalidPageId) :
    ((s.flush bm').There p ∧ bm'.OnDisk p ∧ bm'.image p = view s.pool p) ∨
      BufferManager.SameImage s.pool.bm bm' p := by
  cases isMapped : s.pool.bm.pageTable p with
  | none => exact Or.inr (writes.missing p valid isMapped)
  | some f =>
    rcases writes.mapped p f valid isMapped with ⟨onDisk, image⟩ | ⟨same, _⟩
    · have still : bm'.pageTable p = some f := by rw [writes.pageTable, isMapped]
      refine Or.inl ⟨Or.inl (Option.isSome_of_eq_some still), onDisk, ?_⟩
      change _ = s.pool.bm.shown p
      rw [image, BufferManager.shown, isMapped]
    · exact Or.inr same

theorem flush_there (writes : BufferManager.Writes s.pool.bm bm') :
    (s.flush bm').There p ↔ s.There p := by
  have table : ((s.flush bm').pool.bm.pageTable p).isSome = (s.pool.bm.pageTable p).isSome :=
    congrArg (fun table => (table p).isSome) writes.pageTable
  rw [There, There, table]
  simp only [flush, writes.pageTable, Bool.or_eq_true, Bool.and_eq_true]
  tauto

theorem Inv.flush (inv : s.Inv) (writes : BufferManager.Writes s.pool.bm bm') :
    (s.flush bm').Inv := by
  have shown : ∀ p ∈ s.segment.pages, s.There p → view (s.flush bm').pool p = view s.pool p :=
    fun p member there => (writes.same.shown p (inv.whole member there)).2
  have moves : Moves s (s.flush bm') := by
    refine ⟨rfl, rfl, writes.wf, fun p member there => ?_, fun p member isFiled => ?_⟩
    · have before := (flush_there writes).mp there
      exact Or.inl ⟨before, shown p member before⟩
    · have there := (flush_there writes).mp (Or.inr isFiled)
      rcases written_image writes (valid_of_mem inv.few member) with ⟨_, onDisk, image⟩ | same
      · exact ⟨onDisk, Or.inr ⟨there, image⟩⟩
      · change (s.filed p || _) = true at isFiled
        rcases (Bool.or_eq_true _ _).mp isFiled with before | saved
        · exact ⟨same.onDisk (inv.filed p member before).1, Or.inl ⟨before, same.image⟩⟩
        · obtain ⟨onDisk, image⟩ := of_decide_eq_true ((Bool.and_eq_true _ _).mp saved).2
          exact ⟨onDisk, Or.inr ⟨there, image.trans (shown p member there)⟩⟩
  obtain ⟨isShown, isFiled⟩ := inv.moves moves
  refine ⟨writes.wf, inv.few, isShown, isFiled, fun g member alive => ?_, inv.sized,
    fun g member committed => ?_, inv.apart⟩
  · obtain ⟨page, isPage, there, slot⟩ := inv.granted g member alive
    refine ⟨page, isPage, (flush_there writes).mpr there, ?_⟩
    rw [shown g.page isPage there]
    exact slot
  · obtain ⟨alive, before, slot⟩ := inv.committed g member committed
    obtain ⟨_, isPage, _, inFrame⟩ := inv.granted g member alive
    have still : (s.flush bm').filed g.page = true := by
      change (s.filed g.page || _) = true
      rw [before, Bool.true_or]
    refine ⟨alive, still, ?_⟩
    rcases (moves.filed g.page isPage still).2 with ⟨_, image⟩ | ⟨_, image⟩
    · exact slot.of_eq image
    · exact inFrame.of_eq image

/-- Grants whose slots the segment file has. -/
theorem Inv.commit (inv : s.Inv) (saved : ∀ g ∈ s.grants, g.txnId = t → g.committed = false →
    g.lost = false ∧ s.filed g.page = true ∧ g.SlotIn (s.pool.bm.image g.page)) :
    ({ s with grants := s.grants.map (Grant.commit t) } : State).Inv := by
  refine ⟨inv.wf, inv.few, fun p member there => ?_, fun p member isFiled => ?_,
    fun g' listed alive => ?_, fun g' listed => ?_, fun g' listed committed => ?_,
    inv.apart.map _ fun _ _ => id⟩
  · obtain ⟨formatted, pointer⟩ := inv.shown p member there
    exact ⟨formatted, pointer⟩
  · obtain ⟨onDisk, formatted, pointer⟩ := inv.filed p member isFiled
    exact ⟨onDisk, formatted, pointer⟩
  · obtain ⟨g, member, rfl⟩ := List.mem_map.mp listed
    obtain ⟨page, isPage, there, slot⟩ := inv.granted g member alive
    exact ⟨page, isPage, there, slot⟩
  · obtain ⟨g, member, rfl⟩ := List.mem_map.mp listed
    exact inv.sized g member
  · obtain ⟨g, member, rfl⟩ := List.mem_map.mp listed
    cases before : g.committed with
    | true => exact inv.committed g member before
    | false =>
      change (g.committed || _) = true at committed
      rw [before, Bool.false_or] at committed
      exact saved g member (of_decide_eq_true committed) before

/-- A page of which the segment file has what callers see. -/
theorem flush_filed (writes : BufferManager.Writes s.pool.bm bm') (there : s.There p)
    (whole : Whole s.pool p) (onDisk : bm'.OnDisk p) (image : bm'.image p = view s.pool p) :
    (s.flush bm').filed p = true := by
  change (s.filed p || ((bm'.pageTable p).isSome && decide (bm'.Saved p))) = true
  rcases there with mapped | before
  · have saved : bm'.Saved p := ⟨onDisk, image.trans (writes.same.shown p whole).2.symm⟩
    rw [writes.pageTable, mapped, decide_eq_true saved, Bool.and_true, Bool.or_true]
  · rw [before, Bool.true_or]

/-- What `transaction_complete` leaves in the segment file of a page that it writes back, or that is
as the file has it. -/
theorem completed_page (wf : s.pool.bm.Wf) (valid : p ≠ invalidPageId)
    (meets : s.WritesBack t p ∨ s.pool.bm.Saved p) :
    (s.pool.bm.transactionComplete t).OnDisk p ∧
      (s.pool.bm.transactionComplete t).image p = view s.pool p := by
  rcases meets with ⟨tracked, dirty⟩ | ⟨onDisk, image⟩
  · obtain ⟨f, isMapped, isDirty⟩ := (Option.any_eq_true _ _).mp dirty
    have written := BufferManager.completed_image wf valid isMapped tracked isDirty
    change _ ∧ _ = s.pool.bm.shown p
    rw [BufferManager.shown, isMapped]
    exact written
  · rcases written_image (BufferManager.writes_transactionComplete wf t) valid with written | same
    · exact written.2
    · exact ⟨same.onDisk onDisk, same.image.trans image⟩

/-- A transaction that completes has lost what is neither written back nor in the segment file. -/
theorem not_durable_of_unwritten (inv : s.Inv) (member : g ∈ s.grants) (alive : g.lost = false)
    (unwritten : ¬ s.WritesBack g.txnId g.page) (missing : ¬ g.SlotIn (s.pool.bm.image g.page))
    (stepped : s.step (.transactionComplete g.txnId) = some s') : ¬ s'.Durable := by
  intro durable
  cases stepped
  have valid := valid_of_mem inv.few (inv.granted g member alive).member
  have isOwn : (g.committed || decide (g.txnId = g.txnId)) = true := by
    rw [decide_eq_true rfl, Bool.or_true]
  obtain ⟨_, slot, _⟩ := durable.stored (g.commit g.txnId) (List.mem_map_of_mem member) isOwn
  apply missing
  apply slot.of_eq
  symm
  apply BufferManager.uncompleted_image inv.wf valid
  intro tracked f isMapped
  by_contra dirty
  refine unwritten ⟨tracked, (Option.any_eq_true _ _).mpr ⟨f, isMapped, ?_⟩⟩
  exact Bool.of_not_eq_false dirty

theorem Inv.complete (inv : s.Inv) (meets : s.Meets (.transactionComplete t))
    (stepped : s.step (.transactionComplete t) = some s') : s'.Inv := by
  cases stepped
  have writes := BufferManager.writes_transactionComplete inv.wf t
  apply (inv.flush writes).commit
  intro g member isOwn uncommitted
  obtain ⟨alive, written⟩ := meets g member isOwn uncommitted
  obtain ⟨_, isPage, there, slot⟩ := inv.granted g member alive
  obtain ⟨onDisk, image⟩ := completed_page inv.wf (valid_of_mem inv.few isPage) written
  refine ⟨alive, flush_filed writes there (inv.whole isPage there) onDisk image, ?_⟩
  exact slot.of_eq image

/-! ## Dropping -/

theorem Inv.drop (inv : s.Inv) (drops : BufferManager.Drops s.pool.bm bm')
    (addresses : List UInt64) (distinct : addresses.Nodup) :
    (s.drop bm' addresses distinct).Inv := by
  have moves : Moves s (s.drop bm' addresses distinct) := by
    refine ⟨rfl, rfl, drops.wf, fun p member there => ?_, fun p member isFiled => ?_⟩
    · rcases drops.page p with ⟨_, before, same⟩ | ⟨missing, same⟩
      · exact Or.inl ⟨Or.inl before, same⟩
      · have isFiled : s.filed p = true := there.resolve_left (by
          change ¬ (bm'.pageTable p).isSome = true
          rw [missing]
          exact Bool.false_ne_true)
        exact Or.inr ⟨isFiled, same⟩
    · have same := drops.sameImage p
      exact ⟨same.onDisk (inv.filed p member isFiled).1, Or.inl ⟨isFiled, same.image⟩⟩
  obtain ⟨isShown, isFiled⟩ := inv.moves moves
  refine ⟨drops.wf, inv.few, isShown, isFiled, fun g' listed alive => ?_, fun g' listed => ?_,
    fun g' listed committed => ?_, inv.apart.map _ fun later g apart alive => ?_⟩
  · obtain ⟨g, member, rfl⟩ := List.mem_map.mp listed
    obtain ⟨before, kept⟩ := (Bool.or_eq_false_iff).mp alive
    obtain ⟨page, isPage, there, slot⟩ := inv.granted g member before
    rcases drops.page g.page with ⟨still, _, same⟩ | ⟨missing, same⟩
    · exact ⟨page, isPage, Or.inl still, slot.of_eq same⟩
    · -- the grant would be lost if the segment file did not have it
      have saved : s.filed g.page = true ∧ g.SlotIn (s.pool.bm.image g.page) := by
        cases isMapped : s.pool.bm.pageTable g.page with
        | some f =>
          by_contra other
          exact of_decide_eq_false kept ⟨Option.isSome_of_eq_some isMapped, missing, other⟩
        | none =>
          have isFiled : s.filed g.page = true := there.resolve_left (by
            rw [isMapped]
            exact Bool.false_ne_true)
          exact ⟨isFiled, slot.of_eq (BufferManager.shown_of_missing isMapped).symm⟩
      exact ⟨page, isPage, Or.inr saved.1, saved.2.of_eq same⟩
  · obtain ⟨g, member, rfl⟩ := List.mem_map.mp listed
    exact inv.sized g member
  · obtain ⟨g, member, rfl⟩ := List.mem_map.mp listed
    obtain ⟨before, isFiled, slot⟩ := inv.committed g member committed
    have kept : ¬ s.Loses bm' g := fun loses => loses.2.2 ⟨isFiled, slot⟩
    refine ⟨?_, isFiled, slot.of_eq (drops.sameImage g.page).image⟩
    change (g.lost || decide (s.Loses bm' g)) = false
    rw [before, decide_eq_false kept, Bool.or_false]
  · exact apart ((Bool.or_eq_false_iff).mp alive).1

/-! ## Reading and writing -/

/-- A call that maps no page but its own, which was there before. -/
theorem there_of_others {p₀ : UInt64} (home : ∀ q f, Home s.pool q f → Home pool q f)
    (others : ∀ q, q ≠ p₀ → pool.bm.pageTable q = s.pool.bm.pageTable q)
    (before : p₀ ∈ s.segment.pages → s.There p₀) (member : p ∈ s.segment.pages) :
    ({ s with pool } : State).There p ↔ s.There p := by
  constructor
  · intro there
    rcases eq_or_ne p p₀ with rfl | different
    · exact before member
    · change (pool.bm.pageTable p).isSome = true ∨ _ at there
      rw [others p different] at there
      exact there
  · intro there
    rcases there with mapped | isFiled
    · obtain ⟨f, isMapped⟩ := Option.isSome_iff_exists.mp mapped
      have still : pool.bm.pageTable p = some f := home p f isMapped
      exact Or.inl (Option.isSome_of_eq_some still)
    · exact Or.inr isFiled

/-- The same slots in the frames of the pages, and the same segment file. -/
theorem Inv.sameSlots (inv : s.Inv) (wf : pool.bm.Wf) (disk : pool.bm.disk = s.pool.bm.disk)
    (pageSize : pool.bm.pageSize = s.pool.bm.pageSize)
    (stays : ∀ p ∈ s.segment.pages, ({ s with pool } : State).There p ↔ s.There p)
    (slots : ∀ p ∈ s.segment.pages, Whole s.pool p →
      SameSlots (view s.pool p) (view pool p) ∧ (view pool p).length = (view s.pool p).length) :
    ({ s with pool } : State).Inv := by
  have image := BufferManager.sameImage_of_disk disk pageSize
  refine ⟨wf, inv.few, fun p isPage there => ?_, fun p isPage isFiled => ?_,
    fun g listed alive => ?_, inv.sized, fun g listed committed => ?_, inv.apart⟩
  · have before := (stays p isPage).mp there
    obtain ⟨formatted, pointer⟩ := inv.shown p isPage before
    obtain ⟨same, length⟩ := slots p isPage (inv.whole isPage before)
    exact ⟨formatted.same same length, same.pointer.trans pointer⟩
  · obtain ⟨onDisk, formatted, pointer⟩ := inv.filed p isPage isFiled
    refine ⟨(image p).onDisk onDisk, ?_⟩
    change IsPage _ p (pool.bm.image p)
    rw [(image p).image]
    exact ⟨formatted, pointer⟩
  · obtain ⟨page, isPage, there, isSlot, slot⟩ := inv.granted g listed alive
    have same := (slots g.page isPage (inv.whole isPage there)).1
    refine ⟨page, isPage, (stays g.page isPage).mpr there, ?_, (same.slots _ isSlot).trans slot⟩
    change _ < slotCountOf (view pool g.page)
    rw [slotCountOf, same.header]
    exact isSlot
  · obtain ⟨alive, isFiled, slot⟩ := inv.committed g listed committed
    exact ⟨alive, isFiled, slot.of_eq (image g.page).image⟩

theorem Inv.write (inv : s.Inv) (meets : s.Meets (.write txnId tid record))
    (stepped : s.step (.write txnId tid record) = some s') : s'.Inv := by
  obtain ⟨pool, ran, same⟩ := Option.bind_eq_some_iff.mp stepped
  cases same
  obtain ⟨disk, others⟩ := HeapSystem.write_reads inv.wf ran
  obtain ⟨⟨mid, change⟩, changed, same⟩ := Option.bind_eq_some_iff.mp ran
  cases same
  obtain ⟨⟨isPage, isSlot⟩, there, atOrigin⟩ := meets
  have whole := inv.whole isPage there
  obtain ⟨formatted, pointer⟩ := inv.shown _ isPage there
  have lands : s.segment.Lands (HeapSystem.fixPage txnId true) s.pool tid :=
    Reloading.State.lands_of_atOrigin (s := s.base) inv.wf whole pointer atOrigin
  obtain ⟨_, puts⟩ := write_spec (HeapSystem.fixes txnId true) HeapManager.written_closes inv.wf
    whole lands changed
  apply inv.sameSlots puts.wf disk puts.pageSize
  · intro p
    exact there_of_others puts.home others fun _ => there
  · intro p _ isWhole
    rcases eq_or_ne p (overallPageIdOf s.segment.segmentId tid) with rfl | different
    · rw [puts.self.2]
      exact ⟨formatted.overwrite isSlot, Image.length_overwrite _ _ _⟩
    · rw [(puts.others p different isWhole).2]
      exact ⟨.refl _, rfl⟩

/-- A call that changes nothing for callers. -/
theorem Inv.keeps {p₀ : UInt64} (inv : s.Inv) (keeps : Keeps s.pool pool)
    (disk : pool.bm.disk = s.pool.bm.disk)
    (others : ∀ q, q ≠ p₀ → pool.bm.pageTable q = s.pool.bm.pageTable q)
    (before : p₀ ∈ s.segment.pages → s.There p₀) : ({ s with pool } : State).Inv := by
  apply inv.sameSlots keeps.wf disk keeps.pageSize
  · intro p
    exact there_of_others keeps.home others before
  · intro p _ whole
    rw [(keeps.view p whole).2]
    exact ⟨.refl _, rfl⟩

theorem Inv.read (inv : s.Inv) (meets : s.Meets (.read txnId tid capacity))
    (stepped : s.step (.read txnId tid capacity) = some s') : s'.Inv := by
  obtain ⟨⟨pool, result⟩, ran, same⟩ := Option.bind_eq_some_iff.mp stepped
  cases same
  obtain ⟨disk, others⟩ := HeapSystem.read_reads inv.wf ran
  have keeps : Keeps s.pool pool :=
    (read_keeps (HeapSystem.fixes txnId false) HeapManager.hasRead_leaves inv.wf ran).1
  exact inv.keeps keeps disk others meets

theorem Inv.fixPage (inv : s.Inv) (meets : s.Meets (.fixPage txnId p exclusive))
    (stepped : s.step (.fixPage txnId p exclusive) = some s') : s'.Inv := by
  cases stepped
  obtain ⟨found, there⟩ := meets
  cases result : (s.pool.bm.fixPage txnId p (HeapSystem.modeOf exclusive)).2 with
  | frame f =>
    have fixed : HeapSystem.fixPage txnId exclusive s.pool p =
        some ((s.withBm (s.pool.bm.fixPage txnId p (HeapSystem.modeOf exclusive)).1).pool, f) := by
      rw [HeapSystem.fixPage, ← Prod.eta (s.pool.bm.fixPage txnId p (HeapSystem.modeOf exclusive)),
        result]
      rfl
    obtain ⟨disk, others⟩ := HeapSystem.fixPage_reads inv.wf fixed
    exact inv.keeps (HeapSystem.fixes txnId exclusive s.pool p _ f inv.wf fixed).1 disk others there
  | bufferFull =>
    have fixes := inv.wf.fixPage txnId p (HeapSystem.modeOf exclusive)
    rw [(fixes.full result).1]
    exact inv
  | abort =>
    obtain ⟨f, isMapped⟩ := Option.isSome_iff_exists.mp (found.resolve_right (not_not.mpr result))
    rw [BufferManager.fixPage_refused isMapped result]
    have wf : ({ s.pool.bm with lockManager := (s.pool.bm.lockManager.acquireLock txnId p
        (HeapSystem.modeOf exclusive)).1 } : BufferManager UInt8).Wf := inv.wf.congr rfl rfl rfl rfl
    have keeps : Keeps s.pool { s.pool with bm := { s.pool.bm with lockManager :=
        (s.pool.bm.lockManager.acquireLock txnId p (HeapSystem.modeOf exclusive)).1 } } :=
      ⟨wf, rfl, rfl, fun _ whole => ⟨whole, rfl⟩, fun _ _ => id⟩
    exact inv.keeps keeps rfl (fun _ _ => rfl) there

/-- What is kept for the next page is not about the pages of the segment. -/
theorem update_of_mem {β : Type} (few : s.segment.pageCount.toNat < 2 ^ 48) (kept : UInt64 → β)
    (x : β) (member : q ∈ s.segment.pages) : Function.update kept s.nextPage x q = kept q := by
  apply Function.update_of_ne
  intro same
  rw [same] at member
  exact next_not_mem_pages few member

/-- A page that is counted, and is not there. -/
theorem Inv.nextPageThrows (inv : s.Inv) (meets : s.Meets (.nextPageThrows txnId))
    (stepped : s.step (.nextPageThrows txnId) = some s') : s'.Inv := by
  obtain ⟨result, few⟩ := meets
  have fixes := inv.wf.fixPage txnId s.nextPage .exclusive
  obtain ⟨unchanged, missing⟩ := fixes.full result
  have same : s' = s.countPage := by
    unfold State.step at stepped
    dsimp only at stepped
    rw [← Prod.eta (s.pool.bm.fixPage txnId s.nextPage .exclusive), result, unchanged] at stepped
    cases stepped
    rfl
  subst same
  have pages : ∀ {q}, q ∈ s.countPage.segment.pages ↔ q ∈ s.segment.pages ∨ q = s.nextPage :=
    mem_pages_next few rfl rfl
  have isOld : ∀ {q}, q ∈ s.segment.pages → s.countPage.filed q = s.filed q :=
    fun member => update_of_mem inv.few s.filed false member
  have notFiled : s.countPage.filed s.nextPage = false := Function.update_self _ _ _
  have count : s.countPage.segment.pageCount.toNat < 2 ^ 48 := by
    change (s.segment.pageCount + 1).toNat < 2 ^ 48
    rw [UInt64.toNat_add]
    exact Nat.lt_of_le_of_lt (Nat.mod_le _ _) few
  refine ⟨inv.wf, count, fun q member there => ?_, fun q member isFiled => ?_,
    fun g listed alive => ?_, inv.sized, fun g listed committed => ?_, inv.apart⟩
  · rcases pages.mp member with old | rfl
    · have before : s.There q := by
        rw [There, isOld old] at there
        exact there
      obtain ⟨formatted, pointer⟩ := inv.shown q old before
      exact ⟨formatted, pointer⟩
    · rcases there with mapped | isFiled
      · change (s.pool.bm.pageTable s.nextPage).isSome = true at mapped
        rw [missing] at mapped
        cases mapped
      · rw [notFiled] at isFiled
        cases isFiled
  · rcases pages.mp member with old | rfl
    · rw [isOld old] at isFiled
      obtain ⟨onDisk, formatted, pointer⟩ := inv.filed q old isFiled
      exact ⟨onDisk, formatted, pointer⟩
    · rw [notFiled] at isFiled
      cases isFiled
  · obtain ⟨page, isPage, there, slot⟩ := inv.granted g listed alive
    refine ⟨page, pages.mpr (Or.inl isPage), ?_, slot⟩
    rw [There, isOld isPage]
    exact there
  · obtain ⟨alive, isFiled, slot⟩ := inv.committed g listed committed
    rw [isOld (inv.granted g listed alive).member]
    exact ⟨alive, isFiled, slot⟩

/-! ## Allocating -/

/-- The `TID`s of grants that are not lost. -/
def live (s : State) : List UInt64 := (s.grants.filter fun g => !g.lost).map Grant.tid

theorem mem_live (member : g ∈ s.grants) (alive : g.lost = false) : g.tid ∈ s.live := by
  apply List.mem_map_of_mem
  apply List.mem_filter.mpr
  exact ⟨member, by rw [alive]; rfl⟩

theorem Inv.holds (inv : s.Inv) (there : s.AllThere) :
    s.segment.Holds s.pool s.live where
  wf := inv.wf
  few := inv.few
  pages p member :=
    ⟨inv.whole member (there p member), (inv.shown p member (there p member)).formatted⟩
  names tid listed := by
    obtain ⟨g, kept, rfl⟩ := List.mem_map.mp listed
    obtain ⟨member, alive⟩ := List.mem_filter.mp kept
    obtain ⟨page, isPage, _, slot⟩ := inv.granted g member (by simpa using alive)
    rw [page] at isPage slot
    exact ⟨isPage, slot.1⟩

theorem Inv.base (inv : s.Inv) (there : s.AllThere) : s.base.Inv where
  holds := ⟨inv.wf, inv.few, (inv.holds there).pages,
    fun _ impossible => (List.not_mem_nil impossible).elim⟩
  origin p member := (inv.shown p member (there p member)).pointer
  size _ impossible := (List.not_mem_nil impossible).elim
  written _ impossible := (List.not_mem_nil impossible).elim

/-- Two grants of one page of slots. -/
theorem Granted.apart (granted : s.Granted g) (isOther : s.Granted other)
    (different : other.tid ≠ g.tid) (formatted : Formatted g.page (view s.pool g.page)) : g.Apart other := by
  refine ⟨different.symm, fun same => ?_⟩
  obtain ⟨isSlot, slot⟩ := granted.slot
  obtain ⟨isSlot', slot'⟩ := isOther.slot
  rw [← same] at isSlot' slot'
  have slots : (slotIdOf other.tid).toNat ≠ (slotIdOf g.tid).toNat := by
    intro equal
    have page := isOther.page.symm.trans (same.symm.trans granted.page)
    exact different (tid_ext page (UInt16.toNat_inj.mp equal))
  rw [Grant.range, Grant.range, ← slot, ← slot']
  exact formatted.apart isSlot isSlot' slots

/-- What is kept for each page, behind an `allocate`. -/
theorem kept_of_mem {β : Type} (few : s.segment.pageCount.toNat < 2 ^ 48) (kept : UInt64 → β)
    (x : β) (member : q ∈ s.segment.pages) :
    (if segment'.pageCount = s.segment.pageCount then kept
      else Function.update kept s.nextPage x) q = kept q := by
  split
  · rfl
  · exact update_of_mem few kept x member

/-- Pages that the segment file has had are old pages. -/
theorem mem_of_filed (allocates : Allocates s.segment s.pool size segment' pool t p before data)
    (member : q ∈ segment'.pages)
    (isFiled : (if segment'.pageCount = s.segment.pageCount then s.filed
      else Function.update s.filed s.nextPage false) q = true) : q ∈ s.segment.pages := by
  rcases (allocates.page q).mp member with old | rfl
  · exact old
  · rcases allocates.place with ⟨found, _⟩ | ⟨_, few, next, count, _⟩
    · exact List.mem_of_find?_eq_some found
    · rw [if_neg (by simp [count]), next] at isFiled
      change Function.update s.filed s.nextPage false s.nextPage = true at isFiled
      rw [Function.update_self] at isFiled
      cases isFiled

/-- Every page is there behind an `allocate`. -/
theorem allocated_there (few : s.segment.pageCount.toNat < 2 ^ 48)
    (there : s.AllThere)
    (allocates : Allocates s.segment s.pool size segment' pool t p before data)
    (member : q ∈ segment'.pages) : (s.allocated pool segment' txnId t size).There q := by
  have old : q ∈ s.segment.pages → (s.allocated pool segment' txnId t size).There q := by
    intro isPage
    rcases there q isPage with mapped | isFiled
    · obtain ⟨f, isMapped⟩ := Option.isSome_iff_exists.mp mapped
      have still : pool.bm.pageTable q = some f := allocates.puts.home q f isMapped
      exact Or.inl (Option.isSome_of_eq_some still)
    · exact Or.inr ((kept_of_mem few s.filed false isPage).trans isFiled)
  rcases (allocates.page q).mp member with isPage | rfl
  · exact old isPage
  · rcases allocates.place with ⟨found, _⟩ | ⟨_, _, _, _, _, _, f, home, _⟩
    · exact old (List.mem_of_find?_eq_some found)
    · have isMapped : pool.bm.pageTable q = some f := home
      exact Or.inl (Option.isSome_of_eq_some isMapped)

/-- The grants behind an `allocate` that are not lost. -/
theorem Inv.granted_allocate (inv : s.Inv) (there : s.AllThere)
    (allocates : Allocates s.segment s.pool size segment' pool t p before data)
    (listed : g ∈ (s.allocated pool segment' txnId t size).grants) (alive : g.lost = false) :
    (s.allocated pool segment' txnId t size).Granted g := by
  have holds := inv.holds there
  obtain ⟨holds', _⟩ := holds.allocate allocates
  rcases List.mem_cons.mp listed with rfl | old
  · obtain ⟨isPage, isSlot⟩ := holds'.names t List.mem_cons_self
    exact ⟨rfl, isPage, allocated_there inv.few there allocates isPage, isSlot, rfl⟩
  · have named := mem_live old alive
    obtain ⟨isPage, isSlot⟩ := holds'.names g.tid (List.mem_cons_of_mem t named)
    obtain ⟨page, _, _, _, slot⟩ := inv.granted g old alive
    have page' : g.page = overallPageIdOf segment'.segmentId g.tid := by rw [allocates.segmentId, page]
    have same := (holds.content_allocate allocates named).1
    rw [← page'] at isPage isSlot
    refine ⟨page', isPage, allocated_there inv.few there allocates isPage, isSlot, ?_⟩
    rw [slotOf, slotOf, ← page] at same
    exact same.trans slot

theorem Inv.allocate (inv : s.Inv) (meets : s.Meets (.allocate txnId size))
    (stepped : s.step (.allocate txnId size) = some s') : s'.Inv := by
  obtain ⟨⟨pool, segment', t⟩, ran, same⟩ := Option.bind_eq_some_iff.mp stepped
  cases same
  obtain ⟨there, fitting, stays⟩ := meets
  have base := inv.base there
  have holds := inv.holds there
  obtain ⟨p, before, data, allocates⟩ := allocate_spec (HeapSystem.fixes txnId true)
    HeapManager.allocated_closes inv.wf holds.pages fitting (base.findsOwn stays) ran
  obtain ⟨holds', fresh⟩ := holds.allocate allocates
  have image := BufferManager.sameImage_of_disk (HeapSystem.disk_allocate inv.wf ran)
    allocates.puts.pageSize
  have granted : ∀ g ∈ (s.allocated pool segment' txnId t size).grants, g.lost = false →
      (s.allocated pool segment' txnId t size).Granted g :=
    fun g => inv.granted_allocate there allocates
  refine ⟨holds'.wf, holds'.few, fun q member _ => ?_, fun q member isFiled => ?_, granted,
    fun g listed => ?_, fun g listed committed => ?_,
    List.pairwise_cons.mpr ⟨fun g old alive => ?_, inv.apart⟩⟩
  · exact ⟨(holds'.pages q member).2, base.origin_allocate allocates q member⟩
  · have old := mem_of_filed allocates member isFiled
    have before : s.filed q = true := (kept_of_mem inv.few s.filed false old).symm.trans isFiled
    obtain ⟨onDisk, formatted, pointer⟩ := inv.filed q old before
    refine ⟨(image q).onDisk onDisk, ?_⟩
    change IsPage _ q (pool.bm.image q)
    rw [(image q).image]
    exact ⟨formatted, pointer.trans (kept_of_mem inv.few s.origin _ old).symm⟩
  · rcases List.mem_cons.mp listed with rfl | old
    · exact Reloading.State.slotLength_allocated inv.few allocates
    · exact inv.sized g old
  · rcases List.mem_cons.mp listed with rfl | old
    · cases committed
    · obtain ⟨alive, isFiled, slot⟩ := inv.committed g old committed
      have isPage := (inv.granted g old alive).member
      exact ⟨alive, (kept_of_mem inv.few s.filed false isPage).trans isFiled,
        slot.of_eq (image g.page).image⟩
  · have isNew := granted _ List.mem_cons_self rfl
    apply isNew.apart (granted g (List.mem_cons_of_mem _ old) alive)
    · intro same
      have named := mem_live old alive
      rw [same] at named
      exact fresh named
    · exact (holds'.pages _ isNew.member).2

theorem Inv.step (inv : s.Inv) (meets : s.Meets action) (stepped : s.step action = some s') :
    s'.Inv := by
  cases action with
  | allocate txnId size => exact inv.allocate meets stepped
  | write txnId tid record => exact inv.write meets stepped
  | read txnId tid capacity => exact inv.read meets stepped
  | fixPage txnId pageId exclusive => exact inv.fixPage meets stepped
  | nextPageThrows txnId => exact inv.nextPageThrows meets stepped
  | flushPage pageId =>
    cases stepped
    exact inv.flush (BufferManager.writes_flushPage inv.wf pageId)
  | flushAllPages =>
    cases stepped
    exact inv.flush (BufferManager.writes_flushAllPages inv.wf)
  | transactionComplete txnId => exact inv.complete meets stepped
  | transactionAbort txnId =>
    cases stepped
    have fewer := inv.sublist (List.filter_sublist (p := fun g => g.txnId ≠ txnId ∨ g.committed))
    exact fewer.drop (BufferManager.drops_transactionAbort inv.wf txnId) s.pool.addresses s.pool.distinct
  | discardPage pageId =>
    cases stepped
    exact inv.drop (inv.wf.discardPage pageId).drops s.pool.addresses s.pool.distinct
  | discardPages txnId =>
    cases stepped
    exact inv.drop (BufferManager.drops_discardPages inv.wf txnId) s.pool.addresses s.pool.distinct
  | discardAllPages addresses distinct =>
    cases stepped
    exact inv.drop (BufferManager.drops_discardAllPages s.pool.bm) addresses distinct

/-! ## Runs -/

/-- In a run whose calls meet that, what committed transactions have allocated is durable. -/
theorem always_durable (segmentId : UInt16) (pageSize pageCount : Nat) (disk : Disk UInt8)
    (addresses : List UInt64) (distinct : addresses.Nodup) (actions : List Action)
    (meets : Machine.Along step Meets (new segmentId pageSize pageCount disk addresses distinct)
      actions) :
    Machine.Always step Durable (new segmentId pageSize pageCount disk addresses distinct) actions := by
  apply Machine.always (P := Inv) ?_ ?_ ?_ meets
  · intro s action s' inv meets stepped
    exact inv.step meets stepped
  · intro s inv
    exact inv.durable
  · exact Inv.new segmentId pageSize pageCount disk addresses distinct

/-- Two transactions that write what they allocate, and another one that allocates when the buffers have
been dropped. -/
def writtenSlots : List Action :=
  [.allocate 1 8, .write 1 0 (List.replicate 8 1), .transactionComplete 1, .allocate 2 8,
    .write 2 1 (List.replicate 8 2), .transactionComplete 2, .discardAllPages [4096] (by decide),
    .allocate 3 8]

theorem always_durable_written :
    Machine.Always step Durable (new 7 128 1 (fun _ => []) [4096] (by decide)) writtenSlots ∧
      (Machine.run step (new 7 128 1 (fun _ => []) [4096] (by decide)) writtenSlots).map
        (fun s => s.grants.map fun g => (g.tid, g.committed)) =
          some [(2, false), (1, true), (0, true)] :=
  ⟨always_durable 7 128 1 (fun _ => []) [4096] (by decide) writtenSlots (by decide +kernel),
    by decide +kernel⟩

/-- The second transaction does not write. -/
def unwrittenSlot : List Action :=
  [.allocate 1 8, .write 1 0 (List.replicate 8 1), .transactionComplete 1, .allocate 2 8]

/-- Its slot is not on disk when it has completed. -/
theorem not_always_durable : ¬ ∀ segmentId pageSize pageCount disk addresses distinct actions txnId,
    Machine.Along step Meets (new segmentId pageSize pageCount disk addresses distinct) actions →
    Machine.Always step Durable (new segmentId pageSize pageCount disk addresses distinct)
      (actions ++ [.transactionComplete txnId]) := by
  intro always
  have durable := always 7 128 1 (fun _ => []) [4096] (by decide) unwrittenSlot 2 (by decide +kernel)
  have result : ∃ s ∈ Machine.run step (new 7 128 1 (fun _ => []) [4096] (by decide))
      (unwrittenSlot ++ [.transactionComplete 2]), ∃ g ∈ s.grants, g.committed = true ∧
        ¬ g.SlotIn (s.pool.bm.image g.page) := by
    decide +kernel
  obtain ⟨s, ran, g, member, committed, missing⟩ := result
  exact missing ((durable.last ran).stored g member committed).2.1

/-- When the buffers have been dropped, `allocate` returns its `TID` again. -/
example : (Machine.run step (new 7 128 1 (fun _ => []) [4096] (by decide)) (unwrittenSlot ++
    [.transactionComplete 2, .discardAllPages [4096] (by decide), .allocate 3 8])).map
      (fun s => s.grants.map fun g => (g.tid, g.committed)) =
        some [(1, false), (1, true), (0, true)] := by
  decide +kernel

end State

end Allocations

end BuzzDB.Locking
