import BuzzDB.Recovery.Replay
import Mathlib.Data.Finset.Card

/-!
# Running out of frames

Frames are handed out in order and never again, so whether an operation gets through
depends on how many pages without a frame it touches.  `Touches` says what a sequence
of `fix_page` calls does to the pool, and `Room` is the exact condition under which
it returns.
-/

namespace BuzzDB.Recovery

namespace BufferManager

/-- A page has a frame. -/
def HasFrame (bm : BufferManager) (pageId : UInt64) : Prop :=
  ∃ frame ∈ bm.pool, frame.pageId = pageId

instance (bm : BufferManager) (pageId : UInt64) : Decidable (bm.HasFrame pageId) :=
  inferInstanceAs (Decidable (∃ frame ∈ bm.pool, _))

/-- The pages among `pages` that have no frame. -/
def missing (bm : BufferManager) (pages : List UInt64) : Finset UInt64 :=
  pages.toFinset.filter fun pageId => ¬ bm.HasFrame pageId

/-- There are frames for all of `pages`.  The last frame of the pool is never handed out. -/
def Room (bm : BufferManager) (pages : List UInt64) : Prop :=
  invalidPageId ∉ pages ∧
    (bm.missing pages = ∅ ∨ bm.pageCounter + (bm.missing pages).card < bm.pool.length)

instance (bm : BufferManager) (pages : List UInt64) : Decidable (bm.Room pages) :=
  inferInstanceAs (Decidable (_ ∧ (_ ∨ _)))

/-- The pool after the pages in `pages` have been fixed. -/
structure Touches (bm : BufferManager) (pages : List UInt64) (bm' : BufferManager) : Prop where
  hasFrame : ∀ q, q ≠ invalidPageId → (bm'.HasFrame q ↔ bm.HasFrame q ∨ q ∈ pages)
  counter : bm'.pageCounter = bm.pageCounter + (bm.missing pages).card
  capacity : bm'.pool.length = bm.pool.length

variable {bm mid bm' : BufferManager} {pages more : List UInt64} {pageId q : UInt64} {f : Nat}

theorem Touches.refl (bm : BufferManager) : Touches bm [] bm where
  hasFrame _ _ := by rw [or_iff_left List.not_mem_nil]
  counter := rfl
  capacity := rfl

/-- Of two sequences, the second one misses only what the first one has not fixed. -/
theorem Touches.missing_append (first : Touches bm pages mid) (valid : invalidPageId ∉ pages ++ more) :
    bm.missing (pages ++ more) = bm.missing pages ∪ mid.missing more := by
  ext q
  simp only [missing, Finset.mem_filter, List.mem_toFinset, Finset.mem_union, List.mem_append]
  by_cases member : q ∈ pages ++ more
  · have isValid : q ≠ invalidPageId := fun invalid => valid (invalid ▸ member)
    rw [first.hasFrame q isValid]
    tauto
  · rw [List.mem_append] at member
    tauto

theorem Touches.disjoint (first : Touches bm pages mid) (valid : invalidPageId ∉ pages)
    (more : List UInt64) : Disjoint (bm.missing pages) (mid.missing more) := by
  rw [Finset.disjoint_left]
  intro q inFirst inSecond
  simp only [missing, Finset.mem_filter, List.mem_toFinset] at inFirst inSecond
  have isValid : q ≠ invalidPageId := fun invalid => valid (invalid ▸ inFirst.1)
  exact inSecond.2 ((first.hasFrame q isValid).mpr (Or.inr inFirst.1))

theorem Touches.trans (first : Touches bm pages mid) (second : Touches mid more bm')
    (valid : invalidPageId ∉ pages ++ more) : Touches bm (pages ++ more) bm' where
  hasFrame q isValid := by
    rw [second.hasFrame q isValid, first.hasFrame q isValid, List.mem_append, or_assoc]
  counter := by
    have validFirst : invalidPageId ∉ pages := fun member => valid (List.mem_append_left _ member)
    rw [second.counter, first.counter, first.missing_append valid,
      Finset.card_union_of_disjoint (first.disjoint validFirst more), Nat.add_assoc]
  capacity := second.capacity.trans first.capacity

/-- Room for two sequences is room for the first and, behind it, for the second. -/
theorem Touches.room_append (first : Touches bm pages mid) (room : bm.Room pages) :
    bm.Room (pages ++ more) ↔ mid.Room more := by
  have validFirst := room.1
  by_cases valid : invalidPageId ∈ more
  · exact iff_of_false (fun h => h.1 (List.mem_append_right _ valid)) fun h => h.1 valid
  · have validAll : invalidPageId ∉ pages ++ more := by
      rw [List.mem_append]
      exact fun h => h.elim validFirst valid
    have card := Finset.card_union_of_disjoint (first.disjoint validFirst more)
    rw [Room, Room, first.missing_append validAll, card, first.counter, first.capacity,
      Finset.union_eq_empty, Nat.add_assoc]
    constructor
    · rintro ⟨_, ⟨_, empty⟩ | enough⟩
      · exact ⟨valid, Or.inl empty⟩
      · exact ⟨valid, Or.inr enough⟩
    · rintro ⟨_, empty | enough⟩
      · refine ⟨validAll, ?_⟩
        rcases room.2 with none | enough
        · exact Or.inl ⟨none, empty⟩
        · rw [empty, Finset.card_empty]
          exact Or.inr enough
      · exact ⟨validAll, Or.inr enough⟩

/-- A sequence without room for its front has no room. -/
theorem Room.of_append (room : bm.Room (pages ++ more)) : bm.Room pages := by
  obtain ⟨valid, enough⟩ := room
  have subset : bm.missing pages ⊆ bm.missing (pages ++ more) := by
    intro q member
    simp only [missing, Finset.mem_filter, List.mem_toFinset, List.mem_append] at member ⊢
    exact ⟨Or.inl member.1, member.2⟩
  refine ⟨fun member => valid (List.mem_append_left _ member), ?_⟩
  rcases enough with empty | enough
  · rw [empty, Finset.subset_empty] at subset
    exact Or.inl subset
  · have card := Finset.card_le_card subset
    exact Or.inr (by omega)

/-! ## Single operations -/

theorem missing_singleton : bm.missing [pageId] = if bm.HasFrame pageId then ∅ else {pageId} := by
  simp only [missing, List.toFinset_cons, List.toFinset_nil, insert_empty_eq,
    Finset.filter_singleton]
  split <;> simp_all

theorem getFrameIdOfPage_isSome : (bm.getFrameIdOfPage pageId).isSome ↔ bm.HasFrame pageId := by
  rw [getFrameIdOfPage, List.findIdx?_isSome, List.any_eq_true]
  simp only [HasFrame, beq_iff_eq]

/-- `fix_page` returns exactly if there is room. -/
theorem fixPage_isSome : (bm.fixPage pageId).isSome ↔ bm.Room [pageId] := by
  unfold BufferManager.fixPage Room
  rw [missing_singleton, List.mem_singleton]
  by_cases invalid : pageId = invalidPageId
  · rw [if_pos invalid]
    simp [invalid]
  · rw [if_neg invalid]
    have isValid : ¬ invalidPageId = pageId := fun same => invalid same.symm
    by_cases present : bm.HasFrame pageId
    · obtain ⟨f, found⟩ := Option.isSome_iff_exists.mp (getFrameIdOfPage_isSome.mpr present)
      rw [found, if_pos present]
      simp [isValid]
    · have absent : bm.getFrameIdOfPage pageId = none := by
        rw [← Option.not_isSome_iff_eq_none, getFrameIdOfPage_isSome]
        exact present
      rw [absent, if_neg present]
      dsimp only
      split
      · rename_i full
        simp only [Option.isSome_none, Bool.false_eq_true, isValid, not_false_eq_true,
          Finset.singleton_ne_empty, Finset.card_singleton, false_or, true_and, false_iff]
        omega
      · rename_i room
        simp only [Option.isSome_some, isValid, not_false_eq_true, Finset.singleton_ne_empty,
          Finset.card_singleton, false_or, true_and, true_iff]
        omega

/-- `fix_page` gives its page a frame and takes no frame away. -/
theorem Wf.fixPage_touches (wf : bm.Wf) (fixed : bm.fixPage pageId = some (bm', f)) :
    Touches bm [pageId] bm' := by
  unfold BufferManager.fixPage at fixed
  split at fixed
  · cases fixed
  split at fixed
  · rename_i frameId found
    cases fixed
    have present : bm.HasFrame pageId := getFrameIdOfPage_isSome.mp (by rw [found]; rfl)
    refine ⟨fun q _ => ?_, ?_, rfl⟩
    · rw [List.mem_singleton, or_iff_left_of_imp]
      rintro rfl
      exact present
    · rw [missing_singleton, if_pos present, Finset.card_empty, Nat.add_zero]
  · rename_i absent
    dsimp only at fixed
    split at fixed
    · cases fixed
    rename_i room
    cases fixed
    have missing : ¬ bm.HasFrame pageId := by
      rw [← getFrameIdOfPage_isSome, absent]
      exact Bool.false_ne_true
    have inside : bm.pageCounter < bm.pool.length := by omega
    refine ⟨fun q isValid => ?_, ?_, List.length_set⟩
    · rw [List.mem_singleton]
      constructor
      · rintro ⟨frame, member, rfl⟩
        rcases List.mem_or_eq_of_mem_set member with old | rfl
        · exact Or.inl ⟨frame, old, rfl⟩
        · exact Or.inr rfl
      · rintro (⟨frame, member, rfl⟩ | rfl)
        · obtain ⟨g, at_g⟩ := List.getElem?_of_mem member
          -- the frame that is handed out was blank
          have other : bm.pageCounter ≠ g := by
            rintro rfl
            exact isValid (wf.fresh _ _ at_g (Nat.le_refl _))
          refine ⟨frame, List.mem_of_getElem? (i := g) ?_, rfl⟩
          rw [List.getElem?_set_ne other]
          exact at_g
        · exact ⟨_, List.mem_set inside _, rfl⟩
    · rw [missing_singleton, if_neg missing, Finset.card_singleton]

/-- Two pools have the same pages in the same frames. -/
structure SameFrames (bm bm' : BufferManager) : Prop where
  pages : bm'.pool.map BufferFrame.pageId = bm.pool.map BufferFrame.pageId
  counter : bm'.pageCounter = bm.pageCounter

theorem hasFrame_iff : bm.HasFrame q ↔ q ∈ bm.pool.map BufferFrame.pageId := by
  rw [List.mem_map]
  rfl

theorem Touches.same (touches : Touches bm pages mid) (same : SameFrames mid bm') :
    Touches bm pages bm' where
  hasFrame q isValid := by
    rw [hasFrame_iff, same.pages, ← hasFrame_iff]
    exact touches.hasFrame q isValid
  counter := same.counter.trans touches.counter
  capacity := by
    have lengths := congrArg List.length same.pages
    rw [List.length_map, List.length_map] at lengths
    exact lengths.trans touches.capacity

theorem SameFrames.trans (first : SameFrames bm mid) (second : SameFrames mid bm') :
    SameFrames bm bm' :=
  ⟨second.pages.trans first.pages, second.counter.trans first.counter⟩

/-- Replacing a frame by one of the same page. -/
theorem map_pageId_set {pool : List BufferFrame} {frame frame' : BufferFrame}
    (at_f : pool[f]? = some frame) (same : frame'.pageId = frame.pageId) :
    (pool.set f frame').map BufferFrame.pageId = pool.map BufferFrame.pageId := by
  obtain ⟨inside, isFrame⟩ := List.getElem?_eq_some_iff.mp at_f
  rw [List.map_set, same, ← isFrame]
  refine List.ext_getElem? fun g => ?_
  rw [List.getElem?_set]
  split
  · rename_i here
    subst here
    simp [inside]
  · rfl

theorem memcpy_same (bm : BufferManager) (f offset : Nat) (src : List UInt8) :
    SameFrames bm (bm.memcpy f offset src) := by
  unfold memcpy
  split
  · rename_i frame at_f
    exact ⟨map_pageId_set at_f rfl, rfl⟩
  · exact ⟨rfl, rfl⟩

theorem unfixPage_same (bm : BufferManager) (f : Nat) (isDirty : Bool) :
    SameFrames bm (bm.unfixPage f isDirty) := by
  unfold unfixPage
  split
  · rename_i frame at_f
    exact ⟨map_pageId_set at_f rfl, rfl⟩
  · exact ⟨rfl, rfl⟩

theorem flushPage_same (bm : BufferManager) (pageId : UInt64) :
    SameFrames bm (bm.flushPage pageId) := by
  unfold flushPage
  split
  · split
    · exact ⟨rfl, rfl⟩
    · exact ⟨rfl, rfl⟩
  · exact ⟨rfl, rfl⟩

theorem flushAllPages_same (bm : BufferManager) : SameFrames bm bm.flushAllPages := ⟨rfl, rfl⟩

/-! ## Sequences of page writes -/

theorem writePage_isSome (offset : Nat) (src : List UInt8) :
    (bm.writePage pageId offset src).isSome ↔ bm.Room [pageId] := by
  rw [← fixPage_isSome, BufferManager.writePage]
  cases bm.fixPage pageId <;> rfl

theorem Wf.writePage_touches {offset : Nat} {src : List UInt8} (wf : bm.Wf)
    (written : bm.writePage pageId offset src = some bm') : Touches bm [pageId] bm' := by
  unfold BufferManager.writePage at written
  obtain ⟨⟨mid, f⟩, fixed, written⟩ := Option.bind_eq_some_iff.mp written
  cases written
  exact (wf.fixPage_touches fixed).same
    ((memcpy_same mid f offset src).trans (unfixPage_same _ f true))

theorem Wf.writePages_touches {ι : Type*} {page : ι → UInt64} {offset : ι → Nat}
    {src : ι → List UInt8} {xs : List ι} (wf : bm.Wf)
    (ran : xs.foldlM (fun bm x => bm.writePage (page x) (offset x) (src x)) bm = some bm')
    (valid : invalidPageId ∉ xs.map page) : Touches bm (xs.map page) bm' := by
  induction xs generalizing bm with
  | nil =>
    cases ran
    exact Touches.refl _
  | cons x xs ih =>
    obtain ⟨mid, first, rest⟩ := Machine.run_cons ran
    have validRest : invalidPageId ∉ xs.map page := fun member =>
      valid (List.mem_cons_of_mem _ member)
    exact (wf.writePage_touches first).trans (ih (wf.writePage first).wf rest validRest) valid

/-- A sequence of page writes returns exactly if there is room for all its pages. -/
theorem Wf.writePages_isSome {ι : Type*} {page : ι → UInt64} {offset : ι → Nat}
    {src : ι → List UInt8} {xs : List ι} (wf : bm.Wf) :
    (xs.foldlM (fun (bm : BufferManager) x =>
      bm.writePage (page x) (offset x) (src x)) bm).isSome ↔
      bm.Room (xs.map page) := by
  induction xs generalizing bm with
  | nil => exact iff_of_true rfl ⟨List.not_mem_nil, Or.inl (Finset.filter_empty _)⟩
  | cons x xs ih =>
    rw [List.foldlM_cons, List.map_cons, ← List.singleton_append]
    by_cases room : bm.Room [page x]
    · obtain ⟨mid, first⟩ := Option.isSome_iff_exists.mp
        ((writePage_isSome (offset x) (src x)).mpr room)
      rw [first, (wf.writePage_touches first).room_append room]
      exact ih (wf.writePage first).wf
    · have stuck : bm.writePage (page x) (offset x) (src x) = none := by
        rw [← Option.not_isSome_iff_eq_none, writePage_isSome]
        exact room
      rw [stuck]
      exact iff_of_false Bool.false_ne_true fun all => room all.of_append

/-- Discarding a page takes its frame away. -/
theorem Wf.hasFrame_discardPage (wf : bm.Wf) (isValid : q ≠ invalidPageId) :
    (bm.discardPage pageId).HasFrame q ↔ bm.HasFrame q ∧ q ≠ pageId := by
  unfold BufferManager.discardPage
  split
  · rename_i f found
    obtain ⟨frame, at_f, rfl⟩ := getFrameIdOfPage_spec found
    constructor
    · rintro ⟨other, member, isQ⟩
      obtain ⟨g, at_g⟩ := List.getElem?_of_mem member
      have inside : f < bm.pool.length := (List.getElem?_eq_some_iff.mp at_f).1
      by_cases here : f = g
      · subst here
        rw [List.getElem?_set_self inside, Option.some.injEq] at at_g
        subst at_g
        exact absurd isQ.symm isValid
      · rw [List.getElem?_set_ne here] at at_g
        refine ⟨⟨other, List.mem_of_getElem? at_g, isQ⟩, fun same => here ?_⟩
        have samePage : frame.pageId = other.pageId := same.symm.trans isQ.symm
        exact wf.unique f g frame other at_f at_g samePage (same ▸ isValid)
    · rintro ⟨⟨other, member, isQ⟩, different⟩
      obtain ⟨g, at_g⟩ := List.getElem?_of_mem member
      have elsewhere : f ≠ g := by
        rintro rfl
        rw [at_f, Option.some.injEq] at at_g
        exact different (isQ.symm.trans (congrArg BufferFrame.pageId at_g.symm))
      refine ⟨other, List.mem_of_getElem? (i := g) ?_, isQ⟩
      rw [List.getElem?_set_ne elsewhere]
      exact at_g
  · rename_i absent
    refine ⟨fun present => ⟨present, ?_⟩, And.left⟩
    rintro rfl
    have := getFrameIdOfPage_isSome.mpr present
    rw [absent] at this
    cases this

theorem discardPage_counters (bm : BufferManager) (pageId : UInt64) :
    (bm.discardPage pageId).pageCounter = bm.pageCounter ∧
      (bm.discardPage pageId).pool.length = bm.pool.length := by
  unfold BufferManager.discardPage
  split
  · exact ⟨rfl, List.length_set⟩
  · exact ⟨rfl, rfl⟩

/-! ## Frames stay where they are -/

/-- `fix_page` moves no page to another frame. -/
theorem Wf.getElem?_fixPage {g : Nat} {frame : BufferFrame} (wf : bm.Wf)
    (fixed : bm.fixPage pageId = some (bm', f)) (at_g : bm.pool[g]? = some frame)
    (isValid : frame.pageId ≠ invalidPageId) : bm'.pool[g]? = some frame := by
  unfold BufferManager.fixPage at fixed
  split at fixed
  · cases fixed
  split at fixed
  · cases fixed
    exact at_g
  · dsimp only at fixed
    split at fixed
    · cases fixed
    cases fixed
    -- the frame that is handed out was blank
    have other : bm.pageCounter ≠ g := by
      rintro rfl
      exact isValid (wf.fresh _ _ at_g (Nat.le_refl _))
    rw [List.getElem?_set_ne other]
    exact at_g

theorem SameFrames.getElem? {g : Nat} {frame : BufferFrame} (same : SameFrames bm bm')
    (at_g : bm.pool[g]? = some frame) :
    ∃ frame', bm'.pool[g]? = some frame' ∧ frame'.pageId = frame.pageId := by
  have pages := congrArg (fun pages => pages[g]?) same.pages
  simp only [List.getElem?_map, at_g, Option.map_some] at pages
  exact Option.map_eq_some_iff.mp pages

/-- `discard_page` leaves the frames of the other pages alone. -/
theorem getElem?_discardPage {g : Nat} {frame : BufferFrame} (at_g : bm.pool[g]? = some frame)
    (different : frame.pageId ≠ pageId) : (bm.discardPage pageId).pool[g]? = some frame := by
  unfold BufferManager.discardPage
  split
  · rename_i f found
    obtain ⟨discarded, at_f, isPage⟩ := getFrameIdOfPage_spec found
    have other : f ≠ g := by
      rintro rfl
      rw [at_f, Option.some.injEq] at at_g
      exact different (at_g ▸ isPage)
    rw [List.getElem?_set_ne other]
    exact at_g
  · exact at_g

/-- `unfix_page` of a frame that holds a page. -/
theorem Wf.unfixPage {frame : BufferFrame} (wf : bm.Wf) (at_f : bm.pool[f]? = some frame)
    (isValid : frame.pageId ≠ invalidPageId) (isDirty : Bool) :
    (bm.unfixPage f isDirty).Wf ∧ ∀ q i, (bm.unfixPage f isDirty).byte q i = bm.byte q i := by
  have result : bm.unfixPage f isDirty =
      bm.setFrame f { frame with dirty := frame.dirty || isDirty } bm.pageCounter := by
    rw [BufferManager.unfixPage, at_f]
    rfl
  have used : f < bm.pageCounter := by
    by_contra late
    exact isValid (wf.fresh f frame at_f (Nat.not_lt.mp late))
  have member := List.mem_of_getElem? at_f
  have wf' : (bm.setFrame f { frame with dirty := frame.dirty || isDirty } bm.pageCounter).Wf := by
    refine wf.setFrame at_f isValid (fun g other at_g same => ?_) (wf.length frame member)
      (fun notDirty => ?_) used (Nat.le_refl _)
    · exact wf.unique g f other frame at_g at_f same (same ▸ isValid)
    · exact wf.clean frame member (Bool.or_eq_false_iff.mp notDirty).1 isValid
  rw [result]
  refine ⟨wf', fun q i => ?_⟩
  rw [byte_setFrame wf wf' at_f isValid (Or.inl rfl)]
  split
  · rename_i same
    rw [same, wf.byte_eq at_f isValid]
  · rfl

/-- Room depends on the set of pages only. -/
theorem Room.congr (same : ∀ q, q ∈ pages ↔ q ∈ more) : bm.Room pages ↔ bm.Room more := by
  have sets : pages.toFinset = more.toFinset := by
    ext q
    rw [List.mem_toFinset, List.mem_toFinset, same]
  rw [Room, Room, same, missing, missing, sets]

end BufferManager

/-! ## Rollback and recovery -/

variable {lm : LogManager} {bm mid bm' : BufferManager} {rs front back : List LogRecord}
  {t : UInt64}

/-- The pages that undoing a transaction writes. -/
def undoPages (rs : List LogRecord) (t : UInt64) : List UInt64 :=
  ((rs.filter fun record => record.type = .updateRecord ∧ record.txnId = t).reverse).map
    LogRecord.pageId

/-- The pages that redo writes. -/
def redoPages (committedTxns : List UInt64) (rs : List LogRecord) : List UInt64 :=
  (rs.filter fun record => record.type = .updateRecord ∧ record.txnId ∈ committedTxns).map
    LogRecord.pageId

theorem mem_undoPages {q : UInt64} : q ∈ undoPages rs t ↔
    ∃ record ∈ rs, record.type = .updateRecord ∧ record.txnId = t ∧ record.pageId = q := by
  simp only [undoPages, List.mem_map, List.mem_reverse, List.mem_filter, decide_eq_true_eq,
    and_assoc]

theorem mem_redoPages {q : UInt64} {committedTxns : List UInt64} :
    q ∈ redoPages committedTxns rs ↔ ∃ record ∈ rs, record.type = .updateRecord ∧
      record.txnId ∈ committedTxns ∧ record.pageId = q := by
  simp only [redoPages, List.mem_map, List.mem_filter, decide_eq_true_eq, and_assoc]

/-- What follows the last write cannot fail. -/
theorem isSome_bind_some {α β : Type*} (x : Option α) (f : α → β) :
    (x.bind fun a => some (f a)).isSome ↔ x.isSome := by
  cases x with
  | none => exact Iff.rfl
  | some a => exact iff_of_true rfl rfl

/-- A rollback returns exactly if there is room for the pages it writes. -/
theorem rollbackTxn_isSome (holds : Holds lm (front ++ back)) (wf : bm.Wf)
    (first : lm.txnIdToFirstLogRecord t = (tapeBytes front).length) :
    (lm.rollbackTxn t bm).isSome ↔ bm.Room (undoPages back t) := by
  unfold LogManager.rollbackTxn
  rw [holds.updates first]
  exact (isSome_bind_some _ _).trans wf.writePages_isSome

theorem rollbackTxn_touches (holds : Holds lm (front ++ back)) (wf : bm.Wf)
    (first : lm.txnIdToFirstLogRecord t = (tapeBytes front).length)
    (ran : lm.rollbackTxn t bm = some bm') : bm.Touches (undoPages back t) bm' := by
  have room := (rollbackTxn_isSome holds wf first).mp (Option.isSome_of_eq_some ran)
  unfold LogManager.rollbackTxn at ran
  rw [holds.updates first] at ran
  obtain ⟨mid, undone, flushed⟩ := Option.bind_eq_some_iff.mp ran
  cases flushed
  exact (wf.writePages_touches undone room.1).same mid.flushAllPages_same

/-- The pages to undo lie behind the first update. -/
theorem StartsAt.undoPages_eq {offset : Nat} (starts : StartsAt rs t offset) :
    ∃ front back, rs = front ++ back ∧ offset = (tapeBytes front).length ∧
      undoPages rs t = undoPages back t := by
  obtain ⟨front, back, rfl, at_front, before⟩ := starts
  have none : (front.filter fun record => record.type = .updateRecord ∧ record.txnId = t) = [] := by
    rw [List.filter_eq_nil_iff]
    intro record member h
    rw [decide_eq_true_eq] at h
    exact before record member h.1 h.2
  exact ⟨front, back, rfl, at_front, by
    rw [undoPages, undoPages, List.filter_append, none, List.nil_append]⟩

theorem rollbackTxns_isSome (holds : Holds lm rs) (wf : bm.Wf)
    (inside : ∀ r ∈ rs, r.Inside bm.pageSize) {opens : List UInt64}
    (starts : ∀ t ∈ opens, StartsAt rs t (lm.txnIdToFirstLogRecord t)) :
    (opens.foldlM (fun bm t => lm.rollbackTxn t bm) bm).isSome ↔
      bm.Room (opens.flatMap (undoPages rs)) := by
  induction opens generalizing bm with
  | nil => exact iff_of_true rfl ⟨List.not_mem_nil, Or.inl (Finset.filter_empty _)⟩
  | cons t opens ih =>
    rw [List.foldlM_cons, List.flatMap_cons]
    have startsT := starts t List.mem_cons_self
    obtain ⟨front, back, split, at_front, pages⟩ := startsT.undoPages_eq
    have holdsSplit : Holds lm (front ++ back) := split ▸ holds
    by_cases room : bm.Room (undoPages rs t)
    · have roomBack := room
      rw [pages] at roomBack
      obtain ⟨mid, first⟩ := Option.isSome_iff_exists.mp
        ((rollbackTxn_isSome holdsSplit wf at_front).mpr roomBack)
      have step := rollbackTxn_spec holds wf inside startsT first
      have touches := rollbackTxn_touches holdsSplit wf at_front first
      rw [← pages] at touches
      rw [first, touches.room_append room]
      exact ih step.wf (by rw [step.pageSize]; exact inside)
        fun u member => starts u (List.mem_cons_of_mem t member)
    · have stuck : lm.rollbackTxn t bm = none := by
        rw [← Option.not_isSome_iff_eq_none, rollbackTxn_isSome holdsSplit wf at_front, ← pages]
        exact room
      rw [stuck]
      exact iff_of_false Bool.false_ne_true fun all => room all.of_append

/-- Redo writes the pages of the updates it redoes. -/
theorem redo_eq_writes (committedTxns : List UInt64) :
    rs.foldlM (LogManager.redoRecord committedTxns) bm =
      (rs.filter fun record => record.type = .updateRecord ∧ record.txnId ∈ committedTxns).foldlM
        (fun (bm : BufferManager) record =>
          bm.writePage record.pageId record.offset.toNat record.afterImg) bm := by
  induction rs generalizing bm with
  | nil => rfl
  | cons record rs ih =>
    rw [List.foldlM_cons, List.filter_cons, LogManager.redoRecord]
    by_cases redone : record.type = .updateRecord ∧ record.txnId ∈ committedTxns
    · rw [if_pos redone, if_pos (decide_eq_true redone), List.foldlM_cons]
      congr 1
      funext bm
      exact ih
    · rw [if_neg redone, if_neg fun h => redone (of_decide_eq_true h)]
      exact ih

theorem redo_isSome (wf : bm.Wf) (committedTxns : List UInt64) :
    (rs.foldlM (LogManager.redoRecord committedTxns) bm).isSome ↔
      bm.Room (redoPages committedTxns rs) := by
  rw [redo_eq_writes, wf.writePages_isSome]
  rfl

theorem redo_touches (wf : bm.Wf) {committedTxns : List UInt64}
    (ran : rs.foldlM (LogManager.redoRecord committedTxns) bm = some bm') :
    bm.Touches (redoPages committedTxns rs) bm' := by
  have room := (redo_isSome wf committedTxns).mp (Option.isSome_of_eq_some ran)
  rw [redo_eq_writes] at ran
  exact wf.writePages_touches ran room.1

/-- Recovery returns exactly if there is room for the pages of the committed and of the open
transactions. -/
theorem recovery_isSome (holds : Holds lm rs) (wf : bm.Wf)
    (inside : ∀ r ∈ rs, r.Inside bm.pageSize) (orderly : UndoRedo.Orderly (entries rs)) :
    (lm.recovery bm).isSome ↔ bm.Room (redoPages lm.analysis.committedTxns rs ++
      lm.analysis.activeTxns.flatMap (undoPages rs)) := by
  have analysed := analysed lm.txnIdToFirstLogRecord holds.sized orderly
  rw [← holds.analysis_eq] at analysed
  have holds' : Holds { lm with txnIdToFirstLogRecord := lm.analysis.txnIdToFirstLogRecord } rs :=
    holds.congr rfl rfl
  have starts : ∀ t ∈ lm.analysis.activeTxns, StartsAt rs t (lm.analysis.txnIdToFirstLogRecord t) :=
    fun t member => analysed.first t ((analysed.active t).mp member)
  unfold LogManager.recovery
  simp only [holds'.records_zero, map_snd_positions]
  by_cases room : bm.Room (redoPages lm.analysis.committedTxns rs)
  · obtain ⟨mid, redo⟩ := Option.isSome_iff_exists.mp ((redo_isSome wf _).mpr room)
    obtain ⟨midWf, midSize, _⟩ := redo_spec wf holds.sized inside redo
    rw [redo, (redo_touches wf redo).room_append room,
      ← rollbackTxns_isSome holds' midWf (by rw [midSize]; exact inside) starts]
    exact isSome_bind_some _ _
  · have stuck : rs.foldlM (LogManager.redoRecord lm.analysis.committedTxns) bm = none := by
      rw [← Option.not_isSome_iff_eq_none, redo_isSome wf]
      exact room
    rw [stuck]
    exact iff_of_false Bool.false_ne_true fun all => room all.of_append

end BuzzDB.Recovery
