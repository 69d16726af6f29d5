import BuzzDB.Recovery.Decoding
import BuzzDB.Recovery.Frames

/-!
# Interrupted recoveries

`recovery` as the sequence of its page writes and flushes.  The sequence is a function of
the tape alone (`recoverySteps_congr`), so a recovery after a crash in the middle of
another one writes again every byte that the first one has written, whatever part of
it was flushed.
-/

namespace BuzzDB.Recovery

/-- What `recovery` does to the buffer manager. -/
inductive RecoveryStep
  | write (pageId : UInt64) (offset : Nat) (image : List UInt8)
  | flushAllPages

namespace RecoveryStep

/-- One step; `none` is the exit of a `fix_page` that finds no frame. -/
def exec (bm : BufferManager) : RecoveryStep → Option BufferManager
  | write pageId offset image => bm.writePage pageId offset image
  | flushAllPages => some bm.flushAllPages

/-- The pages a step fixes. -/
def pages : RecoveryStep → List UInt64
  | write pageId _ _ => [pageId]
  | flushAllPages => []

/-- The value a step writes at byte `i` of page `q`. -/
def image (pageSize : Nat) (q : UInt64) (i : Nat) : RecoveryStep → Option UInt8
  | write pageId offset image =>
    if q = pageId ∧ i < pageSize ∧ offset ≤ i ∧ i < offset + image.length then
      some (image.getD (i - offset) 0)
    else none
  | flushAllPages => none

end RecoveryStep

namespace LogManager

/-- The steps of redoing the committed transactions. -/
def redoSteps (lm : LogManager) (committedTxns : List UInt64) : List RecoveryStep :=
  (((lm.records 0).map Prod.snd).filter fun record =>
    record.type = .updateRecord ∧ record.txnId ∈ committedTxns).map fun record =>
      .write record.pageId record.offset.toNat record.afterImg

/-- The steps of a rollback that starts at `offset`. -/
def rollbackSteps (lm : LogManager) (offset : Nat) (txnId : UInt64) : List RecoveryStep :=
  ((((lm.records offset).map Prod.snd).filter fun record =>
    record.type = .updateRecord ∧ record.txnId = txnId).reverse.map fun record =>
      .write record.pageId record.offset.toNat record.beforeImg) ++ [.flushAllPages]

/-- The steps of `recovery`. -/
def recoverySteps (lm : LogManager) : List RecoveryStep :=
  lm.redoSteps lm.analysis.committedTxns ++
    lm.analysis.activeTxns.flatMap (fun txnId =>
      lm.rollbackSteps (lm.analysis.txnIdToFirstLogRecord txnId) txnId) ++ [.flushAllPages]

/-- A recovery that is cut off behind `count` of its steps; the frames of the pages in `flushed`
reach the disk, and the others are lost. -/
def interrupted (lm : LogManager) (bm : BufferManager) (count : Nat) (flushed : List UInt64) :
    Option BufferManager :=
  (Machine.run RecoveryStep.exec bm (lm.recoverySteps.take count)).map fun bm =>
    (flushed.foldl BufferManager.flushPage bm).discardAllPages

end LogManager

/-- A buffer manager as a restart finds it: no page has a frame. -/
def BufferManager.Fresh (bm : BufferManager) : Prop :=
  ∀ frame ∈ bm.pool, frame = BufferFrame.blank bm.pageSize

variable {lm lm' lm₂ : LogManager} {bm bm' bm₂ mid : BufferManager} {steps : List RecoveryStep}
  {q : UInt64} {i : Nat}

/-! ## Recovery is the run of its steps -/

theorem records_congr (file : lm₂.logFile = lm.logFile)
    (offset : lm₂.currentOffset = lm.currentOffset) (start : Nat) :
    lm₂.records start = lm.records start := by
  have visited : ∀ fuel start, lm₂.recordsFrom fuel start = lm.recordsFrom fuel start := by
    intro fuel
    induction fuel with
    | zero => exact fun _ => rfl
    | succ fuel ih =>
      intro start
      rw [LogManager.recordsFrom, LogManager.recordsFrom, file, offset]
      simp only [ih]
  rw [LogManager.records, LogManager.records, offset, visited]

theorem redoSteps_congr (file : lm₂.logFile = lm.logFile)
    (offset : lm₂.currentOffset = lm.currentOffset) (committedTxns : List UInt64) :
    lm₂.redoSteps committedTxns = lm.redoSteps committedTxns := by
  rw [LogManager.redoSteps, records_congr file offset, LogManager.redoSteps]

theorem rollbackSteps_congr (file : lm₂.logFile = lm.logFile)
    (offset : lm₂.currentOffset = lm.currentOffset) (start : Nat) (txnId : UInt64) :
    lm₂.rollbackSteps start txnId = lm.rollbackSteps start txnId := by
  rw [LogManager.rollbackSteps, records_congr file offset, LogManager.rollbackSteps]

theorem redo_eq_run (lm : LogManager) (committedTxns : List UInt64) (bm : BufferManager) :
    ((lm.records 0).map Prod.snd).foldlM (LogManager.redoRecord committedTxns) bm =
      Machine.run RecoveryStep.exec bm (lm.redoSteps committedTxns) := by
  rw [redo_eq_writes, Machine.run, LogManager.redoSteps, List.foldlM_map]
  rfl

theorem rollbackTxn_eq_run (lm : LogManager) (txnId : UInt64) (bm : BufferManager) :
    lm.rollbackTxn txnId bm = Machine.run RecoveryStep.exec bm
      (lm.rollbackSteps (lm.txnIdToFirstLogRecord txnId) txnId) := by
  rw [LogManager.rollbackSteps, Machine.run_append, Machine.run, List.foldlM_map]
  rfl

theorem rollbackTxns_eq_run (lm : LogManager) (opens : List UInt64) (bm : BufferManager) :
    opens.foldlM (fun bm txnId => lm.rollbackTxn txnId bm) bm =
      Machine.run RecoveryStep.exec bm (opens.flatMap fun txnId =>
        lm.rollbackSteps (lm.txnIdToFirstLogRecord txnId) txnId) := by
  induction opens generalizing bm with
  | nil => rfl
  | cons txnId opens ih =>
    rw [List.foldlM_cons, List.flatMap_cons, Machine.run_append, rollbackTxn_eq_run]
    exact congrArg _ (funext ih)

/-- `recovery` does to the buffer manager what its steps do. -/
theorem recovery_eq_run (lm : LogManager) (bm : BufferManager) :
    (lm.recovery bm).map Prod.snd = Machine.run RecoveryStep.exec bm lm.recoverySteps := by
  let analysed : LogManager :=
    { lm with txnIdToFirstLogRecord := lm.analysis.txnIdToFirstLogRecord }
  have redo := redo_eq_run analysed lm.analysis.committedTxns bm
  have undo := rollbackTxns_eq_run analysed lm.analysis.activeTxns
  have file : analysed.logFile = lm.logFile := rfl
  have offset : analysed.currentOffset = lm.currentOffset := rfl
  have sameRedo := redoSteps_congr file offset lm.analysis.committedTxns
  have sameUndo := rollbackSteps_congr file offset
  rw [sameRedo] at redo
  simp only [sameUndo] at undo
  unfold LogManager.recovery
  rw [LogManager.recoverySteps, Machine.run_append, Machine.run_append]
  dsimp only
  rw [redo]
  cases Machine.run RecoveryStep.exec bm (lm.redoSteps lm.analysis.committedTxns) with
  | none => rfl
  | some redone =>
    change Option.map Prod.snd ((lm.analysis.activeTxns.foldlM
      (fun bm txnId => analysed.rollbackTxn txnId bm) redone).bind _) = _
    rw [undo, Option.bind_some]
    cases Machine.run RecoveryStep.exec redone (lm.analysis.activeTxns.flatMap fun txnId =>
      lm.rollbackSteps (analysed.txnIdToFirstLogRecord txnId) txnId) with
    | none => rfl
    | some undone => rfl

/-! ## The steps depend on the tape only -/

/-- Two analyses that may differ in the offsets of transactions that are not active. -/
structure Agrees (a b : LogManager.Analysis) : Prop where
  active : b.activeTxns = a.activeTxns
  committed : b.committedTxns = a.committedTxns
  checkpoint : b.lastCheckpointOffset = a.lastCheckpointOffset
  checkpointTxns : b.lastCheckpointTxns = a.lastCheckpointTxns
  first : ∀ t ∈ a.activeTxns, b.txnIdToFirstLogRecord t = a.txnIdToFirstLogRecord t

variable {a b : LogManager.Analysis}

/-- A transaction becomes active. -/
theorem Agrees.activate (agrees : Agrees a b) (t : UInt64) (offset : Nat) :
    Agrees
      { a with
        activeTxns := StdSet.insert txnLt t a.activeTxns
        txnIdToFirstLogRecord := Function.update a.txnIdToFirstLogRecord t offset }
      { b with
        activeTxns := StdSet.insert txnLt t b.activeTxns
        txnIdToFirstLogRecord := Function.update b.txnIdToFirstLogRecord t offset } where
  active := congrArg (StdSet.insert txnLt t) agrees.active
  committed := agrees.committed
  checkpoint := agrees.checkpoint
  checkpointTxns := agrees.checkpointTxns
  first u member := by
    dsimp only
    rcases eq_or_ne u t with rfl | different
    · rw [Function.update_self, Function.update_self]
    · rw [Function.update_of_ne different, Function.update_of_ne different]
      exact agrees.first u ((StdSet.mem_of_mem_insert member).resolve_left different)

/-- A transaction is not active any more. -/
theorem Agrees.erase (agrees : Agrees a b) (t : UInt64) (committedTxns : List UInt64) :
    Agrees { a with activeTxns := StdSet.erase t a.activeTxns, committedTxns }
      { b with activeTxns := StdSet.erase t b.activeTxns, committedTxns } where
  active := congrArg (StdSet.erase t) agrees.active
  committed := rfl
  checkpoint := agrees.checkpoint
  checkpointTxns := agrees.checkpointTxns
  first u member := agrees.first u (StdSet.mem_erase.mp member).1

theorem Agrees.step (agrees : Agrees a b) (entry : Nat × LogRecord) :
    Agrees (a.step entry) (b.step entry) := by
  obtain ⟨offset, record⟩ := entry
  cases type : record.type with
  | beginRecord =>
    simp only [LogManager.Analysis.step, type]
    by_cases isCommitted : record.txnId ∈ a.committedTxns
    · rw [if_pos isCommitted, if_pos (agrees.committed ▸ isCommitted)]
      exact agrees
    · rw [if_neg isCommitted, if_neg (agrees.committed ▸ isCommitted)]
      exact agrees.activate record.txnId offset
  | commitRecord =>
    simp only [LogManager.Analysis.step, type, agrees.committed]
    exact agrees.erase record.txnId _
  | abortRecord =>
    have erased := agrees.erase record.txnId a.committedTxns
    simp only [LogManager.Analysis.step, type, agrees.committed]
    exact erased
  | checkpointRecord =>
    simp only [LogManager.Analysis.step, type]
    exact ⟨agrees.active, agrees.committed, rfl, rfl, agrees.first⟩
  | _ =>
    simp only [LogManager.Analysis.step, type]
    exact agrees

theorem Agrees.addFromCheckpoint (agrees : Agrees a b) (entry : UInt64 × Nat) :
    Agrees (a.addFromCheckpoint entry) (b.addFromCheckpoint entry) := by
  obtain ⟨txnId, firstLogOffset⟩ := entry
  unfold LogManager.Analysis.addFromCheckpoint
  dsimp only
  by_cases isCommitted : txnId ∈ a.committedTxns
  · rw [if_pos isCommitted, if_pos (agrees.committed ▸ isCommitted)]
    exact agrees
  · rw [if_neg isCommitted, if_neg (agrees.committed ▸ isCommitted)]
    exact agrees.activate txnId firstLogOffset

/-- A loop of which every iteration keeps two analyses in agreement. -/
theorem Agrees.foldl {α : Type*} {f : LogManager.Analysis → α → LogManager.Analysis}
    (one : ∀ {a b}, Agrees a b → ∀ x, Agrees (f a x) (f b x)) (agrees : Agrees a b) (xs : List α) :
    Agrees (xs.foldl f a) (xs.foldl f b) := by
  induction xs generalizing a b with
  | nil => exact agrees
  | cons x xs ih => exact ih (one agrees x)

theorem analysis_agrees (file : lm₂.logFile = lm.logFile)
    (offset : lm₂.currentOffset = lm.currentOffset) : Agrees lm.analysis lm₂.analysis := by
  have start : Agrees ⟨[], [], lm.txnIdToFirstLogRecord, 0, []⟩
      ⟨[], [], lm₂.txnIdToFirstLogRecord, 0, []⟩ :=
    ⟨rfl, rfl, rfl, rfl, fun _ impossible => absurd impossible List.not_mem_nil⟩
  have visited := start.foldl Agrees.step (lm.records 0)
  unfold LogManager.analysis
  dsimp only
  rw [records_congr file offset, visited.checkpoint, visited.checkpointTxns]
  split
  · exact visited.foldl Agrees.addFromCheckpoint _
  · exact visited

/-- Two log managers over the same tape recover with the same steps. -/
theorem recoverySteps_congr (file : lm₂.logFile = lm.logFile)
    (offset : lm₂.currentOffset = lm.currentOffset) : lm₂.recoverySteps = lm.recoverySteps := by
  have agrees := analysis_agrees file offset
  have rollbacks : lm.analysis.activeTxns.flatMap (fun txnId =>
      lm₂.rollbackSteps (lm₂.analysis.txnIdToFirstLogRecord txnId) txnId) =
      lm.analysis.activeTxns.flatMap fun txnId =>
        lm.rollbackSteps (lm.analysis.txnIdToFirstLogRecord txnId) txnId := by
    refine List.flatMap_congr fun txnId member => ?_
    rw [agrees.first txnId member, rollbackSteps_congr file offset]
  rw [LogManager.recoverySteps, agrees.active, agrees.committed, rollbacks,
    redoSteps_congr file offset, LogManager.recoverySteps]

/-! ## What the steps leave in the pages -/

/-- What a run of steps guarantees: a byte is what the last write that reaches it has made of it,
and on disk what it was there or what a part of the steps has made of it. -/
structure Ran (bm : BufferManager) (steps : List RecoveryStep) (bm' : BufferManager) : Prop where
  wf : bm'.Wf
  pageSize : bm'.pageSize = bm.pageSize
  byte : ∀ q i, bm'.byte q i =
    UndoRedo.written (RecoveryStep.image bm.pageSize q i) steps (bm.byte q i)
  durable : ∀ q i, bm'.durable q i = bm.durable q i ∨ ∃ part, part <+: steps ∧
    bm'.durable q i = UndoRedo.written (RecoveryStep.image bm.pageSize q i) part (bm.byte q i)
  touches : invalidPageId ∉ steps.flatMap RecoveryStep.pages →
    bm.Touches (steps.flatMap RecoveryStep.pages) bm'

theorem Ran.nil (wf : bm.Wf) : Ran bm [] bm :=
  ⟨wf, rfl, fun _ _ => rfl, fun _ _ => Or.inl rfl, fun _ => .refl bm⟩

/-- One step. -/
theorem Ran.one {step : RecoveryStep} (wf : bm.Wf) (stepped : step.exec bm = some bm') :
    Ran bm [step] bm' := by
  cases step with
  | write pageId offset image =>
    have written := wf.writePage stepped
    refine ⟨written.wf, written.pageSize, fun q i => ?_, fun q i => ?_,
      fun _ => wf.writePage_touches stepped⟩
    · rw [written.byte, UndoRedo.written, List.foldl_cons, List.foldl_nil, RecoveryStep.image]
      split
      · rfl
      · rfl
    · rw [BufferManager.durable, written.disk, written.pageSize]
      exact Or.inl rfl
  | flushAllPages =>
    cases stepped
    have flushed := wf.flushAllPages
    refine ⟨flushed.wf, flushed.pageSize, flushed.byte,
      fun q i => Or.inr ⟨[], List.nil_prefix, ?_⟩,
      fun _ => (BufferManager.Touches.refl bm).same bm.flushAllPages_same⟩
    rw [flushed.durable]
    rfl

theorem Ran.trans {front back : List RecoveryStep} (first : Ran bm front mid)
    (second : Ran mid back bm') : Ran bm (front ++ back) bm' where
  wf := second.wf
  pageSize := second.pageSize.trans first.pageSize
  byte q i := by rw [second.byte, first.byte, first.pageSize, UndoRedo.written_append]
  durable q i := by
    rcases second.durable q i with same | ⟨part, inBack, same⟩
    · rcases first.durable q i with before | ⟨part, inFront, before⟩
      · exact Or.inl (same.trans before)
      · exact Or.inr ⟨part, inFront.trans (List.prefix_append front back), same.trans before⟩
    · refine Or.inr ⟨front ++ part, (List.prefix_append_right_inj front).mpr inBack, ?_⟩
      rw [same, first.byte, first.pageSize, UndoRedo.written_append]
  touches valid := by
    rw [List.flatMap_append] at valid ⊢
    exact (first.touches fun member => valid (List.mem_append_left _ member)).trans
      (second.touches fun member => valid (List.mem_append_right _ member)) valid

theorem Ran.run (wf : bm.Wf) (ran : Machine.run RecoveryStep.exec bm steps = some bm') :
    Ran bm steps bm' := by
  induction steps generalizing bm with
  | nil =>
    cases ran
    exact .nil wf
  | cons step steps ih =>
    obtain ⟨mid, stepped, rest⟩ := Machine.run_cons ran
    have first := Ran.one wf stepped
    exact first.trans (ih first.wf rest)

/-- A run of steps returns exactly if there is room for its pages. -/
theorem run_isSome (wf : bm.Wf) :
    (Machine.run RecoveryStep.exec bm steps).isSome ↔
      bm.Room (steps.flatMap RecoveryStep.pages) := by
  induction steps generalizing bm with
  | nil => exact iff_of_true rfl ⟨List.not_mem_nil, Or.inl (Finset.filter_empty _)⟩
  | cons step steps ih =>
    have one : (step.exec bm).isSome ↔ bm.Room step.pages := by
      cases step with
      | write pageId offset image => exact BufferManager.writePage_isSome offset image
      | flushAllPages => exact iff_of_true rfl ⟨List.not_mem_nil, Or.inl (Finset.filter_empty _)⟩
    rw [Machine.run, List.foldlM_cons, List.flatMap_cons]
    by_cases room : bm.Room step.pages
    · obtain ⟨mid, stepped⟩ := Option.isSome_iff_exists.mp (one.mpr room)
      have ran := Ran.one wf stepped
      have single : [step].flatMap RecoveryStep.pages = step.pages := List.flatMap_singleton _ _
      have touches := ran.touches (single.symm ▸ room.1)
      rw [single] at touches
      rw [stepped, touches.room_append room]
      exact ih ran.wf
    · have stuck : step.exec bm = none := by
        rw [← Option.not_isSome_iff_eq_none, one]
        exact room
      rw [stuck]
      exact iff_of_false Bool.false_ne_true fun all => room all.of_append

/-! ## Crash and restart -/

theorem BufferManager.Fresh.discardAllPages (bm : BufferManager) : bm.discardAllPages.Fresh := by
  intro frame member
  obtain ⟨_, _, rfl⟩ := List.mem_map.mp member
  rfl

theorem BufferManager.Fresh.wf (fresh : bm.Fresh) : bm.Wf := by
  have same : bm.discardAllPages = bm := by
    have blank : (bm.pool.map fun _ => BufferFrame.blank bm.pageSize) = bm.pool := by
      conv_rhs => rw [← List.map_id bm.pool]
      exact List.map_congr_left fun frame member => (fresh frame member).symm
    rw [BufferManager.discardAllPages, blank]
  exact same ▸ (BufferManager.discarded_all bm).wf

/-- A restart sees what is on disk. -/
theorem BufferManager.Fresh.byte (fresh : bm.Fresh) (q : UInt64) (i : Nat) :
    bm.byte q i = bm.durable q i := by
  refine BufferManager.byte_of_blank fun frame member => ?_
  rw [fresh frame member]
  rfl

/-- A pool with as many frames to hand out as an empty one has room for all that this one has. -/
theorem BufferManager.Fresh.room {pages : List UInt64} (fresh : bm.Fresh) (room : bm.Room pages)
    (counter : bm₂.pageCounter ≤ bm.pageCounter) (capacity : bm.pool.length ≤ bm₂.pool.length) :
    bm₂.Room pages := by
  obtain ⟨valid, enough⟩ := room
  have fewer : bm₂.missing pages ⊆ bm.missing pages := by
    intro q member
    obtain ⟨isPage, _⟩ := Finset.mem_filter.mp member
    refine Finset.mem_filter.mpr ⟨isPage, fun hasFrame => ?_⟩
    obtain ⟨frame, inPool, same⟩ := hasFrame
    have isInvalid : frame.pageId = invalidPageId := congrArg BufferFrame.pageId (fresh frame inPool)
    rw [← same, isInvalid, List.mem_toFinset] at isPage
    exact valid isPage
  have card := Finset.card_le_card fewer
  refine ⟨valid, enough.imp (fun empty => ?_) fun enough => ?_⟩
  · rw [empty] at fewer
    exact Finset.subset_empty.mp fewer
  · omega

/-- What an interrupted recovery leaves on disk. -/
theorem interrupted_durable {count : Nat} {flushed : List UInt64} (fresh : bm.Fresh)
    (cut : lm.interrupted bm count flushed = some bm') :
    bm'.pageSize = bm.pageSize ∧ ∀ q i, ∃ part, part <+: lm.recoverySteps ∧
      bm'.durable q i =
        UndoRedo.written (RecoveryStep.image bm.pageSize q i) part (bm.durable q i) := by
  obtain ⟨mid, ran, rfl⟩ := Option.map_eq_some_iff.mp cut
  have partly := Ran.run fresh.wf ran
  obtain ⟨wf, pageSize, bytes⟩ := partly.wf.flushPages flushed
  have discarded := BufferManager.discarded_all (flushed.foldl BufferManager.flushPage mid)
  refine ⟨discarded.pageSize.trans (pageSize.trans partly.pageSize), fun q i => ?_⟩
  have disk : (flushed.foldl BufferManager.flushPage mid).discardAllPages.durable q i =
      (flushed.foldl BufferManager.flushPage mid).durable q i := by
    rw [BufferManager.durable, discarded.disk, discarded.pageSize, BufferManager.durable]
  have prefixes := List.take_prefix count lm.recoverySteps
  rw [disk]
  rcases (bytes q i).2 with same | same
  · rcases partly.durable q i with before | ⟨part, inFront, before⟩
    · exact ⟨[], List.nil_prefix, same.trans before⟩
    · rw [fresh.byte] at before
      exact ⟨part, inFront.trans prefixes, same.trans before⟩
  · refine ⟨lm.recoverySteps.take count, prefixes, ?_⟩
    rw [same, partly.byte, fresh.byte]

/-- What an uninterrupted recovery leaves in the pages and on disk. -/
theorem recovery_written (wf : bm.Wf) (recovered : lm.recovery bm = some (lm', bm')) :
    Ran bm lm.recoverySteps bm' ∧ ∀ q i, bm'.durable q i = bm'.byte q i := by
  have ran : Machine.run RecoveryStep.exec bm lm.recoverySteps = some bm' := by
    rw [← recovery_eq_run, recovered]
    rfl
  refine ⟨Ran.run wf ran, fun q i => ?_⟩
  rw [LogManager.recoverySteps, Machine.run_append] at ran
  obtain ⟨mid, first, last⟩ := Option.bind_eq_some_iff.mp ran
  cases last
  have flushed := (Ran.run wf first).wf.flushAllPages
  rw [flushed.durable, flushed.byte]
  rfl

/-- A recovery that can be run returns. -/
theorem recovery_of_room (wf : bm.Wf)
    (room : bm.Room (lm.recoverySteps.flatMap RecoveryStep.pages)) :
    ∃ lm' bm', lm.recovery bm = some (lm', bm') := by
  obtain ⟨bm', ran⟩ := Option.isSome_iff_exists.mp ((run_isSome wf).mpr room)
  rw [← recovery_eq_run] at ran
  obtain ⟨result, recovered, rfl⟩ := Option.map_eq_some_iff.mp ran
  exact ⟨result.1, result.2, recovered⟩

/-- A recovery over pages in which a part of its steps has been done, on the same tape, brings them
to where one from the start does. -/
theorem recovery_again {full : BufferManager} (wf : bm.Wf) (wf₂ : bm₂.Wf)
    (file : lm₂.logFile = lm.logFile) (offset : lm₂.currentOffset = lm.currentOffset)
    (uninterrupted : lm.recovery bm = some (lm', full)) (pageSize : bm₂.pageSize = bm.pageSize)
    (parts : ∀ q i, ∃ part, part <+: lm.recoverySteps ∧ bm₂.byte q i =
      UndoRedo.written (RecoveryStep.image bm.pageSize q i) part (bm.byte q i))
    (room : bm₂.Room (lm.recoverySteps.flatMap RecoveryStep.pages)) :
    ∃ result, lm₂.recovery bm₂ = some result ∧ ∀ q i,
      result.2.byte q i = full.byte q i ∧ result.2.durable q i = full.durable q i := by
  have steps := recoverySteps_congr file offset
  rw [← steps] at room
  obtain ⟨lm₂', again, recovered⟩ := recovery_of_room wf₂ room
  obtain ⟨second, durable₂⟩ := recovery_written wf₂ recovered
  obtain ⟨first, durable⟩ := recovery_written wf uninterrupted
  refine ⟨(lm₂', again), recovered, fun q i => ?_⟩
  have byte : again.byte q i = full.byte q i := by
    obtain ⟨part, inSteps, same⟩ := parts q i
    rw [second.byte, first.byte, pageSize, steps, same,
      UndoRedo.written_again fun step member => inSteps.subset member]
  exact ⟨byte, by rw [durable₂, durable, byte]⟩

/-- A restart after a crash: a log manager over the same tape, and no page in a frame. -/
structure Restarts (lm : LogManager) (crashed : BufferManager) (lm₂ : LogManager)
    (bm₂ : BufferManager) : Prop where
  file : lm₂.logFile = lm.logFile
  offset : lm₂.currentOffset = lm.currentOffset
  fresh : bm₂.Fresh
  disk : bm₂.disk = crashed.disk
  pageSize : bm₂.pageSize = crashed.pageSize

end BuzzDB.Recovery
