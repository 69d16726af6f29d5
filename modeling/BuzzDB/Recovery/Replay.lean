import BuzzDB.Lib.Machine
import BuzzDB.Recovery.Tape

/-!
# Rollback and recovery on the tape

What `rollback_txn` and `recovery` do to the bytes of the pages, in terms of the
abstract log of the records on the tape.  `recovery_spec` is `UndoRedo.recovered`:
redo of the committed transactions, then undo of those the analysis found active.

The analysis itself is characterised on orderly tapes, where it finds exactly the
open transactions.
-/

namespace BuzzDB.Recovery

variable {lm lm' : LogManager} {bm bm' : BufferManager} {rs front back : List LogRecord}
  {t : UInt64} {q : UInt64} {i : Nat}

/-! ## Sequences of page writes -/

/-- What a sequence of page writes guarantees: byte by byte, the last write that reaches it. -/
theorem BufferManager.Wf.writePages {ι : Type*} {page : ι → UInt64} {offset : ι → Nat}
    {src : ι → List UInt8} {xs : List ι} (wf : bm.Wf)
    (ran : xs.foldlM (fun bm x => bm.writePage (page x) (offset x) (src x)) bm = some bm') :
    bm'.Wf ∧ bm'.disk = bm.disk ∧ bm'.pageSize = bm.pageSize ∧
      ∀ q i, bm'.byte q i = xs.foldl (fun v x =>
        if q = page x ∧ i < bm.pageSize ∧ offset x ≤ i ∧ i < offset x + (src x).length
        then (src x).getD (i - offset x) 0 else v) (bm.byte q i) := by
  induction xs generalizing bm with
  | nil =>
    cases ran
    exact ⟨wf, rfl, rfl, fun _ _ => rfl⟩
  | cons x xs ih =>
    obtain ⟨mid, first, rest⟩ := Machine.run_cons ran
    have written := wf.writePage first
    obtain ⟨wf', disk, size, bytes⟩ := ih written.wf rest
    refine ⟨wf', disk.trans written.disk, size.trans written.pageSize, fun q i => ?_⟩
    rw [bytes, written.byte, written.pageSize, List.foldl_cons]

/-! ## Rollback -/

/-- The images of an update that lies inside the page reach as far as the record does. -/
theorem reaches_iff {record : LogRecord} {pageSize : Nat} {image : List UInt8}
    (inside : record.offset.toNat + record.length.toNat ≤ pageSize)
    (length : image.length = record.length.toNat) :
    (q = record.pageId ∧ i < pageSize ∧ record.offset.toNat ≤ i ∧
      i < record.offset.toNat + image.length) ↔ record.Reaches q i := by
  unfold LogRecord.Reaches
  rw [length]
  constructor
  · exact fun ⟨page, _, low, high⟩ => ⟨page, low, high⟩
  · exact fun ⟨page, low, high⟩ => ⟨page, by omega, low, high⟩

/-- Putting back the before images from the last update to the first leaves the first one. -/
theorem foldr_before (sized : ∀ r ∈ rs, r.Sized) {pageSize : Nat}
    (inside : ∀ r ∈ rs, r.Inside pageSize) (v : UInt8) :
    (rs.filter fun record => record.type = .updateRecord ∧ record.txnId = t).foldr
        (fun record v =>
          if q = record.pageId ∧ i < pageSize ∧ record.offset.toNat ≤ i ∧
            i < record.offset.toNat + record.beforeImg.length
          then record.beforeImg.getD (i - record.offset.toNat) 0 else v) v =
      (UndoRedo.firstBefore (entries rs) t (q, i)).getD v := by
  induction rs with
  | nil => rfl
  | cons record rs ih =>
    have rest := ih (fun r member => sized r (List.mem_cons_of_mem _ member))
      fun r member => inside r (List.mem_cons_of_mem _ member)
    rw [UndoRedo.firstBefore, entries, List.map_cons, List.findSome?_cons, List.filter_cons]
    by_cases mine : record.type = .updateRecord ∧ record.txnId = t
    · obtain ⟨isUpdate, isT⟩ := mine
      have lengths := sized record List.mem_cons_self isUpdate
      have fits := inside record List.mem_cons_self isUpdate
      rw [if_pos (by simp [isUpdate, isT]), List.foldr_cons, rest,
        LogRecord.entry_of_update isUpdate, UndoRedo.Entry.imagesOf, if_pos isT,
        if_congr (reaches_iff fits lengths.1) rfl rfl, LogRecord.cells]
      split
      · rfl
      · rfl
    · have noImage : record.entry.imagesOf t (q, i) = none := by
        unfold LogRecord.entry UndoRedo.Entry.imagesOf
        cases type : record.type with
        | updateRecord =>
          simp only
          rw [if_neg fun isT => mine ⟨type, isT⟩]
        | _ => rfl
      rw [if_neg (by simpa using mine), rest, noImage]
      rfl

/-- The updates that `rollback_txn` finds behind the offset it starts from. -/
theorem Holds.updates (holds : Holds lm (front ++ back))
    (first : lm.txnIdToFirstLogRecord t = (tapeBytes front).length) :
    (((lm.records (lm.txnIdToFirstLogRecord t)).map Prod.snd).filter fun record =>
        record.type = .updateRecord ∧ record.txnId = t) =
      back.filter fun record => record.type = .updateRecord ∧ record.txnId = t := by
  rw [first, holds.records, map_snd_positions]

/-- What a rollback guarantees: the bytes the transaction updated have their value from before its
first update, nothing else has changed, and everything is durable. -/
structure RolledBack (log : List Entry) (t : UInt64) (bm bm' : BufferManager) : Prop where
  wf : bm'.Wf
  pageSize : bm'.pageSize = bm.pageSize
  byte : ∀ q i, bm'.byte q i = (UndoRedo.firstBefore log t (q, i)).getD (bm.byte q i)
  durable : ∀ q i, bm'.durable q i = bm'.byte q i

theorem rollbackTxn_back (holds : Holds lm (front ++ back)) (wf : bm.Wf)
    (inside : ∀ r ∈ back, r.Inside bm.pageSize)
    (first : lm.txnIdToFirstLogRecord t = (tapeBytes front).length)
    (ran : lm.rollbackTxn t bm = some bm') : RolledBack (entries back) t bm bm' := by
  have sized : ∀ r ∈ back, r.Sized := fun r member => holds.sized r (List.mem_append_right _ member)
  unfold LogManager.rollbackTxn at ran
  rw [holds.updates first] at ran
  obtain ⟨mid, undone, flushed⟩ := Option.bind_eq_some_iff.mp ran
  cases flushed
  obtain ⟨midWf, _, size, bytes⟩ := wf.writePages undone
  obtain ⟨wf', view, durable, size'⟩ := midWf.flushAllPages
  refine ⟨wf', size'.trans size, fun q i => ?_, fun q i => ?_⟩
  · rw [view, bytes, List.foldl_reverse, foldr_before sized inside]
  · rw [durable, view, if_pos rfl]

/-- `offset` is that of a record behind which all updates of `t` lie. -/
def StartsAt (rs : List LogRecord) (t : UInt64) (offset : Nat) : Prop :=
  ∃ front back, rs = front ++ back ∧ offset = (tapeBytes front).length ∧
    ∀ record ∈ front, record.type = .updateRecord → record.txnId ≠ t

theorem rollbackTxn_spec (holds : Holds lm rs) (wf : bm.Wf)
    (inside : ∀ r ∈ rs, r.Inside bm.pageSize)
    (starts : StartsAt rs t (lm.txnIdToFirstLogRecord t))
    (ran : lm.rollbackTxn t bm = some bm') : RolledBack (entries rs) t bm bm' := by
  obtain ⟨front, back, rfl, first, before⟩ := starts
  obtain ⟨wf', size, bytes, durable⟩ := rollbackTxn_back holds wf
    (fun r member => inside r (List.mem_append_right _ member)) first ran
  refine ⟨wf', size, fun q i => ?_, durable⟩
  rw [bytes, entries, entries, List.map_append, UndoRedo.firstBefore_append_right]
  intro cells updated
  obtain ⟨record, member, isEntry⟩ := List.mem_map.mp updated
  obtain ⟨isUpdate, isT⟩ := LogRecord.entry_eq_update isEntry
  exact before record member isUpdate isT

/-- Rolling back several transactions, one after the other. -/
theorem rollbackTxns_spec (holds : Holds lm rs) {opens : List UInt64} (wf : bm.Wf)
    (inside : ∀ r ∈ rs, r.Inside bm.pageSize)
    (starts : ∀ t ∈ opens, StartsAt rs t (lm.txnIdToFirstLogRecord t))
    (ran : opens.foldlM (fun bm t => lm.rollbackTxn t bm) bm = some bm') :
    bm'.Wf ∧ bm'.pageSize = bm.pageSize ∧
      ∀ q i, bm'.byte q i = UndoRedo.undo opens (q, i) (entries rs) (bm.byte q i) := by
  induction opens generalizing bm with
  | nil =>
    cases ran
    exact ⟨wf, rfl, fun _ _ => rfl⟩
  | cons t opens ih =>
    obtain ⟨mid, first, rest⟩ := Machine.run_cons ran
    have step := rollbackTxn_spec holds wf inside (starts t List.mem_cons_self) first
    obtain ⟨wf', size, bytes⟩ := ih step.wf (by rw [step.pageSize]; exact inside)
      (fun u member => starts u (List.mem_cons_of_mem t member)) rest
    refine ⟨wf', size.trans step.pageSize, fun q i => ?_⟩
    rw [bytes, step.byte]
    rfl

/-! ## Redo -/

theorem redo_spec {committedTxns : List UInt64} (wf : bm.Wf) (sized : ∀ r ∈ rs, r.Sized)
    (inside : ∀ r ∈ rs, r.Inside bm.pageSize)
    (ran : rs.foldlM (LogManager.redoRecord committedTxns) bm = some bm') :
    bm'.Wf ∧ bm'.pageSize = bm.pageSize ∧
      ∀ q i, bm'.byte q i =
        UndoRedo.redo (fun t => decide (t ∈ committedTxns)) (q, i) (entries rs) (bm.byte q i) := by
  induction rs generalizing bm with
  | nil =>
    cases ran
    exact ⟨wf, rfl, fun _ _ => rfl⟩
  | cons record rs ih =>
    obtain ⟨mid, first, rest⟩ := Machine.run_cons ran
    have step : mid.Wf ∧ mid.pageSize = bm.pageSize ∧ ∀ q i, mid.byte q i =
        UndoRedo.redoStep (fun t => decide (t ∈ committedTxns)) (q, i) (bm.byte q i)
          record.entry := by
      unfold LogManager.redoRecord at first
      split at first
      · rename_i redone
        obtain ⟨isUpdate, isCommitted⟩ := redone
        have lengths := sized record List.mem_cons_self isUpdate
        have fits := inside record List.mem_cons_self isUpdate
        have written := wf.writePage first
        refine ⟨written.wf, written.pageSize, fun q i => ?_⟩
        rw [written.byte, if_congr (reaches_iff fits lengths.2) rfl rfl,
          LogRecord.entry_of_update isUpdate, UndoRedo.redoStep, if_pos (decide_eq_true isCommitted),
          LogRecord.cells]
        split
        · rfl
        · rfl
      · rename_i skipped
        cases first
        refine ⟨wf, rfl, fun q i => ?_⟩
        unfold LogRecord.entry UndoRedo.redoStep
        cases type : record.type with
        | updateRecord =>
          simp only
          rw [if_neg (by simpa using fun member => skipped ⟨type, member⟩)]
        | _ => rfl
    obtain ⟨wf', size, bytes⟩ := ih step.1
      (fun r member => sized r (List.mem_cons_of_mem _ member))
      (fun r member => step.2.1 ▸ inside r (List.mem_cons_of_mem _ member)) rest
    refine ⟨wf', size.trans step.2.1, fun q i => ?_⟩
    rw [bytes, step.2.2]
    rfl

/-! ## Analysis -/

theorem positions_append (start : Nat) (sized : ∀ r ∈ front, r.Sized) :
    positions start (front ++ back) =
      positions start front ++ positions (start + (tapeBytes front).length) back := by
  induction front generalizing start with
  | nil => rfl
  | cons record front ih =>
    rw [List.cons_append, positions, positions,
      ih _ fun r member => sized r (List.mem_cons_of_mem _ member),
      length_tapeBytes_cons (sized record List.mem_cons_self), List.cons_append, Nat.add_assoc]

/-- The order of a `std::set<uint64_t>` is total. -/
theorem txnLt_strict : StdSet.Strict txnLt where
  irrefl t := by simp [txnLt]
  trans {t u v} less less' := by
    simp only [txnLt, decide_eq_true_eq, UInt64.lt_iff_toNat_lt] at less less' ⊢
    omega
  tri {t u} notLess notGreater := by
    simp only [txnLt, decide_eq_false_iff_not, UInt64.lt_iff_toNat_lt] at notLess notGreater
    apply UInt64.toNat_inj.mp
    omega

/-- The loop of the analysis phase over a list of records. -/
def analyse (first : UInt64 → Nat) (records : List LogRecord) : LogManager.Analysis :=
  (positions 0 records).foldl LogManager.Analysis.step ⟨[], [], first, 0, []⟩

theorem analyse_append (first : UInt64 → Nat) (sized : ∀ r ∈ rs, r.Sized) (record : LogRecord) :
    analyse first (rs ++ [record]) =
      (analyse first rs).step ((tapeBytes rs).length, record) := by
  rw [analyse, positions_append 0 sized, List.foldl_append, Nat.zero_add]
  rfl

/-- The tape carries no checkpoint lists. -/
theorem analyse_checkpoint (first : UInt64 → Nat) (sized : ∀ r ∈ rs, r.Sized)
    (onTape : ∀ r ∈ rs, r.onTape = r) : (analyse first rs).lastCheckpointTxns = [] := by
  induction rs using List.reverseRecOn with
  | nil => rfl
  | append_singleton rs record ih =>
    have rest := ih (fun r member => sized r (List.mem_append_left _ member))
      fun r member => onTape r (List.mem_append_left _ member)
    have clipped := onTape record (List.mem_append_right _ (List.mem_singleton_self _))
    rw [analyse_append first fun r member => sized r (List.mem_append_left _ member)]
    cases type : record.type with
    | beginRecord =>
      simp only [LogManager.Analysis.step, type]
      split
      · exact rest
      · exact rest
    | checkpointRecord =>
      rw [LogRecord.onTape, type, if_neg (by decide)] at clipped
      simp only [LogManager.Analysis.step, type]
      rw [← clipped]
    | _ =>
      simp only [LogManager.Analysis.step, type]
      exact rest

theorem Holds.analysis_eq (holds : Holds lm rs) :
    lm.analysis = analyse lm.txnIdToFirstLogRecord rs := by
  have noCheckpoint := analyse_checkpoint lm.txnIdToFirstLogRecord holds.sized holds.onTape
  unfold LogManager.analysis
  rw [holds.records_zero]
  change (if _ then (analyse _ rs).lastCheckpointTxns.foldl _ (analyse _ rs) else analyse _ rs) = _
  rw [noCheckpoint, List.foldl_nil, ite_self]

/-- The analysis collects the ids of the commit records, wherever they stand. -/
theorem mem_committedTxns (first : UInt64 → Nat) (sized : ∀ r ∈ rs, r.Sized) :
    t ∈ (analyse first rs).committedTxns ↔ UndoRedo.Entry.commit t ∈ entries rs := by
  induction rs using List.reverseRecOn with
  | nil => exact iff_of_false List.not_mem_nil List.not_mem_nil
  | append_singleton rs record ih =>
    have rest := ih fun r member => sized r (List.mem_append_left _ member)
    rw [analyse_append first fun r member => sized r (List.mem_append_left _ member), entries,
      List.map_append, List.mem_append, List.map_singleton, List.mem_singleton, eq_comm,
      LogRecord.entry_eq_commit, ← entries, ← rest]
    cases type : record.type with
    | commitRecord =>
      simp only [LogManager.Analysis.step, type, StdSet.mem_insert txnLt_strict, true_and]
      rw [or_comm, eq_comm]
    | beginRecord =>
      simp only [LogManager.Analysis.step, type, reduceCtorEq, false_and, or_false]
      split
      · exact Iff.rfl
      · exact Iff.rfl
    | _ => simp only [LogManager.Analysis.step, type, reduceCtorEq, false_and, or_false]

/-- What the analysis finds on an orderly tape. -/
structure Analysed (rs : List LogRecord) (a : LogManager.Analysis) : Prop where
  active : ∀ t, t ∈ a.activeTxns ↔ UndoRedo.Open (entries rs) t
  ascending : StdSet.Ascending txnLt a.activeTxns
  first : ∀ t, UndoRedo.Open (entries rs) t → StartsAt rs t (a.txnIdToFirstLogRecord t)

theorem StartsAt.append {offset : Nat} (starts : StartsAt rs t offset) (record : LogRecord) :
    StartsAt (rs ++ [record]) t offset := by
  obtain ⟨front, back, rfl, at_front, before⟩ := starts
  exact ⟨front, back ++ [record], List.append_assoc _ _ _, at_front, before⟩

/-- On an orderly tape a transaction without start record has no updates. -/
theorem startsAt_end (orderly : UndoRedo.Orderly (entries rs))
    (fresh : UndoRedo.Entry.start t ∉ entries rs) (back : List LogRecord) :
    StartsAt (rs ++ back) t (tapeBytes rs).length := by
  refine ⟨rs, back, rfl, rfl, fun record member isUpdate isT => fresh ?_⟩
  refine orderly.started (Or.inr (Or.inr ⟨record.cells, ?_⟩))
  exact List.mem_map.mpr ⟨record, member, isT ▸ record.entry_of_update isUpdate⟩

theorem entries_append {record : LogRecord} :
    entries (rs ++ [record]) = entries rs ++ [record.entry] :=
  List.map_append

section AnalysisStep

variable {record : LogRecord} {a a' : LogManager.Analysis}

/-- A new transaction is active, and its records start here. -/
theorem Analysed.started (analysed : Analysed rs a) (orderly : UndoRedo.Orderly (entries rs))
    (isStart : record.entry = .start record.txnId)
    (fresh : UndoRedo.Entry.start record.txnId ∉ entries rs)
    (activeTxns : a'.activeTxns = StdSet.insert txnLt record.txnId a.activeTxns)
    (table : a'.txnIdToFirstLogRecord =
      Function.update a.txnIdToFirstLogRecord record.txnId (tapeBytes rs).length) :
    Analysed (rs ++ [record]) a' := by
  have opens : ∀ t, UndoRedo.Open (entries (rs ++ [record])) t ↔
      t = record.txnId ∨ UndoRedo.Open (entries rs) t := fun t => by
    rw [entries_append, isStart, orderly.open_append_start fresh]
  refine ⟨fun t => ?_, activeTxns ▸ analysed.ascending.insert txnLt_strict, fun t isOpen => ?_⟩
  · rw [activeTxns, StdSet.mem_insert txnLt_strict, analysed.active, opens]
  · rw [table]
    by_cases same : t = record.txnId
    · subst same
      rw [Function.update_self]
      exact startsAt_end orderly fresh [record]
    · rw [Function.update_of_ne same]
      exact (analysed.first t (((opens t).mp isOpen).resolve_left same)).append record

/-- A transaction that has ended is not active. -/
theorem Analysed.ended (analysed : Analysed rs a)
    (opens : ∀ t, UndoRedo.Open (entries rs ++ [record.entry]) t ↔
      UndoRedo.Open (entries rs) t ∧ t ≠ record.txnId)
    (activeTxns : a'.activeTxns = StdSet.erase record.txnId a.activeTxns)
    (table : a'.txnIdToFirstLogRecord = a.txnIdToFirstLogRecord) :
    Analysed (rs ++ [record]) a' := by
  rw [← entries_append] at opens
  refine ⟨fun t => ?_, activeTxns ▸ analysed.ascending.erase, fun t isOpen => ?_⟩
  · rw [activeTxns, StdSet.mem_erase, analysed.active, opens]
  · rw [table]
    exact (analysed.first t ((opens t).mp isOpen).1).append record

/-- Other records leave the active transactions. -/
theorem Analysed.kept (analysed : Analysed rs a)
    (opens : ∀ t, UndoRedo.Open (entries rs ++ [record.entry]) t ↔ UndoRedo.Open (entries rs) t)
    (activeTxns : a'.activeTxns = a.activeTxns)
    (table : a'.txnIdToFirstLogRecord = a.txnIdToFirstLogRecord) :
    Analysed (rs ++ [record]) a' := by
  rw [← entries_append] at opens
  refine ⟨fun t => ?_, activeTxns ▸ analysed.ascending, fun t isOpen => ?_⟩
  · rw [activeTxns, analysed.active, opens]
  · rw [table]
    exact (analysed.first t ((opens t).mp isOpen)).append record

/-- One round of the analysis loop. -/
theorem Analysed.step (analysed : Analysed rs a) (orderly : UndoRedo.Orderly (entries rs))
    (follows : UndoRedo.Follows (entries rs) record.entry)
    (committed : ∀ t, t ∈ a.committedTxns ↔ UndoRedo.Entry.commit t ∈ entries rs) :
    Analysed (rs ++ [record]) (a.step ((tapeBytes rs).length, record)) := by
  cases type : record.type with
  | beginRecord =>
    have isStart := LogRecord.entry_eq_start.mpr ⟨type, rfl⟩
    rw [isStart] at follows
    -- an id is started before it commits, so a new one is not skipped
    have notCommitted : record.txnId ∉ a.committedTxns := fun isCommitted =>
      follows (orderly.started (Or.inl ((committed _).mp isCommitted)))
    simp only [LogManager.Analysis.step, type, if_neg notCommitted]
    exact analysed.started orderly isStart follows rfl rfl
  | commitRecord =>
    have isCommit := LogRecord.entry_eq_commit.mpr ⟨type, rfl⟩
    simp only [LogManager.Analysis.step, type]
    exact analysed.ended (fun t => isCommit ▸ UndoRedo.open_append_commit) rfl rfl
  | abortRecord =>
    have isAbort := LogRecord.entry_eq_abort.mpr ⟨type, rfl⟩
    simp only [LogManager.Analysis.step, type]
    exact analysed.ended (fun t => isAbort ▸ UndoRedo.open_append_abort) rfl rfl
  | _ =>
    simp only [LogManager.Analysis.step, type]
    refine analysed.kept (fun t => ?_) rfl rfl
    refine UndoRedo.open_append_of_ne (fun same => ?_) (fun same => ?_) fun same => ?_
    · rw [LogRecord.entry_eq_start, type] at same
      cases same.1
    · rw [LogRecord.entry_eq_commit, type] at same
      cases same.1
    · rw [LogRecord.entry_eq_abort, type] at same
      cases same.1

end AnalysisStep

theorem analysed (first : UInt64 → Nat) (sized : ∀ r ∈ rs, r.Sized)
    (orderly : UndoRedo.Orderly (entries rs)) : Analysed rs (analyse first rs) := by
  induction rs using List.reverseRecOn with
  | nil =>
    exact ⟨fun t => iff_of_false List.not_mem_nil fun isOpen => List.not_mem_nil isOpen.1,
      List.Pairwise.nil, fun t isOpen => absurd isOpen.1 List.not_mem_nil⟩
  | append_singleton rs record ih =>
    have sized' : ∀ r ∈ rs, r.Sized := fun r member => sized r (List.mem_append_left _ member)
    rw [entries_append] at orderly
    obtain ⟨orderly, follows⟩ := orderly.of_snoc
    rw [analyse_append first sized']
    exact (ih sized' orderly).step orderly follows fun t => mem_committedTxns first sized'

/-! ## Recovery -/

/-- What a recovery guarantees on an orderly tape. -/
structure Recovered (rs : List LogRecord) (bm : BufferManager) (lm' : LogManager)
    (bm' : BufferManager) : Prop where
  holds : Holds lm' rs
  wf : bm'.Wf
  pageSize : bm'.pageSize = bm.pageSize
  active : ∀ t, t ∈ lm'.activeTxns ↔ UndoRedo.Open (entries rs) t
  ascending : StdSet.Ascending txnLt lm'.activeTxns
  first : ∀ t, UndoRedo.Open (entries rs) t → StartsAt rs t (lm'.txnIdToFirstLogRecord t)
  byte : ∀ q i, bm'.byte q i =
    UndoRedo.recovered lm'.activeTxns (q, i) (entries rs) (bm.byte q i)
  durable : ∀ q i, bm'.durable q i = bm'.byte q i

theorem recovery_spec (holds : Holds lm rs) (wf : bm.Wf) (inside : ∀ r ∈ rs, r.Inside bm.pageSize)
    (orderly : UndoRedo.Orderly (entries rs)) (ran : lm.recovery bm = some (lm', bm')) :
    Recovered rs bm lm' bm' := by
  unfold LogManager.recovery at ran
  rw [holds.analysis_eq] at ran
  obtain ⟨active, ascending, first⟩ := analysed lm.txnIdToFirstLogRecord holds.sized orderly
  have holds' : Holds { lm with txnIdToFirstLogRecord :=
      (analyse lm.txnIdToFirstLogRecord rs).txnIdToFirstLogRecord } rs := holds.congr rfl rfl
  obtain ⟨redone, redo, ran⟩ := Option.bind_eq_some_iff.mp ran
  obtain ⟨undone, undo, ran⟩ := Option.bind_eq_some_iff.mp ran
  cases ran
  rw [holds'.records_zero, map_snd_positions] at redo
  obtain ⟨redoneWf, redoneSize, redoneBytes⟩ := redo_spec wf holds.sized inside redo
  obtain ⟨undoneWf, undoneSize, undoneBytes⟩ := rollbackTxns_spec holds' redoneWf
    (by rw [redoneSize]; exact inside) (fun t member => first t ((active t).mp member)) undo
  obtain ⟨wf', view, durable, size⟩ := undoneWf.flushAllPages
  have sameCommitted : (fun t => decide (t ∈ (analyse lm.txnIdToFirstLogRecord rs).committedTxns)) =
      UndoRedo.committed (entries rs) := by
    funext t
    rw [Bool.eq_iff_iff, decide_eq_true_eq, UndoRedo.committed_iff,
      mem_committedTxns _ holds.sized]
  refine ⟨holds'.congr rfl rfl, wf', size.trans (undoneSize.trans redoneSize), active, ascending,
    first, fun q i => ?_, fun q i => ?_⟩
  · rw [view, undoneBytes, redoneBytes, sameCommitted]
    rfl
  · rw [durable, view, if_pos rfl]

end BuzzDB.Recovery
