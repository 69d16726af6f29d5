import BuzzDB.Recovery.AbortTxn

/-!
# Live rollback

`log_abort` while other transactions go on.  `runSaving` carries along what each
transaction found before its first write to a byte, counted from its last
`log_txn_begin`; the tape behind the offset that `log_txn_begin` noted knows the same.
Nothing takes a frame from a page here, so the rollback finds all its pages.
-/

namespace BuzzDB.Recovery

/-- An update saves the bytes its transaction has not updated before; a transaction that begins
has updated nothing. -/
def Call.save (s : System) (saved : Saved) : Call → Saved
  | logTxnBegin txnId => Function.update saved txnId fun _ => none
  | update txnId pageId offset record => Function.update saved txnId fun a =>
    (saved txnId a).or ((cells pageId offset record a).map fun _ => s.bm.byte a.1 a.2)
  | _ => saved

/-- A history that keeps track of the saved bytes. -/
def System.runSaving (s : System) (calls : List Call) : Option (System × Saved) :=
  calls.foldlM (fun r call => (call.exec r.1).map fun s' => (s', call.save r.1 r.2))
    (s, fun _ _ => none)

/-- The rollback of `t` is exact: the bytes it updated are as it found them, all others as they
were, everything is durable, and one abort record is on the tape. -/
structure RollsBackExactly (s : System) (saved : Saved) (t : UInt64) (s' : System) : Prop where
  updated : ∀ q i v, saved t (q, i) = some v → s'.bm.byte q i = v
  others : ∀ q i, saved t (q, i) = none → s'.bm.byte q i = s.bm.byte q i
  durable : ∀ q i, s'.bm.durable q i = s'.bm.byte q i
  tape : (s'.lm.records 0).map Prod.snd =
    (s.lm.records 0).map Prod.snd ++ [{ type := .abortRecord, txnId := t }]

/-- The tape from the offset of a transaction on knows what the transaction found. -/
structure Remembers (lm : LogManager) (rs : List LogRecord) (found : Cell → Option UInt8)
    (t : UInt64) (front back : List LogRecord) : Prop where
  split : rs = front ++ back
  first : lm.txnIdToFirstLogRecord t = (tapeBytes front).length
  found : ∀ a, found a = UndoRedo.firstBefore (entries back) t a

/-- The tape holds `rs`, remembers what every transaction found, and the pages of all updates have
frames. -/
structure Remembered (pageSize : Nat) (s : System) (saved : Saved) (rs : List LogRecord) :
    Prop where
  holds : Holds s.lm rs
  wf : s.bm.Wf
  size : s.bm.pageSize = pageSize
  inside : ∀ r ∈ rs, r.Inside pageSize
  framed : ∀ r ∈ rs, r.type = .updateRecord → r.pageId ≠ invalidPageId ∧ s.bm.HasFrame r.pageId
  txns : ∀ t, ∃ front back, Remembers s.lm rs (saved t) t front back

variable {s s' : System} {saved saved' : Saved} {rs : List LogRecord} {record : LogRecord}
  {pageSize : Nat} {t : UInt64} {calls : List Call}

/-- The frames a page has are kept. -/
def KeepsFrames (bm bm' : BufferManager) : Prop :=
  ∀ q, q ≠ invalidPageId → bm.HasFrame q → bm'.HasFrame q

theorem BufferManager.Touches.keeps {bm bm' : BufferManager} {pages : List UInt64}
    (touches : bm.Touches pages bm') : KeepsFrames bm bm' :=
  fun q isValid has => (touches.hasFrame q isValid).mpr (.inl has)

theorem BufferManager.SameFrames.keeps {bm bm' : BufferManager} (same : bm.SameFrames bm') :
    KeepsFrames bm bm' :=
  ((BufferManager.Touches.refl bm).same same).keeps

theorem Remembered.new (pageSize_lt : pageSize < 2 ^ 64) (pageCount : Nat) (disk : Disk UInt8)
    (logFile : List UInt8) :
    Remembered pageSize (System.new pageSize pageSize_lt pageCount disk logFile)
      (fun _ _ => none) [] where
  holds := Holds.nil logFile
  wf := BufferManager.Wf.new pageSize pageSize_lt pageCount disk
  size := rfl
  inside _ absent := absurd absent List.not_mem_nil
  framed _ absent := absurd absent List.not_mem_nil
  txns _ := ⟨[], [], rfl, rfl, fun _ => rfl⟩

/-- A record other than a begin is one more record behind the first of every transaction. -/
theorem Remembered.append (remembered : Remembered pageSize s saved rs)
    (holds : Holds s'.lm (rs ++ [record])) (wf : s'.bm.Wf)
    (size : s'.bm.pageSize = s.bm.pageSize) (inside : record.Inside pageSize)
    (keeps : KeepsFrames s.bm s'.bm)
    (framed : record.type = .updateRecord →
      record.pageId ≠ invalidPageId ∧ s'.bm.HasFrame record.pageId)
    (first : s'.lm.txnIdToFirstLogRecord = s.lm.txnIdToFirstLogRecord)
    (found : ∀ t a, saved' t a =
      (saved t a).or ((record.entry.imagesOf t a).map Prod.fst)) :
    Remembered pageSize s' saved' (rs ++ [record]) where
  holds := holds
  wf := wf
  size := size.trans remembered.size
  inside r member := by
    rcases List.mem_append.mp member with old | new
    · exact remembered.inside r old
    · exact List.mem_singleton.mp new ▸ inside
  framed r member isUpdate := by
    rcases List.mem_append.mp member with old | new
    · obtain ⟨isValid, has⟩ := remembered.framed r old isUpdate
      exact ⟨isValid, keeps r.pageId isValid has⟩
    · rw [List.mem_singleton.mp new] at isUpdate ⊢
      exact framed isUpdate
  txns t := by
    obtain ⟨front, back, split, at_front, foundBack⟩ := remembered.txns t
    refine ⟨front, back ++ [record], ?_, ?_, fun a => ?_⟩
    · rw [split, List.append_assoc]
    · rw [first, at_front]
    · rw [found, foundBack, entries_append, UndoRedo.firstBefore_append]

/-- A record that is neither a begin nor an update. -/
theorem Remembered.plain (remembered : Remembered pageSize s saved rs)
    (holds : Holds s'.lm (rs ++ [record])) (wf : s'.bm.Wf)
    (size : s'.bm.pageSize = s.bm.pageSize) (notUpdate : record.type ≠ .updateRecord)
    (keeps : KeepsFrames s.bm s'.bm)
    (first : s'.lm.txnIdToFirstLogRecord = s.lm.txnIdToFirstLogRecord) :
    Remembered pageSize s' saved (rs ++ [record]) := by
  refine remembered.append holds wf size (fun isUpdate => absurd isUpdate notUpdate) keeps
    (fun isUpdate => absurd isUpdate notUpdate) first fun t a => ?_
  have none : record.entry.imagesOf t a = none := by
    unfold LogRecord.entry UndoRedo.Entry.imagesOf
    cases type : record.type with
    | updateRecord => exact absurd type notUpdate
    | _ => rfl
  rw [none, Option.map_none, Option.or_none]

/-- A call that only writes pages back. -/
theorem Remembered.silent {bm : BufferManager} (remembered : Remembered pageSize s saved rs)
    (wf : bm.Wf) (size : bm.pageSize = s.bm.pageSize) (keeps : KeepsFrames s.bm bm) :
    Remembered pageSize { s with bm } saved rs where
  holds := remembered.holds
  wf := wf
  size := size.trans remembered.size
  inside := remembered.inside
  framed r member isUpdate := by
    obtain ⟨isValid, has⟩ := remembered.framed r member isUpdate
    exact ⟨isValid, keeps r.pageId isValid has⟩
  txns := remembered.txns

/-- The first record of a transaction that begins is the next one. -/
theorem Remembered.begin (remembered : Remembered pageSize s saved rs) (txnId : UInt64)
    (holds : Holds (s.lm.logTxnBegin txnId) (rs ++ [{ type := .beginRecord, txnId }])) :
    Remembered pageSize { s with lm := s.lm.logTxnBegin txnId }
      ((Call.logTxnBegin txnId).save s saved) (rs ++ [{ type := .beginRecord, txnId }]) := by
  have maps := writeLogRecord_maps { s.lm with
      txnIdToFirstLogRecord := Function.update s.lm.txnIdToFirstLogRecord txnId s.lm.currentOffset
      activeTxns := StdSet.insert txnLt txnId s.lm.activeTxns } { type := .beginRecord, txnId }
  refine ⟨holds, remembered.wf, remembered.size, fun r member isUpdate => ?_,
    fun r member isUpdate => ?_, fun t => ?_⟩
  · rcases List.mem_append.mp member with old | new
    · exact remembered.inside r old isUpdate
    · rw [List.mem_singleton.mp new] at isUpdate
      cases isUpdate
  · rcases List.mem_append.mp member with old | new
    · exact remembered.framed r old isUpdate
    · rw [List.mem_singleton.mp new] at isUpdate
      cases isUpdate
  · have first : (s.lm.logTxnBegin txnId).txnIdToFirstLogRecord t =
        Function.update s.lm.txnIdToFirstLogRecord txnId s.lm.currentOffset t := congrFun maps.1 t
    by_cases same : t = txnId
    · subst same
      refine ⟨rs, [{ type := .beginRecord, txnId := t }], rfl, ?_, fun a => ?_⟩
      · rw [first, Function.update_self, remembered.holds.offset]
      · rw [Call.save, Function.update_self]
        rfl
    · obtain ⟨front, back, split, at_front, found⟩ := remembered.txns t
      refine ⟨front, back ++ [{ type := .beginRecord, txnId }], ?_, ?_, fun a => ?_⟩
      · rw [split, List.append_assoc]
      · rw [first, Function.update_of_ne same, at_front]
      · rw [Call.save, Function.update_of_ne same, found, entries_append,
          UndoRedo.firstBefore_append]
        exact (Option.or_none).symm

/-- What the record of an update adds to what is remembered. -/
theorem save_update {txnId pageId offset : UInt64} {bytes : List UInt8}
    (inside : offset.toNat + bytes.length ≤ s.bm.pageSize) (t : UInt64) (a : Cell) :
    (Call.update txnId pageId offset bytes).save s saved t a = (saved t a).or
      (((s.updateRecord txnId pageId offset bytes).entry.imagesOf t a).map Prod.fst) := by
  have entry : (s.updateRecord txnId pageId offset bytes).entry =
      (s.abstract []).logged txnId (Call.cells pageId offset bytes) :=
    System.entry_updateRecord inside
  rw [entry, Call.save, UndoRedo.Sys.logged, UndoRedo.Entry.imagesOf]
  by_cases same : txnId = t
  · subst same
    rw [Function.update_self, if_pos rfl, Option.map_map]
    rfl
  · rw [Function.update_of_ne (Ne.symm same), if_neg same, Option.map_none, Option.or_none]

theorem Remembered.exec {call : Call} (remembered : Remembered pageSize s saved rs)
    (inside : call.Inside pageSize) (ran : call.exec s = some s') :
    Remembered pageSize s' (call.save s saved) (rs ++ call.records s) := by
  rw [← remembered.size] at inside
  have holds := remembered.holds.exec remembered.wf inside ran
  cases call with
  | logTxnBegin txnId =>
    cases ran
    exact remembered.begin txnId holds
  | logCommit txnId =>
    cases ran
    have maps := writeLogRecord_maps s.lm { type := .commitRecord, txnId }
    exact remembered.plain holds remembered.wf rfl (fun h => by cases h)
      (fun _ _ has => has) maps.1
  | logAbort txnId =>
    obtain ⟨⟨lm, bm⟩, aborted, ran⟩ := Option.bind_eq_some_iff.mp ran
    obtain ⟨rolledBack, rfl⟩ := LogManager.logAbort_cases aborted
    cases ran
    have maps := writeLogRecord_maps s.lm { type := .abortRecord, txnId }
    obtain ⟨wf, size⟩ := rollbackTxn_wf remembered.wf rolledBack
    obtain ⟨front, back, split, at_front, _⟩ := remembered.txns txnId
    have touches :=
      rollbackTxn_touches (split ▸ remembered.holds) remembered.wf at_front rolledBack
    exact remembered.plain holds wf size (fun h => by cases h) touches.keeps maps.1
  | logCheckpoint =>
    cases ran
    have maps := writeLogRecord_maps s.lm
      { type := .checkpointRecord, txnId := 0
        activeTxns := s.lm.activeTxns.map fun txnId => (txnId, s.lm.txnIdToFirstLogRecord txnId) }
    have flushed := remembered.wf.flushAllPages
    exact remembered.plain holds flushed.wf flushed.pageSize (fun h => by cases h)
      s.bm.flushAllPages_same.keeps maps.1
  | update txnId pageId offset bytes =>
    have maps := writeLogRecord_maps s.lm (s.updateRecord txnId pageId offset bytes)
    have length := length_toNat s.bm inside
    have written := System.update_writePage ran
    obtain ⟨⟨wf, valid, _, _, size⟩, logged⟩ := System.update_spec remembered.wf inside ran
    have touches := remembered.wf.writePage_touches written
    refine remembered.append holds wf size (fun _ => ?_) touches.keeps (fun _ => ⟨valid, ?_⟩) ?_
      fun t a => save_update inside t a
    · rw [← remembered.size]
      exact Nat.le_trans (Nat.le_of_eq (congrArg (offset.toNat + ·) length)) inside
    · exact (touches.hasFrame pageId valid).mpr (.inr (List.mem_singleton_self pageId))
    · rw [logged]
      exact maps.1
  | flushPage pageId =>
    cases ran
    have flushed := remembered.wf.flushPage pageId
    rw [Call.records, List.append_nil]
    exact remembered.silent flushed.wf flushed.pageSize (s.bm.flushPage_same pageId).keeps
  | flushAllPages =>
    cases ran
    have flushed := remembered.wf.flushAllPages
    rw [Call.records, List.append_nil]
    exact remembered.silent flushed.wf flushed.pageSize s.bm.flushAllPages_same.keeps

theorem remembered_of_run {pageSize_lt : pageSize < 2 ^ 64} {pageCount : Nat} {disk : Disk UInt8}
    {logFile : List UInt8}
    (ran : (System.new pageSize pageSize_lt pageCount disk logFile).runSaving calls =
      some (s, saved))
    (inside : ∀ call ∈ calls, call.Inside pageSize) :
    ∃ rs, Remembered pageSize s saved rs := by
  induction calls using List.reverseRecOn generalizing s saved with
  | nil =>
    cases ran
    exact ⟨[], Remembered.new pageSize_lt pageCount disk logFile⟩
  | append_singleton calls call ih =>
    obtain ⟨⟨mid, savedMid⟩, first, last⟩ := Machine.run_concat ran
    obtain ⟨rs, remembered⟩ := ih first fun call member =>
      inside call (List.mem_append_left _ member)
    obtain ⟨next, taken, same⟩ := Option.map_eq_some_iff.mp last
    cases same
    have insidePage := inside call (List.mem_append_right _ (List.mem_singleton_self _))
    exact ⟨_, remembered.exec insidePage taken⟩

/-! ## The rollback -/

/-- All pages of the rollback have frames, so it returns. -/
theorem Remembered.rollbackTxn_returns (remembered : Remembered pageSize s saved rs) (t : UInt64) :
    (s.lm.rollbackTxn t s.bm).isSome := by
  obtain ⟨front, back, rfl, at_front, _⟩ := remembered.txns t
  rw [rollbackTxn_isSome remembered.holds remembered.wf at_front]
  have framed : ∀ q ∈ undoPages back t, q ≠ invalidPageId ∧ s.bm.HasFrame q := by
    intro q member
    obtain ⟨record, inBack, isUpdate, _, rfl⟩ := mem_undoPages.mp member
    exact remembered.framed record (List.mem_append_right _ inBack) isUpdate
  refine ⟨fun member => (framed _ member).1 rfl, .inl ?_⟩
  apply Finset.filter_eq_empty_iff.mpr
  intro q member missing
  exact missing (framed q (List.mem_toFinset.mp member)).2

/-- Two transactions on one page, the first with updates that overlap. -/
def overlapping : List Call :=
  [.logTxnBegin 1, .logTxnBegin 2, .update 1 0 0 [7, 8], .update 2 0 3 [5], .logCheckpoint,
    .update 1 0 1 [9, 9], .logCommit 2, .update 1 0 0 [1]]

end BuzzDB.Recovery
