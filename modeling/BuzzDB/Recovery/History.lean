import BuzzDB.Recovery.Replay

/-!
# Histories of the log manager

A log manager and a buffer manager under the calls that drive them: the four `log_`
operations, page updates as `HeapSegment::write` makes them, and flushes.  `Simulates`
ties such a system to the abstract one of `UndoRedo`; `Simulates.exec` is its step
lemma.
-/

namespace BuzzDB.Recovery

/-- A log manager and the buffer manager it is called with. -/
structure System where
  lm : LogManager
  bm : BufferManager

namespace System

/-- A freshly constructed system over existing files. -/
def new (pageSize : Nat) (pageSize_lt : pageSize < 2 ^ 64) (pageCount : Nat) (disk : Disk UInt8)
    (logFile : List UInt8) : System :=
  ⟨LogManager.new logFile, BufferManager.new pageSize pageSize_lt pageCount disk⟩

/-- The update in `HeapSegment::write`, from `fix_page` to `log_update`. -/
def update (s : System) (txnId pageId offset : UInt64) (record : List UInt8) : Option System := do
  let (bm, frameId) ← s.bm.fixPage pageId
  let beforeRecord := Image.fill (bm.getData frameId) offset.toNat (List.replicate record.length 0)
  let bm := (bm.memcpy frameId offset.toNat record).unfixPage frameId true
  return ⟨s.lm.logUpdate txnId pageId (UInt64.ofNat record.length) offset beforeRecord record, bm⟩

/-- The crash of the tests: `discard_all_pages`, then `reset` with the reopened log file. -/
def crash (s : System) : System := ⟨s.lm.reset s.lm.logFile, s.bm.discardAllPages⟩

/-- `recovery`. -/
def recover (s : System) : Option System := do
  let (lm, bm) ← s.lm.recovery s.bm
  return ⟨lm, bm⟩

end System

/-- The calls of a history. -/
inductive Call
  | logTxnBegin (txnId : UInt64)
  | logCommit (txnId : UInt64)
  | logAbort (txnId : UInt64)
  | logCheckpoint
  | update (txnId pageId offset : UInt64) (record : List UInt8)
  | flushPage (pageId : UInt64)
  | flushAllPages
  deriving DecidableEq

namespace Call

/-- One call; `none` is the exit of a `fix_page` that finds no frame. -/
def exec (s : System) : Call → Option System
  | logTxnBegin txnId => some { s with lm := s.lm.logTxnBegin txnId }
  | logCommit txnId => some { s with lm := s.lm.logCommit txnId }
  | logAbort txnId => do
    let (lm, bm) ← s.lm.logAbort txnId s.bm
    return ⟨lm, bm⟩
  | logCheckpoint =>
    let (lm, bm) := s.lm.logCheckpoint s.bm
    some ⟨lm, bm⟩
  | update txnId pageId offset record => s.update txnId pageId offset record
  | flushPage pageId => some { s with bm := s.bm.flushPage pageId }
  | flushAllPages => some { s with bm := s.bm.flushAllPages }

/-- The range of an update lies inside the page. -/
def Inside (pageSize : Nat) : Call → Prop
  | update _ _ offset record => offset.toNat + record.length ≤ pageSize
  | _ => True

/-- The bytes an update writes. -/
def cells (pageId offset : UInt64) (record : List UInt8) (a : Cell) : Option UInt8 :=
  if a.1 = pageId ∧ offset.toNat ≤ a.2 ∧ a.2 < offset.toNat + record.length then
    some (record.getD (a.2 - offset.toNat) 0)
  else none

/-- A call as an operation of the abstract system. -/
def op : Call → UndoRedo.Op UInt64 Cell UInt8
  | logTxnBegin txnId => .start txnId
  | logCommit txnId => .commit txnId
  | logAbort txnId => .abort txnId
  | logCheckpoint => .mark
  | update txnId pageId offset record => .update txnId (cells pageId offset record)
  | flushPage pageId => .flush fun a => a.1 == pageId
  | flushAllPages => .flush fun _ => true

end Call

/-- A history runs call by call. -/
def run (s : System) (calls : List Call) : Option System := calls.foldlM Call.exec s

/-! ## The abstract system -/

/-- A system and its tape seen as an abstract system. -/
def System.abstract (s : System) (rs : List LogRecord) : UndoRedo.Sys UInt64 Cell UInt8 where
  log := entries rs
  view a := s.bm.byte a.1 a.2
  durable a := s.bm.durable a.1 a.2

/-- The tape of the system holds `rs`, and the system behaves as its abstraction. -/
structure Simulates (s : System) (rs : List LogRecord) : Prop where
  holds : Holds s.lm rs
  wf : s.bm.Wf
  inside : ∀ r ∈ rs, r.Inside s.bm.pageSize
  valid : ∀ r ∈ rs, r.type = .updateRecord → r.pageId ≠ invalidPageId
  orderly : UndoRedo.Orderly (entries rs)
  starts : ∀ t, UndoRedo.Open (entries rs) t → StartsAt rs t (s.lm.txnIdToFirstLogRecord t)

theorem Simulates.new (pageSize : Nat) (pageSize_lt : pageSize < 2 ^ 64) (pageCount : Nat)
    (disk : Disk UInt8) (logFile : List UInt8) :
    Simulates (System.new pageSize pageSize_lt pageCount disk logFile) [] where
  holds := Holds.nil logFile
  wf := BufferManager.Wf.new pageSize pageSize_lt pageCount disk
  inside _ absent := absurd absent List.not_mem_nil
  valid _ absent := absurd absent List.not_mem_nil
  orderly := .nil
  starts _ isOpen := absurd isOpen.1 List.not_mem_nil

variable {s s' : System} {rs : List LogRecord} {record : LogRecord} {t : UInt64}

/-! ## The record of a call -/

/-- The bytes of a range of a page as callers see them. -/
def BufferManager.range (bm : BufferManager) (pageId : UInt64) (offset n : Nat) : List UInt8 :=
  (List.range n).map fun k => bm.byte pageId (offset + k)

/-- The record of an update, with the true before image. -/
def System.updateRecord (s : System) (txnId pageId offset : UInt64) (record : List UInt8) :
    LogRecord :=
  { type := .updateRecord, txnId, pageId, length := UInt64.ofNat record.length, offset
    beforeImg := s.bm.range pageId offset.toNat record.length, afterImg := record }

/-- What a call leaves on the tape. -/
def Call.records (s : System) : Call → List LogRecord
  | logTxnBegin txnId => [{ type := .beginRecord, txnId }]
  | logCommit txnId => [{ type := .commitRecord, txnId }]
  | logAbort txnId => [{ type := .abortRecord, txnId }]
  | logCheckpoint => [{ type := .checkpointRecord, txnId := 0 }]
  | update txnId pageId offset record => [s.updateRecord txnId pageId offset record]
  | flushPage _ => []
  | flushAllPages => []

/-- The length of a range inside a page fits its field. -/
theorem length_toNat (bm : BufferManager) {offset : Nat} {bytes : List UInt8}
    (inside : offset + bytes.length ≤ bm.pageSize) :
    (UInt64.ofNat bytes.length).toNat = bytes.length := by
  have page_lt := bm.pageSize_lt
  rw [UInt64.toNat_ofNat']
  exact Nat.mod_eq_of_lt (by omega)

/-- The pages are written as `writePage` does. -/
theorem System.update_writePage {txnId pageId offset : UInt64} {bytes : List UInt8}
    (ran : s.update txnId pageId offset bytes = some s') :
    s.bm.writePage pageId offset.toNat bytes = some s'.bm := by
  unfold System.update at ran
  obtain ⟨⟨fixedBm, f⟩, fixed, ran⟩ := Option.bind_eq_some_iff.mp ran
  cases ran
  rw [BufferManager.writePage, fixed]
  rfl

/-- What an update of a page guarantees: the bytes are written, and a record with the true images
is passed to the log manager. -/
theorem System.update_spec {txnId pageId offset : UInt64} {bytes : List UInt8} (wf : s.bm.Wf)
    (inside : offset.toNat + bytes.length ≤ s.bm.pageSize)
    (ran : s.update txnId pageId offset bytes = some s') :
    BufferManager.Written s.bm pageId offset.toNat bytes s'.bm ∧
      s'.lm = (s.lm.writeLogRecord (s.updateRecord txnId pageId offset bytes)).count
        .updateRecord := by
  have length := length_toNat s.bm inside
  have written := System.update_writePage ran
  unfold System.update at ran
  obtain ⟨⟨fixedBm, f⟩, fixed, ran⟩ := Option.bind_eq_some_iff.mp ran
  cases ran
  constructor
  · exact wf.writePage written
  · obtain ⟨wf', valid, ⟨frame, at_f, rfl⟩, used, view, -, size⟩ := wf.fixPage fixed
    have data : fixedBm.getData f = frame.data := by rw [BufferManager.getData, at_f]
    have frameSize := wf'.length frame (List.mem_of_getElem? at_f)
    have before : Image.fill (fixedBm.getData f) offset.toNat (List.replicate bytes.length 0) =
        s.bm.range frame.pageId offset.toNat bytes.length := by
      apply List.ext_getElem
      · rw [Image.length_fill, List.length_replicate, BufferManager.range, List.length_map,
          List.length_range]
      · intro k bound bound'
        rw [Image.length_fill, List.length_replicate] at bound
        have left := Image.getD_fill_zeros frame.data offset.toNat bytes.length k
        rw [if_pos bound, List.getD_eq_getElem _ _ (by simpa using bound)] at left
        simp only [data, BufferManager.range, List.getElem_map, List.getElem_range]
        rw [left, ← wf'.byte_eq at_f valid, view]
    rw [before, LogManager.logUpdate]
    have shortBefore : (s.bm.range frame.pageId offset.toNat bytes.length).take bytes.length =
        s.bm.range frame.pageId offset.toNat bytes.length := by
      apply List.take_of_length_le
      exact Nat.le_of_eq (by rw [BufferManager.range, List.length_map, List.length_range])
    simp only [length, shortBefore, List.take_length, System.updateRecord]

theorem System.updateRecord_sized {txnId pageId offset : UInt64} {bytes : List UInt8}
    (inside : offset.toNat + bytes.length ≤ s.bm.pageSize) :
    (s.updateRecord txnId pageId offset bytes).Sized := by
  have length := length_toNat s.bm inside
  intro _
  simp only [System.updateRecord, length, BufferManager.range, List.length_map, List.length_range,
    and_self]

/-- Every call appends its records to the tape, and keeps the pool consistent. -/
theorem Holds.exec {call : Call} (holds : Holds s.lm rs) (wf : s.bm.Wf)
    (inside : call.Inside s.bm.pageSize) (ran : call.exec s = some s') :
    Holds s'.lm (rs ++ call.records s) := by
  cases call with
  | logTxnBegin txnId =>
    cases ran
    have fresh : Holds { s.lm with
        txnIdToFirstLogRecord := Function.update s.lm.txnIdToFirstLogRecord txnId s.lm.currentOffset
        activeTxns := StdSet.insert txnLt txnId s.lm.activeTxns } rs := holds.congr rfl rfl
    exact (fresh.append_plain (by decide) txnId []).congr rfl rfl
  | logCommit txnId =>
    cases ran
    exact (holds.append_plain (by decide) txnId []).congr rfl rfl
  | logAbort txnId =>
    obtain ⟨⟨lm, bm⟩, aborted, ran⟩ := Option.bind_eq_some_iff.mp ran
    obtain ⟨_, rfl⟩ := LogManager.logAbort_cases aborted
    cases ran
    exact (holds.append_plain (by decide) txnId []).congr rfl rfl
  | logCheckpoint =>
    cases ran
    exact (holds.append_plain (by decide) 0 _).congr rfl rfl
  | update txnId pageId offset record =>
    obtain ⟨_, logged⟩ := System.update_spec wf inside ran
    rw [logged]
    exact (holds.append (System.updateRecord_sized inside)).congr rfl rfl
  | flushPage pageId =>
    cases ran
    rw [Call.records, List.append_nil]
    exact holds
  | flushAllPages =>
    cases ran
    rw [Call.records, List.append_nil]
    exact holds

/-! ## Every call simulates its operation -/

/-- A record other than a start keeps the first offsets valid. -/
theorem Simulates.append (sim : Simulates s rs) (holds : Holds s'.lm (rs ++ [record]))
    (wf : s'.bm.Wf) (size : s'.bm.pageSize = s.bm.pageSize) (inside : record.Inside s.bm.pageSize)
    (valid : record.type = .updateRecord → record.pageId ≠ invalidPageId)
    (follows : UndoRedo.Follows (entries rs) record.entry)
    (first : ∀ t, record.entry ≠ .start t →
      s'.lm.txnIdToFirstLogRecord t = s.lm.txnIdToFirstLogRecord t)
    (begins : ∀ t, record.entry = .start t →
      s'.lm.txnIdToFirstLogRecord t = (tapeBytes rs).length) :
    Simulates s' (rs ++ [record]) where
  holds := holds
  wf := wf
  inside r member := by
    rw [size]
    rcases List.mem_append.mp member with old | new
    · exact sim.inside r old
    · exact List.mem_singleton.mp new ▸ inside
  valid r member := by
    rcases List.mem_append.mp member with old | new
    · exact sim.valid r old
    · exact List.mem_singleton.mp new ▸ valid
  orderly := by
    rw [entries_append]
    exact sim.orderly.snoc follows
  starts t isOpen := by
    by_cases isStart : record.entry = .start t
    · rw [begins t isStart]
      rw [isStart] at follows
      exact startsAt_end sim.orderly follows [record]
    · rw [first t isStart]
      rw [entries_append] at isOpen
      exact (sim.starts t (isOpen.of_append isStart)).append record

theorem Sys_ext {a b : UndoRedo.Sys UInt64 Cell UInt8} (log : a.log = b.log)
    (view : ∀ q i, a.view (q, i) = b.view (q, i))
    (durable : ∀ q i, a.durable (q, i) = b.durable (q, i)) : a = b := by
  obtain ⟨_, viewA, durableA⟩ := a
  obtain ⟨_, viewB, durableB⟩ := b
  have sameView : viewA = viewB := funext fun (c : Cell) => view c.1 c.2
  have sameDurable : durableA = durableB := funext fun (c : Cell) => durable c.1 c.2
  cases log
  rw [sameView, sameDurable]

/-- The record of an update carries the images of the bytes it writes. -/
theorem System.entry_updateRecord {txnId pageId offset : UInt64} {bytes : List UInt8}
    (inside : offset.toNat + bytes.length ≤ s.bm.pageSize) :
    (s.updateRecord txnId pageId offset bytes).entry =
      (s.abstract rs).logged txnId (Call.cells pageId offset bytes) := by
  have length := length_toNat s.bm inside
  rw [LogRecord.entry_of_update rfl, UndoRedo.Sys.logged]
  congr 1
  funext cell
  obtain ⟨q, i⟩ := cell
  simp only [LogRecord.cells, Call.cells, LogRecord.Reaches, System.updateRecord, length,
    System.abstract]
  split
  · rename_i reached
    obtain ⟨rfl, low, high⟩ := reached
    have index : i - offset.toNat < bytes.length := by omega
    have before : (s.bm.range q offset.toNat bytes.length).getD (i - offset.toNat) 0 =
        s.bm.byte q i := by
      rw [List.getD_eq_getElem _ _ (by simpa [BufferManager.range] using index)]
      simp only [BufferManager.range, List.getElem_map, List.getElem_range]
      rw [Nat.add_sub_cancel' low]
    rw [before]
    rfl
  · rfl

/-- One call.  Of the tape, `base` is what an earlier run has left and `tail` what this run has
logged; the transactions of the two are different. -/
theorem Simulates.exec {base tail : List LogRecord} {call : Call} (sim : Simulates s (base ++ tail))
    (inside : call.Inside s.bm.pageSize)
    (admits : UndoRedo.Admits (entries (base ++ tail)) call.op)
    (own : ∀ t, call = .logAbort t → ∀ cells, UndoRedo.Entry.update t cells ∉ entries base)
    (ran : call.exec s = some s') :
    Simulates s' (base ++ (tail ++ call.records s)) ∧ s'.bm.pageSize = s.bm.pageSize ∧
      s'.abstract (tail ++ call.records s) = (s.abstract tail).exec call.op := by
  have holds := sim.holds.exec sim.wf inside ran
  rw [← List.append_assoc]
  cases call with
  | logTxnBegin txnId =>
    cases ran
    have maps := writeLogRecord_maps { s.lm with
        txnIdToFirstLogRecord := Function.update s.lm.txnIdToFirstLogRecord txnId s.lm.currentOffset
        activeTxns := StdSet.insert txnLt txnId s.lm.activeTxns } { type := .beginRecord, txnId }
    refine ⟨sim.append holds sim.wf rfl (fun h => by cases h) (fun h => by cases h) admits
      (fun t different => ?_)
      fun t same => ?_, rfl, Sys_ext entries_append (fun _ _ => rfl) fun _ _ => rfl⟩
    · refine (congrFun maps.1 t).trans (Function.update_of_ne ?_ _ _)
      rintro rfl
      exact different rfl
    · cases same
      exact (congrFun maps.1 txnId).trans ((Function.update_self _ _ _).trans sim.holds.offset)
  | logCommit txnId =>
    cases ran
    have maps := writeLogRecord_maps s.lm { type := .commitRecord, txnId }
    exact ⟨sim.append holds sim.wf rfl (fun h => by cases h) (fun h => by cases h) admits.1
      (fun t _ => congrFun maps.1 t) (fun t h => by cases h), rfl,
      Sys_ext entries_append (fun _ _ => rfl) fun _ _ => rfl⟩
  | logAbort txnId =>
    obtain ⟨⟨lm, bm⟩, aborted, ran⟩ := Option.bind_eq_some_iff.mp ran
    obtain ⟨rolledBack, rfl⟩ := LogManager.logAbort_cases aborted
    cases ran
    have maps := writeLogRecord_maps s.lm { type := .abortRecord, txnId }
    obtain ⟨wf, size, view, durable⟩ :=
      rollbackTxn_spec sim.holds sim.wf sim.inside (sim.starts txnId admits) rolledBack
    have restored : ∀ q i, bm.byte q i =
        (UndoRedo.firstBefore (entries tail) txnId (q, i)).getD (s.bm.byte q i) := by
      intro q i
      rw [view, entries, List.map_append, ← entries,
        UndoRedo.firstBefore_append_right (own txnId rfl)]
      rfl
    refine ⟨sim.append holds wf size (fun h => by cases h) (fun h => by cases h) admits.1
      (fun t _ => congrFun maps.1 t) (fun t h => by cases h), size,
      Sys_ext entries_append restored fun q i => ?_⟩
    exact (durable q i).trans (restored q i)
  | logCheckpoint =>
    cases ran
    have maps := writeLogRecord_maps s.lm
      { type := .checkpointRecord, txnId := 0
        activeTxns := s.lm.activeTxns.map fun txnId => (txnId, s.lm.txnIdToFirstLogRecord txnId) }
    obtain ⟨wf, view, durable, size⟩ := sim.wf.flushAllPages
    refine ⟨sim.append holds wf size (fun h => by cases h) (fun h => by cases h) trivial
      (fun t _ => congrFun maps.1 t) (fun t h => by cases h), size,
      Sys_ext entries_append (fun q i => view q i) fun q i => ?_⟩
    exact (durable q i).trans (if_pos rfl)
  | update txnId pageId offset bytes =>
    obtain ⟨⟨wf, valid, view, disk, size⟩, logged⟩ := System.update_spec sim.wf inside ran
    have maps := writeLogRecord_maps s.lm (s.updateRecord txnId pageId offset bytes)
    have length := length_toNat s.bm inside
    refine ⟨sim.append holds wf size (fun _ => ?_) (fun _ => valid) admits.1 (fun t _ => ?_)
      (fun t h => by cases h), size, Sys_ext ?_ (fun q i => ?_) fun q i => ?_⟩
    · exact Nat.le_trans (Nat.le_of_eq (congrArg (offset.toNat + ·) length)) inside
    · rw [logged]
      exact congrFun maps.1 t
    · exact entries_append.trans
        (congrArg (entries tail ++ [·]) (System.entry_updateRecord inside))
    · refine (view q i).trans ?_
      simp only [Call.op, UndoRedo.Sys.exec, Call.cells, System.abstract]
      by_cases reached : q = pageId ∧ offset.toNat ≤ i ∧ i < offset.toNat + bytes.length
      · have within : i < s.bm.pageSize := Nat.lt_of_lt_of_le reached.2.2 inside
        rw [if_pos ⟨reached.1, within, reached.2⟩, if_pos reached, Option.getD_some]
      · rw [if_neg fun h => reached ⟨h.1, h.2.2⟩, if_neg reached, Option.getD_none]
    · exact congrArg₂ (fun d n => Disk.byte d n q i) disk size
  | flushPage pageId =>
    cases ran
    obtain ⟨wf, view, durable, size⟩ := sim.wf.flushPage pageId
    rw [Call.records, List.append_nil, List.append_nil]
    exact ⟨⟨sim.holds, wf, size ▸ sim.inside, sim.valid, sim.orderly, sim.starts⟩, size,
      Sys_ext rfl view durable⟩
  | flushAllPages =>
    cases ran
    obtain ⟨wf, view, durable, size⟩ := sim.wf.flushAllPages
    rw [Call.records, List.append_nil, List.append_nil]
    exact ⟨⟨sim.holds, wf, size ▸ sim.inside, sim.valid, sim.orderly, sim.starts⟩, size,
      Sys_ext rfl view durable⟩

end BuzzDB.Recovery
