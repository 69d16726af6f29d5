import BuzzDB.Lib.UndoRedo
import BuzzDB.Recovery.LogManager

/-!
# The log tape

What the log manager does, seen as operations on the list of records its file holds.
`Holds` ties the two together; it is kept by every append, and under it the loops of
`log_manager.cc` run over the list.

`entry` reads a record as an entry of the abstract log, with the bytes of the pages
as cells.  Redo and rollback then are `UndoRedo.redo` and `UndoRedo.firstBefore`.
-/

namespace BuzzDB.Recovery

/-- A byte of a page. -/
abbrev Cell := UInt64 × Nat

/-- An entry of the abstract log. -/
abbrev Entry := UndoRedo.Entry UInt64 Cell UInt8

namespace LogRecord

/-- The update reaches byte `i` of page `q`. -/
def Reaches (record : LogRecord) (q : UInt64) (i : Nat) : Prop :=
  q = record.pageId ∧ record.offset.toNat ≤ i ∧ i < record.offset.toNat + record.length.toNat

instance (record : LogRecord) (q : UInt64) (i : Nat) : Decidable (record.Reaches q i) :=
  inferInstanceAs (Decidable (_ ∧ _ ∧ _))

/-- The before and after images of the bytes of an update. -/
def cells (record : LogRecord) (a : Cell) : Option (UInt8 × UInt8) :=
  if record.Reaches a.1 a.2 then
    some (record.beforeImg.getD (a.2 - record.offset.toNat) 0,
      record.afterImg.getD (a.2 - record.offset.toNat) 0)
  else none

/-- A record as an entry of the abstract log. -/
def entry (record : LogRecord) : Entry :=
  match record.type with
  | .updateRecord => .update record.txnId record.cells
  | .beginRecord => .start record.txnId
  | .commitRecord => .commit record.txnId
  | .abortRecord => .abort record.txnId
  | .checkpointRecord => .mark
  | .invalidRecordType => .mark

/-- The range of an update lies inside the page. -/
def Inside (pageSize : Nat) (record : LogRecord) : Prop :=
  record.type = .updateRecord → record.offset.toNat + record.length.toNat ≤ pageSize

variable {record : LogRecord} {t : UInt64}

theorem entry_eq_start : record.entry = .start t ↔
    record.type = .beginRecord ∧ record.txnId = t := by
  unfold entry
  cases record.type <;> simp

theorem entry_eq_commit : record.entry = .commit t ↔
    record.type = .commitRecord ∧ record.txnId = t := by
  unfold entry
  cases record.type <;> simp

theorem entry_eq_abort : record.entry = .abort t ↔
    record.type = .abortRecord ∧ record.txnId = t := by
  unfold entry
  cases record.type <;> simp

theorem entry_eq_update {cells : Cell → Option (UInt8 × UInt8)}
    (isEntry : record.entry = .update t cells) :
    record.type = .updateRecord ∧ record.txnId = t := by
  unfold entry at isEntry
  cases type : record.type <;> simp_all

theorem entry_of_update (isUpdate : record.type = .updateRecord) :
    record.entry = .update record.txnId record.cells := by
  rw [entry, isUpdate]

theorem cells_isSome {a : Cell} : (record.cells a).isSome ↔ record.Reaches a.1 a.2 := by
  unfold cells
  split
  · simp_all
  · simp_all

end LogRecord

/-- The abstract log of a list of records. -/
def entries (records : List LogRecord) : List Entry := records.map LogRecord.entry

/-- The bytes of a list of records. -/
def tapeBytes (records : List LogRecord) : List UInt8 := records.flatMap LogRecord.bytes

/-- Records with their offsets on a tape that reaches `start` before the first one. -/
def positions (start : Nat) : List LogRecord → List (Nat × LogRecord)
  | [] => []
  | record :: rest => (start, record) :: positions (start + record.getRecordSize) rest

theorem map_snd_positions (start : Nat) (records : List LogRecord) :
    (positions start records).map Prod.snd = records := by
  induction records generalizing start with
  | nil => rfl
  | cons record rest ih => rw [positions, List.map_cons, ih]

theorem tapeBytes_append (front back : List LogRecord) :
    tapeBytes (front ++ back) = tapeBytes front ++ tapeBytes back :=
  List.flatMap_append

theorem tapeBytes_singleton (record : LogRecord) : tapeBytes [record] = record.bytes := by
  rw [tapeBytes, List.flatMap_cons, List.flatMap_nil, List.append_nil]

/-- The log file up to `current_offset_` holds exactly `records`. -/
structure Holds (lm : LogManager) (records : List LogRecord) : Prop where
  sized : ∀ record ∈ records, record.Sized
  onTape : ∀ record ∈ records, record.onTape = record
  file : ∃ rest, lm.logFile = tapeBytes records ++ rest
  offset : lm.currentOffset = (tapeBytes records).length

variable {lm : LogManager} {rs front back : List LogRecord} {record : LogRecord}

theorem Holds.nil (logFile : List UInt8) : Holds (LogManager.new logFile) [] where
  sized _ absent := by cases absent
  onTape _ absent := by cases absent
  file := ⟨logFile, rfl⟩
  offset := rfl

/-- `Holds` looks at the file and the offset only. -/
theorem Holds.congr {lm' : LogManager} (holds : Holds lm rs) (file : lm'.logFile = lm.logFile)
    (offset : lm'.currentOffset = lm.currentOffset) : Holds lm' rs where
  sized := holds.sized
  onTape := holds.onTape
  file := file ▸ holds.file
  offset := offset ▸ holds.offset

/-! ## Appending -/

theorem writeFields_spec {done rest : List UInt8} (blocks : List (List UInt8))
    (file : lm.logFile = done ++ rest) (offset : lm.currentOffset = done.length) :
    blocks.foldl LogManager.writeField lm =
      { lm with
        logFile := done ++ blocks.flatten ++ rest.drop blocks.flatten.length
        currentOffset := (done ++ blocks.flatten).length } := by
  induction blocks generalizing lm done rest with
  | nil => simp [← file, ← offset]
  | cons block blocks ih =>
    have step : lm.writeField block =
        { lm with
          logFile := (done ++ block) ++ rest.drop block.length
          currentOffset := (done ++ block).length } := by
      rw [LogManager.writeField, file, offset, Image.splice_after, List.length_append]
    rw [List.foldl_cons, step, ih rfl rfl]
    simp only [List.flatten_cons, List.append_assoc, List.drop_drop, List.length_append]

/-- `write_log_record` puts the bytes of the record behind those already there. -/
theorem Holds.writeLogRecord_eq (holds : Holds lm rs) (record : LogRecord) :
    ∃ rest, lm.logFile = tapeBytes rs ++ rest ∧
      lm.writeLogRecord record =
        { lm with
          logFile := tapeBytes rs ++ record.bytes ++ rest.drop record.bytes.length
          currentOffset := (tapeBytes rs ++ record.bytes).length } := by
  obtain ⟨rest, file⟩ := holds.file
  exact ⟨rest, file, writeFields_spec record.fields file holds.offset⟩

theorem Holds.append (holds : Holds lm rs) (sized : record.Sized) :
    Holds (lm.writeLogRecord record) (rs ++ [record.onTape]) := by
  obtain ⟨rest, _, written⟩ := holds.writeLogRecord_eq record
  have bytes : tapeBytes (rs ++ [record.onTape]) = tapeBytes rs ++ record.bytes := by
    rw [tapeBytes_append, tapeBytes_singleton, LogRecord.bytes_onTape]
  refine ⟨fun r member => ?_, fun r member => ?_, ?_, ?_⟩
  · rcases List.mem_append.mp member with old | new
    · exact holds.sized r old
    · exact List.mem_singleton.mp new ▸ sized.onTape
  · rcases List.mem_append.mp member with old | new
    · exact holds.onTape r old
    · rw [List.mem_singleton.mp new]
      unfold LogRecord.onTape
      split <;> simp_all
  · exact ⟨rest.drop record.bytes.length, by rw [written, bytes]⟩
  · rw [written, bytes]

/-- Appending a record without update fields. -/
theorem Holds.append_plain (holds : Holds lm rs) {type : LogRecordType}
    (notUpdate : type ≠ .updateRecord) (txnId : UInt64) (activeTxns : List (UInt64 × Nat)) :
    Holds (lm.writeLogRecord { type, txnId, activeTxns })
      (rs ++ [({ type, txnId } : LogRecord)]) := by
  have plain : LogRecord.onTape { type, txnId, activeTxns } = { type, txnId } := if_neg notUpdate
  have sized : LogRecord.Sized { type, txnId, activeTxns } :=
    fun isUpdate => absurd isUpdate notUpdate
  have appended := holds.append sized
  rwa [plain] at appended

/-- Appending leaves the maps of the log manager alone. -/
theorem writeLogRecord_maps (lm : LogManager) (record : LogRecord) :
    (lm.writeLogRecord record).txnIdToFirstLogRecord = lm.txnIdToFirstLogRecord ∧
      (lm.writeLogRecord record).activeTxns = lm.activeTxns := by
  have fold : ∀ (blocks : List (List UInt8)) (lm : LogManager),
      (blocks.foldl LogManager.writeField lm).txnIdToFirstLogRecord = lm.txnIdToFirstLogRecord ∧
        (blocks.foldl LogManager.writeField lm).activeTxns = lm.activeTxns := by
    intro blocks
    induction blocks with
    | nil => exact fun lm => ⟨rfl, rfl⟩
    | cons block blocks ih => exact fun lm => ih (lm.writeField block)
  exact fold record.fields lm

/-! ## Visiting the records -/

theorem length_tapeBytes_cons (sized : record.Sized) :
    (tapeBytes (record :: back)).length = record.getRecordSize + (tapeBytes back).length := by
  rw [tapeBytes, List.flatMap_cons, List.length_append, sized.length_bytes]
  rfl

theorem Holds.recordsFrom (holds : Holds lm (front ++ back)) {fuel : Nat}
    (enough : (tapeBytes back).length ≤ fuel) :
    lm.recordsFrom fuel (tapeBytes front).length = positions (tapeBytes front).length back := by
  induction back generalizing front fuel with
  | nil =>
    have atEnd : ¬ (tapeBytes front).length < lm.currentOffset := by
      rw [holds.offset, List.append_nil]
      exact Nat.lt_irrefl _
    cases fuel with
    | zero => rfl
    | succ fuel => rw [LogManager.recordsFrom, if_neg atEnd, positions]
  | cons record back ih =>
    have member : record ∈ front ++ record :: back := List.mem_append_right _ List.mem_cons_self
    have sized := holds.sized record member
    have size : (tapeBytes (record :: back)).length =
        record.getRecordSize + (tapeBytes back).length := length_tapeBytes_cons sized
    have positive := record.getRecordSize_pos
    obtain ⟨rest, file⟩ := holds.file
    have drops : lm.logFile.drop (tapeBytes front).length =
        record.bytes ++ (tapeBytes back ++ rest) := by
      rw [file, tapeBytes_append, List.append_assoc, List.drop_left, tapeBytes, List.flatMap_cons,
        List.append_assoc]
      rfl
    have read : readLogRecord lm.logFile (tapeBytes front).length = record :=
      (readLogRecord_of_drop sized drops).trans (holds.onTape record member)
    have before : (tapeBytes front).length < lm.currentOffset := by
      rw [holds.offset, tapeBytes_append, List.length_append]
      omega
    obtain ⟨fuel, rfl⟩ : ∃ fuel', fuel = fuel' + 1 := ⟨fuel - 1, by omega⟩
    have next : (tapeBytes front).length + record.getRecordSize =
        (tapeBytes (front ++ [record])).length := by
      rw [tapeBytes_append, List.length_append, tapeBytes_singleton, sized.length_bytes]
    rw [LogManager.recordsFrom, if_pos before, positions]
    simp only [read]
    rw [next, ih (by rwa [List.append_assoc]) (by omega)]

/-- The loops from the offset of a record on visit that record and those behind it. -/
theorem Holds.records (holds : Holds lm (front ++ back)) :
    lm.records (tapeBytes front).length = positions (tapeBytes front).length back := by
  refine holds.recordsFrom ?_
  rw [holds.offset, tapeBytes_append, List.length_append]
  omega

/-- The loops from zero visit all records. -/
theorem Holds.records_zero (holds : Holds lm rs) : lm.records 0 = positions 0 rs := by
  have split : Holds lm ([] ++ rs) := holds
  exact split.records

/-! ## Tapes that go on -/

/-- The log file begins with `records`, whatever follows them. -/
structure Begins (lm : LogManager) (records : List LogRecord) : Prop where
  sized : ∀ record ∈ records, record.Sized
  onTape : ∀ record ∈ records, record.onTape = record
  file : ∃ rest, lm.logFile = tapeBytes records ++ rest
  offset : (tapeBytes records).length ≤ lm.currentOffset

theorem Holds.begins (holds : Holds lm rs) : Begins lm rs :=
  ⟨holds.sized, holds.onTape, holds.file, Nat.le_of_eq holds.offset.symm⟩

theorem Begins.recordsFrom (begins : Begins lm (front ++ back)) {fuel : Nat}
    (enough : (tapeBytes back).length ≤ fuel) :
    ∃ more, lm.recordsFrom fuel (tapeBytes front).length =
      positions (tapeBytes front).length back ++ more := by
  induction back generalizing front fuel with
  | nil => exact ⟨_, rfl⟩
  | cons record back ih =>
    have member : record ∈ front ++ record :: back := List.mem_append_right _ List.mem_cons_self
    have sized := begins.sized record member
    have size : (tapeBytes (record :: back)).length =
        record.getRecordSize + (tapeBytes back).length := length_tapeBytes_cons sized
    have positive := record.getRecordSize_pos
    have reach := begins.offset
    obtain ⟨rest, file⟩ := begins.file
    rw [tapeBytes_append, List.length_append] at reach
    have drops : lm.logFile.drop (tapeBytes front).length =
        record.bytes ++ (tapeBytes back ++ rest) := by
      rw [file, tapeBytes_append, List.append_assoc, List.drop_left, tapeBytes, List.flatMap_cons,
        List.append_assoc]
      rfl
    have read : readLogRecord lm.logFile (tapeBytes front).length = record :=
      (readLogRecord_of_drop sized drops).trans (begins.onTape record member)
    obtain ⟨fuel, rfl⟩ : ∃ fuel', fuel = fuel' + 1 := ⟨fuel - 1, by omega⟩
    have next : (tapeBytes front).length + record.getRecordSize =
        (tapeBytes (front ++ [record])).length := by
      rw [tapeBytes_append, List.length_append, tapeBytes_singleton, sized.length_bytes]
    have shifted : Begins lm ((front ++ [record]) ++ back) := by rwa [List.append_assoc]
    obtain ⟨more, visited⟩ := ih shifted (by omega : (tapeBytes back).length ≤ fuel)
    refine ⟨more, ?_⟩
    rw [LogManager.recordsFrom, if_pos (by omega), positions]
    simp only [read]
    rw [next, visited, List.cons_append]

/-- The loops from zero visit the records that the tape begins with. -/
theorem Begins.records_zero (begins : Begins lm rs) :
    ∃ more, lm.records 0 = positions 0 rs ++ more := by
  have split : Begins lm ([] ++ rs) := begins
  exact split.recordsFrom begins.offset

theorem Begins.writeField (begins : Begins lm rs) (block : List UInt8) :
    Begins (lm.writeField block) rs where
  sized := begins.sized
  onTape := begins.onTape
  file := by
    obtain ⟨rest, file⟩ := begins.file
    rw [LogManager.writeField, file]
    exact Image.splice_prefix _ rest block begins.offset
  offset := Nat.le_trans begins.offset (Nat.le_add_right _ _)

end BuzzDB.Recovery
