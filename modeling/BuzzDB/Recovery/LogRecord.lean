import BuzzDB.Lib.Image

/-!
# Log records

The records of `log/log_manager.cc` and their bytes on the log tape.  `writeLogRecord`
in the next module writes the blocks of `fields` one after the other, and
`readLogRecord` reads them back.  A checkpoint carries a list of active transactions
that neither of the two moves: `onTape` is what is left of a record.
-/

namespace BuzzDB.Recovery

/-- `LogManager::LogRecordType`. -/
inductive LogRecordType
  | invalidRecordType
  | abortRecord
  | commitRecord
  | updateRecord
  | beginRecord
  | checkpointRecord
  deriving DecidableEq

namespace LogRecordType

/-- The value of the enumerator. -/
def code : LogRecordType → Nat
  | invalidRecordType => 0
  | abortRecord => 1
  | commitRecord => 2
  | updateRecord => 3
  | beginRecord => 4
  | checkpointRecord => 5

/-- The enumerator of a value; every branch of the code treats the values of none as it treats
`INVALID_RECORD_TYPE`. -/
def ofCode : Nat → LogRecordType
  | 1 => abortRecord
  | 2 => commitRecord
  | 3 => updateRecord
  | 4 => beginRecord
  | 5 => checkpointRecord
  | _ => invalidRecordType

@[simp] theorem ofCode_code (type : LogRecordType) : ofCode type.code = type := by
  cases type <;> rfl

theorem code_lt (type : LogRecordType) : type.code < 256 ^ 4 := by
  cases type <;> decide

end LogRecordType

/-- `LogRecord`. -/
structure LogRecord where
  type : LogRecordType
  txnId : UInt64
  pageId : UInt64 := 0
  length : UInt64 := 0
  offset : UInt64 := 0
  beforeImg : List UInt8 := []
  afterImg : List UInt8 := []
  activeTxns : List (UInt64 × Nat) := []
  deriving DecidableEq

namespace LogRecord

/-- The blocks that `write_log_record` writes for a record, in order. -/
def fields (record : LogRecord) : List (List UInt8) :=
  [Image.bytesOf 4 record.type.code, Image.bytesOf 8 record.txnId.toNat] ++
    if record.type = .updateRecord then
      [Image.bytesOf 8 record.pageId.toNat, Image.bytesOf 8 record.length.toNat,
        Image.bytesOf 8 record.offset.toNat, record.beforeImg, record.afterImg]
    else []

/-- The bytes of a record on the tape. -/
def bytes (record : LogRecord) : List UInt8 := record.fields.flatten

/-- `get_record_size`. -/
def getRecordSize (record : LogRecord) : Nat :=
  let size := 4 + 8
  if record.type = .updateRecord then size + 3 * 8 + 2 * record.length.toNat else size

end LogRecord

/-- A `read_block` of `size` bytes of the log file. -/
def readBytes (logFile : List UInt8) (offset size : Nat) : List UInt8 :=
  Image.fill logFile offset (List.replicate size 0)

/-- A `read_block` of a `uint64_t`. -/
def readUInt64 (logFile : List UInt8) (offset : Nat) : UInt64 :=
  UInt64.ofNat (Image.natOf (readBytes logFile offset 8))

/-- `read_log_record`. -/
def readLogRecord (logFile : List UInt8) (offset : Nat) : LogRecord :=
  let type := LogRecordType.ofCode (Image.natOf (readBytes logFile offset 4))
  let offset := offset + 4
  let txnId := readUInt64 logFile offset
  let offset := offset + 8
  if type = .updateRecord then
    let pageId := readUInt64 logFile offset
    let offset := offset + 8
    let length := readUInt64 logFile offset
    let offset := offset + 8
    let pageOffset := readUInt64 logFile offset
    let offset := offset + 8
    let beforeImg := readBytes logFile offset length.toNat
    let offset := offset + length.toNat
    let afterImg := readBytes logFile offset length.toNat
    { type, txnId, pageId, length, offset := pageOffset, beforeImg, afterImg }
  else { type, txnId }

namespace LogRecord

/-- The part of a record that its bytes carry. -/
def onTape (record : LogRecord) : LogRecord :=
  if record.type = .updateRecord then { record with activeTxns := [] }
  else { type := record.type, txnId := record.txnId }

/-- The images of an update have the length it states. -/
def Sized (record : LogRecord) : Prop :=
  record.type = .updateRecord →
    record.beforeImg.length = record.length.toNat ∧ record.afterImg.length = record.length.toNat

variable {record : LogRecord}

theorem Sized.onTape (sized : record.Sized) : record.onTape.Sized := by
  unfold LogRecord.onTape
  split
  · exact sized
  · rename_i notUpdate
    exact fun isUpdate => absurd isUpdate notUpdate

theorem bytes_onTape : record.onTape.bytes = record.bytes := by
  unfold onTape bytes fields
  split <;> rfl

/-- `get_record_size` is the number of bytes that are written. -/
theorem Sized.length_bytes (sized : record.Sized) : record.bytes.length = record.getRecordSize := by
  unfold bytes fields getRecordSize
  split
  · rename_i isUpdate
    obtain ⟨before, after⟩ := sized isUpdate
    simp only [List.flatten_append, List.flatten_cons, List.flatten_nil, List.append_nil,
      List.length_append, Image.length_bytesOf, before, after]
    omega
  · simp only [List.append_nil, List.flatten_cons, List.flatten_nil, List.length_append,
      Image.length_bytesOf]

theorem getRecordSize_pos : 0 < record.getRecordSize := by
  unfold getRecordSize
  dsimp only
  split <;> omega

end LogRecord

/-! ## Reading back what was written -/

section Read

variable {logFile xs rest : List UInt8} {offset : Nat}

theorem drop_add_of_drop (drops : logFile.drop offset = xs ++ rest) :
    logFile.drop (offset + xs.length) = rest := by
  rw [← List.drop_drop, drops, List.drop_left]

theorem readBytes_of_drop (drops : logFile.drop offset = xs ++ rest) :
    readBytes logFile offset xs.length = xs :=
  Image.fill_of_drop_eq drops (List.length_replicate)

theorem readUInt64_of_drop {n : UInt64}
    (drops : logFile.drop offset = Image.bytesOf 8 n.toNat ++ rest) :
    readUInt64 logFile offset = n := by
  have bytes : readBytes logFile offset 8 = Image.bytesOf 8 n.toNat := by
    have h := readBytes_of_drop drops
    rwa [Image.length_bytesOf] at h
  rw [readUInt64, bytes, Image.natOf_bytesOf_of_lt n.toNat_lt, UInt64.ofNat_toNat]

/-- Reading a record at its position yields what its bytes carry of it. -/
theorem readLogRecord_of_drop {record : LogRecord} (sized : record.Sized)
    (drops : logFile.drop offset = record.bytes ++ rest) :
    readLogRecord logFile offset = record.onTape := by
  have atType : ∃ tail, logFile.drop offset = Image.bytesOf 4 record.type.code ++ tail := by
    rw [drops, LogRecord.bytes, LogRecord.fields]
    simp only [List.flatten_append, List.flatten_cons, List.append_assoc]
    exact ⟨_, rfl⟩
  have type : LogRecordType.ofCode (Image.natOf (readBytes logFile offset 4)) = record.type := by
    obtain ⟨tail, atType⟩ := atType
    have h := readBytes_of_drop atType
    rw [Image.length_bytesOf] at h
    rw [h, Image.natOf_bytesOf_of_lt record.type.code_lt, LogRecordType.ofCode_code]
  unfold readLogRecord LogRecord.onTape
  simp only [type]
  rw [LogRecord.bytes, LogRecord.fields] at drops
  by_cases isUpdate : record.type = .updateRecord
  · obtain ⟨before, after⟩ := sized isUpdate
    rw [if_pos isUpdate] at drops
    simp only [List.flatten_append, List.flatten_cons, List.flatten_nil, List.append_nil,
      List.append_assoc] at drops
    -- the tape behind each field
    have atTxn := drop_add_of_drop drops
    have atPage := drop_add_of_drop atTxn
    have atLength := drop_add_of_drop atPage
    have atOffset := drop_add_of_drop atLength
    have atBefore := drop_add_of_drop atOffset
    have atAfter := drop_add_of_drop atBefore
    simp only [Image.length_bytesOf, before] at atTxn atPage atLength atOffset atBefore atAfter
    have beforeImg := readBytes_of_drop atBefore
    have afterImg := readBytes_of_drop atAfter
    rw [before] at beforeImg
    rw [after] at afterImg
    rw [if_pos isUpdate, if_pos isUpdate, readUInt64_of_drop atTxn, readUInt64_of_drop atPage,
      readUInt64_of_drop atLength, readUInt64_of_drop atOffset, beforeImg, afterImg]
  · rw [if_neg isUpdate] at drops
    simp only [List.append_nil, List.flatten_cons, List.flatten_nil, List.append_assoc] at drops
    have atTxn := drop_add_of_drop drops
    rw [Image.length_bytesOf] at atTxn
    rw [if_neg isUpdate, if_neg isUpdate, readUInt64_of_drop atTxn]

end Read

end BuzzDB.Recovery
