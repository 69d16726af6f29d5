import BuzzDB.Recovery.TransactionIds

/-!
# Transaction records

The calls of the transaction manager.  `commit_txn` and `abort_txn` look at a flag in a
table that `add_modified_page` writes as well, with an entry that never started.  The
flag, the active set of the log manager and the records on the tape agree: the counter, a
`uint64_t`, hands out every id once, since a tape on which it has wrapped around is longer
than any file.
-/

namespace BuzzDB.Recovery

/-- The calls of the transaction manager. -/
inductive TxnCall
  | startTxn
  | commitTxn (txnId : UInt64)
  | abortTxn (txnId : UInt64)
  | addModifiedPage (txnId pageId : UInt64)
  deriving DecidableEq

/-- One call; `none` is the exit for an unknown transaction. -/
def TxnCall.exec (db : Database) : TxnCall → Option Database
  | startTxn => some db.startTxn.1
  | commitTxn txnId => db.commitTxn txnId
  | abortTxn txnId => db.abortTxn txnId
  | addModifiedPage txnId pageId => some (db.addModifiedPage txnId pageId)

/-- A fresh transaction manager and a fresh log manager over any buffer manager. -/
def Database.over (logFile : List UInt8) (bm : BufferManager) : Database :=
  ⟨⟨0, fun _ => none⟩, ⟨LogManager.new logFile, bm⟩⟩

/-- The types of the records that end a transaction. -/
def LogRecordType.IsEnd (type : LogRecordType) : Prop :=
  type = .commitRecord ∨ type = .abortRecord

instance (type : LogRecordType) : Decidable type.IsEnd := inferInstanceAs (Decidable (_ ∨ _))

/-- The ids of the commit and abort records, in order. -/
def endIds (rs : List LogRecord) : List UInt64 :=
  rs.filterMap fun record => if record.type.IsEnd then some record.txnId else none

/-- Every id on the tape has one begin record and at most one commit or abort record, which comes
after it; the active transactions are those with a begin record and no other. -/
structure TapeWellFormed (db : Database) : Prop where
  begun : ∀ r ∈ db.tape, (beginIds db.tape).count r.txnId = 1
  ended : ∀ t, (endIds db.tape).count t ≤ 1
  behind : ∀ front r back, db.tape = front ++ r :: back → r.type.IsEnd →
    r.txnId ∈ beginIds front
  active : ∀ t, t ∈ db.sys.lm.activeTxns ↔ t ∈ beginIds db.tape ∧ t ∉ endIds db.tape

/-- How many transactions start. -/
def starts (calls : List TxnCall) : Nat := calls.count .startTxn

variable {db db' : Database} {rs : List LogRecord} {record : LogRecord} {t : UInt64}
  {txn : Transaction} {n : Nat} {calls : List TxnCall}

/-! ## What a call does -/

/-- The transaction is in the table and its flag is set. -/
def Database.Started (db : Database) (t : UInt64) : Prop :=
  ∃ txn, db.tm.transactionTable t = some txn ∧ txn.started = true

/-- What a call does to the counter, the flags and the active set, by the records it logs. -/
inductive Effect (db db' : Database) : TxnCall → List LogRecord → Prop
  | starts (counter : db'.tm.transactionCounter = db.tm.transactionCounter + 1)
      (flags : ∀ t, db'.Started t ↔ t = db.tm.transactionCounter + 1 ∨ db.Started t)
      (active : db'.sys.lm.activeTxns =
        StdSet.insert txnLt (db.tm.transactionCounter + 1) db.sys.lm.activeTxns) :
      Effect db db' .startTxn [{ type := .beginRecord, txnId := db.tm.transactionCounter + 1 }]
  | ends {call : TxnCall} {type : LogRecordType} {t : UInt64} (other : call ≠ .startTxn)
      (isEnd : type.IsEnd) (started : db.Started t)
      (counter : db'.tm.transactionCounter = db.tm.transactionCounter)
      (flags : ∀ u, db'.Started u ↔ db.Started u ∧ u ≠ t)
      (active : db'.sys.lm.activeTxns = StdSet.erase t db.sys.lm.activeTxns) :
      Effect db db' call [{ type, txnId := t }]
  | silent {call : TxnCall} (other : call ≠ .startTxn)
      (counter : db'.tm.transactionCounter = db.tm.transactionCounter)
      (flags : ∀ u, db'.Started u ↔ db.Started u)
      (active : db'.sys.lm.activeTxns = db.sys.lm.activeTxns) : Effect db db' call []

/-- Setting an entry of the table changes the flag of that transaction only. -/
theorem started_setTxn {u : UInt64} : (db.setTxn t txn).Started u ↔
    (u = t ∧ txn.started = true) ∨ (u ≠ t ∧ db.Started u) := by
  unfold Database.Started
  by_cases same : u = t
  · subst same
    simp
  · simp [same, Database.setTxn_of_ne same]

/-- An entry whose flag is cleared has not started any more. -/
theorem started_cleared {ended : Transaction} {u : UInt64} (cleared : ended.started = false) :
    (db.setTxn t ended).Started u ↔ db.Started u ∧ u ≠ t := by
  rw [started_setTxn, cleared]
  simp [and_comm]

theorem effect_startTxn (holds : Holds db.sys.lm rs) :
    ∃ more, Effect db db.startTxn.1 .startTxn more ∧
      Holds db.startTxn.1.sys.lm (rs ++ more) := by
  have fresh : Holds { db.sys.lm with
      txnIdToFirstLogRecord := Function.update db.sys.lm.txnIdToFirstLogRecord
        (db.tm.transactionCounter + 1) db.sys.lm.currentOffset
      activeTxns :=
        StdSet.insert txnLt (db.tm.transactionCounter + 1) db.sys.lm.activeTxns } rs :=
    holds.congr rfl rfl
  refine ⟨_, .starts rfl (fun t => ?_) (writeLogRecord_maps _ _).2,
    (fresh.append_plain (by decide) _ []).congr rfl rfl⟩
  refine started_setTxn.trans ?_
  by_cases new : t = db.tm.transactionCounter + 1
  · simp [new]
  · simp only [new, false_and, not_false_eq_true, true_and, false_or, ne_eq]
    rfl

/-- The record that ends a transaction, and the active set behind it. -/
theorem Holds.end (holds : Holds db.sys.lm rs) {type : LogRecordType} (isEnd : type.IsEnd)
    (txnId : UInt64) :
    Holds (((db.sys.lm.writeLogRecord { type, txnId }).eraseActive txnId).count type)
        (rs ++ [({ type, txnId } : LogRecord)]) ∧
      (((db.sys.lm.writeLogRecord { type, txnId }).eraseActive txnId).count type).activeTxns =
        StdSet.erase txnId db.sys.lm.activeTxns := by
  constructor
  · refine (holds.append_plain ?_ txnId []).congr rfl rfl
    rcases isEnd with rfl | rfl
    · decide
    · decide
  · exact congrArg (StdSet.erase txnId) (writeLogRecord_maps _ _).2

theorem effect_of_exec {call : TxnCall} (holds : Holds db.sys.lm rs)
    (ran : call.exec db = some db') :
    ∃ more, Effect db db' call more ∧ Holds db'.sys.lm (rs ++ more) := by
  cases call with
  | startTxn =>
    cases ran
    exact effect_startTxn holds
  | commitTxn txnId =>
    obtain ⟨txn, present, ⟨started, rfl⟩ | ⟨_, rfl⟩⟩ := Database.commitTxn_cases ran
    · obtain ⟨held, active⟩ := holds.end (.inl rfl) txnId
      exact ⟨_, .ends (by simp) (.inl rfl) ⟨txn, present, started⟩ rfl
        (fun u => started_cleared rfl) active, held⟩
    · exact ⟨[], .silent (by simp) rfl (fun u => Iff.rfl) rfl, by rwa [List.append_nil]⟩
  | abortTxn txnId =>
    obtain ⟨txn, present, ⟨started, lm, bm, aborted, rfl⟩ | ⟨_, rfl⟩⟩ :=
      Database.abortTxn_cases ran
    · obtain ⟨_, rfl⟩ := LogManager.logAbort_cases aborted
      obtain ⟨held, active⟩ := holds.end (.inr rfl) txnId
      exact ⟨_, .ends (by simp) (.inr rfl) ⟨txn, present, started⟩ rfl
        (fun u => started_cleared rfl) active, held⟩
    · exact ⟨[], .silent (by simp) rfl (fun u => Iff.rfl) rfl, by rwa [List.append_nil]⟩
  | addModifiedPage txnId pageId =>
    cases ran
    refine ⟨[], .silent (by simp) rfl (fun u => ?_) rfl, by rwa [List.append_nil]⟩
    -- an absent entry appears with the flag of the default constructor
    refine started_setTxn.trans ?_
    by_cases same : u = txnId
    · subst same
      cases entry : db.tm.transactionTable u with
      | none => simp [Database.Started, entry, Transaction.default]
      | some txn => simp [Database.Started, entry]
    · simp [same]

/-! ## The invariant of a run -/

/-- The begin records have the first ids of the counter. -/
structure Issued (n : Nat) (db : Database) (rs : List LogRecord) : Prop where
  holds : Holds db.sys.lm rs
  ids : beginIds rs = epochIds 0 n
  counter : db.tm.transactionCounter = UInt64.ofNat n

/-- Flags, active set and tape agree on the transactions that have started and not ended. -/
structure InOrder (db : Database) (rs : List LogRecord) : Prop where
  begun : ∀ r ∈ rs, r.txnId ∈ beginIds rs
  ended : (endIds rs).Nodup
  behind : ∀ front r back, rs = front ++ r :: back → r.type.IsEnd → r.txnId ∈ beginIds front
  flags : ∀ t, db.Started t ↔ t ∈ beginIds rs ∧ t ∉ endIds rs
  active : ∀ t, t ∈ db.sys.lm.activeTxns ↔ t ∈ beginIds rs ∧ t ∉ endIds rs

theorem epochIds_concat (n : Nat) :
    epochIds 0 (n + 1) = epochIds 0 n ++ [UInt64.ofNat n + 1] := by
  rw [epochIds, List.range_succ, List.map_append]
  simp [epochIds]

theorem endIds_append (rs more : List LogRecord) :
    endIds (rs ++ more) = endIds rs ++ endIds more := List.filterMap_append

theorem mem_endIds : t ∈ endIds rs ↔ ∃ r ∈ rs, r.type.IsEnd ∧ r.txnId = t := by
  simp only [endIds, List.mem_filterMap, Option.ite_none_right_eq_some, Option.some.injEq]

theorem starts_append (calls more : List TxnCall) :
    starts (calls ++ more) = starts calls + starts more := List.count_append

theorem starts_other {call : TxnCall} (other : call ≠ .startTxn) : starts [call] = 0 :=
  List.count_eq_zero.mpr fun member => other (List.mem_singleton.mp member).symm

theorem InOrder.begun_of_ended (inOrder : InOrder db rs) (ended : t ∈ endIds rs) :
    t ∈ beginIds rs := by
  obtain ⟨r, member, _, isT⟩ := mem_endIds.mp ended
  exact isT ▸ inOrder.begun r member

theorem beginIds_begin (t : UInt64) :
    beginIds [({ type := .beginRecord, txnId := t } : LogRecord)] = [t] := rfl

theorem endIds_end {type : LogRecordType} (isEnd : type.IsEnd) (t : UInt64) :
    endIds [({ type, txnId := t } : LogRecord)] = [t] := by
  rw [endIds, List.filterMap_cons, if_pos isEnd]
  rfl

theorem beginIds_end {type : LogRecordType} (isEnd : type.IsEnd) (t : UInt64) :
    beginIds [({ type, txnId := t } : LogRecord)] = [] := by
  rcases isEnd with rfl | rfl
  · rfl
  · rfl

theorem Issued.effect {call : TxnCall} {more : List LogRecord} (issued : Issued n db rs)
    (effect : Effect db db' call more) (holds : Holds db'.sys.lm (rs ++ more)) :
    Issued (n + starts [call]) db' (rs ++ more) := by
  cases effect with
  | starts counter flags active =>
    refine ⟨holds, ?_, ?_⟩
    · rw [beginIds_append, beginIds_begin, issued.ids, issued.counter]
      exact (epochIds_concat n).symm
    · rw [counter, issued.counter]
      exact (UInt64.ofNat_add n 1).symm
  | ends other isEnd started counter flags active =>
    rw [starts_other other]
    refine ⟨holds, ?_, counter.trans issued.counter⟩
    rw [beginIds_append, beginIds_end isEnd, List.append_nil]
    exact issued.ids
  | silent other counter flags active =>
    rw [starts_other other]
    refine ⟨holds, ?_, counter.trans issued.counter⟩
    rw [List.append_nil]
    exact issued.ids

/-- A new id starts a transaction that is neither begun nor ended. -/
theorem InOrder.start (inOrder : InOrder db rs) (new : t ∉ beginIds rs)
    (flags : ∀ u, db'.Started u ↔ u = t ∨ db.Started u)
    (active : db'.sys.lm.activeTxns = StdSet.insert txnLt t db.sys.lm.activeTxns) :
    InOrder db' (rs ++ [{ type := .beginRecord, txnId := t }]) := by
  have begins : ∀ u, u ∈ beginIds (rs ++ [({ type := .beginRecord, txnId := t } : LogRecord)]) ↔
      u ∈ beginIds rs ∨ u = t := by
    intro u
    rw [beginIds_append, beginIds_begin, List.mem_append, List.mem_singleton]
  have ends : endIds (rs ++ [({ type := .beginRecord, txnId := t } : LogRecord)]) = endIds rs := by
    rw [endIds_append]
    exact List.append_nil _
  have notEnded : t ∉ endIds rs := fun ended => new (inOrder.begun_of_ended ended)
  have openBehind : ∀ u, (u = t ∨ (u ∈ beginIds rs ∧ u ∉ endIds rs)) ↔
      (u ∈ beginIds rs ∨ u = t) ∧ u ∉ endIds rs := by
    intro u
    by_cases same : u = t
    · subst same
      simp [notEnded]
    · simp [same]
  refine ⟨fun r member => ?_, ?_, ?_, fun u => ?_, fun u => ?_⟩
  · rw [begins]
    rcases List.mem_append.mp member with old | last
    · exact .inl (inOrder.begun r old)
    · rw [List.mem_singleton.mp last]
      exact .inr rfl
  · rw [ends]
    exact inOrder.ended
  · refine begun_append inOrder.behind fun r member isEnd => ?_
    rw [List.mem_singleton.mp member] at isEnd
    rcases isEnd with impossible | impossible <;> cases impossible
  · rw [flags, inOrder.flags, begins, ends]
    exact openBehind u
  · rw [active, StdSet.mem_insert txnLt_strict, inOrder.active, begins, ends]
    exact openBehind u

/-- Only a transaction that is begun and not ended can end. -/
theorem InOrder.finish {type : LogRecordType} (inOrder : InOrder db rs) (isEnd : type.IsEnd)
    (started : db.Started t) (flags : ∀ u, db'.Started u ↔ db.Started u ∧ u ≠ t)
    (active : db'.sys.lm.activeTxns = StdSet.erase t db.sys.lm.activeTxns) :
    InOrder db' (rs ++ [{ type, txnId := t }]) := by
  obtain ⟨begun, notEnded⟩ := (inOrder.flags t).mp started
  have begins : beginIds (rs ++ [({ type, txnId := t } : LogRecord)]) = beginIds rs := by
    rw [beginIds_append, beginIds_end isEnd, List.append_nil]
  have ends : endIds (rs ++ [({ type, txnId := t } : LogRecord)]) = endIds rs ++ [t] := by
    rw [endIds_append, endIds_end isEnd]
  have openBehind : ∀ u, (u ∈ beginIds rs ∧ u ∉ endIds rs) ∧ u ≠ t ↔
      u ∈ beginIds rs ∧ u ∉ endIds rs ++ [t] := by
    intro u
    rw [List.mem_append, List.mem_singleton, not_or, and_assoc]
  refine ⟨fun r member => ?_, ?_, ?_, fun u => ?_, fun u => ?_⟩
  · rw [begins]
    rcases List.mem_append.mp member with old | last
    · exact inOrder.begun r old
    · rw [List.mem_singleton.mp last]
      exact begun
  · rw [ends]
    exact List.nodup_append.mpr ⟨inOrder.ended, List.nodup_singleton t, fun u member v last same =>
      notEnded (List.mem_singleton.mp last ▸ same ▸ member)⟩
  · refine begun_append inOrder.behind fun r member _ => ?_
    rw [List.mem_singleton.mp member]
    exact begun
  · rw [flags, inOrder.flags, begins, ends]
    exact openBehind u
  · rw [active, StdSet.mem_erase, inOrder.active, begins, ends]
    exact openBehind u

theorem InOrder.effect {call : TxnCall} {more : List LogRecord} (inOrder : InOrder db rs)
    (issued : Issued n db rs) (effect : Effect db db' call more)
    (fits : n + starts [call] ≤ 2 ^ 64) : InOrder db' (rs ++ more) := by
  cases effect with
  | starts counter flags active =>
    refine inOrder.start ?_ flags active
    -- the first `n + 1` ids are different
    have nodup := (epochIds_nodup (n + 1)).mpr fits
    rw [epochIds_concat, List.nodup_append] at nodup
    rw [issued.ids, issued.counter]
    exact fun member => nodup.2.2 _ member _ (List.mem_singleton_self _) rfl
  | ends other isEnd started counter flags active =>
    exact inOrder.finish isEnd started flags active
  | silent other counter flags active =>
    rw [List.append_nil]
    exact ⟨inOrder.begun, inOrder.ended, inOrder.behind,
      fun t => (flags t).trans (inOrder.flags t), fun t => active ▸ inOrder.active t⟩

/-- The invariant along a run; the order needs ids that do not come again. -/
theorem issued_of_run {logFile : List UInt8} {bm : BufferManager}
    (ran : Machine.run TxnCall.exec (Database.over logFile bm) calls = some db) :
    ∃ rs, Issued (starts calls) db rs ∧ (starts calls ≤ 2 ^ 64 → InOrder db rs) := by
  induction calls using List.reverseRecOn generalizing db with
  | nil =>
    cases ran
    have noFlags : ∀ t, ¬ (Database.over logFile bm).Started t := by
      intro t started
      obtain ⟨txn, present, _⟩ := started
      cases present
    refine ⟨[], ⟨Holds.nil logFile, rfl, rfl⟩, fun _ => ⟨fun r absent => ?_, List.nodup_nil,
      fun front r back split => ?_, fun t => ?_, fun t => ?_⟩⟩
    · cases absent
    · simp at split
    · simp [noFlags, beginIds]
    · simp [Database.over, LogManager.new, beginIds]
  | append_singleton calls call ih =>
    obtain ⟨mid, first, last⟩ := Machine.run_concat ran
    obtain ⟨rs, issued, inOrder⟩ := ih first
    obtain ⟨more, effect, holds⟩ := effect_of_exec issued.holds last
    rw [starts_append]
    exact ⟨rs ++ more, issued.effect effect holds,
      fun fits => (inOrder (by omega)).effect issued effect fits⟩

theorem Issued.tape (issued : Issued n db rs) : db.tape = rs := by
  rw [Database.tape, issued.holds.records_zero, map_snd_positions]

/-- Every transaction that starts has made the tape longer. -/
theorem Issued.starts_le_offset (issued : Issued n db rs) : n ≤ db.sys.lm.currentOffset := by
  have begins : (beginIds rs).length = n := by
    rw [issued.ids, epochIds, List.length_map, List.length_range]
  have bytes : ∀ records : List LogRecord, (∀ r ∈ records, r.Sized) →
      records.length ≤ (tapeBytes records).length := by
    intro records sized
    induction records with
    | nil => exact Nat.le_refl 0
    | cons r records ih =>
      have rest := ih fun r member => sized r (List.mem_cons_of_mem _ member)
      have first := (sized r List.mem_cons_self).length_bytes
      have positive : 0 < r.getRecordSize := LogRecord.getRecordSize_pos
      rw [tapeBytes, List.flatMap_cons, List.length_append, List.length_cons, ← tapeBytes]
      omega
  rw [issued.holds.offset, ← begins]
  exact (List.length_filterMap_le _ _).trans (bytes rs issued.holds.sized)

/-- The records of the transactions are well formed as long as the end of the tape is a file offset:
an `off_t` does not reach `2 ^ 63`, so that the counter does not wrap around. -/
theorem tapeWellFormed {logFile : List UInt8} {bm : BufferManager}
    (ran : Machine.run TxnCall.exec (Database.over logFile bm) calls = some db)
    (isOffset : db.sys.lm.currentOffset < 2 ^ 63) : TapeWellFormed db := by
  obtain ⟨rs, issued, inOrder⟩ := issued_of_run ran
  have tape := issued.tape
  have fits : starts calls ≤ 2 ^ 64 := by
    have few := issued.starts_le_offset
    omega
  have ordered := inOrder fits
  have nodup : (beginIds rs).Nodup := by
    rw [issued.ids]
    exact (epochIds_nodup _).mpr fits
  rw [← tape] at ordered nodup
  exact ⟨fun r member => List.count_eq_one_of_mem nodup (ordered.begun r member),
    fun t => List.nodup_iff_count_le_one.mp ordered.ended t, ordered.behind, ordered.active⟩

/-- Transactions that end out of order and twice, and one that has pages before it starts. -/
theorem tapeWellFormed_repeated : ∃ db,
    Machine.run TxnCall.exec (Database.over [] (BufferManager.new 2 (by decide) 4 fun _ => []))
      [.addModifiedPage 1 0, .commitTxn 1, .startTxn, .startTxn, .commitTxn 2, .abortTxn 2,
        .abortTxn 1, .commitTxn 1, .startTxn] = some db ∧
      db.tape.map (fun record => (record.type, record.txnId)) =
        [(.beginRecord, 1), (.beginRecord, 2), (.commitRecord, 2), (.abortRecord, 1),
          (.beginRecord, 3)] ∧
      db.sys.lm.activeTxns = [3] ∧ TapeWellFormed db := by
  have result :
      (Machine.run TxnCall.exec (Database.over [] (BufferManager.new 2 (by decide) 4 fun _ => []))
        [.addModifiedPage 1 0, .commitTxn 1, .startTxn, .startTxn, .commitTxn 2, .abortTxn 2,
          .abortTxn 1, .commitTxn 1, .startTxn]).map
        (fun db => (db.tape.map fun record => (record.type, record.txnId),
          db.sys.lm.activeTxns, db.sys.lm.currentOffset)) =
          some ([(.beginRecord, 1), (.beginRecord, 2), (.commitRecord, 2), (.abortRecord, 1),
            (.beginRecord, 3)], [3], 60) := by
    decide +kernel
  obtain ⟨db, ran, same⟩ := Option.map_eq_some_iff.mp result
  simp only [Prod.mk.injEq] at same
  obtain ⟨records, active, offset⟩ := same
  exact ⟨db, ran, records, active, tapeWellFormed ran (by omega)⟩

end BuzzDB.Recovery
