import BuzzDB.Recovery.AbortTxn

/-!
# Transaction ids over crash cycles

`TransactionManager::reset` sets the counter back to zero, while the log tape goes on.
The first transaction behind a crash has the id of the first one before it, and
recovery, which looks commits up by id over the whole tape, redoes the one for the
other.
-/

namespace BuzzDB.Recovery

/-- The ids of the begin records, in order. -/
def beginIds (rs : List LogRecord) : List UInt64 :=
  rs.filterMap fun record => if record.type = .beginRecord then some record.txnId else none

/-- The records on the tape of a database. -/
def Database.tape (db : Database) : List LogRecord := (db.sys.lm.records 0).map Prod.snd

/-- The record begins transaction `t`. -/
def LogRecord.Begins (record : LogRecord) (t : UInt64) : Prop :=
  record.type = .beginRecord ∧ record.txnId = t

/-- Ids identify transactions: no two begin records have the same id, and recovery redoes an update
only if the transaction it belongs to, from its begin record to the next one with the same id,
has committed. -/
structure OneEach (db : Database) : Prop where
  unique : (beginIds db.tape).Nodup
  redone : ∀ t front start own back, db.tape = front ++ start :: (own ++ back) → start.Begins t →
    (∀ r ∈ own, ¬ r.Begins t) → (∀ r ∈ back.head?, r.Begins t) →
    (∃ u ∈ own, u.type = .updateRecord ∧ u.txnId = t) → t ∈ db.sys.lm.analysis.committedTxns →
    ∃ c ∈ own, c.type = .commitRecord ∧ c.txnId = t

/-- How many transactions start between one crash cycle and the next. -/
def startsPerEpoch : List Step → List Nat
  | [] => [0]
  | .crash :: steps => 0 :: startsPerEpoch steps
  | .startTxn :: steps =>
    match startsPerEpoch steps with
    | [] => [1]
    | n :: ns => (n + 1) :: ns
  | _ :: steps => startsPerEpoch steps

/-- Transactions start in one epoch only, and not more of them than there are ids. -/
def OneEpoch (steps : List Step) : Prop :=
  ((startsPerEpoch steps).filter fun n => decide (0 < n)).length ≤ 1 ∧
    ∀ n ∈ startsPerEpoch steps, n ≤ 2 ^ 64

instance (steps : List Step) : Decidable (OneEpoch steps) := inferInstanceAs (Decidable (_ ∧ _))

/-! ## The ids of a run -/

/-- The ids that `start_txn` hands out, from a counter on. -/
def startIds (counter : UInt64) : List Step → List UInt64
  | [] => []
  | .crash :: steps => startIds 0 steps
  | .startTxn :: steps => (counter + 1) :: startIds (counter + 1) steps
  | _ :: steps => startIds counter steps

/-- The ids of an epoch with `n` transactions. -/
def epochIds (counter : UInt64) (n : Nat) : List UInt64 :=
  (List.range n).map fun k => counter + UInt64.ofNat (k + 1)

theorem epochIds_succ (counter : UInt64) (n : Nat) :
    epochIds counter (n + 1) = (counter + 1) :: epochIds (counter + 1) n := by
  rw [epochIds, List.range_succ_eq_map, List.map_cons, List.map_map, epochIds]
  congr 1
  apply List.map_congr_left
  intro k _
  simp only [Function.comp_apply, Nat.succ_eq_add_one]
  rw [UInt64.add_assoc, UInt64.ofNat_add (k + 1) 1, UInt64.add_comm (UInt64.ofNat (k + 1))]
  rfl

theorem startIds_eq (counter : UInt64) (steps : List Step) :
    ∃ n ns, startsPerEpoch steps = n :: ns ∧
      startIds counter steps = epochIds counter n ++ ns.flatMap (epochIds 0) := by
  induction steps generalizing counter with
  | nil => exact ⟨0, [], rfl, rfl⟩
  | cons step steps ih =>
    cases step with
    | startTxn =>
      obtain ⟨n, ns, epochs, ids⟩ := ih (counter + 1)
      refine ⟨n + 1, ns, ?_, ?_⟩
      · rw [startsPerEpoch, epochs]
      · rw [startIds, ids, epochIds_succ, List.cons_append]
    | crash =>
      obtain ⟨n, ns, epochs, ids⟩ := ih 0
      refine ⟨0, n :: ns, ?_, ?_⟩
      · rw [startsPerEpoch, epochs]
      · rw [startIds, ids, List.flatMap_cons]
        rfl
    | _ => exact ih counter

/-- The ids of an epoch repeat only when the counter wraps around. -/
theorem epochIds_nodup (n : Nat) : (epochIds 0 n).Nodup ↔ n ≤ 2 ^ 64 := by
  constructor
  · intro nodup
    by_contra many
    have first : 0 < (epochIds 0 n).length := by
      rw [epochIds, List.length_map, List.length_range]
      omega
    have wrapped : 2 ^ 64 < (epochIds 0 n).length := by
      rw [epochIds, List.length_map, List.length_range]
      omega
    have same : (epochIds 0 n)[0] = (epochIds 0 n)[2 ^ 64] := by
      simp only [epochIds, List.getElem_map, List.getElem_range]
      apply UInt64.toNat_inj.mp
      simp
    have index := (List.Nodup.getElem_inj_iff nodup).mp same
    omega
  · intro few
    refine List.Nodup.map_on (fun k member l member' same => ?_) List.nodup_range
    rw [List.mem_range] at member member'
    have numbers := congrArg UInt64.toNat same
    simp only [UInt64.zero_add, UInt64.toNat_ofNat'] at numbers
    omega

/-- Every epoch with a transaction has the id one. -/
theorem one_mem_epochIds {n : Nat} : 1 ∈ epochIds 0 n ↔ 0 < n := by
  constructor
  · intro member
    by_contra empty
    rw [Nat.eq_zero_of_not_pos empty] at member
    cases member
  · intro positive
    exact List.mem_map.mpr ⟨0, List.mem_range.mpr positive, by decide⟩

/-- Ids of different epochs do not meet exactly if only one epoch has any. -/
theorem epochs_nodup (ns : List Nat) : (ns.flatMap (epochIds 0)).Nodup ↔
    (ns.filter fun n => decide (0 < n)).length ≤ 1 ∧ ∀ n ∈ ns, n ≤ 2 ^ 64 := by
  induction ns with
  | nil => simp
  | cons n ns ih =>
    rw [List.flatMap_cons, List.nodup_append, epochIds_nodup, ih, List.filter_cons]
    simp only [List.mem_cons, forall_eq_or_imp]
    by_cases positive : 0 < n
    · rw [if_pos (decide_eq_true positive), List.length_cons]
      constructor
      · rintro ⟨fits, ⟨_, fitsRest⟩, disjoint⟩
        have empty : (ns.filter fun n => decide (0 < n)) = [] := by
          rw [List.filter_eq_nil_iff]
          intro m member isPositive
          have other : 1 ∈ ns.flatMap (epochIds 0) := List.mem_flatMap.mpr
            ⟨m, member, one_mem_epochIds.mpr (of_decide_eq_true isPositive)⟩
          exact disjoint 1 (one_mem_epochIds.mpr positive) 1 other rfl
        exact ⟨by rw [empty]; decide, fits, fitsRest⟩
      · rintro ⟨single, fits, fitsRest⟩
        refine ⟨fits, ⟨by omega, fitsRest⟩, fun x _ y member => ?_⟩
        obtain ⟨m, inRest, ofEpoch⟩ := List.mem_flatMap.mp member
        have empty : (ns.filter fun n => decide (0 < n)) = [] :=
          List.eq_nil_of_length_eq_zero (by omega)
        have zero := List.filter_eq_nil_iff.mp empty m inRest
        rw [decide_eq_true_eq, Nat.not_lt, Nat.le_zero] at zero
        rw [zero] at ofEpoch
        cases ofEpoch
    · rw [if_neg (by simpa using positive)]
      obtain rfl : n = 0 := Nat.eq_zero_of_not_pos positive
      constructor
      · rintro ⟨fits, ⟨single, fitsRest⟩, _⟩
        exact ⟨single, fits, fitsRest⟩
      · rintro ⟨single, fits, fitsRest⟩
        exact ⟨fits, ⟨single, fitsRest⟩, fun x absent => by cases absent⟩

/-- The ids of a run are different exactly if it has transactions in one epoch only. -/
theorem startIds_nodup (steps : List Step) : (startIds 0 steps).Nodup ↔ OneEpoch steps := by
  obtain ⟨n, ns, epochs, ids⟩ := startIds_eq 0 steps
  rw [ids, OneEpoch, epochs, ← epochs_nodup, List.flatMap_cons]

/-- The counter behind a run. -/
def counterAfter (counter : UInt64) : List Step → UInt64
  | [] => counter
  | .crash :: steps => counterAfter 0 steps
  | .startTxn :: steps => counterAfter (counter + 1) steps
  | _ :: steps => counterAfter counter steps

theorem counterAfter_append (counter : UInt64) (steps more : List Step) :
    counterAfter counter (steps ++ more) = counterAfter (counterAfter counter steps) more := by
  induction steps generalizing counter with
  | nil => rfl
  | cons step steps ih => cases step <;> exact ih _

theorem startIds_append (counter : UInt64) (steps more : List Step) :
    startIds counter (steps ++ more) =
      startIds counter steps ++ startIds (counterAfter counter steps) more := by
  induction steps generalizing counter with
  | nil => rfl
  | cons step steps ih =>
    cases step with
    | startTxn => exact congrArg ((counter + 1) :: ·) (ih _)
    | _ => exact ih _

/-! ## The ids on the tape -/

variable {db db' : Database} {saved : Saved} {rs : List LogRecord} {pageSize : Nat}
  {steps : List Step} {t : UInt64} {txn : Transaction}

/-- The begin records on the tape are those of the run, and a commit record has one before it. -/
structure Numbered (steps : List Step) (db : Database) (rs : List LogRecord) : Prop where
  ids : beginIds rs = startIds 0 steps
  counter : db.tm.transactionCounter = counterAfter 0 steps
  begun : ∀ t txn, db.tm.transactionTable t = some txn → txn.started = true → t ∈ beginIds rs
  commits : ∀ front c back, rs = front ++ c :: back → c.type = .commitRecord →
    c.txnId ∈ beginIds front

theorem beginIds_append (rs more : List LogRecord) :
    beginIds (rs ++ more) = beginIds rs ++ beginIds more := List.filterMap_append

/-- Appending records keeps the records of some types behind begin records, if those were there
before. -/
theorem begun_append {P : LogRecordType → Prop} {more : List LogRecord}
    (begun : ∀ front c back, rs = front ++ c :: back → P c.type → c.txnId ∈ beginIds front)
    (new : ∀ c ∈ more, P c.type → c.txnId ∈ beginIds rs) (front : List LogRecord)
    (c : LogRecord) (back : List LogRecord) (split : rs ++ more = front ++ c :: back)
    (isType : P c.type) : c.txnId ∈ beginIds front := by
  rcases List.append_eq_append_iff.mp split with ⟨mid, rfl, rest⟩ | ⟨mid, rfl, rest⟩
  · -- the record is one of the new ones
    rw [beginIds_append]
    refine List.mem_append_left _ (new c ?_ isType)
    rw [rest]
    exact List.mem_append_right _ List.mem_cons_self
  · cases mid with
    | nil =>
      rw [List.append_nil] at new
      refine new c ?_ isType
      rw [List.nil_append] at rest
      rw [← rest]
      exact List.mem_cons_self
    | cons c' mid =>
      obtain ⟨rfl, rfl⟩ := List.cons.inj rest
      exact begun front c mid rfl isType

/-- The begin records a step adds are the ids it hands out. -/
theorem beginIds_records {step : Step} (counter : db.tm.transactionCounter = counterAfter 0 steps) :
    beginIds (step.records db) = startIds (counterAfter 0 steps) [step] := by
  cases step with
  | startTxn =>
    rw [← counter]
    rfl
  | commitTxn txnId =>
    rw [Step.records]
    split
    · split <;> rfl
    · rfl
  | abortTxn txnId =>
    rw [Step.records]
    split
    · split <;> rfl
    · rfl
  | _ => rfl

/-- A started transaction was started before the step, or by it. -/
theorem started_of_exec {step : Step} (ran : step.exec db = some db')
    (present : db'.tm.transactionTable t = some txn) (started : txn.started = true) :
    (∃ old, db.tm.transactionTable t = some old ∧ old.started = true) ∨
      t ∈ beginIds (step.records db) := by
  cases step with
  | startTxn =>
    cases ran
    by_cases new : t = db.tm.transactionCounter + 1
    · exact .inr (new ▸ List.mem_singleton_self _)
    · refine .inl ⟨txn, ?_, started⟩
      rw [← present]
      exact (Database.setTxn_of_ne new).symm
  | write txnId pageId offset record =>
    obtain ⟨sys, updated, ran⟩ := Option.bind_eq_some_iff.mp ran
    cases ran
    rw [Database.addModifiedPage] at present
    by_cases same : t = txnId
    · subst same
      rw [Database.setTxn_self, Option.some.injEq] at present
      subst present
      cases entry : db.tm.transactionTable t with
      | none =>
        simp only [entry, Option.getD_none] at started
        cases started
      | some old =>
        simp only [entry, Option.getD_some] at started
        exact .inl ⟨old, rfl, started⟩
    · rw [Database.setTxn_of_ne same] at present
      exact .inl ⟨txn, present, started⟩
  | commitTxn txnId =>
    obtain ⟨_, _, ⟨_, rfl⟩ | ⟨_, rfl⟩⟩ := Database.commitTxn_cases ran
    · exact .inl ⟨txn, started_of_ended rfl present started, started⟩
    · exact .inl ⟨txn, present, started⟩
  | abortTxn txnId =>
    obtain ⟨_, _, ⟨_, _, _, _, rfl⟩ | ⟨_, rfl⟩⟩ := Database.abortTxn_cases ran
    · exact .inl ⟨txn, started_of_ended rfl present started, started⟩
    · exact .inl ⟨txn, present, started⟩
  | flushPage pageId =>
    cases ran
    exact .inl ⟨txn, present, started⟩
  | flushAllPages =>
    cases ran
    exact .inl ⟨txn, present, started⟩
  | crash =>
    obtain ⟨sys, recovered, ran⟩ := Option.bind_eq_some_iff.mp ran
    cases ran
    cases present

/-- Only `start_txn` and a crash cycle move the counter. -/
theorem counter_of_exec {step : Step} (ran : step.exec db = some db') :
    db'.tm.transactionCounter = counterAfter db.tm.transactionCounter [step] := by
  cases step with
  | write txnId pageId offset record =>
    obtain ⟨sys, updated, ran⟩ := Option.bind_eq_some_iff.mp ran
    cases ran
    rfl
  | commitTxn txnId =>
    obtain ⟨_, _, ⟨_, rfl⟩ | ⟨_, rfl⟩⟩ := Database.commitTxn_cases ran
    · rfl
    · rfl
  | abortTxn txnId =>
    obtain ⟨_, _, ⟨_, _, _, _, rfl⟩ | ⟨_, rfl⟩⟩ := Database.abortTxn_cases ran
    · rfl
    · rfl
  | crash =>
    obtain ⟨sys, recovered, ran⟩ := Option.bind_eq_some_iff.mp ran
    cases ran
    rfl
  | _ =>
    cases ran
    rfl

/-- A step that leaves a commit record is the commit of a started transaction. -/
theorem started_of_commit {step : Step} {record : LogRecord} (member : record ∈ step.records db)
    (isCommit : record.type = .commitRecord) :
    ∃ txn, db.tm.transactionTable record.txnId = some txn ∧ txn.started = true := by
  cases step with
  | commitTxn txnId =>
    rw [Step.records] at member
    split at member
    · rename_i txn present
      split at member
      · rename_i started
        rw [List.mem_singleton.mp member]
        exact ⟨txn, present, started⟩
      · cases member
    · cases member
  | abortTxn txnId =>
    rw [Step.records] at member
    split at member
    · split at member
      · rw [List.mem_singleton.mp member] at isCommit
        cases isCommit
      · cases member
    · cases member
  | startTxn =>
    rw [List.mem_singleton.mp member] at isCommit
    cases isCommit
  | write txnId pageId offset bytes =>
    rw [List.mem_singleton.mp member] at isCommit
    cases isCommit
  | _ => cases member

theorem Numbered.exec {step : Step} (numbered : Numbered steps db rs)
    (ran : step.exec db = some db') : Numbered (steps ++ [step]) db' (rs ++ step.records db) where
  ids := by
    rw [beginIds_append, numbered.ids, beginIds_records numbered.counter, startIds_append]
  counter := by rw [counter_of_exec ran, numbered.counter, counterAfter_append]
  begun t txn present started := by
    rw [beginIds_append, List.mem_append]
    rcases started_of_exec ran present started with ⟨old, entry, wasStarted⟩ | new
    · exact .inl (numbered.begun t old entry wasStarted)
    · exact .inr new
  commits := by
    refine begun_append (P := (· = .commitRecord)) numbered.commits fun c member isCommit => ?_
    obtain ⟨txn, present, started⟩ := started_of_commit member isCommit
    exact numbered.begun _ txn present started

theorem numbered_of_run {pageSize_lt : pageSize < 2 ^ 64} {pageCount : Nat} {disk : Disk UInt8}
    (ran : (Database.new pageSize pageSize_lt pageCount disk).run steps = some db)
    (inside : ∀ step ∈ steps, step.Inside pageSize) :
    ∃ saved rs, Tracks pageSize db saved rs ∧ Numbered steps db rs := by
  induction steps using List.reverseRecOn generalizing db with
  | nil =>
    cases ran
    have numbered : Numbered [] (Database.new pageSize pageSize_lt pageCount disk) [] :=
      ⟨rfl, rfl, fun t txn present => (by cases present), fun front c back split => (by simp at split)⟩
    exact ⟨_, [], Tracks.new pageSize_lt pageCount disk, numbered⟩
  | append_singleton steps step ih =>
    obtain ⟨mid, first, last⟩ := Machine.run_concat ran
    obtain ⟨saved, rs, tracks, numbered⟩ := ih first fun step member =>
      inside step (List.mem_append_left _ member)
    have insidePage := inside step (List.mem_append_right _ (List.mem_singleton_self _))
    exact ⟨_, _, tracks.exec insidePage last, numbered.exec last⟩

/-! ## The claim of one transaction for each id -/

theorem mem_beginIds : t ∈ beginIds rs ↔ ∃ r ∈ rs, r.Begins t := by
  simp only [beginIds, List.mem_filterMap, Option.ite_none_right_eq_some, Option.some.injEq,
    LogRecord.Begins]

/-- Where ids are unique and commits stand behind begins, every commit is in the part of the tape
that belongs to its transaction. -/
theorem own_commit {front own back : List LogRecord} {start c : LogRecord}
    (unique : (beginIds (front ++ start :: (own ++ back))).Nodup)
    (commits : ∀ front' c' back', front ++ start :: (own ++ back) = front' ++ c' :: back' →
      c'.type = .commitRecord → c'.txnId ∈ beginIds front')
    (begins : start.Begins t) (next : ∀ r ∈ back.head?, r.Begins t)
    (member : c ∈ front ++ start :: (own ++ back)) (isCommit : c.type = .commitRecord)
    (isT : c.txnId = t) : c ∈ own := by
  have startIds : beginIds [start] = [t] := by
    rw [beginIds, List.filterMap_cons, if_pos begins.1, begins.2]
    rfl
  rw [← List.singleton_append, beginIds_append, beginIds_append, startIds, List.singleton_append,
    List.nodup_append] at unique
  obtain ⟨_, uniqueBack, disjoint⟩ := unique
  rcases List.mem_append.mp member with inFront | inRest
  · -- its begin record would be a second one in front
    obtain ⟨p, q, rfl⟩ := List.append_of_mem inFront
    have before := commits p c (q ++ start :: (own ++ back)) (by simp) isCommit
    have inFront : t ∈ beginIds (p ++ c :: q) := by
      rw [beginIds_append]
      exact List.mem_append_left _ (isT ▸ before)
    exact absurd rfl (disjoint t inFront t List.mem_cons_self)
  · rcases List.mem_cons.mp inRest with rfl | inRest
    · rw [begins.1] at isCommit
      cases isCommit
    · rcases List.mem_append.mp inRest with inOwn | inBack
      · exact inOwn
      · -- the record behind `own` would be a second begin record
        cases back with
        | nil => cases inBack
        | cons second back =>
          have again : second.Begins t := next second rfl
          have repeated : t ∈ beginIds (own ++ second :: back) :=
            mem_beginIds.mpr ⟨second, List.mem_append_right _ List.mem_cons_self, again⟩
          exact absurd repeated (List.nodup_cons.mp uniqueBack).1

/-- Ids identify transactions exactly in the runs whose transactions are all of one epoch. -/
theorem oneEach_iff {pageSize_lt : pageSize < 2 ^ 64} {pageCount : Nat} {disk : Disk UInt8}
    (ran : (Database.new pageSize pageSize_lt pageCount disk).run steps = some db)
    (inside : ∀ step ∈ steps, step.Inside pageSize) : OneEach db ↔ OneEpoch steps := by
  obtain ⟨saved, rs, tracks, numbered⟩ := numbered_of_run ran inside
  have tape : db.tape = rs := by
    rw [Database.tape, tracks.holds.records_zero, map_snd_positions]
  rw [← startIds_nodup, ← numbered.ids]
  constructor
  · intro each
    exact tape ▸ each.unique
  · intro unique
    refine ⟨tape ▸ unique, fun t front start own back split begins _ next _ committed => ?_⟩
    rw [tracks.holds.analysis_eq, mem_committedTxns _ tracks.holds.sized] at committed
    obtain ⟨c, member, isCommit⟩ := List.mem_map.mp committed
    obtain ⟨isCommit, isT⟩ := LogRecord.entry_eq_commit.mp isCommit
    rw [tape] at split
    subst split
    exact ⟨c, own_commit unique numbered.commits begins next member isCommit isT, isCommit, isT⟩

/-- Two transactions of one epoch, one of which a crash leaves open, have their own ids.  With one more
behind the crash there are two epochs. -/
theorem oneEach_iff_crash : ∃ db db',
    (Database.new 2 (by decide) 4 fun _ => []).run
      [.startTxn, .write 1 0 0 [7], .commitTxn 1, .startTxn, .write 2 0 0 [9], .crash] = some db ∧
      OneEach db ∧ beginIds db.tape = [1, 2] ∧
    (Database.new 2 (by decide) 4 fun _ => []).run
      [.startTxn, .write 1 0 0 [7], .commitTxn 1, .startTxn, .write 2 0 0 [9], .crash, .startTxn] =
        some db' ∧
      ¬ OneEach db' := by
  have result : ((Database.new 2 (by decide) 4 fun _ => []).run
      [.startTxn, .write 1 0 0 [7], .commitTxn 1, .startTxn, .write 2 0 0 [9], .crash]).map
        (fun db => beginIds db.tape) = some [1, 2] := by decide +kernel
  have returns : ((Database.new 2 (by decide) 4 fun _ => []).run
      [.startTxn, .write 1 0 0 [7], .commitTxn 1, .startTxn, .write 2 0 0 [9], .crash,
        .startTxn]).isSome := by decide +kernel
  obtain ⟨db, ran, ids⟩ := Option.map_eq_some_iff.mp result
  obtain ⟨db', ran'⟩ := Option.isSome_iff_exists.mp returns
  refine ⟨db, db', ran, (oneEach_iff ran (by simp [Step.Inside])).mpr (by decide), ids, ran',
    fun each => ?_⟩
  exact absurd ((oneEach_iff ran' (by simp [Step.Inside])).mp each) (by decide)

/-- The first transaction behind a crash has the id of the committed one before it, and the next
recovery redoes its write although it never committed. -/
theorem not_oneEach_secondEpoch : ∃ db,
    (Database.new 2 (by decide) 4 fun _ => []).run
      [.startTxn, .write 1 0 0 [7], .commitTxn 1, .crash, .startTxn, .write 1 0 0 [9], .crash] =
        some db ∧
      beginIds db.tape = [1, 1] ∧ db.sys.bm.byte 0 0 = 9 ∧ ¬ OneEach db := by
  have result : ((Database.new 2 (by decide) 4 fun _ => []).run
      [.startTxn, .write 1 0 0 [7], .commitTxn 1, .crash, .startTxn, .write 1 0 0 [9], .crash]).map
        (fun db => (beginIds db.tape, db.sys.bm.byte 0 0)) = some ([1, 1], 9) := by decide +kernel
  obtain ⟨db, ran, values⟩ := Option.map_eq_some_iff.mp result
  obtain ⟨ids, byte⟩ := Prod.mk.inj values
  refine ⟨db, ran, ids, byte, fun each => ?_⟩
  have unique := each.unique
  rw [ids] at unique
  exact absurd unique (by decide)

end BuzzDB.Recovery
