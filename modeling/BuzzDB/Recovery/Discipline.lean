import BuzzDB.Recovery.History

/-!
# Disciplined histories

The discipline of a history is stated over its calls alone: ids are not reused, a
transaction works between its begin and its end, and it keeps off bytes that another
active transaction has updated.  `lastCommitted` is what such a history means for a
byte.

`Disciplined.run` carries a disciplined history over to the abstract system, where
`UndoRedo.Inv` says how the bytes of the pages relate to the tape.
-/

namespace BuzzDB.Recovery

/-- The call is an update of byte `i` of page `q` by `t`. -/
def Call.Updates (t : UInt64) (q : UInt64) (i : Nat) : Call → Prop
  | update txnId pageId offset record =>
    txnId = t ∧ q = pageId ∧ offset.toNat ≤ i ∧ i < offset.toNat + record.length
  | _ => False

/-- A transaction between its begin and its commit or abort. -/
def Active (past : List Call) (t : UInt64) : Prop :=
  Call.logTxnBegin t ∈ past ∧ Call.logCommit t ∉ past ∧ Call.logAbort t ∉ past

/-- The calls that may follow a history. -/
def Allowed (pageSize : Nat) (past : List Call) : Call → Prop
  | .logTxnBegin txnId => Call.logTxnBegin txnId ∉ past
  | .update txnId pageId offset record =>
    Active past txnId ∧ offset.toNat + record.length ≤ pageSize ∧
      ∀ u, u ≠ txnId → Active past u → ∀ i, offset.toNat ≤ i → i < offset.toNat + record.length →
        ∀ call ∈ past, ¬ call.Updates u pageId i
  | .logCommit txnId => Active past txnId
  | .logAbort txnId => Active past txnId
  | _ => True

/-- Every call of the history is allowed after those before it. -/
inductive Disciplined (pageSize : Nat) : List Call → Prop
  | nil : Disciplined pageSize []
  | snoc {past : List Call} {call : Call} (disciplined : Disciplined pageSize past)
      (allowed : Allowed pageSize past call) : Disciplined pageSize (past ++ [call])

/-- Byte `i` of page `q` after one call, when only updates by transactions in `C` count. -/
def Call.after (C : UInt64 → Bool) (q : UInt64) (i : Nat) (v : UInt8) : Call → UInt8
  | update txnId pageId offset record =>
    if C txnId ∧ q = pageId ∧ offset.toNat ≤ i ∧ i < offset.toNat + record.length then
      record.getD (i - offset.toNat) 0
    else v
  | _ => v

/-- The after image of the last update of byte `i` of page `q` by a committed transaction, or the
initial value `v`. -/
def lastCommitted (calls : List Call) (q : UInt64) (i : Nat) (v : UInt8) : UInt8 :=
  calls.foldl (Call.after (fun t => decide (Call.logCommit t ∈ calls)) q i) v

/-- A log as far as it does not depend on the bytes in the pages. -/
structure Traces (calls : List Call) (log : List Entry) : Prop where
  start : ∀ t, UndoRedo.Entry.start t ∈ log ↔ Call.logTxnBegin t ∈ calls
  commit : ∀ t, UndoRedo.Entry.commit t ∈ log ↔ Call.logCommit t ∈ calls
  abort : ∀ t, UndoRedo.Entry.abort t ∈ log ↔ Call.logAbort t ∈ calls
  covers : ∀ t q i, UndoRedo.Covers log t (q, i) ↔ ∃ call ∈ calls, call.Updates t q i
  redo : ∀ C q i v, UndoRedo.redo C (q, i) log v = calls.foldl (Call.after C q i) v

variable {calls : List Call} {log : List Entry} {t : UInt64} {q : UInt64} {i : Nat}

theorem Traces.nil : Traces [] [] where
  start _ := iff_of_false List.not_mem_nil List.not_mem_nil
  commit _ := iff_of_false List.not_mem_nil List.not_mem_nil
  abort _ := iff_of_false List.not_mem_nil List.not_mem_nil
  covers _ _ _ := iff_of_false (fun ⟨_, absent, _⟩ => List.not_mem_nil absent)
    fun ⟨_, absent, _⟩ => List.not_mem_nil absent
  redo _ _ _ _ := rfl

theorem Traces.active (traces : Traces calls log) : Active calls t ↔ UndoRedo.Open log t := by
  rw [Active, UndoRedo.Open, traces.start, traces.commit, traces.abort]

/-- The last committed value of a history is that of its log. -/
theorem Traces.lastCommitted_eq (traces : Traces calls log) (v : UInt8) :
    UndoRedo.lastCommitted (q, i) log v = lastCommitted calls q i v := by
  have same : UndoRedo.committed log = fun t => decide (Call.logCommit t ∈ calls) := by
    funext t
    rw [Bool.eq_iff_iff, UndoRedo.committed_iff, traces.commit, decide_eq_true_eq]
  rw [UndoRedo.lastCommitted, same, traces.redo, lastCommitted]

theorem Call.cells_isSome {pageId offset : UInt64} {record : List UInt8} :
    (Call.cells pageId offset record (q, i)).isSome ↔
      q = pageId ∧ offset.toNat ≤ i ∧ i < offset.toNat + record.length := by
  unfold Call.cells
  split <;> simp_all

/-- A call that updates nothing extends history and log alike. -/
theorem Traces.snoc_plain (traces : Traces calls log) (call : Call) {more : List Entry}
    (plain : ∀ t q i, ¬ call.Updates t q i) (kept : ∀ C q i v, call.after C q i v = v)
    (short : more = [] ∨ ∃ e, more = [e] ∧ ∀ t cells, e ≠ .update t cells)
    (start : ∀ t, UndoRedo.Entry.start t ∈ more ↔ call = .logTxnBegin t)
    (commit : ∀ t, UndoRedo.Entry.commit t ∈ more ↔ call = .logCommit t)
    (abort : ∀ t, UndoRedo.Entry.abort t ∈ more ↔ call = .logAbort t) :
    Traces (calls ++ [call]) (log ++ more) := by
  have mem : ∀ c : Call, c ∈ calls ++ [call] ↔ c ∈ calls ∨ call = c := fun c => by
    rw [List.mem_append, List.mem_singleton, eq_comm (a := c)]
  refine ⟨fun t => ?_, fun t => ?_, fun t => ?_, fun t q i => ?_, fun C q i v => ?_⟩
  · rw [List.mem_append, traces.start, start, mem]
  · rw [List.mem_append, traces.commit, commit, mem]
  · rw [List.mem_append, traces.abort, abort, mem]
  · have same : UndoRedo.Covers (log ++ more) t (q, i) ↔ UndoRedo.Covers log t (q, i) := by
      rcases short with rfl | ⟨e, rfl, notUpdate⟩
      · rw [List.append_nil]
      · exact UndoRedo.covers_append_of_ne (notUpdate t)
    rw [same, traces.covers]
    simp only [mem, or_and_right, exists_or, exists_eq_left', plain, or_false]
  · have same : UndoRedo.redo C (q, i) (log ++ more) v = UndoRedo.redo C (q, i) log v := by
      rcases short with rfl | ⟨e, rfl, notUpdate⟩
      · rw [List.append_nil]
      · exact UndoRedo.redo_append_of_ne notUpdate
    rw [same, traces.redo, List.foldl_append, List.foldl_cons, List.foldl_nil, kept]

/-- A call extends history and log alike. -/
theorem Traces.snoc (sys : UndoRedo.Sys UInt64 Cell UInt8) (traces : Traces calls sys.log)
    (call : Call) : Traces (calls ++ [call]) (sys.exec call.op).log := by
  cases call with
  | logTxnBegin txnId =>
    exact traces.snoc_plain _ (fun _ _ _ h => h) (fun _ _ _ _ => rfl)
      (Or.inr ⟨_, rfl, fun _ _ h => by cases h⟩) (by simp [eq_comm]) (by simp) (by simp)
  | logCommit txnId =>
    exact traces.snoc_plain _ (fun _ _ _ h => h) (fun _ _ _ _ => rfl)
      (Or.inr ⟨_, rfl, fun _ _ h => by cases h⟩) (by simp) (by simp [eq_comm]) (by simp)
  | logAbort txnId =>
    exact traces.snoc_plain _ (fun _ _ _ h => h) (fun _ _ _ _ => rfl)
      (Or.inr ⟨_, rfl, fun _ _ h => by cases h⟩) (by simp) (by simp) (by simp [eq_comm])
  | logCheckpoint =>
    exact traces.snoc_plain _ (fun _ _ _ h => h) (fun _ _ _ _ => rfl)
      (Or.inr ⟨_, rfl, fun _ _ h => by cases h⟩) (by simp) (by simp) (by simp)
  | flushPage pageId =>
    have extended := traces.snoc_plain (.flushPage pageId) (fun _ _ _ h => h)
      (fun _ _ _ _ => rfl) (Or.inl rfl) (by simp) (by simp) (by simp)
    rwa [List.append_nil] at extended
  | flushAllPages =>
    have extended := traces.snoc_plain .flushAllPages (fun _ _ _ h => h)
      (fun _ _ _ _ => rfl) (Or.inl rfl) (by simp) (by simp) (by simp)
    rwa [List.append_nil] at extended
  | update txnId pageId offset record =>
    obtain ⟨start, commit, abort, covers, redo⟩ := traces
    simp only [UndoRedo.Sys.exec, Call.op, UndoRedo.Sys.logged]
    refine ⟨by simp [start], by simp [commit], by simp [abort], fun t q i => ?_, fun C q i v => ?_⟩
    · rw [UndoRedo.covers_append, covers]
      simp only [List.mem_append, List.mem_singleton, or_and_right, exists_or, exists_eq_left,
        Call.Updates, UndoRedo.Entry.update.injEq]
      refine or_congr Iff.rfl ⟨?_, ?_⟩
      · rintro ⟨cells, ⟨rfl, rfl⟩, some⟩
        rw [Option.isSome_map, Call.cells_isSome] at some
        exact ⟨rfl, some⟩
      · rintro ⟨rfl, some⟩
        refine ⟨_, ⟨rfl, rfl⟩, ?_⟩
        rw [Option.isSome_map, Call.cells_isSome]
        exact some
    · rw [UndoRedo.redo_append, redo, List.foldl_append]
      simp only [UndoRedo.redoStep, List.foldl_cons, List.foldl_nil, Call.after, Call.cells]
      by_cases reached : q = pageId ∧ offset.toNat ≤ i ∧ i < offset.toNat + record.length
      · cases C txnId <;> simp [reached]
      · rw [if_neg reached]
        cases C txnId <;> simp [reached]

/-- The tape holds an update of page `q` by `t` exactly if the history has one. -/
def SamePages (calls : List Call) (rs : List LogRecord) : Prop :=
  ∀ t q, (∃ record ∈ rs, record.type = .updateRecord ∧ record.txnId = t ∧ record.pageId = q) ↔
    ∃ offset bytes, Call.update t q offset bytes ∈ calls

theorem SamePages.snoc {rs : List LogRecord} (same : SamePages calls rs) (s : System)
    (call : Call) : SamePages (calls ++ [call]) (rs ++ call.records s) := by
  intro t q
  simp only [List.mem_append, or_and_right, exists_or, same t q, List.mem_singleton]
  refine or_congr Iff.rfl ?_
  cases call <;> simp [Call.records, System.updateRecord, eq_comm]

/-! ## Disciplined histories keep the abstract invariant -/

/-- What an allowed call is for the abstract system. -/
theorem Allowed.abstract {pageSize : Nat} {call : Call} (traces : Traces calls log)
    (allowed : Allowed pageSize calls call) :
    call.Inside pageSize ∧ UndoRedo.Allowed log call.op := by
  cases call with
  | logTxnBegin txnId => exact ⟨trivial, fun started => allowed ((traces.start _).mp started)⟩
  | logCommit txnId => exact ⟨trivial, traces.active.mp allowed⟩
  | logAbort txnId => exact ⟨trivial, traces.active.mp allowed⟩
  | logCheckpoint => exact ⟨trivial, trivial⟩
  | flushPage pageId => exact ⟨trivial, trivial⟩
  | flushAllPages => exact ⟨trivial, trivial⟩
  | update txnId pageId offset record =>
    obtain ⟨active, inside, disjoint⟩ := allowed
    refine ⟨inside, traces.active.mp active, fun u different isOpen ⟨q, i⟩ writes covers => ?_⟩
    obtain ⟨rfl, low, high⟩ := Call.cells_isSome.mp writes
    obtain ⟨call, member, updates⟩ := (traces.covers u q i).mp covers
    exact disjoint u different (traces.active.mpr isOpen) i low high call member updates

/-- What is open behind an orderly front was started there, when ids are not reused. -/
theorem Admits.append {front back : List Entry} {op : UndoRedo.Op UInt64 Cell UInt8}
    (orderly : UndoRedo.Orderly front)
    (fresh : ∀ t, UndoRedo.Entry.start t ∈ back ∨ op = .start t → UndoRedo.Entry.start t ∉ front)
    (allowed : UndoRedo.Allowed back op) : UndoRedo.Admits (front ++ back) op := by
  have opens : ∀ t, UndoRedo.Open back t → UndoRedo.Open (front ++ back) t := by
    intro t ⟨started, uncommitted, unaborted⟩
    have absent := fresh t (Or.inl started)
    refine ⟨List.mem_append_right _ started, fun committed => ?_, fun aborted => ?_⟩
    · rcases List.mem_append.mp committed with old | new
      · exact absent (orderly.started (Or.inl old))
      · exact uncommitted new
    · rcases List.mem_append.mp aborted with old | new
      · exact absent (orderly.started (Or.inr (Or.inl old)))
      · exact unaborted new
  cases op with
  | start t =>
    intro started
    rcases List.mem_append.mp started with old | new
    · exact fresh t (Or.inr rfl) old
    · exact allowed new
  | update t cells => exact opens t allowed.1
  | commit t => exact opens t allowed
  | abort t => exact opens t allowed
  | mark => trivial
  | flush cells => trivial

/-- A disciplined run, from a state where pool and files agree, over ids that are not yet on the
tape. -/
theorem Disciplined.run {pageSize : Nat} {start s : System} {base : List LogRecord}
    (disciplined : Disciplined pageSize calls) (sim : Simulates start base)
    (size : start.bm.pageSize = pageSize)
    (clean : ∀ q i, start.bm.durable q i = start.bm.byte q i)
    (fresh : ∀ t, Call.logTxnBegin t ∈ calls → UndoRedo.Entry.start t ∉ entries base)
    (ran : Recovery.run start calls = some s) :
    ∃ tail, Simulates s (base ++ tail) ∧ s.bm.pageSize = pageSize ∧ Traces calls (entries tail) ∧
      SamePages calls tail ∧ UndoRedo.Inv (fun a => start.bm.byte a.1 a.2) (s.abstract tail) := by
  induction disciplined generalizing s with
  | nil =>
    cases ran
    refine ⟨[], (List.append_nil base).symm ▸ sim, size, Traces.nil, fun t q => by simp, ?_⟩
    have same : start.abstract [] =
        ⟨[], fun a => start.bm.byte a.1 a.2, fun a => start.bm.byte a.1 a.2⟩ :=
      Sys_ext rfl (fun _ _ => rfl) clean
    rw [same]
    exact UndoRedo.Inv.empty _
  | snoc disciplined allowed ih =>
    rename_i past call
    obtain ⟨mid, first, last⟩ := Machine.run_concat ran
    obtain ⟨tail, simMid, sizeMid, traces, pages, inv⟩ :=
      ih (fun t member => fresh t (List.mem_append_left _ member)) first
    obtain ⟨inside, allowed⟩ := allowed.abstract traces
    have unused : ∀ t, UndoRedo.Entry.start t ∈ entries tail ∨ call.op = .start t →
        UndoRedo.Entry.start t ∉ entries base := by
      rintro t (started | starts)
      · exact fresh t (List.mem_append_left _ ((traces.start t).mp started))
      · refine fresh t (List.mem_append_right _ ?_)
        cases call with
        | logTxnBegin txnId =>
          cases starts
          exact List.mem_singleton_self _
        | _ => cases starts
    have orderly : UndoRedo.Orderly (entries base) := sim.orderly
    have admits : UndoRedo.Admits (entries (base ++ tail)) call.op := by
      rw [entries, List.map_append]
      exact Admits.append orderly unused allowed
    have own : ∀ t, call = .logAbort t → ∀ cells, UndoRedo.Entry.update t cells ∉ entries base := by
      rintro t rfl cells updated
      exact unused t (Or.inl allowed.1) (orderly.started (Or.inr (Or.inr ⟨cells, updated⟩)))
    obtain ⟨simS, sizeS, abstract⟩ := simMid.exec (sizeMid.symm ▸ inside) admits own last
    refine ⟨tail ++ call.records mid, simS, sizeS.trans sizeMid, ?_, pages.snoc mid call, ?_⟩
    · have extended := Traces.snoc (mid.abstract tail) traces call
      rw [← abstract] at extended
      exact extended
    · rw [abstract]
      exact inv.exec allowed

end BuzzDB.Recovery
