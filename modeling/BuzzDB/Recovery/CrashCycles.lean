import BuzzDB.Lib.Recoveries
import BuzzDB.Recovery.SecondCrash

/-!
# Any number of crashes

Histories on one tape, each with a crash and a recovery behind it.  Recovery logs nothing, so that a
loser is undone again by every later one.  `byteAfter` is what becomes of a byte: a history in which it
is `Reverted` is lost, whatever it has committed there.
-/

namespace BuzzDB.Recovery

/-- A history, and the crash and the recovery behind it. -/
def cycle (s : System) (calls : List Call) : Option System := do
  let crashed ← run s calls
  crashed.crash.recover

/-- Each history is disciplined, over ids of its own. -/
inductive DisciplinedCycles (pageSize : Nat) : List (List Call) → Prop
  | nil : DisciplinedCycles pageSize []
  | snoc {past : List (List Call)} {calls : List Call} (cycles : DisciplinedCycles pageSize past)
      (disciplined : Disciplined pageSize calls)
      (fresh : ∀ t, Call.logTxnBegin t ∈ calls → Call.logTxnBegin t ∉ past.flatten) :
      DisciplinedCycles pageSize (past ++ [calls])

instance (calls : List Call) (t : UInt64) : Decidable (Active calls t) :=
  inferInstanceAs (Decidable (_ ∧ _ ∧ _))

/-- The transactions that are left open and have updated the byte. -/
def losers (calls : List Call) (q : UInt64) (i : Nat) : List UInt64 :=
  calls.filterMap fun
    | .update txnId pageId offset record =>
      if Active calls txnId ∧ q = pageId ∧ offset.toNat ≤ i ∧ i < offset.toNat + record.length then
        some txnId
      else none
    | _ => none

/-- The ids are less than `t`. -/
def Below (t : UInt64) (ids : List UInt64) : Prop := ∀ u ∈ ids, u < t

instance (t : UInt64) (ids : List UInt64) : Decidable (Below t ids) := List.decidableBAll _ _

/-- Of the losers of the byte, the one with the greatest id is from the past. -/
def Reverted (past calls : List Call) (q : UInt64) (i : Nat) : Prop :=
  ∃ t ∈ losers past q i, Below t (losers calls q i)

instance (past calls : List Call) (q : UInt64) (i : Nat) : Decidable (Reverted past calls q i) :=
  List.decidableBEx _ _

/-- The past and the value of a byte, and behind one more history. -/
def afterCycle (q : UInt64) (i : Nat) (before : List Call × UInt8) (calls : List Call) :
    List Call × UInt8 :=
  (before.1 ++ calls, if Reverted before.1 calls q i then before.2 else lastCommitted calls q i before.2)

/-- A byte behind the histories, with the initial value `v`. -/
def byteAfter (histories : List (List Call)) (q : UInt64) (i : Nat) (v : UInt8) : UInt8 :=
  (histories.foldl (afterCycle q i) ([], v)).2

variable {pageSize : Nat} {past calls later : List Call} {log log' : List Entry} {t q : UInt64} {i : Nat}
  {histories : List (List Call)} {s s' : System} {rs : List LogRecord} {v : UInt8}

theorem mem_losers : t ∈ losers calls q i ↔ Active calls t ∧ Updated calls t q i := by
  rw [losers, List.mem_filterMap]
  constructor
  · rintro ⟨call, member, isLoser⟩
    cases call with
    | update u p offset record =>
      obtain ⟨⟨isActive, reached⟩, same⟩ := Option.ite_none_right_eq_some.mp isLoser
      cases same
      exact ⟨isActive, _, member, rfl, reached⟩
    | _ => cases isLoser
  · rintro ⟨isActive, call, member, updates⟩
    cases call with
    | update u p offset record =>
      obtain ⟨rfl, reached⟩ := updates
      exact ⟨_, member, if_pos ⟨isActive, reached⟩⟩
    | _ => exact updates.elim

theorem byteAfter_concat : byteAfter (histories ++ [calls]) q i v =
    if Reverted histories.flatten calls q i then byteAfter histories q i v
    else lastCommitted calls q i (byteAfter histories q i v) := by
  have past : ∀ histories : List (List Call), ∀ before : List Call × UInt8,
      (histories.foldl (afterCycle q i) before).1 = before.1 ++ histories.flatten := by
    intro histories
    induction histories with
    | nil => exact fun before => (List.append_nil _).symm
    | cons calls histories ih =>
      intro before
      rw [List.foldl_cons, ih, afterCycle, List.flatten_cons, List.append_assoc]
  rw [byteAfter, List.foldl_append, List.foldl_cons, List.foldl_nil, afterCycle, past, byteAfter]
  rfl

/-! ## Two histories on one tape -/

theorem Traces.append (traces : Traces calls log) (tracesLater : Traces later log') :
    Traces (calls ++ later) (log ++ log') where
  start t := by rw [List.mem_append, List.mem_append, traces.start, tracesLater.start]
  commit t := by rw [List.mem_append, List.mem_append, traces.commit, tracesLater.commit]
  abort t := by rw [List.mem_append, List.mem_append, traces.abort, tracesLater.abort]
  covers t q i := by
    rw [UndoRedo.covers_append_list, traces.covers, tracesLater.covers]
    simp only [List.mem_append, or_and_right, exists_or]
  redo C q i v := by
    rw [UndoRedo.redo, List.foldl_append, List.foldl_append, ← traces.redo, ← tracesLater.redo]
    rfl

theorem Traces.mem_losers (traces : Traces calls log) :
    t ∈ losers calls q i ↔ UndoRedo.Open log t ∧ UndoRedo.Covers log t (q, i) := by
  rw [Recovery.mem_losers, traces.active, traces.covers, Updated]

theorem Traces.reverts_iff (traces : Traces calls log) (tracesLater : Traces later log') :
    UndoRedo.Reverts (· < ·) log log' (q, i) ↔ Reverted calls later q i := by
  simp only [UndoRedo.Reverts, Reverted, Below, traces.mem_losers, tracesLater.mem_losers, and_assoc,
    and_imp]

/-! ## One cycle -/

/-- A system behind some histories: its tape has their records, the pool agrees with the files, and
the last recovery has settled the bytes. -/
structure Behind (pageSize : Nat) (past : List Call) (s : System) (rs : List LogRecord) : Prop where
  sim : Simulates s rs
  size : s.bm.pageSize = pageSize
  clean : ∀ q i, s.bm.durable q i = s.bm.byte q i
  traces : Traces past (entries rs)
  active : ∀ t, t ∈ s.lm.activeTxns ↔ Active past t
  settled : UndoRedo.Settled (· < ·) (entries rs) fun a => s.bm.byte a.1 a.2

theorem Behind.new (pageSize : Nat) (pageSize_lt : pageSize < 2 ^ 64) (pageCount : Nat)
    (disk : Disk UInt8) (logFile : List UInt8) :
    Behind pageSize [] (System.new pageSize pageSize_lt pageCount disk logFile) [] where
  sim := Simulates.new pageSize pageSize_lt pageCount disk logFile
  size := rfl
  clean q i := (BufferManager.byte_new pageSize pageSize_lt pageCount disk q i).symm
  traces := Traces.nil
  active _ := iff_of_false List.not_mem_nil fun isActive => List.not_mem_nil isActive.1
  settled := UndoRedo.Settled.empty _

/-- What one more cycle does to the bytes, and what the discipline makes of the histories before it. -/
structure Cycled (past calls : List Call) (s s' : System) : Prop where
  byte : ∀ q i, s'.bm.byte q i = if Reverted past calls q i then s.bm.byte q i
    else lastCommitted calls q i (s.bm.byte q i)
  active : ∀ t, Active (past ++ calls) t ↔ Active past t ∨ Active calls t
  lastCommitted : ∀ q i v,
    lastCommitted (past ++ calls) q i v = lastCommitted calls q i (lastCommitted past q i v)

theorem Behind.cycle (behind : Behind pageSize past s rs) (disciplined : Disciplined pageSize calls)
    (fresh : ∀ t, Call.logTxnBegin t ∈ calls → Call.logTxnBegin t ∉ past)
    (ran : cycle s calls = some s') :
    ∃ rs', Behind pageSize (past ++ calls) s' rs' ∧ Cycled past calls s s' := by
  obtain ⟨crashed, ran, recovers⟩ := Option.bind_eq_some_iff.mp ran
  have unused : ∀ t, Call.logTxnBegin t ∈ calls → UndoRedo.Entry.start t ∉ entries rs :=
    fun t begins started => fresh t begins ((behind.traces.start t).mp started)
  obtain ⟨tail, sim, size, traces, -, inv⟩ :=
    disciplined.run behind.sim behind.size behind.clean unused ran
  have recovered := sim.recover recovers
  have split : entries (rs ++ tail) = entries rs ++ entries tail := List.map_append
  have together := behind.traces.append traces
  have own : UndoRedo.Own (entries rs) (entries tail) :=
    ⟨behind.sim.orderly, fun t started => unused t ((traces.start t).mp started), inv.traced⟩
  have exact := recovered.active
  rw [split] at exact
  have ascending : s'.lm.activeTxns.Pairwise (· < ·) :=
    recovered.ascending.imp fun less => of_decide_eq_true less
  have view : (fun a : Cell => s'.bm.byte a.1 a.2) = fun a => UndoRedo.recovered s'.lm.activeTxns a
      (entries rs ++ entries tail) (crashed.bm.durable a.1 a.2) :=
    funext fun a => by rw [recovered.byte, byte_crash, split]
  refine ⟨rs ++ tail, ⟨sim.afterRecovery recovers, recovered.pageSize.trans size, recovered.durable,
    split ▸ together, fun t => (exact t).trans together.active.symm, ?_⟩, fun q i => ?_,
    fun t => ?_, fun q i v => ?_⟩
  · rw [split, view]
    exact UndoRedo.settled_recovered exact ascending _
  · have byte : s'.bm.byte q i = _ := congrFun view (q, i)
    obtain ⟨reverted, bare⟩ := behind.settled.recovered_append inv own exact ascending (q, i)
    simp only [System.abstract, behind.traces.reverts_iff traces] at reverted bare
    split
    · rename_i isReverted
      exact byte.trans (reverted isReverted)
    · rename_i isBare
      rw [byte, bare isBare, traces.lastCommitted_eq]
  · rw [together.active, own.isOpen, behind.traces.active, traces.active]
  · rw [← together.lastCommitted_eq, own.lastCommitted_append, behind.traces.lastCommitted_eq,
      traces.lastCommitted_eq]

/-! ## Runs of cycles -/

section Runs

variable {pageSize_lt : pageSize < 2 ^ 64} {pageCount : Nat} {disk : Disk UInt8} {logFile : List UInt8}

theorem DisciplinedCycles.behind (cycles : DisciplinedCycles pageSize histories)
    (ran : Machine.run cycle (.new pageSize pageSize_lt pageCount disk logFile) histories = some s) :
    (∃ rs, Behind pageSize histories.flatten s rs) ∧
      (∀ q i, s.bm.byte q i = byteAfter histories q i (disk.byte pageSize q i)) ∧
      ∀ t, Active histories.flatten t ↔ ∃ calls ∈ histories, Active calls t := by
  induction cycles generalizing s with
  | nil =>
    cases ran
    refine ⟨⟨[], Behind.new pageSize pageSize_lt pageCount disk logFile⟩,
      BufferManager.byte_new pageSize pageSize_lt pageCount disk, fun t => ?_⟩
    exact iff_of_false (fun isActive => List.not_mem_nil isActive.1) (by simp)
  | snoc cycles disciplined fresh ih =>
    obtain ⟨mid, first, last⟩ := Machine.run_concat ran
    obtain ⟨⟨rs, behind⟩, bytes, active⟩ := ih first
    obtain ⟨rs', behind', cycled⟩ := behind.cycle disciplined fresh last
    rw [List.flatten_append, List.flatten_singleton]
    refine ⟨⟨rs', behind'⟩, fun q i => ?_, fun t => ?_⟩
    · rw [cycled.byte, bytes, byteAfter_concat]
    · rw [cycled.active, active]
      simp only [List.mem_append, List.mem_singleton, or_and_right, exists_or, exists_eq_left]

/-- Behind each of the histories every byte has its last committed value. -/
def Durable (start : System) (histories : List (List Call)) : Prop :=
  ∀ front, front <+: histories → ∀ s, Machine.run cycle start front = some s →
    ∀ q i, s.bm.byte q i = lastCommitted front.flatten q i (start.bm.byte q i)

/-- No history has committed another value to a byte in which it is reverted. -/
def Unreverted (start : System) (histories : List (List Call)) : Prop :=
  ∀ front calls, front ++ [calls] <+: histories → ∀ q i, Reverted front.flatten calls q i →
    lastCommitted (front ++ [calls]).flatten q i (start.bm.byte q i) =
      lastCommitted front.flatten q i (start.bm.byte q i)

end Runs

/-- A transaction that is left open, one that commits the same byte, and one that commits it again and
leaves another one open there. -/
def threeCrashes : List (List Call) :=
  [[.logTxnBegin 1, .update 1 0 0 [7]], [.logTxnBegin 2, .update 2 0 0 [9], .logCommit 2],
    [.logTxnBegin 3, .update 3 0 0 [5], .logCommit 3, .logTxnBegin 4, .update 4 0 0 [6]]]

theorem threeCrashes_disciplined : DisciplinedCycles 2 threeCrashes := by
  have begins : ∀ t, Disciplined 2 [.logTxnBegin t] := fun t => .snoc .nil (by simp [Allowed])
  have writes : ∀ t v, Disciplined 2 [.logTxnBegin t, .update t 0 0 [v]] := fun t v =>
    .snoc (begins t) (by simp [Allowed, Active, Call.Updates])
  have commits : ∀ t v, Disciplined 2 [.logTxnBegin t, .update t 0 0 [v], .logCommit t] := fun t v =>
    .snoc (writes t v) (by simp [Allowed, Active])
  have again : Disciplined 2 [.logTxnBegin 3, .update 3 0 0 [5], .logCommit 3, .logTxnBegin 4] :=
    .snoc (commits 3 5) (by simp [Allowed])
  have last : Disciplined 2
      [.logTxnBegin 3, .update 3 0 0 [5], .logCommit 3, .logTxnBegin 4, .update 4 0 0 [6]] :=
    .snoc again (by
      simp [Allowed, Active, Call.Updates]
      exact fun u _ _ different same => different same.symm)
  exact .snoc (.snoc (.snoc .nil (writes 1 7) (by simp)) (commits 2 9) (by simp)) last (by simp)

theorem threeCrashes_run :
    ∃ s, Machine.run cycle (.new 2 (by decide) 8 (fun _ => []) []) threeCrashes = some s := by
  have runs : (Machine.run cycle (.new 2 (by decide) 8 (fun _ => []) []) threeCrashes).isSome := by
    decide +kernel
  exact Option.isSome_iff_exists.mp runs

end BuzzDB.Recovery
