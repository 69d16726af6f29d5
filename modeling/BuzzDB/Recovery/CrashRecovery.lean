import BuzzDB.Recovery.Discipline
import BuzzDB.Recovery.Frames

/-!
# Recovery after one crash

After any disciplined history, a crash and a recovery, every byte of every page has
its last committed value, both as callers see it and on disk.
-/

namespace BuzzDB.Recovery

variable {s s' : System} {rs : List LogRecord}

/-- A crash leaves the tape and the segment files. -/
theorem Simulates.crash (sim : Simulates s rs) : Simulates s.crash rs where
  holds := sim.holds.congr rfl rfl
  wf := (BufferManager.discarded_all s.bm).wf
  inside := sim.inside
  valid := sim.valid
  orderly := sim.orderly
  starts := sim.starts

theorem byte_crash (s : System) (q : UInt64) (i : Nat) :
    s.crash.bm.byte q i = s.bm.durable q i := by
  rw [System.crash, (BufferManager.discarded_all s.bm).byte, if_pos rfl]

/-- What recovery after a crash guarantees. -/
theorem Simulates.recover (sim : Simulates s rs) (recovered : s.crash.recover = some s') :
    Recovered rs s.crash.bm s'.lm s'.bm := by
  obtain ⟨⟨lm, bm⟩, ran, same⟩ := Option.bind_eq_some_iff.mp recovered
  cases same
  have crashed := sim.crash
  exact recovery_spec crashed.holds crashed.wf crashed.inside crashed.orderly ran

/-- The pages that committed or still active transactions updated. -/
def recoveredPages (calls : List Call) : List UInt64 :=
  calls.filterMap fun
    | .update txnId pageId _ _ =>
      if Call.logCommit txnId ∈ calls ∨ Call.logAbort txnId ∉ calls then some pageId else none
    | _ => none

theorem mem_recoveredPages {calls : List Call} {q : UInt64} : q ∈ recoveredPages calls ↔
    ∃ t, (Call.logCommit t ∈ calls ∨ Call.logAbort t ∉ calls) ∧
      ∃ offset bytes, Call.update t q offset bytes ∈ calls := by
  rw [recoveredPages, List.mem_filterMap]
  constructor
  · rintro ⟨call, member, isPage⟩
    cases call with
    | update t p offset bytes =>
      simp only [Option.ite_none_right_eq_some, Option.some.injEq] at isPage
      obtain ⟨unaborted, rfl⟩ := isPage
      exact ⟨t, unaborted, offset, bytes, member⟩
    | _ => cases isPage
  · rintro ⟨t, unaborted, offset, bytes, member⟩
    exact ⟨_, member, if_pos unaborted⟩

/-- After a disciplined history recovery returns exactly if there is a frame for every page it
writes; the crash frees none. -/
theorem recover_isSome {calls : List Call} (sim : Simulates s rs) (traces : Traces calls (entries rs))
    (pages : SamePages calls rs) :
    s.crash.recover.isSome ↔ s.crash.bm.Room (recoveredPages calls) := by
  have crashed := sim.crash
  have analysed := analysed s.crash.lm.txnIdToFirstLogRecord crashed.holds.sized crashed.orderly
  have returns := recovery_isSome crashed.holds crashed.wf crashed.inside crashed.orderly
  rw [crashed.holds.analysis_eq] at returns
  have whole : s.crash.recover.isSome ↔ (s.crash.lm.recovery s.crash.bm).isSome :=
    isSome_bind_some _ _
  rw [whole, returns]
  have onTape := fun t q => (pages t q).symm
  refine BufferManager.Room.congr fun q => ?_
  simp only [List.mem_append, mem_redoPages, List.mem_flatMap, mem_undoPages, mem_recoveredPages,
    mem_committedTxns _ crashed.holds.sized, analysed.active, UndoRedo.Open, traces.start,
    traces.commit, traces.abort, onTape]
  constructor
  · rintro (⟨record, member, isUpdate, isCommitted, rfl⟩ | ⟨t, ⟨_, _, unaborted⟩, record, update⟩)
    · exact ⟨record.txnId, Or.inl isCommitted, record, member, isUpdate, rfl, rfl⟩
    · exact ⟨t, Or.inr unaborted, record, update⟩
  · rintro ⟨t, ended, record, member, isUpdate, rfl, rfl⟩
    by_cases isCommitted : Call.logCommit record.txnId ∈ calls
    · exact Or.inl ⟨record, member, isUpdate, isCommitted, rfl⟩
    · have updated : UndoRedo.Entry.update record.txnId record.cells ∈ entries rs :=
        List.mem_map.mpr ⟨record, member, record.entry_of_update isUpdate⟩
      have started := (traces.start _).mp (sim.orderly.started (Or.inr (Or.inr ⟨_, updated⟩)))
      exact Or.inr ⟨_, ⟨started, isCommitted, ended.resolve_left isCommitted⟩, record, member,
        isUpdate, rfl, rfl⟩

/-- Two transactions on one page, of which the first commits; everything is flushed. -/
def twoWriters : List Call :=
  [.logTxnBegin 1, .update 1 0 0 [7], .logTxnBegin 2, .update 2 0 1 [9], .logCommit 1,
    .flushAllPages]

theorem twoWriters_disciplined : Disciplined 2 twoWriters := by
  have h1 : Disciplined 2 [.logTxnBegin 1] := .snoc .nil (by simp [Allowed])
  have h2 : Disciplined 2 [.logTxnBegin 1, .update 1 0 0 [7]] := .snoc h1 (by
    simp [Allowed, Active, Call.Updates])
  have h3 : Disciplined 2 [.logTxnBegin 1, .update 1 0 0 [7], .logTxnBegin 2] :=
    .snoc h2 (by simp [Allowed])
  have h4 : Disciplined 2 [.logTxnBegin 1, .update 1 0 0 [7], .logTxnBegin 2, .update 2 0 1 [9]] :=
    .snoc h3 (by
      simp [Allowed, Active, Call.Updates]
      omega)
  have h5 : Disciplined 2 [.logTxnBegin 1, .update 1 0 0 [7], .logTxnBegin 2, .update 2 0 1 [9],
      .logCommit 1] := .snoc h4 (by simp [Allowed, Active])
  exact .snoc h5 trivial

end BuzzDB.Recovery
