import BuzzDB.Recovery.CrashRecovery

/-!
# A second crash

A crash and recovery, a second history over fresh ids on the same tape, and another
crash and recovery.  The first recovery keeps the transactions it has rolled back in
`active_txns_` and logs nothing about them, so the second one finds them open and
undoes them again, over whatever has been committed in between.
-/

namespace BuzzDB.Recovery

/-- Two histories, each ended by a crash and a recovery. -/
structure TwoCrashes (start : System) (calls later : List Call) where
  crashed : System
  ran : run start calls = some crashed
  recovered : System
  recovers : crashed.crash.recover = some recovered
  crashedAgain : System
  ranAgain : run recovered later = some crashedAgain
  final : System
  recoversAgain : crashedAgain.crash.recover = some final

/-- A history has an update of byte `i` of page `q` by `t`. -/
def Updated (calls : List Call) (t q : UInt64) (i : Nat) : Prop :=
  ∃ call ∈ calls, call.Updates t q i

/-- Of the transactions that recovery undoes, the one with the greatest id that updated the byte
is not a loser of the first crash. -/
def Shadowed (calls later : List Call) (q : UInt64) (i : Nat) : Prop :=
  ∃ u, Active later u ∧ Updated later u q i ∧
    ∀ t, Active calls t → Updated calls t q i → t < u

variable {s s' : System} {rs : List LogRecord} {calls later : List Call}

/-- A recovered system goes on behind its tape. -/
theorem Simulates.afterRecovery (sim : Simulates s rs) (recovered : s.crash.recover = some s') :
    Simulates s' rs := by
  have result := sim.recover recovered
  exact ⟨result.holds, result.wf, by rw [result.pageSize]; exact sim.inside, sim.valid, sim.orderly,
    result.first⟩

/-- The losers of the first crash stay closed: what is committed over their bytes later is what
the second recovery leaves there, and no recovery keeps a transaction it has rolled back. -/
structure StaysClosed {start : System} (run : TwoCrashes start calls later) : Prop where
  bytes : ∀ q i, (∃ t, Active calls t ∧ Updated calls t q i) →
    (∃ t, Call.logCommit t ∈ later ∧ Updated later t q i) →
    run.final.bm.byte q i = lastCommitted later q i 0
  first : ∀ t, Active calls t → t ∉ run.recovered.lm.activeTxns
  second : ∀ t, Active calls t ∨ Active later t → t ∉ run.final.lm.activeTxns

/-- What two disciplined histories with a crash and a recovery behind each of them leave. -/
structure TwoEpochs {start : System} (run : TwoCrashes start calls later) (init : Cell → UInt8)
    (front back : List LogRecord) : Prop where
  traces : Traces calls (entries front)
  tracesLater : Traces later (entries back)
  orderly : UndoRedo.Orderly (entries front)
  fresh : ∀ t, UndoRedo.Entry.start t ∈ entries back → UndoRedo.Entry.start t ∉ entries front
  inv : UndoRedo.Inv init (run.crashed.abstract front)
  invLater : UndoRedo.Inv (fun a => run.recovered.bm.byte a.1 a.2) (run.crashedAgain.abstract back)
  recovered : Recovered front run.crashed.crash.bm run.recovered.lm run.recovered.bm
  final : Recovered (front ++ back) run.crashedAgain.crash.bm run.final.lm run.final.bm

theorem Disciplined.twoEpochs {pageSize pageCount : Nat} {pageSize_lt : pageSize < 2 ^ 64}
    {disk : Disk UInt8} {logFile : List UInt8} (disciplined : Disciplined pageSize calls)
    (disciplinedLater : Disciplined pageSize later)
    (fresh : ∀ t, Call.logTxnBegin t ∈ later → Call.logTxnBegin t ∉ calls)
    (run : TwoCrashes (System.new pageSize pageSize_lt pageCount disk logFile) calls later) :
    ∃ front back, TwoEpochs run (fun a => disk.byte pageSize a.1 a.2) front back := by
  have initial := BufferManager.byte_new pageSize pageSize_lt pageCount disk
  obtain ⟨front, sim, size, traces, _, inv⟩ := disciplined.run
    (Simulates.new pageSize pageSize_lt pageCount disk logFile) rfl
    (fun q i => (initial q i).symm) (fun _ _ absent => List.not_mem_nil absent) run.ran
  have recovered := sim.recover run.recovers
  have fresh' : ∀ t, Call.logTxnBegin t ∈ later → UndoRedo.Entry.start t ∉ entries front :=
    fun t begins started => fresh t begins ((traces.start t).mp started)
  obtain ⟨back, simLater, _, tracesLater, _, invLater⟩ := disciplinedLater.run
    (sim.afterRecovery run.recovers) (recovered.pageSize.trans size) recovered.durable fresh'
    run.ranAgain
  refine ⟨front, back, traces, tracesLater, sim.orderly, fun t started => ?_, ?_, invLater,
    recovered, simLater.recover run.recoversAgain⟩
  · exact fresh' t ((tracesLater.start t).mp started)
  · have same : (fun a : Cell => disk.byte pageSize a.1 a.2) = fun a =>
        (System.new pageSize pageSize_lt pageCount disk logFile).bm.byte a.1 a.2 :=
      funext fun a => (initial a.1 a.2).symm
    rw [same]
    exact inv

section Epochs

variable {start : System} {run : TwoCrashes start calls later} {init : Cell → UInt8}
  {front back : List LogRecord} {t q : UInt64} {i : Nat}

/-- The first recovery leaves its losers in the active set. -/
theorem TwoEpochs.active (epochs : TwoEpochs run init front back) :
    t ∈ run.recovered.lm.activeTxns ↔ Active calls t :=
  (epochs.recovered.active t).trans epochs.traces.active.symm

/-- The second recovery finds the losers of both crashes. -/
theorem TwoEpochs.activeAgain (epochs : TwoEpochs run init front back) :
    t ∈ run.final.lm.activeTxns ↔ Active calls t ∨ Active later t := by
  rw [epochs.final.active, entries, List.map_append, ← entries, ← entries,
    UndoRedo.open_append_list epochs.orderly epochs.fresh fun t ended =>
      epochs.invLater.traced t (ended.imp_right Or.inl),
    epochs.traces.active, epochs.tracesLater.active]

/-- The first recovery brings every byte to its last committed value. -/
theorem TwoEpochs.byte_recovered (epochs : TwoEpochs run init front back) (q : UInt64) (i : Nat) :
    run.recovered.bm.byte q i = lastCommitted calls q i (init (q, i)) := by
  rw [epochs.recovered.byte, byte_crash, ← epochs.traces.lastCommitted_eq]
  exact epochs.inv.recovered_eq epochs.recovered.active (q, i)

/-- What the second recovery leaves in a byte that a loser of the first crash updated: unless the
byte is shadowed, its value from before the second history. -/
theorem TwoEpochs.byte_final (epochs : TwoEpochs run init front back)
    (loser : Active calls t ∧ Updated calls t q i) :
    (Shadowed calls later q i →
      run.final.bm.byte q i = lastCommitted later q i (run.recovered.bm.byte q i)) ∧
    (¬ Shadowed calls later q i → run.final.bm.byte q i = run.recovered.bm.byte q i) := by
  have log : entries (front ++ back) = entries front ++ entries back := List.map_append
  have covers : ∀ u, UndoRedo.Covers (entries (front ++ back)) u (q, i) ↔
      Updated calls u q i ∨ Updated later u q i := by
    intro u
    rw [log, UndoRedo.covers_append_list, epochs.traces.covers, epochs.tracesLater.covers]
    rfl
  -- the transaction with the greatest id that is undone decides
  obtain ⟨before, u, after, split, coversU, last⟩ := UndoRedo.exists_last
    ⟨t, epochs.activeAgain.mpr (Or.inl loser.1), (covers t).mpr (Or.inl loser.2)⟩
  have greatest : ∀ x, x ∈ run.final.lm.activeTxns → Updated calls x q i ∨ Updated later x q i →
      x = u ∨ x < u := by
    intro x member updated
    have ascending := epochs.final.ascending
    rw [split] at member ascending
    rcases List.mem_append.mp member with earlier | later
    · exact Or.inr (of_decide_eq_true
        ((List.pairwise_append.mp ascending).2.2 x earlier u List.mem_cons_self))
    · rcases List.mem_cons.mp later with same | behind
      · exact Or.inl same
      · exact absurd ((covers x).mpr updated) (last x behind)
  obtain ⟨w, image⟩ := Option.isSome_iff_exists.mp (UndoRedo.firstBefore_isSome.mpr coversU)
  have final : run.final.bm.byte q i = w := by
    rw [epochs.final.byte, UndoRedo.recovered, split, UndoRedo.undo_of_last image last]
  rw [log] at image
  have memberU : u ∈ run.final.lm.activeTxns := by
    rw [split]
    exact List.mem_append_right _ List.mem_cons_self
  rcases epochs.activeAgain.mp memberU with loserU | openU
  · have isOpen := epochs.traces.active.mp loserU
    have notLater : ¬ Updated later u q i := fun updated => epochs.fresh u
      (epochs.invLater.traced u (Or.inr (Or.inr ⟨_, (epochs.tracesLater.covers u q i).mpr updated⟩)))
      isOpen.1
    have updatedU := ((covers u).mp coversU).resolve_right notLater
    rw [UndoRedo.firstBefore_append_left ((epochs.traces.covers u q i).mpr updatedU)] at image
    have value : w = run.recovered.bm.byte q i := by
      rw [epochs.inv.before u (q, i) w isOpen image, epochs.byte_recovered,
        ← epochs.traces.lastCommitted_eq]
      rfl
    refine ⟨fun shadowed => ?_, fun _ => final.trans value⟩
    obtain ⟨x, activeX, updatedX, above⟩ := shadowed
    have less := above u loserU updatedU
    rcases greatest x (epochs.activeAgain.mpr (Or.inr activeX)) (Or.inr updatedX) with rfl | greater
    · exact absurd less (UInt64.lt_irrefl _)
    · exact absurd less (UInt64.lt_asymm greater)
  · have isOpen := epochs.tracesLater.active.mp openU
    have absent := epochs.fresh u isOpen.1
    have notCalls : ¬ Updated calls u q i := by
      intro before
      obtain ⟨cells, updated, _⟩ := (epochs.traces.covers u q i).mpr before
      exact absent (epochs.orderly.started (Or.inr (Or.inr ⟨cells, updated⟩)))
    have updatedU := ((covers u).mp coversU).resolve_left notCalls
    rw [UndoRedo.firstBefore_append_right fun cells updated =>
      absent (epochs.orderly.started (Or.inr (Or.inr ⟨cells, updated⟩)))] at image
    have value : w = lastCommitted later q i (run.recovered.bm.byte q i) := by
      rw [epochs.invLater.before u (q, i) w isOpen image, ← epochs.tracesLater.lastCommitted_eq]
      rfl
    refine ⟨fun _ => final.trans value, fun notShadowed => absurd ?_ notShadowed⟩
    refine ⟨u, openU, updatedU, fun x loserX updatedX => ?_⟩
    rcases greatest x (epochs.activeAgain.mpr (Or.inl loserX)) (Or.inl updatedX) with rfl | less
    · exact absurd updatedX notCalls
    · exact less

/-- The initial value of a byte that some committed transaction updated does not matter. -/
theorem lastCommitted_of_updated {c : UInt64} (traces : Traces later (entries back))
    (committed : Call.logCommit c ∈ later) (updated : Updated later c q i) (v w : UInt8) :
    lastCommitted later q i v = lastCommitted later q i w := by
  rw [← traces.lastCommitted_eq, ← traces.lastCommitted_eq]
  exact UndoRedo.redo_of_covered (UndoRedo.committed_iff.mpr ((traces.commit c).mpr committed))
    ((traces.covers c q i).mpr updated) v w

end Epochs

/-- Running both histories and recoveries gives the run. -/
theorem exists_twoCrashes (start : System) (calls later : List Call) {β : Type} {b : β}
    (observe : System → System → β)
    (result : ((run start calls).bind fun crashed => crashed.crash.recover.bind fun recovered =>
      (run recovered later).bind fun again => again.crash.recover.map (observe recovered)) = some b) :
    ∃ run : TwoCrashes start calls later, observe run.recovered run.final = b := by
  obtain ⟨crashed, ran, result⟩ := Option.bind_eq_some_iff.mp result
  obtain ⟨recovered, recovers, result⟩ := Option.bind_eq_some_iff.mp result
  obtain ⟨again, ranAgain, result⟩ := Option.bind_eq_some_iff.mp result
  obtain ⟨final, recoversAgain, same⟩ := Option.map_eq_some_iff.mp result
  exact ⟨⟨crashed, ran, recovered, recovers, again, ranAgain, final, recoversAgain⟩, same⟩

end BuzzDB.Recovery
