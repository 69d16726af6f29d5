import BuzzDB.Lib.UndoRedo

/-!
# Repeated recoveries

Recoveries that log nothing: a transaction that one of them has undone stays open on the log, and
every later one undoes it again.  The transactions are undone in the order of their ids, so that of
those that have updated a cell the one with the greatest id decides.

A recovery leaves the cells `Settled`, and `Settled.recovered_append` says what the next one makes of
them behind another run over ids of its own.
-/

namespace UndoRedo

variable {Txn Addr Val : Type*} {lt : Txn → Txn → Prop} {log front back : List (Entry Txn Addr Val)}
  {t u : Txn} {a : Addr} {opens : List Txn} {view : Addr → Val}

/-- Of the open transactions that have updated the cell, `t` has the greatest id. -/
structure Greatest (lt : Txn → Txn → Prop) (log : List (Entry Txn Addr Val)) (a : Addr) (t : Txn) :
    Prop where
  isOpen : Open log t
  covers : Covers log t a
  above : ∀ u, Open log u → Covers log u a → u = t ∨ lt u t

/-- The greatest one is open since `front`. -/
def Reverts (lt : Txn → Txn → Prop) (front back : List (Entry Txn Addr Val)) (a : Addr) : Prop :=
  ∃ t, Open front t ∧ Covers front t a ∧ ∀ u, Open back u → Covers back u a → lt u t

/-- Among the transactions to undo there is a greatest one, if one has updated the cell. -/
theorem exists_greatest (exact : ∀ t, t ∈ opens ↔ Open log t) (ascending : opens.Pairwise lt)
    (covered : ∃ t, Open log t ∧ Covers log t a) : ∃ before t after, opens = before ++ t :: after ∧
      Greatest lt log a t ∧ ∀ u ∈ after, ¬ Covers log u a := by
  obtain ⟨t, isOpen, covers⟩ := covered
  obtain ⟨before, u, after, split, coversU, last⟩ := exists_last ⟨t, (exact t).mpr isOpen, covers⟩
  rw [split] at ascending
  refine ⟨before, u, after, split, ⟨?_, coversU, fun x isOpen covers => ?_⟩, last⟩
  · exact (exact u).mp (split ▸ List.mem_append_right _ List.mem_cons_self)
  · have member := (exact x).mpr isOpen
    rw [split] at member
    rcases List.mem_append.mp member with earlier | later
    · exact Or.inr ((List.pairwise_append.mp ascending).2.2 x earlier u List.mem_cons_self)
    · rcases List.mem_cons.mp later with same | behind
      · exact Or.inl same
      · exact absurd covers (last x behind)

theorem Greatest.unique [Std.Asymm lt] (greatest : Greatest lt log a t) (other : Greatest lt log a u) :
    t = u := by
  rcases other.above t greatest.isOpen greatest.covers with same | less
  · exact same
  · rcases greatest.above u other.isOpen other.covers with same | greater
    · exact same.symm
    · exact absurd greater (Std.Asymm.asymm _ _ less)

section Images

variable [DecidableEq Txn]

/-- What a recovery leaves of a cell: the before image of the greatest open transaction that has
updated it, or else a value that redoing the log does not change. -/
structure Settled (lt : Txn → Txn → Prop) (log : List (Entry Txn Addr Val)) (view : Addr → Val) : Prop where
  undone : ∀ a t, Greatest lt log a t → firstBefore log t a = some (view a)
  redone : ∀ a, (∀ t, Open log t → ¬ Covers log t a) → lastCommitted a log (view a) = view a

theorem Settled.empty (view : Addr → Val) :
    Settled lt ([] : List (Entry Txn Addr Val)) view where
  undone _ _ greatest := absurd greatest.isOpen.1 List.not_mem_nil
  redone _ _ := rfl

/-- Redoing a log once more changes nothing. -/
theorem lastCommitted_again (v : Val) :
    lastCommitted a log (lastCommitted a log v) = lastCommitted a log v := by
  by_cases covered : ∃ t, committed log t = true ∧ Covers log t a
  · obtain ⟨t, isCommitted, covers⟩ := covered
    exact redo_of_covered isCommitted covers _ _
  · have uncovered : ∀ t, committed log t = true → ¬ Covers log t a :=
      fun t isCommitted covers => covered ⟨t, isCommitted, covers⟩
    rw [lastCommitted, lastCommitted, redo_of_uncovered uncovered]

theorem recovered_of_greatest [Std.Asymm lt] (exact : ∀ t, t ∈ opens ↔ Open log t)
    (ascending : opens.Pairwise lt) (greatest : Greatest lt log a t) (v : Val) :
    firstBefore log t a = some (recovered opens a log v) := by
  obtain ⟨before, u, after, split, isGreatest, last⟩ :=
    exists_greatest exact ascending ⟨t, greatest.isOpen, greatest.covers⟩
  rw [greatest.unique isGreatest]
  obtain ⟨w, image⟩ := Option.isSome_iff_exists.mp (firstBefore_isSome.mpr isGreatest.covers)
  rw [image, recovered, split, undo_of_last image last]

theorem recovered_of_uncovered (exact : ∀ t, t ∈ opens ↔ Open log t)
    (uncovered : ∀ t, Open log t → ¬ Covers log t a) (v : Val) :
    recovered opens a log v = lastCommitted a log v :=
  undo_of_uncovered fun t member => uncovered t ((exact t).mp member)

/-- Every recovery settles the cells. -/
theorem settled_recovered [Std.Asymm lt] (exact : ∀ t, t ∈ opens ↔ Open log t)
    (ascending : opens.Pairwise lt) (durable : Addr → Val) :
    Settled lt log fun a => recovered opens a log (durable a) where
  undone a t greatest := recovered_of_greatest exact ascending greatest (durable a)
  redone a uncovered := by
    rw [recovered_of_uncovered exact uncovered]
    exact lastCommitted_again _

/-! ## Two logs over different ids -/

/-- The ids of `back` are its own. -/
structure Own (front back : List (Entry Txn Addr Val)) : Prop where
  orderly : Orderly front
  fresh : ∀ t, Entry.start t ∈ back → Entry.start t ∉ front
  traced : ∀ t, Entry.commit t ∈ back ∨ Entry.abort t ∈ back ∨ (∃ a, Covers back t a) →
    Entry.start t ∈ back

omit [DecidableEq Txn] in
theorem Own.isOpen (own : Own front back) : Open (front ++ back) t ↔ Open front t ∨ Open back t :=
  open_append_list own.orderly own.fresh fun t ended => own.traced t (ended.imp_right Or.inl)

omit [DecidableEq Txn] in
/-- A transaction of `front` has updated nothing in `back`, -/
theorem Own.covers_front (own : Own front back) (started : Entry.start t ∈ front) :
    Covers (front ++ back) t a ↔ Covers front t a := by
  rw [covers_append_list, or_iff_left]
  exact fun covers => own.fresh t (own.traced t (Or.inr (Or.inr ⟨a, covers⟩))) started

omit [DecidableEq Txn] in
/-- and one of `back` nothing in `front`. -/
theorem Own.uncovered (own : Own front back) (started : Entry.start t ∈ back) : ¬ Covers front t a := by
  rintro ⟨cells, updated, -⟩
  exact own.fresh t started (own.orderly.started (Or.inr (Or.inr ⟨cells, updated⟩)))

omit [DecidableEq Txn] in
theorem Own.covers_back (own : Own front back) (started : Entry.start t ∈ back) :
    Covers (front ++ back) t a ↔ Covers back t a := by
  rw [covers_append_list, or_iff_right (own.uncovered started)]

/-- The last committed value of one log, and then of the other one. -/
theorem Own.lastCommitted_append (own : Own front back) (v : Val) :
    lastCommitted a (front ++ back) v = lastCommitted a back (lastCommitted a front v) := by
  have inFront : ∀ t, Covers front t a → committed (front ++ back) t = committed front t := by
    rintro t ⟨cells, updated, -⟩
    have started := own.orderly.started (Or.inr (Or.inr ⟨cells, updated⟩))
    rw [Bool.eq_iff_iff, committed_iff, committed_iff, List.mem_append, or_iff_left]
    exact fun ended => own.fresh t (own.traced t (Or.inl ended)) started
  have inBack : ∀ t, Covers back t a → committed (front ++ back) t = committed back t := by
    intro t covers
    have started := own.traced t (Or.inr (Or.inr ⟨a, covers⟩))
    rw [Bool.eq_iff_iff, committed_iff, committed_iff, List.mem_append, or_iff_right]
    exact fun ended => own.fresh t started (own.orderly.started (Or.inl ended))
  have parts : redo (committed (front ++ back)) a (front ++ back) v =
      redo (committed (front ++ back)) a back (redo (committed (front ++ back)) a front v) :=
    List.foldl_append
  rw [lastCommitted, parts, redo_congr inFront, redo_congr inBack, lastCommitted, lastCommitted]

omit [DecidableEq Txn] in
/-- If the greatest one is from `front`, it is the greatest one there, -/
theorem Own.greatest_front (own : Own front back) (greatest : Greatest lt (front ++ back) a t)
    (before : Open front t) : Greatest lt front a t ∧ Reverts lt front back a := by
  have covers := (own.covers_front before.1).mp greatest.covers
  refine ⟨⟨before, covers, fun u isOpen covers => ?_⟩, t, before, covers, fun u isOpen covers => ?_⟩
  · exact greatest.above u (own.isOpen.mpr (Or.inl isOpen)) ((own.covers_front isOpen.1).mpr covers)
  · rcases greatest.above u (own.isOpen.mpr (Or.inr isOpen))
      ((own.covers_back isOpen.1).mpr covers) with rfl | less
    · exact absurd before.1 (own.fresh u isOpen.1)
    · exact less

omit [DecidableEq Txn] in
/-- and if it is from `back`, none of `front` reverts the cell. -/
theorem Own.greatest_back [Std.Asymm lt] (own : Own front back)
    (greatest : Greatest lt (front ++ back) a t) (behind : Open back t) : ¬ Reverts lt front back a := by
  rintro ⟨u, isOpen, covers, above⟩
  have less := above t behind ((own.covers_back behind.1).mp greatest.covers)
  rcases greatest.above u (own.isOpen.mpr (Or.inl isOpen))
    ((own.covers_front isOpen.1).mpr covers) with rfl | greater
  · exact own.fresh u behind.1 isOpen.1
  · exact absurd greater (Std.Asymm.asymm _ _ less)

/-- A cell that no open transaction has updated keeps what the run between two recoveries has committed
to it. -/
theorem Settled.recovered_uncovered (settled : Settled lt front view) {s : Sys Txn Addr Val}
    (inv : Inv view s) (own : Own front s.log) (exact : ∀ t, t ∈ opens ↔ Open (front ++ s.log) t)
    (uncovered : ∀ t, Open (front ++ s.log) t → ¬ Covers (front ++ s.log) t a) :
    recovered opens a (front ++ s.log) (s.durable a) = lastCommitted a s.log (view a) := by
  rw [recovered_of_uncovered exact uncovered, own.lastCommitted_append]
  by_cases redone : ∃ t, committed s.log t = true ∧ Covers s.log t a
  · obtain ⟨t, isCommitted, covers⟩ := redone
    exact redo_of_covered isCommitted covers _ _
  · have kept : s.durable a = view a := inv.disk a fun t status covers => by
      rcases status with isOpen | isCommitted
      · exact uncovered t (own.isOpen.mpr (Or.inr isOpen)) ((own.covers_back isOpen.1).mpr covers)
      · exact redone ⟨t, isCommitted, covers⟩
    rw [kept, settled.redone a fun t isOpen covers =>
      uncovered t (own.isOpen.mpr (Or.inl isOpen)) ((own.covers_front isOpen.1).mpr covers)]

/-- The second of two recoveries leaves the value that the run between them has committed last, unless
of the open transactions that have updated the cell the greatest one was open before: then it goes back
to what the first recovery has left. -/
theorem Settled.recovered_append [Std.Asymm lt] (settled : Settled lt front view)
    {s : Sys Txn Addr Val} (inv : Inv view s) (own : Own front s.log)
    (exact : ∀ t, t ∈ opens ↔ Open (front ++ s.log) t) (ascending : opens.Pairwise lt) (a : Addr) :
    (Reverts lt front s.log a → recovered opens a (front ++ s.log) (s.durable a) = view a) ∧
      (¬ Reverts lt front s.log a →
        recovered opens a (front ++ s.log) (s.durable a) = lastCommitted a s.log (view a)) := by
  by_cases covered : ∃ t, Open (front ++ s.log) t ∧ Covers (front ++ s.log) t a
  · obtain ⟨-, t, -, -, greatest, -⟩ := exists_greatest exact ascending covered
    have image := recovered_of_greatest exact ascending greatest (s.durable a)
    rcases own.isOpen.mp greatest.isOpen with before | behind
    · obtain ⟨greatestBefore, reverts⟩ := own.greatest_front greatest before
      rw [firstBefore_append_left greatestBefore.covers, settled.undone a t greatestBefore] at image
      exact ⟨fun _ => (Option.some.inj image).symm, fun bare => absurd reverts bare⟩
    · rw [firstBefore_append_right fun cells updated => own.fresh t behind.1
        (own.orderly.started (Or.inr (Or.inr ⟨cells, updated⟩)))] at image
      exact ⟨fun reverts => absurd reverts (own.greatest_back greatest behind),
        fun _ => inv.before t a _ behind image⟩
  · have uncovered : ∀ t, Open (front ++ s.log) t → ¬ Covers (front ++ s.log) t a :=
      fun t isOpen covers => covered ⟨t, isOpen, covers⟩
    refine ⟨fun reverts => ?_, fun _ => settled.recovered_uncovered inv own exact uncovered⟩
    obtain ⟨t, isOpen, covers, -⟩ := reverts
    exact absurd ((own.covers_front isOpen.1).mpr covers)
      (uncovered t (own.isOpen.mpr (Or.inl isOpen)))

end Images

end UndoRedo
