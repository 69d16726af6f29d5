import Mathlib.Algebra.Order.Ring.Nat
import Mathlib.Data.List.Induction

/-!
# Undo/redo logging

A store whose cells are changed in place under a log of before and after images.
`Sys` is the log together with two versions of every cell: `view`, the one the
running system reads, and `durable`, the one that is left after a crash.  Nothing
says when a changed cell becomes durable: `flush` may happen to any cells at any
moment, whether their writer has committed or not.

Recovery redoes the updates of committed transactions in log order and then puts
back, for each open transaction, the first before image of every cell it updated
(`recovered`).  `Inv.recovered_eq`: under the discipline `Allowed`, which is strict
two-phase locking seen from the log, this yields the last committed value of every
cell, from any durable state the run can leave behind.
-/

namespace UndoRedo

variable {Txn Addr Val : Type*}

/-- A log record.  The cells of an update carry their before and after image. -/
inductive Entry (Txn Addr Val : Type*)
  | start (t : Txn)
  | update (t : Txn) (cells : Addr → Option (Val × Val))
  | commit (t : Txn)
  | abort (t : Txn)
  | mark

/-- Transaction `t` updated cell `a`. -/
def Covers (log : List (Entry Txn Addr Val)) (t : Txn) (a : Addr) : Prop :=
  ∃ cells, Entry.update t cells ∈ log ∧ (cells a).isSome

/-- Transaction `t` has started and neither committed nor aborted. -/
def Open (log : List (Entry Txn Addr Val)) (t : Txn) : Prop :=
  Entry.start t ∈ log ∧ Entry.commit t ∉ log ∧ Entry.abort t ∉ log

/-- Ids are started once, and a transaction appears on the log only after its start. -/
def Follows (log : List (Entry Txn Addr Val)) : Entry Txn Addr Val → Prop
  | .start t => Entry.start t ∉ log
  | .update t _ => Entry.start t ∈ log
  | .commit t => Entry.start t ∈ log
  | .abort t => Entry.start t ∈ log
  | .mark => True

/-- Every record follows those before it. -/
inductive Orderly : List (Entry Txn Addr Val) → Prop
  | nil : Orderly []
  | snoc {log : List (Entry Txn Addr Val)} {e : Entry Txn Addr Val} (orderly : Orderly log)
      (follows : Follows log e) : Orderly (log ++ [e])

theorem Orderly.of_snoc {log : List (Entry Txn Addr Val)} {e : Entry Txn Addr Val}
    (orderly : Orderly (log ++ [e])) : Orderly log ∧ Follows log e := by
  generalize whole : log ++ [e] = all at orderly
  cases orderly with
  | nil => exact absurd whole (by simp)
  | snoc orderly follows =>
    obtain ⟨rfl, same⟩ := List.append_inj' whole rfl
    cases same
    exact ⟨orderly, follows⟩

/-- A transaction on an orderly log has started. -/
theorem Orderly.started {log : List (Entry Txn Addr Val)} {t : Txn} (orderly : Orderly log)
    (appears : Entry.commit t ∈ log ∨ Entry.abort t ∈ log ∨ ∃ cells, Entry.update t cells ∈ log) :
    Entry.start t ∈ log := by
  induction log using List.reverseRecOn with
  | nil => rcases appears with h | h | ⟨_, h⟩ <;> cases h
  | append_singleton log e ih =>
    obtain ⟨orderly, follows⟩ := orderly.of_snoc
    apply List.mem_append_left
    rcases appears with member | member | ⟨cells, member⟩ <;>
      rcases List.mem_append.mp member with old | new
    · exact ih orderly (Or.inl old)
    · rw [← List.mem_singleton.mp new] at follows
      exact follows
    · exact ih orderly (Or.inr (Or.inl old))
    · rw [← List.mem_singleton.mp new] at follows
      exact follows
    · exact ih orderly (Or.inr (Or.inr ⟨cells, old⟩))
    · rw [← List.mem_singleton.mp new] at follows
      exact follows

section Images

variable [DecidableEq Txn]

/-- The images a record holds of cell `a` when it is an update of `t`. -/
def Entry.imagesOf (t : Txn) (a : Addr) : Entry Txn Addr Val → Option (Val × Val)
  | .update u cells => if u = t then cells a else none
  | _ => none

/-- The before image of the first update of `t` to cell `a`. -/
def firstBefore (log : List (Entry Txn Addr Val)) (t : Txn) (a : Addr) : Option Val :=
  log.findSome? fun e => (e.imagesOf t a).map Prod.fst

/-- The transactions with a commit record. -/
def committed (log : List (Entry Txn Addr Val)) (t : Txn) : Bool :=
  log.any fun
    | .commit u => u = t
    | _ => false

/-- Redo one record on cell `a` if its transaction is among `C`. -/
def redoStep (C : Txn → Bool) (a : Addr) (v : Val) : Entry Txn Addr Val → Val
  | .update t cells => if C t then ((cells a).map Prod.snd).getD v else v
  | _ => v

/-- Cell `a` after redoing the updates of the transactions in `C`. -/
def redo (C : Txn → Bool) (a : Addr) (log : List (Entry Txn Addr Val)) (v : Val) : Val :=
  log.foldl (redoStep C a) v

/-- Cell `a` after undoing the transactions `opens`, one after the other. -/
def undo (opens : List Txn) (a : Addr) (log : List (Entry Txn Addr Val)) (v : Val) : Val :=
  opens.foldl (fun v t => (firstBefore log t a).getD v) v

/-- What recovery leaves in cell `a`. -/
def recovered (opens : List Txn) (a : Addr) (log : List (Entry Txn Addr Val)) (v : Val) : Val :=
  undo opens a log (redo (committed log) a log v)

/-- The after image of the last update of cell `a` by a committed transaction, or the initial
value. -/
def lastCommitted (a : Addr) (log : List (Entry Txn Addr Val)) (v : Val) : Val :=
  redo (committed log) a log v

/-! ## Reading a log that grows by one record -/

variable {log : List (Entry Txn Addr Val)} {e : Entry Txn Addr Val} {t u : Txn} {a : Addr} {v : Val}

omit [DecidableEq Txn] in
theorem covers_append : Covers (log ++ [e]) t a ↔
    Covers log t a ∨ ∃ cells, e = .update t cells ∧ (cells a).isSome := by
  constructor
  · rintro ⟨cells, member, some⟩
    rcases List.mem_append.mp member with old | new
    · exact Or.inl ⟨cells, old, some⟩
    · exact Or.inr ⟨cells, (List.mem_singleton.mp new).symm, some⟩
  · rintro (⟨cells, member, some⟩ | ⟨cells, rfl, some⟩)
    · exact ⟨cells, List.mem_append_left _ member, some⟩
    · exact ⟨cells, List.mem_append_right _ (List.mem_singleton_self _), some⟩

theorem committed_iff : committed log t = true ↔ Entry.commit t ∈ log := by
  rw [committed, List.any_eq_true]
  constructor
  · rintro ⟨e, member, isCommit⟩
    cases e with
    | commit u =>
      rw [decide_eq_true_eq] at isCommit
      exact isCommit ▸ member
    | start u => cases isCommit
    | update u cells => cases isCommit
    | abort u => cases isCommit
    | mark => cases isCommit
  · exact fun member => ⟨_, member, decide_eq_true rfl⟩

theorem firstBefore_append : firstBefore (log ++ [e]) t a =
    (firstBefore log t a).or ((e.imagesOf t a).map Prod.fst) := by
  rw [firstBefore, List.findSome?_append]
  cases h : e.imagesOf t a with
  | none => simp [firstBefore, h]
  | some images => simp [firstBefore, h]

/-- A before image is on the log exactly for the updated cells. -/
theorem firstBefore_isSome : (firstBefore log t a).isSome ↔ Covers log t a := by
  rw [firstBefore, List.findSome?_isSome_iff]
  constructor
  · rintro ⟨e, member, some⟩
    rw [Option.isSome_map] at some
    cases e with
    | update u cells =>
      rw [Entry.imagesOf] at some
      split at some
      · rename_i same
        exact ⟨cells, same ▸ member, some⟩
      · cases some
    | start u => cases some
    | commit u => cases some
    | abort u => cases some
    | mark => cases some
  · rintro ⟨cells, member, some⟩
    refine ⟨_, member, ?_⟩
    rw [Option.isSome_map, Entry.imagesOf, if_pos rfl]
    exact some

theorem firstBefore_eq_none (uncovered : ¬ Covers log t a) : firstBefore log t a = none := by
  rw [← Option.not_isSome_iff_eq_none, firstBefore_isSome]
  exact uncovered

/-! ## Redo -/

omit [DecidableEq Txn] in
theorem redo_append (C : Txn → Bool) :
    redo C a (log ++ [e]) v = redoStep C a (redo C a log v) e := by
  rw [redo, List.foldl_append]
  rfl

omit [DecidableEq Txn] in
/-- Redo consults its set of transactions only about those that updated the cell. -/
theorem redo_congr {C D : Txn → Bool} (agree : ∀ t, Covers log t a → C t = D t) :
    redo C a log v = redo D a log v := by
  induction log using List.reverseRecOn with
  | nil => rfl
  | append_singleton log e ih =>
    rw [redo_append, redo_append, ih fun t covers => agree t (covers_append.mpr (Or.inl covers))]
    cases e with
    | update t cells =>
      cases images : cells a with
      | none => simp only [redoStep, images, Option.map_none, Option.getD_none, ite_self]
      | some image =>
        have same : C t = D t :=
          agree t (covers_append.mpr (Or.inr ⟨cells, rfl, by rw [images]; rfl⟩))
        simp only [redoStep, same]
    | start t => rfl
    | commit t => rfl
    | abort t => rfl
    | mark => rfl

omit [DecidableEq Txn] in
/-- A cell none of the redone transactions updated keeps its value. -/
theorem redo_of_uncovered {C : Txn → Bool} (uncovered : ∀ t, C t = true → ¬ Covers log t a) :
    redo C a log v = v := by
  have empty : redo C a log v = redo (fun _ => false) a log v :=
    redo_congr fun t covers => by
      rw [Bool.eq_false_iff]
      exact fun redone => uncovered t redone covers
  rw [empty, redo]
  clear empty uncovered
  induction log with
  | nil => rfl
  | cons e log ih =>
    rw [List.foldl_cons]
    cases e <;> exact ih

omit [DecidableEq Txn] in
/-- A cell some redone transaction updated ends up the same from every initial value. -/
theorem redo_of_covered {C : Txn → Bool} (redone : C t = true) (covers : Covers log t a)
    (v w : Val) : redo C a log v = redo C a log w := by
  induction log using List.reverseRecOn with
  | nil => exact absurd covers.choose_spec.1 List.not_mem_nil
  | append_singleton log e ih =>
    rw [redo_append, redo_append]
    rcases covers_append.mp covers with old | ⟨cells, rfl, some⟩
    · rw [ih old]
    · obtain ⟨images, h⟩ := Option.isSome_iff_exists.mp some
      simp only [redoStep, redone, h, if_true, Option.map_some, Option.getD_some]

/-! ## Undo -/

theorem undo_of_uncovered {opens : List Txn} (uncovered : ∀ t ∈ opens, ¬ Covers log t a) :
    undo opens a log v = v := by
  induction opens generalizing v with
  | nil => rfl
  | cons t opens ih =>
    rw [undo, List.foldl_cons, firstBefore_eq_none (uncovered t List.mem_cons_self),
      Option.getD_none]
    exact ih fun u member => uncovered u (List.mem_cons_of_mem t member)

theorem undo_append (opens others : List Txn) :
    undo (opens ++ others) a log v = undo others a log (undo opens a log v) :=
  List.foldl_append

/-- The last undone transaction that updated the cell decides its value. -/
theorem undo_of_last {before after : List Txn} {w : Val} (image : firstBefore log t a = some w)
    (last : ∀ u ∈ after, ¬ Covers log u a) : undo (before ++ t :: after) a log v = w := by
  rw [undo_append]
  change undo after a log ((firstBefore log t a).getD _) = w
  rw [image, Option.getD_some, undo_of_uncovered last]

omit [DecidableEq Txn] in
/-- Of the transactions to undo, one is the last that updated a cell. -/
theorem exists_last {opens : List Txn} (covered : ∃ t ∈ opens, Covers log t a) :
    ∃ before t after, opens = before ++ t :: after ∧ Covers log t a ∧
      ∀ u ∈ after, ¬ Covers log u a := by
  induction opens using List.reverseRecOn with
  | nil => exact absurd covered.choose_spec.1 List.not_mem_nil
  | append_singleton opens u ih =>
    by_cases covers : Covers log u a
    · exact ⟨opens, u, [], rfl, covers, fun _ absent => by cases absent⟩
    · obtain ⟨t, member, coversT⟩ := covered
      have earlier : t ∈ opens := by
        rcases List.mem_append.mp member with old | last
        · exact old
        · rw [List.mem_singleton] at last
          exact absurd (last ▸ coversT) covers
      obtain ⟨before, t, after, rfl, coversT, last⟩ := ih ⟨t, earlier, coversT⟩
      refine ⟨before, t, after ++ [u], by rw [List.append_assoc]; rfl, coversT, fun x member => ?_⟩
      rcases List.mem_append.mp member with old | new
      · exact last x old
      · exact List.mem_singleton.mp new ▸ covers

/-- A cell that one of the undone transactions updated ends up the same from every value. -/
theorem undo_of_covered {opens : List Txn} (covered : ∃ t ∈ opens, Covers log t a) (v w : Val) :
    undo opens a log v = undo opens a log w := by
  obtain ⟨before, t, after, rfl, covers, last⟩ := exists_last covered
  obtain ⟨image, isImage⟩ := Option.isSome_iff_exists.mp (firstBefore_isSome.mpr covers)
  rw [undo_of_last isImage last, undo_of_last isImage last]

/-- A cell only one undone transaction has updated gets that transaction's before image. -/
theorem undo_of_single {opens : List Txn} {w : Val} (member : t ∈ opens)
    (image : firstBefore log t a = some w) (single : ∀ u ∈ opens, Covers log u a → u = t) :
    undo opens a log v = w := by
  induction opens using List.reverseRecOn generalizing v with
  | nil => cases member
  | append_singleton opens u ih =>
    by_cases covers : Covers log u a
    · have same := single u (List.mem_append_right _ (List.mem_singleton_self u)) covers
      exact undo_of_last (same ▸ image) fun _ absent => by cases absent
    · rw [undo_append]
      change (firstBefore log u a).getD (undo opens a log v) = w
      rw [firstBefore_eq_none covers, Option.getD_none]
      refine ih ?_ fun x member => single x (List.mem_append_left _ member)
      rcases List.mem_append.mp member with old | last
      · exact old
      · rw [List.mem_singleton] at last
        exact absurd (firstBefore_isSome.mp (by rw [image]; rfl)) (last ▸ covers)

/-! ## The running system -/

/-- A log and the two versions of every cell. -/
structure Sys (Txn Addr Val : Type*) where
  log : List (Entry Txn Addr Val)
  view : Addr → Val
  durable : Addr → Val

/-- What can happen.  An update names the new values of the cells it writes. -/
inductive Op (Txn Addr Val : Type*)
  | start (t : Txn)
  | update (t : Txn) (cells : Addr → Option Val)
  | commit (t : Txn)
  | abort (t : Txn)
  | mark
  | flush (cells : Addr → Bool)

/-- The record of an update: the images of the cells it writes. -/
def Sys.logged (s : Sys Txn Addr Val) (t : Txn) (cells : Addr → Option Val) :
    Entry Txn Addr Val :=
  .update t fun a => (cells a).map fun v => (s.view a, v)

/-- An update logs the images of the cells it writes; an abort puts the first before images back
and makes everything durable, as a checkpoint does. -/
def Sys.exec (s : Sys Txn Addr Val) : Op Txn Addr Val → Sys Txn Addr Val
  | .start t => { s with log := s.log ++ [.start t] }
  | .update t cells =>
    { s with
      log := s.log ++ [s.logged t cells]
      view := fun a => (cells a).getD (s.view a) }
  | .commit t => { s with log := s.log ++ [.commit t] }
  | .abort t =>
    { log := s.log ++ [.abort t]
      view := fun a => (firstBefore s.log t a).getD (s.view a)
      durable := fun a => (firstBefore s.log t a).getD (s.view a) }
  | .mark => { s with log := s.log ++ [.mark], durable := s.view }
  | .flush cells => { s with durable := fun a => if cells a then s.view a else s.durable a }

/-- The discipline: ids are not reused, a transaction acts only while it is open, and it does not
update a cell another open transaction has updated. -/
def Allowed (log : List (Entry Txn Addr Val)) : Op Txn Addr Val → Prop
  | .start t => Entry.start t ∉ log
  | .update t cells =>
    Open log t ∧ ∀ u, u ≠ t → Open log u → ∀ a, (cells a).isSome → ¬ Covers log u a
  | .commit t => Open log t
  | .abort t => Open log t
  | .mark => True
  | .flush _ => True

/-- The part of the discipline that is about ids. -/
def Admits (log : List (Entry Txn Addr Val)) : Op Txn Addr Val → Prop
  | .start t => Entry.start t ∉ log
  | .update t _ => Open log t
  | .commit t => Open log t
  | .abort t => Open log t
  | .mark => True
  | .flush _ => True

/-- What holds between the log and the cells while the system runs. -/
structure Inv (init : Addr → Val) (s : Sys Txn Addr Val) : Prop where
  /-- only started transactions appear on the log -/
  traced : ∀ t, Entry.commit t ∈ s.log ∨ Entry.abort t ∈ s.log ∨ (∃ a, Covers s.log t a) →
    Entry.start t ∈ s.log
  /-- a cell has at most one open writer -/
  single : ∀ t u a, Open s.log t → Open s.log u → Covers s.log t a → Covers s.log u a → t = u
  /-- a cell without open writer has its last committed value -/
  idle : ∀ a, (∀ t, Open s.log t → ¬ Covers s.log t a) → s.view a = lastCommitted a s.log (init a)
  /-- the first before image of an open writer is the last committed value -/
  before : ∀ t a v, Open s.log t → firstBefore s.log t a = some v →
    v = lastCommitted a s.log (init a)
  /-- committing an open writer would make its value the last committed one -/
  after : ∀ t a, Open s.log t → Covers s.log t a →
    s.view a = redo (fun u => committed s.log u || u = t) a s.log (init a)
  /-- a cell with neither committed nor open writer has its initial value on disk -/
  disk : ∀ a, (∀ t, Open s.log t ∨ committed s.log t = true → ¬ Covers s.log t a) →
    s.durable a = init a

/-- Recovery is exact: whatever was durable at the crash, every cell gets its last committed
value. -/
theorem Inv.recovered_eq {init : Addr → Val} {s : Sys Txn Addr Val} (inv : Inv init s)
    {opens : List Txn} (exact : ∀ t, t ∈ opens ↔ Open s.log t) (a : Addr) :
    recovered opens a s.log (s.durable a) = lastCommitted a s.log (init a) := by
  by_cases writer : ∃ t, Open s.log t ∧ Covers s.log t a
  · obtain ⟨t, isOpen, covers⟩ := writer
    obtain ⟨w, image⟩ := Option.isSome_iff_exists.mp (firstBefore_isSome.mpr covers)
    rw [recovered, undo_of_single ((exact t).mpr isOpen) image fun u member coversU =>
      inv.single u t a ((exact u).mp member) isOpen coversU covers]
    exact inv.before t a w isOpen image
  · have noWriter : ∀ t, Open s.log t → ¬ Covers s.log t a :=
      fun t isOpen covers => writer ⟨t, isOpen, covers⟩
    rw [recovered, undo_of_uncovered fun t member => noWriter t ((exact t).mp member)]
    by_cases redone : ∃ t, committed s.log t = true ∧ Covers s.log t a
    · obtain ⟨t, isCommitted, covers⟩ := redone
      exact redo_of_covered isCommitted covers _ _
    · have kept : s.durable a = init a := inv.disk a fun t status covers =>
        status.elim (fun isOpen => noWriter t isOpen covers)
          (fun isCommitted => redone ⟨t, isCommitted, covers⟩)
      rw [kept]
      rfl

/-! ## Each operation keeps the invariant -/

omit [DecidableEq Txn] in
theorem open_append : Open (log ++ [e]) t ↔
    (Entry.start t ∈ log ∨ e = .start t) ∧ (Entry.commit t ∉ log ∧ e ≠ .commit t) ∧
      (Entry.abort t ∉ log ∧ e ≠ .abort t) := by
  simp only [Open, List.mem_append, List.mem_singleton, not_or, eq_comm]

omit [DecidableEq Txn] in
/-- A record that is neither start, commit nor abort of `t` does not change whether `t` is open. -/
theorem open_append_of_ne (notStart : e ≠ .start t) (notCommit : e ≠ .commit t)
    (notAbort : e ≠ .abort t) : Open (log ++ [e]) t ↔ Open log t := by
  rw [open_append]
  simp only [notStart, or_false, notCommit, not_false_eq_true, and_true, notAbort, Open, ne_eq]

omit [DecidableEq Txn] in
/-- A commit record ends its transaction, and no other. -/
theorem open_append_commit : Open (log ++ [.commit t]) u ↔ Open log u ∧ u ≠ t := by
  rw [open_append]
  simp only [reduceCtorEq, or_false, ne_eq, Entry.commit.injEq, not_false_eq_true, and_true, Open]
  constructor
  · rintro ⟨started, ⟨notCommitted, different⟩, notAborted⟩
    exact ⟨⟨started, notCommitted, notAborted⟩, Ne.symm different⟩
  · rintro ⟨⟨started, notCommitted, notAborted⟩, different⟩
    exact ⟨started, ⟨notCommitted, Ne.symm different⟩, notAborted⟩

omit [DecidableEq Txn] in
/-- So does an abort record. -/
theorem open_append_abort : Open (log ++ [.abort t]) u ↔ Open log u ∧ u ≠ t := by
  rw [open_append]
  simp only [reduceCtorEq, or_false, ne_eq, Entry.abort.injEq, not_false_eq_true, and_true, Open]
  constructor
  · rintro ⟨started, notCommitted, notAborted, different⟩
    exact ⟨⟨started, notCommitted, notAborted⟩, Ne.symm different⟩
  · rintro ⟨⟨started, notCommitted, notAborted⟩, different⟩
    exact ⟨started, notCommitted, notAborted, Ne.symm different⟩

omit [DecidableEq Txn] in
/-- The start record of a new transaction opens it, and no other. -/
theorem Orderly.open_append_start (orderly : Orderly log) (fresh : Entry.start t ∉ log) :
    Open (log ++ [.start t]) u ↔ u = t ∨ Open log u := by
  rw [open_append]
  simp only [Entry.start.injEq, reduceCtorEq, ne_eq, not_false_eq_true, and_true]
  constructor
  · rintro ⟨old | same, notCommitted, notAborted⟩
    · exact Or.inr ⟨old, notCommitted, notAborted⟩
    · exact Or.inl same.symm
  · rintro (rfl | ⟨started, notCommitted, notAborted⟩)
    · exact ⟨Or.inr rfl, fun h => fresh (orderly.started (Or.inl h)),
        fun h => fresh (orderly.started (Or.inr (Or.inl h)))⟩
    · exact ⟨Or.inl started, notCommitted, notAborted⟩

omit [DecidableEq Txn] in
/-- Only a start record opens a transaction. -/
theorem Open.of_append (notStart : e ≠ .start t) (isOpen : Open (log ++ [e]) t) : Open log t := by
  obtain ⟨started, uncommitted, unaborted⟩ := open_append.mp isOpen
  exact ⟨started.resolve_right notStart, uncommitted.1, unaborted.1⟩

omit [DecidableEq Txn] in
theorem covers_append_of_ne (notUpdate : ∀ cells, e ≠ .update t cells) :
    Covers (log ++ [e]) t a ↔ Covers log t a := by
  rw [covers_append, or_iff_left]
  exact fun ⟨cells, same, _⟩ => notUpdate cells same

theorem committed_append_of_ne (notCommit : ∀ u, e ≠ .commit u) :
    committed (log ++ [e]) = committed log := by
  funext t
  rw [Bool.eq_iff_iff, committed_iff, committed_iff, List.mem_append, List.mem_singleton,
    or_iff_left fun same => notCommit t same.symm]

theorem committed_append_commit :
    committed (log ++ [.commit t]) = fun u => committed log u || decide (u = t) := by
  funext u
  rw [Bool.eq_iff_iff, committed_iff, Bool.or_eq_true, committed_iff, List.mem_append,
    List.mem_singleton, Entry.commit.injEq, decide_eq_true_eq]

omit [DecidableEq Txn] in
/-- Only an update record is redone. -/
theorem redo_append_of_ne {C : Txn → Bool} (notUpdate : ∀ t cells, e ≠ .update t cells) :
    redo C a (log ++ [e]) v = redo C a log v := by
  rw [redo_append]
  cases e with
  | update t cells => exact absurd rfl (notUpdate t cells)
  | start t => rfl
  | commit t => rfl
  | abort t => rfl
  | mark => rfl

theorem lastCommitted_append_of_ne (notCommit : ∀ u, e ≠ .commit u)
    (notUpdate : ∀ t cells, e ≠ .update t cells) :
    lastCommitted a (log ++ [e]) v = lastCommitted a log v := by
  rw [lastCommitted, committed_append_of_ne notCommit, redo_append_of_ne notUpdate, lastCommitted]

theorem lastCommitted_append_commit :
    lastCommitted a (log ++ [.commit t]) v =
      redo (fun u => committed log u || decide (u = t)) a log v := by
  rw [lastCommitted, committed_append_commit, redo_append_of_ne fun _ _ h => by cases h]

/-- A transaction that does not appear on the front of a log has its images on the back. -/
theorem firstBefore_append_right {front back : List (Entry Txn Addr Val)}
    (absent : ∀ cells, Entry.update t cells ∉ front) :
    firstBefore (front ++ back) t a = firstBefore back t a := by
  have none : firstBefore front t a = none :=
    firstBefore_eq_none fun ⟨cells, member, _⟩ => absent cells member
  rw [firstBefore, List.findSome?_append]
  change (firstBefore front t a).or (firstBefore back t a) = _
  rw [none, Option.none_or]

/-- Before images are those of the first update, so a longer log does not change them. -/
theorem firstBefore_append_left {front back : List (Entry Txn Addr Val)} (covers : Covers front t a) :
    firstBefore (front ++ back) t a = firstBefore front t a := by
  obtain ⟨w, image⟩ := Option.isSome_iff_exists.mp (firstBefore_isSome.mpr covers)
  rw [firstBefore, List.findSome?_append]
  change (firstBefore front t a).or _ = _
  rw [image, Option.some_or]

theorem firstBefore_append_of_ne (notUpdate : ∀ cells, e ≠ .update t cells) :
    firstBefore (log ++ [e]) t a = firstBefore log t a := by
  rw [firstBefore_append]
  have noImage : e.imagesOf t a = none := by
    cases e with
    | update u cells =>
      rw [Entry.imagesOf, if_neg]
      rintro rfl
      exact notUpdate cells rfl
    | start u => rfl
    | commit u => rfl
    | abort u => rfl
    | mark => rfl
  rw [noImage, Option.map_none, Option.or_none]

section Step

variable {init : Addr → Val} {s : Sys Txn Addr Val}

theorem Inv.empty (init : Addr → Val) : Inv init (⟨[], init, init⟩ : Sys Txn Addr Val) where
  traced t h := by
    rcases h with member | member | ⟨a, cells, member, _⟩ <;> exact absurd member List.not_mem_nil
  single t u a isOpen := absurd isOpen.1 List.not_mem_nil
  idle a _ := rfl
  before t a v isOpen := absurd isOpen.1 List.not_mem_nil
  after t a isOpen := absurd isOpen.1 List.not_mem_nil
  disk a _ := rfl

omit [DecidableEq Txn] in
/-- Two logs over different ids: what is open on their concatenation is open on one of them. -/
theorem open_append_list {front back : List (Entry Txn Addr Val)} (orderly : Orderly front)
    (fresh : ∀ t, Entry.start t ∈ back → Entry.start t ∉ front)
    (traced : ∀ t, Entry.commit t ∈ back ∨ Entry.abort t ∈ back → Entry.start t ∈ back) :
    Open (front ++ back) t ↔ Open front t ∨ Open back t := by
  simp only [Open, List.mem_append, not_or]
  constructor
  · rintro ⟨old | new, ⟨uncommitted, uncommitted'⟩, unaborted, unaborted'⟩
    · exact Or.inl ⟨old, uncommitted, unaborted⟩
    · exact Or.inr ⟨new, uncommitted', unaborted'⟩
  · rintro (⟨started, uncommitted, unaborted⟩ | ⟨started, uncommitted, unaborted⟩)
    · have absent : Entry.start t ∉ back := fun again => fresh t again started
      exact ⟨Or.inl started, ⟨uncommitted, fun h => absent (traced t (Or.inl h))⟩, unaborted,
        fun h => absent (traced t (Or.inr h))⟩
    · have absent := fresh t started
      exact ⟨Or.inr started, ⟨fun h => absent (orderly.started (Or.inl h)), uncommitted⟩,
        fun h => absent (orderly.started (Or.inr (Or.inl h))), unaborted⟩

omit [DecidableEq Txn] in
theorem covers_append_list {front back : List (Entry Txn Addr Val)} :
    Covers (front ++ back) t a ↔ Covers front t a ∨ Covers back t a := by
  simp only [Covers, List.mem_append, or_and_right, exists_or]

/-- An open transaction has not committed. -/
theorem Open.not_committed (isOpen : Open log t) : committed log t = false := by
  rw [Bool.eq_false_iff]
  exact fun isCommitted => isOpen.2.1 (committed_iff.mp isCommitted)

/-- A record of no update and of no end of a transaction keeps the invariant. -/
theorem Inv.silent (inv : Inv init s) (notUpdate : ∀ t cells, e ≠ .update t cells)
    (notCommit : ∀ t, e ≠ .commit t) (notAbort : ∀ t, e ≠ .abort t)
    (fresh : ∀ t, e = .start t → Entry.start t ∉ s.log) :
    Inv init { s with log := s.log ++ [e] } := by
  have covers : ∀ u a, Covers (s.log ++ [e]) u a ↔ Covers s.log u a :=
    fun u a => covers_append_of_ne fun cells => notUpdate u cells
  have opens : ∀ u a, Covers s.log u a → (Open (s.log ++ [e]) u ↔ Open s.log u) := by
    intro u a coversU
    refine open_append_of_ne (fun isStart => ?_) (notCommit u) (notAbort u)
    exact fresh u isStart (inv.traced u (Or.inr (Or.inr ⟨a, coversU⟩)))
  have same : ∀ a v, lastCommitted a (s.log ++ [e]) v = lastCommitted a s.log v :=
    fun a v => lastCommitted_append_of_ne notCommit notUpdate
  have sameCommitted : committed (s.log ++ [e]) = committed s.log := committed_append_of_ne notCommit
  constructor
  · intro u appears
    refine List.mem_append_left _ (inv.traced u ?_)
    rcases appears with isCommitted | isAborted | ⟨a, coversU⟩
    · refine Or.inl ((List.mem_append.mp isCommitted).resolve_right fun new => ?_)
      exact notCommit u (List.mem_singleton.mp new).symm
    · refine Or.inr (Or.inl ((List.mem_append.mp isAborted).resolve_right fun new => ?_))
      exact notAbort u (List.mem_singleton.mp new).symm
    · exact Or.inr (Or.inr ⟨a, (covers u a).mp coversU⟩)
  · intro u w a openU openW coversU coversW
    rw [covers] at coversU coversW
    exact inv.single u w a ((opens u a coversU).mp openU) ((opens w a coversW).mp openW)
      coversU coversW
  · intro a idle
    refine (inv.idle a fun u openU coversU => ?_).trans (same a _).symm
    exact idle u ((opens u a coversU).mpr openU) ((covers u a).mpr coversU)
  · intro u a v openU image
    have image' : firstBefore s.log u a = some v := by
      rw [← image]
      exact (firstBefore_append_of_ne fun cells => notUpdate u cells).symm
    have coversU := firstBefore_isSome.mp (by rw [image']; rfl)
    exact (inv.before u a v ((opens u a coversU).mp openU) image').trans (same a _).symm
  · intro u a openU coversU
    rw [covers] at coversU
    refine (inv.after u a ((opens u a coversU).mp openU) coversU).trans ?_
    simp only [sameCommitted]
    exact (redo_append_of_ne notUpdate).symm
  · intro a uncovered
    refine inv.disk a fun u status coversU => ?_
    refine uncovered u ?_ ((covers u a).mpr coversU)
    rw [sameCommitted]
    exact status.imp_left (opens u a coversU).mpr

omit [DecidableEq Txn] in
theorem covers_append_logged {cells : Addr → Option Val} :
    Covers (log ++ [s.logged t cells]) u a ↔ Covers log u a ∨ (u = t ∧ (cells a).isSome) := by
  rw [covers_append]
  refine or_congr_right ⟨?_, ?_⟩
  · rintro ⟨written, same, some⟩
    cases same
    exact ⟨rfl, by rwa [Option.isSome_map] at some⟩
  · rintro ⟨rfl, some⟩
    exact ⟨_, rfl, by rwa [Option.isSome_map]⟩

theorem Inv.start (inv : Inv init s) (fresh : Entry.start t ∉ s.log) :
    Inv init (s.exec (.start t)) := by
  refine inv.silent (fun _ _ h => by cases h) (fun _ h => by cases h) (fun _ h => by cases h) ?_
  intro u isStart
  cases isStart
  exact fresh

section Update

variable {cells : Addr → Option Val}

omit [DecidableEq Txn] in
theorem open_append_logged : Open (log ++ [s.logged t cells]) u ↔ Open log u :=
  open_append_of_ne (fun h => by cases h) (fun h => by cases h) fun h => by cases h

theorem committed_append_logged : committed (log ++ [s.logged t cells]) = committed log :=
  committed_append_of_ne fun _ h => by cases h

/-- The update of an open transaction is not redone. -/
theorem Open.lastCommitted_append_logged (openT : Open log t) :
    lastCommitted a (log ++ [s.logged t cells]) v = lastCommitted a log v := by
  rw [lastCommitted, committed_append_logged, redo_append, Sys.logged, redoStep,
    openT.not_committed, if_neg Bool.false_ne_true, lastCommitted]

theorem firstBefore_append_logged (first : ¬ Covers log t a) :
    firstBefore (log ++ [s.logged t cells]) t a = (cells a).map fun _ => s.view a := by
  rw [firstBefore_append, firstBefore_eq_none first, Option.none_or, Sys.logged, Entry.imagesOf,
    if_pos rfl, Option.map_map]
  rfl

variable (allowed : Allowed s.log (.update t cells))

include allowed

omit [DecidableEq Txn] in
/-- An open transaction that has updated a cell the update writes is the updating one. -/
theorem writer_of_covers (openU : Open s.log u) (written : (cells a).isSome)
    (covers : Covers s.log u a) : u = t := by
  by_contra different
  exact allowed.2 u different openU a written covers

omit [DecidableEq Txn] in
theorem writer_of_covers_logged (openU : Open s.log u) (written : (cells a).isSome)
    (covers : Covers (s.log ++ [s.logged t cells]) u a) : u = t := by
  rcases covers_append_logged.mp covers with old | ⟨same, -⟩
  · exact writer_of_covers allowed openU written old
  · exact same

theorem Inv.update_traced (inv : Inv init s)
    (appears : Entry.commit u ∈ s.log ++ [s.logged t cells] ∨
      Entry.abort u ∈ s.log ++ [s.logged t cells] ∨
      ∃ a, Covers (s.log ++ [s.logged t cells]) u a) :
    Entry.start u ∈ s.log ++ [s.logged t cells] := by
  apply List.mem_append_left
  rcases appears with member | member | ⟨a, covers⟩
  · rcases List.mem_append.mp member with old | new
    · exact inv.traced u (Or.inl old)
    · cases List.mem_singleton.mp new
  · rcases List.mem_append.mp member with old | new
    · exact inv.traced u (Or.inr (Or.inl old))
    · cases List.mem_singleton.mp new
  · rcases covers_append_logged.mp covers with old | ⟨rfl, -⟩
    · exact inv.traced u (Or.inr (Or.inr ⟨a, old⟩))
    · exact allowed.1.1

theorem Inv.update_single (inv : Inv init s) {w : Txn} (openU : Open s.log u)
    (openW : Open s.log w) (coversU : Covers (s.log ++ [s.logged t cells]) u a)
    (coversW : Covers (s.log ++ [s.logged t cells]) w a) : u = w := by
  by_cases written : (cells a).isSome
  · exact (writer_of_covers_logged allowed openU written coversU).trans
      (writer_of_covers_logged allowed openW written coversW).symm
  · have old : ∀ x, Covers (s.log ++ [s.logged t cells]) x a → Covers s.log x a :=
      fun x covers => (covers_append_logged.mp covers).resolve_right fun h => written h.2
    exact inv.single u w a openU openW (old u coversU) (old w coversW)

theorem Inv.update_idle (inv : Inv init s)
    (idle : ∀ u, Open s.log u → ¬ Covers (s.log ++ [s.logged t cells]) u a) :
    (cells a).getD (s.view a) = lastCommitted a s.log (init a) := by
  have notWritten : cells a = none := by
    rw [← Option.not_isSome_iff_eq_none]
    exact fun written => idle t allowed.1 (covers_append_logged.mpr (Or.inr ⟨rfl, written⟩))
  rw [notWritten, Option.getD_none]
  exact inv.idle a fun u openU covers => idle u openU (covers_append_logged.mpr (Or.inl covers))

theorem Inv.update_before (inv : Inv init s) (openU : Open s.log u)
    (image : firstBefore (s.log ++ [s.logged t cells]) u a = some v) :
    v = lastCommitted a s.log (init a) := by
  by_cases old : Covers s.log u a
  · rw [firstBefore_append_left old] at image
    exact inv.before u a v openU image
  · -- the first update of this cell: its before image is the idle value
    have covers := firstBefore_isSome.mp (Option.isSome_iff_exists.mpr ⟨v, image⟩)
    obtain ⟨rfl, written⟩ := (covers_append_logged.mp covers).resolve_left old
    obtain ⟨w, isSome⟩ := Option.isSome_iff_exists.mp written
    rw [firstBefore_append_logged old, isSome, Option.map_some, Option.some.injEq] at image
    rw [← image]
    refine inv.idle a fun x openX coversX => old ?_
    exact writer_of_covers allowed openX written coversX ▸ coversX

theorem Inv.update_after (inv : Inv init s) (openU : Open s.log u)
    (covers : Covers (s.log ++ [s.logged t cells]) u a) :
    (cells a).getD (s.view a) = redo (fun x => committed s.log x || x = u) a
      (s.log ++ [s.logged t cells]) (init a) := by
  rw [redo_append, Sys.logged]
  cases written : cells a with
  | none =>
    have old := (covers_append_logged.mp covers).resolve_right fun h => by
      rw [written] at h
      exact Bool.false_ne_true h.2
    simp only [redoStep, written, Option.map_none, Option.getD_none, ite_self]
    exact inv.after u a openU old
  | some w =>
    have owner : u = t := writer_of_covers_logged allowed openU (by rw [written]; rfl) covers
    simp [redoStep, written, owner]

theorem Inv.update (inv : Inv init s) : Inv init (s.exec (.update t cells)) where
  traced _ := inv.update_traced allowed
  single _ _ _ openU openW :=
    inv.update_single allowed (open_append_logged.mp openU) (open_append_logged.mp openW)
  idle _ idle :=
    (inv.update_idle allowed fun u openU => idle u (open_append_logged.mpr openU)).trans
      allowed.1.lastCommitted_append_logged.symm
  before _ _ _ openU image :=
    (inv.update_before allowed (open_append_logged.mp openU) image).trans
      allowed.1.lastCommitted_append_logged.symm
  after u a openU covers := by
    simp only [Sys.exec, committed_append_logged]
    exact inv.update_after allowed (open_append_logged.mp openU) covers
  disk a uncovered := by
    refine inv.disk a fun u status covers => ?_
    refine uncovered u ?_ (covers_append_logged.mpr (Or.inl covers))
    rw [Sys.exec, committed_append_logged]
    exact status.imp_left open_append_logged.mpr

end Update

theorem Inv.commit (inv : Inv init s) (openT : Open s.log t) :
    Inv init (s.exec (.commit t)) := by
  have covers : ∀ u a, Covers (s.log ++ [.commit t]) u a ↔ Covers s.log u a :=
    fun u a => covers_append_of_ne fun _ h => by cases h
  have opens : ∀ u, Open (s.log ++ [.commit t]) u ↔ Open s.log u ∧ u ≠ t := fun _ => open_append_commit
  -- a cell another transaction may still touch was not updated by `t`
  have same : ∀ a v, ¬ Covers s.log t a →
      lastCommitted a (s.log ++ [.commit t]) v = lastCommitted a s.log v := by
    intro a v uncovered
    rw [lastCommitted_append_commit]
    refine redo_congr fun u coversU => ?_
    have different : u ≠ t := by
      rintro rfl
      exact uncovered coversU
    rw [decide_eq_false different, Bool.or_false]
  have otherOpen : ∀ u a, Open s.log u → u ≠ t → Covers s.log u a → ¬ Covers s.log t a :=
    fun u a openU different coversU coversT =>
      different (inv.single u t a openU openT coversU coversT)
  constructor
  · intro u h
    simp only [Sys.exec, List.mem_append, List.mem_singleton, reduceCtorEq, or_false,
      Entry.commit.injEq, covers] at h ⊢
    rcases h with (member | rfl) | member | written
    · exact inv.traced u (Or.inl member)
    · exact openT.1
    · exact inv.traced u (Or.inr (Or.inl member))
    · exact inv.traced u (Or.inr (Or.inr written))
  · intro u w a openU openW coversU coversW
    rw [Sys.exec, opens] at openU openW
    rw [Sys.exec, covers] at coversU coversW
    exact inv.single u w a openU.1 openW.1 coversU coversW
  · intro a idle
    by_cases coversT : Covers s.log t a
    · exact (inv.after t a openT coversT).trans lastCommitted_append_commit.symm
    · refine (inv.idle a fun u openU coversU => ?_).trans (same a _ coversT).symm
      refine idle u ((opens u).mpr ⟨openU, ?_⟩) ((covers u a).mpr coversU)
      rintro rfl
      exact coversT coversU
  · intro u a v openU image
    rw [Sys.exec, opens] at openU
    rw [Sys.exec, firstBefore_append_of_ne fun _ h => by cases h] at image
    have coversU := firstBefore_isSome.mp (show (firstBefore s.log u a).isSome by rw [image]; rfl)
    exact (inv.before u a v openU.1 image).trans
      (same a _ (otherOpen u a openU.1 openU.2 coversU)).symm
  · intro u a openU coversU
    rw [Sys.exec, opens] at openU
    rw [Sys.exec, covers] at coversU
    refine (inv.after u a openU.1 coversU).trans ?_
    simp only [Sys.exec, committed_append_commit]
    rw [redo_append_of_ne fun _ _ h => by cases h]
    refine redo_congr fun w coversW => ?_
    have different : w ≠ t := by
      rintro rfl
      exact otherOpen u a openU.1 openU.2 coversU coversW
    rw [decide_eq_false different, Bool.or_false]
  · intro a uncovered
    refine inv.disk a fun u status coversU => ?_
    refine uncovered u ?_ ((covers u a).mpr coversU)
    simp only [Sys.exec, opens, committed_append_commit, Bool.or_eq_true, decide_eq_true_eq]
    by_cases isT : u = t
    · exact Or.inr (Or.inr isT)
    · exact status.imp (fun openU => ⟨openU, isT⟩) Or.inl

/-- Rollback gives every cell of an open transaction its last committed value. -/
theorem Inv.rollback_eq (inv : Inv init s) (openT : Open s.log t) (a : Addr)
    (idle : ∀ u, Open s.log u → u ≠ t → ¬ Covers s.log u a) :
    (firstBefore s.log t a).getD (s.view a) = lastCommitted a s.log (init a) := by
  cases image : firstBefore s.log t a with
  | none =>
    refine inv.idle a fun u openU coversU => ?_
    by_cases isT : u = t
    · have some := firstBefore_isSome.mpr coversU
      rw [isT, image] at some
      cases some
    · exact idle u openU isT coversU
  | some v => exact inv.before t a v openT image

theorem Inv.abort (inv : Inv init s) (openT : Open s.log t) :
    Inv init (s.exec (.abort t)) := by
  have covers : ∀ u a, Covers (s.log ++ [.abort t]) u a ↔ Covers s.log u a :=
    fun u a => covers_append_of_ne fun _ h => by cases h
  have opens : ∀ u, Open (s.log ++ [.abort t]) u ↔ Open s.log u ∧ u ≠ t := fun _ => open_append_abort
  have same : ∀ a v, lastCommitted a (s.log ++ [.abort t]) v = lastCommitted a s.log v :=
    fun a v => lastCommitted_append_of_ne (fun _ h => by cases h) fun _ _ h => by cases h
  have sameCommitted : committed (s.log ++ [.abort t]) = committed s.log :=
    committed_append_of_ne fun _ h => by cases h
  have restored : ∀ a, (∀ u, Open s.log u → u ≠ t → ¬ Covers s.log u a) →
      (firstBefore s.log t a).getD (s.view a) = lastCommitted a s.log (init a) :=
    fun a idle => inv.rollback_eq openT a idle
  constructor
  · intro u h
    simp only [Sys.exec, List.mem_append, List.mem_singleton, reduceCtorEq, or_false,
      Entry.abort.injEq, covers] at h ⊢
    rcases h with member | (member | rfl) | written
    · exact inv.traced u (Or.inl member)
    · exact inv.traced u (Or.inr (Or.inl member))
    · exact openT.1
    · exact inv.traced u (Or.inr (Or.inr written))
  · intro u w a openU openW coversU coversW
    rw [Sys.exec, opens] at openU openW
    rw [Sys.exec, covers] at coversU coversW
    exact inv.single u w a openU.1 openW.1 coversU coversW
  · intro a idle
    refine (restored a fun u openU different coversU => ?_).trans (same a _).symm
    exact idle u ((opens u).mpr ⟨openU, different⟩) ((covers u a).mpr coversU)
  · intro u a v openU image
    rw [Sys.exec, opens] at openU
    rw [Sys.exec, firstBefore_append_of_ne fun _ h => by cases h] at image
    exact (inv.before u a v openU.1 image).trans (same a _).symm
  · intro u a openU coversU
    rw [Sys.exec, opens] at openU
    rw [Sys.exec, covers] at coversU
    have untouched : firstBefore s.log t a = none := firstBefore_eq_none fun coversT =>
      openU.2 (inv.single u t a openU.1 openT coversU coversT)
    simp only [Sys.exec, sameCommitted, untouched, Option.getD_none]
    rw [redo_append_of_ne fun _ _ h => by cases h]
    exact inv.after u a openU.1 coversU
  · intro a uncovered
    simp only [Sys.exec, sameCommitted, covers] at uncovered ⊢
    rw [restored a fun u openU different => uncovered u (Or.inl ((opens u).mpr ⟨openU, different⟩))]
    exact redo_of_uncovered fun u isCommitted => uncovered u (Or.inr isCommitted)

/-- Making any cells durable keeps the invariant. -/
theorem Inv.flush (inv : Inv init s) (cells : Addr → Bool) : Inv init (s.exec (.flush cells)) where
  traced := inv.traced
  single := inv.single
  idle := inv.idle
  before := inv.before
  after := inv.after
  disk a uncovered := by
    simp only [Sys.exec]
    split
    · rw [inv.idle a fun u openU => uncovered u (Or.inl openU)]
      exact redo_of_uncovered fun u isCommitted => uncovered u (Or.inr isCommitted)
    · exact inv.disk a uncovered

/-- A checkpoint is a record and a flush. -/
theorem Inv.mark (inv : Inv init s) : Inv init (s.exec .mark) := by
  have recorded : Inv init { s with log := s.log ++ [.mark] } :=
    inv.silent (fun _ _ h => by cases h) (fun _ h => by cases h) (fun _ h => by cases h)
      fun _ h => by cases h
  exact recorded.flush fun _ => true

theorem Inv.exec {op : Op Txn Addr Val} (inv : Inv init s) (allowed : Allowed s.log op) :
    Inv init (s.exec op) := by
  cases op with
  | start t => exact inv.start allowed
  | update t cells => exact inv.update allowed
  | commit t => exact inv.commit allowed
  | abort t => exact inv.abort allowed
  | mark => exact inv.mark
  | flush cells => exact inv.flush cells

end Step

end Images

/-! ## Writing again -/

section Writes

variable {ι : Type*} {w : ι → Option Val} {xs ys : List ι}

/-- What a sequence of writes leaves in a cell: the value of the last one that reaches it. -/
def written (w : ι → Option Val) (xs : List ι) (v : Val) : Val :=
  xs.foldl (fun v x => (w x).getD v) v

theorem written_append (v : Val) : written w (xs ++ ys) v = written w ys (written w xs v) :=
  List.foldl_append

theorem written_of_unreached (unreached : ∀ x ∈ xs, w x = none) (v : Val) : written w xs v = v := by
  induction xs generalizing v with
  | nil => rfl
  | cons x xs ih =>
    rw [written, List.foldl_cons, unreached x List.mem_cons_self]
    exact ih (fun y member => unreached y (List.mem_cons_of_mem x member)) v

/-- A cell that is reached does not depend on what was there. -/
theorem written_of_reached {x : ι} (member : x ∈ xs) (reaches : w x ≠ none) (u v : Val) :
    written w xs u = written w xs v := by
  induction xs generalizing u v with
  | nil => cases member
  | cons y xs ih =>
    rw [written, List.foldl_cons, written, List.foldl_cons]
    rcases List.mem_cons.mp member with rfl | later
    · obtain ⟨value, same⟩ := Option.ne_none_iff_exists'.mp reaches
      rw [same, Option.getD_some, Option.getD_some]
    · exact ih later _ _

/-- Writing all over what a part of the sequence has left is writing all. -/
theorem written_again (part : ∀ y ∈ ys, y ∈ xs) (v : Val) :
    written w xs (written w ys v) = written w xs v := by
  by_cases reached : ∃ y ∈ ys, w y ≠ none
  · obtain ⟨y, member, reaches⟩ := reached
    exact written_of_reached (part y member) reaches _ _
  · have unreached : ∀ y ∈ ys, w y = none := fun y member =>
      by_contra fun reaches => reached ⟨y, member, reaches⟩
    rw [written_of_unreached unreached]

end Writes

end UndoRedo
