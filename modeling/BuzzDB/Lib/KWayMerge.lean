import Mathlib.Algebra.Order.Ring.Nat
import Mathlib.Data.List.Sort
import Mathlib.Data.Multiset.MapFold

/-!
# Merging sorted runs

The merge of any number of runs through a priority queue that holds the head of every
run not yet used up.  `Merges` says which outputs a merge can have, `Heads` ties the
queue to the runs; both are over an arbitrary element type, and `Heads` over
arbitrary queue entries that carry a value and the number of its run.
-/

namespace KWayMerge

variable {α ε : Type*}

/-! ## Priority queues -/

/-- A priority queue, with the multiset of its entries: `pop` yields an entry that is not greater
than any other one. -/
structure PriorityQueue (ε : Type*) (greater : ε → ε → Bool) where
  Queue : Type
  contents : Queue → Multiset ε
  empty : Queue
  push : ε → Queue → Queue
  pop : Queue → Option (ε × Queue)
  contents_empty : contents empty = 0
  contents_push : ∀ e q, contents (push e q) = e ::ₘ contents q
  contents_pop : ∀ {q e q'}, pop q = some (e, q') → contents q = e ::ₘ contents q'
  pop_least : ∀ {q e q'}, pop q = some (e, q') → ∀ other ∈ contents q', greater e other = false
  pop_none : ∀ {q}, pop q = none → contents q = 0

/-- The queue that keeps its entries in ascending order. -/
def PriorityQueue.sorted {ε : Type} (greater : ε → ε → Bool)
    (total : ∀ a b, greater a b = false ∨ greater b a = false)
    (trans : ∀ a b c, greater a b = false → greater b c = false → greater a c = false) :
    PriorityQueue ε greater where
  Queue := { entries : List ε // entries.Pairwise fun a b => greater a b = false }
  contents q := q.1
  empty := ⟨[], List.Pairwise.nil⟩
  push e q :=
    have : Std.Total fun a b : ε => greater a b = false := ⟨total⟩
    have : IsTrans ε fun a b => greater a b = false := ⟨trans⟩
    ⟨List.orderedInsert (fun a b => greater a b = false) e q.1, q.2.orderedInsert e q.1⟩
  pop q :=
    match q with
    | ⟨[], _⟩ => none
    | ⟨e :: rest, ordered⟩ => some (e, ⟨rest, (List.pairwise_cons.mp ordered).2⟩)
  contents_empty := rfl
  contents_push e q := Multiset.coe_eq_coe.mpr (List.perm_orderedInsert _ e q.1)
  contents_pop {q e q'} popped := by
    match q with
    | ⟨_ :: _, _⟩ =>
      cases popped
      rfl
  pop_least {q e q'} popped other member := by
    match q with
    | ⟨_ :: _, ordered⟩ =>
      cases popped
      exact (List.pairwise_cons.mp ordered).1 other member
  pop_none {q} empty := by
    match q with
    | ⟨[], _⟩ => rfl

/-! ## Merges -/

/-- `out` is a merge of `runs`: every element taken is a head not above any other head. -/
inductive Merges [LE α] : List (List α) → List α → Prop
  | done {runs : List (List α)} (used : ∀ run ∈ runs, run = []) : Merges runs []
  | take {runs : List (List α)} {out : List α} {i : Nat} {x : α} {xs : List α}
      (head : runs[i]? = some (x :: xs))
      (least : ∀ (j : Nat) (y : α) (ys : List α), runs[j]? = some (y :: ys) → x ≤ y) (rest : Merges (runs.set i xs) out) :
      Merges runs (x :: out)

variable {runs : List (List α)} {i : Nat} {x : α} {xs out : List α}

/-- Taking a head takes one element. -/
theorem flatten_set (head : runs[i]? = some (x :: xs)) :
    runs.flatten.Perm (x :: (runs.set i xs).flatten) := by
  induction runs generalizing i with
  | nil => cases head
  | cons run runs ih =>
    cases i with
    | zero =>
      obtain rfl : run = x :: xs := Option.some.inj head
      exact List.Perm.refl _
    | succ i =>
      rw [List.flatten_cons, List.set_cons_succ, List.flatten_cons]
      exact ((ih head).append_left run).trans List.perm_middle

theorem length_flatten_set (head : runs[i]? = some (x :: xs)) :
    runs.flatten.length = (runs.set i xs).flatten.length + 1 :=
  (flatten_set head).length_eq

/-- A merge has exactly the elements of the runs. -/
theorem Merges.perm [LE α] (merges : Merges runs out) : out.Perm runs.flatten := by
  induction merges with
  | done used =>
    rw [List.flatten_eq_nil_iff.mpr used]
  | take head _ _ ih => exact (ih.cons _).trans (flatten_set head).symm

/-- Replacing a run keeps what holds of all runs, if it holds of the new one. -/
theorem forall_set {P : List α → Prop} (all : ∀ run ∈ runs, P run) (new : P xs) (i : Nat) :
    ∀ run ∈ runs.set i xs, P run := by
  intro run member
  rcases List.mem_or_eq_of_mem_set member with old | rfl
  · exact all run old
  · exact new

/-- Merging sorted runs sorts. -/
theorem Merges.pairwise [LE α] [Std.IsPreorder α] (merges : Merges runs out)
    (sorted : ∀ run ∈ runs, run.Pairwise (· ≤ ·)) : out.Pairwise (· ≤ ·) := by
  induction merges with
  | done _ => exact List.Pairwise.nil
  | @take runs out i x xs head least rest ih =>
    have ofHead := sorted _ (List.mem_of_getElem? head)
    have tail := (List.pairwise_cons.mp ofHead).2
    refine List.pairwise_cons.mpr ⟨fun z member => ?_, ih (forall_set sorted tail i)⟩
    -- an element behind `x` stands in a run behind its head
    have inRuns : z ∈ runs.flatten :=
      (flatten_set head).mem_iff.mpr (List.mem_cons_of_mem x (rest.perm.mem_iff.mp member))
    obtain ⟨run, ofRuns, inRun⟩ := List.mem_flatten.mp inRuns
    obtain ⟨j, atJ⟩ := List.getElem?_of_mem ofRuns
    cases run with
    | nil => cases inRun
    | cons y ys =>
      have first := least j y ys atJ
      rcases List.mem_cons.mp inRun with rfl | later
      · exact first
      · exact Std.IsPreorder.le_trans x y z first
          ((List.pairwise_cons.mp (sorted _ ofRuns)).1 z later)

/-! ## The queue of the heads -/

/-- The entries of the queue are the heads of the runs that are not used up, one for each. -/
structure Heads (run : ε → Nat) (value : ε → α) (entries : Multiset ε) (runs : List (List α)) :
    Prop where
  head : ∀ e ∈ entries, ∃ xs, runs[run e]? = some (value e :: xs)
  present : ∀ i x xs, runs[i]? = some (x :: xs) → ∃ e ∈ entries, run e = i
  nodup : (entries.map run).Nodup

variable {run : ε → Nat} {value : ε → α} {entries : Multiset ε} {e : ε}

theorem Heads.nil : Heads run value 0 [] where
  head _ absent := absurd absent (Multiset.notMem_zero _)
  present i x xs head := by cases head
  nodup := Multiset.nodup_zero

/-- A further run brings a further entry. -/
theorem Heads.append (heads : Heads run value entries runs) (isLast : run e = runs.length)
    (isHead : value e = x) : Heads run value (e ::ₘ entries) (runs ++ [x :: xs]) where
  head e' member := by
    rcases Multiset.mem_cons.mp member with rfl | old
    · exact ⟨xs, by rw [isLast, isHead, List.getElem?_concat_length]⟩
    · obtain ⟨ys, atRun⟩ := heads.head e' old
      have inside := (List.getElem?_eq_some_iff.mp atRun).1
      exact ⟨ys, by rw [List.getElem?_append_left inside, atRun]⟩
  present i y ys atI := by
    by_cases inside : i < runs.length
    · rw [List.getElem?_append_left inside] at atI
      obtain ⟨e', member, isRun⟩ := heads.present i y ys atI
      exact ⟨e', Multiset.mem_cons_of_mem member, isRun⟩
    · have bound := (List.getElem?_eq_some_iff.mp atI).1
      rw [List.length_append, List.length_singleton] at bound
      exact ⟨e, Multiset.mem_cons_self _ _, by omega⟩
  nodup := by
    rw [Multiset.map_cons, Multiset.nodup_cons]
    refine ⟨fun again => ?_, heads.nodup⟩
    obtain ⟨e', member, isRun⟩ := Multiset.mem_map.mp again
    obtain ⟨ys, atRun⟩ := heads.head e' member
    have inside := (List.getElem?_eq_some_iff.mp atRun).1
    omega

/-- The other entries are of other runs. -/
theorem Heads.ne (heads : Heads run value (e ::ₘ entries) runs) {e' : ε} (member : e' ∈ entries) :
    run e' ≠ run e := by
  have nodup := heads.nodup
  rw [Multiset.map_cons, Multiset.nodup_cons] at nodup
  exact fun same => nodup.1 (same ▸ Multiset.mem_map_of_mem run member)

/-- An entry that is least in the queue is least among the heads. -/
theorem Heads.least [LE α] [Std.IsPreorder α] (heads : Heads run value (e ::ₘ entries) runs)
    (least : ∀ e' ∈ entries, value e ≤ value e') (j : Nat) (y : α) (ys : List α)
    (head : runs[j]? = some (y :: ys)) : value e ≤ y := by
  obtain ⟨e', member, rfl⟩ := heads.present j y ys head
  obtain ⟨zs, head'⟩ := heads.head e' member
  rw [head, Option.some.injEq, List.cons.injEq] at head'
  rw [head'.1]
  rcases Multiset.mem_cons.mp member with rfl | other
  · exact Std.IsPreorder.le_refl _
  · exact least e' other

/-- When a run is used up, its entry goes. -/
theorem Heads.exhausted (heads : Heads run value (e ::ₘ entries) runs) :
    Heads run value entries (runs.set (run e) []) where
  head e' member := by
    obtain ⟨ys, atRun⟩ := heads.head e' (Multiset.mem_cons_of_mem member)
    exact ⟨ys, by rw [List.getElem?_set_ne (heads.ne member).symm, atRun]⟩
  present j y ys atJ := by
    by_cases same : run e = j
    · subst same
      rw [List.getElem?_set_self'] at atJ
      obtain ⟨_, _, new⟩ := Option.map_eq_some_iff.mp atJ
      cases new
    · rw [List.getElem?_set_ne same] at atJ
      obtain ⟨e', member, isRun⟩ := heads.present j y ys atJ
      rcases Multiset.mem_cons.mp member with rfl | other
      · exact absurd isRun same
      · exact ⟨e', other, isRun⟩
  nodup := by
    have nodup := heads.nodup
    rw [Multiset.map_cons, Multiset.nodup_cons] at nodup
    exact nodup.2

/-- The next element of the run replaces the entry. -/
theorem Heads.refill (heads : Heads run value (e ::ₘ entries) runs) {e' : ε} {y : α} {ys : List α}
    (sameRun : run e' = run e) (isNext : value e' = y) :
    Heads run value (e' ::ₘ entries) (runs.set (run e) (y :: ys)) where
  head other member := by
    rcases Multiset.mem_cons.mp member with rfl | old
    · obtain ⟨xs, atRun⟩ := heads.head e (Multiset.mem_cons_self _ _)
      have inside := (List.getElem?_eq_some_iff.mp atRun).1
      exact ⟨ys, by rw [sameRun, List.getElem?_set_self inside, isNext]⟩
    · exact heads.exhausted.head other old |>.imp fun zs atRun => by
        rw [List.getElem?_set_ne (heads.ne old).symm] at atRun ⊢
        exact atRun
  present j z zs atJ := by
    by_cases same : run e = j
    · exact ⟨e', Multiset.mem_cons_self _ _, sameRun.trans same⟩
    · rw [List.getElem?_set_ne same] at atJ
      obtain ⟨other, member, isRun⟩ := heads.present j z zs atJ
      rcases Multiset.mem_cons.mp member with rfl | rest
      · exact absurd isRun same
      · exact ⟨other, Multiset.mem_cons_of_mem rest, isRun⟩
  nodup := by
    have nodup := heads.nodup
    rw [Multiset.map_cons] at nodup ⊢
    rwa [sameRun]

/-- An empty queue means that all runs are used up. -/
theorem Heads.used (heads : Heads run value 0 runs) : ∀ run ∈ runs, run = [] := by
  intro xs member
  obtain ⟨i, atI⟩ := List.getElem?_of_mem member
  cases xs with
  | nil => rfl
  | cons x xs =>
    obtain ⟨e, absent, _⟩ := heads.present i x xs atI
    exact absurd absent (Multiset.notMem_zero e)

end KWayMerge
