import BuzzDB.Lib.StdSet
import Mathlib.Data.String.Basic

/-!
# Joins and sets of joins

`LogicalJoinNode` of lab 4 and the sets that the join optimizer makes of them.  The
comparison of two joins looks at their tables and fields, the key, and not at the
operator.
-/

namespace BuzzDB.Optimizer

/-- The enumerators of `PredicateType` that the code uses. -/
inductive PredicateType
  | eq
  | ne
  | lt
  | le
  | gt
  | ge
  deriving DecidableEq

/-- `LogicalJoinNode`. -/
structure LogicalJoinNode where
  leftTable : String
  rightTable : String
  leftField : UInt64
  rightField : UInt64
  op : PredicateType
  deriving DecidableEq

/-- What `std::tie` ties together. -/
abbrev JoinKey := String × String × UInt64 × UInt64

/-- `operator<` of two keys; strings compare by their bytes, which is the order of their code
points. -/
def keyLt : JoinKey → JoinKey → Bool :=
  StdSet.pairLt (fun s t => decide (s < t))
    (StdSet.pairLt (fun s t => decide (s < t))
      (StdSet.pairLt (fun m n => decide (m < n)) fun m n => decide (m < n)))

namespace LogicalJoinNode

def key (j : LogicalJoinNode) : JoinKey := (j.leftTable, j.rightTable, j.leftField, j.rightField)

/-- `operator<`. -/
def less (j k : LogicalJoinNode) : Bool := keyLt j.key k.key

/-- `operator==`. -/
def equal (j k : LogicalJoinNode) : Bool := decide (j.key = k.key)

/-- `swap_inner_outer`. -/
def swapInnerOuter (j : LogicalJoinNode) : LogicalJoinNode :=
  ⟨j.rightTable, j.leftTable, j.rightField, j.leftField, j.op⟩

/-- One of the two sides is the table. -/
def Mentions (j : LogicalJoinNode) (table : String) : Prop :=
  j.leftTable = table ∨ j.rightTable = table

instance (j : LogicalJoinNode) (table : String) : Decidable (j.Mentions table) :=
  inferInstanceAs (Decidable (_ ∨ _))

end LogicalJoinNode

/-- A `std::set<LogicalJoinNode>`. -/
abbrev JoinSet := List LogicalJoinNode

namespace JoinSet

def insert (s : JoinSet) (j : LogicalJoinNode) : JoinSet := StdSet.insert LogicalJoinNode.less j s

/-- `erase` by key. -/
def erase (s : JoinSet) (j : LogicalJoinNode) : JoinSet := s.filter fun k => !k.equal j

/-- What a map with join sets as keys tells apart. -/
def keys (s : JoinSet) : List JoinKey := s.map LogicalJoinNode.key

end JoinSet

/-! ## Enumerating subsets -/

/-- Replace the first set bit, if there is one. -/
def clearFirst : List Bool → Option (List Bool)
  | [] => none
  | true :: bits => some (false :: bits)
  | false :: bits => (clearFirst bits).map (false :: ·)

/-- `std::next_permutation` on bits.  Where the bits behind a clear one are in their last
permutation, it trades places with the last set bit behind it, and these bits are reversed. -/
def nextPermutation : List Bool → Option (List Bool)
  | [] => none
  | b :: bits =>
    match nextPermutation bits with
    | some next => some (b :: next)
    | none => if b then none else (clearFirst bits.reverse).map (true :: ·)

/-- The number whose binary digits the bits are. -/
def bitValue : List Bool → Nat
  | [] => 0
  | b :: bits => (if b then 2 ^ bits.length else 0) + bitValue bits

theorem bitValue_lt (bits : List Bool) : bitValue bits < 2 ^ bits.length := by
  induction bits with
  | nil => exact Nat.one_pos
  | cons b bits ih =>
    rw [bitValue, List.length_cons, Nat.pow_succ]
    split <;> omega

theorem clearFirst_perm {bits cleared : List Bool} (clears : clearFirst bits = some cleared) :
    (true :: cleared).Perm (false :: bits) := by
  induction bits generalizing cleared with
  | nil => cases clears
  | cons b bits ih =>
    cases b with
    | true =>
      cases clears
      exact List.Perm.swap false true bits
    | false =>
      obtain ⟨rest, clearsRest, rfl⟩ := Option.map_eq_some_iff.mp clears
      exact (List.Perm.swap false true rest).trans ((ih clearsRest).cons false)

theorem nextPermutation_perm {bits next : List Bool} (advances : nextPermutation bits = some next) :
    next.Perm bits := by
  induction bits generalizing next with
  | nil => cases advances
  | cons b bits ih =>
    rw [nextPermutation] at advances
    split at advances
    · rename_i rest advancesRest
      cases advances
      exact (ih advancesRest).cons b
    · split at advances
      · cases advances
      · rename_i clear
        obtain ⟨cleared, clears, rfl⟩ := Option.map_eq_some_iff.mp advances
        rw [Bool.not_eq_true] at clear
        rw [clear]
        exact (clearFirst_perm clears).trans (bits.reverse_perm.cons false)

/-- The permutations ascend. -/
theorem bitValue_nextPermutation {bits next : List Bool}
    (advances : nextPermutation bits = some next) : bitValue bits < bitValue next := by
  induction bits generalizing next with
  | nil => cases advances
  | cons b bits ih =>
    have perm := nextPermutation_perm advances
    rw [nextPermutation] at advances
    split at advances
    · rename_i rest advancesRest
      cases advances
      have length := (nextPermutation_perm advancesRest).length_eq
      have more := ih advancesRest
      rw [bitValue, bitValue, length]
      omega
    · split at advances
      · cases advances
      · rename_i clear
        obtain ⟨cleared, _, rfl⟩ := Option.map_eq_some_iff.mp advances
        have length := perm.length_eq
        have small := bitValue_lt bits
        rw [List.length_cons, List.length_cons, Nat.succ_inj] at length
        rw [bitValue, bitValue, if_neg clear, if_pos rfl, length]
        omega

/-- The joins that the bits select. -/
def selected (v : List LogicalJoinNode) (bits : List Bool) : JoinSet :=
  (v.zip bits).foldl (fun s entry => if entry.2 then s.insert entry.1 else s) []

/-- The loop of `enumerate_subsets`. -/
def enumerateFrom (v : List LogicalJoinNode) (bits : List Bool) (res : List JoinSet) :
    List JoinSet :=
  let res := StdSet.insert (StdSet.setLt LogicalJoinNode.less) (selected v bits) res
  match _advances : nextPermutation bits with
  | some next => enumerateFrom v next res
  | none => res
termination_by 2 ^ bits.length - bitValue bits
decreasing_by
  have more := bitValue_nextPermutation _advances
  have length := (nextPermutation_perm _advances).length_eq
  have small := bitValue_lt next
  rw [length] at small ⊢
  omega

/-- `enumerate_subsets`. -/
def enumerateSubsets (v : List LogicalJoinNode) (size : Nat) : List JoinSet :=
  enumerateFrom v (List.replicate (v.length - size) false ++ List.replicate size true) []

/-! ## Facts about the sets -/

variable {j k : LogicalJoinNode} {s t : JoinSet} {v : List LogicalJoinNode} {bits : List Bool}

theorem keyLt_strict : StdSet.Strict keyLt := by
  have strings : StdSet.Strict fun s t : String => decide (s < t) := by
    refine ⟨fun s => ?_, fun {s t u} less less' => ?_, fun {s t} notLess notGreater => ?_⟩
    · exact decide_eq_false (lt_irrefl s)
    · exact decide_eq_true ((of_decide_eq_true less).trans (of_decide_eq_true less'))
    · exact le_antisymm (not_lt.mp (of_decide_eq_false notGreater))
        (not_lt.mp (of_decide_eq_false notLess))
  have fields : StdSet.Strict fun m n : UInt64 => decide (m < n) := by
    refine ⟨fun m => ?_, fun {m n o} less less' => ?_, fun {m n} notLess notGreater => ?_⟩
    · exact decide_eq_false (UInt64.lt_irrefl m)
    · exact decide_eq_true
        (UInt64.lt_trans (of_decide_eq_true less) (of_decide_eq_true less'))
    · exact UInt64.le_antisymm (UInt64.not_lt.mp (of_decide_eq_false notGreater))
        (UInt64.not_lt.mp (of_decide_eq_false notLess))
  exact strings.pairLt (strings.pairLt (fields.pairLt fields))

/-- The keys of the set ascend, so that no two are the same. -/
def JoinSet.Sorted (s : JoinSet) : Prop := StdSet.Ascending keyLt s.keys

theorem JoinSet.Sorted.nodup (sorted : s.Sorted) : s.keys.Nodup :=
  StdSet.Ascending.nodup keyLt_strict sorted

theorem JoinSet.keys_insert (s : JoinSet) (j : LogicalJoinNode) :
    (s.insert j).keys = StdSet.insert keyLt j.key s.keys :=
  StdSet.map_insert LogicalJoinNode.key j s

theorem JoinSet.Sorted.insert (sorted : s.Sorted) (j : LogicalJoinNode) : (s.insert j).Sorted := by
  rw [Sorted, JoinSet.keys_insert]
  exact StdSet.Ascending.insert keyLt_strict sorted

/-- What selecting bits goes through: every step keeps or inserts. -/
theorem selected_invariant {P : JoinSet → Prop} (empty : P [])
    (insert : ∀ s, ∀ j ∈ v, P s → P (s.insert j)) (bits : List Bool) : P (selected v bits) := by
  have fold : ∀ (entries : List (LogicalJoinNode × Bool)) (s : JoinSet),
      (∀ entry ∈ entries, entry.1 ∈ v) → P s →
      P (entries.foldl (fun s entry => if entry.2 then s.insert entry.1 else s) s) := by
    intro entries
    induction entries with
    | nil => exact fun s _ holds => holds
    | cons entry entries ih =>
      intro s members holds
      rw [List.foldl_cons]
      refine ih _ (fun e member => members e (List.mem_cons_of_mem entry member)) ?_
      split
      · exact insert s _ (members entry List.mem_cons_self) holds
      · exact holds
  refine fold _ [] (fun entry member => ?_) empty
  exact (List.of_mem_zip member).1

theorem selected_sorted (v : List LogicalJoinNode) (bits : List Bool) :
    (selected v bits).Sorted :=
  selected_invariant (P := JoinSet.Sorted) List.Pairwise.nil
    (fun _ j _ sorted => sorted.insert j) bits

theorem mem_of_mem_selected (member : j ∈ selected v bits) : j ∈ v := by
  refine selected_invariant (P := fun s => ∀ j ∈ s, j ∈ v) (fun _ absent => by cases absent)
    (fun s k inside all j member => ?_) bits j member
  rcases StdSet.mem_of_mem_insert member with rfl | old
  · exact inside
  · exact all j old

theorem length_selected_le (v : List LogicalJoinNode) (bits : List Bool) :
    (selected v bits).length ≤ bits.count true := by
  have fold : ∀ (v : List LogicalJoinNode) (bits : List Bool) (s : JoinSet),
      ((v.zip bits).foldl (fun s entry => if entry.2 then s.insert entry.1 else s) s).length ≤
        s.length + bits.count true := by
    intro v
    induction v with
    | nil => exact fun bits s => Nat.le_add_right _ _
    | cons j v ih =>
      intro bits s
      cases bits with
      | nil => exact Nat.le_add_right _ _
      | cons b bits =>
        rw [List.zip_cons_cons, List.foldl_cons]
        refine Nat.le_trans (ih bits _) ?_
        cases b with
        | false =>
          rw [List.count_cons_of_ne (by decide)]
          exact Nat.le_refl _
        | true =>
          have longer := StdSet.length_insert_le LogicalJoinNode.less j s
          rw [List.count_cons_self]
          change (StdSet.insert _ j s).length + _ ≤ _
          omega
  exact Nat.le_trans (fold v bits []) (by rw [List.length_nil, Nat.zero_add])

/-- Every enumerated set is selected by a permutation of the bits. -/
theorem enumerateFrom_next {res : List JoinSet} {next : List Bool}
    (advances : nextPermutation bits = some next) :
    enumerateFrom v bits res = enumerateFrom v next
      (StdSet.insert (StdSet.setLt LogicalJoinNode.less) (selected v bits) res) := by
  rw [enumerateFrom]
  split
  · rename_i other advances'
    rw [advances, Option.some.injEq] at advances'
    rw [advances']
  · rename_i last
    rw [advances] at last
    cases last

theorem enumerateFrom_last {res : List JoinSet} (last : nextPermutation bits = none) :
    enumerateFrom v bits res =
      StdSet.insert (StdSet.setLt LogicalJoinNode.less) (selected v bits) res := by
  rw [enumerateFrom]
  split
  · rename_i next advances
    rw [last] at advances
    cases advances
  · rfl

theorem mem_enumerateFrom {res : List JoinSet} (member : s ∈ enumerateFrom v bits res) :
    s ∈ res ∨ ∃ perm, List.Perm perm bits ∧ s = selected v perm := by
  induction bits, res using enumerateFrom.induct v with
  | case1 bits res res' next advances ih =>
    rw [enumerateFrom_next advances] at member
    rcases ih member with old | ⟨perm, isPerm, isSelected⟩
    · rcases StdSet.mem_of_mem_insert old with rfl | older
      · exact Or.inr ⟨bits, List.Perm.refl _, rfl⟩
      · exact Or.inl older
    · exact Or.inr ⟨perm, isPerm.trans (nextPermutation_perm advances), isSelected⟩
  | case2 bits res last =>
    rw [enumerateFrom_last last] at member
    rcases StdSet.mem_of_mem_insert member with rfl | old
    · exact Or.inr ⟨bits, List.Perm.refl _, rfl⟩
    · exact Or.inl old

theorem mem_enumerateSubsets {size : Nat} (member : s ∈ enumerateSubsets v size) :
    s.Sorted ∧ (∀ j ∈ s, j ∈ v) ∧ s.length ≤ size := by
  rcases mem_enumerateFrom member with absent | ⟨perm, isPerm, rfl⟩
  · cases absent
  · refine ⟨selected_sorted v perm, fun j inside => mem_of_mem_selected inside, ?_⟩
    refine Nat.le_trans (length_selected_le v perm) (Nat.le_of_eq ?_)
    rw [isPerm.count_eq, List.count_append, List.count_replicate, List.count_replicate]
    simp

/-! ## All joins at once -/

/-- The set of all joins. -/
def allJoins (v : List LogicalJoinNode) : JoinSet := v.foldl JoinSet.insert []

theorem nextPermutation_replicate (n : Nat) : nextPermutation (List.replicate n true) = none := by
  induction n with
  | zero => rfl
  | succ n ih => rw [List.replicate_succ, nextPermutation, ih]; rfl

theorem selected_replicate (v : List LogicalJoinNode) :
    selected v (List.replicate v.length true) = allJoins v := by
  have fold : ∀ (v : List LogicalJoinNode) (s : JoinSet),
      (v.zip (List.replicate v.length true)).foldl
        (fun s entry => if entry.2 then s.insert entry.1 else s) s = v.foldl JoinSet.insert s := by
    intro v
    induction v with
    | nil => exact fun s => rfl
    | cons j v ih => exact fun s => ih (s.insert j)
  exact fold v []

/-- There is one subset with all joins. -/
theorem enumerateSubsets_length (v : List LogicalJoinNode) :
    enumerateSubsets v v.length = [allJoins v] := by
  rw [enumerateSubsets, Nat.sub_self, List.replicate_zero, List.nil_append, enumerateFrom]
  split
  · rename_i next advances
    rw [nextPermutation_replicate] at advances
    cases advances
  · rw [selected_replicate]
    rfl

/-- A set of joins with different keys has all of them. -/
theorem allJoins_perm (distinct : (v.map LogicalJoinNode.key).Nodup) : (allJoins v).Perm v := by
  have fold : ∀ (v : List LogicalJoinNode) (s : JoinSet),
      ((s ++ v).map LogicalJoinNode.key).Nodup → (v.foldl JoinSet.insert s).Perm (s ++ v) := by
    intro v
    induction v with
    | nil =>
      intro s _
      rw [List.append_nil]
      exact List.Perm.refl s
    | cons j v ih =>
      intro s nodup
      have fresh : ∀ k ∈ s, LogicalJoinNode.less j k = true ∨ LogicalJoinNode.less k j = true := by
        intro k member
        by_contra neither
        rw [not_or, Bool.not_eq_true, Bool.not_eq_true] at neither
        have same := keyLt_strict.tri neither.1 neither.2
        rw [List.map_append, List.nodup_append] at nodup
        exact nodup.2.2 k.key (List.mem_map_of_mem member) j.key
          (List.mem_map_of_mem List.mem_cons_self) same.symm
      have inserted : (JoinSet.insert s j).Perm (j :: s) := StdSet.insert_perm fresh
      have together : (JoinSet.insert s j ++ v).Perm (s ++ j :: v) :=
        (inserted.append_right v).trans List.perm_middle.symm
      rw [List.foldl_cons]
      refine (ih _ ?_).trans together
      exact (together.map LogicalJoinNode.key).nodup_iff.mpr nodup
  exact fold v [] distinct

end BuzzDB.Optimizer
