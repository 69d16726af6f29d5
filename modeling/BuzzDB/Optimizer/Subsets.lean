import BuzzDB.Optimizer.JoinNode
import Mathlib.Data.Bool.Count

/-!
# The subsets of a size

`enumerate_subsets` starts with the least permutation of its bits and goes from each to the next
greater one, up to the greatest.  So it selects by every permutation, and with joins that all
differ the permutations select the subsets of the size.
-/

namespace BuzzDB.Optimizer

variable {j k : LogicalJoinNode} {s t : JoinSet} {v : List LogicalJoinNode}
  {bits other next : List Bool}

/-! ## Permutations of bits -/

theorem bitValue_replicate_false (n : Nat) (bits : List Bool) :
    bitValue (List.replicate n false ++ bits) = bitValue bits := by
  induction n with
  | zero => rfl
  | succ n ih =>
    rw [List.replicate_succ, List.cons_append, bitValue, ih]
    simp

theorem bitValue_replicate_true (n : Nat) : bitValue (List.replicate n true) + 1 = 2 ^ n := by
  induction n with
  | zero => rfl
  | succ n ih =>
    rw [List.replicate_succ, bitValue, if_pos rfl, List.length_replicate, Nat.pow_succ]
    omega

/-- The value is the greatest with all set bits in front. -/
theorem bitValue_sorted (m n : Nat) :
    bitValue (List.replicate m true ++ List.replicate n false) + 2 ^ n = 2 ^ (m + n) := by
  induction m with
  | zero =>
    have zero := bitValue_replicate_false n []
    rw [List.append_nil] at zero
    rw [List.replicate_zero, List.nil_append, zero, bitValue]
    simp
  | succ m ih =>
    rw [List.replicate_succ, List.cons_append, bitValue, if_pos rfl, List.length_append,
      List.length_replicate, List.length_replicate, Nat.succ_add, Nat.pow_succ]
    omega

theorem two_pow_count_le (bits : List Bool) : 2 ^ bits.count true ≤ bitValue bits + 1 := by
  induction bits with
  | nil => exact Nat.le_refl 1
  | cons b bits ih =>
    have bound : 2 ^ bits.count true ≤ 2 ^ bits.length :=
      Nat.pow_le_pow_right (by decide) List.count_le_length
    cases b with
    | true =>
      rw [List.count_cons_self, bitValue, if_pos rfl, Nat.pow_succ]
      omega
    | false =>
      rw [List.count_cons_of_ne (by decide), bitValue]
      simpa using ih

theorem bitValue_add_le (bits : List Bool) :
    bitValue bits + 2 ^ bits.count false ≤ 2 ^ bits.length := by
  induction bits with
  | nil => exact Nat.le_refl 1
  | cons b bits ih =>
    have bound : 2 ^ bits.count false ≤ 2 ^ bits.length :=
      Nat.pow_le_pow_right (by decide) List.count_le_length
    rw [List.length_cons, Nat.pow_succ]
    cases b with
    | true =>
      rw [List.count_cons_of_ne (by decide), bitValue, if_pos rfl]
      omega
    | false =>
      rw [List.count_cons_self, bitValue, Nat.pow_succ]
      simp only [Bool.false_eq_true, if_false]
      omega

theorem bitValue_inj (length : bits.length = other.length) (same : bitValue bits = bitValue other) :
    bits = other := by
  induction bits generalizing other with
  | nil => exact (List.length_eq_zero_iff.mp length.symm).symm
  | cons b bits ih =>
    cases other with
    | nil => cases length
    | cons c other =>
      rw [List.length_cons, List.length_cons, Nat.succ_inj] at length
      have small := bitValue_lt bits
      have small' := bitValue_lt other
      rw [bitValue, bitValue, length] at same
      rw [length] at small
      cases b with
      | true =>
        cases c with
        | true => rw [ih length (by simpa using same)]
        | false =>
          simp only [if_true, Bool.false_eq_true, if_false] at same
          omega
      | false =>
        cases c with
        | true =>
          simp only [if_true, Bool.false_eq_true, if_false] at same
          omega
        | false => rw [ih length (by simpa using same)]

theorem clearFirst_replicate (n : Nat) (bits : List Bool) :
    clearFirst (List.replicate n false ++ bits) =
      (clearFirst bits).map (List.replicate n false ++ ·) := by
  induction n with
  | zero => exact by simp
  | succ n ih =>
    rw [List.replicate_succ, List.cons_append, clearFirst, ih, Option.map_map]
    rfl

/-- The bits of a last permutation, and what replacing its last set bit makes of them. -/
theorem clearFirst_sorted (m n : Nat) :
    clearFirst (List.replicate (m + 1) true ++ List.replicate n false).reverse =
      some (List.replicate (n + 1) false ++ List.replicate m true) := by
  rw [List.reverse_append, List.reverse_replicate, List.reverse_replicate, clearFirst_replicate,
    List.replicate_succ, clearFirst, Option.map_some, List.replicate_succ', List.append_assoc]
  rfl

/-- The last permutation has its set bits in front. -/
theorem sorted_of_last (last : nextPermutation bits = none) :
    bits = List.replicate (bits.count true) true ++ List.replicate (bits.count false) false := by
  induction bits with
  | nil => rfl
  | cons b bits ih =>
    rw [nextPermutation] at last
    split at last
    · cases last
    · rename_i lastRest
      have rest := ih lastRest
      cases b with
      | true =>
        rw [List.count_cons_self, List.count_cons_of_ne (by decide), List.replicate_succ,
          List.cons_append, ← rest]
      | false =>
        have noSet : clearFirst bits.reverse = none := by simpa using last
        cases count : bits.count true with
        | zero =>
          rw [count, List.replicate_zero, List.nil_append] at rest
          rw [List.count_cons_of_ne (by decide), count, List.count_cons_self, List.replicate_zero,
            List.nil_append, List.replicate_succ, ← rest]
        | succ m =>
          rw [rest, count, clearFirst_sorted] at noSet
          cases noSet

/-- The last permutation is the greatest. -/
theorem bitValue_le_last (last : nextPermutation bits = none) (perm : other.Perm bits) :
    bitValue other ≤ bitValue bits := by
  have greatest := bitValue_sorted (bits.count true) (bits.count false)
  rw [← sorted_of_last last, List.count_true_add_count_false] at greatest
  have bound := bitValue_add_le other
  rw [perm.count_eq, perm.length_eq] at bound
  omega

/-- Behind the last permutation of the rest the next one sets the bit before it, and no permutation
with this bit is less. -/
theorem bitValue_carry_le {cleared : List Bool} (last : nextPermutation bits = none)
    (clears : clearFirst bits.reverse = some cleared) (perm : (true :: other).Perm (false :: bits)) :
    bitValue cleared ≤ bitValue other := by
  have sorted := sorted_of_last last
  have counts := perm.count_eq true
  cases count : bits.count true with
  | zero =>
    rw [List.count_cons_self, List.count_cons_of_ne (by decide), count] at counts
    cases counts
  | succ m =>
    rw [List.count_cons_self, List.count_cons_of_ne (by decide), count, Nat.succ_inj] at counts
    rw [sorted, count, clearFirst_sorted, Option.some.injEq] at clears
    have least := two_pow_count_le other
    have value := bitValue_replicate_true m
    rw [← clears, bitValue_replicate_false]
    rw [counts] at least
    omega

/-- No permutation lies between one and its successor. -/
theorem nextPermutation_least (advances : nextPermutation bits = some next)
    (perm : other.Perm bits) (greater : bitValue bits < bitValue other) :
    bitValue next ≤ bitValue other := by
  induction bits generalizing other next with
  | nil => cases advances
  | cons b bits ih =>
    obtain ⟨c, other, rfl⟩ := List.exists_cons_of_length_pos (l := other)
      (by rw [perm.length_eq]; exact Nat.succ_pos _)
    have length : other.length = bits.length := Nat.succ.inj perm.length_eq
    have nextLength := (nextPermutation_perm advances).length_eq
    have small := bitValue_lt other
    rw [bitValue, bitValue, length] at greater
    rw [length] at small
    rw [nextPermutation] at advances
    split at advances
    · rename_i rest advancesRest
      cases advances
      have restLength : rest.length = bits.length := Nat.succ.inj nextLength
      have restSmall := bitValue_lt rest
      rw [restLength] at restSmall
      rw [bitValue, bitValue, restLength, length]
      by_cases same : c = b
      · rw [same] at greater perm ⊢
        have permRest : other.Perm bits := List.Perm.cons_inv perm
        have least := ih advancesRest permRest (by omega)
        omega
      · cases b with
        | true =>
          have clear : c = false := by simpa using same
          rw [clear] at greater
          simp only [Bool.false_eq_true, if_false, if_true] at greater
          omega
        | false =>
          have isSet : c = true := by simpa using same
          rw [isSet]
          simp only [Bool.false_eq_true, if_false, if_true]
          omega
    · rename_i lastRest
      split at advances
      · cases advances
      · rename_i clear
        rw [Bool.not_eq_true] at clear
        subst clear
        cases c with
        | false =>
          -- behind the clear bit the permutation would have to be greater than the greatest
          have greatest := bitValue_le_last lastRest (List.Perm.cons_inv perm)
          simp only [Bool.false_eq_true, if_false] at greater
          omega
        | true =>
          obtain ⟨cleared, clears, rfl⟩ := Option.map_eq_some_iff.mp advances
          have clearedLength : cleared.length = bits.length := Nat.succ.inj nextLength
          have least := bitValue_carry_le lastRest clears perm
          rw [bitValue, bitValue, clearedLength, length]
          omega

/-- The first permutation is the least. -/
theorem bitValue_first_le {m n : Nat}
    (perm : other.Perm (List.replicate m false ++ List.replicate n true)) :
    bitValue (List.replicate m false ++ List.replicate n true) ≤ bitValue other := by
  have counts : other.count true = n := by simp [perm.count_eq, List.count_replicate]
  have least := two_pow_count_le other
  have value := bitValue_replicate_true n
  rw [bitValue_replicate_false]
  rw [counts] at least
  omega

/-! ## Selections -/

/-- The selected joins in the order of the vector. -/
def chosen (v : List LogicalJoinNode) (bits : List Bool) : List LogicalJoinNode :=
  ((v.zip bits).filter Prod.snd).map Prod.fst

theorem selected_eq (v : List LogicalJoinNode) (bits : List Bool) :
    selected v bits = allJoins (chosen v bits) := by
  rw [selected, allJoins, chosen, List.foldl_map, List.foldl_filter]

theorem chosen_sublist (length : bits.length = v.length) : (chosen v bits).Sublist v := by
  have zipped : (v.zip bits).map Prod.fst = v := List.map_fst_zip (Nat.le_of_eq length.symm)
  have part : (chosen v bits).Sublist ((v.zip bits).map Prod.fst) := List.filter_sublist.map Prod.fst
  rwa [zipped] at part

theorem length_chosen (length : bits.length = v.length) :
    (chosen v bits).length = bits.count true := by
  have zipped : (v.zip bits).map Prod.snd = bits := List.map_snd_zip (Nat.le_of_eq length)
  rw [chosen, List.length_map, ← List.countP_eq_length_filter, ← zipped, List.count, List.countP_map,
    zipped]
  exact List.countP_congr fun entry _ => by simp

theorem chosen_filter (v : List LogicalJoinNode) (P : LogicalJoinNode → Bool) :
    chosen v (v.map P) = v.filter P := by
  induction v with
  | nil => rfl
  | cons j v ih =>
    rw [chosen] at ih ⊢
    rw [List.map_cons, List.zip_cons_cons]
    cases here : P j <;> simp [here, ih]

section Distinct

variable (distinct : (v.map LogicalJoinNode.key).Nodup)

include distinct

theorem length_selected (length : bits.length = v.length) :
    (selected v bits).length = bits.count true := by
  have keys : ((chosen v bits).map LogicalJoinNode.key).Nodup :=
    distinct.sublist ((chosen_sublist length).map _)
  rw [selected_eq, (allJoins_perm keys).length_eq, length_chosen length]

/-- A set of joins of the vector is selected by its own bits. -/
theorem selected_of_mem (sorted : s.Sorted) (inside : ∀ j ∈ s, j ∈ v) :
    selected v (v.map fun j => decide (j ∈ s)) = s := by
  have length : (v.map fun j => decide (j ∈ s)).length = v.length := List.length_map _
  have keys : ((v.filter fun j => decide (j ∈ s)).map LogicalJoinNode.key).Nodup :=
    distinct.sublist (List.filter_sublist.map _)
  have members : (v.filter fun j => decide (j ∈ s)).Perm s := by
    refine (List.perm_ext_iff_of_nodup (List.Nodup.of_map _ keys)
      (List.Nodup.of_map _ sorted.nodup)).mpr fun j => ?_
    rw [List.mem_filter, decide_eq_true_eq]
    exact and_iff_right_of_imp (inside j)
  have perm : (selected v (v.map fun j => decide (j ∈ s))).Perm s := by
    rw [selected_eq, chosen_filter]
    exact (allJoins_perm keys).trans members
  have ascending := List.pairwise_map.mp (selected_sorted v (v.map fun j => decide (j ∈ s)))
  refine perm.eq_of_pairwise (fun j k _ _ less greater => ?_) ascending (List.pairwise_map.mp sorted)
  have self := keyLt_strict.trans less greater
  rw [keyLt_strict.irrefl] at self
  cases self

theorem eq_of_keys_of_distinct (inside : ∀ j ∈ s, j ∈ v) (inside' : ∀ j ∈ t, j ∈ v) (same : s.keys = t.keys) :
    s = t := by
  induction s generalizing t with
  | nil => exact (List.map_eq_nil_iff.mp same.symm).symm
  | cons j s ih =>
    cases t with
    | nil => cases same
    | cons k t =>
      obtain ⟨first, rest⟩ := List.cons_eq_cons.mp same
      have head : j = k := List.inj_on_of_nodup_map distinct (inside j List.mem_cons_self)
        (inside' k List.mem_cons_self) first
      rw [head, ih (fun j member => inside j (List.mem_cons_of_mem _ member))
        (fun k member => inside' k (List.mem_cons_of_mem _ member)) rest]

end Distinct

/-! ## The enumeration -/

theorem keys_insert (t : JoinSet) (res : List JoinSet) :
    (StdSet.insert (StdSet.setLt LogicalJoinNode.less) t res).map JoinSet.keys =
      StdSet.insert (StdSet.setLt keyLt) t.keys (res.map JoinSet.keys) := by
  have compare : StdSet.setLt LogicalJoinNode.less = fun s t : JoinSet =>
      StdSet.setLt keyLt s.keys t.keys := by
    funext s t
    exact StdSet.setLt_map LogicalJoinNode.key s t
  rw [compare]
  exact StdSet.map_insert JoinSet.keys t res

theorem mem_insert_iff {res : List JoinSet} (distinct : (v.map LogicalJoinNode.key).Nodup)
    (within : ∀ s ∈ res, ∀ j ∈ s, j ∈ v) (inside : ∀ j ∈ t, j ∈ v) :
    s ∈ StdSet.insert (StdSet.setLt LogicalJoinNode.less) t res ↔ s = t ∨ s ∈ res := by
  constructor
  · exact StdSet.mem_of_mem_insert
  · intro either
    rcases either with rfl | old
    · have there := StdSet.mem_insert_self keyLt_strict.setLt s.keys (res.map JoinSet.keys)
      rw [← keys_insert] at there
      obtain ⟨u, member, same⟩ := List.mem_map.mp there
      rcases StdSet.mem_of_mem_insert member with rfl | older
      · exact member
      · exact eq_of_keys_of_distinct distinct (within u older) inside same ▸ member
    · exact StdSet.mem_insert_of_mem old

/-- The loop selects by the permutation it stands at and by every greater one. -/
theorem mem_enumerateFrom_iff {res : List JoinSet} (distinct : (v.map LogicalJoinNode.key).Nodup)
    (within : ∀ s ∈ res, ∀ j ∈ s, j ∈ v) :
    s ∈ enumerateFrom v bits res ↔ s ∈ res ∨
      ∃ perm, List.Perm perm bits ∧ bitValue bits ≤ bitValue perm ∧ s = selected v perm := by
  have inserted : ∀ (bits : List Bool) (res : List JoinSet), (∀ s ∈ res, ∀ j ∈ s, j ∈ v) →
      ∀ s ∈ StdSet.insert (StdSet.setLt LogicalJoinNode.less) (selected v bits) res,
        ∀ j ∈ s, j ∈ v := by
    intro bits res within s member j inside
    rcases StdSet.mem_of_mem_insert member with rfl | old
    · exact mem_of_mem_selected inside
    · exact within s old j inside
  induction bits, res using enumerateFrom.induct v with
  | case1 bits res res' next advances ih =>
    rw [enumerateFrom_next advances]
    refine (ih (inserted bits res within)).trans ?_
    rw [mem_insert_iff distinct within (fun j inside => mem_of_mem_selected inside)]
    have arranged := nextPermutation_perm advances
    constructor
    · intro cases
      rcases cases with (rfl | old) | ⟨perm, isPerm, atLeast, rfl⟩
      · exact Or.inr ⟨bits, List.Perm.refl _, le_rfl, rfl⟩
      · exact Or.inl old
      · exact Or.inr ⟨perm, isPerm.trans arranged,
          (bitValue_nextPermutation advances).le.trans atLeast, rfl⟩
    · intro cases
      rcases cases with old | ⟨perm, isPerm, atLeast, rfl⟩
      · exact Or.inl (Or.inr old)
      · rcases Nat.eq_or_lt_of_le atLeast with same | greater
        · rw [bitValue_inj isPerm.length_eq.symm same]
          exact Or.inl (Or.inl rfl)
        · exact Or.inr ⟨perm, isPerm.trans arranged.symm,
            nextPermutation_least advances isPerm greater, rfl⟩
  | case2 bits res last =>
    rw [enumerateFrom_last last,
      mem_insert_iff distinct within (fun j inside => mem_of_mem_selected inside), or_comm]
    refine or_congr_right ⟨fun same => ⟨bits, List.Perm.refl _, le_rfl, same⟩, fun found => ?_⟩
    obtain ⟨perm, isPerm, atLeast, rfl⟩ := found
    rw [bitValue_inj isPerm.length_eq.symm
      (Nat.le_antisymm atLeast (bitValue_le_last last isPerm))]

theorem enumerateFrom_ascending {res : List JoinSet}
    (ascending : StdSet.Ascending (StdSet.setLt keyLt) (res.map JoinSet.keys)) :
    StdSet.Ascending (StdSet.setLt keyLt) ((enumerateFrom v bits res).map JoinSet.keys) := by
  induction bits, res using enumerateFrom.induct v with
  | case1 bits res res' next advances ih =>
    rw [enumerateFrom_next advances]
    refine ih ?_
    rw [keys_insert]
    exact ascending.insert keyLt_strict.setLt
  | case2 bits res last =>
    rw [enumerateFrom_last last, keys_insert]
    exact ascending.insert keyLt_strict.setLt

/-- The subsets of the size, each of them once. -/
theorem enumerateSubsets_complete {size : Nat} (different : v.Pairwise fun j k => j.equal k = false)
    (atMost : size ≤ v.length) :
    (enumerateSubsets v size).Nodup ∧
      ∀ s : JoinSet, s ∈ enumerateSubsets v size ↔
        s.Sorted ∧ (∀ j ∈ s, j ∈ v) ∧ s.length = size := by
  have distinct : (v.map LogicalJoinNode.key).Nodup :=
    List.pairwise_map.mpr (different.imp fun differ => of_decide_eq_false differ)
  have ascending : StdSet.Ascending (StdSet.setLt keyLt)
      ((enumerateSubsets v size).map JoinSet.keys) := enumerateFrom_ascending List.Pairwise.nil
  refine ⟨List.Nodup.of_map _ (ascending.nodup keyLt_strict.setLt), fun s => ?_⟩
  rw [enumerateSubsets, mem_enumerateFrom_iff distinct (fun _ absent => by cases absent),
    or_iff_right List.not_mem_nil]
  constructor
  · intro found
    obtain ⟨perm, isPerm, _, rfl⟩ := found
    have length : perm.length = v.length := by
      rw [isPerm.length_eq, List.length_append, List.length_replicate, List.length_replicate]
      exact Nat.sub_add_cancel atMost
    refine ⟨selected_sorted v perm, fun j inside => mem_of_mem_selected inside, ?_⟩
    rw [length_selected distinct length, isPerm.count_eq]
    simp [List.count_replicate]
  · rintro ⟨sorted, inside, count⟩
    have selects := selected_of_mem distinct sorted inside
    have length : (v.map fun j => decide (j ∈ s)).length = v.length := List.length_map _
    have set := length_selected distinct length
    rw [selects, count] at set
    have isPerm : (v.map fun j => decide (j ∈ s)).Perm
        (List.replicate (v.length - size) false ++ List.replicate size true) := by
      have total := List.count_false_add_count_true (v.map fun j => decide (j ∈ s))
      refine List.perm_iff_count.mpr fun b => ?_
      cases b with
      | true => simpa [List.count_replicate] using set.symm
      | false =>
        rw [List.count_append, List.count_replicate_self, List.count_replicate]
        simp only [Bool.true_beq, Bool.false_eq_true, if_false, Nat.add_zero]
        omega
    exact ⟨_, isPerm, bitValue_first_le isPerm, selects.symm⟩

/-- The subsets of size two of three joins. -/
theorem enumerateSubsets_complete_three :
    let v : List LogicalJoinNode :=
      [⟨"b", "c", 0, 0, .eq⟩, ⟨"a", "b", 0, 0, .eq⟩, ⟨"c", "d", 0, 0, .eq⟩]
    (enumerateSubsets v 2).Nodup ∧
      ∀ s : JoinSet, s ∈ enumerateSubsets v 2 ↔ s.Sorted ∧ (∀ j ∈ s, j ∈ v) ∧ s.length = 2 :=
  enumerateSubsets_complete (by decide) (by decide)

end BuzzDB.Optimizer
