import BuzzDB.Lib.Machine
import BuzzDB.Lib.Tabulation
import BuzzDB.Optimizer.CheapestPlans
import BuzzDB.Optimizer.JoinCardinality
import BuzzDB.Optimizer.Subsets

/-!
# What plans cost

A plan is executed join by join: one side of each join is the plan so far, the other one a
table.  The cost and the cardinality that the cache has for a set are those of executing the
plan it has for the set.

With equalities between columns that are no primary keys the cardinality of a set of joins does not
depend on their order.  Then a cheaper plan for the rest of a set makes a cheaper plan for the
set, and as long as each candidate improves, `order_joins` returns a plan that is cheapest
among all orders of the joins.
-/

namespace BuzzDB.Optimizer

open Double

/-! ## Executing a plan -/

section Executes

variable {D : Type} [Double D] {input : Statistics D} {uninit : Uninitialized D} {pc : PlanCache D}
  {s : JoinSet} {σ : Sides D} {j : LogicalJoinNode} {order : List LogicalJoinNode}
  {card front : CostCard D}

/-- The sides of a join behind a plan, as `compute_cost_and_card_of_subplan` chooses them. -/
def behind (input : Statistics D) (j : LogicalJoinNode) (front : CostCard D) : Option (Sides D) :=
  if front.plan.isEmpty then
    some ⟨[], baseTable input j.leftTable j.leftField, baseTable input j.rightTable j.rightField⟩
  else
    let done := (front.cost, front.card.toInt64.toUInt64, hasPkey front.plan)
    if doesJoin front.plan j.leftTable then
      some ⟨front.plan, done, baseTable input j.rightTable j.rightField⟩
    else if doesJoin front.plan j.rightTable then
      some ⟨front.plan, baseTable input j.leftTable j.leftField, done⟩
    else none

variable (D) in
/-- Nothing is done, and costs nothing. -/
def noJoins : CostCard D := ⟨literal 0 0, 0, []⟩

/-- The joins are executed in the order of the list, each in one of its orientations. -/
inductive Executes (input : Statistics D) : List LogicalJoinNode → CostCard D → Prop
  | nothing : Executes input [] (noJoins D)
  | join {order : List LogicalJoinNode} {front card : CostCard D} {j : LogicalJoinNode} {σ : Sides D}
      (before : Executes input order front) (found : behind input j front = some σ)
      (member : card ∈ σ.cards j) : Executes input (order ++ [j]) card

/-- What the cache has for a set. -/
def PlanCache.stored (pc : PlanCache D) (s : JoinSet) : CostCard D :=
  ⟨pc.getCost s, pc.getCard s, pc.getOrder s⟩

theorem Executes.concat (executes : Executes input (order ++ [j]) card) :
    ∃ front σ, Executes input order front ∧ behind input j front = some σ ∧ card ∈ σ.cards j := by
  generalize same : order ++ [j] = whole at executes
  cases executes with
  | nothing => exact absurd same (by simp)
  | join before found member =>
    obtain ⟨rfl, last⟩ := List.append_inj' same rfl
    cases last
    exact ⟨_, _, before, found, member⟩

/-- A card has its join, in one of the orientations, behind the plan of one of the sides. -/
theorem plan_of_mem_cards (member : card ∈ σ.cards j) :
    ∃ r, SameJoin r j ∧ card.plan = σ.prevBest ++ [r] := by
  rcases List.mem_cons.mp member with rfl | second
  · exact ⟨j, Or.inl rfl, rfl⟩
  · rw [List.mem_singleton.mp second]
    exact ⟨j.swapInnerOuter, Or.inr rfl, rfl⟩

theorem prevBest_of_behind (found : behind input j front = some σ) : σ.prevBest = front.plan := by
  unfold behind at found
  dsimp only at found
  split at found
  · rename_i empty
    cases found
    exact (List.isEmpty_iff.mp empty).symm
  · split at found
    · cases found
      rfl
    · split at found
      · cases found
        rfl
      · cases found

/-- The plan has the joins in their order. -/
theorem Executes.sameJoin (executes : Executes input order card) :
    List.Forall₂ SameJoin card.plan order := by
  induction executes with
  | nothing => exact .nil
  | join before found member ih =>
    obtain ⟨r, same, plan⟩ := plan_of_mem_cards member
    rw [plan, prevBest_of_behind found]
    exact List.rel_append ih (.cons same .nil)

/-- What the first half of `compute_cost_and_card_of_subplan` finds is behind the cached plan for the
rest of the set. -/
theorem sides_of_rest (planned : pc.getOrder (s.erase j) ≠ []) (rest : s.erase j ≠ []) :
    sides input j s pc = behind input j (pc.stored (s.erase j)) := by
  have notAlone : ¬ (s.erase j).isEmpty = true := mt List.isEmpty_iff.mp rest
  have notEmpty : ¬ (pc.stored (s.erase j)).plan.isEmpty = true := mt List.isEmpty_iff.mp planned
  have long : ¬ (pc.getOrder (s.erase j)).length = 0 := mt List.eq_nil_of_length_eq_zero planned
  rw [sides, behind, if_neg notAlone, if_neg long, if_neg notEmpty]
  rfl

theorem sides_alone (alone : s.erase j = []) :
    sides input j s pc = behind input j (noJoins D) := by
  rw [sides, alone]
  rfl

/-- The cost and the cardinality of every plan in the cache are those of executing it. -/
def Costed (input : Statistics D) (pc : PlanCache D) : Prop :=
  ∀ s, Equalities s → pc.getOrder s ≠ [] → ∃ order, List.Perm order s ∧ Executes input order (pc.stored s)

theorem Costed.rest (costed : Costed input pc) (equalities : Equalities s)
    (found : sides input j s pc = some σ) :
    ∃ order front, List.Perm order (s.erase j) ∧ Executes input order front ∧
      behind input j front = some σ := by
  by_cases alone : s.erase j = []
  · rw [sides_alone alone] at found
    exact ⟨[], _, alone ▸ List.Perm.refl _, .nothing, found⟩
  · have planned : pc.getOrder (s.erase j) ≠ [] := by
      rcases sides_prevBest found with ⟨-, isAlone⟩ | ⟨cached, nonempty⟩
      · exact absurd isAlone alone
      · exact cached ▸ nonempty
    obtain ⟨order, perm, executes⟩ := costed _ (equalities.erase j) planned
    rw [sides_of_rest planned alone] at found
    exact ⟨order, _, perm, executes, found⟩

/-- The best card for a set has no plan, or is what executing its plan costs. -/
theorem Costed.bestCard (costed : Costed input pc) (equalities : Equalities s) (nodup : s.keys.Nodup)
    {candidates : List LogicalJoinNode} (members : ∀ j ∈ candidates, j ∈ s) :
    (bestCard input uninit pc s candidates).1.plan = [] ∨
      ∃ order, List.Perm order s ∧ Executes input order (bestCard input uninit pc s candidates).1 := by
  induction candidates using List.reverseRecOn with
  | nil => exact Or.inl rfl
  | append_singleton before j ih =>
    have earlier := ih fun k member => members k (List.mem_append_left _ member)
    rw [bestCard_append]
    rcases tryLast_cases j input uninit pc s (Optimizer.bestCard input uninit pc s before) with
      ⟨_, stays⟩ | ⟨σ, found, ⟨_, unset⟩ | ⟨_, written, chosen, isWritten⟩⟩
    · rw [stays]
      exact earlier
    · rw [unset]
      exact Or.inl rfl
    · obtain ⟨order, front, perm, executes, isBehind⟩ := costed.rest equalities found
      have member := members j (List.mem_append_right _ (List.mem_singleton_self j))
      rw [isWritten]
      exact Or.inr ⟨order ++ [j], (perm.append_right [j]).trans (erase_append_perm nodup member),
        .join executes isBehind (choose_card chosen).1⟩

theorem Costed.empty : Costed input PlanCache.empty := fun _ _ planned => absurd rfl planned

omit [Double D] in
theorem stored_addPlan_self :
    (pc.addPlan s card.cost card.card card.plan).stored s = card := by
  rw [PlanCache.stored, getOrder_addPlan_self]
  congr 1
  · exact Function.update_self _ _ _
  · exact Function.update_self _ _ _

omit [Double D] in
theorem stored_addPlan_of_ne {t : JoinSet} (different : t.keys ≠ s.keys) :
    (pc.addPlan s card.cost card.card card.plan).stored t = pc.stored t := by
  rw [PlanCache.stored, getOrder_addPlan_of_ne _ _ different]
  congr 1
  · exact Function.update_of_ne different _ _
  · exact Function.update_of_ne different _ _

theorem stored_planSet_of_ne {t : JoinSet} (different : t.keys ≠ s.keys) :
    (planSet input uninit pc s).stored t = pc.stored t := by
  unfold Optimizer.planSet
  dsimp only
  split
  · exact stored_addPlan_of_ne different
  · rfl

theorem Costed.planSet (costed : Costed input pc) (equalities : Equalities s) (nodup : s.keys.Nodup) :
    Costed input (planSet input uninit pc s) := by
  have best : (Optimizer.bestCard input uninit pc s s).1.plan = [] ∨
      ∃ order, List.Perm order s ∧ Executes input order (Optimizer.bestCard input uninit pc s s).1 :=
    costed.bestCard equalities nodup fun (j : LogicalJoinNode) inside => (inside : j ∈ s)
  intro t eqT planned
  by_cases same : JoinSet.keys t = s.keys
  · obtain rfl := eq_of_keys eqT equalities same
    unfold Optimizer.planSet at planned ⊢
    dsimp only at planned ⊢
    split at planned
    · rename_i found
      rw [getOrder_addPlan_self] at planned
      rw [if_pos found, stored_addPlan_self]
      exact best.resolve_left planned
    · rename_i notFound
      rw [if_neg notFound]
      exact costed t eqT planned
  · have kept : (Optimizer.planSet input uninit pc s).getOrder t = pc.getOrder t :=
      congrArg CostCard.plan (stored_planSet_of_ne same)
    rw [stored_planSet_of_ne same]
    exact costed t eqT (kept ▸ planned)

theorem costed_foldl (input : Statistics D) (uninit : Uninitialized D) {joins : List LogicalJoinNode}
    (equalities : Equalities joins) {sets : List JoinSet}
    (subsets : ∀ s ∈ sets, s.Sorted ∧ ∀ j ∈ s, j ∈ joins) :
    Costed input (sets.foldl (planSet input uninit) PlanCache.empty) := by
  induction sets using List.reverseRecOn with
  | nil => exact Costed.empty
  | append_singleton sets s ih =>
    have before := ih fun t member => subsets t (List.mem_append_left _ member)
    obtain ⟨sorted, subset⟩ := subsets s (List.mem_append_right _ (List.mem_singleton_self s))
    rw [List.foldl_append, List.foldl_cons, List.foldl_nil]
    exact before.planSet (fun j member => equalities j (subset j member)) sorted.nodup

/-- The cost and the cardinality that are stored with a plan are those of executing its joins one after
the other, whatever unset cards hold. -/
theorem planRounds_costed (input : Statistics D) (uninit : Uninitialized D)
    {joins : List LogicalJoinNode} (equalities : Equalities joins) (sizes : List Nat) {s : JoinSet}
    (equalities' : Equalities s) (planned : (planRounds input uninit joins sizes).getOrder s ≠ []) :
    ∃ order, List.Perm order s ∧
      Executes input order ((planRounds input uninit joins sizes).stored s) := by
  rw [planRounds_eq] at planned ⊢
  exact costed_foldl input uninit equalities (fun t member => mem_schedule member) s equalities' planned

/-- The plan for both joins of the chain. -/
theorem planRounds_costed_chain :
    ∃ order, List.Perm order chain ∧ Executes dearFirst order
      ((planRounds dearFirst (fun _ _ => (0, 0)) chain [1, 2]).stored chain) :=
  planRounds_costed dearFirst (fun _ _ => (0, 0)) (by decide) [1, 2] (by decide) (by decide +kernel)

end Executes

/-! ## Cardinalities that do not depend on the order -/

/-- An equality of columns that are no primary keys, between tables that have no estimate of their own
and fit an `int`. -/
structure Keyless {D : Type} [Double D] (input : Statistics D) (j : LogicalJoinNode) : Prop where
  equality : j.op = .eq
  columns : j.leftField ≠ 0 ∧ j.rightField ≠ 0
  other : ¬ HardCoded j
  small : (estimateTableCardinality (input.filterSelectivities j.leftTable)).toNat < 2 ^ 31 ∧
    (estimateTableCardinality (input.filterSelectivities j.rightTable)).toNat < 2 ^ 31

section Keyless

variable {D : Type} [Double D] {input : Statistics D} {σ : Sides D} {j : LogicalJoinNode}
  {order other plan : List LogicalJoinNode} {card front : CostCard D}

/-- The rows of a table. -/
def rowsOf (input : Statistics D) (table : String) : Nat :=
  (estimateTableCardinality (input.filterSelectivities table)).toNat

/-- The rows of the largest table. -/
def largest (input : Statistics D) (order : List LogicalJoinNode) : Nat :=
  order.foldr (fun j rows => max (max (rowsOf input j.leftTable) (rowsOf input j.rightTable)) rows) 0

theorem largest_perm (perm : order.Perm other) : largest input order = largest input other := by
  have : LeftCommutative fun (j : LogicalJoinNode) (rows : Nat) =>
      max (max (rowsOf input j.leftTable) (rowsOf input j.rightTable)) rows :=
    ⟨fun _ _ _ => max_left_comm _ _ _⟩
  exact perm.foldr_eq _

theorem largest_concat : largest input (order ++ [j]) =
    max (largest input order) (max (rowsOf input j.leftTable) (rowsOf input j.rightTable)) := by
  rw [largest_perm List.perm_append_comm]
  exact max_comm _ _

theorem rowsOf_le_largest {k : LogicalJoinNode} {t : String} (member : k ∈ order)
    (mentions : k.Mentions t) : rowsOf input t ≤ largest input order := by
  induction order with
  | nil => cases member
  | cons i order ih =>
    change _ ≤ max (max (rowsOf input i.leftTable) (rowsOf input i.rightTable)) (largest input order)
    rcases List.mem_cons.mp member with rfl | later
    · refine le_max_of_le_left ?_
      rcases mentions with rfl | rfl
      · exact le_max_left _ _
      · exact le_max_right _ _
    · exact le_max_of_le_right (ih later)

theorem SameJoin.mentions {r : LogicalJoinNode} {t : String} (same : SameJoin r j) :
    r.Mentions t ↔ j.Mentions t := by
  rcases same with rfl | rfl
  · exact Iff.rfl
  · exact or_comm

/-- The plan joins the tables of its joins. -/
theorem doesJoin_sameJoin {t : String} (same : List.Forall₂ SameJoin plan order) :
    doesJoin plan t = doesJoin order t := by
  rw [Bool.eq_iff_iff, doesJoin_iff, doesJoin_iff]
  induction same with
  | nil => exact Iff.rfl
  | cons first rest ih =>
    simp only [List.mem_cons, exists_eq_or_imp]
    exact or_congr first.mentions ih

theorem doesJoin_perm {t : String} (perm : order.Perm other) : doesJoin order t = doesJoin other t := by
  rw [Bool.eq_iff_iff, doesJoin_iff, doesJoin_iff]
  exact exists_congr fun k => and_congr_left fun _ => perm.mem_iff

theorem hasPkey_of_keyless (keyless : ∀ j ∈ order, Keyless input j)
    (same : List.Forall₂ SameJoin plan order) : hasPkey plan = false := by
  induction same with
  | nil => rfl
  | cons first rest ih =>
    have columns := (keyless _ List.mem_cons_self).columns
    have later := ih fun k member => keyless k (List.mem_cons_of_mem _ member)
    rw [hasPkey] at later ⊢
    rw [List.any_cons, later, Bool.or_false, Bool.or_eq_false_iff, decide_eq_false_iff_not,
      decide_eq_false_iff_not]
    rcases first with rfl | rfl
    · exact columns
    · exact columns.symm

theorem Keyless.swap (keyless : Keyless input j) : Keyless input j.swapInnerOuter :=
  ⟨keyless.equality, keyless.columns.symm, mt hardCoded_swap.mp keyless.other, keyless.small.symm⟩

/-- A cardinality that fits an `int` comes back from one. -/
theorem toNat_card {rows : UInt64} (small : rows.toNat < 2 ^ 31) :
    rows.toUInt32.toInt32.toInt64.toUInt64.toNat = rows.toNat := by
  have whole : rows.toUInt32.toInt32.toInt64.toInt = (rows.toNat : Int) :=
    (Int32.toInt_toInt64 _).trans (toInt_card small)
  have nonneg : 0 ≤ rows.toUInt32.toInt32.toInt64 := by
    rw [Int64.le_iff_toInt_le, whole]
    exact Int.natCast_nonneg _
  rw [Int64.toNat_toUInt64_of_le nonneg, ← Int64.toNat_toInt, whole, Int.toNat_natCast]

/-- The estimate for an equality of columns that are no primary keys. -/
theorem Keyless.estimate {card1 card2 : UInt64} (keyless : Keyless input j)
    (small1 : card1.toNat < 2 ^ 31) (small2 : card2.toNat < 2 ^ 31) :
    (estimateJoinCardinality D j card1 card2 false false).toInt64.toUInt64.toNat =
      max card1.toNat card2.toNat := by
  obtain ⟨first, second⟩ := not_or.mp keyless.other
  rw [estimateJoinCardinality, if_pos keyless.equality, if_neg first, if_neg second]
  simp only [Bool.false_eq_true, false_and, and_false, if_false, not_false_eq_true]
  split
  · rename_i less
    rw [toNat_card small2, Nat.max_eq_right (UInt64.lt_iff_toNat_lt.mp less).le]
  · rename_i notLess
    rw [toNat_card small1, Nat.max_eq_left (UInt64.le_iff_toNat_le.mp (UInt64.not_lt.mp notLess))]

/-- What a side of a join that is a plan so far has for the other joins. -/
theorem Keyless.joined (keyless : Keyless input j) {t1 t2 : D × UInt64 × Bool}
    {prevBest : List LogicalJoinNode} (small1 : t1.2.1.toNat < 2 ^ 31) (small2 : t2.2.1.toNat < 2 ^ 31)
    (noKey1 : t1.2.2 = false) (noKey2 : t2.2.2 = false)
    (member : card ∈ (Sides.mk prevBest t1 t2).cards j) :
    card.card.toInt64.toUInt64.toNat = max t1.2.1.toNat t2.2.1.toNat := by
  obtain ⟨_, card1, _⟩ := t1
  obtain ⟨_, card2, _⟩ := t2
  cases noKey1
  cases noKey2
  rcases List.mem_cons.mp member with rfl | second
  · exact keyless.estimate small1 small2
  · rw [List.mem_singleton.mp second, max_comm]
    exact keyless.swap.estimate small2 small1

/-- The cardinality of joins without keys is the number of rows of the largest table. -/
theorem Executes.rows (executes : Executes input order card) (keyless : ∀ j ∈ order, Keyless input j)
    (nonempty : order ≠ []) :
    card.card.toInt64.toUInt64.toNat = largest input order ∧ largest input order < 2 ^ 31 := by
  induction executes with
  | nothing => exact absurd rfl nonempty
  | @join order front card j σ before found member ih =>
    have last := keyless j (List.mem_append_right _ (List.mem_singleton_self j))
    have noKey : (j.leftField == 0) = false ∧ (j.rightField == 0) = false :=
      ⟨beq_false_of_ne last.columns.1, beq_false_of_ne last.columns.2⟩
    have joins := before.sameJoin
    rw [largest_concat]
    unfold behind at found
    dsimp only at found
    split at found
    · rename_i empty
      rw [List.isEmpty_iff.mp empty, List.forall₂_nil_left_iff] at joins
      cases found
      rw [joins]
      refine ⟨(last.joined last.small.1 last.small.2 noKey.1 noKey.2 member).trans ?_, ?_⟩
      · exact (Nat.zero_max _).symm
      · exact max_lt (Nat.two_pow_pos 31) (max_lt last.small.1 last.small.2)
    · rename_i planned
      have some : order ≠ [] := by
        rintro rfl
        exact planned (List.isEmpty_iff.mpr (List.forall₂_nil_right_iff.mp joins))
      have keyless' : ∀ k ∈ order, Keyless input k := fun k inside =>
        keyless k (List.mem_append_left _ inside)
      obtain ⟨rows, small⟩ := ih keyless' some
      have noKey' := hasPkey_of_keyless keyless' joins
      have bound := max_lt small (max_lt last.small.1 last.small.2)
      split at found
      · rename_i left
        cases found
        obtain ⟨k, inside, mentions⟩ := doesJoin_iff.mp ((doesJoin_sameJoin joins).symm.trans left)
        have inFront : rowsOf input j.leftTable ≤ largest input order :=
          rowsOf_le_largest inside mentions
        refine ⟨(last.joined (rows ▸ small) last.small.2 noKey' noKey.2 member).trans ?_, bound⟩
        change max front.card.toInt64.toUInt64.toNat (rowsOf input j.rightTable) = _
        rw [rows, ← max_assoc, max_eq_left inFront]
      · split at found
        · rename_i right
          cases found
          obtain ⟨k, inside, mentions⟩ := doesJoin_iff.mp ((doesJoin_sameJoin joins).symm.trans right)
          have inFront : rowsOf input j.rightTable ≤ largest input order :=
            rowsOf_le_largest inside mentions
          refine ⟨(last.joined last.small.1 (rows ▸ small) noKey.1 noKey' member).trans ?_, bound⟩
          change max (rowsOf input j.leftTable) front.card.toInt64.toUInt64.toNat = _
          rw [rows, max_comm, max_comm (rowsOf input j.leftTable), ← max_assoc, max_eq_left inFront]
        · cases found

end Keyless

/-! ## The order of the rounds -/

section Schedule

variable {joins : List LogicalJoinNode} {s t : JoinSet} {j : LogicalJoinNode}

theorem mem_enumerateSubsets_of_length (distinct : (joins.map LogicalJoinNode.key).Nodup)
    (sorted : s.Sorted) (inside : ∀ j ∈ s, j ∈ joins) : s ∈ enumerateSubsets joins s.length := by
  have selects := selected_of_mem distinct sorted inside
  have length : (joins.map fun j => decide (j ∈ s)).length = joins.length := List.length_map _
  have set := length_selected distinct length
  have whole := List.count_false_add_count_true (joins.map fun j => decide (j ∈ s))
  rw [selects] at set
  rw [enumerateSubsets, mem_enumerateFrom_iff distinct fun _ absent => by cases absent]
  have perm : (joins.map fun j => decide (j ∈ s)).Perm
      (List.replicate (joins.length - s.length) false ++ List.replicate s.length true) := by
    refine List.perm_iff_count.mpr fun b => ?_
    rw [List.count_append, List.count_replicate, List.count_replicate]
    cases b <;> simp <;> omega
  exact Or.inr ⟨_, perm, bitValue_first_le perm, selects.symm⟩

theorem length_of_mem_enumerateSubsets {size : Nat}
    (distinct : (joins.map LogicalJoinNode.key).Nodup) (atMost : size ≤ joins.length)
    (member : s ∈ enumerateSubsets joins size) : s.length = size := by
  obtain absent | ⟨perm, isPerm, rfl⟩ := mem_enumerateFrom member
  · cases absent
  · have length : perm.length = joins.length := by
      rw [isPerm.length_eq, List.length_append, List.length_replicate, List.length_replicate]
      exact Nat.sub_add_cancel atMost
    rw [length_selected distinct length, isPerm.count_eq]
    simp [List.count_replicate]

theorem mem_rounds_iff (distinct : (joins.map LogicalJoinNode.key).Nodup) :
    s ∈ schedule joins (List.range' 1 joins.length) ↔
      s.Sorted ∧ (∀ j ∈ s, j ∈ joins) ∧ s ≠ [] := by
  rw [schedule, List.mem_flatMap]
  constructor
  · rintro ⟨size, isSize, member⟩
    obtain ⟨positive, atMost⟩ := List.mem_range'_1.mp isSize
    have length := length_of_mem_enumerateSubsets distinct (by omega) member
    obtain ⟨sorted, inside, -⟩ := mem_enumerateSubsets member
    refine ⟨sorted, inside, List.length_pos_iff.mp ?_⟩
    omega
  · rintro ⟨sorted, inside, nonempty⟩
    refine ⟨s.length, List.mem_range'_1.mpr ⟨List.length_pos_iff.mpr nonempty, ?_⟩,
      mem_enumerateSubsets_of_length distinct sorted inside⟩
    have subperm := List.Subperm.length_le (List.subperm_of_subset (List.Nodup.of_map _ sorted.nodup) inside)
    omega

/-- Sets are planned once each, those with fewer joins first. -/
theorem rounds_ordered (distinct : (joins.map LogicalJoinNode.key).Nodup) :
    (schedule joins (List.range' 1 joins.length)).Pairwise fun s t =>
      s ≠ t ∧ s.length ≤ t.length := by
  have sized : ∀ size ∈ List.range' 1 joins.length, ∀ s ∈ enumerateSubsets joins size,
      s.length = size := fun size isSize s member =>
    length_of_mem_enumerateSubsets distinct (by have := List.mem_range'_1.mp isSize; omega) member
  rw [schedule, List.pairwise_flatMap]
  constructor
  · intro size isSize
    have ascending : StdSet.Ascending (StdSet.setLt keyLt)
        ((enumerateSubsets joins size).map JoinSet.keys) := enumerateFrom_ascending List.Pairwise.nil
    have once : (enumerateSubsets joins size).Nodup :=
      List.Nodup.of_map _ (ascending.nodup keyLt_strict.setLt)
    refine once.imp_of_mem fun first second different => ⟨different, ?_⟩
    rw [sized size isSize _ first, sized size isSize _ second]
  · have ordered : (List.range' 1 joins.length).Pairwise (· < ·) := List.pairwise_lt_range'
    refine ordered.imp_of_mem ?_
    intro size size' isSize isSize' less s first t second
    have length := sized size isSize s first
    have length' := sized size' isSize' t second
    refine ⟨?_, by omega⟩
    rintro rfl
    omega

theorem JoinSet.Sorted.erase (sorted : s.Sorted) (j : LogicalJoinNode) : (s.erase j).Sorted :=
  List.Pairwise.sublist (List.filter_sublist.map LogicalJoinNode.key) sorted

theorem length_erase_lt (member : j ∈ s) : (s.erase j).length < s.length := by
  refine List.length_filter_lt_length_iff_exists.mpr ⟨j, member, ?_⟩
  simp [LogicalJoinNode.equal]

/-- A set needs the plans for the sets with one join less. -/
def Needs (s t : JoinSet) : Prop := t ≠ [] ∧ ∃ j ∈ s, t = s.erase j

/-- Sets with fewer joins are planned earlier. -/
theorem ordered_schedule
    (distinct : (joins.map LogicalJoinNode.key).Nodup) :
    Tabulation.Ordered Needs (schedule joins (List.range' 1 joins.length)) := by
  rintro front s back whole t ⟨nonempty, j, member, rfl⟩
  have isRound : s ∈ schedule joins (List.range' 1 joins.length) := by
    rw [whole]
    exact List.mem_append_right _ List.mem_cons_self
  obtain ⟨sorted, inside, -⟩ := (mem_rounds_iff distinct).mp isRound
  have isRest : s.erase j ∈ schedule joins (List.range' 1 joins.length) :=
    (mem_rounds_iff distinct).mpr
      ⟨sorted.erase j, fun k isRest => inside k (List.mem_filter.mp isRest).1, nonempty⟩
  have ordered := rounds_ordered distinct
  have smaller := length_erase_lt member
  rw [whole] at isRest ordered
  rw [List.pairwise_append, List.pairwise_cons] at ordered
  rcases List.mem_append.mp isRest with early | late
  · exact early
  · rcases List.mem_cons.mp late with same | larger
    · rw [same] at smaller
      exact absurd smaller (Nat.lt_irrefl _)
    · exact absurd (ordered.2.1.1 _ larger).2 (Nat.not_le.mpr smaller)

end Schedule

/-! ## The cheapest order -/

section Least

variable {input : Statistics ℚ} {uninit : Uninitialized ℚ} {pc : PlanCache ℚ} {s t : JoinSet}
  {σ σ' : Sides ℚ} {j : LogicalJoinNode} {order other joins : List LogicalJoinNode}
  {card front front' : CostCard ℚ}

theorem estimateJoinCost_mono (j : LogicalJoinNode) (card1 card2 : UInt64) {cost1 cost1' cost2 cost2' : ℚ}
    (le1 : cost1 ≤ cost1') (le2 : cost2 ≤ cost2') :
    estimateJoinCost j card1 card2 cost1 cost2 ≤ estimateJoinCost j card1 card2 cost1' cost2' := by
  have rows : (0 : ℚ) ≤ card1.toNat := Nat.cast_nonneg _
  exact add_le_add_left (add_le_add le1 (mul_le_mul_of_nonneg_left le2 rows)) _

/-- With cheaper sides of the same sizes the cards are cheaper. -/
theorem cards_mono {prevBest prevBest' : List LogicalJoinNode} {card1 card2 : UInt64}
    {key1 key2 : Bool} {cost1 cost1' cost2 cost2' : ℚ} (le1 : cost1 ≤ cost1') (le2 : cost2 ≤ cost2')
    (member : card ∈ (Sides.mk prevBest' (cost1', card1, key1) (cost2', card2, key2)).cards j) :
    ∃ cheaper ∈ (Sides.mk prevBest (cost1, card1, key1) (cost2, card2, key2)).cards j,
      cheaper.cost ≤ card.cost := by
  rcases List.mem_cons.mp member with rfl | second
  · exact ⟨_, List.mem_cons_self, estimateJoinCost_mono j card1 card2 le1 le2⟩
  · rw [List.mem_singleton.mp second]
    exact ⟨_, List.mem_cons_of_mem _ List.mem_cons_self,
      estimateJoinCost_mono j.swapInnerOuter card2 card1 le2 le1⟩

/-- Behind a plan for the same joins that costs no more, a further join costs no more. -/
theorem behind_mono (planned : front.plan ≠ []) (planned' : front'.plan ≠ [])
    (tables : ∀ t, doesJoin front.plan t = doesJoin front'.plan t)
    (keys : hasPkey front.plan = hasPkey front'.plan)
    (rows : front.card.toInt64.toUInt64 = front'.card.toInt64.toUInt64) (le : front.cost ≤ front'.cost)
    (found : behind input j front' = some σ') (member : card ∈ σ'.cards j) :
    ∃ σ, behind input j front = some σ ∧ ∃ cheaper ∈ σ.cards j, cheaper.cost ≤ card.cost := by
  have notEmpty := mt List.isEmpty_iff.mp planned
  have notEmpty' := mt List.isEmpty_iff.mp planned'
  unfold behind at found ⊢
  rw [if_neg notEmpty'] at found
  rw [if_neg notEmpty]
  dsimp only at found ⊢
  rw [tables, tables, keys, rows]
  split at found
  · rename_i left
    cases found
    rw [if_pos left]
    exact ⟨_, rfl, cards_mono le le_rfl member⟩
  · rename_i notLeft
    rw [if_neg notLeft]
    split at found
    · rename_i right
      cases found
      rw [if_pos right]
      exact ⟨_, rfl, cards_mono le_rfl le member⟩
    · cases found

/-- There is a plan for the set if there is an order of its joins that can be executed, and then none
costs less. -/
def Least (input : Statistics ℚ) (pc : PlanCache ℚ) (s : JoinSet) : Prop :=
  ∀ order card, List.Perm order s → Executes input order card →
    pc.getOrder s ≠ [] ∧ pc.getCost s ≤ card.cost

/-- What the last join of an order costs behind the cached plan for the others. -/
theorem Least.rest (least : Least input pc (s.erase j)) (costed : Costed input pc)
    (keyless : ∀ j ∈ s, Keyless input j) (rest : s.erase j ≠ []) (perm : order.Perm (s.erase j))
    (executes : Executes input order front') (found : behind input j front' = some σ')
    (member : card ∈ σ'.cards j) :
    ∃ σ, sides input j s pc = some σ ∧ ∃ cheaper ∈ σ.cards j, cheaper.cost ≤ card.cost := by
  have keyless' : ∀ k ∈ s.erase j, Keyless input k := fun k inside =>
    keyless k (List.mem_filter.mp inside).1
  have equalities : Equalities (s.erase j) := fun k inside => (keyless' k inside).equality
  obtain ⟨planned, le⟩ := least order front' perm executes
  obtain ⟨order', perm', executes'⟩ := costed _ equalities planned
  have nonempty : order ≠ [] := fun empty => rest (List.nil_perm.mp (empty ▸ perm))
  have nonempty' : order' ≠ [] := fun empty => rest (List.nil_perm.mp (empty ▸ perm'))
  have inRest : ∀ k ∈ order, Keyless input k := fun k inside => keyless' k (perm.mem_iff.mp inside)
  have inRest' : ∀ k ∈ order', Keyless input k := fun k inside => keyless' k (perm'.mem_iff.mp inside)
  have rows : (pc.stored (s.erase j)).card.toInt64.toUInt64 = front'.card.toInt64.toUInt64 := by
    refine UInt64.toNat_inj.mp ?_
    rw [(executes'.rows inRest' nonempty').1, (executes.rows inRest nonempty).1]
    exact largest_perm (perm'.trans perm.symm)
  have planned' : front'.plan ≠ [] := by
    intro empty
    have joins := executes.sameJoin
    rw [empty, List.forall₂_nil_left_iff] at joins
    exact nonempty joins
  rw [sides_of_rest planned rest]
  refine behind_mono planned planned' (fun t => ?_) ?_ rows le found member
  · rw [doesJoin_sameJoin executes'.sameJoin, doesJoin_sameJoin executes.sameJoin]
    exact doesJoin_perm (perm'.trans perm.symm)
  · rw [hasPkey_of_keyless inRest' executes'.sameJoin, hasPkey_of_keyless inRest executes.sameJoin]

/-- A set whose candidates improve each other gets a plan that no order undercuts, if the rests of the
set have such plans. -/
theorem Least.planSet (rests : ∀ j ∈ s, s.erase j ≠ [] → Least input pc (s.erase j))
    (costed : Costed input pc) (planned : Planned pc) (improves : EachImproves input pc s s)
    (keyless : ∀ j ∈ s, Keyless input j) (nodup : s.keys.Nodup) (nonempty : s ≠ []) :
    Least input (Optimizer.planSet input uninit pc s) s := by
  intro order card perm executes
  have equalities : Equalities s := fun k inside => (keyless k inside).equality
  have well : PlannedWell input pc s (Optimizer.planSet input uninit pc s) :=
    improves.plannedWell planned equalities nodup
  obtain ⟨front, j, rfl⟩ : ∃ front j, order = front ++ [j] := by
    refine ⟨_, _, (List.dropLast_append_getLast (?_ : order ≠ [])).symm⟩
    rintro rfl
    exact nonempty (List.nil_perm.mp perm)
  have member : j ∈ s := perm.mem_iff.mp (List.mem_append_right _ (List.mem_singleton_self j))
  have restPerm : front.Perm (s.erase j) :=
    (List.perm_append_right_iff [j]).mp (perm.trans (erase_append_perm nodup member).symm)
  obtain ⟨done, σ', before, found, isCard⟩ := executes.concat
  obtain ⟨σ, isSides, cheaper, isCheaper, le⟩ :
      ∃ σ, sides input j s pc = some σ ∧ ∃ cheaper ∈ σ.cards j, cheaper.cost ≤ card.cost := by
    by_cases alone : s.erase j = []
    · rw [alone] at restPerm
      have nothing : done = noJoins ℚ := by
        rw [List.perm_nil.mp restPerm] at before
        generalize isNil : ([] : List LogicalJoinNode) = none at before
        cases before with
        | nothing => rfl
        | join => exact absurd isNil (by simp)
      exact ⟨σ', (sides_alone alone).trans (nothing ▸ found), card, isCard, le_rfl⟩
    · exact (rests j member alone).rest costed keyless alone restPerm before found isCard
  obtain ⟨best, cheapest⟩ := well.1 ⟨j, member, by rw [isSides]; rfl⟩
  obtain ⟨plan, cost, -⟩ := cheapest.stored
  refine ⟨?_, ?_⟩
  · rw [plan]
    intro empty
    have orders := cheapest.orders
    rw [empty, OrdersAll.nil_iff] at orders
    exact nonempty orders
  · rw [cost]
    exact (cheapest.least j member σ isSides cheaper isCheaper).trans le

theorem Least.planSet_of_ne (least : Least input pc t) (different : JoinSet.keys t ≠ s.keys) :
    Least input (Optimizer.planSet input uninit pc s) t := by
  have kept : (Optimizer.planSet input uninit pc s).stored t = pc.stored t :=
    stored_planSet_of_ne different
  intro order card perm executes
  obtain ⟨planned, le⟩ := least order card perm executes
  exact ⟨(congrArg CostCard.plan kept).trans_ne planned, (congrArg CostCard.cost kept).trans_le le⟩

variable (input uninit joins) in
/-- Each candidate of each set improves. -/
def AllImprove : Prop :=
  Machine.Along (fun pc s => some (planSet input uninit pc s)) (fun pc s => EachImproves input pc s s)
    PlanCache.empty (schedule joins (List.range' 1 joins.length))

instance (candidates : List LogicalJoinNode) : Decidable (EachImproves input pc s candidates) :=
  inferInstanceAs (Decidable (List.Pairwise _ _))

instance : Decidable (AllImprove input uninit joins) := inferInstanceAs (Decidable (Machine.Along _ _ _ _))

/-- Behind each round the sets that have been planned have plans that no order undercuts. -/
theorem least_rounds (distinct : (joins.map LogicalJoinNode.key).Nodup)
    (keyless : ∀ j ∈ joins, Keyless input j) (rest : List JoinSet) {done : List JoinSet}
    (whole : schedule joins (List.range' 1 joins.length) = done ++ rest)
    (leasts : ∀ t ∈ done, Least input (done.foldl (planSet input uninit) PlanCache.empty) t)
    (improve : Machine.Along (fun pc s => some (planSet input uninit pc s))
      (fun pc s => EachImproves input pc s s) (done.foldl (planSet input uninit) PlanCache.empty) rest) :
    ∀ t ∈ schedule joins (List.range' 1 joins.length),
      Least input (planRounds input uninit joins (List.range' 1 joins.length)) t := by
  induction rest generalizing done with
  | nil =>
    rw [List.append_nil] at whole
    rw [planRounds_eq, whole]
    exact leasts
  | cons s rest ih =>
    have equalities : Equalities joins := fun j member => (keyless j member).equality
    have subsets : ∀ t ∈ done, t.Sorted ∧ ∀ j ∈ t, j ∈ joins := fun t member =>
      mem_schedule (whole ▸ List.mem_append_left _ member)
    have isRound : s ∈ schedule joins (List.range' 1 joins.length) := by
      rw [whole]
      exact List.mem_append_right _ List.mem_cons_self
    obtain ⟨sorted, inside, nonempty⟩ := (mem_rounds_iff distinct).mp isRound
    have ordered := rounds_ordered distinct
    rw [whole, List.pairwise_append, List.pairwise_cons] at ordered
    obtain ⟨-, -, before⟩ := ordered
    have next : schedule joins (List.range' 1 joins.length) = (done ++ [s]) ++ rest := by
      rw [whole, List.append_assoc]
      rfl
    refine ih next ?_ ?_
    · rw [List.foldl_append, List.foldl_cons, List.foldl_nil]
      intro t member
      rcases List.mem_append.mp member with old | new
      · refine (leasts t old).planSet_of_ne fun same => (before t old s List.mem_cons_self).1 ?_
        exact eq_of_keys_of_distinct distinct (subsets t old).2 inside same
      · rw [List.mem_singleton.mp new]
        refine Least.planSet (fun j member proper => leasts _ ?_) (costed_foldl input uninit equalities subsets)
          (planned_foldl equalities subsets) improve.1 (fun j member => keyless j (inside j member))
          sorted.nodup nonempty
        exact ordered_schedule distinct done s rest whole _ ⟨proper, j, member, rfl⟩
    · rw [List.foldl_append, List.foldl_cons, List.foldl_nil]
      exact improve.2 _ rfl

/-- As long as each candidate improves, no order of the joins can be executed at less than the cost of
the plan that `order_joins` returns. -/
theorem orderJoins_least (input : Statistics ℚ) (uninit : Uninitialized ℚ)
    {joins : List LogicalJoinNode} (distinct : joins.Nodup) (noBig : ¬ HasBigTable joins)
    (keyless : ∀ j ∈ joins, Keyless input j) (improve : AllImprove input uninit joins)
    {order : List LogicalJoinNode} {card : CostCard ℚ} (perm : order.Perm joins)
    (executes : Executes input order card) :
    ∃ order' best, List.Perm order' joins ∧ Executes input order' best ∧
      best.plan = orderJoins input uninit joins ∧ best.cost ≤ card.cost := by
  have equalities : Equalities joins := fun j member => (keyless j member).equality
  by_cases some : joins = []
  · subst some
    obtain rfl := List.perm_nil.mp perm
    refine ⟨[], card, perm, executes, ?_, le_rfl⟩
    exact List.forall₂_nil_right_iff.mp executes.sameJoin
  have distinctKeys := equalities.distinct_keys distinct
  have all := allJoins_perm distinctKeys
  have equalities' : Equalities (allJoins joins) := fun j member => equalities j (all.mem_iff.mp member)
  have isRound : allJoins joins ∈ schedule joins (List.range' 1 joins.length) := by
    refine (mem_rounds_iff distinctKeys).mpr ⟨?_, fun j => all.mem_iff.mp, fun empty => ?_⟩
    · rw [← selected_replicate]
      exact selected_sorted _ _
    · rw [empty] at all
      exact some (List.nil_perm.mp all)
  have least : Least input (planRounds input uninit joins (List.range' 1 joins.length)) (allJoins joins) :=
    least_rounds distinctKeys keyless _ rfl (fun t absent => absurd absent List.not_mem_nil) improve _
      isRound
  obtain ⟨planned, le⟩ := least order card (perm.trans all.symm) executes
  obtain ⟨order', perm', executes'⟩ := planRounds_costed input uninit equalities _ equalities' planned
  exact ⟨order', _, perm'.trans all, executes', (orderJoins_planned input uninit some noBig equalities).symm, le⟩

/-- Both orders of the chain cost at least what the plan costs. -/
theorem orderJoins_least_chain : ∃ card, Executes dearFirst chain card ∧
    ∃ order best, List.Perm order chain ∧ Executes dearFirst order best ∧
      best.plan = orderJoins dearFirst (fun _ _ => (0, 0)) chain ∧ best.cost ≤ card.cost := by
  have keyless : ∀ j ∈ chain, Keyless dearFirst j := by
    intro j member
    have isOne : j = ⟨"a", "b", 1, 1, .eq⟩ ∨ j = ⟨"b", "c", 1, 1, .eq⟩ := by simpa [chain] using member
    rcases isOne with rfl | rfl
    · exact ⟨rfl, by decide, by decide, by decide +kernel⟩
    · exact ⟨rfl, by decide, by decide, by decide +kernel⟩
  have first : Executes dearFirst [⟨"a", "b", 1, 1, .eq⟩] _ :=
    .join .nothing rfl List.mem_cons_self
  have executes : Executes dearFirst chain _ := .join first rfl List.mem_cons_self
  exact ⟨_, executes, orderJoins_least dearFirst (fun _ _ => (0, 0)) (by decide) (by decide) keyless
    (by decide +kernel) (List.Perm.refl _) executes⟩

end Least

end BuzzDB.Optimizer
