import BuzzDB.Optimizer.OrderJoins
import Mathlib.Data.List.Induction
import Mathlib.Data.Rat.Floor

/-!
# Which joins the order keeps

`OrdersAll` says that a list has every join once, as given or with its sides exchanged.
The two special paths of `order_joins` are permutations up to joins that `operator==`
cannot tell apart.  For the third one `Planned` says that every plan in the cache is
empty or has all joins of its set; the joins are lost exactly if the plan of the whole set
is empty, or there is none.
-/

namespace BuzzDB.Optimizer

open Double

/-- The join as given, or with its sides exchanged. -/
def SameJoin (r j : LogicalJoinNode) : Prop := r = j ∨ r = j.swapInnerOuter

/-- Every join occurs exactly once. -/
def OrdersAll (result joins : List LogicalJoinNode) : Prop :=
  ∃ order, List.Perm order joins ∧ List.Forall₂ SameJoin result order

variable {result plan joins rest : List LogicalJoinNode} {r j k : LogicalJoinNode}

theorem OrdersAll.refl (joins : List LogicalJoinNode) : OrdersAll joins joins :=
  ⟨joins, List.Perm.refl _, List.forall₂_same.mpr fun _ _ => Or.inl rfl⟩

theorem OrdersAll.of_perm (perm : result.Perm joins) : OrdersAll result joins :=
  ⟨result, perm, List.forall₂_same.mpr fun _ _ => Or.inl rfl⟩

theorem OrdersAll.perm (orders : OrdersAll result rest) (perm : rest.Perm joins) :
    OrdersAll result joins := by
  obtain ⟨order, isPerm, same⟩ := orders
  exact ⟨order, isPerm.trans perm, same⟩

theorem OrdersAll.length_eq (orders : OrdersAll result joins) : result.length = joins.length := by
  obtain ⟨order, isPerm, same⟩ := orders
  rw [same.length_eq, isPerm.length_eq]

/-- A further join goes to the end. -/
theorem OrdersAll.append (orders : OrdersAll plan rest) (same : SameJoin r j) :
    OrdersAll (plan ++ [r]) (rest ++ [j]) := by
  obtain ⟨order, isPerm, all⟩ := orders
  exact ⟨order ++ [j], isPerm.append_right [j], List.rel_append all (.cons same .nil)⟩

theorem OrdersAll.nil_iff : OrdersAll [] joins ↔ joins = [] := by
  constructor
  · intro orders
    exact List.eq_nil_of_length_eq_zero orders.length_eq.symm
  · rintro rfl
    exact OrdersAll.refl []

/-! ## The two special paths -/

/-- With the joins of a big table at the end, no join is lost. -/
theorem bigTableLast_ordersAll (joins : List LogicalJoinNode) :
    OrdersAll (bigTableLast joins) joins := by
  let isRest : LogicalJoinNode → Bool := fun node =>
    decide (node.rightTable ≠ "big_table" ∧ node.leftTable ≠ "big_table")
  have last : List.Forall₂ SameJoin
      (joins.filterMap fun node =>
        if node.rightTable = "big_table" then some node
        else if node.leftTable = "big_table" then some node.swapInnerOuter
        else none)
      (joins.filter fun node => !isRest node) := by
    induction joins with
    | nil => exact .nil
    | cons node joins ih =>
      rw [List.filterMap_cons, List.filter_cons]
      by_cases right : node.rightTable = "big_table"
      · simp only [isRest, right, if_true, ne_eq, not_true_eq_false, false_and, decide_false,
          Bool.not_false]
        exact .cons (Or.inl rfl) ih
      · by_cases left : node.leftTable = "big_table"
        · simp only [isRest, right, left, if_true, if_false, ne_eq, not_true_eq_false, and_false,
            decide_false, Bool.not_false]
          exact .cons (Or.inr rfl) ih
        · simp only [isRest, right, left, if_false, ne_eq, not_false_eq_true, and_self, decide_true,
            Bool.not_true, Bool.false_eq_true]
          exact ih
  have front : List.Forall₂ SameJoin (joins.filter isRest) (joins.filter isRest) :=
    List.forall₂_same.mpr fun _ _ => Or.inl rfl
  exact ⟨_, List.filter_append_perm isRest joins, List.rel_append front last⟩

/-- The first join with table "a" that is not an equality is the only one with its tables and
fields. -/
def AloneOnItsFields (joins : List LogicalJoinNode) : Prop :=
  ∀ aJoin, joins.find? isAJoin = some aJoin → ∀ j ∈ joins, j.key = aJoin.key → j = aJoin

/-- With one join at the end, the joins it equals are lost. -/
theorem nonEqualityLast_ordersAll_iff (distinct : joins.Nodup) :
    OrdersAll (nonEqualityLast joins) joins ↔ AloneOnItsFields joins := by
  unfold nonEqualityLast AloneOnItsFields
  cases found : joins.find? isAJoin with
  | none => exact ⟨fun _ aJoin absent => (by cases absent), fun _ => OrdersAll.refl joins⟩
  | some aJoin =>
    have member := List.mem_of_find?_eq_some found
    have split := List.filter_append_perm (fun node => !node.equal aJoin) joins
    simp only [Bool.not_not] at split
    have inEqual : aJoin ∈ joins.filter (fun node => node.equal aJoin) :=
      List.mem_filter.mpr ⟨member, decide_eq_true rfl⟩
    have total := split.length_eq
    rw [List.length_append] at total
    constructor
    · intro orders other isFirst j inside sameKey
      obtain rfl := Option.some.inj isFirst
      have length := orders.length_eq
      dsimp only at length
      rw [List.length_append, List.length_singleton] at length
      have single : (joins.filter fun node => node.equal aJoin).length = 1 := by omega
      obtain ⟨only, isOnly⟩ := List.length_eq_one_iff.mp single
      have also : j ∈ joins.filter (fun node => node.equal aJoin) :=
        List.mem_filter.mpr ⟨inside, decide_eq_true sameKey⟩
      rw [isOnly, List.mem_singleton] at inEqual also
      rw [also, inEqual]
    · intro alone
      have only : joins.filter (fun node => node.equal aJoin) = [aJoin] := by
        have nodup := distinct.filter (fun node => node.equal aJoin)
        refine List.perm_singleton.mp ((List.perm_ext_iff_of_nodup nodup
          (List.nodup_singleton aJoin)).mpr fun j => ?_)
        rw [List.mem_filter, List.mem_singleton]
        constructor
        · intro inside
          exact alone aJoin rfl j inside.1 (of_decide_eq_true inside.2)
        · rintro rfl
          exact ⟨member, decide_eq_true rfl⟩
      rw [only] at split
      exact OrdersAll.of_perm split

/-! ## The plan cache -/

section Cache

variable {D : Type} [Double D] {input : Statistics D} {uninit : Uninitialized D} {pc : PlanCache D}
  {s t : JoinSet} {σ : Sides D} {best : D}

/-- All joins are equalities. -/
def Equalities (s : List LogicalJoinNode) : Prop := ∀ j ∈ s, j.op = .eq

instance : DecidablePred Equalities := fun _ => List.decidableBAll _ _

/-- Joins with the same operator are told apart by their keys. -/
theorem eq_of_keys (eqS : Equalities s) (eqT : Equalities t) (same : s.keys = t.keys) : s = t := by
  induction s generalizing t with
  | nil => exact (List.map_eq_nil_iff.mp same.symm).symm
  | cons j s ih =>
    cases t with
    | nil => cases same
    | cons k t =>
      obtain ⟨sameKey, sameKeys⟩ := List.cons.inj same
      have sameJoin : j = k := by
        have sameOp := (eqS j List.mem_cons_self).trans (eqT k List.mem_cons_self).symm
        cases j
        cases k
        simp only [LogicalJoinNode.key, Prod.mk.injEq] at sameKey
        obtain ⟨rfl, rfl, rfl, rfl⟩ := sameKey
        cases sameOp
        rfl
      rw [sameJoin, ih (fun i member => eqS i (List.mem_cons_of_mem j member))
        (fun i member => eqT i (List.mem_cons_of_mem k member)) sameKeys]

/-- Different equalities have different keys. -/
theorem Equalities.distinct_keys (equalities : Equalities joins) (distinct : joins.Nodup) :
    (joins.map LogicalJoinNode.key).Nodup := by
  refine List.Nodup.map_on (fun j inside k inside' same => ?_) distinct
  have singletons : [j] = [k] :=
    eq_of_keys (fun i member => List.mem_singleton.mp member ▸ equalities j inside)
      (fun i member => List.mem_singleton.mp member ▸ equalities k inside')
      (congrArg (fun key => [key]) same)
  exact (List.cons.inj singletons).1

omit [Double D] in
theorem getOrder_addPlan_self (cost : D) (card : Int32) :
    (pc.addPlan s cost card plan).getOrder s = plan := by
  change (Function.update pc.bestOrders s.keys (some plan) s.keys).getD [] = plan
  rw [Function.update_self, Option.getD_some]

omit [Double D] in
theorem getOrder_addPlan_of_ne (cost : D) (card : Int32) (different : t.keys ≠ s.keys) :
    (pc.addPlan s cost card plan).getOrder t = pc.getOrder t := by
  change (Function.update pc.bestOrders s.keys (some plan) t.keys).getD [] = pc.getOrder t
  rw [Function.update_of_ne different]
  rfl

omit [Double D] in
theorem getOrder_congr (pc : PlanCache D) (same : t.keys = s.keys) : pc.getOrder t = pc.getOrder s := by
  rw [PlanCache.getOrder, same, PlanCache.getOrder]

/-- What the first half of `compute_cost_and_card_of_subplan` finds for the rest of the set. -/
theorem sides_prevBest (found : sides input j s pc = some σ) :
    σ.prevBest = [] ∧ s.erase j = [] ∨ σ.prevBest = pc.getOrder (s.erase j) ∧ σ.prevBest ≠ [] := by
  unfold sides at found
  dsimp only at found
  split at found
  · rename_i empty
    cases found
    exact Or.inl ⟨rfl, List.isEmpty_iff.mp empty⟩
  · split at found
    · cases found
    · rename_i nonempty
      have planned : pc.getOrder (s.erase j) ≠ [] := fun empty => nonempty (by rw [empty]; rfl)
      split at found
      · cases found
        exact Or.inr ⟨rfl, planned⟩
      · split at found
        · cases found
          exact Or.inr ⟨rfl, planned⟩
        · cases found

/-- A card that is written has the join behind the plan for the rest. -/
theorem choose_plan {card : CostCard D} (chosen : σ.choose j best = some card) :
    ∃ r, SameJoin r j ∧ card.plan = σ.prevBest ++ [r] := by
  unfold Sides.choose at chosen
  dsimp only at chosen
  split at chosen
  · split at chosen
    · cases chosen
      exact ⟨j, Or.inl rfl, rfl⟩
    · cases chosen
  · split at chosen
    · cases chosen
      exact ⟨j.swapInnerOuter, Or.inr rfl, rfl⟩
    · cases chosen

/-- The card is written exactly if the cheaper of the two is cheaper than the best so far. -/
def Sides.Improves (σ : Sides D) (j : LogicalJoinNode) (best : D) : Prop :=
  lt (if lt (σ.costs j).1 (σ.costs j).2 then (σ.costs j).1 else (σ.costs j).2) best = true

theorem choose_isSome : (σ.choose j best).isSome ↔ σ.Improves j best := by
  unfold Sides.choose Sides.Improves
  dsimp only
  split
  · split
    · rename_i improves
      exact iff_of_true rfl improves
    · rename_i worse
      exact iff_of_false (by simp) worse
  · split
    · rename_i improves
      exact iff_of_true rfl improves
    · rename_i worse
      exact iff_of_false (by simp) worse

/-- Every plan in the cache is empty or has all joins of its set. -/
def Planned (pc : PlanCache D) : Prop :=
  ∀ s, Equalities s → pc.getOrder s = [] ∨ OrdersAll (pc.getOrder s) s

theorem Equalities.erase (equalities : Equalities s) (j : LogicalJoinNode) :
    Equalities (s.erase j) := fun k member => equalities k (List.mem_filter.mp member).1

/-- A join goes back to the rest of its set. -/
theorem erase_append_perm (nodup : s.keys.Nodup) (member : j ∈ s) : (s.erase j ++ [j]).Perm s := by
  have split := List.filter_append_perm (fun k => !k.equal j) s
  simp only [Bool.not_not] at split
  have only : s.filter (fun k => k.equal j) = [j] := by
    have distinct : s.Nodup := List.Nodup.of_map _ nodup
    refine List.perm_singleton.mp ((List.perm_ext_iff_of_nodup (distinct.filter _)
      (List.nodup_singleton j)).mpr fun k => ?_)
    rw [List.mem_filter, List.mem_singleton]
    constructor
    · intro inside
      exact List.inj_on_of_nodup_map nodup inside.1 member (of_decide_eq_true inside.2)
    · rintro rfl
      exact ⟨member, decide_eq_true rfl⟩
  rwa [only] at split

/-- A written card has all joins of the set. -/
theorem Planned.choose (planned : Planned pc) (equalities : Equalities s) (nodup : s.keys.Nodup)
    (member : j ∈ s) (found : sides input j s pc = some σ) {card : CostCard D}
    (chosen : σ.choose j best = some card) : OrdersAll card.plan s := by
  obtain ⟨r, same, plan⟩ := choose_plan chosen
  have before : OrdersAll σ.prevBest (s.erase j) := by
    rcases sides_prevBest found with ⟨nothing, alone⟩ | ⟨cached, nonempty⟩
    · rw [nothing, alone]
      exact OrdersAll.refl []
    · rw [cached] at nonempty ⊢
      exact (planned _ (equalities.erase j)).resolve_left nonempty
  rw [plan]
  exact (before.append same).perm (erase_append_perm nodup member)

variable (input uninit pc s j) in
/-- One more candidate: the card stays, becomes empty, or is written. -/
theorem tryLast_cases (card : CostCard D × Bool) :
    (sides input j s pc = none ∧ tryLast input uninit pc s card j = card) ∨
      ∃ σ, sides input j s pc = some σ ∧
        ((¬ σ.Improves j card.1.cost ∧
            tryLast input uninit pc s card j = (⟨(uninit s j).1, (uninit s j).2, []⟩, true)) ∨
          (σ.Improves j card.1.cost ∧ ∃ written, σ.choose j card.1.cost = some written ∧
            tryLast input uninit pc s card j = (written, true))) := by
  unfold tryLast computeCostAndCardOfSubplan
  cases found : sides input j s pc with
  | none => exact Or.inl ⟨rfl, rfl⟩
  | some σ =>
    refine Or.inr ⟨σ, rfl, ?_⟩
    cases chosen : σ.choose j card.1.cost with
    | none =>
      refine Or.inl ⟨fun improves => ?_, ?_⟩
      · have isSome := choose_isSome.mpr improves
        rw [chosen] at isSome
        cases isSome
      · simp [chosen]
    | some written =>
      refine Or.inr ⟨choose_isSome.mp (by rw [chosen]; rfl), written, rfl, ?_⟩
      simp [chosen]

theorem bestCard_append {front : List LogicalJoinNode} :
    bestCard input uninit pc s (front ++ [j]) =
      tryLast input uninit pc s (bestCard input uninit pc s front) j := by
  rw [bestCard, List.foldl_append, List.foldl_cons, List.foldl_nil, ← bestCard]

variable (input uninit) in
/-- The candidates leave no plan, or one with all joins. -/
theorem Planned.bestCard (planned : Planned pc) (equalities : Equalities s) (nodup : s.keys.Nodup)
    {candidates : List LogicalJoinNode} (members : ∀ j ∈ candidates, j ∈ s) :
    (bestCard input uninit pc s candidates).1.plan = [] ∨
      OrdersAll (bestCard input uninit pc s candidates).1.plan s := by
  induction candidates using List.reverseRecOn with
  | nil => exact Or.inl rfl
  | append_singleton front j ih =>
    have before := ih fun k member => members k (List.mem_append_left _ member)
    have member := members j (List.mem_append_right _ (List.mem_singleton_self j))
    rw [bestCard_append]
    rcases tryLast_cases j input uninit pc s (Optimizer.bestCard input uninit pc s front) with
      ⟨_, stays⟩ | ⟨σ, found, ⟨_, unset⟩ | ⟨_, written, chosen, isWritten⟩⟩
    · rw [stays]
      exact before
    · rw [unset]
      exact Or.inl rfl
    · rw [isWritten]
      exact Or.inr (planned.choose equalities nodup member found chosen)

theorem Planned.empty : Planned (PlanCache.empty : PlanCache D) := fun _ _ => Or.inl rfl

theorem Planned.planSet (planned : Planned pc) (equalities : Equalities s) (nodup : s.keys.Nodup) :
    Planned (planSet input uninit pc s) := by
  have card := planned.bestCard input uninit equalities nodup fun (j : LogicalJoinNode) inside =>
    (inside : j ∈ s)
  unfold Optimizer.planSet
  dsimp only
  split
  · intro t eqT
    by_cases same : JoinSet.keys t = s.keys
    · obtain rfl := eq_of_keys eqT equalities same
      rw [getOrder_addPlan_self]
      exact card
    · rw [getOrder_addPlan_of_ne _ _ same]
      exact planned t eqT
  · exact planned

/-! ## The rounds -/

/-- The sets that the rounds have planned so far are all smaller than `n`. -/
def Below (pc : PlanCache D) (n : Nat) : Prop := ∀ s : JoinSet, n ≤ s.length → pc.getOrder s = []

theorem Below.planSet {n : Nat} (below : Below pc n) (small : s.length < n) :
    Below (planSet input uninit pc s) n := by
  unfold Optimizer.planSet
  dsimp only
  split
  · intro t large
    rw [getOrder_addPlan_of_ne]
    · exact below t large
    · intro same
      have length := congrArg List.length same
      rw [JoinSet.keys, JoinSet.keys, List.length_map, List.length_map] at length
      omega
  · exact below

/-- A round goes over subsets of its size, and keeps the cache planned. -/
theorem planRound {n i : Nat} (equalities : Equalities joins) (planned : Planned pc)
    (below : Below pc n) (small : i < n) :
    Planned ((enumerateSubsets joins i).foldl (Optimizer.planSet input uninit) pc) ∧
      Below ((enumerateSubsets joins i).foldl (Optimizer.planSet input uninit) pc) n := by
  have fold : ∀ (sets : List JoinSet) (pc : PlanCache D),
      (∀ s ∈ sets, s.Sorted ∧ (∀ j ∈ s, j ∈ joins) ∧ s.length ≤ i) → Planned pc → Below pc n →
      Planned (sets.foldl (Optimizer.planSet input uninit) pc) ∧
        Below (sets.foldl (Optimizer.planSet input uninit) pc) n := by
    intro sets
    induction sets with
    | nil => exact fun pc _ planned below => ⟨planned, below⟩
    | cons s sets ih =>
      intro pc members planned below
      obtain ⟨sorted, inside, short⟩ := members s List.mem_cons_self
      rw [List.foldl_cons]
      refine ih _ (fun t member => members t (List.mem_cons_of_mem s member)) ?_ ?_
      · exact planned.planSet (fun j member => equalities j (inside j member)) sorted.nodup
      · exact below.planSet (Nat.lt_of_le_of_lt short small)
  exact fold _ pc (fun s member => mem_enumerateSubsets member) planned below

variable (input uninit) in
theorem planRounds_spec {n : Nat} (equalities : Equalities joins) (sizes : List Nat)
    (small : ∀ i ∈ sizes, i < n) :
    Planned (planRounds input uninit joins sizes) ∧
      Below (planRounds input uninit joins sizes) n := by
  induction sizes using List.reverseRecOn with
  | nil => exact ⟨Planned.empty, fun _ _ => rfl⟩
  | append_singleton sizes i ih =>
    obtain ⟨planned, below⟩ := ih fun k member => small k (List.mem_append_left _ member)
    rw [planRounds, List.foldl_append, List.foldl_cons, List.foldl_nil, ← planRounds]
    exact planRound equalities planned below
      (small i (List.mem_append_right _ (List.mem_singleton_self i)))

/-- The sets that the rounds go over. -/
def schedule (joins : List LogicalJoinNode) (sizes : List Nat) : List JoinSet :=
  sizes.flatMap (enumerateSubsets joins)

theorem planRounds_eq (sizes : List Nat) :
    planRounds input uninit joins sizes =
      (schedule joins sizes).foldl (planSet input uninit) PlanCache.empty := by
  rw [schedule, List.foldl_flatMap]
  rfl

/-- The last round goes over the set of all joins. -/
theorem schedule_last (nonempty : joins ≠ []) : schedule joins (List.range' 1 joins.length) =
    schedule joins (List.range' 1 (joins.length - 1)) ++ [allJoins joins] := by
  obtain ⟨m, isSucc⟩ :=
    Nat.exists_eq_succ_of_ne_zero (Nat.ne_of_gt (List.length_pos_iff.mpr nonempty))
  have rounds : List.range' 1 joins.length =
      List.range' 1 (joins.length - 1) ++ [joins.length] := by
    rw [isSucc, Nat.succ_sub_one, List.range'_concat, Nat.one_mul, Nat.add_comm]
  rw [rounds, schedule, List.flatMap_append, List.flatMap_singleton, enumerateSubsets_length]
  rfl

variable (input uninit) in
/-- The plan cache before the last round. -/
def cacheBefore (joins : List LogicalJoinNode) : PlanCache D :=
  planRounds input uninit joins (List.range' 1 (joins.length - 1))

/-- The third path keeps all joins exactly if it finds a plan for the whole set that is not empty. -/
theorem planned_ordersAll_iff (distinct : joins.Nodup) (equalities : Equalities joins)
    (nonempty : joins ≠ []) :
    OrdersAll ((planRounds input uninit joins (List.range' 1 joins.length)).getOrder
        (allJoins joins)) joins ↔
      (bestCard input uninit (cacheBefore input uninit joins) (allJoins joins)
          (allJoins joins)).2 = true ∧
        (bestCard input uninit (cacheBefore input uninit joins) (allJoins joins)
          (allJoins joins)).1.plan ≠ [] := by
  have distinctKeys := equalities.distinct_keys distinct
  have all := allJoins_perm distinctKeys
  have eqAll : Equalities (allJoins joins) := fun j member => equalities j (all.mem_iff.mp member)
  have nodup : JoinSet.keys (allJoins joins) |>.Nodup :=
    (all.map LogicalJoinNode.key).nodup_iff.mpr distinctKeys
  have small : ∀ i ∈ List.range' 1 (joins.length - 1), i < joins.length := by
    intro i member
    have bounds := List.mem_range'_1.mp member
    omega
  obtain ⟨planned, below⟩ := planRounds_spec input uninit equalities _ small
  have last : planRounds input uninit joins (List.range' 1 joins.length) =
      planSet input uninit (cacheBefore input uninit joins) (allJoins joins) := by
    rw [planRounds_eq, schedule_last nonempty, List.foldl_append, ← planRounds_eq]
    rfl
  have card := planned.bestCard input uninit eqAll nodup fun j (inside : j ∈ allJoins joins) =>
    inside
  rw [last]
  unfold planSet
  dsimp only
  split
  · rename_i foundPlan
    rw [getOrder_addPlan_self]
    constructor
    · intro orders
      refine ⟨foundPlan, fun empty => nonempty ?_⟩
      rw [empty] at orders
      exact OrdersAll.nil_iff.mp orders
    · intro written
      exact (card.resolve_left written.2).perm all
  · rename_i noPlan
    rw [cacheBefore, below _ (Nat.le_of_eq all.length_eq.symm)]
    refine iff_of_false (fun orders => nonempty (OrdersAll.nil_iff.mp orders)) ?_
    exact fun written => noPlan written.1

end Cache

/-! ## All three paths -/

/-- One of the joins is with "big_table". -/
def HasBigTable (joins : List LogicalJoinNode) : Prop := ∃ j ∈ joins, j.Mentions "big_table"

instance : DecidablePred HasBigTable := fun _ => List.decidableBEx _ _

theorem hasBigTable_iff : HasBigTable joins ↔
    joins.any (fun j => j.rightTable = "big_table" || j.leftTable = "big_table") = true := by
  rw [List.any_eq_true]
  refine exists_congr fun j => and_congr_right fun _ => ?_
  rw [Bool.or_eq_true, decide_eq_true_eq, decide_eq_true_eq]
  exact or_comm

theorem equalities_iff :
    Equalities joins ↔ ¬ joins.any (fun j => j.op ≠ .eq) = true := by
  rw [List.any_eq_true]
  constructor
  · rintro equalities ⟨j, member, notEq⟩
    exact of_decide_eq_true notEq (equalities j member)
  · intro none j member
    by_contra notEq
    exact none ⟨j, member, decide_eq_true notEq⟩

theorem HasBigTable.ne_nil (big : HasBigTable joins) : joins.isEmpty = false := by
  obtain ⟨j, member, _⟩ := big
  exact List.isEmpty_eq_false_iff_exists_mem.mpr ⟨j, member⟩

section Paths

variable {D : Type} [Double D] (input : Statistics D) (uninit : Uninitialized D)

theorem orderJoins_bigTable (big : HasBigTable joins) :
    orderJoins input uninit joins = bigTableLast joins := by
  rw [orderJoins, big.ne_nil, if_neg Bool.false_ne_true, if_pos (hasBigTable_iff.mp big)]

theorem orderJoins_nonEquality (noBig : ¬ HasBigTable joins) (notAll : ¬ Equalities joins) :
    orderJoins input uninit joins = nonEqualityLast joins := by
  have nonempty : joins.isEmpty = false := by
    refine Bool.eq_false_iff.mpr fun empty => notAll ?_
    rw [List.isEmpty_iff.mp empty]
    exact fun j absent => absurd absent List.not_mem_nil
  rw [orderJoins, nonempty, if_neg Bool.false_ne_true, if_neg (mt hasBigTable_iff.mpr noBig),
    if_pos (not_not.mp (mt equalities_iff.mpr notAll))]

theorem orderJoins_planned (nonempty : joins ≠ []) (noBig : ¬ HasBigTable joins)
    (equalities : Equalities joins) :
    orderJoins input uninit joins =
      (planRounds input uninit joins (List.range' 1 joins.length)).getOrder (allJoins joins) := by
  rw [orderJoins, List.isEmpty_eq_false_iff.mpr nonempty, if_neg Bool.false_ne_true,
    if_neg (mt hasBigTable_iff.mpr noBig), if_neg (equalities_iff.mp equalities)]

end Paths

/-! ## One input -/

/-- Exact arithmetic, which the one on `double` is on small integers. -/
instance : Double ℚ where
  lt x y := decide (x < y)
  add x y := x + y
  mul x y := x * y
  literal m k := (m : ℚ) / 10 ^ k
  ofUInt64 n := n.toNat
  toUInt64 x := UInt64.ofNat ⌊x⌋.toNat
  toInt32 x := Int32.ofInt ⌊x⌋
  dblMax := 2 ^ 1024 - 2 ^ 971

/-- Two tables have a join. -/
def Linked (joins : List LogicalJoinNode) (t u : String) : Prop :=
  ∃ j ∈ joins, j.Mentions t ∧ j.Mentions u

instance (joins : List LogicalJoinNode) (t u : String) : Decidable (Linked joins t u) :=
  List.decidableBEx _ _

/-- The join graph is connected; a join has both of its tables in one component. -/
def Connected (joins : List LogicalJoinNode) : Prop :=
  ∀ j ∈ joins, ∀ k ∈ joins, Relation.ReflTransGen (Linked joins) j.leftTable k.leftTable

/-- One page and one cost unit for every table. -/
def onePage : Statistics ℚ := ⟨fun _ => ⟨1, 1⟩, fun _ => 1⟩

/-- Two comparisons of the same columns: the second one is lost. -/
theorem not_ordersAll_sameFields :
    List.Nodup [(⟨"a", "b", 1, 1, .lt⟩ : LogicalJoinNode), ⟨"a", "b", 1, 1, .ne⟩] ∧
      Connected [⟨"a", "b", 1, 1, .lt⟩, ⟨"a", "b", 1, 1, .ne⟩] ∧
      orderJoins onePage (fun _ _ => (0, 0))
        [⟨"a", "b", 1, 1, .lt⟩, ⟨"a", "b", 1, 1, .ne⟩] = [⟨"a", "b", 1, 1, .lt⟩] ∧
      ¬ OrdersAll (orderJoins onePage (fun _ _ => (0, 0))
          [⟨"a", "b", 1, 1, .lt⟩, ⟨"a", "b", 1, 1, .ne⟩])
        [⟨"a", "b", 1, 1, .lt⟩, ⟨"a", "b", 1, 1, .ne⟩] := by
  have result : orderJoins onePage (fun _ _ => (0, 0))
      [⟨"a", "b", 1, 1, .lt⟩, ⟨"a", "b", 1, 1, .ne⟩] = [⟨"a", "b", 1, 1, .lt⟩] := by
    simp [orderJoins, nonEqualityLast, isAJoin, LogicalJoinNode.equal, LogicalJoinNode.key]
  refine ⟨by decide, fun j member k member' => ?_, result, fun orders => ?_⟩
  · simp only [List.mem_cons, List.not_mem_nil, or_false] at member member'
    rcases member with rfl | rfl
    · rcases member' with rfl | rfl
      · exact Relation.ReflTransGen.refl
      · exact Relation.ReflTransGen.refl
    · rcases member' with rfl | rfl
      · exact Relation.ReflTransGen.refl
      · exact Relation.ReflTransGen.refl
  · rw [result] at orders
    exact absurd orders.length_eq (by decide)

end BuzzDB.Optimizer
