import BuzzDB.Optimizer.Meaning

/-!
# Left-deep orders

The plans in the cache are left-deep: `compute_cost_and_card_of_subplan` puts a join only
behind a plan that has one of its tables.  The two special paths of `order_joins` keep the
order of the input, up to the joins that they move to the end.
-/

namespace BuzzDB.Optimizer

/-- The two joins have a table in common. -/
def Shares (k j : LogicalJoinNode) : Prop := k.Mentions j.leftTable ∨ k.Mentions j.rightTable

instance (k j : LogicalJoinNode) : Decidable (Shares k j) := inferInstanceAs (Decidable (_ ∨ _))

/-- Each join after the first shares a table with an earlier one. -/
def LeftDeep (plan : List LogicalJoinNode) : Prop :=
  ∀ front j back, plan = front ++ j :: back → front ≠ [] → ∃ k ∈ front, Shares k j

variable {plan rest last joins : List LogicalJoinNode} {r j k : LogicalJoinNode} {t : String}

theorem shares_of_mention (first : k.Mentions t) (second : j.Mentions t) : Shares k j := by
  rcases second with rfl | rfl
  · exact Or.inl first
  · exact Or.inr first

theorem shares_comm : Shares k j ↔ Shares j k := by
  unfold Shares LogicalJoinNode.Mentions
  simp only [eq_comm]
  tauto

/-- Exchanged sides have the same tables. -/
theorem SameJoin.shares (same : SameJoin r j) : Shares k r ↔ Shares k j := by
  rcases same with rfl | rfl
  · exact Iff.rfl
  · exact or_comm

theorem LeftDeep.nil : LeftDeep [] := by
  intro front j back split
  exact absurd split (by simp)

theorem leftDeep_concat :
    LeftDeep (plan ++ [j]) ↔ LeftDeep plan ∧ (plan = [] ∨ ∃ k ∈ plan, Shares k j) := by
  constructor
  · intro deep
    refine ⟨fun front i back split nonempty => ?_, ?_⟩
    · refine deep front i (back ++ [j]) ?_ nonempty
      rw [split, List.append_assoc, List.cons_append]
    · by_cases empty : plan = []
      · exact Or.inl empty
      · exact Or.inr (deep plan j [] rfl empty)
  · rintro ⟨deep, shares⟩ front i back split nonempty
    induction back using List.reverseRecOn with
    | nil =>
      obtain ⟨rfl, same⟩ := List.append_inj' split rfl
      cases same
      exact shares.resolve_left nonempty
    | append_singleton back final _ =>
      rw [← List.cons_append, ← List.append_assoc] at split
      obtain ⟨rfl, same⟩ := List.append_inj' split rfl
      exact deep front i back rfl nonempty

theorem leftDeep_singleton (j : LogicalJoinNode) : LeftDeep [j] :=
  leftDeep_concat.mpr ⟨LeftDeep.nil, Or.inl rfl⟩

/-- Joins that all have one table may follow where the first of them may. -/
theorem leftDeep_append (common : ∀ j ∈ last, j.Mentions t) :
    LeftDeep (rest ++ last) ↔
      LeftDeep rest ∧ (rest = [] ∨ ∀ j, last.head? = some j → ∃ k ∈ rest, Shares k j) := by
  induction last using List.reverseRecOn with
  | nil =>
    rw [List.append_nil]
    exact (and_iff_left (Or.inr fun j absent => by cases absent)).symm
  | append_singleton last j ih =>
    have before := ih fun k member => common k (List.mem_append_left _ member)
    rw [← List.append_assoc, leftDeep_concat, before]
    cases last with
    | nil =>
      rw [List.append_nil, List.nil_append, List.head?_cons]
      constructor
      · rintro ⟨⟨deep, _⟩, shares⟩
        refine ⟨deep, shares.imp_right fun found k same => ?_⟩
        cases same
        exact found
      · rintro ⟨deep, shares⟩
        exact ⟨⟨deep, Or.inr fun k absent => by cases absent⟩, shares.imp_right fun all => all j rfl⟩
    | cons k others =>
      refine and_iff_left (Or.inr ⟨k, List.mem_append_right _ List.mem_cons_self, ?_⟩)
      exact shares_of_mention (common k (List.mem_append_left _ List.mem_cons_self))
        (common j (List.mem_append_right _ (List.mem_singleton_self j)))

/-! ## The cached plans -/

section Cache

variable {D : Type} [Double D] {input : Statistics D} {uninit : Uninitialized D} {pc : PlanCache D}
  {s : JoinSet} {σ : Sides D}

/-- Every plan in the cache is left-deep. -/
def DeepPlans (pc : PlanCache D) : Prop := ∀ s, LeftDeep (pc.getOrder s)

theorem doesJoin_iff : doesJoin plan t = true ↔ ∃ k ∈ plan, k.Mentions t := by
  rw [doesJoin, List.any_eq_true]
  refine exists_congr fun k => and_congr_right fun _ => ?_
  rw [Bool.or_eq_true, decide_eq_true_eq, decide_eq_true_eq]
  rfl

/-- The plan for the rest of the set has a table of the join, if there is a rest. -/
theorem sides_shares (found : sides input j s pc = some σ) :
    σ.prevBest = [] ∨ σ.prevBest = pc.getOrder (s.erase j) ∧ ∃ k ∈ σ.prevBest, Shares k j := by
  unfold sides at found
  dsimp only at found
  split at found
  · cases found
    exact Or.inl rfl
  · split at found
    · cases found
    · split at found
      · rename_i left
        cases found
        obtain ⟨k, member, mentions⟩ := doesJoin_iff.mp left
        exact Or.inr ⟨rfl, k, member, Or.inl mentions⟩
      · split at found
        · rename_i right
          cases found
          obtain ⟨k, member, mentions⟩ := doesJoin_iff.mp right
          exact Or.inr ⟨rfl, k, member, Or.inr mentions⟩
        · cases found

theorem DeepPlans.bestCard (deep : DeepPlans pc) (candidates : List LogicalJoinNode) :
    LeftDeep (bestCard input uninit pc s candidates).1.plan := by
  induction candidates using List.reverseRecOn with
  | nil => exact LeftDeep.nil
  | append_singleton front j ih =>
    rw [bestCard_append]
    rcases tryLast_cases j input uninit pc s (Optimizer.bestCard input uninit pc s front) with
      ⟨_, stays⟩ | ⟨σ, found, ⟨_, unset⟩ | ⟨_, written, chosen, isWritten⟩⟩
    · rw [stays]
      exact ih
    · rw [unset]
      exact LeftDeep.nil
    · obtain ⟨r, same, plan⟩ := choose_plan chosen
      rw [isWritten, plan, leftDeep_concat]
      rcases sides_shares found with nothing | ⟨cached, k, member, shares⟩
      · exact ⟨nothing ▸ LeftDeep.nil, Or.inl nothing⟩
      · exact ⟨cached ▸ deep (s.erase j), Or.inr ⟨k, member, same.shares.mpr shares⟩⟩

theorem DeepPlans.planSet (deep : DeepPlans pc) : DeepPlans (planSet input uninit pc s) := by
  unfold Optimizer.planSet
  dsimp only
  split
  · intro other
    by_cases same : JoinSet.keys other = s.keys
    · rw [getOrder_congr _ same, getOrder_addPlan_self]
      exact deep.bestCard s
    · rw [getOrder_addPlan_of_ne _ _ same]
      exact deep other
  · exact deep

theorem deepPlans (sizes : List Nat) : DeepPlans (planRounds input uninit joins sizes) := by
  rw [planRounds_eq]
  induction schedule joins sizes using List.reverseRecOn with
  | nil => exact fun _ => LeftDeep.nil
  | append_singleton sets s ih =>
    rw [List.foldl_append, List.foldl_cons, List.foldl_nil]
    exact ih.planSet

end Cache

/-! ## The order of the input -/

/-- The joins without "big_table". -/
def withoutBigTable (joins : List LogicalJoinNode) : List LogicalJoinNode :=
  joins.filter fun node => node.rightTable ≠ "big_table" ∧ node.leftTable ≠ "big_table"

/-- The joins but the first comparison with table "a". -/
def withoutAJoin (joins : List LogicalJoinNode) : List LogicalJoinNode :=
  match joins.find? isAJoin with
  | some aJoin => joins.filter fun node => !node.equal aJoin
  | none => joins

/-- The joins that stay in front are given in a left-deep order, and the first one with "big_table"
may follow them. -/
structure GivenLeftDeep (joins : List LogicalJoinNode) : Prop where
  rest : HasBigTable joins → LeftDeep (withoutBigTable joins)
  first : HasBigTable joins → withoutBigTable joins = [] ∨
    ∀ j, joins.find? (fun node => node.Mentions "big_table") = some j →
      ∃ k ∈ withoutBigTable joins, Shares k j
  nonEquality : ¬ HasBigTable joins → ¬ Equalities joins → LeftDeep (withoutAJoin joins)

theorem bigTableNode_sameJoin (j : LogicalJoinNode) : SameJoin (bigTableNode j) j := by
  unfold bigTableNode
  split
  · exact Or.inl rfl
  · split
    · exact Or.inr rfl
    · exact Or.inl rfl

/-- The nodes that the "big table" path moves to the end. -/
theorem bigTableLast_eq (joins : List LogicalJoinNode) :
    bigTableLast joins = withoutBigTable joins ++
      (joins.filter fun node => node.Mentions "big_table").map bigTableNode := by
  unfold bigTableLast withoutBigTable
  refine congrArg _ ?_
  induction joins with
  | nil => rfl
  | cons node joins ih =>
    rw [List.filterMap_cons, List.filter_cons]
    by_cases right : node.rightTable = "big_table"
    · have mentions : node.Mentions "big_table" := Or.inr right
      rw [if_pos right, if_pos (decide_eq_true mentions), List.map_cons, bigTableNode,
        if_pos right, ih]
    · by_cases left : node.leftTable = "big_table"
      · have mentions : node.Mentions "big_table" := Or.inl left
        rw [if_neg right, if_pos left, if_pos (decide_eq_true mentions), List.map_cons,
          bigTableNode, if_neg right, if_pos left, ih]
      · have silent : ¬ decide (node.Mentions "big_table") = true := fun mentions =>
          (of_decide_eq_true mentions).elim left right
        rw [if_neg right, if_neg left, if_neg silent, ih]

theorem leftDeep_bigTableLast :
    LeftDeep (bigTableLast joins) ↔ LeftDeep (withoutBigTable joins) ∧
      (withoutBigTable joins = [] ∨
        ∀ j, joins.find? (fun node => node.Mentions "big_table") = some j →
          ∃ k ∈ withoutBigTable joins, Shares k j) := by
  rw [bigTableLast_eq, leftDeep_append (t := "big_table")]
  · refine and_congr_right fun _ => or_congr_right ?_
    rw [List.head?_map, List.head?_filter]
    constructor
    · intro all j found
      obtain ⟨k, member, shares⟩ := all _ (by rw [found, Option.map_some])
      exact ⟨k, member, (bigTableNode_sameJoin j).shares.mp shares⟩
    · intro all r moved
      obtain ⟨j, found, rfl⟩ := Option.map_eq_some_iff.mp moved
      obtain ⟨k, member, shares⟩ := all j found
      exact ⟨k, member, (bigTableNode_sameJoin j).shares.mpr shares⟩
  · intro r member
    obtain ⟨j, inside, rfl⟩ := List.mem_map.mp member
    have mentions := of_decide_eq_true (List.mem_filter.mp inside).2
    rcases bigTableNode_sameJoin j with same | same
    · rw [same]
      exact mentions
    · rw [same]
      exact mentions.symm

/-- In a connected list the join that goes to the end has a table of one of the others. -/
theorem Connected.shares_rest (connected : Connected joins) (member : j ∈ joins)
    (nonempty : joins.filter (fun node => !node.equal j) ≠ []) :
    ∃ k ∈ joins.filter (fun node => !node.equal j), Shares k j := by
  by_contra apart
  obtain ⟨k, others⟩ := List.exists_mem_of_ne_nil _ nonempty
  -- tables that can be reached from those of `j` are tables of `j`
  have reached : ∀ t, Relation.ReflTransGen (Linked joins) j.leftTable t → j.Mentions t := by
    intro t path
    induction path with
    | refl => exact Or.inl rfl
    | tail _ linked ih =>
      obtain ⟨i, inside, first, second⟩ := linked
      by_cases same : i.equal j = true
      · have key : i.key = j.key := of_decide_eq_true same
        simp only [LogicalJoinNode.key, Prod.mk.injEq] at key
        unfold LogicalJoinNode.Mentions at second ⊢
        rwa [← key.1, ← key.2.1]
      · refine absurd ⟨i, List.mem_filter.mpr ⟨inside, ?_⟩, shares_of_mention first ih⟩ apart
        rw [Bool.not_eq_true']
        exact Bool.not_eq_true _ ▸ same
  have mentions := reached k.leftTable
    (connected j member k (List.mem_filter.mp others).1)
  exact apart ⟨k, others, shares_comm.mp (shares_of_mention mentions (Or.inl rfl))⟩

theorem leftDeep_nonEqualityLast (connected : Connected joins) :
    LeftDeep (nonEqualityLast joins) ↔ LeftDeep (withoutAJoin joins) := by
  unfold nonEqualityLast withoutAJoin
  cases found : joins.find? isAJoin with
  | none => exact Iff.rfl
  | some aJoin =>
    dsimp only
    rw [leftDeep_concat]
    refine and_iff_left ?_
    by_cases empty : joins.filter (fun node => !node.equal aJoin) = []
    · exact Or.inl empty
    · exact Or.inr (connected.shares_rest (List.mem_of_find?_eq_some found) empty)

/-- For a connected list `order_joins` returns a left-deep order exactly if the joins that its special
paths leave where they are were given in one. -/
theorem leftDeep_iff {D : Type} [Double D] (input : Statistics D) (uninit : Uninitialized D)
    (connected : Connected joins) :
    LeftDeep (orderJoins input uninit joins) ↔ GivenLeftDeep joins := by
  by_cases big : HasBigTable joins
  · rw [orderJoins_bigTable input uninit big, leftDeep_bigTableLast]
    constructor
    · rintro ⟨rest, first⟩
      exact ⟨fun _ => rest, fun _ => first, fun noBig => absurd big noBig⟩
    · exact fun given => ⟨given.rest big, given.first big⟩
  · by_cases equalities : Equalities joins
    · refine iff_of_true ?_ ⟨fun other => absurd other big, fun other => absurd other big,
        fun _ notAll => absurd equalities notAll⟩
      by_cases nonempty : joins = []
      · subst nonempty
        exact LeftDeep.nil
      · rw [orderJoins_planned input uninit nonempty big equalities]
        exact deepPlans _ _
    · rw [orderJoins_nonEquality input uninit big equalities, leftDeep_nonEqualityLast connected]
      constructor
      · exact fun deep => ⟨fun other => absurd other big, fun other => absurd other big,
          fun _ _ => deep⟩
      · exact fun given => given.nonEquality big equalities

/-- A list is connected if all its joins have a table in a join with the same table. -/
theorem Connected.of_hub (hub : ∀ j ∈ joins, Linked joins j.leftTable t) : Connected joins := by
  intro j member k member'
  obtain ⟨i, inside, first, second⟩ := hub k member'
  exact (Relation.ReflTransGen.single (hub j member)).tail ⟨i, inside, second, first⟩

/-- A comparison of tables "b" and "c" and a chain that is given from its far end. -/
def farEnd : List LogicalJoinNode :=
  [⟨"b", "c", 0, 0, .lt⟩, ⟨"d", "e", 0, 0, .eq⟩, ⟨"c", "d", 0, 0, .eq⟩]

theorem connected_farEnd : Connected farEnd := Connected.of_hub (t := "c") (by decide)

theorem not_leftDeep_farEnd : ¬ LeftDeep farEnd := by
  intro deep
  obtain ⟨k, member, shares⟩ := deep [⟨"b", "c", 0, 0, .lt⟩] ⟨"d", "e", 0, 0, .eq⟩
    [⟨"c", "d", 0, 0, .eq⟩] rfl (by decide)
  rw [List.mem_singleton.mp member] at shares
  exact absurd shares (by decide)

/-- A comparison with table "a" between two equalities that follow each other, and the chain that is given
from its far end. -/
theorem leftDeep_iff_chain :
    LeftDeep (orderJoins onePage (fun _ _ => (0, 0))
        [⟨"c", "b", 0, 0, .eq⟩, ⟨"a", "b", 1, 1, .lt⟩, ⟨"b", "d", 0, 0, .eq⟩]) ∧
      ¬ LeftDeep (orderJoins onePage (fun _ _ => (0, 0)) farEnd) := by
  constructor
  · have connected : Connected
        [⟨"c", "b", 0, 0, .eq⟩, ⟨"a", "b", 1, 1, .lt⟩, ⟨"b", "d", 0, 0, .eq⟩] :=
      Connected.of_hub (t := "b") (by decide)
    refine (leftDeep_iff onePage (fun _ _ => (0, 0)) connected).mpr ⟨fun big => ?_, fun big => ?_,
      fun _ _ => ?_⟩
    · exact absurd big (by decide)
    · exact absurd big (by decide)
    · have first : LeftDeep [⟨"c", "b", 0, 0, .eq⟩] := leftDeep_singleton _
      exact leftDeep_concat.mpr ⟨first, Or.inr ⟨_, List.mem_singleton_self _, by decide⟩⟩
  · rw [leftDeep_iff onePage (fun _ _ => (0, 0)) connected_farEnd]
    exact fun given => not_leftDeep_farEnd (given.nonEquality (by decide) (by decide))

/-- The order is the one that was given. -/
theorem not_leftDeep_asGiven :
    ¬ ∀ joins : List LogicalJoinNode, joins ≠ [] → Connected joins →
      LeftDeep (orderJoins onePage (fun _ _ => (0, 0)) joins) := by
  intro leftDeep
  have deep := leftDeep farEnd (by decide) connected_farEnd
  rw [orderJoins_nonEquality _ _ (by decide) (by decide)] at deep
  exact not_leftDeep_farEnd deep

end BuzzDB.Optimizer
