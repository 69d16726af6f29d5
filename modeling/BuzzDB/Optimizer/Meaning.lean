import BuzzDB.Optimizer.JoinOrder

/-!
# What the joins mean

A node is the predicate `left_table.left_field op right_table.right_field` on an assignment
of one row to each table.  `swap_inner_outer` exchanges the two sides and keeps the
operator, which is another predicate for the four inequalities.  `order_joins` exchanges
the sides of joins with any operator on its "big table" path only.
-/

namespace BuzzDB.Optimizer

variable {V : Type*} [LinearOrder V]

/-- The comparison of two values. -/
def PredicateType.Compares (x y : V) : PredicateType → Prop
  | .eq => x = y
  | .ne => x ≠ y
  | .lt => x < y
  | .le => x ≤ y
  | .gt => x > y
  | .ge => x ≥ y

instance (x y : V) : DecidablePred (PredicateType.Compares x y)
  | .eq => inferInstanceAs (Decidable (x = y))
  | .ne => inferInstanceAs (Decidable (x ≠ y))
  | .lt => inferInstanceAs (Decidable (x < y))
  | .le => inferInstanceAs (Decidable (x ≤ y))
  | .gt => inferInstanceAs (Decidable (y < x))
  | .ge => inferInstanceAs (Decidable (y ≤ x))

/-- The operators that may have their sides exchanged. -/
def PredicateType.Symmetric (op : PredicateType) : Prop := op = .eq ∨ op = .ne

namespace LogicalJoinNode

/-- The node is true of the rows. -/
def Holds (j : LogicalJoinNode) (row : String → UInt64 → V) : Prop :=
  j.op.Compares (row j.leftTable j.leftField) (row j.rightTable j.rightField)

instance (j : LogicalJoinNode) (row : String → UInt64 → V) : Decidable (j.Holds row) :=
  inferInstanceAs (Decidable (j.op.Compares _ _))

/-- Both sides are the same column. -/
def OneColumn (j : LogicalJoinNode) : Prop :=
  j.leftTable = j.rightTable ∧ j.leftField = j.rightField

end LogicalJoinNode

variable (V) in
/-- Two nodes are true of the same rows. -/
def SameMeaning (r j : LogicalJoinNode) : Prop :=
  ∀ row : String → UInt64 → V, r.Holds row ↔ j.Holds row

variable {joins : List LogicalJoinNode} {j r : LogicalJoinNode}

/-! ## Exchanged sides -/

theorem PredicateType.Symmetric.sameMeaning (symmetric : j.op.Symmetric) :
    SameMeaning V j.swapInnerOuter j := by
  intro row
  change j.op.Compares (row j.rightTable j.rightField) (row j.leftTable j.leftField) ↔
    j.op.Compares (row j.leftTable j.leftField) (row j.rightTable j.rightField)
  rcases symmetric with isEq | isNe
  · rw [isEq]
    exact eq_comm
  · rw [isNe]
    exact ne_comm

theorem LogicalJoinNode.OneColumn.sameMeaning (oneColumn : j.OneColumn) :
    SameMeaning V j.swapInnerOuter j := by
  obtain ⟨table, field⟩ := oneColumn
  intro row
  change j.op.Compares (row j.rightTable j.rightField) (row j.leftTable j.leftField) ↔
    j.op.Compares (row j.leftTable j.leftField) (row j.rightTable j.rightField)
  rw [table, field]

/-- Rows that tell an inequality from its exchange. -/
theorem swap_differs {x y : V} (less : x < y) (asymmetric : ¬ j.op.Symmetric)
    (twoColumns : ¬ j.OneColumn) : ¬ SameMeaning V j.swapInnerOuter j := by
  intro same
  let row : String → UInt64 → V := fun table field =>
    if table = j.leftTable ∧ field = j.leftField then x else y
  have left : row j.leftTable j.leftField = x := if_pos ⟨rfl, rfl⟩
  have right : row j.rightTable j.rightField = y :=
    if_neg fun both => twoColumns ⟨both.1.symm, both.2.symm⟩
  have here : j.op.Compares y x ↔ j.op.Compares x y := by
    have atRow := same row
    unfold LogicalJoinNode.Holds LogicalJoinNode.swapInnerOuter at atRow
    rwa [left, right] at atRow
  obtain ⟨notEq, notNe⟩ := not_or.mp asymmetric
  cases isOp : j.op with
  | eq => exact notEq isOp
  | ne => exact notNe isOp
  | lt =>
    rw [isOp] at here
    exact lt_asymm less (here.mpr less)
  | le =>
    rw [isOp] at here
    exact not_le_of_gt less (here.mpr less.le)
  | gt =>
    rw [isOp] at here
    exact lt_asymm less (here.mp less)
  | ge =>
    rw [isOp] at here
    exact not_le_of_gt less (here.mp less.le)

/-- Exchanging the sides keeps the meaning of equalities, of inequations, and of comparisons of a
column with itself. -/
theorem swap_sameMeaning_iff [Nontrivial V] :
    SameMeaning V j.swapInnerOuter j ↔ j.op.Symmetric ∨ j.OneColumn := by
  constructor
  · intro same
    by_contra neither
    obtain ⟨asymmetric, twoColumns⟩ := not_or.mp neither
    obtain ⟨x, y, less⟩ := exists_pair_lt V
    exact swap_differs less asymmetric twoColumns same
  · rintro (symmetric | oneColumn)
    · exact symmetric.sameMeaning
    · exact oneColumn.sameMeaning

/-! ## Where the nodes of the result come from -/

/-- What the "big table" path makes of a node. -/
def bigTableNode (node : LogicalJoinNode) : LogicalJoinNode :=
  if node.rightTable = "big_table" then node
  else if node.leftTable = "big_table" then node.swapInnerOuter
  else node

/-- The node `r` of the result came from the node `j` of the input, path by path. -/
inductive CameFrom (joins : List LogicalJoinNode) : LogicalJoinNode → LogicalJoinNode → Prop
  | bigTable {j : LogicalJoinNode} (big : HasBigTable joins) (member : j ∈ joins) :
      CameFrom joins (bigTableNode j) j
  | nonEquality {j : LogicalJoinNode} (noBig : ¬ HasBigTable joins) (notAll : ¬ Equalities joins)
      (member : j ∈ joins) : CameFrom joins j j
  | planned {r j : LogicalJoinNode} (noBig : ¬ HasBigTable joins) (equalities : Equalities joins)
      (member : j ∈ joins) (same : SameJoin r j) : CameFrom joins r j

theorem mem_bigTableLast : r ∈ bigTableLast joins ↔ ∃ j ∈ joins, r = bigTableNode j := by
  unfold bigTableLast bigTableNode
  simp only [List.mem_append, List.mem_filter, List.mem_filterMap, decide_eq_true_eq]
  constructor
  · rintro (⟨member, notRight, notLeft⟩ | ⟨j, member, moved⟩)
    · exact ⟨r, member, by rw [if_neg notRight, if_neg notLeft]⟩
    · refine ⟨j, member, ?_⟩
      split at moved
      · rename_i right
        rw [if_pos right, Option.some.inj moved]
      · rename_i notRight
        split at moved
        · rename_i left
          rw [if_neg notRight, if_pos left, Option.some.inj moved]
        · cases moved
  · rintro ⟨j, member, rfl⟩
    by_cases right : j.rightTable = "big_table"
    · exact Or.inr ⟨j, member, by rw [if_pos right, if_pos right]⟩
    · by_cases left : j.leftTable = "big_table"
      · exact Or.inr ⟨j, member, by rw [if_neg right, if_neg right, if_pos left, if_pos left]⟩
      · rw [if_neg right, if_neg left]
        exact Or.inl ⟨member, right, left⟩

theorem mem_of_mem_nonEqualityLast (member : r ∈ nonEqualityLast joins) : r ∈ joins := by
  unfold nonEqualityLast at member
  split at member
  · rename_i aJoin found
    rcases List.mem_append.mp member with rest | last
    · exact (List.mem_filter.mp rest).1
    · rw [List.mem_singleton.mp last]
      exact List.mem_of_find?_eq_some found
  · exact member

theorem mem_of_mem_allJoins (member : j ∈ allJoins joins) : j ∈ joins := by
  have fold : ∀ (v : List LogicalJoinNode) (s : JoinSet),
      j ∈ v.foldl JoinSet.insert s → j ∈ s ∨ j ∈ v := by
    intro v
    induction v with
    | nil => exact fun s inside => Or.inl inside
    | cons k v ih =>
      intro s inside
      rcases ih (s.insert k) inside with inserted | later
      · rcases StdSet.mem_of_mem_insert inserted with rfl | old
        · exact Or.inr List.mem_cons_self
        · exact Or.inl old
      · exact Or.inr (List.mem_cons_of_mem k later)
  exact (fold joins [] member).resolve_left List.not_mem_nil

/-- An ordering has no other joins. -/
theorem OrdersAll.mem {result : List LogicalJoinNode} (orders : OrdersAll result joins)
    (member : r ∈ result) : ∃ j ∈ joins, SameJoin r j := by
  obtain ⟨order, perm, same⟩ := orders
  obtain ⟨i, bound, isAt⟩ := List.mem_iff_getElem.mp member
  have bound' : i < order.length := same.length_eq ▸ bound
  refine ⟨order[i], perm.mem_iff.mp (List.getElem_mem bound'), ?_⟩
  rw [← isAt]
  exact List.Forall₂.get same bound bound'

section Main

variable {D : Type} [Double D]

variable (input : Statistics D) (uninit : Uninitialized D)

/-- Every node of the result came from some node of the input. -/
theorem exists_cameFrom (member : r ∈ orderJoins input uninit joins) : ∃ j, CameFrom joins r j := by
  by_cases big : HasBigTable joins
  · rw [orderJoins_bigTable input uninit big] at member
    obtain ⟨j, inside, rfl⟩ := mem_bigTableLast.mp member
    exact ⟨j, .bigTable big inside⟩
  · by_cases equalities : Equalities joins
    · by_cases nonempty : joins = []
      · subst nonempty
        cases member
      · rw [orderJoins_planned input uninit nonempty big equalities] at member
        have small : ∀ i ∈ List.range' 1 joins.length, i < joins.length + 1 := fun i inside => by
          have bounds := List.mem_range'_1.mp inside
          omega
        have planned := (planRounds_spec input uninit equalities _ small).1
        rcases planned (allJoins joins) (fun j inside => equalities j (mem_of_mem_allJoins inside))
          with empty | orders
        · rw [empty] at member
          cases member
        · obtain ⟨j, inside, same⟩ := orders.mem member
          exact ⟨j, .planned big equalities (mem_of_mem_allJoins inside) same⟩
    · rw [orderJoins_nonEquality input uninit big equalities] at member
      exact ⟨r, .nonEquality big equalities (mem_of_mem_nonEqualityLast member)⟩

variable (V) in
/-- Every node of the result means what the node it came from means. -/
def Preserves (result joins : List LogicalJoinNode) : Prop :=
  ∀ r ∈ result, (∃ j, CameFrom joins r j) ∧ ∀ j, CameFrom joins r j → SameMeaning V r j

/-- Only equalities and inequations have "big_table" on the left. -/
def MirrorsRight (joins : List LogicalJoinNode) : Prop :=
  ∀ j ∈ joins, j.leftTable = "big_table" → j.rightTable = "big_table" ∨ j.op.Symmetric

instance : DecidablePred MirrorsRight := fun joins =>
  inferInstanceAs (Decidable (∀ j ∈ joins, j.leftTable = "big_table" → _ ∨ (_ ∨ _)))

/-- `order_joins` keeps the meaning of every node exactly if only equalities and inequations have
"big_table" on the left, and `swap_inner_outer` that of a node exactly if its operator is one
of these two or both of its sides are the same column. -/
theorem preserves_iff [Nontrivial V] (joins : List LogicalJoinNode) :
    (Preserves V (orderJoins input uninit joins) joins ↔ MirrorsRight joins) ∧
      ∀ j : LogicalJoinNode, SameMeaning V j.swapInnerOuter j ↔ j.op.Symmetric ∨ j.OneColumn := by
  refine ⟨⟨fun preserves j member left => ?_, fun mirrors r member => ?_⟩,
    fun j => swap_sameMeaning_iff⟩
  · by_contra neither
    obtain ⟨notRight, asymmetric⟩ := not_or.mp neither
    have big : HasBigTable joins := ⟨j, member, Or.inl left⟩
    have moved : bigTableNode j = j.swapInnerOuter := by
      rw [bigTableNode, if_neg notRight, if_pos left]
    have inResult : j.swapInnerOuter ∈ orderJoins input uninit joins := by
      rw [orderJoins_bigTable input uninit big]
      exact mem_bigTableLast.mpr ⟨j, member, moved.symm⟩
    have same := (preserves _ inResult).2 j (moved ▸ .bigTable big member)
    rcases swap_sameMeaning_iff.mp same with symmetric | oneColumn
    · exact asymmetric symmetric
    · exact notRight (oneColumn.1.symm.trans left)
  · refine ⟨exists_cameFrom input uninit member, fun j cameFrom => ?_⟩
    cases cameFrom with
    | bigTable big inside =>
      unfold bigTableNode
      split
      · exact fun row => Iff.rfl
      · rename_i notRight
        split
        · rename_i left
          exact ((mirrors j inside left).resolve_left notRight).sameMeaning
        · exact fun row => Iff.rfl
    | nonEquality noBig notAll inside => exact fun row => Iff.rfl
    | planned noBig equalities inside same =>
      rcases same with rfl | rfl
      · exact fun row => Iff.rfl
      · exact PredicateType.Symmetric.sameMeaning (Or.inl (equalities j inside))

end Main

/-- Joins with an equality that has "big_table" on the left, and with a comparison instead of it. -/
theorem preserves_iff_equality :
    Preserves ℤ (orderJoins onePage (fun _ _ => (0, 0))
        [⟨"a", "b", 0, 0, .lt⟩, ⟨"big_table", "a", 0, 1, .eq⟩, ⟨"b", "big_table", 1, 2, .ge⟩])
      [⟨"a", "b", 0, 0, .lt⟩, ⟨"big_table", "a", 0, 1, .eq⟩, ⟨"b", "big_table", 1, 2, .ge⟩] ∧
    ¬ Preserves ℤ (orderJoins onePage (fun _ _ => (0, 0))
        [⟨"a", "b", 0, 0, .lt⟩, ⟨"big_table", "a", 0, 1, .ge⟩, ⟨"b", "big_table", 1, 2, .ge⟩])
      [⟨"a", "b", 0, 0, .lt⟩, ⟨"big_table", "a", 0, 1, .ge⟩, ⟨"b", "big_table", 1, 2, .ge⟩] := by
  constructor
  · rw [(preserves_iff onePage (fun _ _ => (0, 0)) _).1]
    decide
  · rw [(preserves_iff onePage (fun _ _ => (0, 0)) _).1]
    decide

/-- `big_table.0 < a.1` becomes `a.1 < big_table.0`. -/
theorem not_preserves_less :
    (¬ ∀ joins : List LogicalJoinNode,
        Preserves ℤ (orderJoins onePage (fun _ _ => (0, 0)) joins) joins) ∧
      ¬ ∀ j : LogicalJoinNode, SameMeaning ℤ j.swapInnerOuter j := by
  have differs : ¬ SameMeaning ℤ (⟨"a", "big_table", 1, 0, .lt⟩ : LogicalJoinNode)
      ⟨"big_table", "a", 0, 1, .lt⟩ := by
    intro same
    have here := (same fun table _ => if table = "a" then 1 else 0).mpr (by decide)
    exact absurd here (by decide)
  refine ⟨fun preserves => ?_, fun same => differs (same ⟨"big_table", "a", 0, 1, .lt⟩)⟩
  have big : HasBigTable [⟨"big_table", "a", 0, 1, .lt⟩] :=
    ⟨_, List.mem_singleton_self _, Or.inl rfl⟩
  have result : ⟨"a", "big_table", 1, 0, .lt⟩ ∈
      orderJoins onePage (fun _ _ => (0, 0)) [⟨"big_table", "a", 0, 1, .lt⟩] := by
    rw [orderJoins_bigTable _ _ big]
    decide
  exact differs ((preserves _ _ result).2 _ (.bigTable big (List.mem_singleton_self _)))

end BuzzDB.Optimizer
