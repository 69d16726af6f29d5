import Mathlib.Data.List.Induction
import Mathlib.Data.List.Nodup

/-!
# Tabulation

A table is filled key by key, in an order in which the keys that a key needs come before it.  If what is
put at a key is what a recursion has there, as long as the table has the values of the recursion at the
keys that it needs, then the table has the values of the recursion in the end.
-/

namespace Tabulation

variable {K V T : Type*} {put : T → K → T} {get : T → K → V} {needs : K → K → Prop} {value : K → V}
  {start : T} {order before : List K} {k l : K}

/-- The keys that a key needs come before it. -/
def Ordered (needs : K → K → Prop) (order : List K) : Prop :=
  ∀ front k back, order = front ++ k :: back → ∀ l, needs k l → l ∈ front

theorem Ordered.of_append {back : List K} (ordered : Ordered needs (before ++ back)) :
    Ordered needs before := by
  rintro front k after rfl l needed
  refine ordered front k (after ++ back) ?_ l needed
  rw [List.append_assoc, List.cons_append]

/-- What is not put stays as it was. -/
theorem get_foldl_of_not_mem (others : ∀ k ∈ order, ∀ t, get (put t k) l = get t l) :
    get (order.foldl put start) l = get start l := by
  induction order using List.reverseRecOn with
  | nil => rfl
  | append_singleton front k ih =>
    rw [List.foldl_append, List.foldl_cons, List.foldl_nil,
      others k (List.mem_append_right _ (List.mem_singleton_self k))]
    exact ih fun k member => others k (List.mem_append_left _ member)

/-- The table has the values of the recursion. -/
theorem get_foldl (once : order.Nodup) (ordered : Ordered needs order)
    (others : ∀ k ∈ order, ∀ l ∈ order, l ≠ k → ∀ t, get (put t k) l = get t l)
    (own : ∀ k ∈ order, ∀ t, (∀ l, needs k l → get t l = value l) → get t k = get start k →
      get (put t k) k = value k) :
    ∀ k ∈ order, get (order.foldl put start) k = value k := by
  induction order using List.reverseRecOn with
  | nil => exact fun k absent => absurd absent List.not_mem_nil
  | append_singleton front k ih =>
    have isLast : k ∈ front ++ [k] := List.mem_append_right _ (List.mem_singleton_self k)
    have inFront : ∀ l ∈ front, l ∈ front ++ [k] := fun l => List.mem_append_left _
    have notBefore : k ∉ front := fun early =>
      List.disjoint_of_nodup_append once early (List.mem_singleton_self k)
    have before : ∀ l ∈ front, get (front.foldl put start) l = value l :=
      ih once.of_append_left ordered.of_append
        (fun k member l member' => others k (inFront k member) l (inFront l member'))
        fun k member => own k (inFront k member)
    have fresh : get (front.foldl put start) k = get start k :=
      get_foldl_of_not_mem fun l member =>
        others l (inFront l member) k isLast fun same => notBefore (same ▸ member)
    intro l member
    rw [List.foldl_append, List.foldl_cons, List.foldl_nil]
    by_cases same : l = k
    · subst same
      refine own l isLast _ (fun m needed => before m ?_) fresh
      exact ordered front l [] rfl m needed
    · have early : l ∈ front := (List.mem_append.mp member).resolve_right
        fun new => same (List.mem_singleton.mp new)
      rw [others k isLast l member same]
      exact before l early

end Tabulation
