import Mathlib.Algebra.Order.Ring.Nat
import Mathlib.Data.List.Nodup
import Mathlib.Data.List.Perm.Basic

/-!
# Ordered sets

A `std::set` as the list of its elements in ascending order, over an arbitrary
comparison `lt`.  As in C++, two elements are the same for the set when neither is
less than the other; an element already present is kept.  Iteration is iteration
over the list.
-/

namespace StdSet

variable {α : Type*} (lt : α → α → Bool)

/-- Insert an element in front of the first greater one, unless an equivalent one is met. -/
def insert (a : α) : List α → List α
  | [] => [a]
  | b :: bs => if lt a b then a :: b :: bs else if lt b a then b :: insert a bs else b :: bs

/-- Remove an element. -/
def erase [DecidableEq α] (a : α) (s : List α) : List α := s.filter (fun b => b ≠ a)

/-- The comparison is a strict total order. -/
structure Strict : Prop where
  irrefl : ∀ a, lt a a = false
  trans : ∀ {a b c}, lt a b = true → lt b c = true → lt a c = true
  tri : ∀ {a b}, lt a b = false → lt b a = false → a = b

/-- The elements ascend. -/
def Ascending (s : List α) : Prop := s.Pairwise (fun a b => lt a b = true)

variable {lt} {a b : α} {s : List α}

theorem mem_of_mem_insert (member : b ∈ insert lt a s) : b = a ∨ b ∈ s := by
  induction s with
  | nil => exact Or.inl (List.mem_singleton.mp member)
  | cons c cs ih =>
    rw [insert] at member
    split at member
    · exact List.mem_cons.mp member
    · split at member
      · rcases List.mem_cons.mp member with rfl | later
        · exact Or.inr List.mem_cons_self
        · exact (ih later).imp_right (List.mem_cons_of_mem c)
      · exact Or.inr member

theorem mem_insert_of_mem (member : b ∈ s) : b ∈ insert lt a s := by
  induction s with
  | nil => cases member
  | cons c cs ih =>
    rw [insert]
    split
    · exact List.mem_cons_of_mem a member
    · split
      · rcases List.mem_cons.mp member with rfl | later
        · exact List.mem_cons_self
        · exact List.mem_cons_of_mem c (ih later)
      · exact member

theorem mem_insert_self (order : Strict lt) (a : α) (s : List α) : a ∈ insert lt a s := by
  induction s with
  | nil => exact List.mem_singleton_self a
  | cons c cs ih =>
    rw [insert]
    split
    · exact List.mem_cons_self
    · split
      · exact List.mem_cons_of_mem c ih
      · rename_i notLess notGreater
        have same := order.tri (Bool.not_eq_true _ ▸ notLess) (Bool.not_eq_true _ ▸ notGreater)
        exact same ▸ List.mem_cons_self

theorem mem_insert (order : Strict lt) : b ∈ insert lt a s ↔ b = a ∨ b ∈ s := by
  constructor
  · exact mem_of_mem_insert
  · rintro (rfl | member)
    · exact mem_insert_self order _ _
    · exact mem_insert_of_mem member

theorem mem_insertAll (order : Strict lt) {as : List α} :
    b ∈ as.foldl (fun set a => insert lt a set) s ↔ b ∈ s ∨ b ∈ as := by
  induction as generalizing s with
  | nil => simp
  | cons a as ih =>
    rw [List.foldl_cons, ih, mem_insert order, List.mem_cons]
    tauto

theorem mem_erase [DecidableEq α] : b ∈ erase a s ↔ b ∈ s ∧ b ≠ a := by
  simp [erase]

theorem Ascending.insert (order : Strict lt) (ascending : Ascending lt s) :
    Ascending lt (insert lt a s) := by
  induction s with
  | nil => exact List.pairwise_singleton _ _
  | cons c cs ih =>
    rw [Ascending, List.pairwise_cons] at ascending
    rw [StdSet.insert]
    split
    · rename_i less
      refine List.pairwise_cons.mpr ⟨fun x member => ?_, List.pairwise_cons.mpr ascending⟩
      rcases List.mem_cons.mp member with rfl | later
      · exact less
      · exact order.trans less (ascending.1 x later)
    · split
      · rename_i greater
        refine List.pairwise_cons.mpr ⟨fun x member => ?_, ih ascending.2⟩
        rcases mem_of_mem_insert member with rfl | later
        · exact greater
        · exact ascending.1 x later
      · exact List.pairwise_cons.mpr ascending

theorem Ascending.insertAll (order : Strict lt) (as : List α) (ascending : Ascending lt s) :
    Ascending lt (as.foldl (fun set a => StdSet.insert lt a set) s) := by
  induction as generalizing s with
  | nil => exact ascending
  | cons a as ih => exact ih (ascending.insert order)

theorem Ascending.erase [DecidableEq α] (ascending : Ascending lt s) :
    Ascending lt (erase a s) :=
  List.Pairwise.filter _ ascending

theorem Ascending.nodup (order : Strict lt) (ascending : Ascending lt s) : s.Nodup := by
  refine List.Pairwise.imp (fun {x y} less same => ?_) ascending
  rw [same, order.irrefl] at less
  cases less

/-- A set is given by its members. -/
theorem Ascending.ext {s' : List α} (order : Strict lt) (ascending : Ascending lt s)
    (ascending' : Ascending lt s') (same : ∀ a, a ∈ s ↔ a ∈ s') : s = s' := by
  have perm := (List.perm_ext_iff_of_nodup (ascending.nodup order) (ascending'.nodup order)).mpr same
  apply List.Perm.eq_of_pairwise _ ascending ascending' perm
  intro a b _ _ less greater
  have self := order.trans less greater
  rw [order.irrefl] at self
  cases self

theorem length_insert_le (lt : α → α → Bool) (a : α) (s : List α) :
    (insert lt a s).length ≤ s.length + 1 := by
  induction s with
  | nil => exact Nat.le_refl _
  | cons c cs ih =>
    rw [insert]
    split
    · exact Nat.le_refl _
    · split
      · exact Nat.succ_le_succ ih
      · exact Nat.le_succ _

/-- Inserting an element comparable with every present one adds it. -/
theorem insert_perm (fresh : ∀ b ∈ s, lt a b = true ∨ lt b a = true) :
    (insert lt a s).Perm (a :: s) := by
  induction s with
  | nil => exact List.Perm.refl _
  | cons c cs ih =>
    rw [insert]
    split
    · exact List.Perm.refl _
    · rename_i notLess
      rw [if_pos ((fresh c List.mem_cons_self).resolve_left notLess)]
      exact ((ih fun b member => fresh b (List.mem_cons_of_mem c member)).cons c).trans
        (List.Perm.swap a c cs)

/-! ## Comparisons of tuples, of sets and through a key -/

section Comparisons

variable {β : Type*}

/-- `operator<` of a pair. -/
def pairLt (ltFst : α → α → Bool) (ltSnd : β → β → Bool) (x y : α × β) : Bool :=
  ltFst x.1 y.1 || (!ltFst y.1 x.1 && ltSnd x.2 y.2)

/-- `operator<` of two sets. -/
def setLt (lt : α → α → Bool) : List α → List α → Bool
  | _, [] => false
  | [], _ :: _ => true
  | a :: as, b :: bs => lt a b || (!lt b a && setLt lt as bs)

/-- A lexicographic comparison is transitive if the one behind the first component is. -/
theorem Strict.lex_trans (order : Strict lt) {c : α} {p q r : Bool}
    (behind : p = true → q = true → r = true)
    (less : (lt a b || (!lt b a && p)) = true) (less' : (lt b c || (!lt c b && q)) = true) :
    (lt a c || (!lt c a && r)) = true := by
  simp only [Bool.or_eq_true, Bool.and_eq_true, Bool.not_eq_true'] at less less' ⊢
  rcases less with first | ⟨notGreater, second⟩
  · rcases less' with first' | ⟨notGreater', _⟩
    · exact Or.inl (order.trans first first')
    · left
      cases back : lt b c with
      | true => exact order.trans first back
      | false => exact order.tri back notGreater' ▸ first
  · rcases less' with first' | ⟨notGreater', second'⟩
    · left
      cases back : lt a b with
      | true => exact order.trans back first'
      | false => exact order.tri back notGreater ▸ first'
    · cases back : lt a c with
      | true => exact Or.inl rfl
      | false =>
        refine Or.inr ⟨?_, behind second second'⟩
        cases forth : lt a b with
        | true =>
          cases further : lt b c with
          | true => rw [order.trans forth further] at back; cases back
          | false => rw [← order.tri further notGreater', forth] at back; cases back
        | false => rw [order.tri forth notGreater]; exact notGreater'

/-- Where it is false in both directions, the first components are the same. -/
theorem Strict.lex_tri (order : Strict lt) {p q : Bool}
    (notLess : (lt a b || (!lt b a && p)) = false)
    (notGreater : (lt b a || (!lt a b && q)) = false) : a = b ∧ p = false ∧ q = false := by
  simp only [Bool.or_eq_false_iff, Bool.and_eq_false_iff, Bool.not_eq_false'] at notLess notGreater
  refine ⟨order.tri notLess.1 notGreater.1, ?_, ?_⟩
  · exact notLess.2.resolve_left fun greater => by
      rw [notGreater.1] at greater
      cases greater
  · exact notGreater.2.resolve_left fun less => by
      rw [notLess.1] at less
      cases less

theorem Strict.pairLt {ltFst : α → α → Bool} {ltSnd : β → β → Bool} (fst : Strict ltFst)
    (snd : Strict ltSnd) : Strict (pairLt ltFst ltSnd) where
  irrefl x := by rw [StdSet.pairLt, fst.irrefl, snd.irrefl]; rfl
  trans less less' := fst.lex_trans snd.trans less less'
  tri notLess notGreater := by
    obtain ⟨first, less, greater⟩ := fst.lex_tri notLess notGreater
    exact Prod.ext first (snd.tri less greater)

theorem Strict.setLt (order : Strict lt) : Strict (setLt lt) where
  irrefl as := by
    induction as with
    | nil => rfl
    | cons a as ih => rw [StdSet.setLt, order.irrefl, ih]; rfl
  trans {as bs cs} less less' := by
    induction cs generalizing as bs with
    | nil => cases bs <;> cases less'
    | cons c cs ih =>
      cases bs with
      | nil => cases as <;> cases less
      | cons b bs =>
        cases as with
        | nil => rfl
        | cons a as => exact order.lex_trans ih less less'
  tri {as bs} notLess notGreater := by
    induction as generalizing bs with
    | nil =>
      cases bs with
      | nil => rfl
      | cons b bs => cases notLess
    | cons a as ih =>
      cases bs with
      | nil => cases notGreater
      | cons b bs =>
        obtain ⟨first, less, greater⟩ := order.lex_tri notLess notGreater
        rw [first, ih less greater]

/-- A set that compares its elements by a key has the set of the keys. -/
theorem map_insert {lt : β → β → Bool} (key : α → β) (a : α) (s : List α) :
    (insert (fun x y => lt (key x) (key y)) a s).map key = insert lt (key a) (s.map key) := by
  induction s with
  | nil => rfl
  | cons b bs ih =>
    rw [List.map_cons, insert, insert]
    split
    · rfl
    · split
      · rw [List.map_cons, ih]
      · rfl

theorem setLt_map {lt : β → β → Bool} (key : α → β) (as bs : List α) :
    setLt (fun x y => lt (key x) (key y)) as bs = setLt lt (as.map key) (bs.map key) := by
  induction as generalizing bs with
  | nil => cases bs <;> rfl
  | cons a as ih =>
    cases bs with
    | nil => rfl
    | cons b bs => rw [List.map_cons, List.map_cons, setLt, setLt, ih]

end Comparisons

end StdSet
