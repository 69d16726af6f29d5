import BuzzDB.Lib.StdSet
import Mathlib.Data.List.AList

/-!
# Maps to sets

A `std::unordered_map` whose values are `std::set`s, as an association list.  The order
of its entries is not that of the C++ map, so nothing may depend on it.
-/

/-- A map from keys to ordered sets. -/
abbrev SetMap (κ α : Type*) := AList fun _ : κ => List α

namespace SetMap

variable {κ α : Type*} [DecidableEq κ] [DecidableEq α]

/-- The set of a key; a missing key has the empty one. -/
def get (m : SetMap κ α) (k : κ) : List α := (m.lookup k).getD []

/-- `m[k].insert(a)`. -/
def add (lt : α → α → Bool) (m : SetMap κ α) (k : κ) (a : α) : SetMap κ α :=
  m.insert k (StdSet.insert lt a (get m k))

/-- Erase `a` from the set of `k`, and the key with it when the set is empty then. -/
def remove (m : SetMap κ α) (k : κ) (a : α) : SetMap κ α :=
  match m.lookup k with
  | none => m
  | some s => if StdSet.erase a s = [] then m.erase k else m.insert k (StdSet.erase a s)

/-- Erase `a` from all sets. -/
def removeAll (m : SetMap κ α) (a : α) : SetMap κ α where
  entries := m.entries.map fun entry => ⟨entry.1, StdSet.erase a entry.2⟩
  nodupKeys := by
    have keys : (m.entries.map fun entry => (⟨entry.1, StdSet.erase a entry.2⟩ :
        Sigma fun _ : κ => List α)).map Sigma.fst = m.entries.map Sigma.fst := by
      rw [List.map_map]
      rfl
    rw [List.NodupKeys, List.keys, keys]
    exact m.nodupKeys

/-- The number of elements of all sets. -/
def size (m : SetMap κ α) : Nat := (m.entries.map fun entry => entry.2.length).sum

variable {m : SetMap κ α} {k l : κ} {a b : α} {lt : α → α → Bool}

omit [DecidableEq α] in
theorem mem_get : a ∈ get m k ↔ ∃ entry ∈ m.entries, entry.1 = k ∧ a ∈ entry.2 := by
  unfold get
  constructor
  · intro member
    cases found : m.lookup k with
    | none =>
      rw [found] at member
      cases member
    | some s =>
      rw [found] at member
      exact ⟨⟨k, s⟩, AList.mem_lookup_iff.mp found, rfl, member⟩
  · rintro ⟨⟨l, s⟩, inside, rfl, member⟩
    rw [AList.mem_lookup_iff.mpr inside]
    exact member

omit [DecidableEq α] in
theorem get_add_self (m : SetMap κ α) (k : κ) (a : α) :
    get (add lt m k a) k = StdSet.insert lt a (get m k) := by
  rw [add, get, AList.lookup_insert, Option.getD_some]

omit [DecidableEq α] in
theorem get_add_of_ne (different : l ≠ k) : get (add lt m k a) l = get m l := by
  rw [add, get, AList.lookup_insert_ne different, get]

omit [DecidableEq α] in
@[simp] theorem get_erase_self (m : SetMap κ α) (k : κ) : get (AList.erase k m) k = [] := by
  rw [get, AList.lookup_erase, Option.getD_none]

omit [DecidableEq α] in
theorem get_erase_of_ne (different : l ≠ k) : get (AList.erase k m) l = get m l := by
  rw [get, AList.lookup_erase_ne different, get]

theorem get_remove_self (m : SetMap κ α) (k : κ) (a : α) :
    get (remove m k a) k = StdSet.erase a (get m k) := by
  unfold remove
  cases entry : m.lookup k with
  | none =>
    simp only [get, entry]
    rfl
  | some s =>
    simp only [get, entry, Option.getD_some]
    split
    · rename_i empty
      rw [AList.lookup_erase, empty]
      rfl
    · rw [AList.lookup_insert, Option.getD_some]

theorem get_remove_of_ne (different : l ≠ k) : get (remove m k a) l = get m l := by
  unfold remove
  cases entry : m.lookup k with
  | none => rfl
  | some s =>
    simp only [get]
    split
    · rw [AList.lookup_erase_ne different]
    · rw [AList.lookup_insert_ne different]

/-! ## Sizes -/

omit [DecidableEq α] in
/-- The set of a key, and those of the others. -/
theorem size_eq (m : SetMap κ α) (k : κ) : size m = (get m k).length + size (AList.erase k m) := by
  change (m.entries.map _).sum =
    ((m.entries.dlookup k).getD []).length + ((m.entries.kerase k).map _).sum
  induction m.entries with
  | nil => rfl
  | cons entry entries ih =>
    rcases eq_or_ne k entry.1 with rfl | different
    · rw [List.kerase_cons_eq rfl, List.dlookup_cons_eq, List.map_cons, List.sum_cons, Option.getD_some]
    · rw [List.kerase_cons_ne different, List.dlookup_cons_ne _ _ different, List.map_cons,
        List.map_cons, List.sum_cons, List.sum_cons, ih]
      omega

omit [DecidableEq α] in
theorem length_get_le (m : SetMap κ α) (k : κ) : (get m k).length ≤ size m := by
  rw [size_eq m k]
  exact Nat.le_add_right _ _

omit [DecidableEq α] in
theorem size_erase_le (m : SetMap κ α) (k : κ) : size (AList.erase k m) ≤ size m := by
  rw [size_eq m k]
  exact Nat.le_add_left _ _

omit [DecidableEq α] in
theorem size_insert (m : SetMap κ α) (k : κ) (s : List α) :
    size (m.insert k s) = s.length + size (AList.erase k m) := by
  rw [size, AList.entries_insert, List.map_cons, List.sum_cons]
  rfl

omit [DecidableEq α] in
theorem size_add_le (m : SetMap κ α) (k : κ) (a : α) : size (add lt m k a) ≤ size m + 1 := by
  have longer := StdSet.length_insert_le lt a (get m k)
  rw [add, size_insert, size_eq m k]
  omega

theorem size_remove_le (m : SetMap κ α) (k : κ) (a : α) : size (remove m k a) ≤ size m := by
  unfold remove
  split
  · rfl
  · rename_i s found
    have shorter : (StdSet.erase a s).length ≤ s.length := List.length_filter_le _ _
    split
    · exact size_erase_le m k
    · rw [size_insert, size_eq m k, get, found, Option.getD_some]
      omega

omit [DecidableEq κ] [DecidableEq α] in
/-- Keys whose sets are not empty. -/
theorem length_filter_le {p : Sigma (fun _ : κ => List α) → Bool} (m : SetMap κ α)
    (nonempty : ∀ entry, p entry = true → 0 < entry.2.length) :
    (m.entries.filter p).length ≤ size m := by
  unfold size
  induction m.entries with
  | nil => rfl
  | cons entry entries ih =>
    rw [List.map_cons, List.sum_cons]
    by_cases kept : p entry = true
    · have longer := nonempty entry kept
      rw [List.filter_cons_of_pos kept, List.length_cons]
      omega
    · rw [List.filter_cons_of_neg kept]
      omega

end SetMap
