import Mathlib.Logic.Function.Basic

/-!
# Vectors that grow

Vectors of which each has its elements in a block of memory.  A vector that has no room for one more
element moves to a larger block, and the block it has left can be given to any vector that moves next.
A reference to an element is the block and the position at the time it was taken; as long as its
vector has not moved, the block still belongs to it.
-/

namespace GrowingVectors

variable {K : Type*}

/-- The block of each vector and how many elements it has room for, and whose elements a block has. -/
structure Storage (K : Type*) where
  block : K → Option Nat
  capacity : K → Nat
  owner : Nat → Option K

/-- What the allocator returns to a vector that moves. -/
structure Allocation where
  block : Nat
  capacity : Nat
  deriving DecidableEq

namespace Storage

/-- Empty vectors have no block yet. -/
def new : Storage K := ⟨fun _ => none, fun _ => 0, fun _ => none⟩

variable [DecidableEq K] (s : Storage K)

/-- The vector of `k` moves, and its block is free. -/
def move (k : K) (allocation : Allocation) : Storage K where
  block := Function.update s.block k (some allocation.block)
  capacity := Function.update s.capacity k allocation.capacity
  owner block :=
    if block = allocation.block then some k
    else if s.block k = some block then none
    else s.owner block

/-- The vector of `k` gets room for `length` elements.  The block that it moves to is not in use. -/
def fit (k : K) (length : Nat) (allocation : Allocation) : Option (Storage K) :=
  if length ≤ s.capacity k then some s
  else if s.owner allocation.block = none ∧ length ≤ allocation.capacity then
    some (s.move k allocation)
  else none

/-- Each block in use has the elements of the vector that is in it, and a vector without a block has no
elements. -/
structure Wf (s : Storage K) : Prop where
  owns : ∀ k block, s.block k = some block ↔ s.owner block = some k
  room : ∀ k, s.block k = none → s.capacity k = 0

variable {s} {s' : Storage K} {k other : K} {length block : Nat} {allocation : Allocation}

theorem fit_cases (fits : s.fit k length allocation = some s') :
    length ≤ s.capacity k ∧ s' = s ∨
      s.capacity k < length ∧ length ≤ allocation.capacity ∧ s.owner allocation.block = none ∧
        s' = s.move k allocation := by
  unfold fit at fits
  split at fits
  · rename_i room
    cases fits
    exact Or.inl ⟨room, rfl⟩
  · rename_i full
    split at fits
    · rename_i free
      cases fits
      exact Or.inr ⟨Nat.not_le.mp full, free.2, free.1, rfl⟩
    · cases fits

omit [DecidableEq K] in
theorem Wf.new : (new : Storage K).Wf where
  owns _ _ := ⟨nofun, nofun⟩
  room _ _ := rfl

theorem Wf.move (wf : s.Wf) (free : s.owner allocation.block = none) : (s.move k allocation).Wf where
  owns other block := by
    change Function.update s.block k (some allocation.block) other = some block ↔
      (if block = allocation.block then some k
        else if s.block k = some block then none else s.owner block) = some other
    rcases eq_or_ne other k with rfl | different
    · rw [Function.update_self]
      by_cases moved : block = allocation.block
      · rw [if_pos moved, moved]
        exact iff_of_true rfl rfl
      · rw [if_neg moved]
        refine iff_of_false (fun same => moved (Option.some.inj same).symm) ?_
        split
        · nofun
        · rename_i notOld
          exact fun owned => notOld ((wf.owns other block).mpr owned)
    · rw [Function.update_of_ne different, wf.owns]
      by_cases moved : block = allocation.block
      · rw [if_pos moved, moved, free]
        exact iff_of_false nofun fun same => different (Option.some.inj same).symm
      · rw [if_neg moved]
        split
        · rename_i old
          rw [(wf.owns k block).mp old]
          exact iff_of_false (fun same => different (Option.some.inj same).symm) nofun
        · exact Iff.rfl
  room other absent := by
    rcases eq_or_ne other k with rfl | different
    · cases (Function.update_self _ _ _).symm.trans absent
    · exact (Function.update_of_ne different _ _).trans
        (wf.room other ((Function.update_of_ne different _ _).symm.trans absent))

theorem Wf.fit (wf : s.Wf) (fits : s.fit k length allocation = some s') : s'.Wf := by
  rcases fit_cases fits with ⟨-, rfl⟩ | ⟨-, -, free, rfl⟩
  · exact wf
  · exact wf.move free

/-- Behind `fit` there is room. -/
theorem length_le_of_fit (fits : s.fit k length allocation = some s') : length ≤ s'.capacity k := by
  rcases fit_cases fits with ⟨room, rfl⟩ | ⟨-, room, -, rfl⟩
  · exact room
  · change length ≤ Function.update s.capacity k allocation.capacity k
    rwa [Function.update_self]

theorem capacity_fit_of_ne (fits : s.fit k length allocation = some s') (different : other ≠ k) :
    s'.capacity other = s.capacity other := by
  rcases fit_cases fits with ⟨-, rfl⟩ | ⟨-, -, -, rfl⟩
  · rfl
  · exact Function.update_of_ne different _ _

/-- A block stays with its vector as long as the vector does not move. -/
theorem Wf.owner_fit (wf : s.Wf) (fits : s.fit k length allocation = some s')
    (owned : s.owner block = some other) (stays : s.capacity k < length → other ≠ k) :
    s'.owner block = some other := by
  rcases fit_cases fits with ⟨-, rfl⟩ | ⟨grows, -, free, rfl⟩
  · exact owned
  · have notNew : block ≠ allocation.block := by
      rintro rfl
      rw [free] at owned
      cases owned
    have notOld : ¬ s.block k = some block := by
      intro old
      rw [(wf.owns k block).mp old] at owned
      exact stays grows (Option.some.inj owned).symm
    change (if block = allocation.block then some k
      else if s.block k = some block then none else s.owner block) = some other
    rw [if_neg notNew, if_neg notOld, owned]

end Storage

end GrowingVectors
