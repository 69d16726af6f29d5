import Mathlib.Algebra.Order.Ring.Nat
import Mathlib.Data.List.GetD
import Mathlib.Data.UInt

/-!
# Byte images

Flat images of memory and of files, over an arbitrary element type with a zero:
`overwrite` is an in-place copy into a buffer of fixed size, `splice` is a write
into a file, which grows and is filled with zeros up to the write.  Every fact
about both is read off one element at a time through `List.getD _ _ 0`, for which
a missing element and a zero element are the same thing.

The second half is the little-endian representation of naturals by byte strings of
a fixed length, and its words inside of an image.
-/

namespace Image

variable {α : Type*}

/-- A buffer, read element by element. -/
theorem map_getD_range [Zero α] {xs : List α} {n : Nat} (length : xs.length = n) :
    (List.range n).map (fun i => xs.getD i 0) = xs := by
  apply List.ext_getElem
  · rw [List.length_map, List.length_range, length]
  · intro i _ inside
    rw [List.getElem_map, List.getElem_range, List.getD_eq_getElem _ _ inside]

/-- Copy `src` over `dst` from position `off` on; the size of `dst` does not change, and what
does not fit is dropped. -/
def overwrite : List α → Nat → List α → List α
  | [], _, _ => []
  | x :: xs, 0, [] => x :: xs
  | _ :: xs, 0, y :: ys => y :: overwrite xs 0 ys
  | x :: xs, off + 1, ys => x :: overwrite xs off ys

@[simp] theorem overwrite_nil_right (dst : List α) (off : Nat) : overwrite dst off [] = dst := by
  induction dst generalizing off with
  | nil => rfl
  | cons x xs ih =>
    cases off with
    | zero => rfl
    | succ off => simp only [overwrite, ih]

@[simp] theorem length_overwrite (dst : List α) (off : Nat) (src : List α) :
    (overwrite dst off src).length = dst.length := by
  induction dst generalizing off src with
  | nil => rfl
  | cons x xs ih =>
    cases off with
    | zero =>
      cases src with
      | nil => rfl
      | cons y ys => simp only [overwrite, List.length_cons, ih]
    | succ off => simp only [overwrite, List.length_cons, ih]

/-- The elements of an overwritten buffer: the source inside the copied range, the old buffer
everywhere else. -/
theorem getElem?_overwrite (dst : List α) (off : Nat) (src : List α) (i : Nat) :
    (overwrite dst off src)[i]? =
      if i < dst.length ∧ off ≤ i ∧ i < off + src.length then src[i - off]? else dst[i]? := by
  induction dst generalizing off src i with
  | nil => simp [overwrite]
  | cons x xs ih =>
    cases off with
    | zero =>
      cases src with
      | nil => simp
      | cons y ys =>
        cases i with
        | zero => simp [overwrite]
        | succ i =>
          simp only [overwrite, List.getElem?_cons_succ, ih, List.length_cons]
          have bounds : (i < xs.length ∧ 0 ≤ i ∧ i < 0 + ys.length) ↔
              (i + 1 < xs.length + 1 ∧ 0 ≤ i + 1 ∧ i + 1 < 0 + (ys.length + 1)) := by omega
          rw [if_congr bounds rfl rfl]
          rfl
    | succ off =>
      cases i with
      | zero => simp [overwrite]
      | succ i =>
        simp only [overwrite, List.getElem?_cons_succ, ih, List.length_cons]
        have bounds : (i < xs.length ∧ off ≤ i ∧ i < off + src.length) ↔
            (i + 1 < xs.length + 1 ∧ off + 1 ≤ i + 1 ∧ i + 1 < off + 1 + src.length) := by omega
        simp only [bounds, Nat.add_sub_add_right]

/-- An overwritten buffer has no other elements than the buffer and the source. -/
theorem mem_overwrite {dst src : List α} {off : Nat} {x : α} (member : x ∈ overwrite dst off src) :
    x ∈ dst ∨ x ∈ src := by
  obtain ⟨i, there⟩ := List.mem_iff_getElem?.mp member
  rw [getElem?_overwrite] at there
  split at there
  · exact Or.inr (List.mem_of_getElem? there)
  · exact Or.inl (List.mem_of_getElem? there)

variable [Zero α]

theorem getD_overwrite (dst : List α) (off : Nat) (src : List α) (i : Nat) :
    (overwrite dst off src).getD i 0 =
      if i < dst.length ∧ off ≤ i ∧ i < off + src.length then src.getD (i - off) 0
      else dst.getD i 0 := by
  simp only [List.getD_eq_getElem?_getD, getElem?_overwrite]
  split <;> rfl

/-- A zeroed buffer reads as zero everywhere, also past its end. -/
@[simp] theorem getD_replicate_zero (n i : Nat) : (List.replicate n (0 : α)).getD i 0 = 0 := by
  by_cases inside : i < n
  · simp [List.getD_eq_getElem?_getD, inside]
  · simp [List.getD_eq_getElem?_getD, inside]

theorem getD_append_zeros (xs : List α) (n i : Nat) :
    (xs ++ List.replicate n (0 : α)).getD i 0 = xs.getD i 0 := by
  by_cases inside : i < xs.length
  · rw [List.getD_append _ _ _ _ inside]
  · rw [List.getD_append_right _ _ _ _ (Nat.not_lt.mp inside), getD_replicate_zero,
      List.getD_eq_default _ _ (Nat.not_lt.mp inside)]

/-- Write `src` into a file image at `off`: the image grows as far as the write reaches, and a
gap before the write is filled with zeros.  An empty write changes nothing. -/
def splice (content : List α) (off : Nat) (src : List α) : List α :=
  if src.length = 0 then content
  else overwrite (content ++ List.replicate (off + src.length - content.length) 0) off src

theorem length_splice (content : List α) (off : Nat) (src : List α) :
    (splice content off src).length =
      if src.length = 0 then content.length else max content.length (off + src.length) := by
  unfold splice
  split
  · rfl
  · simp only [length_overwrite, List.length_append, List.length_replicate]
    omega

theorem getD_splice (content : List α) (off : Nat) (src : List α) (i : Nat) :
    (splice content off src).getD i 0 =
      if off ≤ i ∧ i < off + src.length then src.getD (i - off) 0 else content.getD i 0 := by
  unfold splice
  split
  · rename_i empty
    rw [if_neg (by omega)]
  · simp only [getD_overwrite, getD_append_zeros, List.length_append, List.length_replicate]
    by_cases inside : off ≤ i ∧ i < off + src.length
    · rw [if_pos ⟨by omega, inside⟩, if_pos inside]
    · rw [if_neg (fun h => inside h.2), if_neg inside]

theorem mem_splice {content src : List α} {off : Nat} {x : α} (member : x ∈ splice content off src) :
    x ∈ content ∨ x = 0 ∨ x ∈ src := by
  unfold splice at member
  split at member
  · exact Or.inl member
  · rcases mem_overwrite member with old | new
    · rcases List.mem_append.mp old with inside | gap
      · exact Or.inl inside
      · exact Or.inr (Or.inl (List.eq_of_mem_replicate gap))
    · exact Or.inr (Or.inr new)

/-- A write behind a prefix leaves the prefix. -/
theorem splice_prefix (front back src : List α) {off : Nat} (behind : front.length ≤ off) :
    ∃ rest, splice (front ++ back) off src = front ++ rest := by
  refine ⟨(splice (front ++ back) off src).drop front.length, ?_⟩
  have taken : (splice (front ++ back) off src).take front.length = front := by
    apply List.ext_getElem?
    intro i
    rw [List.getElem?_take]
    split
    · rename_i inFront
      unfold splice
      split
      · exact List.getElem?_append_left inFront
      · rw [getElem?_overwrite, if_neg (by omega), List.append_assoc]
        exact List.getElem?_append_left inFront
    · rename_i outside
      exact (List.getElem?_eq_none (Nat.not_lt.mp outside)).symm
  have split := List.take_append_drop front.length (splice (front ++ back) off src)
  rw [taken] at split
  exact split.symm

omit [Zero α] in
/-- Overwriting behind a prefix leaves the prefix and what the source does not reach. -/
theorem overwrite_after (front back src : List α) (short : src.length ≤ back.length) :
    overwrite (front ++ back) front.length src = front ++ src ++ back.drop src.length := by
  induction front with
  | nil =>
    rw [List.nil_append, List.nil_append, List.length_nil]
    induction src generalizing back with
    | nil => rw [overwrite_nil_right, List.nil_append, List.length_nil, List.drop_zero]
    | cons y ys ih =>
      cases back with
      | nil => cases short
      | cons x xs =>
        rw [overwrite, ih xs (Nat.le_of_succ_le_succ short), List.length_cons, List.drop_succ_cons,
          List.cons_append]
  | cons x front ih =>
    rw [List.cons_append, List.length_cons, overwrite, ih, List.cons_append, List.cons_append]

omit [Zero α] in
/-- Overwriting a whole buffer. -/
theorem overwrite_all (dst src : List α) (length : src.length = dst.length) :
    overwrite dst 0 src = src := by
  have all := overwrite_after [] dst src (Nat.le_of_eq length)
  rwa [List.nil_append, List.nil_append, length, List.drop_length, List.append_nil] at all

/-- A write behind a prefix replaces what follows the prefix, as far as it reaches. -/
theorem splice_after (front back src : List α) :
    splice (front ++ back) front.length src = front ++ src ++ back.drop src.length := by
  unfold splice
  split
  · rename_i empty
    rw [List.eq_nil_of_length_eq_zero empty, List.append_nil, List.length_nil, List.drop_zero]
  · rw [List.append_assoc, overwrite_after]
    · rw [List.drop_append]
      have noZeros : (List.replicate (front.length + src.length - (front ++ back).length)
          (0 : α)).drop (src.length - back.length) = [] := by
        apply List.drop_eq_nil_of_le
        rw [List.length_replicate, List.length_append]
        omega
      rw [noZeros, List.append_nil]
    · rw [List.length_append, List.length_replicate, List.length_append]
      omega

/-- Fill the buffer `block` from the image at `off`; a read that reaches the end of the image
stops there and leaves the rest of the buffer as it was. -/
def fill (content : List α) (off : Nat) (block : List α) : List α :=
  overwrite block 0 (content.drop off)

omit [Zero α] in
@[simp] theorem length_fill (content : List α) (off : Nat) (block : List α) :
    (fill content off block).length = block.length := length_overwrite _ _ _

omit [Zero α] in
theorem mem_fill {content block : List α} {off : Nat} {x : α} (member : x ∈ fill content off block) :
    x ∈ content ∨ x ∈ block := by
  rcases mem_overwrite member with old | new
  · exact Or.inr old
  · exact Or.inl (List.mem_of_mem_drop new)

omit [Zero α] in
/-- A buffer that the image fills has no other elements. -/
theorem mem_fill_of_whole {content block : List α} {off : Nat} {x : α}
    (whole : off + block.length ≤ content.length) (member : x ∈ fill content off block) :
    x ∈ content := by
  obtain ⟨i, there⟩ := List.mem_iff_getElem?.mp member
  rw [fill, getElem?_overwrite, List.length_drop] at there
  split at there
  · exact List.mem_of_mem_drop (List.mem_of_getElem? there)
  · rename_i outside
    have bound := (List.getElem?_eq_some_iff.mp there).1
    exact absurd ⟨bound, Nat.zero_le i, by omega⟩ outside

theorem getD_fill (content : List α) (off : Nat) (block : List α) (i : Nat) :
    (fill content off block).getD i 0 =
      if i < block.length ∧ off + i < content.length then content.getD (off + i) 0
      else block.getD i 0 := by
  unfold fill
  rw [getD_overwrite]
  have bounds : (i < block.length ∧ 0 ≤ i ∧ i < 0 + (content.drop off).length) ↔
      (i < block.length ∧ off + i < content.length) := by
    rw [List.length_drop]
    omega
  simp only [bounds, Nat.sub_zero, List.getD_eq_getElem?_getD, List.getElem?_drop]

/-- Filling a zeroed buffer reads the image as if it were followed by zeros. -/
theorem getD_fill_zeros (content : List α) (off n i : Nat) :
    (fill content off (List.replicate n (0 : α))).getD i 0 =
      if i < n then content.getD (off + i) 0 else 0 := by
  rw [getD_fill, List.length_replicate, getD_replicate_zero]
  by_cases inside : i < n
  · by_cases within : off + i < content.length
    · rw [if_pos ⟨inside, within⟩, if_pos inside]
    · rw [if_neg (fun h => within h.2), if_pos inside,
        List.getD_eq_default _ _ (Nat.not_lt.mp within)]
  · rw [if_neg (fun h => inside h.1), if_neg inside]

omit [Zero α] in
/-- Filling a buffer from an image that continues with as many elements yields exactly them. -/
theorem fill_of_drop_eq {content block xs rest : List α} {off : Nat}
    (drops : content.drop off = xs ++ rest) (length : block.length = xs.length) :
    fill content off block = xs := by
  apply List.ext_getElem?
  intro i
  unfold fill
  rw [getElem?_overwrite, drops, List.length_append]
  by_cases inside : i < xs.length
  · rw [if_pos (by omega), Nat.sub_zero, List.getElem?_append_left inside]
  · rw [if_neg (by omega), List.getElem?_eq_none (by omega), List.getElem?_eq_none (by omega)]

/-! ## Little-endian naturals -/

/-- The `k` low bytes of `n`, least significant first. -/
def bytesOf : Nat → Nat → List UInt8
  | 0, _ => []
  | k + 1, n => UInt8.ofNat n :: bytesOf k (n / 256)

/-- The natural a little-endian byte string stands for. -/
def natOf : List UInt8 → Nat
  | [] => 0
  | b :: bs => b.toNat + 256 * natOf bs

@[simp] theorem length_bytesOf (k n : Nat) : (bytesOf k n).length = k := by
  induction k generalizing n with
  | zero => rfl
  | succ k ih => simp only [bytesOf, List.length_cons, ih]

theorem natOf_bytesOf (k n : Nat) : natOf (bytesOf k n) = n % 256 ^ k := by
  induction k generalizing n with
  | zero => simp [bytesOf, natOf, Nat.mod_one]
  | succ k ih =>
    have low : (UInt8.ofNat n).toNat = n % 256 := by simp
    rw [bytesOf, natOf, ih, low, Nat.pow_succ, Nat.mul_comm (256 ^ k) 256, Nat.mod_mul]

/-- A number that fits its field survives the trip through bytes. -/
theorem natOf_bytesOf_of_lt {k n : Nat} (fits : n < 256 ^ k) : natOf (bytesOf k n) = n := by
  rw [natOf_bytesOf, Nat.mod_eq_of_lt fits]

/-! ## Words in an image -/

/-- The number in the `k` bytes from `off` on. -/
def word (data : List UInt8) (off k : Nat) : Nat := natOf ((data.drop off).take k)

omit [Zero α] in
/-- A part of an image depends on its own bytes only. -/
theorem take_drop_congr {data other : List α} {off k : Nat}
    (same : ∀ i, off ≤ i → i < off + k → data[i]? = other[i]?) :
    (data.drop off).take k = (other.drop off).take k := by
  apply List.ext_getElem?
  intro i
  rw [List.getElem?_take, List.getElem?_take, List.getElem?_drop, List.getElem?_drop]
  split
  · exact same (off + i) (Nat.le_add_right _ _) (by omega)
  · rfl

theorem word_congr {data other : List UInt8} {off k : Nat}
    (same : ∀ i, off ≤ i → i < off + k → data[i]? = other[i]?) : word data off k = word other off k :=
  congrArg natOf (take_drop_congr same)

omit [Zero α] in
/-- A write at the start of a part of an image. -/
theorem take_drop_overwrite_self {data src : List α} {off k : Nat} (inside : src.length ≤ k) :
    ((overwrite data off src).drop off).take k = overwrite ((data.drop off).take k) 0 src := by
  apply List.ext_getElem?
  intro i
  rw [List.getElem?_take, List.getElem?_drop, getElem?_overwrite, getElem?_overwrite,
    List.length_take, List.length_drop, List.getElem?_take, List.getElem?_drop]
  by_cases written : i < src.length
  · by_cases there : off + i < data.length
    · rw [if_pos (by omega), if_pos (by omega), if_pos (by omega)]
      exact congrArg (src[·]?) (by omega)
    · rw [if_pos (by omega), if_neg (by omega), if_neg (by omega), if_pos (by omega)]
  · have outside : ¬ (off + i < data.length ∧ off ≤ off + i ∧ off + i < off + src.length) := by omega
    have outside' : ¬ (i < min k (data.length - off) ∧ 0 ≤ i ∧ i < 0 + src.length) := by omega
    rw [if_neg outside, if_neg outside']

/-- A word inside of what was written. -/
theorem word_overwrite {data src : List UInt8} {start off k : Nat}
    (inside : off + k ≤ src.length) (fits : start + src.length ≤ data.length) :
    word (overwrite data start src) (start + off) k = word src off k := by
  apply congrArg natOf
  apply List.ext_getElem?
  intro i
  rw [List.getElem?_take, List.getElem?_take, List.getElem?_drop, List.getElem?_drop]
  split
  · rw [getElem?_overwrite, if_pos (by omega)]
    exact congrArg (src[·]?) (by omega)
  · rfl

theorem word_append {front back : List UInt8} {off k : Nat} (behind : front.length ≤ off) :
    word (front ++ back) off k = word back (off - front.length) k := by
  rw [word, List.drop_append, List.drop_eq_nil_of_le behind, List.nil_append, word]

/-- The first number of a sequence. -/
theorem word_bytesOf (k n : Nat) (back : List UInt8) :
    word (bytesOf k n ++ back) 0 k = n % 256 ^ k := by
  rw [word, List.drop_zero, List.take_append_of_le_length (length_bytesOf k n).ge,
    List.take_of_length_le (length_bytesOf k n).le, natOf_bytesOf]

/-- What is behind a number. -/
theorem word_skip {k n off size : Nat} (back : List UInt8) (behind : k ≤ off) :
    word (bytesOf k n ++ back) off size = word back (off - k) size := by
  rw [word_append (by rw [length_bytesOf]; exact behind), length_bytesOf]

/-- A number that was written, read back. -/
theorem word_overwrite_bytesOf {data : List UInt8} {off k : Nat} (n : Nat)
    (fits : off + k ≤ data.length) :
    word (overwrite data off (bytesOf k n)) off k = n % 256 ^ k := by
  have length := length_bytesOf k n
  have written : word (overwrite data off (bytesOf k n)) (off + 0) k = word (bytesOf k n) 0 k :=
    word_overwrite (by omega) (by omega)
  rw [Nat.add_zero] at written
  rw [written, ← List.append_nil (bytesOf k n), word_bytesOf]

end Image
