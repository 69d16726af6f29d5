import BuzzDB.Heap.Pages

/-!
# The records of a heap segment

`Holds` is the invariant of a segment with the `TID`s that it has given out.  Calls that keep what
callers see keep it, writes that are no longer than their records keep it, and an
`allocate` adds a `TID` that is new.
-/

namespace BuzzDB.HeapSegment

open FramePool PagePool

variable {σ : Type} [PagePool σ] {segment segment' : HeapSegment} {s s' : σ} {p q t u : UInt64}
  {tids : List UInt64} {data before data' record : List UInt8} {size : UInt32} {k : UInt64}

/-! ## The pages -/

theorem mem_pages : p ∈ segment.pages ↔
    ∃ k : UInt64, k.toNat < segment.pageCount.toNat ∧ p = getOverallPageId segment.segmentId k := by
  rw [pages, List.mem_map]
  constructor
  · intro listed
    obtain ⟨itr, isItr, same⟩ := listed
    have small := segment.pageCount.toNat_lt
    have number : (UInt64.ofNat itr).toNat = itr :=
      Nat.mod_eq_of_lt (Nat.lt_trans (List.mem_range.mp isItr) small)
    exact ⟨UInt64.ofNat itr, by rw [number]; exact List.mem_range.mp isItr, same.symm⟩
  · intro listed
    obtain ⟨k, isPage, same⟩ := listed
    exact ⟨k.toNat, List.mem_range.mpr isPage, by rw [UInt64.ofNat_toNat, same]⟩

/-- The next page is none of the segment. -/
theorem next_not_mem_pages (few : segment.pageCount.toNat < 2 ^ 48) :
    getOverallPageId segment.segmentId segment.pageCount ∉ segment.pages := by
  intro listed
  obtain ⟨k, isPage, same⟩ := mem_pages.mp listed
  have index := getOverallPageId_inj few (Nat.lt_trans isPage few) same
  rw [index] at isPage
  exact Nat.lt_irrefl _ isPage

theorem nodup_pages (few : segment.pageCount.toNat < 2 ^ 48) : segment.pages.Nodup := by
  apply List.Nodup.map_on ?_ List.nodup_range
  intro i isPage j isPage' same
  have small := List.mem_range.mp isPage
  have small' := List.mem_range.mp isPage'
  have number : (UInt64.ofNat i).toNat = i := Nat.mod_eq_of_lt (by omega)
  have number' : (UInt64.ofNat j).toNat = j := Nat.mod_eq_of_lt (by omega)
  have index := getOverallPageId_inj (by omega) (by omega) same
  rw [← number, ← number', index]

/-- A segment with one page more. -/
theorem mem_pages_next (few : segment.pageCount.toNat + 1 < 2 ^ 48)
    (segmentId : segment'.segmentId = segment.segmentId)
    (pageCount : segment'.pageCount = segment.pageCount + 1) :
    p ∈ segment'.pages ↔
      p ∈ segment.pages ∨ p = getOverallPageId segment.segmentId segment.pageCount := by
  have count : segment'.pageCount.toNat = segment.pageCount.toNat + 1 := by
    rw [pageCount, UInt64.toNat_add]
    exact Nat.mod_eq_of_lt (by change _ + 1 < _; omega)
  rw [mem_pages, mem_pages, count, segmentId]
  constructor
  · intro listed
    obtain ⟨k, isPage, same⟩ := listed
    rcases Nat.lt_succ_iff_lt_or_eq.mp isPage with old | next
    · exact Or.inl ⟨k, old, same⟩
    · rw [UInt64.toNat_inj.mp next] at same
      exact Or.inr same
  · intro listed
    rcases listed with ⟨k, old, same⟩ | next
    · exact ⟨k, by omega, same⟩
    · exact ⟨segment.pageCount, by omega, next⟩

/-- A `TID` is determined by its page and its slot. -/
theorem tid_ext (page : overallPageIdOf segment.segmentId t = overallPageIdOf segment.segmentId u)
    (slot : slotIdOf t = slotIdOf u) : t = u := by
  have shift : ∀ v : UInt64, (v >>> 16).toNat = v.toNat / 2 ^ 16 := by
    intro v
    rw [UInt64.toNat_shiftRight, Nat.shiftRight_eq_div_pow]
    rfl
  have low : ∀ v : UInt64, (slotIdOf v).toNat = v.toNat % 2 ^ 16 := by
    intro v
    rw [slotIdOf, UInt64.toNat_toUInt16, UInt64.toNat_and,
      show (((1 : UInt64) <<< 16) - 1).toNat = 2 ^ 16 - 1 from rfl, Nat.and_two_pow_sub_one_eq_mod]
    omega
  have small : ∀ v : UInt64, (v >>> 16).toNat < 2 ^ 48 := by
    intro v
    have bound := v.toNat_lt
    rw [shift]
    omega
  have high := congrArg UInt64.toNat (getOverallPageId_inj (small t) (small u) page)
  have slots := congrArg UInt16.toNat slot
  rw [shift, shift] at high
  rw [low, low] at slots
  apply UInt64.toNat_inj.mp
  omega

/-! ## The invariant -/

/-- A slot that is in use, in a page of the segment. -/
structure Names (segment : HeapSegment) (s : σ) (t : UInt64) : Prop where
  page : overallPageIdOf segment.segmentId t ∈ segment.pages
  slot : (slotIdOf t).toNat < slotCountOf (view s (overallPageIdOf segment.segmentId t))

/-- The pages of the segment are formatted, and the `TID`s name records. -/
structure Holds (segment : HeapSegment) (s : σ) (tids : List UInt64) : Prop where
  wf : Wf s
  few : segment.pageCount.toNat < 2 ^ 48
  pages : ∀ p ∈ segment.pages, Whole s p ∧ Formatted p (view s p)
  names : ∀ t ∈ tids, segment.Names s t

/-- The invariant depends on the pages of the segment only. -/
theorem Holds.views (holds : segment.Holds s tids) (wf : Wf s')
    (same : ∀ p ∈ segment.pages, Whole s' p ∧ view s' p = view s p) : segment.Holds s' tids where
  wf := wf
  few := holds.few
  pages p member := by
    obtain ⟨whole, same⟩ := same p member
    exact ⟨whole, same ▸ (holds.pages p member).2⟩
  names t member := by
    obtain ⟨page, slot⟩ := holds.names t member
    refine ⟨page, ?_⟩
    rw [(same _ page).2]
    exact slot

/-- A page that is replaced by one with the same slots. -/
theorem Holds.puts (holds : segment.Holds s tids) (puts : Puts s p data s')
    (same : SameSlots (view s p) data) (length : data.length = (view s p).length) :
    segment.Holds s' tids where
  wf := puts.wf
  few := holds.few
  pages q member := by
    obtain ⟨whole, formatted⟩ := holds.pages q member
    by_cases here : q = p
    · subst here
      rw [puts.self.2]
      exact ⟨puts.self.1, formatted.same same length⟩
    · obtain ⟨whole', unchanged⟩ := puts.others q here whole
      exact ⟨whole', unchanged ▸ formatted⟩
  names t member := by
    obtain ⟨page, slot⟩ := holds.names t member
    refine ⟨page, ?_⟩
    by_cases here : overallPageIdOf segment.segmentId t = p
    · rw [here, puts.self.2, slotCountOf, same.header]
      rw [here] at slot
      exact slot
    · rw [(puts.others _ here (holds.pages _ page).1).2]
      exact slot

/-! ## Allocating -/

/-- The slot of the new record. -/
theorem Allocates.slotCount (allocates : Allocates segment s size segment' s' t p before data') :
    slotCountOf data' = slotCountOf before + 1 :=
  (allocates.formatted.inv.adds_of_describes allocates.describes allocates.grows.stepped).slotCount

/-- The page that takes the record is one of the segment, behind the call. -/
theorem Allocates.page (allocates : Allocates segment s size segment' s' t p before data') (q : UInt64) :
    q ∈ segment'.pages ↔ q ∈ segment.pages ∨ q = p := by
  rcases allocates.place with ⟨found, _, rfl⟩ | ⟨_, few, rfl, next, _⟩
  · have member := List.mem_of_find?_eq_some found
    constructor
    · exact Or.inl
    · intro either
      rcases either with old | rfl
      · exact old
      · exact member
  · exact mem_pages_next few allocates.segmentId next

/-- The page and the slot of the new `TID`. -/
theorem Allocates.named (allocates : Allocates segment s size segment' s' t p before data')
    (few : segment.pageCount.toNat < 2 ^ 48) :
    overallPageIdOf segment.segmentId t = p ∧ (slotIdOf t).toNat = slotCountOf before := by
  have number : ∃ k : UInt64, k.toNat < 2 ^ 48 ∧ p = getOverallPageId segment.segmentId k := by
    rcases allocates.place with ⟨found, _⟩ | ⟨_, _, next, _⟩
    · obtain ⟨k, isPage, same⟩ := mem_pages.mp (List.mem_of_find?_eq_some found)
      exact ⟨k, Nat.lt_trans isPage few, same⟩
    · exact ⟨segment.pageCount, few, next⟩
  obtain ⟨k, small, rfl⟩ := number
  rw [allocates.tid, slotIdOf_tid]
  exact ⟨overallPageIdOf_tid small, rfl⟩

/-- An old page that takes a record. -/
theorem Allocates.before_eq (allocates : Allocates segment s size segment' s' t p before data')
    (few : segment.pageCount.toNat < 2 ^ 48) (member : p ∈ segment.pages) : before = view s p := by
  rcases allocates.place with ⟨_, same, _⟩ | ⟨_, _, next, _⟩
  · exact same
  · rw [next] at member
    exact (next_not_mem_pages few member).elim

theorem Holds.allocate (holds : segment.Holds s tids)
    (allocates : Allocates segment s size segment' s' t p before data') :
    segment'.Holds s' (t :: tids) ∧ t ∉ tids := by
  have puts := allocates.puts
  have count := allocates.slotCount
  obtain ⟨page, slot⟩ := allocates.named holds.few
  refine ⟨⟨puts.wf, ?_, fun q member => ?_, fun u member => ?_⟩, fun old => ?_⟩
  · rcases allocates.place with ⟨_, _, rfl⟩ | ⟨_, few, _, next, _⟩
    · exact holds.few
    · rw [next, UInt64.toNat_add]
      exact Nat.lt_of_le_of_lt (Nat.mod_le _ _) few
  · by_cases here : q = p
    · subst here
      rw [puts.self.2]
      exact ⟨puts.self.1,
        allocates.formatted.grows allocates.fits allocates.describes allocates.grows⟩
    · have old : q ∈ segment.pages := ((allocates.page q).mp member).resolve_right here
      obtain ⟨whole, formatted⟩ := holds.pages q old
      obtain ⟨whole', same⟩ := puts.others q here whole
      exact ⟨whole', same ▸ formatted⟩
  · rcases List.mem_cons.mp member with rfl | old
    · refine ⟨?_, ?_⟩
      · rw [allocates.segmentId, page]
        exact (allocates.page p).mpr (Or.inr rfl)
      · rw [allocates.segmentId, page, puts.self.2, slot, count]
        exact Nat.lt_succ_self _
    · obtain ⟨oldPage, oldSlot⟩ := holds.names u old
      refine ⟨?_, ?_⟩
      · rw [allocates.segmentId]
        exact (allocates.page _).mpr (Or.inl oldPage)
      · rw [allocates.segmentId]
        by_cases here : overallPageIdOf segment.segmentId u = p
        · rw [here] at oldSlot oldPage ⊢
          rw [puts.self.2, count, allocates.before_eq holds.few oldPage]
          omega
        · rw [(puts.others _ here (holds.pages _ oldPage).1).2]
          exact oldSlot
  · -- the slot of the new record was not in use
    obtain ⟨oldPage, oldSlot⟩ := holds.names t old
    rw [page] at oldPage oldSlot
    rw [slot, allocates.before_eq holds.few oldPage] at oldSlot
    exact Nat.lt_irrefl _ oldSlot

/-! ## The bytes of a record -/

/-- The bytes that the slot of a `TID` describes. -/
def regionOf (segment : HeapSegment) (s : σ) (t : UInt64) : SlottedPage.Region :=
  recordOf (view s (overallPageIdOf segment.segmentId t)) (slotIdOf t).toNat

/-- The record of a `TID`. -/
def contentOf (segment : HeapSegment) (s : σ) (t : UInt64) : List UInt8 :=
  ((view s (overallPageIdOf segment.segmentId t)).drop (segment.regionOf s t).start).take
    (SlottedPage.slotLength (segment.slotOf s t)).toNat

/-- A record whose slot and bytes are the same. -/
theorem content_congr (slot : segment.slotOf s' t = segment.slotOf s t)
    (bytes : ∀ i, (segment.regionOf s t).start ≤ i → i < (segment.regionOf s t).stop →
      (view s' (overallPageIdOf segment.segmentId t))[i]? =
        (view s (overallPageIdOf segment.segmentId t))[i]?) :
    segment.contentOf s' t = segment.contentOf s t := by
  have region : segment.regionOf s' t = segment.regionOf s t :=
    congrArg (fun value => (⟨(SlottedPage.slotOffset value).toNat,
      (SlottedPage.slotOffset value).toNat + (SlottedPage.slotLength value).toNat⟩ :
        SlottedPage.Region)) slot
  rw [contentOf, contentOf, region, slot]
  exact Image.take_drop_congr bytes

/-- The record of a `TID` depends on its page only. -/
theorem content_view (same : view s' (overallPageIdOf segment.segmentId t) =
    view s (overallPageIdOf segment.segmentId t)) :
    segment.slotOf s' t = segment.slotOf s t ∧ segment.contentOf s' t = segment.contentOf s t := by
  have slot : segment.slotOf s' t = segment.slotOf s t := by rw [slotOf, same, slotOf]
  exact ⟨slot, content_congr slot fun i _ _ => by rw [same]⟩

/-- The record of a `TID` depends on the id of the segment only. -/
theorem content_segment (segmentId : segment'.segmentId = segment.segmentId) (s : σ) (t : UInt64) :
    segment'.slotOf s t = segment.slotOf s t ∧ segment'.contentOf s t = segment.contentOf s t := by
  rw [contentOf, contentOf, regionOf, regionOf, slotOf, slotOf, segmentId]
  exact ⟨rfl, rfl⟩

/-- The records that were there before an `allocate`. -/
theorem Holds.content_allocate (holds : segment.Holds s tids)
    (allocates : Allocates segment s size segment' s' t p before data') (member : u ∈ tids) :
    segment.slotOf s' u = segment.slotOf s u ∧ segment.contentOf s' u = segment.contentOf s u := by
  have puts := allocates.puts
  obtain ⟨page, slot⟩ := holds.names u member
  by_cases here : overallPageIdOf segment.segmentId u = p
  · have isBefore := allocates.before_eq holds.few (here ▸ page)
    rw [here, ← isBefore] at slot
    obtain ⟨sameSlot, bytes⟩ := allocates.formatted.grows_record allocates.fits allocates.describes
      allocates.grows slot
    have same : segment.slotOf s' u = segment.slotOf s u := by
      rw [slotOf, slotOf, here, puts.self.2, ← isBefore, sameSlot]
    refine ⟨same, content_congr same fun i behind _ => ?_⟩
    rw [regionOf, here, ← isBefore] at behind
    rw [here, puts.self.2, ← isBefore]
    exact bytes i behind
  · exact content_view (puts.others _ here (holds.pages _ page).1).2

/-! ## Writing -/

/-- What a write that is no longer than its record does. -/
structure Overwrites (segment : HeapSegment) (s : σ) (tids : List UInt64) (t : UInt64)
    (record : List UInt8) (s' : σ) : Prop where
  holds : segment.Holds s' tids
  puts : Puts s (overallPageIdOf segment.segmentId t)
    (Image.overwrite (view s (overallPageIdOf segment.segmentId t)) (segment.regionOf s t).start
      record) s'
  slots : ∀ p ∈ segment.pages, SameSlots (view s p) (view s' p)
  others : ∀ u ∈ tids, u ≠ t → segment.slotOf s' u = segment.slotOf s u ∧
    segment.contentOf s' u = segment.contentOf s u
  self : segment.slotOf s' t = segment.slotOf s t ∧
    segment.contentOf s' t = Image.overwrite (segment.contentOf s t) 0 record

theorem Holds.write (holds : segment.Holds s tids) (member : t ∈ tids)
    (short : record.length ≤ (SlottedPage.slotLength (segment.slotOf s t)).toNat)
    (puts : Puts s (overallPageIdOf segment.segmentId t)
      (Image.overwrite (view s (overallPageIdOf segment.segmentId t)) (segment.regionOf s t).start
        record) s') : segment.Overwrites s tids t record s' := by
  obtain ⟨page, isSlot⟩ := holds.names t member
  obtain ⟨whole, formatted⟩ := holds.pages _ page
  have same : SameSlots (view s (overallPageIdOf segment.segmentId t))
      (view s' (overallPageIdOf segment.segmentId t)) := by
    rw [puts.self.2]
    exact formatted.overwrite isSlot
  have sameSlot : segment.slotOf s' t = segment.slotOf s t := same.slots _ isSlot
  refine ⟨?_, puts, fun p member => ?_, fun u isTid different => ?_, sameSlot, ?_⟩
  · apply holds.puts puts
    · exact puts.self.2 ▸ same
    · exact Image.length_overwrite _ _ _
  · by_cases here : p = overallPageIdOf segment.segmentId t
    · rw [here]
      exact same
    · rw [(puts.others p here (holds.pages p member).1).2]
      exact .refl _
  · obtain ⟨otherPage, isOther⟩ := holds.names u isTid
    by_cases here : overallPageIdOf segment.segmentId u = overallPageIdOf segment.segmentId t
    · rw [here] at isOther
      have slots : (slotIdOf u).toNat ≠ (slotIdOf t).toNat := fun equal =>
        different (tid_ext here (UInt16.toNat_inj.mp equal))
      have apart := formatted.apart isSlot isOther slots
      have sameOther : segment.slotOf s' u = segment.slotOf s u := by
        rw [slotOf, slotOf, here]
        exact same.slots _ isOther
      refine ⟨sameOther, content_congr sameOther fun i low high => ?_⟩
      rw [regionOf, here] at low high
      have stop : (segment.regionOf s t).stop = (segment.regionOf s t).start +
        (SlottedPage.slotLength (segment.slotOf s t)).toNat := rfl
      change (segment.regionOf s t).stop ≤ _ ∨ _ ≤ (segment.regionOf s t).start at apart
      rw [here, puts.self.2, Image.getElem?_overwrite, if_neg (by omega)]
    · exact content_view (puts.others _ here (holds.pages _ otherPage).1).2
  · have region : (segment.regionOf s' t).start = (segment.regionOf s t).start :=
      congrArg (fun value => (SlottedPage.slotOffset value).toNat) sameSlot
    rw [contentOf, contentOf, region, sameSlot, puts.self.2]
    exact Image.take_drop_overwrite_self short

/-! ## Reading -/

/-- What a `read` returns of a page that points to its own frame. -/
theorem read_of_fixed {fixPage : σ → UInt64 → Option (σ × Nat)} {unfix : σ → Nat → σ} {mid : σ}
    {f : Nat} {value : UInt64} (fixed : fixPage s (overallPageIdOf segment.segmentId t) = some (mid, f))
    (own : slotFrame mid f = some f) (isSlot : 40 + 8 * (slotIdOf t).toNat ≤ (getData mid f).length)
    (isValue : SlottedPage.slotsOf (getData mid f) (slotIdOf t).toNat = value)
    (inside : (SlottedPage.slotOffset value).toNat + (SlottedPage.slotLength value).toNat ≤
      (getData mid f).length) (capacity : UInt32) :
    (segment.read fixPage unfix s t capacity).map Prod.snd =
      if capacity ≤ SlottedPage.slotLength value then
        some ((((getData mid f).drop (SlottedPage.slotOffset value).toNat).take
          (SlottedPage.slotLength value).toNat).take capacity.toNat, SlottedPage.slotLength value)
      else none := by
  have got : getSlot mid f (slotIdOf t) = some value := by
    rw [getSlot_of_inside own isSlot, isValue]
  rw [read_eq fixed got]
  split
  · rename_i fits
    have short : capacity.toNat ≤ (SlottedPage.slotLength value).toNat :=
      UInt32.le_iff_toNat_le.mp fits
    have copied : copyOut mid f (SlottedPage.slotOffset value).toNat capacity.toNat = _ :=
      copyOut_of_inside (by omega)
    rw [copied, List.take_take, Nat.min_eq_left short]
    rfl
  · rfl

/-- The slot and the record of a `TID` lie in its page. -/
theorem Holds.inside (holds : segment.Holds s tids) (member : t ∈ tids) :
    40 + 8 * (slotIdOf t).toNat ≤ (segment.regionOf s t).start ∧
      (segment.regionOf s t).start + (SlottedPage.slotLength (segment.slotOf s t)).toNat ≤
        (view s (overallPageIdOf segment.segmentId t)).length := by
  obtain ⟨page, isSlot⟩ := holds.names t member
  obtain ⟨behind, inside⟩ := (holds.pages _ page).2.inside isSlot
  change _ ≤ (segment.regionOf s t).start at behind
  exact ⟨by omega, inside⟩

theorem Holds.length_content (holds : segment.Holds s tids) (member : t ∈ tids) :
    (segment.contentOf s t).length = (SlottedPage.slotLength (segment.slotOf s t)).toNat := by
  obtain ⟨_, inside⟩ := holds.inside member
  rw [contentOf, List.length_take, List.length_drop]
  omega

/-- What a `read` returns of a record, if it gets the page. -/
theorem Holds.read_result {fixPage : σ → UInt64 → Option (σ × Nat)} {unfix : σ → Nat → σ} {mid : σ}
    {f : Nat} (holds : segment.Holds s tids) (member : t ∈ tids) (fixes : Fixes fixPage)
    (lands : segment.Lands fixPage s t)
    (fixed : fixPage s (overallPageIdOf segment.segmentId t) = some (mid, f)) (capacity : UInt32) :
    (segment.read fixPage unfix s t capacity).map Prod.snd =
      if capacity ≤ SlottedPage.slotLength (segment.slotOf s t) then
        some ((segment.contentOf s t).take capacity.toNat, SlottedPage.slotLength (segment.slotOf s t))
      else none := by
  obtain ⟨keeps, home⟩ := fixes s _ mid f holds.wf fixed
  have whole := (holds.pages _ (holds.names t member).page).1
  have data : getData mid f = view s (overallPageIdOf segment.segmentId t) :=
    (shown mid _ f keeps.wf home).2.symm.trans (keeps.view _ whole).2
  obtain ⟨behind, inside⟩ := holds.inside member
  have isValue : SlottedPage.slotsOf (getData mid f) (slotIdOf t).toNat = segment.slotOf s t := by
    rw [data, slotOf]
  rw [read_of_fixed fixed (lands mid f fixed) (by rw [data]; omega) isValue (by rw [data]; exact inside),
    data]
  rfl

end BuzzDB.HeapSegment
