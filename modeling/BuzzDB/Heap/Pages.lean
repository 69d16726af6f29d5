import BuzzDB.Heap.HeapSegment
import Mathlib.Data.List.Find

/-!
# The pages of a heap segment

What `allocate`, `read` and `write` do to the pages of a segment, over any buffer manager that
is a `PagePool`: it has a page in one frame at a time, and shows pages as they were left.

Pages stay `Formatted` as long as every record that is allocated leaves room for its slot, no
write is longer than its record, and each page is in the frame that it points to.
-/

namespace BuzzDB

/-- A buffer manager, as its callers see it: a page that is `Home` is in the frame, and of a page that is
`Whole` the next `fix_page` shows the `view`. -/
class PagePool (σ : Type) extends FramePool σ where
  Wf : σ → Prop
  Home : σ → UInt64 → Nat → Prop
  Whole : σ → UInt64 → Prop
  view : σ → UInt64 → List UInt8
  nodup : ∀ s, Wf s → (addresses s).Nodup
  single : ∀ s p f g, Wf s → Home s p f → Home s p g → f = g
  shown : ∀ s p f, Wf s → Home s p f → Whole s p ∧ view s p = getData s f
  sized : ∀ s p f, Wf s → Home s p f → (getData s f).length = pageSize s

namespace PagePool

open FramePool

variable {σ : Type} [PagePool σ] {s mid s' : σ} {p q : UInt64} {f g : Nat} {data : List UInt8}

/-- What callers see is the same. -/
structure Keeps (s s' : σ) : Prop where
  wf : Wf s'
  addresses : addresses s' = addresses s
  pageSize : pageSize s' = pageSize s
  view : ∀ q, Whole s q → Whole s' q ∧ view s' q = view s q
  home : ∀ q f, Home s q f → Home s' q f

/-- What callers see is the same but for one page, which has the bytes `data`. -/
structure Puts (s : σ) (p : UInt64) (data : List UInt8) (s' : σ) : Prop where
  wf : Wf s'
  addresses : addresses s' = addresses s
  pageSize : pageSize s' = pageSize s
  self : Whole s' p ∧ view s' p = data
  others : ∀ q, q ≠ p → Whole s q → Whole s' q ∧ view s' q = view s q
  home : ∀ q f, Home s q f → Home s' q f

/-- `fix_page`. -/
def Fixes (fixPage : σ → UInt64 → Option (σ × Nat)) : Prop :=
  ∀ s p s' f, Wf s → fixPage s p = some (s', f) → Keeps s s' ∧ Home s' p f

/-- What a function does behind its work on a frame that it has not changed. -/
def Leaves (unfix : σ → Nat → σ) : Prop := ∀ s p f, Wf s → Home s p f → Keeps s (unfix s f)

/-- What a function does behind its changes to a frame. -/
def Closes (unfix : σ → Nat → σ) : Prop :=
  ∀ s p f data, Wf s → Home s p f → data.length = pageSize s →
    Puts s p data (unfix (setData s f data) f)

theorem Keeps.refl (wf : Wf s) : Keeps s s :=
  ⟨wf, rfl, rfl, fun _ whole => ⟨whole, rfl⟩, fun _ _ => id⟩

theorem Keeps.trans (first : Keeps s mid) (second : Keeps mid s') : Keeps s s' where
  wf := second.wf
  addresses := second.addresses.trans first.addresses
  pageSize := second.pageSize.trans first.pageSize
  view q whole := by
    obtain ⟨whole, same⟩ := first.view q whole
    obtain ⟨whole, same'⟩ := second.view q whole
    exact ⟨whole, same'.trans same⟩
  home q f home := second.home q f (first.home q f home)

theorem Keeps.puts (first : Keeps s mid) (second : Puts mid p data s') : Puts s p data s' where
  wf := second.wf
  addresses := second.addresses.trans first.addresses
  pageSize := second.pageSize.trans first.pageSize
  self := second.self
  others q different whole := by
    obtain ⟨whole, same⟩ := first.view q whole
    obtain ⟨whole, same'⟩ := second.others q different whole
    exact ⟨whole, same'.trans same⟩
  home q f home := second.home q f (first.home q f home)

theorem Puts.keeps (first : Puts s p data mid) (second : Keeps mid s') : Puts s p data s' where
  wf := second.wf
  addresses := second.addresses.trans first.addresses
  pageSize := second.pageSize.trans first.pageSize
  self := by
    obtain ⟨whole, same⟩ := second.view p first.self.1
    exact ⟨whole, same.trans first.self.2⟩
  others q different whole := by
    obtain ⟨whole, same⟩ := first.others q different whole
    obtain ⟨whole, same'⟩ := second.view q whole
    exact ⟨whole, same'.trans same⟩
  home q f home := second.home q f (first.home q f home)

/-- A page points to its own frame when it has the address of that frame. -/
theorem slotFrame_iff (nodup : (addresses s).Nodup) : slotFrame s f = some f ↔
    (addresses s)[f]? = some (SlottedPage.bufferFrame (getData s f)) := by
  rw [slotFrame, List.idxOf?_eq_some_iff, List.getElem?_eq_some_iff]
  constructor
  · intro found
    obtain ⟨inside, same, _⟩ := found
    exact ⟨inside, same⟩
  · intro found
    obtain ⟨inside, same⟩ := found
    refine ⟨inside, same, fun g before other => ?_⟩
    have index := (nodup.getElem_inj_iff).mp (other.trans same.symm)
    omega

/-- The page is in the frame that it points to. -/
def InPlace (s : σ) (p : UInt64) : Prop :=
  ∃ f, Home s p f ∧ (addresses s)[f]? = some (SlottedPage.bufferFrame (view s p))

theorem InPlace.slotFrame_eq (inPlace : InPlace s p) (wf : Wf s) (home : Home s p f) :
    slotFrame s f = some f := by
  obtain ⟨g, home', address⟩ := inPlace
  rw [single s p f g wf home home'] at *
  rw [slotFrame_iff (nodup s wf), ← (shown s p g wf home').2]
  exact address

theorem InPlace.keeps (inPlace : InPlace s p) (wf : Wf s) (keeps : Keeps s s') : InPlace s' p := by
  obtain ⟨f, home, address⟩ := inPlace
  refine ⟨f, keeps.home p f home, ?_⟩
  rw [keeps.addresses, (keeps.view p (shown s p f wf home).1).2]
  exact address

theorem InPlace.puts (inPlace : InPlace s p) (wf : Wf s) (puts : Puts s q data s')
    (pointer : p = q → SlottedPage.bufferFrame data = SlottedPage.bufferFrame (view s p)) :
    InPlace s' p := by
  obtain ⟨f, home, address⟩ := inPlace
  refine ⟨f, puts.home p f home, ?_⟩
  rw [puts.addresses]
  by_cases same : p = q
  · subst same
    rw [puts.self.2, pointer rfl]
    exact address
  · rw [(puts.others p same (shown s p f wf home).1).2]
    exact address

end PagePool

namespace HeapSegment

open FramePool PagePool

variable {σ : Type} [PagePool σ] {fixPage : σ → UInt64 → Option (σ × Nat)} {unfix : σ → Nat → σ}
  {segment segment' : HeapSegment} {s mid s' : σ} {p q t : UInt64} {f g : Nat}
  {data data' record : List UInt8} {size capacity length : UInt32}

/-! ## Reading and writing -/

/-- The value of a slot in the view of its page. -/
def slotOf (segment : HeapSegment) (s : σ) (t : UInt64) : UInt64 :=
  SlottedPage.slotsOf (view s (overallPageIdOf segment.segmentId t)) (slotIdOf t).toNat

/-- Whatever frame the page of a `TID` is fixed in, it points to it. -/
def Lands (fixPage : σ → UInt64 → Option (σ × Nat)) (segment : HeapSegment) (s : σ) (t : UInt64) :
    Prop :=
  ∀ mid f, fixPage s (overallPageIdOf segment.segmentId t) = some (mid, f) → slotFrame mid f = some f

instance (fixPage : σ → UInt64 → Option (σ × Nat)) (segment : HeapSegment) (s : σ) (t : UInt64) :
    Decidable (segment.Lands fixPage s t) :=
  match fixed : fixPage s (overallPageIdOf segment.segmentId t) with
  | none => isTrue fun mid f same => by
      rw [fixed] at same
      cases same
  | some (mid, f) => decidable_of_iff (slotFrame mid f = some f)
      ⟨fun own mid' f' same => by
          rw [fixed] at same
          cases same
          exact own,
        fun lands => lands mid f fixed⟩

/-- The page of a `TID`, fixed, and its slot. -/
theorem fixed_slot {value : UInt64} (fixes : Fixes fixPage) (wf : Wf s)
    (whole : Whole s (overallPageIdOf segment.segmentId t)) (lands : segment.Lands fixPage s t)
    (fixed : fixPage s (overallPageIdOf segment.segmentId t) = some (mid, f))
    (got : getSlot mid f (slotIdOf t) = some value) :
    Keeps s mid ∧ Home mid (overallPageIdOf segment.segmentId t) f ∧
      getData mid f = view s (overallPageIdOf segment.segmentId t) ∧ value = segment.slotOf s t := by
  obtain ⟨keeps, home⟩ := fixes s _ mid f wf fixed
  have data : getData mid f = view s (overallPageIdOf segment.segmentId t) :=
    (shown mid _ f keeps.wf home).2.symm.trans (keeps.view _ whole).2
  refine ⟨keeps, home, data, ?_⟩
  rw [getSlot_spec (lands mid f fixed) got, data, slotOf]

/-- A `read` changes nothing for callers. -/
theorem read_keeps {result : List UInt8 × UInt32} (fixes : Fixes fixPage) (leaves : Leaves unfix)
    (wf : Wf s) (ran : segment.read fixPage unfix s t capacity = some (s', result)) :
    Keeps s s' ∧ ∃ mid f, fixPage s (overallPageIdOf segment.segmentId t) = some (mid, f) := by
  obtain ⟨mid, f, fixed, rfl⟩ := read_eq_some ran
  obtain ⟨keeps, home⟩ := fixes s _ mid f wf fixed
  exact ⟨keeps.trans (leaves mid _ f keeps.wf home), mid, f, fixed⟩

/-- What `write` does to the bytes of the page. -/
theorem write_spec {change : Change} (fixes : Fixes fixPage) (closes : Closes unfix) (wf : Wf s)
    (whole : Whole s (overallPageIdOf segment.segmentId t)) (lands : segment.Lands fixPage s t)
    (ran : segment.write fixPage unfix s t record = some (s', change)) :
    (SlottedPage.slotOffset (segment.slotOf s t)).toNat + record.length ≤
        (view s (overallPageIdOf segment.segmentId t)).length ∧
      Puts s (overallPageIdOf segment.segmentId t)
        (Image.overwrite (view s (overallPageIdOf segment.segmentId t))
          (SlottedPage.slotOffset (segment.slotOf s t)).toNat record) s' := by
  obtain ⟨mid, f, value, written, fixed, got, copied, rfl⟩ := write_eq_some ran
  obtain ⟨keeps, home, data, rfl⟩ := fixed_slot fixes wf whole lands fixed got
  obtain ⟨inside, rfl⟩ := copyIn_eq_some copied
  rw [data] at inside ⊢
  refine ⟨inside, keeps.puts (closes mid _ f _ keeps.wf home ?_)⟩
  rw [Image.length_overwrite, ← data]
  exact sized mid _ f keeps.wf home

/-! ## Allocating -/

/-- `header.free_space` of a page. -/
def freeSpaceOf (s : σ) (p : UInt64) : UInt32 := (SlottedPage.headerOf (view s p)).freeSpace

/-- The first page of the segment with space. -/
def spacePage (segment : HeapSegment) (s : σ) (size : UInt32) : Option UInt64 :=
  segment.pages.find? fun p => size ≤ freeSpaceOf s p

/-- The loop of `allocate` finds the first page with space. -/
theorem findSpace_spec {pages : List UInt64} {found : Option Nat} (fixes : Fixes fixPage) (wf : Wf s)
    (whole : ∀ p ∈ pages, Whole s p) (ran : findSpace fixPage size s pages = some (s', found)) :
    Keeps s s' ∧
      match pages.find? fun p => size ≤ freeSpaceOf s p with
      | some p => ∃ f, found = some f ∧ Home s' p f
      | none => found = none := by
  induction pages generalizing s with
  | nil =>
    cases ran
    exact ⟨Keeps.refl wf, rfl⟩
  | cons p pages ih =>
    obtain ⟨⟨mid, f⟩, fixed, ran⟩ := Option.bind_eq_some_iff.mp ran
    obtain ⟨keeps, home⟩ := fixes s p mid f wf fixed
    have data : getData mid f = view s p :=
      (shown mid p f keeps.wf home).2.symm.trans (keeps.view p (whole p List.mem_cons_self)).2
    dsimp only at ran
    rw [data] at ran
    split at ran
    · rename_i full
      have skipped : ¬ size ≤ freeSpaceOf s p := UInt32.not_le.mpr full
      obtain ⟨keeps', rest⟩ := ih keeps.wf
        (fun q member => (keeps.view q (whole q (List.mem_cons_of_mem p member))).1) ran
      have same : (pages.find? fun q => size ≤ freeSpaceOf mid q) =
          pages.find? fun q => size ≤ freeSpaceOf s q := by
        apply List.find?_congr
        intro q member
        rw [freeSpaceOf, (keeps.view q (whole q (List.mem_cons_of_mem p member))).2, freeSpaceOf]
      rw [same] at rest
      rw [List.find?_cons_of_neg (by simpa using skipped)]
      exact ⟨keeps.trans keeps', rest⟩
    · rename_i fits
      cases ran
      have space : size ≤ freeSpaceOf s p := UInt32.not_lt.mp fits
      rw [List.find?_cons_of_pos (by simpa using space)]
      exact ⟨keeps, f, rfl, home⟩

theorem findSpace_found (fixes : Fixes fixPage) (wf : Wf s) (whole : ∀ p ∈ segment.pages, Whole s p)
    (ran : findSpace fixPage size s segment.pages = some (s', some f)) :
    Keeps s s' ∧ ∃ p, segment.spacePage s size = some p ∧ Home s' p f := by
  obtain ⟨keeps, isFound⟩ := findSpace_spec fixes wf whole ran
  refine ⟨keeps, ?_⟩
  split at isFound
  · rename_i p isPage
    obtain ⟨g, same, home⟩ := isFound
    cases same
    exact ⟨p, isPage, home⟩
  · cases isFound

theorem findSpace_none (fixes : Fixes fixPage) (wf : Wf s) (whole : ∀ p ∈ segment.pages, Whole s p)
    (ran : findSpace fixPage size s segment.pages = some (s', none)) :
    Keeps s s' ∧ segment.spacePage s size = none := by
  obtain ⟨keeps, isFound⟩ := findSpace_spec fixes wf whole ran
  refine ⟨keeps, ?_⟩
  split at isFound
  · obtain ⟨g, impossible, -⟩ := isFound
    cases impossible
  · assumption

/-- The invariant of a page: the one of slotted pages, and its own page id. -/
structure Formatted (p : UInt64) (data : List UInt8) : Prop where
  inv : (SlottedPage.ofBytes data).Inv (UInt32.ofNat data.length)
  pageId : (SlottedPage.headerOf data).overallPageId = p

theorem Formatted.grows (formatted : Formatted p data) (fits : (SlottedPage.ofBytes data).Fits size)
    (describes : (SlottedPage.ofBytes data).Describes size) (grows : Grows data size data') :
    Formatted p data' where
  inv := by
    rw [grows.length]
    exact formatted.inv.step_of_describes describes fits grows.stepped
  pageId := (SlottedPage.step_overallPageId grows.stepped).trans formatted.pageId

/-- A page that has just been constructed. -/
theorem formatted_constructed {address : UInt64} {old : List UInt8}
    (constructed : Constructed p address (UInt32.ofNat old.length) old data)
    (header : 32 ≤ (UInt32.ofNat old.length).toNat) : Formatted p data where
  inv := by
    rw [constructed.page, constructed.length]
    exact (SlottedPage.Inv.new _ header).congr rfl fun _ _ => rfl
  pageId := congrArg (fun page => page.header.overallPageId) constructed.page

/-- A page as `new` constructs it. -/
def emptyPage (s : σ) : SlottedPage := .new (fun _ => 0) (UInt32.ofNat (pageSize s))

/-- The page that takes the record leaves room for its slot, and the slot can describe the record.  A new
page has a page id of the segment, and the size of its header. -/
def Fitting (segment : HeapSegment) (s : σ) (size : UInt32) : Prop :=
  match segment.spacePage s size with
  | some p => (SlottedPage.ofBytes (view s p)).Fits size ∧ (SlottedPage.ofBytes (view s p)).Describes size
  | none => segment.pageCount.toNat + 1 < 2 ^ 48 ∧ 32 ≤ (UInt32.ofNat (pageSize s)).toNat ∧
      (emptyPage s).Fits size ∧ (emptyPage s).Describes size

instance (segment : HeapSegment) (s : σ) (size : UInt32) : Decidable (segment.Fitting s size) :=
  match isPage : segment.spacePage s size with
  | some p => decidable_of_iff
      ((SlottedPage.ofBytes (view s p)).Fits size ∧ (SlottedPage.ofBytes (view s p)).Describes size)
      (by rw [Fitting, isPage])
  | none => decidable_of_iff
      (segment.pageCount.toNat + 1 < 2 ^ 48 ∧ 32 ≤ (UInt32.ofNat (pageSize s)).toNat ∧
        (emptyPage s).Fits size ∧ (emptyPage s).Describes size)
      (by rw [Fitting, isPage])

/-- Whatever frame the loop of `allocate` finds, its page points to it. -/
def FindsOwn (fixPage : σ → UInt64 → Option (σ × Nat)) (segment : HeapSegment) (s : σ)
    (size : UInt32) : Prop :=
  ∀ mid f, findSpace fixPage size s segment.pages = some (mid, some f) → slotFrame mid f = some f

/-- What `allocate` does: page `p` takes the record, an old one or the next one, which has been
constructed for it. -/
structure Allocates (segment : HeapSegment) (s : σ) (size : UInt32) (segment' : HeapSegment) (s' : σ)
    (t p : UInt64) (before data' : List UInt8) : Prop where
  segmentId : segment'.segmentId = segment.segmentId
  place : (segment.spacePage s size = some p ∧ before = view s p ∧ segment' = segment) ∨
    (segment.spacePage s size = none ∧ segment.pageCount.toNat + 1 < 2 ^ 48 ∧
      p = getOverallPageId segment.segmentId segment.pageCount ∧
      segment'.pageCount = segment.pageCount + 1 ∧
      (SlottedPage.headerOf before).slotCount = 0 ∧ before.length = pageSize s ∧ InPlace s' p)
  formatted : Formatted p before
  fits : (SlottedPage.ofBytes before).Fits size
  describes : (SlottedPage.ofBytes before).Describes size
  grows : Grows before size data'
  puts : Puts s p data' s'
  tid : t = tid p (SlottedPage.headerOf before).slotCount

/-- A page of the segment takes the record. -/
theorem allocates_found (closes : Closes unfix) (keeps : Keeps s mid) (home : Home mid p f)
    (pages : ∀ p ∈ segment.pages, Whole s p ∧ Formatted p (view s p))
    (isPage : segment.spacePage s size = some p) (fits : (SlottedPage.ofBytes (view s p)).Fits size)
    (describes : (SlottedPage.ofBytes (view s p)).Describes size) (own : slotFrame mid f = some f)
    (added : addSlot mid f size = some (s', t)) :
    ∃ data', Allocates segment s size segment (unfix s' f) t p (view s p) data' := by
  obtain ⟨whole, formatted⟩ := pages p (List.mem_of_find?_eq_some isPage)
  have data : getData mid f = view s p :=
    (shown mid p f keeps.wf home).2.symm.trans (keeps.view p whole).2
  obtain ⟨data', grows, rfl, isTid⟩ := addSlot_spec own added
  rw [data] at grows isTid
  have closed := closes mid p f data' keeps.wf home (by
    rw [grows.length, ← data]
    exact sized mid p f keeps.wf home)
  refine ⟨data', rfl, Or.inl ⟨isPage, rfl, rfl⟩, formatted, fits, describes, grows,
    keeps.puts closed, ?_⟩
  rw [isTid, formatted.pageId]
  exact congrArg (tid p) formatted.inv.first

/-- The next page is constructed, and takes the record. -/
theorem allocates_next {mid' : σ} (closes : Closes unfix) (keeps : Keeps s mid)
    (home : Home mid (getOverallPageId segment.segmentId segment.pageCount) f)
    (isPage : segment.spacePage s size = none) (few : segment.pageCount.toNat + 1 < 2 ^ 48)
    (room : 32 ≤ (UInt32.ofNat (pageSize s)).toNat) (fits : (emptyPage s).Fits size)
    (describes : (emptyPage s).Describes size)
    (constructs : newPage mid f (getOverallPageId segment.segmentId segment.pageCount) = some mid')
    (added : addSlot mid' f size = some (s', t)) :
    ∃ before data', Allocates segment s size { segment with pageCount := segment.pageCount + 1 }
      (unfix s' f) t (getOverallPageId segment.segmentId segment.pageCount) before data' := by
  obtain ⟨before, address, isAddress, constructed, rfl⟩ := newPage_spec constructs
  have sized := sized mid _ f keeps.wf home
  have length : before.length = pageSize s :=
    constructed.length.trans (sized.trans keeps.pageSize)
  have header : (SlottedPage.ofBytes before).header = { (emptyPage s).header with
      overallPageId := getOverallPageId segment.segmentId segment.pageCount } := by
    rw [constructed.page, keeps.pageSize]
    rfl
  rw [← sized] at constructed
  have formatted := formatted_constructed constructed (by rw [sized, keeps.pageSize]; exact room)
  have own : slotFrame (setData mid f before) f = some f := by
    rw [slotFrame_iff (by rw [addresses_setData]; exact nodup mid keeps.wf), addresses_setData,
      getData_setData_self constructed.length, constructed.pointer]
    exact isAddress
  obtain ⟨data', grows, rfl, isTid⟩ := addSlot_spec own added
  rw [getData_setData_self constructed.length] at grows isTid
  rw [setData_setData]
  have closed := closes mid _ f data' keeps.wf home (by
    rw [grows.length, constructed.length]
    exact sized)
  refine ⟨before, data', rfl, Or.inr ⟨isPage, few, rfl, rfl, congrArg (·.slotCount) header, length, f,
    closed.home _ f home, ?_⟩, formatted, ?_, ?_, grows, keeps.puts closed, ?_⟩
  · rw [closed.addresses, closed.self.2, grows.pointer, constructed.pointer]
    exact isAddress
  · rw [SlottedPage.Fits, header]
    exact fits
  · obtain ⟨slot, offset, length⟩ := describes
    refine ⟨?_, ?_, length⟩ <;> rw [header]
    · exact slot
    · exact offset
  · rw [isTid, formatted.pageId]
    exact congrArg (tid _) formatted.inv.first

theorem allocate_spec (fixes : Fixes fixPage) (closes : Closes unfix) (wf : Wf s)
    (pages : ∀ p ∈ segment.pages, Whole s p ∧ Formatted p (view s p))
    (fitting : segment.Fitting s size) (findsOwn : segment.FindsOwn fixPage s size)
    (ran : segment.allocate fixPage unfix s size = some (s', segment', t)) :
    ∃ p before data', Allocates segment s size segment' s' t p before data' := by
  have isWhole : ∀ p ∈ segment.pages, Whole s p := fun p member => (pages p member).1
  unfold Fitting at fitting
  rcases allocate_cases ran with ⟨mid, f, added, searched, isAdded, rfl, rfl⟩ |
    ⟨mid, mid', f, mid'', added, searched, fixed, constructs, isAdded, rfl, rfl⟩
  · obtain ⟨keeps, p, isPage, home⟩ := findSpace_found fixes wf isWhole searched
    rw [isPage] at fitting
    obtain ⟨fits, describes⟩ := fitting
    obtain ⟨data', allocates⟩ := allocates_found closes keeps home pages isPage fits describes
      (findsOwn mid f searched) isAdded
    exact ⟨p, view s p, data', allocates⟩
  · obtain ⟨keeps, isPage⟩ := findSpace_none fixes wf isWhole searched
    rw [isPage] at fitting
    obtain ⟨few, room, fits, describes⟩ := fitting
    obtain ⟨keeps', home⟩ := fixes mid _ mid' f keeps.wf fixed
    obtain ⟨before, data', allocates⟩ := allocates_next closes (keeps.trans keeps') home isPage few
      room fits describes constructs isAdded
    exact ⟨_, before, data', allocates⟩

/-! ## Records -/

variable {slot other : Nat}

/-- The part of a page that a slot describes. -/
def recordOf (data : List UInt8) (slot : Nat) : SlottedPage.Region := (SlottedPage.ofBytes data).record slot

/-- The number of slots that are in use. -/
def slotCountOf (data : List UInt8) : Nat := (SlottedPage.headerOf data).slotCount.toNat

/-- A record lies behind the slot array and inside the page. -/
theorem Formatted.inside (formatted : Formatted p data) (isSlot : slot < slotCountOf data) :
    32 + 8 * slotCountOf data ≤ (recordOf data slot).start ∧
      (recordOf data slot).stop ≤ data.length := by
  have free := formatted.inv.free
  have above := formatted.inv.above slot isSlot
  have inside := formatted.inv.inside slot isSlot
  have truncated : (UInt32.ofNat data.length).toNat ≤ data.length := by
    rw [UInt32.toNat_ofNat']
    exact Nat.mod_le _ _
  refine ⟨Nat.le_trans ?_ above, inside.trans truncated⟩
  change 32 + 8 * (SlottedPage.ofBytes data).header.slotCount.toNat ≤ _
  omega

/-- Two records have no byte in common. -/
theorem Formatted.apart (formatted : Formatted p data) (isSlot : slot < slotCountOf data)
    (isOther : other < slotCountOf data) (different : other ≠ slot) :
    (recordOf data slot).stop ≤ (recordOf data other).start ∨
      (recordOf data other).stop ≤ (recordOf data slot).start := by
  rcases Nat.lt_or_gt_of_ne different with before | behind
  · exact Or.inl (formatted.inv.below other isOther slot isSlot before)
  · exact Or.inr (formatted.inv.below slot isSlot other isOther behind)

/-- The header, and the slots that are in use, are the same. -/
structure SameSlots (data data' : List UInt8) : Prop where
  header : SlottedPage.headerOf data' = SlottedPage.headerOf data
  pointer : SlottedPage.bufferFrame data' = SlottedPage.bufferFrame data
  slots : ∀ slot < slotCountOf data, SlottedPage.slotsOf data' slot = SlottedPage.slotsOf data slot

theorem SameSlots.refl (data : List UInt8) : SameSlots data data := ⟨rfl, rfl, fun _ _ => rfl⟩

theorem Formatted.same (formatted : Formatted p data) (same : SameSlots data data')
    (length : data'.length = data.length) : Formatted p data' where
  inv := by
    rw [length]
    refine formatted.inv.congr ?_ same.slots
    change SlottedPage.headerOf data' = { SlottedPage.headerOf data with
      overallPageId := (SlottedPage.headerOf data').overallPageId }
    rw [same.header]
  pageId := (congrArg (·.overallPageId) same.header).trans formatted.pageId

/-- A write that is no longer than its record. -/
theorem Formatted.overwrite (formatted : Formatted p data) (isSlot : slot < slotCountOf data) :
    SameSlots data (Image.overwrite data (recordOf data slot).start record) := by
  have behind := (formatted.inside isSlot).1
  have header : 28 ≤ (recordOf data slot).start := by omega
  refine ⟨(SlottedPage.headerOf_overwrite_behind header).1,
    (SlottedPage.headerOf_overwrite_behind header).2,
    fun used isUsed => SlottedPage.slotsOf_congr fun i _ high => ?_⟩
  rw [Image.getElem?_overwrite, if_neg (by omega)]

/-- What `addSlot` leaves of a page: its records, with their slots and bytes. -/
theorem Formatted.grows_record (formatted : Formatted p data)
    (fits : (SlottedPage.ofBytes data).Fits size)
    (describes : (SlottedPage.ofBytes data).Describes size) (grows : Grows data size data')
    (isSlot : slot < slotCountOf data) :
    SlottedPage.slotsOf data' slot = SlottedPage.slotsOf data slot ∧
      ∀ i, (recordOf data slot).start ≤ i → data'[i]? = data[i]? := by
  have adds := formatted.inv.adds_of_describes describes grows.stepped
  refine ⟨adds.others slot isSlot, fun i behind => grows.kept i (Nat.le_trans ?_ behind)⟩
  have free := formatted.inv.free
  have above := formatted.inv.above slot isSlot
  have first := congrArg UInt16.toNat formatted.inv.first
  have fits : size.toNat + 8 ≤ (SlottedPage.ofBytes data).header.freeSpace.toNat := fits
  refine Nat.le_trans ?_ above
  change 40 + 8 * (SlottedPage.ofBytes data).header.firstFreeSlot.toNat ≤ _
  omega

end HeapSegment

end BuzzDB
