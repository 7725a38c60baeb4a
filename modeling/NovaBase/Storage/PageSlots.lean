import NovaBase.Storage.PageFit

/-!
# The slots of a decoded page

The directory gives every live slot a range of the image. Decoding accepts
payloads in any order and empty payloads anywhere in the payload area, but the
ranges it accepts never share a byte. What was decoded can be written again.
-/

namespace NovaBase.Storage.Page

open Lib Lib.Bytes

/-- The range that directory entry `index` describes, unless the slot is deleted. -/
def slotRange (bytes : Bytes) (index : Nat) : Option (Nat × Nat) :=
  let offset := pageHeaderSize + index * slotSize
  let start := fromBigEndian (slice bytes offset (offset + 2))
  let length := fromBigEndian (slice bytes (offset + 2) (offset + slotSize))
  if start = deletedOffset then none else some (start, start + length)

/-- The ranges of the first `count` directory entries. -/
def slotRanges (bytes : Bytes) (count : Nat) : List (Nat × Nat) :=
  (List.range count).filterMap (slotRange bytes)

/-- Where the payload area of an image starts. -/
def payloadArea (bytes : Bytes) : Nat := fromBigEndian (slice bytes 26 28)

/-- Two ranges share no byte. -/
def Apart (range other : Nat × Nat) : Prop := range.2 ≤ other.1 ∨ other.2 ≤ range.1

/-- The overlap test compares a new range with an old one. -/
theorem apart_of_no_overlap {range other : Nat × Nat}
    (h : ¬(range.1 < other.2 ∧ other.1 < range.2)) : Apart other range := by
  rw [Apart]
  omega

/-- The directory loop collects the ranges of the slots it passes and copies their bytes. -/
theorem readSlots_ranges {bytes : Bytes} {freeEnd count index : Nat}
    {ranges found : List (Nat × Nat)} {slots : List (Option Bytes)}
    (h : readSlots bytes freeEnd count index ranges = .ok (found, slots)) :
    found = ranges ++ (List.range' index count).filterMap (slotRange bytes) ∧
      slots = (List.range' index count).map fun slot =>
        (slotRange bytes slot).map fun range => slice bytes range.1 range.2 := by
  induction count generalizing index ranges slots with
  | zero =>
      obtain ⟨rfl, rfl⟩ : ranges = found ∧ [] = slots := by simpa [readSlots] using h
      simp
  | succ count ih =>
      rw [readSlots] at h
      split at h
      next hdeleted =>
        simp only [bind_eq_ok, pure_eq_ok, Except.ok.injEq, Prod.mk.injEq] at h
        obtain ⟨-, -, ⟨ranges', slots'⟩, hrest, rfl, rfl⟩ := h
        obtain ⟨hfound, hslots⟩ := ih hrest
        have hrange : slotRange bytes index = none := by simp [slotRange, hdeleted]
        constructor
        · simpa [List.range'_succ, hrange] using hfound
        · simpa [List.range'_succ, hrange] using hslots
      next hlive =>
        simp only [bind_eq_ok, pure_eq_ok, Except.ok.injEq, Prod.mk.injEq] at h
        obtain ⟨-, -, -, -, ⟨ranges', slots'⟩, hrest, rfl, rfl⟩ := h
        obtain ⟨hfound, hslots⟩ := ih hrest
        have hrange : slotRange bytes index = _ := if_neg hlive
        constructor
        · simpa [List.range'_succ, hrange] using hfound
        · simpa [List.range'_succ, hrange] using hslots

/-- Every range that is added lies in the payload area and clear of the ranges before it. -/
theorem readSlots_apart {bytes : Bytes} {freeEnd count index : Nat}
    {ranges found : List (Nat × Nat)} {slots : List (Option Bytes)}
    (h : readSlots bytes freeEnd count index ranges = .ok (found, slots))
    (hapart : ranges.Pairwise Apart)
    (hinside : ∀ range ∈ ranges, freeEnd ≤ range.1 ∧ range.1 ≤ range.2 ∧ range.2 ≤ pageSize) :
    found.Pairwise Apart ∧
      ∀ range ∈ found, freeEnd ≤ range.1 ∧ range.1 ≤ range.2 ∧ range.2 ≤ pageSize := by
  induction count generalizing index ranges slots with
  | zero =>
      obtain ⟨rfl, -⟩ : ranges = found ∧ [] = slots := by simpa [readSlots] using h
      exact ⟨hapart, hinside⟩
  | succ count ih =>
      rw [readSlots] at h
      split at h
      · simp only [bind_eq_ok, pure_eq_ok, Except.ok.injEq, Prod.mk.injEq] at h
        obtain ⟨-, -, ⟨ranges', slots'⟩, hrest, rfl, rfl⟩ := h
        exact ih hrest hapart hinside
      · simp only [bind_eq_ok, require_eq_ok, pure_eq_ok, Except.ok.injEq, Prod.mk.injEq] at h
        obtain ⟨-, ⟨hstart, hstop⟩, -, hclear, ⟨ranges', slots'⟩, hrest, rfl, rfl⟩ := h
        apply ih hrest
        · apply List.pairwise_append.mpr
          refine ⟨hapart, List.pairwise_singleton _ _, fun range hrange new hnew => ?_⟩
          rw [List.mem_singleton.mp hnew]
          exact apart_of_no_overlap (hclear range hrange)
        · intro range hrange
          rcases List.mem_append.mp hrange with hold | hnew
          · exact hinside range hold
          · rw [List.mem_singleton.mp hnew]
            exact ⟨hstart, Nat.le_add_right _ _, hstop⟩

/-- What an accepted image says about its slots. -/
theorem slotRanges_of_fromBytes {page : Page} {bytes : Bytes} (h : fromBytes bytes = .ok page) :
    pageHeaderSize + page.slots.length * slotSize ≤ payloadArea bytes ∧
      (slotRanges bytes page.slots.length).Pairwise Apart ∧
      (∀ range ∈ slotRanges bytes page.slots.length,
        payloadArea bytes ≤ range.1 ∧ range.1 ≤ range.2 ∧ range.2 ≤ pageSize) ∧
      ∀ slot < page.slots.length, page.slots[slot]? =
        some ((slotRange bytes slot).map fun range => slice bytes range.1 range.2) := by
  simp only [fromBytes, bind_eq_ok, require_eq_ok, pure_eq_ok, Except.ok.injEq] at h
  obtain ⟨-, hlen, -, -, -, -, -, -, -, -, -, -, -, ⟨hstart, hle, hend⟩, ⟨found, slots⟩,
    hread, -, -, -, -, -, -, rfl⟩ := h
  obtain ⟨hcount, -⟩ := readSlots_payload hlen hread
  obtain ⟨hfound, hslots⟩ := readSlots_ranges hread
  obtain ⟨hapart, hinside⟩ := readSlots_apart hread List.Pairwise.nil (by simp)
  have hranges : slotRanges bytes slots.length = found := by
    rw [hfound, slotRanges, hcount, List.range_eq_range', List.nil_append]
  refine ⟨?_, hranges ▸ hapart, hranges ▸ hinside, fun slot hslot => ?_⟩
  · rw [hcount, ← hstart]
    exact hle
  · have hslot' : slot < fromBigEndian (slice bytes 20 22) := hcount ▸ hslot
    dsimp only
    rw [hslots, List.getElem?_map, List.getElem?_range' hslot']
    simp

/-- Images and pages correspond: an image decodes to its page, and an accepted image holds its
slots in disjoint ranges of the payload area and decodes to a page that can be written and read
again. -/
theorem images_and_pages_correspond :
    (∀ (page : Page) (bytes : Bytes), page.toBytes = .ok bytes → fromBytes bytes = .ok page) ∧
      ∀ (bytes : Bytes) (page : Page), fromBytes bytes = .ok page →
        (pageHeaderSize + page.slots.length * slotSize ≤ payloadArea bytes ∧
          (slotRanges bytes page.slots.length).Pairwise Apart ∧
          (∀ range ∈ slotRanges bytes page.slots.length,
            payloadArea bytes ≤ range.1 ∧ range.1 ≤ range.2 ∧ range.2 ≤ pageSize) ∧
          ∀ slot < page.slots.length, page.slots[slot]? =
            some ((slotRange bytes slot).map fun range => slice bytes range.1 range.2)) ∧
        ∃ image, page.toBytes = .ok image ∧ fromBytes image = .ok page := by
  constructor
  · intro page bytes h
    exact fromBytes_toBytes h
  · intro bytes page h
    refine ⟨slotRanges_of_fromBytes h, ?_⟩
    obtain ⟨image, himage⟩ := toBytes_of_fits (fits_of_fromBytes h)
    exact ⟨image, himage, fromBytes_toBytes himage⟩

/-- A page with records, of which one is empty, and with a deleted slot. -/
def slottedPage : Page := ⟨7, [some [1, 2, 3], some [], none, some [9]]⟩

theorem fits_slottedPage : slottedPage.Fits := by
  show _ ≤ pageSize
  decide

/-- The image of this page is accepted. It has the records of the three live slots, and nothing in
the deleted one. -/
theorem images_and_pages_correspond_slots : ∃ bytes, slottedPage.toBytes = .ok bytes ∧
    fromBytes bytes = .ok slottedPage ∧ (slotRanges bytes 4).Pairwise Apart ∧
    (slotRange bytes 0).map (fun range => slice bytes range.1 range.2) = some [1, 2, 3] ∧
    (slotRange bytes 1).map (fun range => slice bytes range.1 range.2) = some [] ∧
    slotRange bytes 2 = none ∧
    (slotRange bytes 3).map (fun range => slice bytes range.1 range.2) = some [9] ∧
    ∃ image, slottedPage.toBytes = .ok image ∧ fromBytes image = .ok slottedPage := by
  obtain ⟨bytes, hbytes⟩ := toBytes_of_fits fits_slottedPage
  have hpage := images_and_pages_correspond.1 slottedPage bytes hbytes
  obtain ⟨⟨-, hapart, -, hslots⟩, himage⟩ := images_and_pages_correspond.2 bytes slottedPage hpage
  have hslot {slot : Nat} {content : Option Bytes}
      (hcontent : slottedPage.slots[slot]? = some content) :
      (slotRange bytes slot).map (fun range => slice bytes range.1 range.2) = content := by
    obtain ⟨hlt, -⟩ := List.getElem?_eq_some_iff.mp hcontent
    exact Option.some.inj ((hslots slot hlt).symm.trans hcontent)
  exact ⟨bytes, hbytes, hpage, hapart, hslot rfl, hslot rfl,
    Option.map_eq_none_iff.mp (hslot rfl), hslot rfl, himage⟩

end NovaBase.Storage.Page
