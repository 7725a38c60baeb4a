import NovaBase.Storage.PageImage

/-!
# Pages that can be encoded

A page has an image when its header, directory and payload fit the page size.
Empty pages do, and so does every page that was decoded.
-/

namespace NovaBase.Storage.Page

open Lib Lib.Bytes

/-- The header, the directory and the payload fit into one page. -/
def Fits (page : Page) : Prop :=
  pageHeaderSize + page.slots.length * slotSize + (payload page.slots).length ≤ pageSize

/-- The slot loop succeeds when the payload fits below `payloadStart`. -/
theorem writeSlots_ok {freeStart index payloadStart : Nat} {slots : List (Option Bytes)}
    {bytes : Bytes} (hfit : freeStart + (payload slots).length ≤ payloadStart)
    (hsmall : payloadStart ≤ pageSize) :
    ∃ image last, writeSlots freeStart slots index bytes payloadStart = .ok (image, last) ∧
      last ≤ payloadStart := by
  induction slots generalizing index payloadStart bytes with
  | nil => exact ⟨bytes, payloadStart, rfl, le_rfl⟩
  | cons slot slots ih =>
      cases slot with
      | none => exact ih hfit hsmall
      | some record =>
          simp only [payload, List.length_append] at hfit
          simp only [pageSize] at hsmall
          have hstart : asU16 (payloadStart - record.length) =
              .ok (payloadStart - record.length) := asU16_eq_ok.mpr ⟨by omega, rfl⟩
          have hlength : asU16 record.length = .ok record.length :=
            asU16_eq_ok.mpr ⟨by omega, rfl⟩
          have hrest (image : Bytes) : ∃ image' last, writeSlots freeStart slots (index + 1) image
              (payloadStart - record.length) = .ok (image', last) ∧
                last ≤ payloadStart - record.length :=
            ih (by omega) (by simp only [pageSize]; omega)
          rw [writeSlots, require_of _ ⟨by omega, by omega⟩]
          simp only [ok_bind, hstart, hlength]
          obtain ⟨image, last, hwrite, hle⟩ := hrest _
          exact ⟨image, last, hwrite, by omega⟩

theorem len_le_length (page : Page) : page.len ≤ page.slots.length :=
  List.countP_le_length

theorem toBytes_of_fits {page : Page} (h : page.Fits) : ∃ bytes, page.toBytes = .ok bytes := by
  simp only [Fits, pageHeaderSize, slotSize] at h
  have hlen := page.len_le_length
  have hpageSize : pageSize = 4096 := rfl
  have hfit : pageHeaderSize + page.slots.length * slotSize + (payload page.slots).length ≤
      pageSize := by
    simp only [pageHeaderSize, slotSize]
    omega
  obtain ⟨image, last, hwrite, hlast⟩ : ∃ image last,
      writeSlots (pageHeaderSize + page.slots.length * slotSize) page.slots 0
        (List.replicate pageSize 0) pageSize = .ok (image, last) ∧ last ≤ pageSize :=
    writeSlots_ok hfit le_rfl
  have hheader : asU16 pageHeaderSize = .ok pageHeaderSize := rfl
  have hfree : asU16 (pageHeaderSize + page.slots.length * slotSize) =
      .ok (pageHeaderSize + page.slots.length * slotSize) :=
    asU16_eq_ok.mpr ⟨by simp only [pageHeaderSize, slotSize]; omega, rfl⟩
  have hend : asU16 last = .ok last := asU16_eq_ok.mpr ⟨by omega, rfl⟩
  rw [toBytes, require_of _ (by omega), ok_bind, require_of _ (by omega), ok_bind]
  dsimp only
  rw [require_of _ (by simp only [pageHeaderSize, slotSize]; omega)]
  simp only [ok_bind, hwrite, hheader, hfree, hend]
  exact ⟨_, rfl⟩

theorem fits_new (id : PageId) : (Page.new id).Fits := by
  simp [Fits, new, payload, pageHeaderSize, pageSize]

/-- An empty page has an image. -/
theorem toBytes_new (id : PageId) : ∃ bytes, (Page.new id).toBytes = .ok bytes :=
  toBytes_of_fits (fits_new id)

/-- The slots that are read fill exactly the ranges that are found. -/
theorem readSlots_payload {bytes : Bytes} {freeEnd count index : Nat}
    {ranges found : List (Nat × Nat)} {slots : List (Option Bytes)}
    (hlen : bytes.length = pageSize)
    (h : readSlots bytes freeEnd count index ranges = .ok (found, slots)) :
    slots.length = count ∧ (found.map fun range => range.2 - range.1).sum =
      (ranges.map fun range => range.2 - range.1).sum + (payload slots).length := by
  induction count generalizing index ranges slots with
  | zero =>
      obtain ⟨rfl, rfl⟩ : ranges = found ∧ [] = slots := by simpa [readSlots] using h
      simp [payload]
  | succ count ih =>
      rw [readSlots] at h
      split at h
      · simp only [bind_eq_ok, pure_eq_ok, Except.ok.injEq, Prod.mk.injEq] at h
        obtain ⟨-, -, ⟨ranges', slots'⟩, hrest, rfl, rfl⟩ := h
        obtain ⟨hcount, hsum⟩ := ih hrest
        exact ⟨by simp [hcount], hsum⟩
      · simp only [bind_eq_ok, require_eq_ok, pure_eq_ok, Except.ok.injEq, Prod.mk.injEq] at h
        obtain ⟨-, ⟨-, hstop⟩, -, -, ⟨ranges', slots'⟩, hrest, rfl, rfl⟩ := h
        obtain ⟨hcount, hsum⟩ := ih hrest
        refine ⟨by simp [hcount], ?_⟩
        rw [hsum]
        simp only [List.map_append, List.sum_append, List.map_cons, List.map_nil, List.sum_cons,
          List.sum_nil, payload, List.length_append, length_slice, hlen]
        omega

/-- A decoded page fits its image, and so can be encoded again. -/
theorem fits_of_fromBytes {page : Page} {bytes : Bytes} (h : fromBytes bytes = .ok page) :
    page.Fits := by
  simp only [fromBytes, bind_eq_ok, require_eq_ok, pure_eq_ok, Except.ok.injEq] at h
  obtain ⟨-, hlen, -, -, -, -, -, -, -, -, -, -, -, ⟨hstart, hle, hend⟩, ⟨found, slots⟩,
    hread, -, -, -, -, -, hsum, rfl⟩ := h
  obtain ⟨hcount, hpayload⟩ := readSlots_payload hlen hread
  simp only [List.map_nil, List.sum_nil, Nat.zero_add] at hpayload
  dsimp only at hsum
  simp only [Fits, hcount]
  omega

end NovaBase.Storage.Page

namespace NovaBase.Storage

/-- The image of a page. -/
def image (page : Page) : Lib.Bytes := page.toBytes.toOption.getD []

theorem image_eq {page : Page} (h : page.Fits) : page.toBytes = .ok (image page) := by
  obtain ⟨bytes, hbytes⟩ := Page.toBytes_of_fits h
  simp [image, hbytes, Except.toOption]

end NovaBase.Storage
