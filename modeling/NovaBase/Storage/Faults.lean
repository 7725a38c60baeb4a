import NovaBase.Storage.Manager

/-!
# Page files whose writes fail

A write that stops half way leaves a torn image at its place, and an allocation
that stops half way leaves stray bytes at the end. What is read under any other
id stays as it was.
-/

namespace NovaBase.Storage.PageManager

open Lib Lib.Bytes

/-- The file has the bytes of every allocated page, and perhaps stray bytes after them. -/
structure Sized (pages : PageManager) : Prop where
  room : pages.pageCount * pageSize ≤ pages.file.bytes.length
  fits : pages.file.bytes.length ≤ maxFileLength

/-- The bytes at the place of a page. -/
def diskImage (pages : PageManager) (id : PageId) : Bytes :=
  slice pages.file.bytes (id.toNat * pageSize) (id.toNat * pageSize + pageSize)

/-- What the bytes at the place of a page mean. -/
def decodeAs (id : PageId) (bytes : Bytes) : Result Page := do
  let page ← Page.fromBytes bytes
  require (page.id = id) (NovaError.corruption
    (s!"page {id.toNat} contains header for page {page.id.toNat}"))
  return page

variable {pages next : PageManager} {id : PageId} {page : Page}

theorem decodeAs_image {bytes : Bytes} (h : page.toBytes = .ok bytes) :
    decodeAs page.id bytes = .ok page := by
  rw [decodeAs, Page.fromBytes_toBytes h, ok_bind, require_of _ rfl, ok_bind]
  rfl

theorem decodeAs_eq_ok {bytes : Bytes} (h : decodeAs id bytes = .ok page) : page.id = id := by
  simp only [decodeAs, bind_eq_ok, require_eq_ok, pure_eq_ok, Except.ok.injEq] at h
  obtain ⟨read, -, -, hid, rfl⟩ := h
  exact hid

/-- The place of an allocated page lies inside the file. -/
theorem Sized.place (h : pages.Sized) (hid : id.toNat < pages.pageCount) :
    pages.ensureAllocated id = .ok () ∧ pageOffset id = .ok (id.toNat * pageSize) ∧
      id.toNat * pageSize + pageSize ≤ pages.file.bytes.length := by
  have hroom := h.room
  have hfits := h.fits
  have hpos : 0 < pageSize := by decide
  have hle : (id.toNat + 1) * pageSize ≤ pages.pageCount * pageSize := Nat.mul_le_mul_right _ hid
  rw [Nat.succ_mul] at hle
  refine ⟨by rw [ensureAllocated, if_neg (by omega)], ?_, by omega⟩
  rw [pageOffset, if_pos]
  simp only [maxFileLength] at hfits
  omega

/-- Reading decodes the bytes at the place of the page. -/
theorem Sized.read_eq (h : pages.Sized) (id : PageId) :
    (pages.read id).1 =
      if id.toNat < pages.pageCount then decodeAs id (pages.diskImage id)
      else .error (.notFound s!"page {id.toNat}") := by
  split
  · rename_i hid
    obtain ⟨hallocated, hoffset, hinside⟩ := h.place hid
    have hbytes : ((pages.file.seek (id.toNat * pageSize)).readExact pageSize).1 =
        .ok (pages.diskImage id) := by
      rw [File.readExact, if_pos (by exact hinside)]
      rfl
    simp only [PageManager.read, hallocated, hoffset, hbytes, ok_bind, decodeAs]
  · rename_i hid
    have hrefused : pages.ensureAllocated id = .error (.notFound s!"page {id.toNat}") := by
      rw [ensureAllocated, if_pos (by omega)]
    simp only [PageManager.read, hrefused]

/-- Reading changes nothing but the cursor. -/
theorem read_state (pages : PageManager) (id : PageId) :
    (pages.read id).2.file.bytes = pages.file.bytes ∧
      (pages.read id).2.pageCount = pages.pageCount := by
  rw [PageManager.read]
  split
  · exact ⟨rfl, rfl⟩
  · exact ⟨rfl, rfl⟩
  · exact ⟨File.readExact_bytes .., rfl⟩

/-- A page that is read has the id under which it is read. -/
theorem Sized.id_of_read (h : pages.Sized) (hread : (pages.read id).1 = .ok page) :
    page.id = id ∧ id.toNat < pages.pageCount := by
  rw [h.read_eq] at hread
  split at hread
  · rename_i hid
    exact ⟨decodeAs_eq_ok hread, hid⟩
  · cases hread

/-- The same bytes and pages read the same. -/
theorem Sized.of_bytes (h : pages.Sized) (next : PageManager)
    (hbytes : next.file.bytes = pages.file.bytes) (hcount : next.pageCount = pages.pageCount) :
    next.Sized ∧ ∀ id, (next.read id).1 = (pages.read id).1 := by
  have hnext : next.Sized := ⟨by rw [hbytes, hcount]; exact h.room, hbytes ▸ h.fits⟩
  refine ⟨hnext, fun id => ?_⟩
  rw [hnext.read_eq, h.read_eq, hcount, diskImage, diskImage, hbytes]

/-- A write of a page that is not allocated, or has no image, does not answer. -/
theorem refused_not_written (outcome : WriteOutcome)
    (hrefused : pages.pageCount ≤ page.id.toNat ∨ ∃ cause, page.toBytes = .error cause) :
    (pages.write outcome page).1 ≠ .ok () := by
  intro hok
  obtain ⟨hid, bytes, hbytes⟩ := write_ok hok
  rcases hrefused with hrefused | ⟨cause, hcause⟩
  · exact absurd hid (Nat.not_lt.mpr hrefused)
  · cases hbytes.symm.trans hcause

/-- The places of two pages do not overlap. -/
theorem places_apart {id other : PageId} (hother : id ≠ other) :
    id.toNat * pageSize + pageSize ≤ other.toNat * pageSize ∨
      other.toNat * pageSize + pageSize ≤ id.toNat * pageSize := by
  have hne : id.toNat ≠ other.toNat := fun hsame => hother (UInt64.toNat_inj.mp hsame)
  rw [← Nat.succ_mul, ← Nat.succ_mul]
  rcases Nat.lt_or_gt_of_ne hne with hlt | hgt
  · exact .inl (Nat.mul_le_mul_right pageSize hlt)
  · exact .inr (Nat.mul_le_mul_right pageSize hgt)

/-- A write, failed or not, changes what is read under one id only. -/
theorem Sized.write (h : pages.Sized) (outcome : WriteOutcome) (page : Page) :
    (pages.write outcome page).2.Sized ∧
      (pages.write outcome page).2.pageCount = pages.pageCount ∧
      (∀ id, id ≠ page.id → ((pages.write outcome page).2.read id).1 = (pages.read id).1) ∧
      ((pages.write outcome page).1 = .ok () →
        ((pages.write outcome page).2.read page.id).1 = .ok page) := by
  by_cases hrefused : pages.pageCount ≤ page.id.toNat ∨ ∃ cause, page.toBytes = .error cause
  · rw [write_refused outcome hrefused]
    exact ⟨h, rfl, fun _ _ => rfl, fun hok => absurd hok (refused_not_written outcome hrefused)⟩
  · obtain ⟨hid, hencoded⟩ := not_or.mp hrefused
    have hid' : page.id.toNat < pages.pageCount := by omega
    cases himage : page.toBytes with
    | error cause => exact absurd ⟨cause, himage⟩ hencoded
    | ok image =>
        obtain ⟨hallocated, hoffset, hinside⟩ := h.place hid'
        have hlen := Page.length_toBytes himage
        set file := pages.file.seek (page.id.toNat * pageSize) with hfile
        set part := image.take (file.stored outcome image) with hpart
        have hshort : part.length ≤ pageSize := by
          rw [hpart, List.length_take]
          omega
        have hpartInside : page.id.toNat * pageSize + part.length ≤ pages.file.bytes.length := by
          omega
        have hwrite : pages.write outcome page = ((file.writeAll outcome image).1,
            { pages with file := file.store part }) := by
          simp only [PageManager.write, hallocated, himage, hoffset]
          rfl
        have hbytes : (file.store part).bytes =
            splice pages.file.bytes (page.id.toNat * pageSize) part :=
          File.store_inside hpartInside
        have hlength : (file.store part).bytes.length = pages.file.bytes.length := by
          rw [hbytes, length_splice hpartInside]
        have hnext : Sized { pages with file := file.store part } :=
          ⟨by rw [hlength]; exact h.room, by rw [hlength]; exact h.fits⟩
        rw [hwrite]
        refine ⟨hnext, rfl, fun id hother => ?_, fun hok => ?_⟩
        · rw [hnext.read_eq, h.read_eq]
          dsimp only
          rw [diskImage, diskImage, hbytes, slice_splice_of_not_mem hpartInside]
          rcases places_apart hother with hbelow | habove
          · exact .inl hbelow
          · exact .inr ((Nat.add_le_add_left hshort _).trans habove)
        · have hall : part = image := by
            simp only [File.writeAll] at hok
            split at hok
            · rename_i hcomplete
              rw [hpart, hcomplete.2, List.take_length]
            · cases hok
          rw [hnext.read_eq, if_pos hid']
          have hdisk : diskImage { pages with file := file.store part } page.id = image := by
            rw [diskImage, hbytes, ← hlen, ← hall]
            exact slice_splice (by rw [hall, hlen]; exact hinside)
          rw [hdisk, decodeAs_image himage]

/-- Bytes behind the pages, counted or not, do not change what is read under an allocated id. -/
theorem Sized.read_append (h : pages.Sized) (hnext : next.Sized) {part : Bytes}
    (hbytes : next.file.bytes = pages.file.bytes ++ part)
    (hcount : pages.pageCount ≤ next.pageCount)
    (id : PageId) (hid : id.toNat < pages.pageCount) : (next.read id).1 = (pages.read id).1 := by
  obtain ⟨-, -, hinside⟩ := h.place hid
  rw [hnext.read_eq, h.read_eq, if_pos hid, if_pos (hid.trans_le hcount), diskImage, diskImage,
    hbytes, slice_append_left _ hinside]

/-- An allocation, failed or not, leaves what is read under every allocated id. -/
theorem Sized.allocate (h : pages.Sized) (outcome : WriteOutcome) :
    (pages.allocate outcome).2.Sized ∧
      pages.pageCount ≤ (pages.allocate outcome).2.pageCount ∧
      (∀ id, id.toNat < pages.pageCount →
        ((pages.allocate outcome).2.read id).1 = (pages.read id).1) ∧
      ∀ id, (pages.allocate outcome).1 = .ok id → id.toNat = pages.pageCount := by
  have hroom := h.room
  have hfits := h.fits
  set image := emptyImage pages.pageCount with himage
  have hlen : image.length = pageSize := length_emptyImage _
  set file := pages.file.seekEnd with hfile
  set part := image.take (file.stored outcome image) with hpart
  have hbytes : (file.store part).bytes = pages.file.bytes ++ part := File.store_end rfl
  have hstored : pages.file.bytes.length + part.length ≤ maxFileLength := by
    rw [hpart, List.length_take]
    have hcursor : file.cursor = pages.file.bytes.length := rfl
    cases outcome with
    | complete =>
        simp only [File.stored, hcursor]
        omega
    | cut stored =>
        simp only [File.stored, hcursor]
        omega
  have hlength : (file.store part).bytes.length = pages.file.bytes.length + part.length := by
    rw [hbytes, List.length_append]
  have hkept : Sized ⟨file.store part, pages.pageCount⟩ :=
    ⟨by dsimp only; omega, by dsimp only; omega⟩
  by_cases hok : outcome = .complete ∧ file.stored outcome image = image.length
  · have hwrite : file.writeAll outcome image = (.ok (), file.store part) := by
      rw [File.writeAll, if_pos hok]
    have hfull : part.length = pageSize := by
      rw [hpart, hok.2, List.take_length, hlen]
    have hsmall : pages.pageCount + 1 < 2 ^ 64 := by
      simp only [maxFileLength, pageSize] at hroom hfits
      omega
    have hallocate : pages.allocate outcome =
        (.ok (UInt64.ofNat pages.pageCount), ⟨file.store part, pages.pageCount + 1⟩) := by
      simp only [PageManager.allocate, emptyImage_eq, ← himage, ← hfile, hwrite, if_pos hsmall]
    have hnext : Sized ⟨file.store part, pages.pageCount + 1⟩ := by
      refine ⟨?_, by dsimp only; omega⟩
      dsimp only
      rw [Nat.succ_mul]
      omega
    rw [hallocate]
    refine ⟨hnext, Nat.le_succ _, h.read_append hnext hbytes (Nat.le_succ _), fun id hid => ?_⟩
    rw [← Except.ok.inj hid, UInt64.toNat_ofNat']
    exact Nat.mod_eq_of_lt (by omega)
  · have hwrite : file.writeAll outcome image = (.error .io, file.store part) := by
      rw [File.writeAll, if_neg hok]
    have hallocate : pages.allocate outcome =
        (.error .io, ⟨file.store part, pages.pageCount⟩) := by
      simp only [PageManager.allocate, emptyImage_eq, ← himage, ← hfile, hwrite]
    rw [hallocate]
    refine ⟨hkept, le_rfl, h.read_append hkept hbytes le_rfl, fun id hid => ?_⟩
    cases hid

/-- A write that stores nothing fails, and changes nothing that is read. -/
theorem Sized.write_nothing (h : pages.Sized) (page : Page) :
    (pages.write (.cut 0) page).1 ≠ .ok () ∧
      ∀ id, ((pages.write (.cut 0) page).2.read id).1 = (pages.read id).1 := by
  by_cases hrefused : pages.pageCount ≤ page.id.toNat ∨ ∃ cause, page.toBytes = .error cause
  · rw [write_refused _ hrefused]
    exact ⟨refused_not_written _ hrefused, fun _ => rfl⟩
  · obtain ⟨hid, hencoded⟩ := not_or.mp hrefused
    cases himage : page.toBytes with
    | error cause => exact absurd ⟨cause, himage⟩ hencoded
    | ok image =>
        obtain ⟨hallocated, hoffset, hinside⟩ := h.place (Nat.lt_of_not_le hid)
        set file := pages.file.seek (page.id.toNat * pageSize) with hfile
        have hwrite : pages.write (.cut 0) page =
            (.error .io, { pages with file := file.store [] }) := by
          simp only [PageManager.write, hallocated, himage, hoffset, ← hfile, File.writeAll,
            File.stored, Nat.zero_min, List.take_zero, reduceCtorEq, false_and, if_false]
        have hbytes : (file.store []).bytes = pages.file.bytes := by
          have hcursor : file.cursor + ([] : Bytes).length ≤ file.bytes.length := by
            rw [List.length_nil, Nat.add_zero]
            exact (Nat.le_add_right _ _).trans hinside
          rw [File.store_inside hcursor]
          simp [splice, hfile, File.seek]
        rw [hwrite]
        exact ⟨by simp, (h.of_bytes { pages with file := file.store [] } hbytes rfl).2⟩

end NovaBase.Storage.PageManager
