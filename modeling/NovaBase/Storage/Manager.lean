import NovaBase.Core.File
import NovaBase.Lib.Blocks
import NovaBase.Storage.PageFit

/-!
# The page file

Direct, fixed-size page I/O without caching. A page file is a sequence of page
images; `Holds` names them. Allocation appends an empty page, reading and
writing address pages by their offsets.
-/

namespace NovaBase.Storage

open Lib Lib.Bytes

/-- An open page file. -/
structure PageManager where
  file : File
  pageCount : Nat
  deriving DecidableEq

/-- Where a page begins in the file. -/
def pageOffset (id : PageId) : Result Nat :=
  if id.toNat * pageSize < 2 ^ 64 then .ok (id.toNat * pageSize)
  else .error (.storage "page file offset overflow")

namespace PageManager

/-- Open a page file, checking its alignment. -/
def openFile (file : File) : Result PageManager :=
  let length := file.bytes.length
  if length % pageSize ≠ 0 then
    corruption s!"page file length {length} is not a multiple of {pageSize}"
  else .ok ⟨file, length / pageSize⟩

/-- Append an empty page. -/
def allocate (outcome : WriteOutcome) (pages : PageManager) : Result PageId × PageManager :=
  let id := UInt64.ofNat pages.pageCount
  match (Page.new id).toBytes with
  | .error cause => (.error cause, pages)
  | .ok bytes =>
      match pages.file.seekEnd.writeAll outcome bytes with
      | (.error cause, file) => (.error cause, { pages with file := file })
      | (.ok _, file) =>
          if pages.pageCount + 1 < 2 ^ 64 then (.ok id, ⟨file, pages.pageCount + 1⟩)
          else (.error (.storage "page count overflow"), { pages with file := file })

/-- Refuse a page that has not been allocated. -/
def ensureAllocated (pages : PageManager) (id : PageId) : Result Unit :=
  if pages.pageCount ≤ id.toNat then .error (.notFound s!"page {id.toNat}") else .ok ()

/-- Read and validate one allocated page. -/
def read (id : PageId) (pages : PageManager) : Result Page × PageManager :=
  match pages.ensureAllocated id, pageOffset id with
  | .error cause, _ => (.error cause, pages)
  | .ok _, .error cause => (.error cause, pages)
  | .ok _, .ok offset =>
      let (bytes, file) := (pages.file.seek offset).readExact pageSize
      let page : Result Page := do
        let page ← Page.fromBytes (← bytes)
        require (page.id = id) (NovaError.corruption
          (s!"page {id.toNat} contains header for page {page.id.toNat}"))
        return page
      (page, { pages with file := file })

/-- Write a page back to its place. -/
def write (outcome : WriteOutcome) (page : Page) (pages : PageManager) :
    Result Unit × PageManager :=
  match pages.ensureAllocated page.id, page.toBytes, pageOffset page.id with
  | .error cause, _, _ => (.error cause, pages)
  | .ok _, .error cause, _ => (.error cause, pages)
  | .ok _, .ok _, .error cause => (.error cause, pages)
  | .ok _, .ok bytes, .ok offset =>
      let (result, file) := (pages.file.seek offset).writeAll outcome bytes
      (result, { pages with file := file })

/-- Make everything that was written last. -/
def sync (pages : PageManager) : PageManager := { pages with file := pages.file.syncAll }

end PageManager

/-- The page that a page file holds under an id. -/
def readPage (file : File) (id : PageId) : Result Page := do
  let pages ← PageManager.openFile file
  (pages.read id).1

/-- The image of an empty page. -/
def emptyImage (id : Nat) : Bytes := (Page.new (UInt64.ofNat id)).toBytes.toOption.getD []

theorem emptyImage_eq (id : Nat) : (Page.new (UInt64.ofNat id)).toBytes = .ok (emptyImage id) := by
  obtain ⟨bytes, hbytes⟩ := Page.toBytes_new (UInt64.ofNat id)
  simp [emptyImage, hbytes, Except.toOption]

theorem length_emptyImage (id : Nat) : (emptyImage id).length = pageSize :=
  Page.length_toBytes (emptyImage_eq id)

/-- What a page file of these images reads under an id. -/
def readImage (images : List Bytes) (id : PageId) : Result Page :=
  match images[id.toNat]? with
  | none => .error (.notFound s!"page {id.toNat}")
  | some image => do
      let page ← Page.fromBytes image
      require (page.id = id) (NovaError.corruption
        (s!"page {id.toNat} contains header for page {page.id.toNat}"))
      return page

/-- A page that is read has the id it was read under, and an image. -/
theorem readImage_eq_ok {images : List Bytes} {id : PageId} {page : Page}
    (h : readImage images id = .ok page) :
    page.id = id ∧ page.Fits ∧ id.toNat < images.length := by
  rw [readImage] at h
  split at h
  · simp at h
  · rename_i image himage
    simp only [bind_eq_ok, require_eq_ok, pure_eq_ok, Except.ok.injEq] at h
    obtain ⟨read, hread, -, hid, rfl⟩ := h
    exact ⟨hid, Page.fits_of_fromBytes hread, (List.getElem?_eq_some_iff.mp himage).1⟩

theorem readImage_at {images : List Bytes} {page : Page} {bytes : Bytes}
    (hat : images[page.id.toNat]? = some bytes) (hpage : page.toBytes = .ok bytes) :
    readImage images page.id = .ok page := by
  simp only [readImage, hat, Page.fromBytes_toBytes hpage, ok_bind, require_of _ trivial,
    pure_eq_ok]

/-- A page that is written is read under its id, and the others as before. -/
theorem readImage_set {images : List Bytes} {page : Page} {bytes : Bytes}
    (hpage : page.toBytes = .ok bytes) (hid : page.id.toNat < images.length) (id : PageId) :
    readImage (images.set page.id.toNat bytes) id =
      if id = page.id then .ok page else readImage images id := by
  split
  · rename_i hsame
    subst hsame
    exact readImage_at (List.getElem?_set_self hid) hpage
  · rename_i hother
    have hne : page.id.toNat ≠ id.toNat := fun h => hother (UInt64.toNat_inj.mp h).symm
    rw [readImage, readImage, List.getElem?_set_ne hne]

/-- An appended empty page is read under the next id, and the others as before. -/
theorem readImage_append {images : List Bytes} (hcount : images.length < 2 ^ 64) (id : PageId) :
    readImage (images ++ [emptyImage images.length]) id =
      if id = UInt64.ofNat images.length then .ok (Page.new id) else readImage images id := by
  have hnumber : (UInt64.ofNat images.length).toNat = images.length := by
    rw [UInt64.toNat_ofNat']
    exact Nat.mod_eq_of_lt hcount
  split
  · rename_i hsame
    subst hsame
    have hat : (images ++ [emptyImage images.length])[(UInt64.ofNat images.length).toNat]? =
        some (emptyImage images.length) := by
      rw [hnumber, List.getElem?_concat_length]
    exact readImage_at hat (emptyImage_eq images.length)
  · rename_i hother
    have hne : id.toNat ≠ images.length := fun h =>
      hother (UInt64.toNat_inj.mp (h.trans hnumber.symm))
    rcases Nat.lt_or_ge id.toNat images.length with hlt | hge
    · rw [readImage, readImage, List.getElem?_append_left hlt]
    · have hbeyond : images.length + 1 ≤ id.toNat := by omega
      rw [readImage, readImage, List.getElem?_eq_none hge,
        List.getElem?_eq_none (by simpa using hbeyond)]

namespace PageManager

/-- The open file holds the page images `images`. -/
structure Holds (pages : PageManager) (images : List Bytes) : Prop where
  blocks : Blocks pageSize images pages.file.bytes
  count : pages.pageCount = images.length
  fits : pages.file.bytes.length ≤ maxFileLength

variable {pages : PageManager} {images : List Bytes} {file : File}

theorem Holds.length_eq (h : pages.Holds images) :
    pages.file.bytes.length = pages.pageCount * pageSize := by
  rw [h.blocks.length_eq, h.count]

theorem Holds.count_lt (h : pages.Holds images) : pages.pageCount + 1 < 2 ^ 64 := by
  have hlen := h.length_eq
  have hfits := h.fits
  simp only [maxFileLength, pageSize] at hlen hfits
  omega

theorem holds_openFile (hblocks : Blocks pageSize images file.bytes)
    (hfits : file.bytes.length ≤ maxFileLength) :
    openFile file = .ok ⟨file, images.length⟩ ∧
      (⟨file, images.length⟩ : PageManager).Holds images := by
  have hlen := hblocks.length_eq
  have hpos : 0 < pageSize := by decide
  refine ⟨?_, hblocks, rfl, hfits⟩
  simp only [openFile, hlen, Nat.mul_mod_left, ne_eq, not_true_eq_false, if_false,
    Nat.mul_div_cancel _ hpos]

theorem openFile_misaligned (h : file.bytes.length % pageSize ≠ 0) :
    openFile file =
      corruption s!"page file length {file.bytes.length} is not a multiple of {pageSize}" := by
  simp only [openFile, if_pos h]

/-- Reading changes nothing but the cursor. -/
theorem Holds.read_state (h : pages.Holds images) (id : PageId) :
    (pages.read id).2.Holds images := by
  rw [PageManager.read]
  split
  · exact h
  · exact h
  · exact ⟨(File.readExact_bytes ..).symm ▸ h.blocks, h.count,
      (File.readExact_bytes ..).symm ▸ h.fits⟩

theorem Holds.sync (h : pages.Holds images) : pages.sync.Holds images :=
  ⟨h.blocks, h.count, h.fits⟩

/-- A page that is not allocated, or has no image, is not written. -/
theorem write_refused (outcome : WriteOutcome) {page : Page}
    (h : pages.pageCount ≤ page.id.toNat ∨ ∃ cause, page.toBytes = .error cause) :
    (pages.write outcome page).2 = pages := by
  rw [PageManager.write, ensureAllocated]
  by_cases hid : pages.pageCount ≤ page.id.toNat
  · rw [if_pos hid]
  · obtain ⟨cause, hcause⟩ := h.resolve_left hid
    rw [if_neg hid, hcause]

/-- A page that is written is allocated and has an image. -/
theorem write_ok {outcome : WriteOutcome} {page : Page}
    (h : (pages.write outcome page).1 = .ok ()) :
    page.id.toNat < pages.pageCount ∧ ∃ bytes, page.toBytes = .ok bytes := by
  rw [PageManager.write, ensureAllocated] at h
  by_cases hid : pages.pageCount ≤ page.id.toNat
  · rw [if_pos hid] at h
    cases h
  · rw [if_neg hid] at h
    cases himage : page.toBytes with
    | ok bytes => exact ⟨Nat.lt_of_not_le hid, bytes, rfl⟩
    | error cause =>
        rw [himage] at h
        cases h

/-- A write that is cut fails. -/
theorem write_cut (stored : Nat) (page : Page) : (pages.write (.cut stored) page).1 ≠ .ok () := by
  rw [PageManager.write]
  split
  · exact nofun
  · exact nofun
  · exact nofun
  · simp [File.writeAll]

/-- An allocation adds an empty page or fails on the file. -/
theorem Holds.allocate (h : pages.Holds images) (outcome : WriteOutcome) :
    (∃ next, pages.allocate outcome = (.ok (UInt64.ofNat images.length), next) ∧
      next.Holds (images ++ [emptyImage images.length])) ∨
    ∃ next, pages.allocate outcome = (.error .io, next) ∧
      next.file.bytes.length ≤ maxFileLength ∧
      (outcome = .complete → maxFileLength < (images.length + 1) * pageSize) := by
  have hend : pages.file.seekEnd.cursor = pages.file.seekEnd.bytes.length := rfl
  have hlen := length_emptyImage images.length
  simp only [PageManager.allocate, h.count, emptyImage_eq]
  cases hwrite : pages.file.seekEnd.writeAll outcome (emptyImage images.length) with
  | mk result file =>
      rcases File.writeAll_cases outcome (emptyImage images.length) pages.file.seekEnd with
        ⟨hok, hroom⟩ | ⟨hio, hfull⟩
      · obtain ⟨rfl, rfl⟩ : result = .ok () ∧ file = _ := by simpa [hwrite] using hok
        have hcount := h.count_lt
        rw [h.count] at hcount
        have hbytes : (pages.file.seekEnd.store (emptyImage images.length)).bytes =
            pages.file.bytes ++ emptyImage images.length := File.store_end hend
        refine .inl ⟨⟨pages.file.seekEnd.store (emptyImage images.length), images.length + 1⟩,
          by simp only [if_pos hcount], ?_, by simp, ?_⟩
        · rw [hbytes]
          exact h.blocks.append hlen
        · have hfits : pages.file.bytes.length + (emptyImage images.length).length ≤
              maxFileLength := by
            rcases hroom with hnil | hroom
            · simp [hnil, pageSize] at hlen
            · exact hroom
          rw [hbytes, List.length_append]
          exact hfits
      · obtain rfl : result = .error .io := by simpa [hwrite] using hio
        refine .inr ⟨{ pages with file := file }, by simp [h.count], ?_, fun hcomplete => ?_⟩
        rotate_left
        · have hshort := hfull hcomplete
          rwa [hend, hlen, show pages.file.seekEnd.bytes = pages.file.bytes from rfl,
            h.blocks.length_eq, ← Nat.succ_mul] at hshort
        have hfile := congrArg Prod.snd hwrite
        simp only [File.writeAll] at hfile
        have hstored : (pages.file.seekEnd).bytes.length +
            pages.file.seekEnd.stored outcome (emptyImage images.length) ≤ maxFileLength := by
          have hfits := h.fits
          cases outcome with
          | complete =>
              simp only [File.stored, File.seekEnd, File.seek]
              omega
          | cut stored =>
              simp only [File.stored, File.seekEnd, File.seek]
              omega
        dsimp only
        rw [← hfile, File.store_end hend, List.length_append, List.length_take]
        omega

/-- The place of an allocated page lies inside the file. -/
theorem Holds.place (h : pages.Holds images) {id : PageId} (hid : id.toNat < images.length) :
    pages.ensureAllocated id = .ok () ∧ pageOffset id = .ok (id.toNat * pageSize) ∧
      id.toNat * pageSize + pageSize ≤ pages.file.bytes.length := by
  have hlength := h.blocks.length_eq
  have hfits := h.fits
  have hcount := h.count
  have hpos : 0 < pageSize := by decide
  have hle : (id.toNat + 1) * pageSize ≤ images.length * pageSize := Nat.mul_le_mul_right _ hid
  rw [Nat.succ_mul] at hle
  refine ⟨by rw [ensureAllocated, if_neg (by omega)], ?_, by omega⟩
  rw [pageOffset, if_pos]
  simp only [maxFileLength] at hfits
  omega

/-- Writing an allocated page replaces its image or fails on the file, whose length stays. -/
theorem Holds.write (h : pages.Holds images) (outcome : WriteOutcome) {page : Page}
    {image : Bytes} (himage : page.toBytes = .ok image) (hid : page.id.toNat < images.length) :
    (∃ next, pages.write outcome page = (.ok (), next) ∧
      next.Holds (images.set page.id.toNat image)) ∨
    ∃ next, pages.write outcome page = (.error .io, next) ∧
      next.file.bytes.length = pages.file.bytes.length ∧ outcome ≠ .complete := by
  have hlen := Page.length_toBytes himage
  obtain ⟨hallocated, hoffset, hplace⟩ := h.place hid
  have hinside : (pages.file.seek (page.id.toNat * pageSize)).cursor + image.length ≤
      (pages.file.seek (page.id.toNat * pageSize)).bytes.length := by
    rw [hlen]
    exact hplace
  simp only [PageManager.write, hallocated, himage, hoffset]
  rcases File.writeAll_cases outcome image (pages.file.seek (page.id.toNat * pageSize)) with
    ⟨hok, -⟩ | ⟨hio, hfull⟩
  · have hblocks := h.blocks.splice_block hid hlen
    have hbytes := File.store_inside hinside
    refine .inl ⟨_, by rw [hok], ?_, by simpa using h.count, ?_⟩
    · rw [hbytes]
      exact hblocks
    · rw [hbytes, length_splice hinside]
      exact h.fits
  · refine .inr ⟨_, by rw [← hio], File.length_writeAll_inside hinside, fun hcomplete => ?_⟩
    have hshort := hfull hcomplete
    have hfits := h.fits
    exact absurd (le_trans hinside hfits) (by omega)

/-- Reading decodes the image at that place. -/
theorem Holds.read_eq (h : pages.Holds images) (id : PageId) :
    (pages.read id).1 = readImage images id := by
  rcases Nat.lt_or_ge id.toNat images.length with hlt | hge
  · have himage : images[id.toNat]? = some images[id.toNat] := List.getElem?_eq_getElem hlt
    obtain ⟨hallocated, hoffset, hinside⟩ := h.place hlt
    simp only [PageManager.read, hallocated, hoffset, File.readExact, File.seek, if_pos hinside,
      h.blocks.slice_block himage, ok_bind, readImage, himage]
  · have hrefused : pages.ensureAllocated id = .error (.notFound s!"page {id.toNat}") := by
      rw [ensureAllocated, if_pos (by rw [h.count]; exact hge)]
    simp only [PageManager.read, hrefused, readImage, List.getElem?_eq_none hge]

/-- Reading an allocated page decodes its image. -/
theorem Holds.read (h : pages.Holds images) {id : PageId} {image : Bytes}
    (himage : images[id.toNat]? = some image) {page : Page}
    (hpage : Page.fromBytes image = .ok page) (hid : page.id = id) :
    (pages.read id).1 = .ok page := by
  rw [h.read_eq, readImage, himage]
  simp only [hpage, ok_bind, require_of _ hid, pure_eq_ok]

/-- The open file holds these pages, each at the place of its id. -/
structure HoldsPages (pages : PageManager) (contents : List Page) : Prop where
  holds : pages.Holds (contents.map image)
  fits : ∀ page ∈ contents, page.Fits
  ids : ∀ (i : Nat) (page : Page), contents[i]? = some page → page.id.toNat = i

namespace HoldsPages

variable {contents : List Page}

theorem count (h : pages.HoldsPages contents) : pages.pageCount = contents.length := by
  rw [h.holds.count, List.length_map]

theorem openFile (h : pages.HoldsPages contents) (cursor synced : Nat) :
    ∃ opened, PageManager.openFile { pages.file with cursor := cursor, synced := synced } =
      .ok opened ∧ opened.HoldsPages contents ∧ opened.file.bytes = pages.file.bytes := by
  have hblocks : Blocks pageSize (contents.map image)
      ({ pages.file with cursor := cursor, synced := synced } : File).bytes := h.holds.blocks
  obtain ⟨hopen, hopened⟩ := holds_openFile hblocks h.holds.fits
  exact ⟨_, hopen, ⟨hopened, h.fits, h.ids⟩, rfl⟩

/-- Reading gives the page at that place, and changes nothing but the cursor. -/
theorem read (h : pages.HoldsPages contents) {id : PageId} {page : Page}
    (hpage : contents[id.toNat]? = some page) :
    ∃ next, pages.read id = (.ok page, next) ∧ next.HoldsPages contents ∧
      next.file.bytes = pages.file.bytes := by
  have himage : (contents.map image)[id.toNat]? = some (image page) := by
    rw [List.getElem?_map, hpage]
    rfl
  have hfits := h.fits page (List.mem_of_getElem? hpage)
  have hid : page.id = id := UInt64.toNat_inj.mp (h.ids id.toNat page hpage)
  have hread := h.holds.read himage (Page.fromBytes_toBytes (image_eq hfits)) hid
  refine ⟨(pages.read id).2, by rw [← hread], ⟨h.holds.read_state id, h.fits, h.ids⟩, ?_⟩
  rw [PageManager.read]
  split
  · rfl
  · rfl
  · exact File.readExact_bytes ..

/-- Writing a page puts it at its place. -/
theorem write (h : pages.HoldsPages contents) {page : Page} (hfits : page.Fits)
    (hid : page.id.toNat < contents.length) :
    ∃ next, pages.write .complete page = (.ok (), next) ∧
      next.HoldsPages (contents.set page.id.toNat page) := by
  rcases h.holds.write .complete (image_eq hfits) (by simpa using hid) with
    ⟨next, hwrite, hnext⟩ | ⟨next, -, -, hcut⟩
  · refine ⟨next, hwrite, by simpa using hnext, fun other hother => ?_, fun i other hother => ?_⟩
    · rcases List.mem_or_eq_of_mem_set hother with hold | rfl
      · exact h.fits other hold
      · exact hfits
    · rw [List.getElem?_set] at hother
      split at hother
      · rename_i heq
        exact Option.some.inj hother ▸ heq
      · exact h.ids i other hother
  · exact absurd rfl hcut

/-- Allocating adds an empty page, or finds no room for it. -/
theorem allocate (h : pages.HoldsPages contents) :
    (∃ next, pages.allocate .complete = (.ok (UInt64.ofNat contents.length), next) ∧
      next.HoldsPages (contents ++ [Page.new (UInt64.ofNat contents.length)]) ∧
      (UInt64.ofNat contents.length).toNat = contents.length) ∨
    ∃ next, pages.allocate .complete = (.error .io, next) ∧
      maxFileLength < (contents.length + 1) * pageSize := by
  have hnumber : (UInt64.ofNat contents.length).toNat = contents.length := by
    have hlt := h.holds.count_lt
    rw [h.count] at hlt
    rw [UInt64.toNat_ofNat']
    exact Nat.mod_eq_of_lt (by omega)
  rcases h.holds.allocate .complete with
    ⟨next, hallocate, hnext⟩ | ⟨next, hallocate, -, hfull⟩
  · rw [List.length_map] at hallocate hnext
    refine .inl ⟨next, hallocate, ⟨?_, fun page hpage => ?_, fun i page hpage => ?_⟩, hnumber⟩
    · rw [List.map_append]
      exact hnext
    · rcases List.mem_append.mp hpage with hold | hnew
      · exact h.fits page hold
      · obtain rfl := List.mem_singleton.mp hnew
        exact Page.fits_new _
    · rcases Nat.lt_or_ge i contents.length with hlt | hge
      · rw [List.getElem?_append_left hlt] at hpage
        exact h.ids i page hpage
      · rw [List.getElem?_append_right hge, List.getElem?_singleton,
          Option.ite_none_right_eq_some] at hpage
        obtain ⟨hzero, hnew⟩ := hpage
        obtain rfl := Option.some.inj hnew
        exact hnumber.trans (by omega)
  · rw [List.length_map] at hfull
    exact .inr ⟨next, hallocate, hfull rfl⟩

end HoldsPages

end PageManager

/-- A page file of given images reads back a page from its image. -/
theorem readPage_of_blocks {file : File} {images : List Bytes}
    (hblocks : Blocks pageSize images file.bytes) (hfits : file.bytes.length ≤ maxFileLength)
    {page : Page} {image : Bytes} (himage : images[page.id.toNat]? = some image)
    (hpage : page.toBytes = .ok image) : readPage file page.id = .ok page := by
  obtain ⟨hopen, hholds⟩ := PageManager.holds_openFile hblocks hfits
  rw [readPage, hopen, ok_bind]
  exact hholds.read himage (Page.fromBytes_toBytes hpage) rfl

end NovaBase.Storage
