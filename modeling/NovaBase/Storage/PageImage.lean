import NovaBase.Storage.Page

/-!
# The page image and its round trip

`toBytes` writes into a zeroed buffer. Its result is described here as one
concatenation: header, directory, gap, payload. Decoding that concatenation
gives the page back, so an image and its page determine each other in the
direction recovery needs.
-/

namespace NovaBase.Storage.Page

open Lib Lib.Bytes

/-- Directory entries for slots whose payload ends at `payloadStart`. -/
def directory : Nat → List (Option Bytes) → Bytes
  | _, [] => []
  | payloadStart, none :: slots =>
      toBigEndian 2 deletedOffset ++ ([0, 0] ++ directory payloadStart slots)
  | payloadStart, some record :: slots =>
      toBigEndian 2 (payloadStart - record.length) ++ (toBigEndian 2 record.length ++
        directory (payloadStart - record.length) slots)

/-- The payload area: later slots sit at lower offsets. -/
def payload : List (Option Bytes) → Bytes
  | [] => []
  | none :: slots => payload slots
  | some record :: slots => payload slots ++ record

/-- The 32 header bytes with a given checksum field. -/
def header (page : Page) (checksum payloadStart : Nat) : Bytes :=
  pageMagic ++ (toBigEndian 2 pageFormatVersion ++ (toBigEndian 2 pageHeaderSize ++
    (toBigEndian 8 page.id.toNat ++ (toBigEndian 4 checksum ++
      (toBigEndian 2 page.slots.length ++ (toBigEndian 2 page.len ++
        (toBigEndian 2 (pageHeaderSize + page.slots.length * slotSize) ++
          (toBigEndian 2 payloadStart ++ [0, 0, 0, 0]))))))))

/-- Everything after the header. -/
def body (page : Page) : Bytes :=
  directory pageSize page.slots ++
    (List.replicate (pageSize - (pageHeaderSize + page.slots.length * slotSize) -
        (payload page.slots).length) 0 ++ payload page.slots)

@[simp] theorem length_header (page : Page) (checksum payloadStart : Nat) :
    (header page checksum payloadStart).length = pageHeaderSize := by
  simp [header, pageMagic, pageHeaderSize]

@[simp] theorem length_directory (payloadStart : Nat) (slots : List (Option Bytes)) :
    (directory payloadStart slots).length = slots.length * slotSize := by
  induction slots generalizing payloadStart with
  | nil => simp [directory]
  | cons slot slots ih =>
      cases slot <;> simp [directory, ih, slotSize] <;> omega

theorem asU16_eq_ok {value result : Nat} :
    asU16 value = .ok result ↔ value < 65536 ∧ value = result := by
  unfold asU16
  split <;> simp_all

/-- The slot of a deleted record is written over zeroed bytes. -/
theorem splice_deleted {index payloadStart : Nat} {front back : Bytes}
    (hfront : front.length = pageHeaderSize + index * slotSize)
    (hgap : front.length + 4 ≤ payloadStart) :
    splice (front ++ (List.replicate (payloadStart - front.length) 0 ++ back))
        (pageHeaderSize + index * slotSize) (toBigEndian 2 deletedOffset) =
      (front ++ (toBigEndian 2 deletedOffset ++ [0, 0])) ++ (List.replicate (payloadStart -
        (front ++ (toBigEndian 2 deletedOffset ++ [0, 0])).length) 0 ++ back) := by
  have hzeros : List.replicate (payloadStart - front.length - (0 + 2)) (0 : UInt8) =
      [0, 0] ++ List.replicate (payloadStart - (front.length + 4)) 0 := by
    rw [show payloadStart - front.length - (0 + 2) =
      2 + (payloadStart - (front.length + 4)) by omega, List.replicate_add]
    rfl
  rw [splice_zeros front _ _ _ 0 hfront.symm (by simp; omega), length_toBigEndian, hzeros]
  simp

/-- So are a record and its slot. -/
theorem splice_record {index payloadStart : Nat} {front back record : Bytes}
    (hfront : front.length = pageHeaderSize + index * slotSize)
    (hgap : front.length + 4 ≤ payloadStart - record.length)
    (hfit : record.length ≤ payloadStart) :
    splice (splice (splice (front ++ (List.replicate (payloadStart - front.length) 0 ++ back))
        (payloadStart - record.length) record)
        (pageHeaderSize + index * slotSize) (toBigEndian 2 (payloadStart - record.length)))
        (pageHeaderSize + index * slotSize + 2) (toBigEndian 2 record.length) =
      (front ++ (toBigEndian 2 (payloadStart - record.length) ++ toBigEndian 2 record.length)) ++
        (List.replicate (payloadStart - record.length -
          (front ++ (toBigEndian 2 (payloadStart - record.length) ++
            toBigEndian 2 record.length)).length) 0 ++ (record ++ back)) := by
  have hrecord : splice (front ++ (List.replicate (payloadStart - front.length) 0 ++ back))
      (payloadStart - record.length) record = front ++ (List.replicate
        (payloadStart - record.length - front.length) 0 ++ (record ++ back)) := by
    rw [splice_zeros front record back _ (payloadStart - record.length - front.length)
      (by omega) (by omega), show payloadStart - front.length -
        (payloadStart - record.length - front.length + record.length) = 0 by omega]
    simp
  rw [hrecord, splice_zeros front _ _ _ 0 hfront.symm (by simp; omega),
    splice_zeros _ _ _ _ 0 (by simp [hfront]) (by simp; omega)]
  simp [Nat.sub_sub]
  omega

/-- The slot loop fills the directory from the left and the payload area from the right. -/
theorem writeSlots_eq {freeStart index payloadStart last : Nat} {slots : List (Option Bytes)}
    {front back bytes : Bytes} (hfront : front.length = pageHeaderSize + index * slotSize)
    (hback : payloadStart + back.length = pageSize)
    (hfree : freeStart = pageHeaderSize + (index + slots.length) * slotSize)
    (hroom : freeStart ≤ payloadStart)
    (h : writeSlots freeStart slots index
      (front ++ (List.replicate (payloadStart - front.length) 0 ++ back)) payloadStart =
        .ok (bytes, last)) :
    bytes = front ++ (directory payloadStart slots ++
        (List.replicate (last - freeStart) 0 ++ (payload slots ++ back))) ∧
      last + (payload slots).length = payloadStart ∧ freeStart ≤ last := by
  induction slots generalizing index payloadStart front back with
  | nil =>
      simp only [writeSlots, Except.ok.injEq, Prod.mk.injEq] at h
      obtain ⟨rfl, rfl⟩ := h
      have hlen : freeStart = front.length := by simp [hfree, hfront]
      simp [directory, payload, hlen, hlen ▸ hroom]
  | cons slot slots ih =>
      have hgap : front.length + 4 ≤ freeStart := by
        simp only [slotSize, List.length_cons] at hfree hfront
        omega
      cases slot with
      | none =>
          rw [writeSlots, splice_deleted hfront (hgap.trans hroom)] at h
          obtain ⟨hbytes, hlast, hfreeLast⟩ := ih (by simp [hfront, slotSize]; omega) hback
            (by simpa [Nat.add_assoc, Nat.add_comm 1] using hfree) hroom h
          exact ⟨by simpa [directory, payload] using hbytes, by simpa [payload] using hlast,
            hfreeLast⟩
      | some record =>
          simp only [writeSlots, bind_eq_ok, require_eq_ok, asU16_eq_ok] at h
          obtain ⟨-, ⟨hfit, hroom'⟩, start, ⟨-, rfl⟩, size, ⟨-, rfl⟩, h⟩ := h
          rw [splice_record hfront (hgap.trans hroom') hfit] at h
          obtain ⟨hbytes, hlast, hfreeLast⟩ := ih (by simp [hfront, slotSize]; omega)
            (by simp; omega) (by simpa [Nat.add_assoc, Nat.add_comm 1] using hfree) hroom' h
          refine ⟨by simpa [directory, payload] using hbytes, ?_, hfreeLast⟩
          simp only [payload, List.length_append]
          omega

/-- Every header field is written over zeroed bytes of its own. -/
theorem header_splices (page : Page) (payloadStart : Nat) (rest : Bytes) :
    let bytes := splice (List.replicate pageHeaderSize 0 ++ rest) 0 pageMagic
    let bytes := splice bytes 4 (toBigEndian 2 pageFormatVersion)
    let bytes := splice bytes 6 (toBigEndian 2 pageHeaderSize)
    let bytes := splice bytes 8 (toBigEndian 8 page.id.toNat)
    let bytes := splice bytes 20 (toBigEndian 2 page.slots.length)
    let bytes := splice bytes 22 (toBigEndian 2 page.len)
    let bytes := splice bytes 24
      (toBigEndian 2 (pageHeaderSize + page.slots.length * slotSize))
    splice bytes 26 (toBigEndian 2 payloadStart) = header page 0 payloadStart ++ rest := by
  dsimp only
  rw [show List.replicate pageHeaderSize (0 : UInt8) ++ rest =
      [] ++ (List.replicate 32 0 ++ rest) from rfl,
    splice_zeros [] pageMagic rest _ 0 (by simp) (by decide),
    splice_zeros _ _ _ _ 0 (by simp [pageMagic]) (by simp [pageMagic]),
    splice_zeros _ _ _ _ 0 (by simp [pageMagic]) (by simp [pageMagic]),
    splice_zeros _ _ _ _ 0 (by simp [pageMagic]) (by simp [pageMagic]),
    splice_zeros _ _ _ _ 4 (by simp [pageMagic]) (by simp [pageMagic]),
    splice_zeros _ _ _ _ 0 (by simp [pageMagic]) (by simp [pageMagic]),
    splice_zeros _ _ _ _ 0 (by simp [pageMagic]) (by simp [pageMagic]),
    splice_zeros _ _ _ _ 0 (by simp [pageMagic]) (by simp [pageMagic])]
  simp only [header, List.append_assoc, List.nil_append, List.replicate_zero, length_toBigEndian]
  rfl

/-- The checksum field is the only part of the image that the checksum itself changes. -/
theorem checksum_splice (page : Page) (checksum payloadStart : Nat) (rest : Bytes) :
    splice (header page 0 payloadStart ++ rest) checksumStart (toBigEndian 4 checksum) =
      header page checksum payloadStart ++ rest := by
  have hmiddle : splice ((pageMagic ++ (toBigEndian 2 pageFormatVersion ++
      (toBigEndian 2 pageHeaderSize ++ toBigEndian 8 page.id.toNat))) ++ (toBigEndian 4 0 ++
        ((toBigEndian 2 page.slots.length ++ (toBigEndian 2 page.len ++
          (toBigEndian 2 (pageHeaderSize + page.slots.length * slotSize) ++
            (toBigEndian 2 payloadStart ++ [0, 0, 0, 0])))) ++ rest))) checksumStart
              (toBigEndian 4 checksum) = _ :=
    splice_middle _ _ _ _ (by simp [checksumStart, pageMagic]) (by simp)
  simpa only [header, List.append_assoc] using hmiddle

/-- The checksum does not depend on the checksum field. -/
theorem crc32_header (page : Page) (checksum payloadStart : Nat) (rest : Bytes) :
    crc32 (header page checksum payloadStart ++ rest) checksumStart checksumEnd =
      crc32 (header page 0 payloadStart ++ rest) checksumStart checksumEnd := by
  rw [← checksum_splice page checksum]
  exact congrArg (fun message => ~~~Checksum.register _ _ message)
    (Checksum.mask_splice (by simp [checksumStart, checksumEnd])
      (by simp [checksumEnd, pageHeaderSize]; omega))

/-- A page's image is its header, directory, gap and payload. -/
theorem toBytes_eq {page : Page} {bytes : Bytes} (h : page.toBytes = .ok bytes) :
    page.slots.length < 65536 ∧ page.len < 65536 ∧
      ∃ last, last + (payload page.slots).length = pageSize ∧
        pageHeaderSize + page.slots.length * slotSize ≤ last ∧
        bytes = header page (crc32 (header page 0 last ++ body page)
          checksumStart checksumEnd).toNat last ++ body page := by
  simp only [toBytes, bind_eq_ok, require_eq_ok, asU16_eq_ok, pure_eq_ok] at h
  obtain ⟨-, hslots, -, hlen, -, hfree, ⟨image, last⟩, hwrite, -, ⟨-, rfl⟩, -, ⟨-, rfl⟩, -,
    ⟨-, rfl⟩, hbytes⟩ := h
  have hzeros : List.replicate pageSize (0 : UInt8) = List.replicate pageHeaderSize 0 ++
      (List.replicate (pageSize - (List.replicate pageHeaderSize (0 : UInt8)).length) 0 ++ []) := by
    have hheader : pageHeaderSize ≤ pageSize := by decide
    rw [List.append_nil, List.length_replicate, ← List.replicate_add, Nat.add_sub_cancel' hheader]
  rw [hzeros] at hwrite
  obtain ⟨rfl, hlast, hroom⟩ := writeSlots_eq (by simp) (by simp) (by simp) hfree hwrite
  refine ⟨hslots, hlen, last, hlast, hroom, ?_⟩
  have hbody : List.replicate (last - (pageHeaderSize + page.slots.length * slotSize)) (0 : UInt8) =
      List.replicate (pageSize - (pageHeaderSize + page.slots.length * slotSize) -
        (payload page.slots).length) 0 := by
    congr 1
    omega
  rw [List.append_nil, hbody] at hbytes
  rw [Except.ok.injEq] at hbytes
  have hheader := header_splices page last (body page)
  dsimp only [body] at hheader
  rw [hheader, checksum_splice] at hbytes
  exact hbytes.symm

/-- The payload ranges of the live slots, for a payload area ending at `payloadStart`. -/
def payloadRanges : Nat → List (Option Bytes) → List (Nat × Nat)
  | _, [] => []
  | payloadStart, none :: slots => payloadRanges payloadStart slots
  | payloadStart, some record :: slots =>
      (payloadStart - record.length, payloadStart) ::
        payloadRanges (payloadStart - record.length) slots

theorem length_record_le_payload {record : Bytes} {slots : List (Option Bytes)}
    {last payloadStart : Nat}
    (h : last + (payload (some record :: slots)).length = payloadStart) :
    last + (payload slots).length = payloadStart - record.length ∧
      record.length ≤ payloadStart := by
  simp only [payload, List.length_append] at h
  omega

/-- The two fields of a slot, and the slots behind it. -/
theorem slot_fields {bytes front first second others : Bytes} {index : Nat}
    (hfront : front.length = pageHeaderSize + index * slotSize)
    (hbytes : bytes = front ++ (first ++ (second ++ others)))
    (hfirst : first.length = 2) (hsecond : second.length = 2) :
    slice bytes (pageHeaderSize + index * slotSize)
        (pageHeaderSize + index * slotSize + 2) = first ∧
      slice bytes (pageHeaderSize + index * slotSize + 2)
        (pageHeaderSize + index * slotSize + slotSize) = second ∧
      (front ++ (first ++ second)).length = pageHeaderSize + (index + 1) * slotSize ∧
      bytes = (front ++ (first ++ second)) ++ others := by
  refine ⟨?_, ?_, ?_, by rw [hbytes, List.append_assoc, List.append_assoc]⟩
  · rw [hbytes]
    exact slice_middle _ _ _ hfront.symm (by rw [hfront, hfirst])
  · rw [hbytes, ← List.append_assoc front]
    exact slice_middle _ _ _ (by simp [hfront, hfirst])
      (by simp [hfront, hfirst, hsecond, slotSize])
  · simp [hfront, hfirst, hsecond, slotSize]
    omega

/-- The decoder reads back the slots, and finds every range inside the payload area and clear
of the ranges before it. -/
theorem readSlots_eq {bytes front tail : Bytes} {index payloadStart last : Nat}
    {slots : List (Option Bytes)} {ranges : List (Nat × Nat)}
    (hfront : front.length = pageHeaderSize + index * slotSize)
    (hdirectory : bytes = front ++ (directory payloadStart slots ++ tail))
    (hpayload : slice bytes last payloadStart = payload slots)
    (hlast : last + (payload slots).length = payloadStart) (hroom : payloadStart ≤ pageSize)
    (hranges : ∀ range ∈ ranges, payloadStart ≤ range.1) :
    readSlots bytes last slots.length index ranges =
      .ok (ranges ++ payloadRanges payloadStart slots, slots) := by
  induction slots generalizing front index payloadStart ranges with
  | nil => simp [readSlots, payloadRanges]
  | cons slot slots ih =>
      cases slot with
      | none =>
          have hslot : bytes = front ++ (toBigEndian 2 deletedOffset ++
              ([0, 0] ++ (directory payloadStart slots ++ tail))) := by
            simpa [directory] using hdirectory
          obtain ⟨hoffset, hlength, hfront', hdirectory'⟩ :=
            slot_fields hfront hslot (length_toBigEndian 2 _) rfl
          have hrest := ih hfront' hdirectory' hpayload hlast hroom hranges
          have hdeleted : fromBigEndian (toBigEndian 2 deletedOffset) = deletedOffset :=
            fromBigEndian_toBigEndian (by decide)
          have hzero : fromBigEndian [0, 0] = 0 := rfl
          rw [List.length_cons, readSlots]
          simp [hoffset, hlength, hrest, hdeleted, hzero, payloadRanges, require_of]
      | some record =>
          obtain ⟨hlast', hfit⟩ := length_record_le_payload hlast
          have hstart : payloadStart - record.length + record.length = payloadStart := by omega
          have hslot : bytes = front ++ (toBigEndian 2 (payloadStart - record.length) ++
              (toBigEndian 2 record.length ++
                (directory (payloadStart - record.length) slots ++ tail))) := by
            simpa [directory] using hdirectory
          obtain ⟨hoffset, hlength, hfront', hdirectory'⟩ :=
            slot_fields hfront hslot (length_toBigEndian 2 _) (length_toBigEndian 2 _)
          obtain ⟨hrestPayload, hrecord⟩ := slice_eq_append hpayload hlast' (by omega)
          have hranges' : ∀ range ∈ ranges ++ [(payloadStart - record.length, payloadStart)],
              payloadStart - record.length ≤ range.1 := by
            intro range hrange
            rcases List.mem_append.mp hrange with hold | hnew
            · have := hranges range hold
              omega
            · rw [List.mem_singleton.mp hnew]
          have hrest := ih hfront' hdirectory' hrestPayload hlast' (by omega) hranges'
          simp only [pageSize] at hroom
          have hoffsetValue : fromBigEndian (toBigEndian 2 (payloadStart - record.length)) =
              payloadStart - record.length := fromBigEndian_toBigEndian (by omega)
          have hlengthValue : fromBigEndian (toBigEndian 2 record.length) = record.length :=
            fromBigEndian_toBigEndian (by omega)
          have hdisjoint : ∀ range ∈ ranges,
              ¬(payloadStart - record.length < range.2 ∧ range.1 < payloadStart) := by
            intro range hrange
            have := hranges range hrange
            omega
          rw [List.length_cons, readSlots]
          simp only [hoffset, hlength, hoffsetValue, hlengthValue, hstart]
          rw [if_neg (by simp only [deletedOffset]; omega),
            require_of _ ⟨by omega, hroom⟩, ok_bind, require_of _ hdisjoint, ok_bind, hrest,
              ok_bind,
            hrecord]
          simp [payloadRanges]

/-- The lowest range starts where the payload area does. -/
theorem min_payloadRanges {last payloadStart : Nat} {slots : List (Option Bytes)}
    (hlast : last + (payload slots).length = payloadStart) :
    ((payloadRanges payloadStart slots).map Prod.fst).min?.getD payloadStart = last := by
  induction slots generalizing payloadStart with
  | nil => simpa [payloadRanges, payload] using hlast.symm
  | cons slot slots ih =>
      cases slot with
      | none => exact ih hlast
      | some record =>
          obtain ⟨hlast', -⟩ := length_record_le_payload hlast
          have hmin := ih hlast'
          simp only [payloadRanges, List.map_cons, List.min?_cons]
          cases h : ((payloadRanges (payloadStart - record.length) slots).map Prod.fst).min? with
          | none => simpa [h] using hmin
          | some low =>
              obtain rfl : low = last := by simpa [h] using hmin
              simp
              omega

/-- The ranges fill the payload area. -/
theorem sum_payloadRanges {last payloadStart : Nat} {slots : List (Option Bytes)}
    (hlast : last + (payload slots).length = payloadStart) :
    ((payloadRanges payloadStart slots).map fun range => range.2 - range.1).sum =
      (payload slots).length := by
  induction slots generalizing payloadStart with
  | nil => rfl
  | cons slot slots ih =>
      cases slot with
      | none => exact ih hlast
      | some record =>
          obtain ⟨hlast', hfit⟩ := length_record_le_payload hlast
          simp only [payloadRanges, List.map_cons, List.sum_cons, ih hlast', payload,
            List.length_append]
          omega

theorem length_body {page : Page} {last : Nat}
    (hlast : last + (payload page.slots).length = pageSize)
    (hroom : pageHeaderSize + page.slots.length * slotSize ≤ last) :
    (body page).length = pageSize - pageHeaderSize := by
  simp only [body, List.length_append, length_directory, List.length_replicate]
  omega

/-- Every encoded page fills the fixed page size. -/
theorem length_toBytes {page : Page} {bytes : Bytes} (h : page.toBytes = .ok bytes) :
    bytes.length = pageSize := by
  obtain ⟨-, -, last, hlast, hroom, rfl⟩ := toBytes_eq h
  rw [List.length_append, length_header, length_body hlast hroom]
  rfl

/-- The header fields, as the decoder reads them. -/
theorem slice_header (page : Page) (checksum payloadStart : Nat) (rest : Bytes) :
    let bytes := header page checksum payloadStart ++ rest
    slice bytes 0 4 = pageMagic ∧ slice bytes 4 6 = toBigEndian 2 pageFormatVersion ∧
      slice bytes 6 8 = toBigEndian 2 pageHeaderSize ∧
      slice bytes 8 16 = toBigEndian 8 page.id.toNat ∧
      slice bytes 16 20 = toBigEndian 4 checksum ∧
      slice bytes 20 22 = toBigEndian 2 page.slots.length ∧
      slice bytes 22 24 = toBigEndian 2 page.len ∧
      slice bytes 24 26 = toBigEndian 2 (pageHeaderSize + page.slots.length * slotSize) ∧
      slice bytes 26 28 = toBigEndian 2 payloadStart ∧ slice bytes 28 32 = [0, 0, 0, 0] := by
  have hmagic : pageMagic.length = 4 := rfl
  simp only [header, List.append_assoc]
  refine ⟨?_, ?_, ?_, ?_, ?_, ?_, ?_, ?_, ?_, ?_⟩ <;>
    simp (disch := simp [hmagic]) only [slice_append_right, slice_append_left, slice_self,
      length_toBigEndian, hmagic, Nat.reduceSub, Nat.sub_self]

/-- Decoding a page's image gives the page back. -/
theorem fromBytes_toBytes {page : Page} {bytes : Bytes} (h : page.toBytes = .ok bytes) :
    fromBytes bytes = .ok page := by
  have hlength := length_toBytes h
  obtain ⟨hslots, hlen, last, hlast, hroom, hbytes⟩ := toBytes_eq h
  have hcrc := crc32_header page (crc32 (header page 0 last ++ body page)
    checksumStart checksumEnd).toNat last (body page)
  rw [← hbytes] at hcrc
  rw [← hcrc] at hbytes
  generalize hchecksum : (crc32 bytes checksumStart checksumEnd).toNat = checksum at hbytes
  have hsmall : checksum < 256 ^ 4 := hchecksum ▸ (crc32 bytes checksumStart checksumEnd).isLt
  obtain ⟨hmagic, hversion, hsize, hid, hstored, hcount, hlive, hfreeStart, hfreeEnd, hreserved⟩ :=
    slice_header page checksum last (body page)
  rw [← hbytes] at hmagic hversion hsize hid hstored hcount hlive hfreeStart hfreeEnd hreserved
  have hpayload : slice bytes last pageSize = payload page.slots := by
    have hshape : bytes = (header page checksum last ++ (directory pageSize page.slots ++
        List.replicate (pageSize - (pageHeaderSize + page.slots.length * slotSize) -
          (payload page.slots).length) 0)) ++ (payload page.slots ++ []) := by
      rw [hbytes]
      simp [body]
    rw [hshape]
    exact slice_middle _ _ _ (by simp; omega) (by simp; omega)
  have hread : readSlots bytes last page.slots.length 0 [] =
      .ok ([] ++ payloadRanges pageSize page.slots, page.slots) :=
    readSlots_eq (by rw [length_header, Nat.zero_mul, Nat.add_zero]) hbytes hpayload hlast le_rfl
      (by simp)
  have hpageSize : pageSize = 4096 := rfl
  have hversionValue : fromBigEndian (toBigEndian 2 pageFormatVersion) = pageFormatVersion :=
    fromBigEndian_toBigEndian (by decide)
  have hsizeValue : fromBigEndian (toBigEndian 2 pageHeaderSize) = pageHeaderSize :=
    fromBigEndian_toBigEndian (by decide)
  have hidValue : fromBigEndian (toBigEndian 8 page.id.toNat) = page.id.toNat :=
    fromBigEndian_toBigEndian page.id.toNat_lt
  have hcountValue : fromBigEndian (toBigEndian 2 page.slots.length) = page.slots.length :=
    fromBigEndian_toBigEndian hslots
  have hliveValue : fromBigEndian (toBigEndian 2 page.len) = page.len :=
    fromBigEndian_toBigEndian hlen
  have hfreeStartValue := fromBigEndian_toBigEndian (show pageHeaderSize +
    page.slots.length * slotSize < 256 ^ 2 by omega)
  have hfreeEndValue := fromBigEndian_toBigEndian (show last < 256 ^ 2 by omega)
  simp only [fromBytes, bind_eq_ok, require_eq_ok, pure_eq_ok, hmagic, hversion, hsize, hid,
    checksumStart, checksumEnd, hstored, hcount, hlive, hfreeStart, hfreeEnd, hreserved,
    hversionValue, hsizeValue, hidValue, fromBigEndian_toBigEndian hsmall, hcountValue, hliveValue,
    hfreeStartValue, hfreeEndValue]
  exact ⟨(), hlength, (), trivial, (), trivial, (), trivial, (), hchecksum, (), trivial, (),
    ⟨trivial, hroom, by omega⟩, (payloadRanges pageSize page.slots, page.slots), hread, (), rfl, (),
    min_payloadRanges hlast, (), (by rw [sum_payloadRanges hlast]; omega), by simp⟩

end NovaBase.Storage.Page
