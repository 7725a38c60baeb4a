import NovaBase.Nbf.Canonical
import NovaBase.Server.Protocol

/-!
# The wire codecs are inverses

A reader accepts exactly the frames that a writer makes, and takes nothing that
follows them. A token length that stands for no token is never the length of a
token, because a payload has to fit into the same 32 bits.
-/

namespace NovaBase.Server

open Lib Lib.Bytes Nbf

/-- A frame with a given checksum field. -/
def frame (magic : Bytes) (status : UInt8) (requestId : UInt64) (payload : Bytes) (checksum : Nat) :
    Bytes :=
  magic ++ (toBigEndian 2 version ++ ([status, 0] ++ (toBigEndian 8 requestId.toNat ++
    (toBigEndian 4 payload.length ++ (toBigEndian 4 checksum ++ payload)))))

/-- The checksum that belongs to a frame. -/
def frameChecksum (magic : Bytes) (status : UInt8) (requestId : UInt64) (payload : Bytes) : Nat :=
  (crc32 (frame magic status requestId payload 0)).toNat

/-- The frame that is written. -/
def sealedFrame (magic : Bytes) (status : UInt8) (requestId : UInt64) (payload : Bytes) : Bytes :=
  frame magic status requestId payload (frameChecksum magic status requestId payload)

section Frames

variable {magic payload rest reader : Bytes} {status : UInt8} {requestId : UInt64}
  {checksum maximum : Nat}

theorem length_frame (hmagic : magic.length = 4) :
    (frame magic status requestId payload checksum).length = headerSize + payload.length := by
  simp [frame, hmagic, headerSize]
  omega

theorem drop_frame (hmagic : magic.length = 4) :
    (frame magic status requestId payload checksum).drop headerSize = payload := by
  have hsplit : frame magic status requestId payload checksum = (magic ++ (toBigEndian 2 version ++
      ([status, 0] ++ (toBigEndian 8 requestId.toNat ++ (toBigEndian 4 payload.length ++
        toBigEndian 4 checksum))))) ++ payload := by
    simp only [frame, List.append_assoc]
  rw [hsplit]
  exact List.drop_left' (by simp [hmagic, headerSize])

/-- Writing the checksum changes the checksum field only. -/
theorem splice_frame (hmagic : magic.length = 4) :
    splice (frame magic status requestId payload 0) checksumOffset (toBigEndian 4 checksum) =
      frame magic status requestId payload checksum := by
  have hmiddle : splice ((magic ++ (toBigEndian 2 version ++ ([status, 0] ++
      (toBigEndian 8 requestId.toNat ++ toBigEndian 4 payload.length)))) ++ (toBigEndian 4 0 ++
        payload)) checksumOffset (toBigEndian 4 checksum) = _ :=
    splice_middle _ _ _ _ (by simp [checksumOffset, hmagic]) (by simp)
  simpa only [frame, List.append_assoc] using hmiddle

/-- The checksum of a frame does not depend on its checksum field. -/
theorem crc32_frame (hmagic : magic.length = 4) :
    (crc32 (frame magic status requestId payload checksum)).toNat =
      frameChecksum magic status requestId payload := by
  rw [frameChecksum, ← splice_frame hmagic]
  refine congrArg BitVec.toNat (congrArg (fun message => ~~~Checksum.register _ _ message) ?_)
  apply Checksum.mask_splice
  · simp
  · rw [length_frame hmagic, headerSize, checksumOffset]
    omega

theorem encodeFrame_eq_ok (hmagic : magic.length = 4) {bytes : Bytes} :
    encodeFrame magic status requestId payload = .ok bytes ↔
      payload.length ≤ u32Max ∧ bytes = sealedFrame magic status requestId payload := by
  have hsplice : splice (frame magic status requestId payload 0) checksumOffset
      (toBigEndian 4 (crc32 (frame magic status requestId payload 0)).toNat) =
        sealedFrame magic status requestId payload := splice_frame hmagic
  rw [frame] at hsplice
  simp only [encodeFrame, bind_eq_ok, require_eq_ok, pure_eq_ok, Except.ok.injEq, hsplice]
  constructor
  · rintro ⟨-, hshort, rfl⟩
    exact ⟨hshort, rfl⟩
  · rintro ⟨hshort, rfl⟩
    exact ⟨(), hshort, rfl⟩

/-- The header fields of a frame, as the reader sees them. -/
theorem slice_frame (hmagic : magic.length = 4) (status : UInt8) (requestId : UInt64)
    (payload : Bytes) (checksum : Nat) :
    let header := (frame magic status requestId payload checksum).take headerSize
    slice header 0 4 = magic ∧ slice header 4 6 = toBigEndian 2 version ∧
      slice header 6 8 = [status, 0] ∧ slice header 8 16 = toBigEndian 8 requestId.toNat ∧
      slice header 16 20 = toBigEndian 4 payload.length ∧
      slice header 20 24 = toBigEndian 4 checksum := by
  dsimp only
  rw [slice_take _ (by decide), slice_take _ (by decide), slice_take _ (by decide),
    slice_take _ (by decide), slice_take _ (by decide), slice_take _ (by decide)]
  simp only [frame]
  refine ⟨?_, ?_, ?_, ?_, ?_, ?_⟩ <;>
    simp (disch := simp [hmagic]) only [slice_append_right, slice_append_left, slice_self,
      length_toBigEndian, hmagic, Nat.reduceSub, Nat.sub_self, List.length_cons, List.length_nil,
      Nat.reduceAdd]

/-- A byte of a buffer is a byte of a slice that covers it. -/
theorem getElem?_of_slice {bytes part : Bytes} {start stop : Nat}
    (h : slice bytes start stop = part)
    {i : Nat} (hi : start + i < stop) : bytes[start + i]? = part[i]? := by
  rw [← h, getElem?_slice, if_pos hi]

/-- Taking the bytes of the first of two parts, and what is left. -/
theorem readExact_append {first : Bytes} {length : Nat} (hlength : first.length = length)
    (rest : Bytes) : readExact length (first ++ rest) = .ok (first, rest) := by
  have hfits : length ≤ (first ++ rest).length := by
    rw [List.length_append]
    omega
  rw [readExact, require_of _ hfits, ok_bind, List.take_left' hlength, List.drop_left' hlength]
  rfl

theorem readExact_eq_ok {length : Nat} {part : Bytes} :
    readExact length reader = .ok (part, rest) ↔ reader = part ++ rest ∧ part.length = length := by
  constructor
  · intro h
    simp only [readExact, bind_eq_ok, require_eq_ok, pure_eq_ok, Except.ok.injEq,
      Prod.mk.injEq] at h
    obtain ⟨-, hfits, rfl, rfl⟩ := h
    exact ⟨(List.take_append_drop length reader).symm, by simpa using hfits⟩
  · rintro ⟨rfl, hlength⟩
    exact readExact_append hlength rest

/-- A sealed frame is read, whatever follows it, by a reader whose limit it meets. -/
theorem readFrame_sealedFrame (hmagic : magic.length = 4) (hshort : payload.length ≤ u32Max)
    (hmaximum : payload.length ≤ maximum) (rest : Bytes) :
    readFrame magic maximum (sealedFrame magic status requestId payload ++ rest) =
      .ok ((status, requestId, payload), rest) := by
  have hlen : (sealedFrame magic status requestId payload).length =
      headerSize + payload.length := length_frame hmagic
  have hcrc : (crc32 (sealedFrame magic status requestId payload)).toNat =
      frameChecksum magic status requestId payload := crc32_frame hmagic
  obtain ⟨h0, h4, h6, h8, h16, h20⟩ := slice_frame hmagic status requestId payload
    (frameChecksum magic status requestId payload)
  have hpayload : (sealedFrame magic status requestId payload).drop headerSize = payload :=
    drop_frame hmagic
  rw [← sealedFrame] at h0 h4 h6 h8 h16 h20
  generalize sealedFrame magic status requestId payload = bytes at *
  set header := bytes.take headerSize with hheader
  have hwhole : header ++ payload = bytes := by
    rw [hheader, ← hpayload, List.take_append_drop]
  have hreads : readExact headerSize (bytes ++ rest) = .ok (header, payload ++ rest) := by
    rw [← hwhole, List.append_assoc]
    apply readExact_append
    rw [hheader, List.length_take]
    omega
  have hstatus : header[6]? = some status := getElem?_of_slice h6 (by decide : 6 + 0 < 8)
  have hreserved : header[7]? = some 0 := getElem?_of_slice h6 (by decide : 6 + 1 < 8)
  have hversion : fromBigEndian (toBigEndian 2 version) = version :=
    fromBigEndian_toBigEndian (by decide)
  have hid : fromBigEndian (toBigEndian 8 requestId.toNat) = requestId.toNat :=
    fromBigEndian_toBigEndian requestId.toNat_lt
  have hlength : fromBigEndian (toBigEndian 4 payload.length) = payload.length :=
    fromBigEndian_toBigEndian (by simp only [u32Max] at hshort; omega)
  have hstored : fromBigEndian (toBigEndian 4 (crc32 bytes).toNat) = (crc32 bytes).toNat :=
    fromBigEndian_toBigEndian (crc32 bytes).isLt
  rw [hcrc] at hstored
  rw [readFrame, hreads, ok_bind]
  simp only [h0, h4, h8, h16, h20, hversion, hid, hlength, hstored, hstatus, hreserved,
    Option.getD_some, require_of _ trivial, ok_bind, UInt64.ofNat_toNat]
  rw [require_of _ hmaximum, ok_bind, readExact_append rfl, ok_bind, hwhole,
    require_of _ hcrc.symm, ok_bind]
  rfl

/-- A field of a header, as its number is written. -/
theorem slice_word {header : Bytes} (hlen : header.length = headerSize) {start stop width : Nat}
    (hwidth : start + width = stop) (hstop : stop ≤ headerSize) :
    slice header start stop = toBigEndian width (fromBigEndian (slice header start stop)) := by
  have hlength : (slice header start stop).length = width := by
    rw [length_slice]
    omega
  rw [← hlength, toBigEndian_fromBigEndian]

/-- The status byte and the reserved one. -/
theorem slice_status {header : Bytes} (hlen : header.length = headerSize)
    (hreserved : header[7]?.getD 0 = 0) : slice header 6 8 = [header[6]?.getD 0, 0] := by
  obtain ⟨first, hfirst⟩ : ∃ byte, header[6]? = some byte :=
    ⟨_, List.getElem?_eq_getElem (hlen ▸ by decide)⟩
  obtain ⟨second, hsecond⟩ : ∃ byte, header[7]? = some byte :=
    ⟨_, List.getElem?_eq_getElem (hlen ▸ by decide)⟩
  obtain rfl : second = 0 := by simpa [hsecond] using hreserved
  apply List.ext_getElem?
  intro i
  rw [getElem?_slice]
  rcases i with - | - | i
  · simp [hfirst]
  · simpa using hsecond
  · rw [if_neg (by omega)]
    rfl

/-- A header whose fields have been checked, and its payload, are a frame. -/
theorem frame_of_fields {header part : Bytes} (hlen : header.length = headerSize)
    (hstart : slice header 0 4 = magic) (hversion : fromBigEndian (slice header 4 6) = version)
    (hreserved : header[7]?.getD 0 = 0) (hcount : part.length = fromBigEndian (slice header 16 20))
    (hstored : fromBigEndian (slice header 20 24) = checksum) :
    header ++ part = frame magic (header[6]?.getD 0)
      (UInt64.ofNat (fromBigEndian (slice header 8 16))) part checksum := by
  have hsmall : fromBigEndian (slice header 8 16) < 2 ^ 64 := by
    have hlt := fromBigEndian_lt (slice header 8 16)
    rw [length_slice, hlen] at hlt
    exact hlt
  have hid : (UInt64.ofNat (fromBigEndian (slice header 8 16))).toNat =
      fromBigEndian (slice header 8 16) := by
    rw [UInt64.toNat_ofNat', Nat.mod_eq_of_lt hsmall]
  have hheader : header = magic ++ (toBigEndian 2 version ++ ([header[6]?.getD 0, 0] ++
      (toBigEndian 8 (fromBigEndian (slice header 8 16)) ++ (toBigEndian 4 part.length ++
        toBigEndian 4 checksum)))) := by
    rw [← hstart, ← hversion, ← slice_status hlen hreserved, hcount, ← hstored,
      ← slice_word hlen (by decide : 4 + 2 = 6) (by decide),
      ← slice_word hlen (by decide : 8 + 8 = 16) (by decide),
      ← slice_word hlen (by decide : 16 + 4 = 20) (by decide),
      ← slice_word hlen (by decide : 20 + 4 = 24) (by decide),
      slice_append_slice header (by decide) (by decide),
      slice_append_slice header (by decide) (by decide),
      slice_append_slice header (by decide) (by decide),
      slice_append_slice header (by decide) (by decide),
      slice_append_slice header (by decide) (by decide)]
    exact (slice_self hlen.le).symm
  rw [frame, hid]
  conv_lhs => rw [hheader]
  simp only [List.append_assoc]

/-- What a reader accepts as a frame is a sealed frame that meets its limit. -/
theorem readFrame_eq_ok (hmagic : magic.length = 4) :
    readFrame magic maximum reader = .ok ((status, requestId, payload), rest) ↔
      reader = sealedFrame magic status requestId payload ++ rest ∧ payload.length ≤ u32Max ∧
        payload.length ≤ maximum := by
  constructor
  · intro h
    simp only [readFrame, bind_eq_ok, require_eq_ok, pure_eq_ok, Except.ok.injEq,
      Prod.mk.injEq] at h
    obtain ⟨⟨header, after⟩, hheader, -, h0, -, h4, -, hreserved, -, hlimit, ⟨part, last⟩, hpart, -,
      hstored, ⟨rfl, rfl, rfl⟩, rfl⟩ := h
    obtain ⟨rfl, hlen⟩ := readExact_eq_ok.mp hheader
    obtain ⟨rfl, hcount⟩ := readExact_eq_ok.mp hpart
    dsimp only at hlimit hstored hcount h0 h4 hreserved
    have hframe := frame_of_fields hlen h0 h4 hreserved hcount hstored
    have hcrc : (crc32 (header ++ part)).toNat = frameChecksum magic (header[6]?.getD 0)
        (UInt64.ofNat (fromBigEndian (slice header 8 16))) part :=
      (congrArg (fun bytes => (crc32 bytes).toNat) hframe).trans (crc32_frame hmagic)
    rw [hcrc, ← sealedFrame] at hframe
    have hshort : part.length ≤ u32Max := by
      have hlt := fromBigEndian_lt (slice header 16 20)
      rw [length_slice, hlen, ← hcount] at hlt
      exact Nat.le_pred_of_lt hlt
    exact ⟨by rw [← hframe, List.append_assoc], hshort, hcount ▸ hlimit⟩
  · rintro ⟨rfl, hshort, hmaximum⟩
    exact readFrame_sealedFrame hmagic hshort hmaximum rest

end Frames

/-- A token comes back from its envelope unless its length stands for no token. -/
theorem readToken_encodeToken {token : Option String} {bytes : Bytes} (query : Bytes)
    (h : encodeToken token = .ok bytes)
    (hlength : ∀ text, token = some text → (utf8 text).length < u32Max) :
    readToken (bytes ++ query) = .ok (token, query) := by
  cases token with
  | none =>
      obtain rfl : toBigEndian 4 u32Max = bytes := by simpa [encodeToken] using h
      have hread : slice (toBigEndian 4 u32Max ++ query) 0 4 = toBigEndian 4 u32Max := by
        rw [slice_append_left _ (by simp), slice_self (by simp)]
      have hvalue : fromBigEndian (toBigEndian 4 u32Max) = u32Max :=
        fromBigEndian_toBigEndian (by decide)
      rw [readToken, require_of _ (by simp), ok_bind]
      simp only [hread, hvalue, if_true, List.drop_left' (length_toBigEndian 4 u32Max)]
      rfl
  | some text =>
      have hshort := hlength text rfl
      simp only [encodeToken, bind_eq_ok, require_eq_ok, pure_eq_ok, Except.ok.injEq] at h
      obtain ⟨-, -, rfl⟩ := h
      have hread : slice (toBigEndian 4 (utf8 text).length ++ utf8 text ++ query) 0 4 =
          toBigEndian 4 (utf8 text).length := by
        rw [List.append_assoc, slice_append_left _ (by simp), slice_self (by simp)]
      have hvalue : fromBigEndian (toBigEndian 4 (utf8 text).length) = (utf8 text).length :=
        fromBigEndian_toBigEndian (by simp only [u32Max] at hshort; omega)
      have htoken : slice (toBigEndian 4 (utf8 text).length ++ utf8 text ++ query) 4
          (4 + (utf8 text).length) = utf8 text := by
        rw [List.append_assoc]
        exact slice_middle _ _ _ (by simp) (by simp)
      have hrest : (toBigEndian 4 (utf8 text).length ++ utf8 text ++ query).drop
          (4 + (utf8 text).length) = query := List.drop_left' (by simp)
      rw [readToken, require_of _ (by simp), ok_bind]
      simp only [hread, hvalue, if_neg hshort.ne, htoken, hrest, fromUTF8_utf8]
      rw [require_of _ (by simp), ok_bind]
      rfl

/-- An envelope that is read is the one of its token. -/
theorem readToken_eq_ok {token : Option String} {payload query : Bytes}
    (h : readToken payload = .ok (token, query)) :
    ∃ bytes, encodeToken token = .ok bytes ∧ payload = bytes ++ query := by
  simp only [readToken, bind_eq_ok, require_eq_ok] at h
  obtain ⟨-, hlong, h⟩ := h
  have hlength : (slice payload 0 4).length = 4 := by
    rw [length_slice]
    omega
  have hfield : toBigEndian 4 (fromBigEndian (slice payload 0 4)) = slice payload 0 4 := by
    conv_rhs => rw [← toBigEndian_fromBigEndian (slice payload 0 4), hlength]
  split at h
  · rename_i hnone
    obtain ⟨rfl, rfl⟩ := Prod.mk.inj (Except.ok.inj h)
    refine ⟨toBigEndian 4 u32Max, rfl, ?_⟩
    rw [← hnone, hfield, slice_zero, List.take_append_drop]
  · simp only [bind_eq_ok, require_eq_ok] at h
    obtain ⟨-, hend, h⟩ := h
    split at h
    · rename_i text hdecoded
      obtain ⟨rfl, rfl⟩ := Prod.mk.inj (Except.ok.inj h)
      have htext := utf8_of_fromUTF8 hdecoded
      have hcount : (utf8 text).length = fromBigEndian (slice payload 0 4) := by
        rw [htext, length_slice]
        omega
      have hsmall := fromBigEndian_lt (slice payload 0 4)
      rw [hlength] at hsmall
      refine ⟨toBigEndian 4 (utf8 text).length ++ utf8 text, ?_, ?_⟩
      · rw [encodeToken, require_of _ (by rw [hcount]; exact Nat.le_pred_of_lt hsmall), ok_bind]
        rfl
      · rw [hcount, hfield, htext, slice_append_slice payload (by omega) (by omega), slice_zero,
          List.take_append_drop]
    · cases h

theorem encodeRequest_eq_ok {request : Request} {bytes : Bytes} :
    encodeRequest request = .ok bytes ↔ ∃ token, encodeToken request.authToken = .ok token ∧
      (token ++ utf8 request.query).length ≤ u32Max ∧
      bytes = sealedFrame requestMagic 0 request.requestId (token ++ utf8 request.query) := by
  simp only [encodeRequest, bind_eq_ok, encodeFrame_eq_ok (show requestMagic.length = 4 from rfl)]

/-- A request is read from its frame, and what follows the frame is left. -/
theorem readRequest_encodeRequest {request : Request} {bytes : Bytes} {maximum : Nat}
    (h : encodeRequest request = .ok bytes) (hmaximum : bytes.length ≤ headerSize + maximum)
    (rest : Bytes) : readRequest maximum (bytes ++ rest) = .ok (request, rest) := by
  obtain ⟨token, htoken, hshort, rfl⟩ := encodeRequest_eq_ok.mp h
  have hmagic : requestMagic.length = 4 := rfl
  have hframe : readFrame requestMagic maximum (sealedFrame requestMagic 0 request.requestId
      (token ++ utf8 request.query) ++ rest) =
        .ok ((0, request.requestId, token ++ utf8 request.query), rest) := by
    apply readFrame_sealedFrame hmagic hshort
    have hlength : (sealedFrame requestMagic 0 request.requestId
        (token ++ utf8 request.query)).length = _ := length_frame hmagic
    omega
  have hread : readToken (token ++ utf8 request.query) =
      .ok (request.authToken, utf8 request.query) := by
    apply readToken_encodeToken _ htoken
    intro text htext
    rw [htext] at htoken
    simp only [encodeToken, bind_eq_ok, require_eq_ok, pure_eq_ok, Except.ok.injEq] at htoken
    obtain ⟨-, -, rfl⟩ := htoken
    simp only [List.length_append, length_toBigEndian] at hshort
    omega
  rw [readRequest, hframe, ok_bind]
  dsimp only
  rw [require_of _ rfl, ok_bind, hread, ok_bind]
  dsimp only
  rw [fromUTF8_utf8]
  rfl

/-- What is read as a request is the frame of that request. -/
theorem readRequest_eq_ok {request : Request} {reader rest : Bytes} {maximum : Nat}
    (h : readRequest maximum reader = .ok (request, rest)) :
    ∃ consumed, reader = consumed ++ rest ∧ encodeRequest request = .ok consumed := by
  simp only [readRequest, bind_eq_ok, require_eq_ok] at h
  obtain ⟨⟨⟨status, requestId, payload⟩, after⟩, hframe, -, hstatus, ⟨token, query⟩, htoken, h⟩ := h
  dsimp only at hstatus htoken h
  obtain ⟨hreader, hshort, -⟩ := (readFrame_eq_ok rfl).mp hframe
  obtain ⟨bytes, hbytes, hpayload⟩ := readToken_eq_ok htoken
  split at h
  · rename_i text htext
    obtain ⟨rfl, rfl⟩ := Prod.mk.inj (Except.ok.inj h)
    rw [← utf8_of_fromUTF8 htext] at hpayload
    rw [hpayload] at hreader hshort
    rw [hstatus] at hreader
    exact ⟨_, hreader, encodeRequest_eq_ok.mpr ⟨bytes, hbytes, hshort, rfl⟩⟩
  · cases h

/-- The status byte and the text say which outcome a response has. -/
theorem readOutcome_eq_ok {status : UInt8} {text : String}
    {outcome : Except (ErrorCode × String) String} (requestId : UInt64) :
    readOutcome status text = .ok outcome ↔
      (Response.mk requestId outcome).statusAndText = (status, text) := by
  constructor
  · intro h
    unfold readOutcome at h
    split_ifs at h with h0 h1 h2 h3 h4 h5 h6 h7
    all_goals cases h
    all_goals simp_all [Response.statusAndText, ErrorCode.toByte]
  · intro h
    cases outcome with
    | ok value =>
        obtain ⟨rfl, rfl⟩ := Prod.mk.inj h
        rfl
    | error found =>
        obtain ⟨code, message⟩ := found
        obtain ⟨rfl, rfl⟩ := Prod.mk.inj h
        cases code <;> rfl

theorem writeResponse_eq_ok {response : Response} {writer bytes : Bytes} :
    writeResponse response writer = .ok bytes ↔
      (utf8 response.statusAndText.2).length ≤ u32Max ∧
        bytes = writer ++ sealedFrame responseMagic response.statusAndText.1 response.requestId
          (utf8 response.statusAndText.2) := by
  have hmagic : responseMagic.length = 4 := rfl
  simp only [writeResponse, bind_eq_ok, pure_eq_ok, Except.ok.injEq, encodeFrame_eq_ok hmagic]
  constructor
  · rintro ⟨frame, ⟨hshort, rfl⟩, rfl⟩
    exact ⟨hshort, rfl⟩
  · rintro ⟨hshort, rfl⟩
    exact ⟨_, ⟨hshort, rfl⟩, rfl⟩

/-- A response is read from the frame that was written, and what follows the frame is left. -/
theorem readResponse_writeResponse {response : Response} {bytes : Bytes} {maximum : Nat}
    (h : writeResponse response [] = .ok bytes) (hmaximum : bytes.length ≤ headerSize + maximum)
    (rest : Bytes) : readResponse maximum (bytes ++ rest) = .ok (response, rest) := by
  obtain ⟨hshort, rfl⟩ := writeResponse_eq_ok.mp h
  have hmagic : responseMagic.length = 4 := rfl
  have hframe : readFrame responseMagic maximum ([] ++ sealedFrame responseMagic
      response.statusAndText.1 response.requestId (utf8 response.statusAndText.2) ++ rest) =
        .ok ((response.statusAndText.1, response.requestId, utf8 response.statusAndText.2),
          rest) := by
    apply readFrame_sealedFrame hmagic hshort
    have hlength : (sealedFrame responseMagic response.statusAndText.1 response.requestId
        (utf8 response.statusAndText.2)).length = _ := length_frame hmagic
    simp only [List.nil_append] at hmaximum
    omega
  have houtcome : readOutcome response.statusAndText.1 response.statusAndText.2 =
      .ok response.outcome := (readOutcome_eq_ok response.requestId).mpr rfl
  rw [readResponse, hframe, ok_bind]
  dsimp only
  rw [fromUTF8_utf8]
  dsimp only
  rw [houtcome]
  rfl

/-- What is read as a response is the frame of that response. -/
theorem readResponse_eq_ok {response : Response} {reader rest : Bytes} {maximum : Nat}
    (h : readResponse maximum reader = .ok (response, rest)) :
    ∃ consumed, reader = consumed ++ rest ∧ writeResponse response [] = .ok consumed := by
  simp only [readResponse, bind_eq_ok] at h
  obtain ⟨⟨⟨status, requestId, payload⟩, after⟩, hframe, h⟩ := h
  dsimp only at h
  obtain ⟨hreader, hshort, -⟩ := (readFrame_eq_ok rfl).mp hframe
  split at h
  · rename_i text htext
    simp only [bind_eq_ok, pure_eq_ok, Except.ok.injEq, Prod.mk.injEq] at h
    obtain ⟨outcome, houtcome, rfl, rfl⟩ := h
    have hparts := (readOutcome_eq_ok requestId).mp houtcome
    rw [← utf8_of_fromUTF8 htext] at hreader hshort
    refine ⟨_, hreader, writeResponse_eq_ok.mpr ?_⟩
    rw [hparts]
    exact ⟨hshort, rfl⟩
  · cases h

/-- The wire codecs are exact inverses, for requests and for responses: a frame that was written is
read back whatever follows it, with any limit that its payload meets, and what was read is exactly
what writing the result gives. -/
theorem wire_codecs_inverse :
    (∀ request bytes, encodeRequest request = .ok bytes →
      ∀ maximum, bytes.length ≤ headerSize + maximum → ∀ rest,
        readRequest maximum (bytes ++ rest) = .ok (request, rest)) ∧
    (∀ maximum reader request rest, readRequest maximum reader = .ok (request, rest) →
      ∃ consumed, reader = consumed ++ rest ∧ encodeRequest request = .ok consumed) ∧
    (∀ response bytes, writeResponse response [] = .ok bytes →
      ∀ maximum, bytes.length ≤ headerSize + maximum → ∀ rest,
        readResponse maximum (bytes ++ rest) = .ok (response, rest)) ∧
    ∀ maximum reader response rest, readResponse maximum reader = .ok (response, rest) →
      ∃ consumed, reader = consumed ++ rest ∧ writeResponse response [] = .ok consumed := by
  refine ⟨fun request bytes h maximum hmaximum rest => ?_, fun maximum reader request rest h => ?_,
    fun response bytes h maximum hmaximum rest => ?_, fun maximum reader response rest h => ?_⟩
  · exact readRequest_encodeRequest h hmaximum rest
  · exact readRequest_eq_ok h
  · exact readResponse_writeResponse h hmaximum rest
  · exact readResponse_eq_ok h

/-- A request with an empty token is read back from its frame before other bytes, and not as an
anonymous one. -/
theorem wire_codecs_inverse_empty_token : ∃ bytes,
    encodeRequest ⟨7, some "", "students.get {}"⟩ = .ok bytes ∧
      readRequest 100 (bytes ++ [1, 2, 3]) = .ok (⟨7, some "", "students.get {}"⟩, [1, 2, 3]) := by
  set request : Request := ⟨7, some "", "students.get {}"⟩
  have htoken : encodeToken request.authToken = .ok (toBigEndian 4 0) := rfl
  have hlength : (toBigEndian 4 0 ++ utf8 request.query).length = 19 := by decide
  have hshort : (toBigEndian 4 0 ++ utf8 request.query).length ≤ u32Max := by
    rw [hlength]
    decide
  have hencode := encodeRequest_eq_ok.mpr ⟨_, htoken, hshort, rfl⟩
  refine ⟨_, hencode, wire_codecs_inverse.1 _ _ hencode 100 ?_ _⟩
  rw [sealedFrame, length_frame rfl, hlength]
  decide

end NovaBase.Server
