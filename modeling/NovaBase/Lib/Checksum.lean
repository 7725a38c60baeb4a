import NovaBase.Lib.Bytes
import Mathlib.Logic.Function.Iterate
import Mathlib.Data.BitVec

/-!
# Reflected cyclic redundancy checks

A reflected shift register of any width at least eight, over any polynomial
whose top coefficient is set. One step is injective on register states, so two
messages of equal length that differ in a single byte leave different
registers. Fields that the checksum treats as zero are masked before the fold.
-/

namespace NovaBase.Lib.Checksum

variable {w : Nat}

/-- One bit of a reflected register: shift right, and add the polynomial if a one fell out. -/
def shiftStep (poly crc : BitVec w) : BitVec w :=
  (crc >>> 1) ^^^ (poly &&& (0#w - (crc &&& 1#w)))

/-- The register after one message byte. -/
def byteStep (poly crc : BitVec w) (byte : UInt8) : BitVec w :=
  (shiftStep poly)^[8] (crc ^^^ byte.toBitVec.setWidth w)

/-- The register after a whole message. -/
def register (poly crc : BitVec w) (message : Bytes) : BitVec w :=
  message.foldl (byteStep poly) crc

/-- The message with the bytes at positions `start..stop` read as zero. -/
def mask (start stop : Nat) (message : Bytes) : Bytes :=
  message.mapIdx fun index byte => if start ≤ index ∧ index < stop then 0 else byte

/-- The polynomial enters a step exactly when the low bit is set. -/
theorem shiftStep_eq (poly crc : BitVec w) :
    shiftStep poly crc = if crc.getLsbD 0 then (crc >>> 1) ^^^ poly else crc >>> 1 := by
  unfold shiftStep
  rw [BitVec.and_one_eq_setWidth_ofBool_getLsbD]
  cases crc.getLsbD 0 with
  | false => simp
  | true =>
      have hone : (BitVec.ofBool true).setWidth w = 1#w := by
        apply BitVec.eq_of_toNat_eq
        simp
      rw [hone, BitVec.zero_sub, BitVec.neg_one_eq_allOnes, BitVec.and_allOnes]
      simp

theorem msb_shiftStep {poly : BitVec w} (hpoly : poly.msb = true) (crc : BitVec w) :
    (shiftStep poly crc).msb = crc.getLsbD 0 := by
  have hmsb : (crc >>> 1).msb = false := by simp
  rw [shiftStep_eq]
  cases h : crc.getLsbD 0 with
  | false => simp
  | true => simp [BitVec.msb_xor, hmsb, hpoly]

/-- A register state is determined by its successor. -/
theorem shiftStep_injective {poly : BitVec w} (hpoly : poly.msb = true) :
    Function.Injective (shiftStep poly) := by
  intro a b hab
  have hlow : a.getLsbD 0 = b.getLsbD 0 := by
    rw [← msb_shiftStep hpoly a, ← msb_shiftStep hpoly b, hab]
  have hhigh : a >>> 1 = b >>> 1 := by
    rw [shiftStep_eq, shiftStep_eq, ← hlow] at hab
    cases hbit : a.getLsbD 0 with
    | false => simpa [hbit] using hab
    | true => simpa [hbit] using hab
  apply BitVec.eq_of_getLsbD_eq
  intro i _
  cases i with
  | zero => exact hlow
  | succ i =>
      have := congrArg (fun c => c.getLsbD i) hhigh
      simpa [BitVec.getLsbD_ushiftRight, Nat.add_comm] using this

theorem byteStep_injective {poly : BitVec w} (hpoly : poly.msb = true) (byte : UInt8) :
    Function.Injective fun crc => byteStep poly crc byte := by
  intro a b hab
  exact (BitVec.xor_left_inj _).mp (((shiftStep_injective hpoly).iterate 8) hab)

/-- From one state, different bytes lead to different states. -/
theorem byteStep_ne {poly : BitVec w} (hpoly : poly.msb = true) (hw : 8 ≤ w) (crc : BitVec w)
    {a b : UInt8} (hab : a ≠ b) : byteStep poly crc a ≠ byteStep poly crc b := by
  intro h
  have hwide := (BitVec.xor_right_inj _).mp (((shiftStep_injective hpoly).iterate 8) h)
  apply hab
  apply UInt8.toBitVec_inj.mp
  have := congrArg (fun c => c.setWidth 8) hwide
  simpa [BitVec.setWidth_setWidth_of_le _ hw] using this

theorem register_injective {poly : BitVec w} (hpoly : poly.msb = true) (message : Bytes) :
    Function.Injective fun crc => register poly crc message := by
  induction message with
  | nil => exact fun _ _ h => h
  | cons byte message ih => exact fun a b h => byteStep_injective hpoly byte (ih h)

/-- Replacing one byte by a different one changes the register. -/
theorem register_set_ne {poly : BitVec w} (hpoly : poly.msb = true) (hw : 8 ≤ w) (crc : BitVec w)
    {message : Bytes} {i : Nat} {old new : UInt8} (hold : message[i]? = some old)
    (hne : new ≠ old) : register poly crc (message.set i new) ≠ register poly crc message := by
  induction message generalizing crc i with
  | nil => simp at hold
  | cons byte message ih =>
      cases i with
      | zero =>
          obtain rfl : byte = old := by simpa using hold
          intro h
          exact byteStep_ne hpoly hw crc hne (register_injective hpoly message h)
      | succ i => exact ih _ (by simpa using hold)

@[simp] theorem length_mask (start stop : Nat) (message : Bytes) :
    (mask start stop message).length = message.length := by
  simp [mask]

theorem getElem?_mask (start stop : Nat) (message : Bytes) (i : Nat) :
    (mask start stop message)[i]? =
      message[i]?.map fun byte => if start ≤ i ∧ i < stop then 0 else byte := by
  simp [mask]

/-- Bytes inside the masked range do not matter. -/
theorem mask_congr {start stop : Nat} {a b : Bytes} (hlen : a.length = b.length)
    (h : ∀ i, i < start ∨ stop ≤ i → a[i]? = b[i]?) : mask start stop a = mask start stop b := by
  apply List.ext_getElem?
  intro i
  rw [getElem?_mask, getElem?_mask]
  by_cases hi : start ≤ i ∧ i < stop
  · by_cases hlt : i < a.length
    · rw [List.getElem?_eq_getElem hlt, List.getElem?_eq_getElem (hlen ▸ hlt)]
      simp [hi]
    · rw [List.getElem?_eq_none (by omega), List.getElem?_eq_none (by omega)]
  · rw [h i (by omega)]

/-- Writing over exactly the masked range does not matter. -/
theorem mask_splice {start stop : Nat} {bytes data : Bytes} (hstop : start + data.length = stop)
    (hlen : stop ≤ bytes.length) :
    mask start stop (Bytes.splice bytes start data) = mask start stop bytes := by
  have hfront : (bytes.take start).length = start := by
    rw [List.length_take]
    omega
  refine mask_congr (Bytes.length_splice (by omega)) fun i hi => ?_
  rw [Bytes.splice]
  rcases hi with hi | hi
  · rw [List.getElem?_append_left (by omega), List.getElem?_take_of_lt hi]
  · rw [List.getElem?_append_right (by omega), List.getElem?_append_right (by omega),
      List.getElem?_drop]
    congr 1
    omega

/-- A change outside the masked range is a change of the masked message. -/
theorem mask_set {start stop i : Nat} (hi : i < start ∨ stop ≤ i) (message : Bytes)
    (value : UInt8) :
    mask start stop (message.set i value) = (mask start stop message).set i value := by
  apply List.ext_getElem?
  intro j
  rw [getElem?_mask, List.getElem?_set, List.getElem?_set, getElem?_mask, length_mask]
  by_cases hij : i = j
  · subst hij
    by_cases hlt : i < message.length
    · simp [hlt, show ¬(start ≤ i ∧ i < stop) by omega]
    · simp [hlt]
  · simp [hij]

section Sealing

variable (poly initial : BitVec w)

/-- The bytes at `start..stop` hold the checksum of the message, which reads them as zero. -/
def Sealed (start stop : Nat) (message : Bytes) : Prop :=
  Bytes.fromBigEndian (Bytes.slice message start stop) =
    (~~~register poly initial (mask start stop message)).toNat

/-- The bytes from `stop` on hold the checksum of those before. -/
def SealedBehind (stop : Nat) (message : Bytes) : Prop :=
  Bytes.fromBigEndian (message.drop stop) = (~~~register poly initial (message.take stop)).toNat

variable {poly initial} {start stop i : Nat} {message : Bytes} {old new : UInt8}

/-- No change of one byte leaves a sealed message sealed. -/
theorem not_sealed_set (hpoly : poly.msb = true) (hw : 8 ≤ w)
    (h : Sealed poly initial start stop message) (hold : message[i]? = some old) (hne : new ≠ old) :
    ¬ Sealed poly initial start stop (message.set i new) := by
  intro hset
  by_cases hi : start ≤ i ∧ i < stop
  · have hmask : mask start stop (message.set i new) = mask start stop message := by
      refine mask_congr (by simp) fun j hj => ?_
      rw [List.getElem?_set_ne (by omega)]
    have hslice : Bytes.slice (message.set i new) start stop = Bytes.slice message start stop := by
      refine Bytes.fromBigEndian_injective (by simp [Bytes.length_slice]) ?_
      calc
        Bytes.fromBigEndian (Bytes.slice (message.set i new) start stop) = _ := hset
        _ = _ := by rw [hmask]
        _ = Bytes.fromBigEndian (Bytes.slice message start stop) := h.symm
    have hbyte := congrArg (fun bytes => bytes[i - start]?) hslice
    simp only [Bytes.getElem?_slice] at hbyte
    have hlt : i < message.length := (List.getElem?_eq_some_iff.mp hold).1
    rw [if_pos (by omega), if_pos (by omega), show start + (i - start) = i by omega,
      List.getElem?_set_self hlt, hold] at hbyte
    exact hne (Option.some.inj hbyte)
  · have hout : i < start ∨ stop ≤ i := by omega
    have hmasked : (mask start stop message)[i]? = some old := by
      rw [getElem?_mask, hold, Option.map_some, if_neg hi]
    rw [Sealed, Bytes.slice_set_of_not_mem _ _ hout, h, mask_set hout] at hset
    exact register_set_ne hpoly hw initial hmasked hne
      (BitVec.not_inj.mp (BitVec.eq_of_toNat_eq hset)).symm

theorem not_sealedBehind_set (hpoly : poly.msb = true) (hw : 8 ≤ w)
    (h : SealedBehind poly initial stop message) (hold : message[i]? = some old) (hne : new ≠ old) :
    ¬ SealedBehind poly initial stop (message.set i new) := by
  intro hset
  rw [SealedBehind, List.drop_set, List.take_set] at hset
  by_cases hi : i < stop
  · rw [if_pos hi, h] at hset
    have htaken : (message.take stop)[i]? = some old := by
      rw [List.getElem?_take_of_lt hi, hold]
    exact register_set_ne hpoly hw initial htaken hne
      (BitVec.not_inj.mp (BitVec.eq_of_toNat_eq hset)).symm
  · have hbefore : (message.take stop).set i new = message.take stop :=
      List.set_eq_of_length_le (by rw [List.length_take]; omega)
    rw [if_neg hi, hbefore, ← h] at hset
    have hdrop := Bytes.fromBigEndian_injective (by simp) hset
    have hbyte := congrArg (fun bytes => bytes[i - stop]?) hdrop
    have hdropped : (message.drop stop)[i - stop]? = some old := by
      rw [List.getElem?_drop, show stop + (i - stop) = i by omega, hold]
    have hlt := (List.getElem?_eq_some_iff.mp hdropped).1
    simp only [List.getElem?_set_self hlt, hdropped] at hbyte
    exact hne (Option.some.inj hbyte)

end Sealing

end NovaBase.Lib.Checksum
