import NovaBase.Lib.Bytes

/-!
# Logs of framed records

A log is a concatenation of self-delimiting frames. A scanner reads one record
after another and stops quietly at an incomplete frame. What it returns is
described by `Frames`: the records, and the bytes that spell them. The two
properties of a format that the results rest on are collected in `Framing`.
-/

namespace NovaBase.Lib.FramedLog

variable {α ε : Type}

/-- How a format reads the front of some bytes, after `n` earlier records: nothing at an
incomplete frame, otherwise the record and the length of its frame. -/
abbrev Step (α ε : Type) := Nat → Bytes → Except ε (Option (α × Nat))

/-- Read records from `position` on until the bytes or the rounds are used up. -/
def scan (step : Step α ε) (bytes : Bytes) :
    Nat → List α → Nat → Except ε (List α × Nat)
  | 0, records, position => .ok (records, position)
  | rounds + 1, records, position =>
      if bytes.length ≤ position then .ok (records, position)
      else
        match step records.length (bytes.drop position) with
        | .error cause => .error cause
        | .ok none => .ok (records, position)
        | .ok (some (record, total)) =>
            scan step bytes rounds (records ++ [record]) (position + total)

/-- `frame` is read as `record` after `n` records, whatever follows it. -/
def Reads (step : Step α ε) (n : Nat) (record : α) (frame : Bytes) : Prop :=
  frame ≠ [] ∧ ∀ rest, step n (frame ++ rest) = .ok (some (record, frame.length))

/-- `bytes` consists of the frames of `records`, the first of which is record number `n`. -/
inductive Frames (step : Step α ε) : Nat → List α → Bytes → Prop
  | nil (n : Nat) : Frames step n [] []
  | cons {n : Nat} {record : α} {frame : Bytes} {records : List α} {bytes : Bytes}
      (head : Reads step n record frame) (tail : Frames step (n + 1) records bytes) :
      Frames step n (record :: records) (frame ++ bytes)

/-- What a format owes the scanner: a frame is read from its own bytes alone, and every proper
prefix of a frame, or of an incomplete one, is seen to be incomplete. -/
structure Framing (step : Step α ε) : Prop where
  reads : ∀ {n bytes record total}, step n bytes = .ok (some (record, total)) →
    total ≤ bytes.length ∧ Reads step n record (bytes.take total)
  torn : ∀ {n record frame}, Reads step n record frame →
    ∀ k, k < frame.length → step n (frame.take k) = .ok none
  shrinks : ∀ {n tail}, step n tail = .ok none → ∀ k, step n (tail.take k) = .ok none

variable {step : Step α ε}

namespace Frames

theorem length_le {n : Nat} {records : List α} {bytes : Bytes}
    (h : Frames step n records bytes) : records.length ≤ bytes.length := by
  induction h with
  | nil n => exact le_rfl
  | cons head tail ih =>
      have hpos := List.length_pos_iff.mpr head.1
      simp only [List.length_cons, List.length_append]
      omega

theorem append {n : Nat} {first second : List α} {a b : Bytes} (ha : Frames step n first a)
    (hb : Frames step (n + first.length) second b) : Frames step n (first ++ second) (a ++ b) := by
  induction ha with
  | nil n => simpa using hb
  | cons head tail ih =>
      rw [List.append_assoc, List.cons_append]
      refine .cons head (ih ?_)
      simpa only [List.length_cons, Nat.add_assoc, Nat.add_comm 1] using hb

/-- A log of one record. -/
theorem single {n : Nat} {record : α} {frame : Bytes} (h : Reads step n record frame) :
    Frames step n [record] frame := by
  simpa using Frames.cons h (.nil _)

/-- A log splits after any number of its records. -/
theorem split {n : Nat} {records : List α} {bytes : Bytes} (h : Frames step n records bytes)
    (k : Nat) : ∃ a b, bytes = a ++ b ∧ Frames step n (records.take k) a ∧
      Frames step (n + k) (records.drop k) b := by
  induction h generalizing k with
  | nil n => exact ⟨[], [], rfl, by simpa using .nil n, by simpa using .nil (n + k)⟩
  | @cons n record frame records bytes head tail ih =>
      cases k with
      | zero => exact ⟨[], frame ++ bytes, rfl, .nil n, .cons head tail⟩
      | succ k =>
          obtain ⟨a, b, rfl, ha, hb⟩ := ih k
          refine ⟨frame ++ a, b, (List.append_assoc ..).symm, .cons head ha, ?_⟩
          simpa only [List.drop_succ_cons, Nat.add_assoc, Nat.add_comm 1] using hb

/-- The frame that covers a byte position, with what stands before and after it. -/
theorem at_position {n : Nat} {records : List α} {bytes : Bytes}
    (h : Frames step n records bytes) {i : Nat} (hi : i < bytes.length) :
    ∃ before record after front frame rest, records = before ++ record :: after ∧
      bytes = front ++ (frame ++ rest) ∧ Frames step n before front ∧
      Reads step (n + before.length) record frame ∧ front.length ≤ i ∧
      i < front.length + frame.length := by
  induction h generalizing i with
  | nil n => simp at hi
  | @cons n record frame records bytes head tail ih =>
      by_cases hlt : i < frame.length
      · exact ⟨[], record, records, [], frame, bytes, rfl, rfl, .nil n, head, Nat.zero_le _,
          by simpa using hlt⟩
      · obtain ⟨before, found, after, front, middle, rest, rfl, rfl, hfront, hfound, hle, hgt⟩ :=
          ih (i := i - frame.length) (by rw [List.length_append] at hi; omega)
        refine ⟨record :: before, found, after, frame ++ front, middle, rest, rfl,
          (List.append_assoc ..).symm, .cons head hfront, ?_, ?_, ?_⟩
        · simpa only [List.length_cons, Nat.add_assoc, Nat.add_comm 1] using hfound
        · rw [List.length_append]; omega
        · rw [List.length_append]; omega

/-- A cut leaves the frames before it, and an incomplete one. -/
theorem cut (format : Framing step) {n : Nat} {records : List α} {bytes tail : Bytes}
    (h : Frames step n records bytes) (htail : step (n + records.length) tail = .ok none)
    (k : Nat) : ∃ m kept rest, (bytes ++ tail).take k = kept ++ rest ∧
      Frames step n (records.take m) kept ∧
      step (n + (records.take m).length) rest = .ok none := by
  rcases Nat.lt_or_ge k bytes.length with hk | hk
  · obtain ⟨before, record, after, front, frame, rest, rfl, rfl, hfront, hread, hle, hlt⟩ :=
      h.at_position hk
    refine ⟨before.length, front, frame.take (k - front.length), ?_, ?_, ?_⟩
    · rw [List.append_assoc, List.take_append, List.take_of_length_le hle, List.append_assoc,
        List.take_append_of_le_length (by omega)]
    · rwa [List.take_left]
    · rw [List.take_left]
      exact format.torn hread _ (by omega)
  · refine ⟨records.length, bytes, tail.take (k - bytes.length), ?_, ?_, ?_⟩
    · rw [List.take_append, List.take_of_length_le hk]
    · rwa [List.take_length]
    · rw [List.take_length]
      exact format.shrinks htail _

end Frames

section Scan

variable {records : List α} {bytes tail : Bytes}

/-- The scanner reads a whole run of frames. -/
theorem scan_frames {n : Nat} (h : Frames step n records bytes) (front tail : Bytes)
    (before : List α) (hn : before.length = n) (rounds : Nat) :
    scan step (front ++ (bytes ++ tail)) (records.length + rounds) before front.length =
      scan step (front ++ (bytes ++ tail)) rounds (before ++ records)
        (front.length + bytes.length) := by
  induction h generalizing front before with
  | nil n => simp
  | @cons n record frame records bytes head rest ih =>
      have hpos := List.length_pos_iff.mpr head.1
      have hread := head.2 (bytes ++ tail)
      have hnext := ih (front ++ frame) (before ++ [record]) (by simp [hn])
      simp only [List.append_assoc, List.length_append, List.singleton_append] at hnext
      rw [List.length_cons, Nat.add_right_comm, scan,
        if_neg (by simp only [List.length_append]; omega), List.append_assoc, List.drop_left, hn,
        hread, List.length_append, ← Nat.add_assoc]
      exact hnext

variable (h : Frames step 0 records bytes)

include h

/-- An incomplete frame after the last record is left out. -/
theorem scan_torn (htail : step records.length tail = .ok none) :
    scan step (bytes ++ tail) (bytes ++ tail).length [] 0 = .ok (records, bytes.length) := by
  have hle := h.length_le
  obtain ⟨rounds, hrounds⟩ : ∃ rounds, (bytes ++ tail).length = records.length + rounds :=
    ⟨(bytes ++ tail).length - records.length, by rw [List.length_append]; omega⟩
  have hscan := scan_frames h [] tail [] rfl rounds
  simp only [List.nil_append, List.length_nil, Nat.zero_add] at hscan
  rw [hrounds, hscan]
  cases rounds with
  | zero => rfl
  | succ rounds =>
      rw [scan]
      split
      · rfl
      · rw [List.drop_left, htail]

/-- A frame that cannot be read fails the scan. -/
theorem scan_error {cause : ε} (hne : tail ≠ []) (htail : step records.length tail = .error cause) :
    scan step (bytes ++ tail) (bytes ++ tail).length [] 0 = .error cause := by
  have hle := h.length_le
  have hpos := List.length_pos_iff.mpr hne
  obtain ⟨rounds, hrounds⟩ : ∃ rounds, (bytes ++ tail).length = records.length + (rounds + 1) :=
    ⟨(bytes ++ tail).length - records.length - 1, by rw [List.length_append]; omega⟩
  have hscan := scan_frames h [] tail [] rfl (rounds + 1)
  simp only [List.nil_append, List.length_nil, Nat.zero_add] at hscan
  rw [hrounds, hscan, scan, if_neg (by rw [List.length_append]; omega), List.drop_left, htail]

end Scan

/-- Whatever the scanner returns, the bytes consist of the frames of those records and an
incomplete frame. -/
theorem frames_of_scan (format : Framing step) (hempty : ∀ n, step n [] = .ok none)
    {front bytes : Bytes} {before records : List α} {rounds last : Nat}
    (hbefore : Frames step 0 before front) (hrounds : bytes.length ≤ rounds)
    (h : scan step (front ++ bytes) rounds before front.length = .ok (records, last)) :
    ∃ kept tail, front ++ bytes = kept ++ tail ∧ kept.length = last ∧
      Frames step 0 records kept ∧ step records.length tail = .ok none := by
  induction rounds generalizing front bytes before with
  | zero =>
      obtain ⟨rfl, rfl⟩ : before = records ∧ front.length = last := by simpa [scan] using h
      obtain rfl : bytes = [] := List.eq_nil_of_length_eq_zero (by omega)
      exact ⟨front, [], rfl, rfl, hbefore, hempty _⟩
  | succ rounds ih =>
      rw [scan] at h
      split at h
      · rename_i hend
        obtain ⟨rfl, rfl⟩ : before = records ∧ front.length = last := by simpa using h
        obtain rfl : bytes = [] := by
          apply List.eq_nil_of_length_eq_zero
          rw [List.length_append] at hend
          omega
        exact ⟨front, [], rfl, rfl, hbefore, hempty _⟩
      · rw [List.drop_left] at h
        cases hstep : step before.length bytes with
        | error cause => simp [hstep] at h
        | ok read =>
            cases read with
            | none =>
                obtain ⟨rfl, rfl⟩ : before = records ∧ front.length = last := by
                  simpa [hstep] using h
                exact ⟨front, bytes, rfl, rfl, hbefore, hstep⟩
            | some read =>
                obtain ⟨record, total⟩ := read
                obtain ⟨hle, hread⟩ := format.reads hstep
                have hpos := List.length_pos_iff.mpr hread.1
                have htake : (bytes.take total).length = total := by simpa using hle
                have hbytes : front ++ bytes = (front ++ bytes.take total) ++ bytes.drop total := by
                  rw [List.append_assoc, List.take_append_drop]
                have hlast : front.length + total = (front ++ bytes.take total).length := by
                  rw [List.length_append, htake]
                simp only [hstep] at h
                rw [hlast, hbytes] at h
                rw [hbytes]
                refine ih (hbefore.append (.single (by simpa using hread))) ?_ h
                rw [List.length_drop]
                omega

/-- A scan succeeds exactly on frames followed by an incomplete one. -/
theorem scan_eq_ok (format : Framing step) (hempty : ∀ n, step n [] = .ok none) {bytes : Bytes}
    {records : List α} {last : Nat} :
    scan step bytes bytes.length [] 0 = .ok (records, last) ↔
      ∃ kept tail, bytes = kept ++ tail ∧ kept.length = last ∧ Frames step 0 records kept ∧
        step records.length tail = .ok none := by
  constructor
  · intro h
    have hscan : scan step ([] ++ bytes) bytes.length [] ([] : Bytes).length = _ := h
    simpa using frames_of_scan format hempty (.nil 0) le_rfl hscan
  · rintro ⟨kept, tail, rfl, rfl, hframes, htail⟩
    exact scan_torn hframes htail

end NovaBase.Lib.FramedLog
