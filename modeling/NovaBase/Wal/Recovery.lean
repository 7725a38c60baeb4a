import NovaBase.Lib.Redo
import NovaBase.Lib.SortedMap
import NovaBase.Storage.Manager
import NovaBase.Wal.Framing

/-!
# Redo recovery

Recovery reads the log twice: once for the transactions that committed or
aborted, once to write their after-images into the page file. On the page
images this is a redo of whole blocks, so the last committed image of a page
wins and a second recovery changes nothing.
-/

namespace NovaBase.Wal

open Lib Lib.FramedLog Storage

/-- Transactions with a commit record. -/
def committed (records : List LogRecord) : List TransactionId :=
  records.filterMap fun record =>
    if record.operation = .commit then some record.transactionId else none

/-- Transactions with an abort record. -/
def aborted (records : List LogRecord) : List TransactionId :=
  records.filterMap fun record =>
    if record.operation = .abort then some record.transactionId else none

/-- The page file during recovery, and what happens to its next writes; later ones complete. -/
structure Replay where
  pages : PageManager
  outcomes : List WriteOutcome

namespace Replay

/-- Allocate a page. The next outcome says how the file takes it. -/
def allocate (replay : Replay) : Result PageId × Replay :=
  let (result, pages) := replay.pages.allocate (replay.outcomes.headD .complete)
  (result, ⟨pages, replay.outcomes.tail⟩)

/-- Write a page. The next outcome says how the file takes it. -/
def write (page : Page) (replay : Replay) : Result Unit × Replay :=
  let (result, pages) := replay.pages.write (replay.outcomes.headD .complete) page
  (result, ⟨pages, replay.outcomes.tail⟩)

/-- Allocate pages until `pageId` is among them. Every round adds a page, so the distance bounds
the rounds. -/
def allocateThrough (pageId : PageId) : Nat → Replay → Result Unit × Replay
  | 0, replay => (.ok (), replay)
  | rounds + 1, replay =>
      if replay.pages.pageCount ≤ pageId.toNat then
        match replay.allocate with
        | (.error cause, replay) => (.error cause, replay)
        | (.ok _, replay) => allocateThrough pageId rounds replay
      else (.ok (), replay)

/-- Apply one record, if it is a page write of a transaction that committed and did not abort. -/
def applyRecord (committed aborted : List TransactionId) (record : LogRecord) (applied : Nat)
    (replay : Replay) : Result Nat × Replay :=
  match record.operation with
  | .pageWrite pageId page =>
      if record.transactionId ∉ committed ∨ record.transactionId ∈ aborted then
        (.ok applied, replay)
      else
        match replay.allocateThrough pageId (pageId.toNat + 1 - replay.pages.pageCount) with
        | (.error cause, replay) => (.error cause, replay)
        | (.ok _, replay) =>
            match replay.write page with
            | (.error cause, replay) => (.error cause, replay)
            | (.ok _, replay) => (.ok (applied + 1), replay)
  | _ => (.ok applied, replay)

/-- Write the images of committed transactions in the order of the log, and count them. -/
def applyRecords (committed aborted : List TransactionId) :
    List LogRecord → Nat → Replay → Result Nat × Replay
  | [], applied, replay => (.ok applied, replay)
  | record :: records, applied, replay =>
      match replay.applyRecord committed aborted record applied with
      | (.error cause, replay) => (.error cause, replay)
      | (.ok applied, replay) => applyRecords committed aborted records applied replay

end Replay

/-- Replay committed after-images of a log file into a page file. -/
def recover (outcomes : List WriteOutcome) (wal : Bytes) (file : File) : Result Nat × File :=
  match decodeRecords wal true with
  | .error cause => (.error cause, file)
  | .ok (records, _) =>
      match PageManager.openFile file with
      | .error cause => (.error cause, file)
      | .ok pages =>
          match Replay.applyRecords (committed records) (aborted records) records 0
              ⟨pages, outcomes⟩ with
          | (.error cause, replay) => (.error cause, replay.pages.file)
          | (.ok applied, replay) => (.ok applied, replay.pages.sync.file)

/-- The pages of the records that are replayed, in log order. -/
def replayed (committed aborted : List TransactionId) (records : List LogRecord) : List Page :=
  records.filterMap fun record =>
    match record.operation with
    | .pageWrite _ page =>
        if record.transactionId ∈ committed ∧ record.transactionId ∉ aborted then some page
        else none
    | _ => none

/-- The after-images that the committed and not aborted transactions of a log have written. -/
def afterImages (records : List LogRecord) : List Page :=
  replayed (committed records) (aborted records) records

/-- The last of these images of one page. -/
def lastImage (records : List LogRecord) (id : PageId) : Option Page :=
  ((afterImages records).filter fun page => page.id = id).getLast?

/-- One more than the largest page id among these images. -/
def pagesNeeded (records : List LogRecord) : Nat :=
  ((afterImages records).map fun page => page.id.toNat + 1).foldl max 0

/-- Page writes name the page they hold, and that page can be encoded. -/
def Encodable (record : LogRecord) : Prop :=
  ∀ pageId page, record.operation = .pageWrite pageId page → page.id = pageId ∧ page.Fits

/-- Such a record is accepted by the encoder. -/
theorem encodeRecord_of_encodable {record : LogRecord} (h : Encodable record) :
    ∃ bytes, encodeRecord record = .ok bytes := by
  obtain ⟨tag, payload, hoperation, hsmall⟩ : ∃ tag payload,
      encodeOperation record.operation = .ok (tag, payload) ∧ payload.length < 2 ^ 32 := by
    cases hkind : record.operation with
    | pageWrite pageId page =>
        obtain ⟨rfl, hfits⟩ := h pageId page hkind
        obtain ⟨bytes, hbytes⟩ := Page.toBytes_of_fits hfits
        refine ⟨1, Bytes.toBigEndian 8 page.id.toNat ++ bytes, ?_, ?_⟩
        · simp [encodeOperation, hbytes]
        · simp [Page.length_toBytes hbytes, pageSize]
    | _ => exact ⟨_, _, rfl, by decide⟩
  simp only [encodeRecord, hoperation, ok_bind, require_of _ hsmall, pure_eq_ok]
  exact ⟨_, rfl⟩

/-- Every list of such records, numbered in order, is the content of a log file. -/
theorem exists_log {records : List LogRecord} (hrecords : ∀ record ∈ records, Encodable record)
    (hlsn : ∀ (i : Nat) (record : LogRecord), records[i]? = some record → record.lsn.toNat = i) :
    ∃ wal, decodeRecords wal true = .ok (records, wal.length) := by
  have hframes : ∀ n, (∀ (i : Nat) (record : LogRecord), records[i]? = some record →
      record.lsn.toNat = n + i) →
      ∃ wal, Frames (decodeRecord true) n records wal := by
    clear hlsn
    induction records with
    | nil => exact fun n _ => ⟨[], .nil n⟩
    | cons record records ih =>
        intro n hlsn
        obtain ⟨hrecord, hrest⟩ := List.forall_mem_cons.mp hrecords
        obtain ⟨bytes, hbytes⟩ := encodeRecord_of_encodable hrecord
        have hreads := reads_encodeRecord hbytes
        rw [hlsn 0 record rfl] at hreads
        obtain ⟨wal, hwal⟩ := ih hrest (n + 1) fun i other hother => by
          rw [hlsn (i + 1) other (by simpa using hother)]
          omega
        exact ⟨bytes ++ wal, .cons hreads hwal⟩
  obtain ⟨wal, hwal⟩ := hframes 0 (by simpa using hlsn)
  exact ⟨wal, decodeRecords_eq_ok.mpr ⟨wal, [], by simp, rfl, hwal, rfl⟩⟩

theorem encodable_of_reads {count : Nat} {record : LogRecord} {frame : Bytes}
    (h : Reads (decodeRecord true) count record frame) : Encodable record := by
  obtain ⟨-, -, -, hframe⟩ := decodeRecord_eq_some.mp (h.2 [])
  have hoperation := (decodeFrame_eq_ok.mp hframe).2.2.2.2
  intro pageId page hpage
  rw [hpage] at hoperation
  simp only [decodeOperation] at hoperation
  split_ifs at hoperation <;> simp [corruption] at hoperation
  obtain ⟨-, hdecode, hid, rfl⟩ := hoperation
  exact ⟨hid, Page.fits_of_fromBytes hdecode⟩

theorem encodable_of_frames {n : Nat} {records : List LogRecord} {bytes : Bytes}
    (h : Frames (decodeRecord true) n records bytes) : ∀ record ∈ records, Encodable record := by
  induction h with
  | nil n => simp
  | cons head tail ih => simpa using ⟨encodable_of_reads head, ih⟩

theorem encodable_of_decodeRecords {wal : Bytes} {records : List LogRecord} {last : Nat}
    (h : decodeRecords wal true = .ok (records, last)) : ∀ record ∈ records, Encodable record := by
  obtain ⟨kept, tail, -, -, hframes, -⟩ := decodeRecords_eq_ok.mp h
  exact encodable_of_frames hframes

/-- Pages as writes of their images. -/
def writes (pages : List Page) : List (Nat × Bytes) :=
  pages.map fun page => (page.id.toNat, image page)

/-- A page file in which an append stored only part of its page. -/
def TornAppend (file : File) : Prop :=
  file.bytes.length % pageSize ≠ 0 ∧
    ∃ pages images outcome, PageManager.Holds pages images ∧
      file = (pages.allocate outcome).2.file

/-- What a write that failed leaves: whole pages, unless it was an append. -/
def Interrupted (file : File) : Prop :=
  file.bytes.length ≤ maxFileLength ∧ (file.bytes.length % pageSize = 0 ∨ TornAppend file)

theorem interrupted_of_blocks {file : File} {images : List Bytes}
    (hblocks : Blocks pageSize images file.bytes)
    (hfits : file.bytes.length ≤ maxFileLength) : Interrupted file :=
  ⟨hfits, .inl (by rw [hblocks.length_eq, Nat.mul_mod_left])⟩

namespace Replay

/-- An action of the replay succeeds with `value` and leaves the page images `images`, or a write
fails; without faults that is for want of room only. -/
def Ends {α : Type} (replay : Replay) (result : Result α × Replay) (value : α)
    (images : List Bytes) : Prop :=
  (∃ next, result = (.ok value, next) ∧ next.pages.Holds images ∧
    (replay.outcomes = [] → next.outcomes = [])) ∨
  ∃ next, result = (.error .io, next) ∧ Interrupted next.pages.file ∧
    (replay.outcomes = [] → maxFileLength < images.length * pageSize)

variable {images : List Bytes} {replay : Replay}

theorem allocate_ends (h : replay.pages.Holds images) :
    replay.Ends replay.allocate (UInt64.ofNat images.length)
      (images ++ [emptyImage images.length]) := by
  rcases h.allocate (replay.outcomes.headD .complete) with
    ⟨pages, hallocate, hpages⟩ | ⟨pages, hallocate, hfits, hfull⟩
  · exact .inl ⟨⟨pages, replay.outcomes.tail⟩, by simp only [allocate, hallocate], hpages,
      by simp +contextual⟩
  · refine .inr ⟨⟨pages, replay.outcomes.tail⟩, by simp only [allocate, hallocate], ⟨hfits, ?_⟩,
      fun hnil => ?_⟩
    · by_cases haligned : pages.file.bytes.length % pageSize = 0
      · exact .inl haligned
      · exact .inr ⟨haligned, replay.pages, images, _, h, by rw [hallocate]⟩
    · rw [List.length_append, List.length_singleton]
      exact hfull (by rw [hnil]; rfl)

theorem write_ends (h : replay.pages.Holds images) {page : Page} (hfits : page.Fits)
    (hid : page.id.toNat < images.length) :
    replay.Ends (replay.write page) () (images.set page.id.toNat (image page)) := by
  rcases h.write (replay.outcomes.headD .complete) (image_eq hfits) hid with
    ⟨pages, hwrite, hpages⟩ | ⟨pages, hwrite, hlength, hcut⟩
  · exact .inl ⟨⟨pages, replay.outcomes.tail⟩, by simp only [write, hwrite], hpages,
      by simp +contextual⟩
  · refine .inr ⟨⟨pages, replay.outcomes.tail⟩, by simp only [write, hwrite],
      ⟨hlength ▸ h.fits, .inl ?_⟩, fun hnil => ?_⟩
    · rw [hlength, h.blocks.length_eq, Nat.mul_mod_left]
    · exact absurd (by rw [hnil]; rfl) hcut

/-- The allocation loop fills the file up with empty pages. -/
theorem allocateThrough_ends {pageId : PageId} {rounds : Nat} (h : replay.pages.Holds images)
    (hrounds : pageId.toNat + 1 ≤ images.length + rounds) :
    replay.Ends (replay.allocateThrough pageId rounds) ()
      (Redo.grow emptyImage (pageId.toNat + 1) images) := by
  induction rounds generalizing replay images with
  | zero =>
      rw [Redo.grow_of_le _ (by omega)]
      exact .inl ⟨replay, rfl, h, id⟩
  | succ rounds ih =>
      rw [allocateThrough]
      split
      · rename_i hcount
        rw [h.count] at hcount
        rcases allocate_ends h with
          ⟨next, hallocate, hnext, hfaults⟩ | ⟨next, hallocate, hleft, hfull⟩
        · rw [hallocate]
          have hrest := ih hnext (by rw [List.length_append, List.length_singleton]; omega)
          rw [Redo.grow_append _ (by omega)] at hrest
          rcases hrest with ⟨last, hlast, hholds, hlastFaults⟩ | ⟨last, hlast, hleft, hfull⟩
          · exact .inl ⟨last, hlast, hholds, fun hnil => hlastFaults (hfaults hnil)⟩
          · exact .inr ⟨last, hlast, hleft, fun hnil => hfull (hfaults hnil)⟩
        · rw [hallocate]
          refine .inr ⟨next, rfl, hleft, fun hnil => lt_of_lt_of_le (hfull hnil) ?_⟩
          apply Nat.mul_le_mul_right
          rw [Redo.length_grow, List.length_append, List.length_singleton]
          omega
      · rename_i hcount
        rw [h.count] at hcount
        rw [Redo.grow_of_le _ (by omega)]
        exact .inl ⟨replay, rfl, h, id⟩

/-- One record redoes its page, or is passed over. -/
theorem applyRecord_ends {record : LogRecord} (hrecord : Encodable record)
    (h : replay.pages.Holds images) (committed aborted : List TransactionId) (applied : Nat) :
    replay.Ends (replay.applyRecord committed aborted record applied)
      (applied + (replayed committed aborted [record]).length)
      (Redo.redo emptyImage (writes (replayed committed aborted [record])) images) := by
  rw [applyRecord]
  cases hoperation : record.operation with
  | pageWrite pageId page =>
      obtain ⟨rfl, hfits⟩ := hrecord pageId page hoperation
      dsimp only
      split
      · rename_i hskip
        have hnone : replayed committed aborted [record] = [] := by
          simp only [replayed, List.filterMap_cons, hoperation, List.filterMap_nil]
          rw [if_neg (by grind)]
        rw [hnone]
        exact .inl ⟨replay, rfl, h, id⟩
      · rename_i hreplay
        have hsome : replayed committed aborted [record] = [page] := by
          simp only [replayed, List.filterMap_cons, hoperation, List.filterMap_nil]
          rw [if_pos (by grind)]
        have hredo : Redo.redo emptyImage (writes [page]) images =
            (Redo.grow emptyImage (page.id.toNat + 1) images).set page.id.toNat (image page) := rfl
        have hcount := h.count
        have hgrow := allocateThrough_ends h (show page.id.toNat + 1 ≤ images.length +
          (page.id.toNat + 1 - replay.pages.pageCount) by omega)
        rw [hsome, hredo]
        rcases hgrow with ⟨grown, hgrow, hgrown, hfaults⟩ | ⟨left, hgrow, hleft, hfull⟩
        · have hid : page.id.toNat < (Redo.grow emptyImage (page.id.toNat + 1) images).length := by
            rw [Redo.length_grow]
            omega
          rw [hgrow]
          rcases write_ends hgrown hfits hid with
            ⟨next, hwrite, hnext, hnextFaults⟩ | ⟨next, hwrite, hleft, hfull⟩
          · exact .inl ⟨next, by simp [hwrite], hnext, fun hnil => hnextFaults (hfaults hnil)⟩
          · exact .inr ⟨next, by simp [hwrite], hleft, fun hnil => hfull (hfaults hnil)⟩
        · rw [hgrow]
          exact .inr ⟨left, rfl, hleft, by simpa using hfull⟩
  | _ =>
      have hnone : replayed committed aborted [record] = [] := by
        simp only [replayed, List.filterMap_cons, hoperation, List.filterMap_nil]
      rw [hnone]
      exact .inl ⟨replay, rfl, h, id⟩

/-- The second pass redoes the committed after-images in log order. -/
theorem applyRecords_ends {records : List LogRecord}
    (hrecords : ∀ record ∈ records, Encodable record) (h : replay.pages.Holds images)
    (committed aborted : List TransactionId) (applied : Nat) :
    replay.Ends (replay.applyRecords committed aborted records applied)
      (applied + (replayed committed aborted records).length)
      (Redo.redo emptyImage (writes (replayed committed aborted records)) images) := by
  induction records generalizing replay images applied with
  | nil => exact .inl ⟨replay, rfl, h, id⟩
  | cons record records ih =>
      obtain ⟨hrecord, hrest⟩ := List.forall_mem_cons.mp hrecords
      have hsplit : replayed committed aborted (record :: records) =
          replayed committed aborted [record] ++ replayed committed aborted records := by
        rw [replayed, replayed, replayed, ← List.filterMap_append, List.singleton_append]
      have hredo : Redo.redo emptyImage (writes (replayed committed aborted (record :: records)))
          images = Redo.redo emptyImage (writes (replayed committed aborted records))
            (Redo.redo emptyImage (writes (replayed committed aborted [record])) images) := by
        rw [hsplit, writes, List.map_append, Redo.redo, List.foldl_append]
        rfl
      rw [applyRecords, hredo, hsplit, List.length_append, ← Nat.add_assoc]
      rcases applyRecord_ends hrecord h committed aborted applied with
        ⟨middle, happly, hmiddle, hfaults⟩ | ⟨left, happly, hleft, hfull⟩
      · rw [happly]
        rcases ih hrest hmiddle (applied + (replayed committed aborted [record]).length) with
          ⟨last, hlast, hholds, hlastFaults⟩ | ⟨last, hlast, hleft, hfull⟩
        · exact .inl ⟨last, hlast, hholds, fun hnil => hlastFaults (hfaults hnil)⟩
        · exact .inr ⟨last, hlast, hleft, fun hnil => hfull (hfaults hnil)⟩
      · rw [happly]
        refine .inr ⟨left, rfl, hleft, fun hnil => lt_of_lt_of_le (hfull hnil) ?_⟩
        apply Nat.mul_le_mul_right
        rw [Redo.length_redo _ _ (Redo.redo _ _ _)]
        exact le_max_left ..

end Replay

section Recover

variable {wal : Bytes} {records : List LogRecord} {last : Nat} {images : List Bytes} {file : File}

/-- Recovery redoes the committed after-images on the page images, or stops at a failed write;
without faults that is for want of room only. -/
theorem recover_cases (hdecode : decodeRecords wal true = .ok (records, last))
    (hblocks : Blocks pageSize images file.bytes) (hfits : file.bytes.length ≤ maxFileLength)
    (outcomes : List WriteOutcome) :
    (∃ after, recover outcomes wal file = (.ok (afterImages records).length, after) ∧
      Blocks pageSize (Redo.redo emptyImage (writes (afterImages records)) images) after.bytes ∧
      after.bytes.length ≤ maxFileLength) ∨
    ∃ left, recover outcomes wal file = (.error .io, left) ∧ Interrupted left ∧
      (outcomes = [] → maxFileLength <
        (Redo.redo emptyImage (writes (afterImages records)) images).length * pageSize) := by
  obtain ⟨hopen, hholds⟩ := PageManager.holds_openFile hblocks hfits
  have hends : Replay.Ends ⟨⟨file, images.length⟩, outcomes⟩ _ _ _ :=
    Replay.applyRecords_ends (encodable_of_decodeRecords hdecode) hholds (committed records)
      (aborted records) 0
  simp only [recover, hdecode, hopen]
  rcases hends with ⟨next, happly, hnext, -⟩ | ⟨next, happly, hleft, hfull⟩
  · rw [Nat.zero_add] at happly
    rw [happly]
    exact .inl ⟨_, rfl, hnext.blocks, hnext.fits⟩
  · rw [happly]
    exact .inr ⟨_, rfl, hleft, hfull⟩

theorem lastWrite_writes (pages : List Page) (id : PageId) :
    Redo.lastWrite (writes pages) id.toNat =
      ((pages.filter fun page => page.id = id).getLast?).map image := by
  have hfilter : (writes pages).filter (fun write => write.1 = id.toNat) =
      (pages.filter fun page => page.id = id).map fun page => (page.id.toNat, image page) := by
    simp only [writes, List.filter_map, Function.comp_def, UInt64.toNat_inj]
  rw [Redo.lastWrite, hfilter, List.getLast?_map, Option.map_map]
  rfl

theorem needed_writes (records : List LogRecord) :
    Redo.needed (writes (afterImages records)) = pagesNeeded records := by
  simp [Redo.needed, writes, pagesNeeded, Function.comp_def]

/-- Without faults recovery fails on the file for want of room only. -/
theorem recover_of_room (hdecode : decodeRecords wal true = .ok (records, last)) {n : Nat}
    (hlength : file.bytes.length = n * pageSize)
    (hroom : max n (pagesNeeded records) * pageSize ≤ maxFileLength) :
    (recover [] wal file).1 ≠ .error .io := by
  obtain ⟨images, hblocks, rfl⟩ := Blocks.exists_of_length hlength
  have hsize := Redo.length_redo emptyImage (writes (afterImages records)) images
  rw [needed_writes] at hsize
  have hfits : file.bytes.length ≤ maxFileLength := by
    rw [hlength]
    exact (Nat.mul_le_mul_right _ (le_max_left ..)).trans hroom
  rcases recover_cases hdecode hblocks hfits [] with ⟨after, hrecover, -⟩ | ⟨left, -, -, hfull⟩
  · rw [hrecover]
    exact nofun
  · rw [hsize] at hfull
    exact absurd (hfull rfl) (by omega)

/-- The last after-image of a page belongs to that page and can be encoded. -/
theorem lastImage_spec (hrecords : ∀ record ∈ records, Encodable record) {id : PageId}
    {page : Page} (h : lastImage records id = some page) : page.id = id ∧ page.Fits := by
  have hmem := List.mem_of_getLast? h
  simp only [List.mem_filter, decide_eq_true_eq, afterImages, replayed, List.mem_filterMap] at hmem
  obtain ⟨⟨record, hrecord, hpage⟩, hid⟩ := hmem
  split at hpage
  · rename_i pageId found hoperation
    split at hpage
    · obtain rfl : found = page := by simpa using hpage
      exact ⟨hid, (hrecords record hrecord pageId found hoperation).2⟩
    · simp at hpage
  · simp at hpage

/-- What a redone page file reads back. -/
theorem readPage_redo (hrecords : ∀ record ∈ records, Encodable record)
    (hblocks : Blocks pageSize (Redo.redo emptyImage (writes (afterImages records)) images)
      file.bytes) (hfits : file.bytes.length ≤ maxFileLength) {id : PageId} {page : Page}
    (h : lastImage records id = some page) : readPage file id = .ok page := by
  obtain ⟨rfl, hpage⟩ := lastImage_spec hrecords h
  have hwrite : Redo.lastWrite (writes (afterImages records)) page.id.toNat =
      some (image page) := by
    rw [lastWrite_writes, ← lastImage, h]
    rfl
  have hneeded := Redo.lt_needed hwrite
  refine readPage_of_blocks hblocks hfits ?_ (image_eq hpage)
  rw [Redo.getElem?_redo _ _ _ (by omega), hwrite]
  rfl

/-- The bytes of a page file at the place of a page. -/
def pageBytes (file : File) (id : PageId) : Bytes :=
  Bytes.slice file.bytes (id.toNat * pageSize) (id.toNat * pageSize + pageSize)

/-- Recovery computes the committed state and is idempotent: the file grows as far as needed,
every page written by a committed transaction holds the last such image, every other page is
unchanged or empty, and recovering again replays as many records and changes nothing. -/
theorem recover_committed_state (hdecode : decodeRecords wal true = .ok (records, last)) {n : Nat}
    (hlength : file.bytes.length = n * pageSize) (hfits : file.bytes.length ≤ maxFileLength)
    (hio : (recover [] wal file).1 ≠ .error .io) :
    ∃ count after, recover [] wal file = (.ok count, after) ∧
      after.bytes.length = max n (pagesNeeded records) * pageSize ∧
      (∀ id page, lastImage records id = some page → readPage after id = .ok page) ∧
      (∀ id : PageId, id.toNat < n → lastImage records id = none →
        pageBytes after id = pageBytes file id) ∧
      (∀ id : PageId, n ≤ id.toNat → id.toNat < pagesNeeded records →
        lastImage records id = none → readPage after id = .ok (Page.new id)) ∧
      (recover [] wal after).1 = .ok count ∧ (recover [] wal after).2.bytes = after.bytes := by
  obtain ⟨images, hblocks, rfl⟩ := Blocks.exists_of_length hlength
  have hrecords := encodable_of_decodeRecords hdecode
  rcases recover_cases hdecode hblocks hfits [] with ⟨after, hrecover, hafter, hroom⟩ | hfail
  · have hsize := hafter.length_eq
    have hcount := Redo.length_redo emptyImage (writes (afterImages records)) images
    rw [needed_writes] at hcount
    have hagain : Redo.redo emptyImage (writes (afterImages records))
        (Redo.redo emptyImage (writes (afterImages records)) images) = _ :=
      Redo.redo_redo emptyImage (writes (afterImages records)) images
    have hget : ∀ id : PageId, id.toNat < max images.length (pagesNeeded records) →
        lastImage records id = none →
        (Redo.redo emptyImage (writes (afterImages records)) images)[id.toNat]? =
          some (images[id.toNat]?.getD (emptyImage id.toNat)) := by
      intro id hid hnone
      have hunwritten : Redo.lastWrite (writes (afterImages records)) id.toNat = none := by
        rw [lastWrite_writes, ← lastImage, hnone]
        rfl
      rw [Redo.getElem?_redo _ _ _ (by rwa [needed_writes]), hunwritten]
      rfl
    refine ⟨_, after, hrecover, by rw [hsize, hcount],
      fun id page hpage => readPage_redo hrecords hafter hroom hpage, ?_, ?_, ?_⟩
    · intro id hid hnone
      have hold : images[id.toNat]? = some images[id.toNat] := List.getElem?_eq_getElem hid
      rw [pageBytes, pageBytes, hafter.slice_block (hget id (by omega) hnone),
        hblocks.slice_block hold, hold]
      rfl
    · intro id hlow hhigh hnone
      have hempty := hget id (by omega) hnone
      rw [List.getElem?_eq_none hlow] at hempty
      have hnew := emptyImage_eq id.toNat
      rw [UInt64.ofNat_toNat] at hnew
      exact readPage_of_blocks hafter hroom (show _[(Page.new id).id.toNat]? = _ from hempty) hnew
    · rcases recover_cases hdecode hafter hroom [] with
        ⟨again, hrecover', hblocks', -⟩ | ⟨left, -, -, hfull⟩
      · rw [hagain] at hblocks'
        rw [hrecover']
        exact ⟨rfl, by rw [hblocks'.flatten, hafter.flatten]⟩
      · rw [hagain, ← hsize] at hfull
        exact absurd (hfull rfl) (by omega)
  · obtain ⟨left, hleft, -⟩ := hfail
    exact absurd (by rw [hleft]) hio

/-- A committed image of page 2 makes an empty page file grow to three pages. -/
theorem recover_one_page : ∃ wal count after, recover [] wal ⟨[], 0, 0⟩ = (.ok count, after) ∧
    after.bytes.length = 3 * pageSize ∧ readPage after 2 = .ok (Page.new 2) := by
  obtain ⟨wal, hdecode⟩ : ∃ wal, decodeRecords wal true =
      .ok ([⟨0, 1, .pageWrite 2 (Page.new 2)⟩, ⟨1, 1, .commit⟩], wal.length) := by
    apply exists_log
    · intro record hmem pageId page hoperation
      rcases List.mem_pair.mp hmem with rfl | rfl
      · obtain ⟨rfl, rfl⟩ : 2 = pageId ∧ Page.new 2 = page := by simpa using hoperation
        exact ⟨rfl, Page.fits_new 2⟩
      · simp at hoperation
    · intro i record hrecord
      match i with
      | 0 => simp at hrecord; subst hrecord; rfl
      | 1 => simp at hrecord; subst hrecord; rfl
      | i + 2 => simp at hrecord
  have hempty : (⟨[], 0, 0⟩ : File).bytes.length = 0 * pageSize := rfl
  have hio := recover_of_room hdecode hempty (by decide)
  obtain ⟨count, after, hrecover, hlength, himages, -⟩ :=
    recover_committed_state hdecode hempty (Nat.zero_le _) hio
  exact ⟨wal, count, after, hrecover, hlength, himages 2 (Page.new 2) (by decide)⟩

end Recover

end NovaBase.Wal
