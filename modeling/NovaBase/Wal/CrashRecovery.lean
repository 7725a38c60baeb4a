import NovaBase.Wal.Recovery

/-!
# Recovery after a crash

A crash stops a recovery, or any other client of the page file, inside one
write. Writes in place keep the length of the file and are redone by the next
recovery. An append that was cut leaves a file whose length is not a multiple
of the page size; opening such a file is refused, and recovery with it.
-/

namespace NovaBase.Wal

open Lib Storage

/-- A call that a client makes on an open page file. -/
inductive PageCall
  | allocate
  | read (id : PageId)
  | write (page : Page)
  | sync

namespace PageCall

/-- Make the call, with a given outcome of its write. -/
def run (outcome : WriteOutcome) : PageCall → PageManager → Result Unit × PageManager
  | .allocate, pages =>
      let (result, pages) := pages.allocate outcome
      (result.map fun _ => (), pages)
  | .read id, pages =>
      let (result, pages) := pages.read id
      (result.map fun _ => (), pages)
  | .write page, pages => pages.write outcome page
  | .sync, pages => (.ok (), pages.sync)

end PageCall

/-- The file that a client leaves when it makes calls until one fails on the file, which is where
the crash is, or until it has made them all. -/
def crashRun : List (PageCall × WriteOutcome) → PageManager → File
  | [], pages => pages.file
  | (call, outcome) :: calls, pages =>
      match call.run outcome pages with
      | (.error .io, pages) => pages.file
      | (_, pages) => crashRun calls pages

/-- The files that a crash can leave: of a recovery, at one of its writes or at its end, or of a
client that has the page file open. -/
inductive CrashLeaves (wal : Bytes) (file : File) : File → Prop
  | recovery (outcomes : List WriteOutcome) : CrashLeaves wal file (recover outcomes wal file).2
  | client {pages : PageManager} (hopen : PageManager.openFile file = .ok pages)
      (calls : List (PageCall × WriteOutcome)) : CrashLeaves wal file (crashRun calls pages)

/-- A call keeps whole pages, unless it is cut on the file. -/
theorem PageCall.run_cases {pages : PageManager} {images : List Bytes} (h : pages.Holds images)
    (call : PageCall) (outcome : WriteOutcome) :
    (∃ after, (call.run outcome pages).2.Holds after) ∨
      ((call.run outcome pages).1 = .error .io ∧ Interrupted (call.run outcome pages).2.file) := by
  cases call with
  | allocate =>
      rcases h.allocate outcome with ⟨next, hallocate, hnext⟩ | ⟨next, hallocate, hfits, -⟩
      · exact .inl ⟨_, by simp only [run, hallocate]; exact hnext⟩
      · refine .inr ⟨by simp only [run, hallocate]; rfl, ?_⟩
        simp only [run, hallocate]
        refine ⟨hfits, ?_⟩
        by_cases haligned : next.file.bytes.length % pageSize = 0
        · exact .inl haligned
        · exact .inr ⟨haligned, pages, images, outcome, h, by rw [hallocate]⟩
  | read id => exact .inl ⟨images, h.read_state id⟩
  | write page =>
      have hrefused (hreason : pages.pageCount ≤ page.id.toNat ∨
          ∃ cause, page.toBytes = .error cause) :
          ∃ after, (pages.write outcome page).2.Holds after :=
        ⟨images, by rwa [PageManager.write_refused outcome hreason]⟩
      cases himage : page.toBytes with
      | error cause => exact .inl (hrefused (.inr ⟨cause, himage⟩))
      | ok image =>
          rcases Nat.lt_or_ge page.id.toNat images.length with hid | hid
          · rcases h.write outcome himage hid with ⟨next, hwrite, hnext⟩ |
              ⟨next, hwrite, hlength, -⟩
            · exact .inl ⟨_, by rw [run, hwrite]; exact hnext⟩
            · refine .inr ⟨by rw [run, hwrite], ?_⟩
              rw [run, hwrite]
              refine ⟨hlength ▸ h.fits, .inl ?_⟩
              rw [hlength, h.blocks.length_eq, Nat.mul_mod_left]
          · exact .inl (hrefused (.inl (h.count ▸ hid)))
  | sync => exact .inl ⟨images, h.blocks, h.count, h.fits⟩

/-- A client leaves whole pages, or an append that was cut. -/
theorem interrupted_crashRun {pages : PageManager} {images : List Bytes} (h : pages.Holds images)
    (calls : List (PageCall × WriteOutcome)) : Interrupted (crashRun calls pages) := by
  induction calls generalizing pages images with
  | nil => exact interrupted_of_blocks h.blocks h.fits
  | cons head calls ih =>
      obtain ⟨call, outcome⟩ := head
      rw [crashRun]
      rcases call.run_cases h outcome with ⟨after, hafter⟩ | ⟨hio, hleft⟩
      · split
        · rename_i hrun
          rw [hrun] at hafter
          exact interrupted_of_blocks hafter.blocks hafter.fits
        · rename_i hrun
          rw [hrun] at hafter
          exact ih hafter
      · split
        · rename_i hrun
          rw [hrun] at hleft
          exact hleft
        · rename_i hnot hrun
          rw [hrun] at hio
          exact (hnot hio).elim

section Crash

variable {wal : Bytes} {records : List LogRecord} {last : Nat} {file left : File}

/-- Whatever a crash leaves consists of whole pages, unless it cut an append. -/
theorem interrupted_of_crash (hdecode : decodeRecords wal true = .ok (records, last))
    (haligned : file.bytes.length % pageSize = 0) (hfits : file.bytes.length ≤ maxFileLength)
    (hcrash : CrashLeaves wal file left) : Interrupted left := by
  obtain ⟨images, hblocks, -⟩ := Blocks.exists_of_length
    (show file.bytes.length = file.bytes.length / pageSize * pageSize by
      rw [Nat.div_mul_cancel (Nat.dvd_of_mod_eq_zero haligned)])
  cases hcrash with
  | recovery outcomes =>
      rcases recover_cases hdecode hblocks hfits outcomes with
        ⟨after, hrecover, hafter, hroom⟩ | ⟨left, hrecover, hleft, -⟩
      · rw [hrecover]
        exact interrupted_of_blocks hafter hroom
      · rw [hrecover]
        exact hleft
  | client hopen calls =>
      obtain ⟨hopened, hholds⟩ := PageManager.holds_openFile hblocks hfits
      obtain rfl := Except.ok.inj (hopened.symm.trans hopen)
      exact interrupted_crashRun hholds calls

/-- After a crash of a recovery or of a client, recovery writes the last committed image of every
page, or the crash cut an append, and recovery refuses the file and leaves it as it is. -/
theorem recover_after_crash (hdecode : decodeRecords wal true = .ok (records, last))
    (haligned : file.bytes.length % pageSize = 0) (hfits : file.bytes.length ≤ maxFileLength)
    (hcrash : CrashLeaves wal file left) (hio : (recover [] wal left).1 ≠ .error .io) :
    (left.bytes.length % pageSize = 0 ∧ ∃ count after, recover [] wal left = (.ok count, after) ∧
      ∀ id page, lastImage records id = some page → readPage after id = .ok page) ∨
    (TornAppend left ∧ recover [] wal left = (corruption
      s!"page file length {left.bytes.length} is not a multiple of {pageSize}", left)) := by
  obtain ⟨hleft, hshape⟩ := interrupted_of_crash hdecode haligned hfits hcrash
  by_cases hwhole : left.bytes.length % pageSize = 0
  · have hlength : left.bytes.length = left.bytes.length / pageSize * pageSize :=
      (Nat.div_mul_cancel (Nat.dvd_of_mod_eq_zero hwhole)).symm
    obtain ⟨images, hblocks, -⟩ := Blocks.exists_of_length hlength
    have hrecords := encodable_of_decodeRecords hdecode
    rcases recover_cases hdecode hblocks hleft [] with
      ⟨after, hrecover, hafter, hroom⟩ | ⟨stuck, hrecover, -⟩
    · exact .inl ⟨hwhole, _, after, hrecover,
        fun id page hpage => readPage_redo hrecords hafter hroom hpage⟩
    · exact absurd (by rw [hrecover]) hio
  · refine .inr ⟨hshape.resolve_left hwhole, ?_⟩
    simp only [recover, hdecode, PageManager.openFile_misaligned hwhole, corruption]

/-- An empty page file after a client's first allocation was cut after one byte. -/
def tornFile : File := crashRun [(.allocate, .cut 1)] ⟨⟨[], 0, 0⟩, 0⟩

theorem length_tornFile : tornFile.bytes.length = 1 := by
  have hstored : File.stored (.cut 1) (emptyImage 0) (File.seekEnd ⟨[], 0, 0⟩) = 1 := by
    simp only [File.stored, length_emptyImage]
    decide
  have hwrite : File.writeAll (.cut 1) (emptyImage 0) (File.seekEnd ⟨[], 0, 0⟩) =
      (.error .io, File.store ((emptyImage 0).take 1) (File.seekEnd ⟨[], 0, 0⟩)) := by
    simp only [File.writeAll, hstored]
    rfl
  have hbytes : (File.store ((emptyImage 0).take 1) (File.seekEnd ⟨[], 0, 0⟩)).bytes =
      [] ++ (emptyImage 0).take 1 := File.store_end rfl
  simp only [tornFile, crashRun, PageCall.run, PageManager.allocate, emptyImage_eq, hwrite,
    Except.map, hbytes, List.nil_append, List.length_take, length_emptyImage]
  rfl

theorem crashLeaves_tornFile : CrashLeaves [] ⟨[], 0, 0⟩ tornFile := .client rfl _

theorem recover_tornFile_fails : (recover [] [] tornFile).1 ≠ .error .io := by
  have hmisaligned : tornFile.bytes.length % pageSize ≠ 0 := by rw [length_tornFile]; decide
  simp [recover, decodeRecords, FramedLog.scan, PageManager.openFile_misaligned hmisaligned,
    corruption]

/-- A page with a record. -/
def committedPage : Page := ⟨0, [some [7]]⟩

theorem fits_committedPage : committedPage.Fits := by
  show _ ≤ pageSize
  decide

/-- A transaction that writes this page, and commits. -/
def committedWrite : List LogRecord := [⟨0, 1, .pageWrite 0 committedPage⟩, ⟨1, 1, .commit⟩]

theorem exists_log_committedWrite :
    ∃ wal, decodeRecords wal true = .ok (committedWrite, wal.length) := by
  apply exists_log
  · intro record hmem pageId page hoperation
    rcases List.mem_pair.mp hmem with rfl | rfl
    · obtain ⟨rfl, rfl⟩ : 0 = pageId ∧ committedPage = page := by simpa using hoperation
      exact ⟨rfl, fits_committedPage⟩
    · simp at hoperation
  · intro i record hrecord
    match i with
    | 0 => simp [committedWrite] at hrecord; subst hrecord; rfl
    | 1 => simp [committedWrite] at hrecord; subst hrecord; rfl
    | i + 2 => simp [committedWrite] at hrecord

/-- A page file with one empty page. -/
def onePage : File := ⟨emptyImage 0, 0, 0⟩

/-- A recovery that is cut in the middle of the page leaves a file of the same length. -/
theorem recover_cut {wal : Bytes} {last : Nat}
    (hdecode : decodeRecords wal true = .ok (committedWrite, last)) :
    ∃ left, recover [.cut 20] wal onePage = (.error .io, left) ∧
      left.bytes.length = 1 * pageSize := by
  have hblocks : Blocks pageSize [emptyImage 0] (emptyImage 0 ++ []) :=
    Blocks.cons (length_emptyImage 0) (.nil pageSize)
  rw [List.append_nil] at hblocks
  have hlength : onePage.bytes.length = pageSize := length_emptyImage 0
  have hfits : onePage.bytes.length ≤ maxFileLength := by
    rw [hlength]
    decide
  obtain ⟨hopen, hholds⟩ := PageManager.holds_openFile hblocks hfits
  have himage : committedPage.toBytes = .ok (image committedPage) := image_eq fits_committedPage
  rcases hholds.write (.cut 20) himage (Nat.zero_lt_one) with
    ⟨_, hwrite, -⟩ | ⟨next, hwrite, hnext, -⟩
  · exact absurd (congrArg Prod.fst hwrite) (PageManager.write_cut 20 committedPage)
  · refine ⟨next.file, ?_, hnext.trans (hlength.trans (Nat.one_mul _).symm)⟩
    have hreplays : ¬((1 : TransactionId) ∉ committed committedWrite ∨
        1 ∈ aborted committedWrite) := by decide
    have hthrough : Replay.allocateThrough 0 0 ⟨⟨onePage, 1⟩, [.cut 20]⟩ =
        (.ok (), ⟨⟨onePage, 1⟩, [.cut 20]⟩) := rfl
    have hcut : Replay.write committedPage ⟨⟨onePage, 1⟩, [.cut 20]⟩ =
        (.error .io, ⟨next, []⟩) := by
      rw [Replay.write]
      exact congrArg (fun result : Result Unit × PageManager =>
        (result.1, Replay.mk result.2 [])) hwrite
    have hrecord : Replay.applyRecord (committed committedWrite) (aborted committedWrite)
        ⟨0, 1, .pageWrite 0 committedPage⟩ 0 ⟨⟨onePage, 1⟩, [.cut 20]⟩ =
          (.error .io, ⟨next, []⟩) := by
      simp only [Replay.applyRecord, if_neg hreplays]
      rw [show (0 : PageId).toNat + 1 - 1 = 0 from rfl, hthrough]
      simp only [hcut]
    have hrecords : Replay.applyRecords (committed committedWrite) (aborted committedWrite)
        committedWrite 0 ⟨⟨onePage, 1⟩, [.cut 20]⟩ = (.error .io, ⟨next, []⟩) := by
      rw [committedWrite, Replay.applyRecords, ← committedWrite, hrecord]
    rw [recover, hdecode, hopen]
    simp only [List.length_singleton, hrecords]

/-- After an append that was cut, recovery refuses the file. After a recovery that was cut inside
the file, it writes the committed image. -/
theorem recover_after_cut_write :
    (TornAppend tornFile ∧ recover [] [] tornFile =
      (corruption s!"page file length {tornFile.bytes.length} is not a multiple of {pageSize}",
        tornFile)) ∧
    ∃ wal left, recover [.cut 20] wal onePage = (.error .io, left) ∧
      ∃ count after, recover [] wal left = (.ok count, after) ∧
        readPage after 0 = .ok committedPage := by
  constructor
  · have hdecode : decodeRecords [] true = .ok ([], 0) := rfl
    rcases recover_after_crash hdecode rfl (Nat.zero_le _) crashLeaves_tornFile
        recover_tornFile_fails with ⟨hwhole, -⟩ | hrefused
    · rw [length_tornFile] at hwhole
      exact absurd hwhole (by decide)
    · exact hrefused
  · obtain ⟨wal, hdecode⟩ := exists_log_committedWrite
    obtain ⟨left, hcut, hlength⟩ := recover_cut hdecode
    have hone : onePage.bytes.length = pageSize := length_emptyImage 0
    have hcrash : CrashLeaves wal onePage left := by
      have hleaves : CrashLeaves wal onePage (recover [.cut 20] wal onePage).2 :=
        .recovery [.cut 20]
      rwa [hcut] at hleaves
    have hio := recover_of_room hdecode hlength (by decide)
    rcases recover_after_crash hdecode (by rw [hone, Nat.mod_self]) (by rw [hone]; decide)
        hcrash hio
      with ⟨-, count, after, hrecover, himages⟩ | ⟨⟨htorn, -⟩, -⟩
    · exact ⟨wal, left, hcut, count, after, hrecover, himages 0 committedPage (by decide)⟩
    · rw [hlength, Nat.one_mul, Nat.mod_self] at htorn
      exact absurd rfl htorn

/-- So recovery does not succeed after every crash. -/
theorem recovery_refused_after_crash : ¬∀ (wal : Bytes) (records : List LogRecord) (last : Nat)
    (file left : File), decodeRecords wal true = .ok (records, last) →
      file.bytes.length % pageSize = 0 → file.bytes.length ≤ maxFileLength →
      CrashLeaves wal file left → (recover [] wal left).1 ≠ .error .io →
        ∃ count after, recover [] wal left = (.ok count, after) ∧
          ∀ id page, lastImage records id = some page → readPage after id = .ok page := by
  intro h
  obtain ⟨count, after, hrecover, -⟩ := h [] [] 0 ⟨[], 0, 0⟩ tornFile rfl rfl (Nat.zero_le _)
    crashLeaves_tornFile recover_tornFile_fails
  have hmisaligned : tornFile.bytes.length % pageSize ≠ 0 := by rw [length_tornFile]; decide
  simp [recover, decodeRecords, FramedLog.scan, PageManager.openFile_misaligned hmisaligned,
    corruption] at hrecover

end Crash

end NovaBase.Wal
