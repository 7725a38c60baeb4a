import NovaBase.Lib.Run
import NovaBase.Storage.Manager

/-!
# What a failed allocation leaves

An allocation writes at the physical end of the page file; reading and writing
go by the page count. The two ends agree until the write of an allocation stops
after some of its bytes, which nothing takes back.
-/

namespace NovaBase.Storage

open Lib Lib.Bytes

/-- A call on an open page file. The write of an allocation may fail. -/
inductive PageCall
  | allocate (outcome : WriteOutcome)
  | read (id : PageId)
  | write (page : Page)

/-- A session on a page file, and the images of the pages that its answers promise. -/
structure PageSession where
  pages : PageManager
  images : List Bytes

namespace PageSession

/-- The session after a call. Only a call that succeeds changes what is promised. -/
def perform (session : PageSession) : PageCall → PageSession
  | .allocate outcome =>
      match session.pages.allocate outcome with
      | (.ok id, pages) => ⟨pages, session.images ++ [emptyImage id.toNat]⟩
      | (.error _, pages) => ⟨pages, session.images⟩
  | .read id => ⟨(session.pages.read id).2, session.images⟩
  | .write page =>
      match session.pages.write .complete page with
      | (.ok _, pages) => ⟨pages, session.images.set page.id.toNat (image page)⟩
      | (.error _, pages) => ⟨pages, session.images⟩

def after (calls : List PageCall) (session : PageSession) : PageSession :=
  calls.foldl perform session

def step (session : PageSession) (call : PageCall) : Option PageSession :=
  some (session.perform call)

/-- The file begins with the promised pages, reads them, and can be opened again with them. -/
structure Usable (session : PageSession) : Prop where
  count : session.pages.pageCount = session.images.length
  kept : session.pages.file.bytes.take (session.pages.pageCount * pageSize) =
    session.images.flatten
  read : ∀ id, (session.pages.read id).1 = readImage session.images id
  reopen : ∃ reopened, PageManager.openFile (session.pages.file.seek 0) = .ok reopened ∧
    reopened.pageCount = session.pages.pageCount ∧
    ∀ id, (reopened.read id).1 = readImage session.images id

/-- The session is usable in every state it reaches, and an allocated page is read as the empty
page until it is written. -/
structure StaysUsable (calls : List PageCall) (session : PageSession) : Prop where
  usable : ∀ before rest, calls = before ++ rest → (session.after before).Usable
  fresh : ∀ (before : List PageCall) (outcome : WriteOutcome) (between rest : List PageCall)
    (id : PageId), calls = before ++ .allocate outcome :: between ++ rest →
    ((session.after before).pages.allocate outcome).1 = .ok id →
    (∀ page, .write page ∈ between → page.id ≠ id) →
    ((session.after (before ++ .allocate outcome :: between)).pages.read id).1 =
      .ok (Page.new id)

/-- The write of an allocation completes, or stores nothing. -/
def Whole (session : PageSession) : PageCall → Prop
  | .allocate .complete => session.pages.file.bytes.length + pageSize ≤ maxFileLength
  | .allocate (.cut stored) => stored = 0
  | .read _ | .write _ => True

end PageSession

namespace PageManager

variable {pages : PageManager} {images : List Bytes}

/-- Whatever becomes of it, an allocation only adds bytes at the end of the file. -/
theorem allocate_bytes (outcome : WriteOutcome) (pages : PageManager) :
    (pages.allocate outcome).2.file.bytes = pages.file.bytes ++
      (emptyImage pages.pageCount).take
        (pages.file.seekEnd.stored outcome (emptyImage pages.pageCount)) := by
  have hend : pages.file.seekEnd.cursor = pages.file.seekEnd.bytes.length := rfl
  have hbytes : (pages.file.seekEnd.store ((emptyImage pages.pageCount).take
      (pages.file.seekEnd.stored outcome (emptyImage pages.pageCount)))).bytes =
        pages.file.seekEnd.bytes ++ (emptyImage pages.pageCount).take
          (pages.file.seekEnd.stored outcome (emptyImage pages.pageCount)) :=
    File.store_end hend
  simp only [PageManager.allocate, emptyImage_eq, File.writeAll]
  by_cases hwhole : outcome = .complete ∧
      pages.file.seekEnd.stored outcome (emptyImage pages.pageCount) =
        (emptyImage pages.pageCount).length
  · simp only [if_pos hwhole]
    split <;> exact hbytes
  · simp only [if_neg hwhole]
    exact hbytes

/-- An allocation that fails allocates nothing. -/
theorem allocate_error {outcome : WriteOutcome} {cause : NovaError}
    (h : (pages.allocate outcome).1 = .error cause) :
    (pages.allocate outcome).2.pageCount = pages.pageCount := by
  rw [PageManager.allocate, emptyImage_eq] at h ⊢
  dsimp only at h ⊢
  split at h
  · rfl
  split at h
  · cases h
  · rename_i hcount
    rw [if_neg hcount]

/-- An allocation that does not store a whole page fails. -/
theorem allocate_short {outcome : WriteOutcome} (h : ¬(outcome = .complete ∧
    pages.file.seekEnd.stored outcome (emptyImage pages.pageCount) = pageSize)) :
    (pages.allocate outcome).1 = .error .io := by
  rw [← length_emptyImage pages.pageCount] at h
  simp only [PageManager.allocate, emptyImage_eq, File.writeAll, if_neg h]

/-- An allocation that finds room succeeds, also behind stray bytes. -/
theorem allocate_room (hroom : pages.file.bytes.length + pageSize ≤ maxFileLength)
    (hcount : pages.pageCount + 1 < 2 ^ 64) :
    (pages.allocate .complete).1 = .ok (UInt64.ofNat pages.pageCount) ∧
      (pages.allocate .complete).2.file.bytes =
        pages.file.bytes ++ emptyImage pages.pageCount := by
  have hend : pages.file.seekEnd.cursor = pages.file.bytes.length := rfl
  have himage := length_emptyImage pages.pageCount
  have hstored : pages.file.seekEnd.stored .complete (emptyImage pages.pageCount) =
      (emptyImage pages.pageCount).length := by
    rw [File.stored, himage, hend]
    omega
  constructor
  · simp only [PageManager.allocate, emptyImage_eq, File.writeAll, hstored, and_self, if_true,
      hcount]
  · rw [allocate_bytes, hstored, List.take_length]

/-- The id of an allocated page is the page count before it. -/
theorem allocate_id {outcome : WriteOutcome} {id : PageId}
    (h : (pages.allocate outcome).1 = .ok id) : id.toNat = pages.pageCount := by
  rw [PageManager.allocate, emptyImage_eq] at h
  dsimp only at h
  split at h
  · cases h
  split at h
  · rename_i hcount
    obtain rfl := Except.ok.inj h
    rw [UInt64.toNat_ofNat']
    exact Nat.mod_eq_of_lt (Nat.lt_of_succ_lt hcount)
  · cases h

end PageManager

namespace PageSession

variable {session : PageSession} {call : PageCall} {calls : List PageCall}

theorem after_append (before rest : List PageCall) (session : PageSession) :
    session.after (before ++ rest) = (session.after before).after rest :=
  List.foldl_append

theorem after_cons (call : PageCall) (calls : List PageCall) (session : PageSession) :
    session.after (call :: calls) = (session.perform call).after calls := rfl

theorem run_step (calls : List PageCall) (session : PageSession) :
    run step calls session = some (session.after calls) := by
  induction calls generalizing session with
  | nil => rfl
  | cons call calls ih => exact run_cons.mpr ⟨_, rfl, ih _⟩

/-- A file of the promised images and nothing else is usable. -/
theorem usable_of_holds (h : session.pages.Holds session.images) : session.Usable := by
  have hseek : Blocks pageSize session.images (session.pages.file.seek 0).bytes := h.blocks
  obtain ⟨hopen, hreopened⟩ := PageManager.holds_openFile hseek h.fits
  refine ⟨h.count, ?_, h.read_eq, _, hopen, h.count.symm, hreopened.read_eq⟩
  rw [← h.length_eq, List.take_length, h.blocks.flatten]

/-- A usable file has no bytes behind its pages. -/
theorem Usable.length_eq (h : session.Usable) :
    session.pages.file.bytes.length = session.pages.pageCount * pageSize := by
  obtain ⟨reopened, hopen, hcount, -⟩ := h.reopen
  have hbytes : (session.pages.file.seek 0).bytes = session.pages.file.bytes := rfl
  rw [PageManager.openFile] at hopen
  split at hopen
  · simp [corruption] at hopen
  · rename_i haligned
    rw [hbytes] at haligned hopen
    have hopened := Except.ok.inj hopen
    rw [← hcount, ← hopened]
    exact (Nat.div_mul_cancel (Nat.dvd_of_mod_eq_zero (not_not.mp haligned))).symm

theorem image_of_toBytes {page : Page} {bytes : Bytes} (h : page.toBytes = .ok bytes) :
    image page = bytes := by
  simp [image, h, Except.toOption]

/-- A write that answers stores the page, and one that is refused changes nothing. -/
theorem holds_write (h : session.pages.Holds session.images) (page : Page) :
    (session.perform (.write page)).pages.Holds (session.perform (.write page)).images := by
  rw [perform]
  cases hwrite : session.pages.write .complete page with
  | mk result pages =>
      cases result with
      | ok _ =>
          have hok : (session.pages.write .complete page).1 = .ok () := by rw [hwrite]
          obtain ⟨hid, bytes, hbytes⟩ := PageManager.write_ok hok
          rw [h.count] at hid
          rcases h.write .complete hbytes hid with ⟨next, hnext, hholds⟩ | ⟨next, hnext, -⟩
          · obtain rfl : pages = next := congrArg Prod.snd (hwrite.symm.trans hnext)
            rw [← image_of_toBytes hbytes] at hholds
            exact hholds
          · cases hwrite.symm.trans hnext
      | error cause =>
          suffices hsame : pages = session.pages by
            rw [hsame]
            exact h
          by_contra hchanged
          have hallowed : ¬ (session.pages.pageCount ≤ page.id.toNat ∨
              ∃ cause, page.toBytes = .error cause) := by
            intro hrefused
            have hsame := PageManager.write_refused .complete hrefused
            rw [hwrite] at hsame
            exact hchanged hsame
          obtain ⟨hid, hencoded⟩ := not_or.mp hallowed
          rw [h.count] at hid
          cases hbytes : page.toBytes with
          | error cause => exact hencoded ⟨cause, hbytes⟩
          | ok bytes =>
              rcases h.write .complete hbytes (Nat.lt_of_not_le hid) with
                ⟨next, hnext, -⟩ | ⟨next, -, -, hcut⟩
              · cases hwrite.symm.trans hnext
              · exact hcut rfl

/-- An allocation that stores a whole page appends its image, and one that stores nothing leaves
the file alone. -/
theorem holds_allocate (h : session.pages.Holds session.images) {outcome : WriteOutcome}
    (hwhole : session.Whole (.allocate outcome)) :
    (session.perform (.allocate outcome)).pages.Holds
      (session.perform (.allocate outcome)).images := by
  cases outcome with
  | complete =>
      rw [perform]
      rcases h.allocate .complete with ⟨next, hnext, hholds⟩ | ⟨next, -, -, hfull⟩
      · have hid := PageManager.allocate_id (congrArg Prod.fst hnext)
        rw [hnext]
        dsimp only
        rw [hid, h.count]
        exact hholds
      · have hroom : session.pages.file.bytes.length + pageSize ≤ maxFileLength := hwhole
        have hshort := hfull rfl
        rw [Nat.succ_mul, ← h.blocks.length_eq] at hshort
        exact absurd hroom (Nat.not_le.mpr hshort)
  | cut stored =>
      obtain rfl : stored = 0 := hwhole
      have hresult : (session.pages.allocate (.cut 0)).1 = .error .io :=
        PageManager.allocate_short fun hwhole => WriteOutcome.noConfusion hwhole.1
      have hcount := PageManager.allocate_error hresult
      have hbytes := PageManager.allocate_bytes (.cut 0) session.pages
      rw [perform]
      cases hallocate : session.pages.allocate (.cut 0) with
      | mk result pages =>
          rw [hallocate] at hresult hcount hbytes
          obtain rfl : result = .error .io := hresult
          have hsame : pages.file.bytes = session.pages.file.bytes := by
            rw [hbytes, File.stored, Nat.zero_min, List.take_zero, List.append_nil]
          exact ⟨hsame ▸ h.blocks, hcount.trans h.count, hsame ▸ h.fits⟩

/-- One call whose allocation is whole keeps the file and the promise together. -/
theorem holds_perform (h : session.pages.Holds session.images) (hwhole : session.Whole call) :
    (session.perform call).pages.Holds (session.perform call).images := by
  cases call with
  | read id => exact h.read_state id
  | write page => exact holds_write h page
  | allocate outcome => exact holds_allocate h hwhole

/-- An allocation that is not whole stores part of a page, or a page that is not counted. -/
theorem stored_of_torn (h : session.pages.Holds session.images) {outcome : WriteOutcome}
    (htorn : ¬session.Whole (.allocate outcome)) :
    (session.pages.allocate outcome).1 = .error .io ∧
      0 < session.pages.file.seekEnd.stored outcome (emptyImage session.pages.pageCount) := by
  have hend : session.pages.file.seekEnd.cursor = session.pages.file.bytes.length := rfl
  have hlength := h.blocks.length_eq
  have hfits := h.fits
  have hroom : session.pages.file.bytes.length < maxFileLength := by
    simp only [pageSize, maxFileLength] at hlength hfits ⊢
    omega
  have himage := length_emptyImage session.pages.pageCount
  have hpos : 0 < pageSize := by decide
  cases outcome with
  | complete =>
      have hfull : ¬session.pages.file.bytes.length + pageSize ≤ maxFileLength := htorn
      have hstored : session.pages.file.seekEnd.stored .complete
          (emptyImage session.pages.pageCount) =
            maxFileLength - session.pages.file.bytes.length := by
        rw [File.stored, himage, hend]
        omega
      refine ⟨PageManager.allocate_short fun hwhole => ?_, ?_⟩
      · rw [hstored] at hwhole
        omega
      · rw [hstored]
        omega
  | cut stored =>
      have hsome : stored ≠ 0 := htorn
      refine ⟨PageManager.allocate_short fun hwhole => WriteOutcome.noConfusion hwhole.1, ?_⟩
      rw [File.stored, himage, hend]
      omega

/-- One call whose allocation stops half way leaves a file that is not usable. -/
theorem not_usable_perform (h : session.pages.Holds session.images)
    (htorn : ¬session.Whole call) : ¬(session.perform call).Usable := by
  cases call with
  | read id => exact absurd trivial htorn
  | write page => exact absurd trivial htorn
  | allocate outcome =>
      intro husable
      obtain ⟨hresult, hstored⟩ := stored_of_torn h htorn
      have hcount := PageManager.allocate_error hresult
      have hbytes := PageManager.allocate_bytes outcome session.pages
      have hlength := husable.length_eq
      have hbefore := h.length_eq
      have himage := length_emptyImage session.pages.pageCount
      have hpos : 0 < pageSize := by decide
      rw [perform] at hlength
      cases hallocate : session.pages.allocate outcome with
      | mk result pages =>
          rw [hallocate] at hresult hcount hbytes hlength
          obtain rfl : result = .error .io := hresult
          dsimp only at hlength hcount hbytes
          rw [hbytes, hcount, List.length_append, List.length_take, hbefore, himage] at hlength
          omega

/-- What is promised under an allocated id stays until the page is written. -/
theorem perform_promise {id : PageId} (hid : id.toNat < session.images.length)
    (hcall : ∀ page, call = .write page → page.id ≠ id) :
    id.toNat < (session.perform call).images.length ∧
      (session.perform call).images[id.toNat]? = session.images[id.toNat]? := by
  cases call with
  | read id => exact ⟨hid, rfl⟩
  | write page =>
      have hother : page.id.toNat ≠ id.toNat := fun hsame =>
        hcall page rfl (UInt64.toNat_inj.mp hsame)
      rw [perform]
      split
      · exact ⟨by simpa using hid, List.getElem?_set_ne hother⟩
      · exact ⟨hid, rfl⟩
  | allocate outcome =>
      rw [perform]
      split
      · exact ⟨by simpa using Nat.lt_succ_of_lt hid, List.getElem?_append_left hid⟩
      · exact ⟨hid, rfl⟩

theorem after_promise {id : PageId} (hid : id.toNat < session.images.length)
    (hcalls : ∀ page, .write page ∈ calls → page.id ≠ id) :
    (session.after calls).images[id.toNat]? = session.images[id.toNat]? := by
  induction calls generalizing session with
  | nil => rfl
  | cons call calls ih =>
      have hcall : ∀ page, call = .write page → page.id ≠ id :=
        fun page hwrite => hcalls page (List.mem_cons.mpr (.inl hwrite.symm))
      obtain ⟨hlt, hfirst⟩ := perform_promise hid hcall
      rw [after_cons, ih hlt fun page hpage => hcalls page (List.mem_cons_of_mem _ hpage), hfirst]

/-- An allocation that succeeds promises the empty page. -/
theorem allocate_promise {outcome : WriteOutcome} {id : PageId}
    (hcount : session.pages.pageCount = session.images.length)
    (hok : (session.pages.allocate outcome).1 = .ok id) :
    id.toNat < (session.perform (.allocate outcome)).images.length ∧
      readImage (session.perform (.allocate outcome)).images id = .ok (Page.new id) := by
  have hid := (PageManager.allocate_id hok).trans hcount
  have hnumber : UInt64.ofNat id.toNat = id := UInt64.ofNat_toNat
  rw [perform]
  cases hallocate : session.pages.allocate outcome with
  | mk result pages =>
      rw [hallocate] at hok
      obtain rfl : result = .ok id := hok
      have hat : (session.images ++ [emptyImage id.toNat])[(Page.new id).id.toNat]? =
          some (emptyImage id.toNat) := by
        rw [show (Page.new id).id = id from rfl, hid, List.getElem?_concat_length]
      have hpage : (Page.new id).toBytes = .ok (emptyImage id.toNat) := by
        rw [← emptyImage_eq, hnumber]
      refine ⟨by simp [hid], readImage_at hat hpage⟩

theorem readImage_congr {images others : List Bytes} {id : PageId}
    (h : images[id.toNat]? = others[id.toNat]?) : readImage images id = readImage others id := by
  rw [readImage, readImage, h]

/-- A session that is usable in all its states reads what it has allocated. -/
theorem staysUsable_of_usable
    (h : ∀ before rest, calls = before ++ rest → (session.after before).Usable) :
    session.StaysUsable calls := by
  refine ⟨h, ?_⟩
  intro before outcome between rest id hsplit hok hunwritten
  have hstart := h before (.allocate outcome :: between ++ rest) (by rw [hsplit]; simp)
  have hend := h (before ++ .allocate outcome :: between) rest hsplit
  obtain ⟨hlt, hempty⟩ := allocate_promise hstart.count hok
  have hkept := after_promise hlt hunwritten
  rw [after_append, after_cons] at hend ⊢
  rw [hend.read, readImage_congr hkept, hempty]

/-- Whole allocations keep the file and the promise together over a run. -/
theorem holds_after (hstart : session.pages.Holds session.images)
    (hwhole : Along step Whole calls session) :
    (session.after calls).pages.Holds (session.after calls).images := by
  have hpreserved : ∀ {state : PageSession} {call : PageCall} {next : PageSession},
      state.pages.Holds state.images → Whole state call → step state call = some next →
        next.pages.Holds next.images := by
    intro state call next hstate hcall hstep
    obtain rfl := Option.some.inj hstep
    exact holds_perform hstate hcall
  exact run_guarded hpreserved hstart hwhole (run_step calls session)

/-- A session in which a page file is usable in every state is one whose allocations are whole,
and the other way round. -/
theorem usable_iff_whole (hstart : session.pages.Holds session.images) :
    (∀ before rest, calls = before ++ rest → (session.after before).Usable) ↔
      Along step Whole calls session := by
  constructor
  · intro husable
    induction calls generalizing session with
    | nil => exact trivial
    | cons call calls ih =>
        have hwhole : session.Whole call := by
          by_contra htorn
          exact not_usable_perform hstart htorn (husable [call] calls rfl)
        refine ⟨hwhole, ih (holds_perform hstart hwhole) fun before rest hsplit => ?_⟩
        exact husable (call :: before) rest (by rw [hsplit, List.cons_append])
  · rintro hwhole before rest rfl
    have hbefore := (hwhole.append (run_step before session)).1
    exact usable_of_holds (holds_after hstart hbefore)

/-- A session on a page file that was opened stays usable exactly when every allocation whose
write fails has stored nothing. -/
theorem staysUsable_iff_whole {file : File} {pages : PageManager} {images : List Bytes}
    (hopen : PageManager.openFile file = .ok pages) (himages : Blocks pageSize images file.bytes)
    (hfits : file.bytes.length ≤ maxFileLength) (calls : List PageCall) :
    StaysUsable calls ⟨pages, images⟩ ↔ Along step Whole calls ⟨pages, images⟩ := by
  obtain ⟨hopened, hholds⟩ := PageManager.holds_openFile himages hfits
  obtain rfl := Except.ok.inj (hopen.symm.trans hopened)
  rw [← usable_iff_whole hholds]
  exact ⟨StaysUsable.usable, staysUsable_of_usable⟩

/-- A fresh page file: one allocation that fails without storing anything, and one that
succeeds. -/
theorem staysUsable_iff_whole_untorn :
    StaysUsable [.allocate (.cut 0), .allocate .complete] ⟨⟨⟨[], 0, 0⟩, 0⟩, []⟩ := by
  have hopen : PageManager.openFile ⟨[], 0, 0⟩ = .ok ⟨⟨[], 0, 0⟩, 0⟩ := rfl
  apply (staysUsable_iff_whole hopen (Blocks.nil pageSize) (by decide) _).mpr
  have hbytes := PageManager.allocate_bytes (.cut 0) ⟨⟨[], 0, 0⟩, 0⟩
  rw [File.stored, Nat.zero_min, List.take_zero] at hbytes
  have hresult : ((PageManager.mk ⟨[], 0, 0⟩ 0).allocate (.cut 0)).1 = .error .io :=
    PageManager.allocate_short fun hwhole => WriteOutcome.noConfusion hwhole.1
  refine ⟨rfl, ?_, trivial⟩
  simp only [Whole, perform]
  cases hallocate : (PageManager.mk ⟨[], 0, 0⟩ 0).allocate (.cut 0) with
  | mk result pages =>
      rw [hallocate] at hbytes hresult
      obtain rfl : result = .error .io := hresult
      dsimp only at hbytes ⊢
      rw [hbytes]
      decide

/-- An allocation on a fresh page file fails after one byte. The next one succeeds, and the file
it leaves cannot be opened. -/
theorem torn_allocation_misaligns_file :
    ∃ torn last, (PageManager.mk ⟨[], 0, 0⟩ 0).allocate (.cut 1) = (.error .io, torn) ∧
      torn.allocate .complete = (.ok 0, last) ∧
      PageManager.openFile last.file =
        corruption "page file length 4097 is not a multiple of 4096" ∧
      ¬StaysUsable [.allocate (.cut 1), .allocate .complete] ⟨⟨⟨[], 0, 0⟩, 0⟩, []⟩ := by
  have hshort : ((PageManager.mk ⟨[], 0, 0⟩ 0).allocate (.cut 1)).1 = .error .io :=
    PageManager.allocate_short fun hwhole => WriteOutcome.noConfusion hwhole.1
  have hcount := PageManager.allocate_error hshort
  have hbytes := PageManager.allocate_bytes (.cut 1) ⟨⟨[], 0, 0⟩, 0⟩
  cases htorn : (PageManager.mk ⟨[], 0, 0⟩ 0).allocate (.cut 1) with
  | mk result torn =>
      rw [htorn] at hshort hcount hbytes
      obtain rfl : result = .error .io := hshort
      dsimp only at hcount hbytes
      have hlength : torn.file.bytes.length = 1 := by
        rw [hbytes, List.nil_append, List.length_take, length_emptyImage]
        rw [File.stored, length_emptyImage]
        decide
      have hroom : torn.file.bytes.length + pageSize ≤ maxFileLength := by
        rw [hlength]
        decide
      obtain ⟨hnext, hfile⟩ := PageManager.allocate_room hroom (by rw [hcount]; decide)
      have hlast : (torn.allocate .complete).2.file.bytes.length = 4097 := by
        rw [hfile, List.length_append, hlength, length_emptyImage]
        rfl
      have hzero : (torn.allocate .complete).1 = .ok 0 := by
        rw [hnext, hcount]
        rfl
      refine ⟨torn, (torn.allocate .complete).2, rfl, by rw [← hzero], ?_, fun hstays => ?_⟩
      · rw [PageManager.openFile_misaligned (by rw [hlast]; decide), hlast]
        rfl
      · have husable := hstays.usable [.allocate (.cut 1)] [.allocate .complete] rfl
        have hpages : (PageSession.after [.allocate (.cut 1)] ⟨⟨⟨[], 0, 0⟩, 0⟩, []⟩).pages =
            torn := by
          simp only [after, List.foldl_cons, List.foldl_nil, perform, htorn]
        have hwhole := husable.length_eq
        rw [hpages, hlength, hcount] at hwhole
        omega

end PageSession

end NovaBase.Storage
