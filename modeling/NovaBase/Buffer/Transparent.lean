import NovaBase.Buffer.Coherent
import NovaBase.Lib.Run
import NovaBase.Storage.PageHistory

/-!
# The buffer pool is transparent

Over any calls, the pages that a pool shows are changed by the caller through
`getMut` and by allocation only, whatever the pool evicts and reads again.
-/

namespace NovaBase.Buffer

open Lib Lib.Bytes Storage

/-- One call of a pool. `change` is what the caller does to the page it got. -/
inductive PoolCall
  | allocate
  | get (id : PageId)
  | getMut (id : PageId) (change : Page → Page)
  | pin (id : PageId)
  | unpin (id : PageId)
  | flushAll

namespace BufferPool

/-- The pool after a call with I/O succeeding. -/
def after {α : Type} : Result α × BufferPool → Option BufferPool
  | (.error .io, _) => none
  | (_, next) => some next

/-- The pool after a call, unless I/O fails. -/
def step (pool : BufferPool) : PoolCall → Option BufferPool
  | .allocate => after (pool.allocate .perfect)
  | .get id => after (pool.get .perfect id)
  | .getMut id change => after (pool.mutate .perfect id change)
  | .pin id => after (pool.pin .perfect id)
  | .unpin id => after (pool.unpin id)
  | .flushAll => after (pool.flushAll .perfect)

/-- The caller keeps the id of a page, and leaves a page that can be encoded. -/
def Legal (pool : BufferPool) : PoolCall → Prop
  | .getMut id change =>
      match pool.content id with
      | .ok page => (change page).id = id ∧ (change page).toBytes.isOk = true
      | .error _ => True
  | _ => True

instance (pool : BufferPool) : ∀ call, Decidable (pool.Legal call)
  | .getMut id change =>
      match h : pool.content id with
      | .ok page =>
          decidable_of_iff ((change page).id = id ∧ (change page).toBytes.isOk = true)
            (by simp [Legal, h])
      | .error _ => .isTrue (by simp [Legal, h])
  | .allocate | .get _ | .pin _ | .unpin _ | .flushAll => .isTrue trivial

/-- What the pages are after a call: the caller has changed one, or there is a new empty one. -/
def expected (pool : BufferPool) : PoolCall → PageId → Result Page
  | .allocate =>
      match (pool.allocate .perfect).1 with
      | .ok id => Function.update pool.content id (.ok (Page.new id))
      | .error _ => pool.content
  | .getMut id change =>
      match (pool.getMut .perfect id).1 with
      | .ok page => Function.update pool.content id (.ok (change page))
      | .error _ => pool.content
  | _ => pool.content

variable {pool next last : BufferPool} {images : List Bytes} {id : PageId} {frame : Frame}

theorem step_of {α : Type} {result : Result α × BufferPool} (h : after result = some next) :
    result.2 = next := by
  obtain ⟨answer, pool⟩ := result
  cases answer with
  | ok value => simpa [after] using h
  | error cause => cases cause <;> simp_all [after]

theorem Sound.access {α : Type} (h : pool.Sound) (id : PageId)
    (use : Frame → Result (α × Frame)) :
    ∃ next, pool.Keeps next ∧
      ((∃ cause, pool.found id = .error cause ∧
          pool.access .perfect id use = (.error cause, next)) ∨
        ∃ frame, pool.found id = .ok frame.page ∧ next.frames.get id = some frame ∧
          pool.access .perfect id use =
            match use frame with
            | .error cause => (.error cause, next)
            | .ok (answer, new) =>
                (.ok answer, { next with frames := next.frames.insert id new })) := by
  obtain ⟨next, hkeeps, ⟨cause, hfound, hload⟩ | ⟨frame, hfound, hload, hframe⟩⟩ := h.load id
  · refine ⟨next, hkeeps, .inl ⟨cause, hfound, ?_⟩⟩
    simp only [BufferPool.access, hload]
  · refine ⟨next, hkeeps, .inr ⟨frame, hfound, hframe, ?_⟩⟩
    cases huse : use frame with
    | error cause => simp only [BufferPool.access, hload, hframe, huse]
    | ok answer => simp only [BufferPool.access, hload, hframe, huse]

/-- `get` answers what a call finds, and keeps everything. -/
theorem Sound.get (h : pool.Sound) (id : PageId) :
    ∃ next, pool.get .perfect id = (pool.found id, next) ∧ pool.Keeps next := by
  obtain ⟨next, hkeeps, ⟨cause, hfound, hget⟩ | ⟨frame, hfound, hframe, hget⟩⟩ :=
    h.access id fun frame => .ok (frame.page, frame)
  · exact ⟨next, by rw [BufferPool.get, hget, hfound], hkeeps⟩
  · refine ⟨next, ?_, hkeeps⟩
    rw [BufferPool.get, hget, hfound]
    simp only [SortedMap.insert_of_get hframe]

/-- `getMut` finds what `get` does, and leaves the page in a dirty frame. -/
theorem Sound.getMut (h : pool.Sound) (id : PageId) :
    ∃ next, pool.getMut .perfect id = (pool.found id, next) ∧ pool.Keeps next ∧
      ∀ page, pool.found id = .ok page →
        ∃ frame, next.frames.get id = some frame ∧ frame.page = page ∧ frame.dirty = true := by
  obtain ⟨next, hkeeps, ⟨cause, hfound, hget⟩ | ⟨frame, hfound, hframe, hget⟩⟩ :=
    h.access id fun frame => .ok (frame.page, { frame with dirty := true })
  · refine ⟨next, by rw [BufferPool.getMut, hget, hfound], hkeeps, fun page hpage => ?_⟩
    simp [hfound] at hpage
  · have hset := hkeeps.sound.keepFrame { frame with dirty := true } hframe rfl
      (by simp) rfl
    refine ⟨_, by rw [BufferPool.getMut, hget, hfound], hkeeps.trans hset, fun page hpage => ?_⟩
    refine ⟨{ frame with dirty := true }, by simp, ?_, rfl⟩
    exact Except.ok.inj (hfound.symm.trans hpage)

/-- A pin shows the same, and unpins nothing. -/
theorem Sound.pin (h : pool.Sound) (id : PageId) :
    pool.Shows (pool.pin .perfect id).2 ∧
      ∀ other, pool.pins other ≤ (pool.pin .perfect id).2.pins other := by
  have hmono {next : BufferPool} (hkeeps : pool.Keeps next) (other : PageId) :
      pool.pins other ≤ next.pins other := by
    rcases Nat.eq_zero_or_pos (pool.pins other) with hzero | hpos
    · omega
    · exact (hkeeps.pinned other hpos).ge
  rw [BufferPool.pin]
  obtain ⟨next, hkeeps, ⟨cause, -, hpin⟩ | ⟨frame, -, hframe, hpin⟩⟩ := h.access id fun frame =>
    if frame.pins + 1 < 2 ^ 64 then .ok ((), { frame with pins := frame.pins + 1 })
    else .error (.invalidState "page pin count overflow")
  · rw [hpin]
    exact ⟨hkeeps.toShows, hmono hkeeps⟩
  · rw [hpin]
    by_cases hroom : frame.pins + 1 < 2 ^ 64
    · rw [if_pos hroom]
      refine ⟨hkeeps.toShows.trans (hkeeps.sound.setFrame _ hframe rfl Or.inl), fun other => ?_⟩
      refine (hmono hkeeps other).trans ?_
      by_cases hsame : id = other
      · subst hsame
        simp [pins, hframe]
      · simp [pins, hsame]
    · rw [if_neg hroom]
      exact ⟨hkeeps.toShows, hmono hkeeps⟩

/-- Releasing a pin shows the same, and leaves every frame in place. -/
theorem Sound.unpin (h : pool.Sound) (id : PageId) :
    pool.Shows (pool.unpin id).2 ∧
      ∀ other, (pool.frames.get other).isSome → ((pool.unpin id).2.frames.get other).isSome := by
  cases hframe : pool.frames.get id with
  | none =>
      simp only [BufferPool.unpin, hframe]
      exact ⟨h.keeps.toShows, fun _ hsome => hsome⟩
  | some frame =>
      simp only [BufferPool.unpin, hframe]
      cases hpins : frame.pins with
      | zero => exact ⟨h.keeps.toShows, fun _ hsome => hsome⟩
      | succ pins =>
          refine ⟨h.setFrame _ hframe rfl Or.inl, fun other hother => ?_⟩
          simp only [SortedMap.get_insert]
          split
          · rfl
          · exact hother

/-- The frame after its page has been written. -/
def cleaned (frame : Frame) : Frame := { frame with dirty := false }

/-- Writing a frame shows the same, and cleans that frame only. -/
theorem Sound.flushFrame (h : pool.Sound) (id : PageId) :
    ∃ next, pool.flushFrame .complete id = (.ok (), next) ∧ pool.Keeps next ∧
      ∀ other, next.frames.get other =
        if other = id then (pool.frames.get other).map cleaned else pool.frames.get other := by
  cases hframe : pool.frames.get id with
  | none =>
      refine ⟨pool, by simp only [BufferPool.flushFrame, hframe], h.keeps, fun other => ?_⟩
      split
      · rename_i hsame
        rw [hsame, hframe]
        rfl
      · rfl
  | some frame =>
      cases hdirty : frame.dirty with
      | false =>
          refine ⟨pool, ?_, h.keeps, fun other => ?_⟩
          · simp only [BufferPool.flushFrame, hframe, hdirty, Bool.false_eq_true, if_false]
          · split
            · rename_i hsame
              rw [hsame, hframe, Option.map_some, cleaned, ← hdirty]
            · rfl
      | true =>
          obtain ⟨pages, hwrite, hwritten, hdisk⟩ := h.write hframe
          have hset := hwritten.sound.keepFrame (cleaned frame) hframe rfl
            (fun _ => .inr hdisk) rfl
          have hnoted := hset.sound.note pool.clock
            { pool.stats with writes := pool.stats.writes + 1 }
          refine ⟨_, ?_, hwritten.trans (hset.trans hnoted), fun other => ?_⟩
          · simp only [BufferPool.flushFrame, hframe, hdirty, if_true, hwrite]
            rfl
          · simp only [SortedMap.get_insert]
            by_cases hsame : id = other
            · subst hsame
              simp [hframe]
            · rw [if_neg hsame, if_neg (Ne.symm hsame)]

/-- Writing frames shows the same, and cleans them. -/
theorem Sound.flushFrames (h : pool.Sound) (ids : List PageId) :
    ∃ next, pool.flushFrames .perfect ids = (.ok (), next) ∧ pool.Keeps next ∧
      ∀ other, next.frames.get other =
        if other ∈ ids then (pool.frames.get other).map cleaned else pool.frames.get other := by
  induction ids generalizing pool with
  | nil => exact ⟨pool, rfl, h.keeps, fun other => by simp⟩
  | cons id ids ih =>
      obtain ⟨middle, hfirst, hkeeps, hframe⟩ := h.flushFrame id
      obtain ⟨next, hrest, hmore, hframes⟩ := ih hkeeps.sound
      refine ⟨next, ?_, hkeeps.trans hmore, fun other => ?_⟩
      · simp only [BufferPool.flushFrames, Io.perfect] at hrest ⊢
        simp only [hfirst, hrest]
      · rw [hframes, hframe]
        by_cases hsame : other = id
        · subst hsame
          cases pool.frames.get other <;> simp [cleaned]
        · simp [hsame]

/-- Flushing shows the same, and puts every page on disk. -/
theorem Sound.flushAll (h : pool.Sound) :
    ∃ next, pool.flushAll .perfect = (.ok (), next) ∧ pool.Keeps next ∧
      ∀ id, (next.pages.read id).1 = pool.content id := by
  obtain ⟨middle, hflush, hkeeps, hframes⟩ := h.flushFrames pool.frames.keys
  have hdisk : ∀ id, (middle.pages.read id).1 = pool.content id := by
    intro id
    rw [← hkeeps.content]
    cases hframe : middle.frames.get id with
    | none => rw [content_of_none hframe]
    | some frame =>
        rw [content_of_frame hframe]
        refine hkeeps.sound.disk_of_clean hframe ?_
        rw [hframes] at hframe
        split at hframe
        · obtain ⟨old, -, rfl⟩ := Option.map_eq_some_iff.mp hframe
          rfl
        · rename_i hkey
          have hmem := pool.frames.mem_entries.mpr hframe
          exact absurd (List.mem_map_of_mem hmem) hkey
  obtain ⟨hsynced, hread⟩ := hkeeps.sound.sync
  refine ⟨_, ?_, hkeeps.trans hsynced, fun id => (hread id).trans (hdisk id)⟩
  simp only [BufferPool.flushAll, hflush]
  rfl

/-- A change by the caller that keeps the id and can be encoded changes that page only. -/
theorem Sound.setPage (h : pool.Sound) (hframe : pool.frames.get id = some frame)
    (hdirty : frame.dirty = true) {page : Page} (hid : page.id = id) (hfits : page.Fits) :
    (pool.setPage id page).Sound ∧
      (pool.setPage id page).content = Function.update pool.content id (.ok page) ∧
      (pool.setPage id page).capacity = pool.capacity ∧
      (pool.setPage id page).pages = pool.pages ∧
      ∀ other, (pool.setPage id page).pins other = pool.pins other := by
  obtain ⟨images, hcoherent⟩ := h
  have hlen : (pool.frames.insert id { frame with page := page }).entries.length = pool.len :=
    Entries.length_insert_of_get pool.frames.sorted _ hframe
  simp only [BufferPool.setPage, hframe]
  refine ⟨⟨images, hcoherent.holds, hcoherent.positive, hlen.trans_le hcoherent.bounded, ?_, ?_⟩,
    funext fun other => ?_, trivial, trivial, fun other => ?_⟩
  · intro other found hfound
    rcases SortedMap.get_insert_eq_some.mp hfound with ⟨rfl, rfl⟩ | ⟨-, hold⟩
    · exact ⟨hid, hfits, (hcoherent.placed hframe).2.2⟩
    · exact hcoherent.placed hold
  · intro other found hfound hclean
    rcases SortedMap.get_insert_eq_some.mp hfound with ⟨rfl, rfl⟩ | ⟨-, hold⟩
    · simp [hdirty] at hclean
    · exact hcoherent.clean hold hclean
  · by_cases hsame : id = other
    · subst hsame
      simp [content]
    · rw [Function.update_of_ne (Ne.symm hsame)]
      simp [content, hsame]
  · by_cases hsame : id = other
    · subst hsame
      simp [pins, hframe]
    · simp [pins, hsame]

/-- A page added on disk is shown as an empty page. -/
theorem Coherent.grow (h : pool.Coherent images) {pages : PageManager}
    (hpages : pages.Holds (images ++ [emptyImage images.length])) :
    Sound { pool with pages := pages } ∧ (UInt64.ofNat images.length).toNat = images.length ∧
      pool.content (UInt64.ofNat images.length) =
        .error (.notFound s!"page {(UInt64.ofNat images.length).toNat}") ∧
      content { pool with pages := pages } = Function.update pool.content
        (UInt64.ofNat images.length) (.ok (Page.new (UInt64.ofNat images.length))) := by
  have hcount : images.length < 2 ^ 64 := by
    have hlt := h.holds.count_lt
    rw [h.holds.count] at hlt
    omega
  have hnumber : (UInt64.ofNat images.length).toNat = images.length := by
    rw [UInt64.toNat_ofNat']
    exact Nat.mod_eq_of_lt hcount
  have hread := readImage_append hcount
  have hfree : pool.frames.get (UInt64.ofNat images.length) = none := by
    rw [Option.eq_none_iff_forall_ne_some]
    intro frame hframe
    have hlt := (h.placed hframe).2.2
    omega
  have hnext : Coherent { pool with pages := pages } (images ++ [emptyImage images.length]) := by
    refine ⟨hpages, h.positive, h.bounded, fun hframe => ?_, fun {other found} hframe hclean => ?_⟩
    · obtain ⟨hid, hfits, hlt⟩ := h.placed hframe
      exact ⟨hid, hfits, by rw [List.length_append]; omega⟩
    · have hne : other ≠ UInt64.ofNat images.length := by
        rintro rfl
        exact absurd (hframe.symm.trans hfree) (by simp)
      rw [hread, if_neg hne, h.clean hframe hclean]
  refine ⟨⟨_, hnext⟩, hnumber, ?_, funext fun other => ?_⟩
  · rw [h.content_eq, hfree, readImage, List.getElem?_eq_none hnumber.ge]
  · rw [hnext.content_eq, hread]
    by_cases hsame : other = UInt64.ofNat images.length
    · subst hsame
      simp [hfree]
    · rw [Function.update_of_ne hsame, h.content_eq, if_neg hsame]

/-- The pool shows one more page, which is empty and has a frame, and pinned pages stay. -/
structure Grows (pool : BufferPool) (id : PageId) (next : BufferPool) : Prop where
  sound : next.Sound
  number : id.toNat = pool.pages.pageCount
  fresh : pool.content id = .error (.notFound s!"page {id.toNat}")
  content : next.content = Function.update pool.content id (.ok (Page.new id))
  capacity : next.capacity = pool.capacity
  pageCount : next.pages.pageCount = pool.pages.pageCount + 1
  pinned : ∀ other, 0 < pool.pins other → next.pins other = pool.pins other
  buffered : (next.frames.get id).isSome

/-- An allocation adds an empty page; without a frame for it, or room for it, none is made. -/
theorem Sound.allocate (h : pool.Sound) :
    (pool.Stuck ∧ pool.allocate .perfect = (.error allPinned, pool)) ∨
    ((pool.allocate .perfect).1 = .error .io ∧
      maxFileLength < (pool.pages.pageCount + 1) * pageSize) ∨
    ∃ id next, pool.allocate .perfect = (.ok id, next) ∧ pool.Grows id next := by
  rcases h.makeRoom with ⟨hstuck, hroom⟩ | ⟨-, middle, hroom, hkeeps, hlen, -⟩
  · refine .inl ⟨hstuck, ?_⟩
    simp only [BufferPool.allocate, eviction_perfect, hroom]
  · obtain ⟨images, hcoherent⟩ := hkeeps.sound
    have hsame : middle.content = pool.content := funext hkeeps.content
    have hcount : images.length = pool.pages.pageCount :=
      hcoherent.holds.count.symm.trans hkeeps.pageCount
    rcases hcoherent.holds.allocate .complete with
      ⟨pages, hallocate, hpages⟩ | ⟨pages, hallocate, -, hfull⟩
    · obtain ⟨hsound, hnumber, hnew, hcontent⟩ := hcoherent.grow hpages
      rw [hsame] at hnew hcontent
      have hfound : found { middle with pages := pages } (UInt64.ofNat images.length) =
          .ok (Page.new (UInt64.ofNat images.length)) := by
        rw [found, if_neg fun hboth => hlen.ne hboth.2.1, hcontent, Function.update_self]
      obtain ⟨next, hloaded, ⟨cause, herror, -⟩ | ⟨frame, -, hload, hframe⟩⟩ :=
        hsound.load (UInt64.ofNat images.length)
      · simp [hfound] at herror
      · refine .inr (.inr ⟨UInt64.ofNat images.length, next, ?_, ⟨hloaded.sound,
          hnumber.trans hcount, hnew, hcontent ▸ funext hloaded.content,
          hloaded.capacity.trans hkeeps.capacity, ?_, fun other hpins => ?_, by rw [hframe]; rfl⟩⟩)
        · simp only [BufferPool.allocate, eviction_perfect, hroom, allocation_perfect,
            hallocate, hload]
        · rw [hloaded.pageCount, hpages.count, List.length_append, List.length_singleton, hcount]
        · have hmiddle := hkeeps.pinned other hpins
          exact (hloaded.pinned other (hmiddle ▸ hpins)).trans hmiddle
    · refine .inr (.inl ⟨?_, hcount ▸ hfull rfl⟩)
      simp only [BufferPool.allocate, eviction_perfect, hroom, allocation_perfect, hallocate]

theorem content_of_found {page : Page} (h : pool.found id = .ok page) :
    pool.content id = .ok page := by
  rw [found] at h
  split at h
  · simp at h
  · exact h

theorem buffered_of_pins (h : 0 < pool.pins id) : (pool.frames.get id).isSome := by
  rw [pins] at h
  cases hframe : pool.frames.get id with
  | none => simp [hframe] at h
  | some frame => rfl

/-- A pool that opens a page file is sound. -/
theorem sound_openFile {file : File} {capacity : Nat}
    (hfits : file.bytes.length ≤ maxFileLength) (hopen : openFile file capacity = .ok pool) :
    pool.Sound ∧ pool.capacity = capacity := by
  simp only [openFile, bind_eq_ok, require_eq_ok, pure_eq_ok, Except.ok.injEq] at hopen
  obtain ⟨-, hcapacity, pages, hpages, rfl⟩ := hopen
  have haligned : file.bytes.length % pageSize = 0 := by
    by_contra hmisaligned
    rw [PageManager.openFile_misaligned hmisaligned] at hpages
    simp [corruption] at hpages
  have hlength : file.bytes.length = file.bytes.length / pageSize * pageSize := by
    rw [Nat.div_mul_cancel (Nat.dvd_of_mod_eq_zero haligned)]
  obtain ⟨images, hblocks, -⟩ := Blocks.exists_of_length hlength
  obtain ⟨hsame, hholds⟩ := PageManager.holds_openFile hblocks hfits
  obtain rfl := Except.ok.inj (hsame.symm.trans hpages)
  exact ⟨⟨images, hholds, Nat.pos_of_ne_zero hcapacity, Nat.zero_le _, by simp, by simp⟩, rfl⟩

/-- A legal call changes what is shown as expected, and gives up no pinned page. -/
theorem Sound.mutate (h : pool.Sound) {change : Page → Page}
    (hlegal : pool.Legal (.getMut id change)) :
    (pool.mutate .perfect id change).2.Sound ∧
      (pool.mutate .perfect id change).2.content = pool.expected (.getMut id change) ∧
      (pool.mutate .perfect id change).2.capacity = pool.capacity ∧
      ∀ other, 0 < pool.pins other →
        (pool.mutate .perfect id change).2.pins other = pool.pins other := by
  obtain ⟨next, hget, hkeeps, hframe⟩ := h.getMut id
  have hsame : next.content = pool.content := funext hkeeps.content
  simp only [BufferPool.mutate, expected, hget]
  cases hfound : pool.found id with
  | error cause => exact ⟨hkeeps.sound, hsame, hkeeps.capacity, hkeeps.pinned⟩
  | ok page =>
      obtain ⟨frame, hframe, -, hdirty⟩ := hframe page hfound
      simp only [Legal, content_of_found hfound] at hlegal
      obtain ⟨hid, hencoded⟩ := hlegal
      have hfits : (change page).Fits := by
        cases hbytes : (change page).toBytes with
        | error cause => simp [hbytes, Except.isOk, Except.toBool] at hencoded
        | ok bytes => exact Page.fits_of_toBytes hbytes
      obtain ⟨hsound, hcontent, hcapacity, -, hpins⟩ :=
        hkeeps.sound.setPage hframe hdirty hid hfits
      rw [hsame] at hcontent
      refine ⟨hsound, hcontent, hcapacity.trans hkeeps.capacity, fun other hother => ?_⟩
      rw [hpins, hkeeps.pinned other hother]

theorem Sound.step {call : PoolCall} (h : pool.Sound) (hlegal : pool.Legal call)
    (hstep : pool.step call = some next) :
    next.Sound ∧ next.content = pool.expected call ∧ next.capacity = pool.capacity ∧
      ∀ id, 0 < pool.pins id → (next.frames.get id).isSome := by
  have hkept : ∀ {last : BufferPool}, pool.Keeps last →
      last.Sound ∧ last.content = pool.content ∧ last.capacity = pool.capacity ∧
        ∀ id, 0 < pool.pins id → (last.frames.get id).isSome := fun hkeeps =>
    ⟨hkeeps.sound, funext hkeeps.content, hkeeps.capacity, fun id hpins =>
      buffered_of_pins (hkeeps.pinned id hpins ▸ hpins)⟩
  cases call with
  | allocate =>
      rcases h.allocate with ⟨-, hallocate⟩ | ⟨hio, -⟩ | ⟨id, last, hallocate, hgrows⟩
      · obtain rfl : pool = next := by
          simpa [BufferPool.step, hallocate, allPinned, after] using hstep
        have hexpected : pool.expected .allocate = pool.content := by
          simp only [expected, hallocate]
        rw [hexpected]
        exact hkept h.keeps
      · cases hallocate : pool.allocate .perfect with
        | mk result last =>
            obtain rfl : result = .error .io := by rwa [hallocate] at hio
            simp [BufferPool.step, hallocate, after] at hstep
      · obtain rfl : last = next := by simpa [BufferPool.step, hallocate, after] using hstep
        simp only [expected, hallocate]
        exact ⟨hgrows.sound, hgrows.content, hgrows.capacity, fun id hid =>
          buffered_of_pins (hgrows.pinned id hid ▸ hid)⟩
  | get id =>
      obtain ⟨last, hget, hkeeps⟩ := h.get id
      obtain rfl := step_of hstep
      rw [hget]
      exact hkept hkeeps
  | getMut id change =>
      obtain rfl := step_of hstep
      obtain ⟨hsound, hcontent, hcapacity, hpins⟩ := h.mutate hlegal
      exact ⟨hsound, hcontent, hcapacity, fun id hid => buffered_of_pins (hpins id hid ▸ hid)⟩
  | pin id =>
      obtain rfl := step_of hstep
      obtain ⟨hshows, hpins⟩ := h.pin id
      exact ⟨hshows.sound, funext hshows.content, hshows.capacity, fun other hother =>
        buffered_of_pins (hother.trans_le (hpins other))⟩
  | unpin id =>
      obtain rfl := step_of hstep
      obtain ⟨hshows, hframes⟩ := h.unpin id
      exact ⟨hshows.sound, funext hshows.content, hshows.capacity, fun other hother =>
        hframes other (buffered_of_pins hother)⟩
  | flushAll =>
      obtain ⟨last, hflush, hkeeps, -⟩ := h.flushAll
      obtain rfl := step_of hstep
      rw [hflush]
      exact hkept hkeeps

/-- A pool is sound after any legal calls. -/
theorem Sound.run {calls : List PoolCall} (h : pool.Sound)
    (hlegal : Along BufferPool.step Legal calls pool)
    (hrun : Lib.run BufferPool.step calls pool = some last) :
    last.Sound ∧ last.capacity = pool.capacity := by
  have hkeep : ∀ {state : BufferPool} {call next}, state.Sound ∧ state.capacity = pool.capacity →
      state.Legal call → state.step call = some next →
      next.Sound ∧ next.capacity = pool.capacity := by
    rintro state call next ⟨hsound, hcapacity⟩ hcall hstep
    obtain ⟨hnext, -, hsame, -⟩ := hsound.step hcall hstep
    exact ⟨hnext, hsame.trans hcapacity⟩
  have hstart : pool.Sound ∧ pool.capacity = pool.capacity := ⟨h, rfl⟩
  exact run_guarded hkeep hstart hlegal hrun

/-- The page file that a sound pool leaves reads what the pool showed. -/
theorem Sound.readPage (h : pool.Sound) (id : PageId) :
    readPage pool.pages.file id = (pool.pages.read id).1 := by
  obtain ⟨images, hcoherent⟩ := h
  obtain ⟨hopen, hholds⟩ :=
    PageManager.holds_openFile hcoherent.holds.blocks hcoherent.holds.fits
  rw [Storage.readPage, hopen, ok_bind, hholds.read_eq, hcoherent.holds.read_eq]

end BufferPool

open BufferPool

/-- Take any legal calls of a pool that was opened on a page file, and the pool after them. It has
at most its capacity of frames. A further call, if legal, changes the content of a page that the
caller changes, or adds the empty page that was allocated, and leaves all other content; it keeps
the pinned pages in their frames. Reading gives the content of a page, unless every frame is pinned
and the page has none, and getting a page to change it gives the same. An allocation that is refused
leaves the disk as it is. Flushing succeeds,
and every page on disk is then its content; so it is in the file that a shutdown leaves. -/
theorem buffer_pool_transparent {file : File} {capacity : Nat} {start pool : BufferPool}
    {calls : List PoolCall} (hfits : file.bytes.length ≤ maxFileLength)
    (hopen : BufferPool.openFile file capacity = .ok start)
    (hlegal : Along BufferPool.step Legal calls start)
    (hrun : run BufferPool.step calls start = some pool) :
    pool.len ≤ capacity ∧
    (∀ call next, pool.Legal call → pool.step call = some next →
      next.content = pool.expected call ∧
      ∀ id, 0 < pool.pins id → (next.frames.get id).isSome) ∧
    (∀ id, (pool.get .perfect id).1 =
      if pool.frames.get id = none ∧ pool.Stuck then .error allPinned else pool.content id) ∧
    (∀ id, (pool.getMut .perfect id).1 = (pool.get .perfect id).1) ∧
    (∀ cause next, pool.allocate .perfect = (.error cause, next) → cause ≠ .io →
      next.pages = pool.pages) ∧
    (∀ id next, pool.allocate .perfect = (.ok id, next) →
      pool.content id = .error (.notFound s!"page {id.toNat}") ∧
      next.pages.pageCount = pool.pages.pageCount + 1) ∧
    (∃ next, pool.flushAll .perfect = (.ok (), next) ∧
      ∀ id, (next.pages.read id).1 = pool.content id) ∧
    ∃ left, pool.shutdown .perfect = (.ok (), left) ∧ ∀ id, readPage left id = pool.content id := by
  obtain ⟨hstart, rfl⟩ := sound_openFile hfits hopen
  obtain ⟨hsound, hcapacity⟩ := hstart.run hlegal hrun
  obtain ⟨flushed, hflush, hkeeps, hdisk⟩ := hsound.flushAll
  refine ⟨?_, fun call next hcall hstep => ?_, fun id => ?_, fun id => ?_,
    fun cause next hallocate hio => ?_, fun id next hallocate => ?_, ⟨flushed, hflush, hdisk⟩,
    flushed.pages.file, ?_, fun id => ?_⟩
  · obtain ⟨images, hcoherent⟩ := hsound
    exact hcapacity ▸ hcoherent.bounded
  · obtain ⟨-, hcontent, -, hpins⟩ := hsound.step hcall hstep
    exact ⟨hcontent, hpins⟩
  · obtain ⟨next, hget, -⟩ := hsound.get id
    rw [hget, found]
  · obtain ⟨read, hget, -⟩ := hsound.get id
    obtain ⟨changed, hgetMut, -⟩ := hsound.getMut id
    rw [hget, hgetMut]
  · rcases hsound.allocate with ⟨-, hpinned⟩ | ⟨hfull, -⟩ | ⟨id, last, hok, -⟩
    · obtain ⟨-, rfl⟩ := Prod.mk.inj (hallocate.symm.trans hpinned)
      rfl
    · rw [hallocate] at hfull
      exact absurd (Except.error.inj hfull) hio
    · simp [hallocate] at hok
  · rcases hsound.allocate with ⟨-, hpinned⟩ | ⟨hfull, -⟩ | ⟨new, last, hok, hgrows⟩
    · simp [hallocate] at hpinned
    · simp [hallocate] at hfull
    · obtain ⟨hid, rfl⟩ := Prod.mk.inj (hallocate.symm.trans hok)
      obtain rfl := Except.ok.inj hid
      exact ⟨hgrows.fresh, hgrows.pageCount⟩
  · simp only [shutdown, hflush]
  · rw [hkeeps.sound.readPage, hdisk]

/-- A page is changed in the only frame, which is then needed for another page. -/
def evictedChange : List PoolCall :=
  [.allocate, .getMut 0 fun page => (page.insert [7]).2, .allocate]

/-- The page has been changed. -/
theorem changed_in_only_frame : ∃ start first second,
    BufferPool.openFile ⟨[], 0, 0⟩ 1 = .ok start ∧ start.step .allocate = some first ∧
      first.Legal (.getMut 0 fun page => (page.insert [7]).2) ∧
      first.step (.getMut 0 fun page => (page.insert [7]).2) = some second ∧ second.Sound ∧
      second.pages.pageCount = 1 ∧ second.content 0 = .ok ⟨0, [some [7]]⟩ := by
  obtain ⟨start, hopen, hlen, hcount⟩ : ∃ start, BufferPool.openFile ⟨[], 0, 0⟩ 1 = .ok start ∧
      start.len ≠ start.capacity ∧ start.pages.pageCount = 0 := ⟨_, rfl, by decide, rfl⟩
  obtain ⟨hstart, -⟩ := sound_openFile (Nat.zero_le _) hopen
  rcases hstart.allocate with ⟨hstuck, -⟩ | ⟨-, hfull⟩ | ⟨id, first, hfirst, hgrows⟩
  · exact absurd hstuck.1 hlen
  · rw [hcount] at hfull
    exact absurd hfull (by decide)
  obtain rfl : id = 0 := UInt64.toNat_inj.mp (hgrows.number.trans hcount)
  have hempty : first.content 0 = .ok (Page.new 0) := by rw [hgrows.content, Function.update_self]
  have hfound : first.found 0 = .ok (Page.new 0) := by
    rw [found, if_neg fun hboth => ?_, hempty]
    simpa [hboth.1] using hgrows.buffered
  have hlegal : first.Legal (.getMut 0 fun page => (page.insert [7]).2) := by
    simp only [Legal, hempty]
    decide +kernel
  obtain ⟨next, hget, hkeeps, -⟩ := hgrows.sound.getMut 0
  have hsecond : first.step (.getMut 0 fun page => (page.insert [7]).2) =
      some (next.setPage 0 ((Page.new 0).insert [7]).2) := by
    simp only [BufferPool.step, BufferPool.mutate, hget, hfound, after]
  have hpages : (next.setPage 0 ((Page.new 0).insert [7]).2).pages.pageCount = 1 := by
    have hsame : next.pages.pageCount = 1 :=
      calc
        next.pages.pageCount = first.pages.pageCount := hkeeps.pageCount
        _ = start.pages.pageCount + 1 := hgrows.pageCount
        _ = 1 := congrArg (· + 1) hcount
    rw [BufferPool.setPage]
    split
    · exact hsame
    · exact hsame
  obtain ⟨hsound, hchanged, -⟩ := hgrows.sound.step hlegal hsecond
  refine ⟨start, first, _, hopen, ?_, hlegal, hsecond, hsound, hpages, ?_⟩
  · simp only [BufferPool.step, hfirst, after]
  · rw [hchanged]
    simp only [expected, hget, hfound, Function.update_self]
    rfl

theorem evicted_change_is_kept : ∃ start pool left,
    BufferPool.openFile ⟨[], 0, 0⟩ 1 = .ok start ∧
    run BufferPool.step evictedChange start = some pool ∧ pool.len ≤ 1 ∧
    pool.shutdown .perfect = (.ok (), left) ∧ readPage left 0 = .ok ⟨0, [some [7]]⟩ := by
  obtain ⟨start, first, second, hopen, hfirst, hlegal, hsecond, hsound, hpages, hzero⟩ :=
    changed_in_only_frame
  obtain ⟨third, hthird⟩ : ∃ third, second.step .allocate = some third := by
    rcases hsound.allocate with ⟨-, hpinned⟩ | ⟨-, hfull⟩ | ⟨id, third, hok, -⟩
    · exact ⟨second, by simp only [BufferPool.step, hpinned, allPinned, after]⟩
    · rw [hpages] at hfull
      exact absurd hfull (by decide)
    · exact ⟨third, by simp only [BufferPool.step, hok, after]⟩
  have hkept : third.content 0 = .ok ⟨0, [some [7]]⟩ := by
    have hlast : second.Legal .allocate := trivial
    obtain ⟨-, hcontent, -⟩ := hsound.step hlast hthird
    rw [hcontent, expected]
    rcases hsound.allocate with ⟨-, hpinned⟩ | ⟨hio, -⟩ | ⟨id, last, hok, hnew⟩
    · rw [hpinned]
      exact hzero
    · rw [hio]
      exact hzero
    · rw [hok]
      have hother : (0 : PageId) ≠ id := by
        rintro rfl
        exact absurd (hzero.symm.trans hnew.fresh) (by simp)
      exact (Function.update_of_ne hother ..).trans hzero
  have hrun : run BufferPool.step evictedChange start = some third :=
    run_cons.mpr ⟨first, hfirst, run_cons.mpr ⟨second, hsecond, run_cons.mpr ⟨third, hthird, rfl⟩⟩⟩
  have halong : Along BufferPool.step Legal evictedChange start := by
    simp only [evictedChange, Along, hfirst, hsecond, hthird]
    exact ⟨trivial, hlegal, trivial, trivial⟩
  obtain ⟨hbound, -, -, -, -, -, -, left, hshutdown, hleft⟩ :=
    buffer_pool_transparent (Nat.zero_le _) hopen halong hrun
  exact ⟨start, third, left, hopen, hrun, hbound, hshutdown, (hleft 0).trans hkept⟩

end NovaBase.Buffer
