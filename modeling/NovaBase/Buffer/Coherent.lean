import NovaBase.Buffer.Pool

/-!
# Frames and their images on disk

A clean frame holds the page that is on disk, so giving it up loses nothing; a
dirty one is written first. Evictions, reads and loads therefore change no
page that the pool shows, in a frame or from disk.
-/

namespace NovaBase.Buffer

open Lib Lib.Bytes Storage

namespace BufferPool

/-- The frames are coherent with the images on disk. -/
structure Coherent (pool : BufferPool) (images : List Bytes) : Prop where
  holds : pool.pages.Holds images
  positive : 0 < pool.capacity
  bounded : pool.len ≤ pool.capacity
  placed : ∀ {id frame}, pool.frames.get id = some frame →
    frame.page.id = id ∧ frame.page.Fits ∧ id.toNat < images.length
  clean : ∀ {id frame}, pool.frames.get id = some frame → frame.dirty = false →
    readImage images id = .ok frame.page

/-- A pool over some page file. -/
def Sound (pool : BufferPool) : Prop := ∃ images, pool.Coherent images

/-- The number of pins of a page. -/
def pins (pool : BufferPool) (id : PageId) : Nat := ((pool.frames.get id).map Frame.pins).getD 0

/-- The pool shows the same content, of as many pages. -/
structure Shows (pool next : BufferPool) : Prop where
  sound : next.Sound
  content : ∀ id, next.content id = pool.content id
  capacity : next.capacity = pool.capacity
  pageCount : next.pages.pageCount = pool.pages.pageCount

/-- The pool shows the same content, and pinned pages stay in their frames. -/
structure Keeps (pool next : BufferPool) : Prop extends pool.Shows next where
  pinned : ∀ id, 0 < pool.pins id → next.pins id = pool.pins id

/-- No frame can be given up, and none is left. -/
def Stuck (pool : BufferPool) : Prop :=
  pool.len = pool.capacity ∧ ∀ entry ∈ pool.frames.entries, 0 < entry.2.pins

instance (pool : BufferPool) : Decidable pool.Stuck := inferInstanceAs (Decidable (_ ∧ _))

/-- What a call that loads a page finds: its content, unless there is no frame for it. -/
def found (pool : BufferPool) (id : PageId) : Result Page :=
  if pool.frames.get id = none ∧ pool.Stuck then .error allPinned else pool.content id

variable {pool next last : BufferPool} {images : List Bytes} {id : PageId} {frame : Frame}

@[simp] theorem eviction_perfect : Io.perfect.eviction = .complete := rfl

@[simp] theorem allocation_perfect : Io.perfect.allocation = .complete := rfl

@[simp] theorem fetch_perfect (pool : BufferPool) (id : PageId) :
    pool.fetch .perfect id = pool.pages.read id := rfl

theorem content_of_frame (h : pool.frames.get id = some frame) :
    pool.content id = .ok frame.page := by
  rw [content, h]

theorem content_of_none (h : pool.frames.get id = none) :
    pool.content id = (pool.pages.read id).1 := by
  rw [content, h]

theorem pins_of_frame (h : pool.frames.get id = some frame) : pool.pins id = frame.pins := by
  simp [pins, h]

theorem Coherent.content_eq (h : pool.Coherent images) (id : PageId) :
    pool.content id = match pool.frames.get id with
      | some frame => .ok frame.page
      | none => readImage images id := by
  rw [content]
  cases pool.frames.get id with
  | some frame => rfl
  | none => exact h.holds.read_eq id

/-- The page of a clean frame is the one on disk. -/
theorem Sound.disk_of_clean (h : pool.Sound) (hframe : pool.frames.get id = some frame)
    (hclean : frame.dirty = false) : (pool.pages.read id).1 = .ok frame.page := by
  obtain ⟨images, hcoherent⟩ := h
  rw [hcoherent.holds.read_eq, hcoherent.clean hframe hclean]

theorem Sound.keeps (h : pool.Sound) : pool.Keeps pool :=
  ⟨⟨h, fun _ => rfl, rfl, rfl⟩, fun _ _ => rfl⟩

theorem Shows.trans (hfirst : pool.Shows next) (hsecond : next.Shows last) : pool.Shows last :=
  ⟨hsecond.sound, fun id => (hsecond.content id).trans (hfirst.content id),
    hsecond.capacity.trans hfirst.capacity, hsecond.pageCount.trans hfirst.pageCount⟩

theorem Keeps.trans (hfirst : pool.Keeps next) (hsecond : next.Keeps last) : pool.Keeps last := by
  refine ⟨hfirst.toShows.trans hsecond.toShows, fun id hpins => ?_⟩
  have hmiddle := hfirst.pinned id hpins
  rw [hsecond.pinned id (hmiddle ▸ hpins), hmiddle]

/-- The clock and the counters show nothing. -/
theorem Sound.note (h : pool.Sound) (clock : UInt64) (stats : BufferStats) :
    pool.Keeps { pool with clock := clock, stats := stats } := by
  obtain ⟨images, hcoherent⟩ := h
  exact ⟨⟨⟨images, hcoherent.holds, hcoherent.positive, hcoherent.bounded, hcoherent.placed,
    hcoherent.clean⟩, fun _ => rfl, rfl, rfl⟩, fun _ _ => rfl⟩

/-- The same images on disk show the same. -/
theorem Coherent.reheld (h : pool.Coherent images) {pages : PageManager}
    (hpages : pages.Holds images) : pool.Keeps { pool with pages := pages } := by
  have hnext : Coherent { pool with pages := pages } images :=
    ⟨hpages, h.positive, h.bounded, h.placed, h.clean⟩
  exact ⟨⟨⟨images, hnext⟩, fun id => by rw [hnext.content_eq, h.content_eq], rfl,
    hpages.count.trans h.holds.count.symm⟩, fun _ _ => rfl⟩

/-- Reading a page changes nothing that is shown. -/
theorem Sound.readOnly (h : pool.Sound) (id : PageId) :
    pool.Keeps { pool with pages := (pool.pages.read id).2 } := by
  obtain ⟨images, hcoherent⟩ := h
  exact hcoherent.reheld (hcoherent.holds.read_state id)

/-- Synchronizing the page file changes nothing that is shown or read. -/
theorem Sound.sync (h : pool.Sound) :
    pool.Keeps { pool with pages := pool.pages.sync } ∧
      ∀ id, (pool.pages.sync.read id).1 = (pool.pages.read id).1 := by
  obtain ⟨images, hcoherent⟩ := h
  refine ⟨hcoherent.reheld hcoherent.holds.sync, fun id => ?_⟩
  rw [hcoherent.holds.sync.read_eq, hcoherent.holds.read_eq]

/-- A frame with the same page, not clean without reason, shows the same. -/
theorem Sound.setFrame (h : pool.Sound) (new : Frame) (hframe : pool.frames.get id = some frame)
    (hpage : new.page = frame.page)
    (hclean : new.dirty = false → frame.dirty = false ∨ (pool.pages.read id).1 = .ok frame.page) :
    pool.Shows { pool with frames := pool.frames.insert id new } := by
  obtain ⟨images, hcoherent⟩ := h
  have hlen : (pool.frames.insert id new).entries.length = pool.len :=
    Entries.length_insert_of_get pool.frames.sorted new hframe
  refine ⟨⟨images, hcoherent.holds, hcoherent.positive, hlen.trans_le hcoherent.bounded, ?_, ?_⟩,
    fun other => ?_, rfl, rfl⟩
  · intro other found hfound
    rcases SortedMap.get_insert_eq_some.mp hfound with ⟨rfl, rfl⟩ | ⟨-, hold⟩
    · rw [hpage]
      exact hcoherent.placed hframe
    · exact hcoherent.placed hold
  · intro other found hfound hdirty
    rcases SortedMap.get_insert_eq_some.mp hfound with ⟨rfl, rfl⟩ | ⟨-, hold⟩
    · rw [hpage]
      rcases hclean hdirty with hwas | hdisk
      · exact hcoherent.clean hframe hwas
      · exact hcoherent.holds.read_eq id ▸ hdisk
    · exact hcoherent.clean hold hdirty
  · by_cases hsame : id = other
    · subst hsame
      rw [content_of_frame hframe, ← hpage]
      exact content_of_frame (by simp)
    · simp only [content, SortedMap.get_insert, if_neg hsame]

/-- A frame whose pins stay as well keeps the pinned pages. -/
theorem Sound.keepFrame (h : pool.Sound) (new : Frame) (hframe : pool.frames.get id = some frame)
    (hpage : new.page = frame.page)
    (hclean : new.dirty = false → frame.dirty = false ∨ (pool.pages.read id).1 = .ok frame.page)
    (hpins : new.pins = frame.pins) :
    pool.Keeps { pool with frames := pool.frames.insert id new } := by
  refine ⟨h.setFrame new hframe hpage hclean, fun other _ => ?_⟩
  by_cases hsame : id = other
  · subst hsame
    simp [pins, hframe, hpins]
  · simp only [pins, SortedMap.get_insert, if_neg hsame]

/-- The page of a frame can be written, which shows the same, and is then on disk. -/
theorem Sound.write (h : pool.Sound) (hframe : pool.frames.get id = some frame) :
    ∃ pages, pool.pages.write .complete frame.page = (.ok (), pages) ∧
      pool.Keeps { pool with pages := pages } ∧ (pages.read id).1 = .ok frame.page := by
  obtain ⟨images, hcoherent⟩ := h
  obtain ⟨hid, hfits, hlt⟩ := hcoherent.placed hframe
  rw [← hid] at hlt
  rcases hcoherent.holds.write .complete (image_eq hfits) hlt with
    ⟨pages, hwrite, hpages⟩ | ⟨-, -, -, hcut⟩
  · have hread : ∀ other, readImage (images.set frame.page.id.toNat (image frame.page)) other =
        if other = id then .ok frame.page else readImage images other := by
      intro other
      rw [readImage_set (image_eq hfits) hlt, hid]
    have hnext : Coherent { pool with pages := pages }
        (images.set frame.page.id.toNat (image frame.page)) := by
      refine ⟨hpages, hcoherent.positive, hcoherent.bounded, fun hfound => ?_,
        fun {other found} hfound hclean => ?_⟩
      · rw [List.length_set]
        exact hcoherent.placed hfound
      · rw [hread]
        split
        · rename_i hsame
          subst hsame
          rw [Option.some.inj (hframe.symm.trans hfound)]
        · exact hcoherent.clean hfound hclean
    refine ⟨pages, hwrite, ⟨⟨⟨_, hnext⟩, fun other => ?_, rfl, ?_⟩, fun _ _ => rfl⟩, ?_⟩
    · rw [hnext.content_eq, hcoherent.content_eq, hread]
      by_cases hsame : other = id
      · subst hsame
        simp [hframe]
      · rw [if_neg hsame]
    · rw [hpages.count, hcoherent.holds.count, List.length_set]
    · rw [hpages.read_eq, hread, if_pos rfl]
  · exact absurd rfl hcut

/-- Giving up an unpinned frame whose page is on disk shows the same. -/
theorem Sound.drop (h : pool.Sound) (hframe : pool.frames.get id = some frame)
    (hpins : frame.pins = 0) (hdisk : (pool.pages.read id).1 = .ok frame.page) :
    pool.Keeps { pool with frames := pool.frames.remove id } := by
  obtain ⟨images, hcoherent⟩ := h
  have hlen : (pool.frames.remove id).entries.length + 1 = pool.len :=
    Entries.length_remove pool.frames.sorted hframe
  have hothers : ∀ {other found}, (pool.frames.remove id).get other = some found →
      pool.frames.get other = some found := by
    intro other found hfound
    rw [SortedMap.get_remove, Option.ite_none_left_eq_some] at hfound
    exact hfound.2
  have hbounded := hcoherent.bounded
  refine ⟨⟨⟨images, hcoherent.holds, hcoherent.positive, ?_, ?_, ?_⟩, fun other => ?_, rfl, rfl⟩,
    fun other hpinned => ?_⟩
  · simp only [len] at hlen hbounded ⊢
    omega
  · intro other found hfound
    exact hcoherent.placed (hothers hfound)
  · intro other found hfound hclean
    exact hcoherent.clean (hothers hfound) hclean
  · simp only [content, SortedMap.get_remove]
    by_cases hsame : id = other
    · subst hsame
      simp [hframe, hdisk]
    · rw [if_neg hsame]
  · have hsame : id ≠ other := by
      rintro rfl
      rw [pins_of_frame hframe, hpins] at hpinned
      exact absurd hpinned (lt_irrefl _)
    simp only [pins, SortedMap.get_remove, if_neg hsame]

theorem victim_eq_none : pool.victim = none ↔ ∀ entry ∈ pool.frames.entries, 0 < entry.2.pins := by
  rw [← Option.not_isSome_iff_eq_none, victim, List.isSome_minOn?_iff, not_not,
    List.filter_eq_nil_iff]
  simp [Nat.pos_iff_ne_zero]

theorem victim_eq_some (h : pool.victim = some (id, frame)) :
    pool.frames.get id = some frame ∧ frame.pins = 0 := by
  obtain ⟨hmem, hpins⟩ := List.mem_filter.mp (List.minOn?_mem h)
  exact ⟨pool.frames.mem_entries.mp hmem, by simpa using hpins⟩

/-- An eviction gives up an unpinned frame, or finds none. -/
theorem Sound.evictOne (h : pool.Sound) :
    (pool.evictOne .complete = (.error allPinned, pool) ∧
      ∀ entry ∈ pool.frames.entries, 0 < entry.2.pins) ∨
    ∃ next, pool.evictOne .complete = (.ok (), next) ∧ pool.Keeps next ∧
      next.len + 1 = pool.len ∧ (∀ id, pool.frames.get id = none → next.frames.get id = none) ∧
      ∃ entry ∈ pool.frames.entries, entry.2.pins = 0 := by
  cases hvictim : pool.victim with
  | none => exact .inl ⟨by simp only [BufferPool.evictOne, hvictim], victim_eq_none.mp hvictim⟩
  | some victim =>
      obtain ⟨id, frame⟩ := victim
      obtain ⟨hframe, hpins⟩ := victim_eq_some hvictim
      have hmem : (id, frame) ∈ pool.frames.entries := pool.frames.mem_entries.mpr hframe
      have hlen : (pool.frames.remove id).entries.length + 1 = pool.len :=
        Entries.length_remove pool.frames.sorted hframe
      have hremoved : ∀ other, pool.frames.get other = none →
          (pool.frames.remove id).get other = none := by
        intro other hnone
        rw [SortedMap.get_remove, hnone, ite_self]
      cases hdirty : frame.dirty with
      | true =>
          obtain ⟨pages, hwrite, hwritten, hdisk⟩ := h.write hframe
          have hdropped := hwritten.sound.drop hframe hpins hdisk
          have hnoted := hdropped.sound.note pool.clock { pool.stats with
            evictions := pool.stats.evictions + 1, writes := pool.stats.writes + 1 }
          refine .inr ⟨_, ?_, hwritten.trans (hdropped.trans hnoted), hlen, hremoved, _, hmem,
            hpins⟩
          simp only [BufferPool.evictOne, hvictim, hdirty, if_true, hwrite]
      | false =>
          have hdropped := h.drop hframe hpins (h.disk_of_clean hframe hdirty)
          have hnoted := hdropped.sound.note pool.clock
            { pool.stats with evictions := pool.stats.evictions + 1 }
          refine .inr ⟨_, ?_, hdropped.trans hnoted, hlen, hremoved, _, hmem, hpins⟩
          simp only [BufferPool.evictOne, hvictim, hdirty, Bool.false_eq_true, if_false]

/-- There is a free frame afterwards, unless the pool is stuck. -/
theorem Sound.makeRoom (h : pool.Sound) :
    (pool.Stuck ∧ pool.makeRoom .complete = (.error allPinned, pool)) ∨
    ¬pool.Stuck ∧ ∃ next, pool.makeRoom .complete = (.ok (), next) ∧ pool.Keeps next ∧
      next.len < next.capacity ∧
      ∀ id, pool.frames.get id = none → next.frames.get id = none := by
  rw [BufferPool.makeRoom]
  by_cases hfull : pool.len = pool.capacity
  · rw [if_pos hfull]
    rcases h.evictOne with
      ⟨hevict, hpinned⟩ | ⟨next, hevict, hkeeps, hlen, hnone, entry, hmem, hpins⟩
    · exact .inl ⟨⟨hfull, hpinned⟩, hevict⟩
    · refine .inr ⟨fun hstuck => ?_, next, hevict, hkeeps, ?_, hnone⟩
      · exact absurd (hstuck.2 entry hmem) (by omega)
      · have hcapacity := hkeeps.capacity
        omega
  · rw [if_neg hfull]
    have hbounded : pool.len ≤ pool.capacity := by
      obtain ⟨images, hcoherent⟩ := h
      exact hcoherent.bounded
    exact .inr ⟨fun hstuck => hfull hstuck.1, pool, rfl, h.keeps, by omega, fun _ => id⟩

/-- A page that has been read into a free frame shows the same. -/
theorem Sound.fill (h : pool.Sound) (hnone : pool.frames.get id = none)
    (hroom : pool.len < pool.capacity) {page : Page} (hread : (pool.pages.read id).1 = .ok page) :
    pool.Keeps { pool with
      pages := (pool.pages.read id).2
      frames := pool.frames.insert id ⟨page, false, 0, pool.clock⟩ } := by
  obtain ⟨images, hcoherent⟩ := h
  have hpage : readImage images id = .ok page := hcoherent.holds.read_eq id ▸ hread
  have hlen := Entries.length_insert ⟨page, false, 0, pool.clock⟩ hnone
  have hnext : Coherent { pool with
      pages := (pool.pages.read id).2
      frames := pool.frames.insert id ⟨page, false, 0, pool.clock⟩ } images := by
    refine ⟨hcoherent.holds.read_state id, hcoherent.positive, ?_, ?_, ?_⟩
    · simp only [len, SortedMap.insert] at hlen hroom ⊢
      omega
    · intro other found hfound
      rcases SortedMap.get_insert_eq_some.mp hfound with ⟨rfl, rfl⟩ | ⟨-, hold⟩
      · exact readImage_eq_ok hpage
      · exact hcoherent.placed hold
    · intro other found hfound hclean
      rcases SortedMap.get_insert_eq_some.mp hfound with ⟨rfl, rfl⟩ | ⟨-, hold⟩
      · exact hpage
      · exact hcoherent.clean hold hclean
  refine ⟨⟨⟨images, hnext⟩, fun other => ?_, rfl, ?_⟩, fun other hpinned => ?_⟩
  · rw [hnext.content_eq, hcoherent.content_eq]
    simp only [SortedMap.get_insert]
    by_cases hsame : id = other
    · subst hsame
      simp [hnone, hpage]
    · simp only [if_neg hsame]
  · exact (hcoherent.holds.read_state id).count.trans hcoherent.holds.count.symm
  · have hsame : id ≠ other := by
      rintro rfl
      simp [pins, hnone] at hpinned
    simp only [pins, SortedMap.get_insert, if_neg hsame]

/-- Loading finds the content of a page, and has it in a frame then. -/
theorem Sound.load (h : pool.Sound) (id : PageId) :
    ∃ next, pool.Keeps next ∧
      ((∃ cause, pool.found id = .error cause ∧ pool.load .perfect id = (.error cause, next)) ∨
        ∃ frame, pool.found id = .ok frame.page ∧ pool.load .perfect id = (.ok (), next) ∧
          next.frames.get id = some frame) := by
  cases hframe : pool.frames.get id with
  | some frame =>
      have hticked := h.note (pool.clock + 1) { pool.stats with hits := pool.stats.hits + 1 }
      have hset := hticked.sound.keepFrame { frame with lastUsed := pool.clock + 1 } hframe rfl
        Or.inl rfl
      refine ⟨_, hticked.trans hset, .inr ⟨{ frame with lastUsed := pool.clock + 1 }, ?_, ?_, ?_⟩⟩
      · rw [found, if_neg (by simp [hframe]), content_of_frame hframe]
      · simp only [BufferPool.load, hframe]
      · simp
  | none =>
      have hticked := h.note (pool.clock + 1) { pool.stats with misses := pool.stats.misses + 1 }
      rcases hticked.sound.makeRoom with ⟨hstuck, hroom⟩ | ⟨hfree, next, hroom, hkeeps, hlen, hnone⟩
      · refine ⟨_, hticked, .inl ⟨allPinned, ?_, ?_⟩⟩
        · rw [found, if_pos ⟨hframe, hstuck⟩]
        · simp only [BufferPool.load, eviction_perfect, hframe, hroom]
      · have hmade := hticked.trans hkeeps
        have hfound : pool.found id = (next.pages.read id).1 := by
          rw [found, if_neg fun hboth => hfree hboth.2, ← hmade.content, content_of_none]
          exact hnone id hframe
        cases hread : (next.pages.read id).1 with
        | error cause =>
            refine ⟨_, hmade.trans (hkeeps.sound.readOnly id), .inl ⟨cause, ?_, ?_⟩⟩
            · rw [hfound, hread]
            · have hpair : next.pages.read id = (.error cause, (next.pages.read id).2) := by
                rw [← hread]
              simp only [BufferPool.load, eviction_perfect, fetch_perfect, hframe, hroom]
              rw [hpair]
        | ok page =>
            refine ⟨_, hmade.trans (hkeeps.sound.fill (hnone id hframe) hlen hread), .inr ⟨_, ?_,
              ?_, SortedMap.get_insert .. |>.trans (if_pos rfl)⟩⟩
            · rw [hfound, hread]
            · have hpair : next.pages.read id = (.ok page, (next.pages.read id).2) := by
                rw [← hread]
              simp only [BufferPool.load, eviction_perfect, fetch_perfect, hframe, hroom]
              rw [hpair]

end BufferPool

end NovaBase.Buffer
