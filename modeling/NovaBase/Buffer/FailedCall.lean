import NovaBase.Buffer.Transparent
import NovaBase.Storage.Faults

/-!
# What a failed call loses

Any write, read or synchronization of a call may fail here. A pool gives up the
frame of its victim before the page of that frame is written, so a write-back
that fails loses the changes in the frame. While pages keep their ids nothing else
that fails does; a page with the id of another is written in the place of that one.
-/

namespace NovaBase.Buffer

open Lib Lib.Bytes Storage

namespace BufferPool

/-- One call, whatever becomes of its I/O. What it answers is dropped, errors are not. -/
def perform (io : Io) (pool : BufferPool) : PoolCall → Result Unit × BufferPool
  | .allocate => let (result, next) := pool.allocate io; (result.map fun _ => (), next)
  | .get id => let (result, next) := pool.get io id; (result.map fun _ => (), next)
  | .getMut id change =>
      let (result, next) := pool.mutate io id change
      (result.map fun _ => (), next)
  | .pin id => pool.pin io id
  | .unpin id => pool.unpin id
  | .flushAll => pool.flushAll io

/-- The pool after calls, whether they fail or not. -/
def afterCalls (calls : List (Io × PoolCall)) (pool : BufferPool) : BufferPool :=
  calls.foldl (fun pool call => (pool.perform call.1 call.2).2) pool

/-- The call needs a frame and there is no free one. -/
def Evicts (pool : BufferPool) : PoolCall → Prop
  | .allocate => pool.len = pool.capacity
  | .get id | .getMut id _ | .pin id => pool.frames.get id = none ∧ pool.len = pool.capacity
  | .unpin _ | .flushAll => False

instance decidableEvicts (pool : BufferPool) : ∀ call, Decidable (pool.Evicts call)
  | .allocate => inferInstanceAs (Decidable (_ = _))
  | .get _ | .getMut _ _ | .pin _ => inferInstanceAs (Decidable (_ ∧ _))
  | .unpin _ | .flushAll => .isFalse id

/-- The page of the frame that an eviction gives up is written if it has to be. -/
def WritesBack (outcome : WriteOutcome) (pool : BufferPool) : Prop :=
  ∀ id frame, pool.victim = some (id, frame) → frame.dirty = true →
    (pool.pages.write outcome frame.page).1 = .ok ()

/-- That page can be had from disk again: it is there, or it is written under the id of its
frame. -/
def KeepsVictim (outcome : WriteOutcome) (pool : BufferPool) : Prop :=
  ∀ id frame, pool.victim = some (id, frame) →
    if frame.dirty then frame.page.id = id ∧ (pool.pages.write outcome frame.page).1 = .ok ()
    else (pool.pages.read id).1 = .ok frame.page

/-- The page file after the pages of dirty frames have been written, up to the first failure. -/
def writeOut (io : Io) : List (PageId × Frame) → PageManager → PageManager
  | [], pages => pages
  | (id, frame) :: rest, pages =>
      if frame.dirty then
        match pages.write (io.flush id) frame.page with
        | (.error _, pages) => pages
        | (.ok _, pages) => writeOut io rest pages
      else writeOut io rest pages

/-- The pages of dirty frames can be written without a change to a page that has no frame. -/
def SparesDisk (io : Io) (pool : BufferPool) : Prop :=
  ∀ id : PageId, id.toNat < pool.pages.pageCount → pool.frames.get id = none →
    ((writeOut io pool.frames.entries pool.pages).read id).1 = (pool.pages.read id).1

/-- What is asked of a pool before a call. -/
def Safe (io : Io) (pool : BufferPool) : PoolCall → Prop
  | .flushAll => pool.SparesDisk io
  | call => pool.Evicts call → pool.KeepsVictim io.eviction

/-- The page that an eviction has written. -/
def writtenBack (outcome : WriteOutcome) (pool : BufferPool) : List PageId :=
  match pool.victim with
  | none => []
  | some (id, frame) =>
      match frame.dirty, (pool.pages.write outcome frame.page).1 with
      | true, .ok _ => [id]
      | _, _ => []

/-- The pages that flushing these frames has written. -/
def flushed (io : Io) : List PageId → BufferPool → List PageId
  | [], _ => []
  | id :: ids, pool =>
      match pool.flushFrame (io.flush id) id with
      | (.error _, _) => []
      | (.ok _, next) =>
          if (pool.frames.get id).any Frame.dirty then id :: flushed io ids next
          else flushed io ids next

/-- The pages that a call has written. -/
def written (io : Io) (pool : BufferPool) (call : PoolCall) : List PageId :=
  match call with
  | .flushAll => pool.flushed io pool.frames.keys
  | call => if pool.Evicts call then pool.writtenBack io.eviction else []

/-- Every page has the content it had, and a dirty page that was not written is still in a dirty
frame. -/
structure LosesNothing (pool : BufferPool) (written : List PageId) (next : BufferPool) : Prop where
  content : ∀ id : PageId, id.toNat < pool.pages.pageCount → next.content id = pool.content id
  dirty : ∀ {id frame}, pool.frames.get id = some frame → frame.dirty = true → id ∉ written →
    ∃ kept, next.frames.get id = some kept ∧ kept.dirty = true

/-- What every call keeps: the frames are within bounds and of allocated pages. Where pages keep
their ids, frames hold them under these, and are dirty unless the page is on disk. -/
structure Sturdy (own : Prop) (pool : BufferPool) : Prop where
  sized : pool.pages.Sized
  positive : 0 < pool.capacity
  bounded : pool.len ≤ pool.capacity
  inside : ∀ {id frame}, pool.frames.get id = some frame → id.toNat < pool.pages.pageCount
  owned : own → ∀ {id frame}, pool.frames.get id = some frame → frame.page.id = id
  clean : own → ∀ {id frame}, pool.frames.get id = some frame → frame.dirty = false →
    (pool.pages.read id).1 = .ok frame.page

/-- The caller leaves a page its id. -/
def KeepsIds : PoolCall → Prop
  | .getMut _ change => ∀ page, (change page).id = page.id
  | _ => True

variable {own : Prop} {pool next last : BufferPool} {id : PageId} {frame : Frame}
  {ids more : List PageId}

theorem LosesNothing.refl (pool : BufferPool) : pool.LosesNothing [] pool :=
  ⟨fun _ _ => rfl, fun hframe hdirty _ => ⟨_, hframe, hdirty⟩⟩

theorem LosesNothing.trans (hfirst : pool.LosesNothing ids next)
    (hcount : pool.pages.pageCount ≤ next.pages.pageCount)
    (hsecond : next.LosesNothing more last) : pool.LosesNothing (ids ++ more) last := by
  constructor
  · intro id hid
    rw [hsecond.content id (by omega), hfirst.content id hid]
  · intro id frame hframe hdirty hnot
    obtain ⟨hids, hmore⟩ := not_or.mp (List.mem_append.not.mp hnot)
    obtain ⟨kept, hkept, hstill⟩ := hfirst.dirty hframe hdirty hids
    exact hsecond.dirty hkept hstill hmore

/-- Noting a call in the clock and in the counters changes nothing else. -/
theorem Sturdy.note (h : pool.Sturdy own) (clock : UInt64) (stats : BufferStats) :
    Sturdy own { pool with clock := clock, stats := stats } ∧
      pool.LosesNothing [] { pool with clock := clock, stats := stats } :=
  ⟨⟨h.sized, h.positive, h.bounded, h.inside, h.owned, h.clean⟩,
    ⟨fun _ _ => rfl, fun hframe hdirty _ => ⟨_, hframe, hdirty⟩⟩⟩

/-- Page files that read the same on the pages of a pool can be exchanged. -/
theorem Sturdy.repage (h : pool.Sturdy own) {pages : PageManager} (hsized : pages.Sized)
    (hcount : pool.pages.pageCount ≤ pages.pageCount)
    (hread : ∀ id, id.toNat < pool.pages.pageCount → (pages.read id).1 = (pool.pages.read id).1) :
    Sturdy own { pool with pages := pages } ∧
      pool.LosesNothing [] { pool with pages := pages } := by
  refine ⟨⟨hsized, h.positive, h.bounded, fun hframe => ?_, h.owned,
    fun hown _ _ hframe hclean => ?_⟩, fun id hid => ?_, fun hframe hdirty _ => ⟨_, hframe, hdirty⟩⟩
  · exact (h.inside hframe).trans_le hcount
  · rw [hread _ (h.inside hframe), h.clean hown hframe hclean]
  · simp only [content]
    rw [hread id hid]

/-- A frame can be put in place of another that is not cleaner, with a page of the same id. -/
theorem Sturdy.replace (h : pool.Sturdy own) (hframe : pool.frames.get id = some frame)
    (new : Frame)
    (hid : own → new.page.id = id)
    (hclean : own → new.dirty = false → (pool.pages.read id).1 = .ok new.page) :
    Sturdy own { pool with frames := pool.frames.insert id new } := by
  have hlen : (pool.frames.insert id new).entries.length = pool.len :=
    Entries.length_insert_of_get pool.frames.sorted new hframe
  refine ⟨h.sized, h.positive, hlen.trans_le h.bounded, fun {other found} hfound => ?_,
    fun hown {other found} hfound => ?_, fun hown {other found} hfound hwas => ?_⟩
  · rcases SortedMap.get_insert_eq_some.mp hfound with ⟨rfl, rfl⟩ | ⟨-, hold⟩
    · exact h.inside hframe
    · exact h.inside hold
  · rcases SortedMap.get_insert_eq_some.mp hfound with ⟨rfl, rfl⟩ | ⟨-, hold⟩
    · exact hid hown
    · exact h.owned hown hold
  · rcases SortedMap.get_insert_eq_some.mp hfound with ⟨rfl, rfl⟩ | ⟨-, hold⟩
    · exact hclean hown hwas
    · exact h.clean hown hold hwas

/-- Nothing is lost with a frame that has the same page and is not cleaner. -/
theorem Sturdy.reframe (h : pool.Sturdy own) (hframe : pool.frames.get id = some frame)
    (new : Frame)
    (hpage : new.page = frame.page) (hdirty : new.dirty = false → frame.dirty = false) :
    Sturdy own { pool with frames := pool.frames.insert id new } ∧
      pool.LosesNothing [] { pool with frames := pool.frames.insert id new } := by
  refine ⟨h.replace hframe new (fun hown => ?_) (fun hown hclean => ?_), fun other _ => ?_,
    fun {other found} hfound hwas _ => ?_⟩
  · rw [hpage, h.owned hown hframe]
  · rw [hpage, h.clean hown hframe (hdirty hclean)]
  · by_cases hsame : id = other
    · subst hsame
      rw [content_of_frame hframe, ← hpage]
      exact content_of_frame (by simp)
    · simp only [content, SortedMap.get_insert, if_neg hsame]
  · by_cases hsame : id = other
    · subst hsame
      obtain rfl := Option.some.inj (hframe.symm.trans hfound)
      refine ⟨new, by simp, ?_⟩
      by_contra hclean
      rw [hdirty (by simpa using hclean)] at hwas
      cases hwas
    · exact ⟨found, by simpa only [SortedMap.get_insert, if_neg hsame] using hfound, hwas⟩

/-- A frame can be given up whatever the page file reads under its id then. -/
theorem Sturdy.drop (h : pool.Sturdy own) (id : PageId) {pages : PageManager} (hsized : pages.Sized)
    (hcount : pages.pageCount = pool.pages.pageCount)
    (hread : own → ∀ other, other ≠ id → (pages.read other).1 = (pool.pages.read other).1)
    (stats : BufferStats) :
    Sturdy own { pool with pages := pages, frames := pool.frames.remove id, stats := stats } := by
  have hothers : ∀ {other found}, (pool.frames.remove id).get other = some found →
      other ≠ id ∧ pool.frames.get other = some found := by
    intro other found hfound
    rw [SortedMap.get_remove, Option.ite_none_left_eq_some] at hfound
    exact ⟨Ne.symm hfound.1, hfound.2⟩
  have hlen : (pool.frames.remove id).entries.length ≤ pool.len :=
    List.length_filter_le ..
  refine ⟨hsized, h.positive, hlen.trans h.bounded, fun hfound => ?_,
    fun hown _ _ hfound => h.owned hown (hothers hfound).2, fun hown _ _ hfound hclean => ?_⟩
  · rw [hcount]
    exact h.inside (hothers hfound).2
  · rw [hread hown _ (hothers hfound).1]
    exact h.clean hown (hothers hfound).2 hclean

/-- Nothing is lost with a frame whose page is on disk. -/
theorem losesNothing_drop (hframe : pool.frames.get id = some frame) {pages : PageManager}
    (hread : ∀ other, other ≠ id → (pages.read other).1 = (pool.pages.read other).1)
    (hdisk : (pages.read id).1 = .ok frame.page) (hwritten : frame.dirty = true → id ∈ ids)
    (stats : BufferStats) :
    pool.LosesNothing ids
      { pool with pages := pages, frames := pool.frames.remove id, stats := stats } := by
  refine ⟨fun other _ => ?_, fun {other found} hfound hdirty hnot => ?_⟩
  · simp only [content, SortedMap.get_remove]
    by_cases hsame : id = other
    · subst hsame
      simp [hframe, hdisk]
    · rw [if_neg hsame, hread other (Ne.symm hsame)]
  · have hsame : id ≠ other := by
      rintro rfl
      obtain rfl := Option.some.inj (hframe.symm.trans hfound)
      exact hnot (hwritten hdirty)
    exact ⟨found, by simpa only [SortedMap.get_remove, if_neg hsame] using hfound, hdirty⟩

/-- The frame of a dirty page that was not written is lost. -/
theorem losesNothing_false (hframe : pool.frames.get id = some frame) (hdirty : frame.dirty = true)
    (hnot : id ∉ ids) (hgone : next.frames.get id = none) : ¬pool.LosesNothing ids next := by
  intro h
  obtain ⟨kept, hkept, -⟩ := h.dirty hframe hdirty hnot
  rw [hgone] at hkept
  cases hkept

/-- How a step of a call ends: the pool keeps its invariants, and loses nothing, or else it fails or
shows another page. -/
structure Settles {α : Type} (own safe : Prop) (ids : List PageId) (pool : BufferPool)
    (result : Result α) (next : BufferPool) : Prop where
  sturdy : next.Sturdy own
  capacity : next.capacity = pool.capacity
  pageCount : pool.pages.pageCount ≤ next.pages.pageCount
  kept : safe → pool.LosesNothing ids next
  lost : ¬safe → ((∃ cause, result = .error cause) ∧ ¬pool.LosesNothing ids next) ∨
    ∃ id : PageId, id.toNat < pool.pages.pageCount ∧ next.content id ≠ pool.content id

section Settling

variable {α β : Type} {safe : Prop} {result : Result α}

theorem Settles.of_keeps (h : next.Sturdy own ∧ pool.LosesNothing [] next)
    (hcapacity : next.capacity = pool.capacity)
    (hcount : pool.pages.pageCount ≤ next.pages.pageCount) (result : Result α) :
    Settles own True [] pool result next :=
  ⟨h.1, hcapacity, hcount, fun _ => h.2, fun hnot => absurd trivial hnot⟩

/-- A step that fails fails the call. -/
theorem Settles.error {cause : NovaError}
    (h : Settles own safe ids pool (.error cause : Result α) next) :
    Settles own safe ids pool (.error cause : Result β) next := by
  refine ⟨h.sturdy, h.capacity, h.pageCount, h.kept, fun hnot => ?_⟩
  exact (h.lost hnot).imp_left fun hfailed => ⟨⟨cause, rfl⟩, hfailed.2⟩

/-- What a step has lost is not brought back by steps that lose nothing. -/
theorem Settles.andThen {answer : β} (h : Settles own safe ids pool (.ok answer : Result β) next)
    (hrest : Settles own True [] next result last) : Settles own safe ids pool result last := by
  have hkept := hrest.kept trivial
  refine ⟨hrest.sturdy, hrest.capacity.trans h.capacity, h.pageCount.trans hrest.pageCount,
    fun hsafe => ?_, fun hnot => .inr ?_⟩
  · have hboth := (h.kept hsafe).trans h.pageCount hkept
    rwa [List.append_nil] at hboth
  · rcases h.lost hnot with ⟨⟨cause, hcause⟩, -⟩ | ⟨id, hid, hdiffer⟩
    · cases hcause
    · refine ⟨id, hid, ?_⟩
      rw [hkept.content id (hid.trans_le h.pageCount)]
      exact hdiffer

/-- The clock and the counters have no part in what is lost. -/
theorem Settles.note {clock : UInt64} {stats : BufferStats}
    (h : Settles own safe ids { pool with clock := clock, stats := stats } result next) :
    Settles own safe ids pool result next := by
  refine ⟨h.sturdy, h.capacity, h.pageCount, fun hsafe => ?_, fun hnot => ?_⟩
  · exact ⟨(h.kept hsafe).content, (h.kept hsafe).dirty⟩
  · exact (h.lost hnot).imp_left fun hfailed =>
      ⟨hfailed.1, fun hkept => hfailed.2 ⟨hkept.content, hkept.dirty⟩⟩

/-- A step that settles loses nothing exactly if it is safe. -/
theorem Settles.losesNothing_iff (h : Settles own safe ids pool result next) :
    pool.LosesNothing ids next ↔ safe := by
  constructor
  · intro hkept
    by_contra hnot
    rcases h.lost hnot with ⟨-, hlost⟩ | ⟨id, hid, hdiffer⟩
    · exact hlost hkept
    · exact hdiffer (hkept.content id hid)
  · exact h.kept

end Settling

/-- How the eviction of a frame ends. -/
structure EvictsOne (own : Prop) (outcome : WriteOutcome) (pool : BufferPool) (result : Result Unit)
    (next : BufferPool) : Prop where
  settles : Settles own (pool.KeepsVictim outcome) (pool.writtenBack outcome) pool result next
  absent : ∀ id, pool.frames.get id = none → next.frames.get id = none
  room : result = .ok () → next.len + 1 = pool.len

theorem keepsVictim_iff {outcome : WriteOutcome} (hvictim : pool.victim = some (id, frame)) :
    pool.KeepsVictim outcome ↔
      if frame.dirty then frame.page.id = id ∧ (pool.pages.write outcome frame.page).1 = .ok ()
      else (pool.pages.read id).1 = .ok frame.page := by
  constructor
  · exact fun h => h id frame hvictim
  · intro h other found hfound
    obtain ⟨rfl, rfl⟩ := Prod.mk.inj (Option.some.inj (hvictim.symm.trans hfound))
    exact h

/-- A frame that was given up shows what is on disk. -/
theorem content_remove (pages : PageManager) (stats : BufferStats) :
    content { pool with pages := pages, frames := pool.frames.remove id, stats := stats } id =
      (pages.read id).1 := by
  apply content_of_none
  rw [SortedMap.get_remove, if_pos rfl]

/-- The eviction of a clean frame loses nothing exactly when its page is on disk. -/
theorem Sturdy.evictClean (h : pool.Sturdy own) (outcome : WriteOutcome)
    (hvictim : pool.victim = some (id, frame)) (hdirty : frame.dirty = false) :
    EvictsOne own outcome pool (pool.evictOne outcome).1 (pool.evictOne outcome).2 := by
  obtain ⟨hframe, -⟩ := victim_eq_some hvictim
  have hkeeps : pool.KeepsVictim outcome ↔ (pool.pages.read id).1 = .ok frame.page := by
    rw [keepsVictim_iff hvictim, hdirty, if_neg Bool.false_ne_true]
  simp only [BufferPool.evictOne, hvictim, hdirty, Bool.false_eq_true, if_false]
  refine ⟨⟨h.drop id h.sized rfl (fun _ _ _ => rfl) _, rfl, le_rfl, fun hsafe => ?_,
    fun hnot => .inr ⟨id, h.inside hframe, ?_⟩⟩, fun other hnone => ?_, fun _ => ?_⟩
  · apply losesNothing_drop hframe (fun _ _ => rfl) (hkeeps.mp hsafe)
    simp [hdirty]
  · rw [content_remove, content_of_frame hframe]
    exact mt hkeeps.mpr hnot
  · rw [SortedMap.get_remove, hnone, ite_self]
  · exact Entries.length_remove pool.frames.sorted hframe

/-- The eviction of a dirty frame loses nothing exactly when its page is written under its id. -/
theorem Sturdy.evictDirty (h : pool.Sturdy own) (outcome : WriteOutcome)
    (hvictim : pool.victim = some (id, frame)) (hdirty : frame.dirty = true) :
    EvictsOne own outcome pool (pool.evictOne outcome).1 (pool.evictOne outcome).2 := by
  obtain ⟨hframe, -⟩ := victim_eq_some hvictim
  have hkeeps : pool.KeepsVictim outcome ↔
      frame.page.id = id ∧ (pool.pages.write outcome frame.page).1 = .ok () := by
    rw [keepsVictim_iff hvictim, hdirty, if_pos rfl]
  have habsent : ∀ other, pool.frames.get other = none →
      (pool.frames.remove id).get other = none := by
    intro other hnone
    rw [SortedMap.get_remove, hnone, ite_self]
  have hgone : (pool.frames.remove id).get id = none := by
    rw [SortedMap.get_remove, if_pos rfl]
  obtain ⟨hsized, hcount, hread, hdisk⟩ := h.sized.write outcome frame.page
  have hothers : own → ∀ other, other ≠ id →
      ((pool.pages.write outcome frame.page).2.read other).1 = (pool.pages.read other).1 := by
    intro hown other hother
    rw [hread other (by rwa [h.owned hown hframe])]
  cases hwrite : pool.pages.write outcome frame.page with
  | mk result pages =>
      rw [hwrite] at hsized hcount hread hdisk hothers hkeeps
      simp only [BufferPool.evictOne, hvictim, hdirty, if_true, hwrite]
      cases result with
      | error cause =>
          refine ⟨⟨h.drop id hsized hcount hothers _, rfl, hcount.ge, fun hsafe => ?_,
            fun _ => .inl ⟨⟨cause, rfl⟩, ?_⟩⟩, habsent, fun hok => ?_⟩
          · cases (hkeeps.mp hsafe).2
          · apply losesNothing_false hframe hdirty _ hgone
            simp [writtenBack, hvictim, hdirty, hwrite]
          · cases hok
      | ok _ =>
          refine ⟨⟨h.drop id hsized hcount hothers _, rfl, hcount.ge, fun hsafe => ?_,
            fun hnot => .inr ⟨id, h.inside hframe, ?_⟩⟩, habsent, fun _ => ?_⟩
          · obtain ⟨hid, -⟩ := hkeeps.mp hsafe
            rw [hid] at hread hdisk
            apply losesNothing_drop hframe hread (hdisk rfl)
            simp [writtenBack, hvictim, hdirty, hwrite]
          · rw [content_remove, content_of_frame hframe]
            intro hsame
            exact hnot (hkeeps.mpr ⟨(hsized.id_of_read hsame).1, rfl⟩)
          · exact Entries.length_remove pool.frames.sorted hframe

/-- An eviction loses nothing exactly when the page of its victim can be had again. -/
theorem Sturdy.evictOne (h : pool.Sturdy own) (outcome : WriteOutcome) :
    EvictsOne own outcome pool (pool.evictOne outcome).1 (pool.evictOne outcome).2 := by
  cases hvictim : pool.victim with
  | none =>
      simp only [BufferPool.evictOne, hvictim]
      refine ⟨⟨h, rfl, le_rfl, fun _ => ?_, fun hnot => absurd ?_ hnot⟩, fun _ => id,
        fun hok => ?_⟩
      · simp only [writtenBack, hvictim]
        exact LosesNothing.refl pool
      · intro id frame hsome
        rw [hvictim] at hsome
        cases hsome
      · cases hok
  | some victim =>
      obtain ⟨id, frame⟩ := victim
      cases hdirty : frame.dirty with
      | false => exact h.evictClean outcome hvictim hdirty
      | true => exact h.evictDirty outcome hvictim hdirty

/-- Making room loses nothing exactly when the page of a victim can be had again. -/
theorem Sturdy.makeRoom (h : pool.Sturdy own) (outcome : WriteOutcome) :
    Settles own (pool.len = pool.capacity → pool.KeepsVictim outcome)
        (if pool.len = pool.capacity then pool.writtenBack outcome else []) pool
        (pool.makeRoom outcome).1 (pool.makeRoom outcome).2 ∧
      (∀ id, pool.frames.get id = none → (pool.makeRoom outcome).2.frames.get id = none) ∧
      ((pool.makeRoom outcome).1 = .ok () →
        (pool.makeRoom outcome).2.len < (pool.makeRoom outcome).2.capacity) := by
  have hbounded := h.bounded
  rw [BufferPool.makeRoom]
  split
  · rename_i hfull
    obtain ⟨hsettles, habsent, hroom⟩ := h.evictOne outcome
    refine ⟨⟨hsettles.sturdy, hsettles.capacity, hsettles.pageCount,
      fun hsafe => hsettles.kept (hsafe hfull), fun hnot => hsettles.lost fun hback =>
        hnot fun _ => hback⟩, habsent, fun hok => ?_⟩
    have hlen := hroom hok
    have hcapacity := hsettles.capacity
    omega
  · rename_i hfree
    exact ⟨⟨h, rfl, le_rfl, fun _ => LosesNothing.refl pool,
      fun hnot => absurd (fun hfull => absurd hfull hfree) hnot⟩, fun _ => id, fun _ => by
        dsimp only
        omega⟩

/-- A read that may fail changes nothing. -/
theorem Sturdy.fetch (h : pool.Sturdy own) (io : Io) (id : PageId) :
    (pool.fetch io id).2.Sized ∧ (pool.fetch io id).2.pageCount = pool.pages.pageCount ∧
      (∀ other, ((pool.fetch io id).2.read other).1 = (pool.pages.read other).1) ∧
      ∀ page, (pool.fetch io id).1 = .ok page → (pool.pages.read id).1 = .ok page := by
  rw [BufferPool.fetch]
  split
  · obtain ⟨hbytes, hcount⟩ := PageManager.read_state pool.pages id
    obtain ⟨hsized, hread⟩ := h.sized.of_bytes _ hbytes hcount
    exact ⟨hsized, hcount, hread, fun _ hpage => hpage⟩
  · refine ⟨h.sized, rfl, fun _ => rfl, fun page hpage => ?_⟩
    cases hpage

/-- A page that was read is put into a free frame. -/
theorem Sturdy.fill (h : pool.Sturdy own) (hnone : pool.frames.get id = none)
    (hroom : pool.len < pool.capacity) {page : Page} (hread : (pool.pages.read id).1 = .ok page)
    (clock : UInt64) :
    Sturdy own { pool with frames := pool.frames.insert id ⟨page, false, 0, clock⟩ } ∧
      pool.LosesNothing []
        { pool with frames := pool.frames.insert id ⟨page, false, 0, clock⟩ } := by
  have hlen := Entries.length_insert (Frame.mk page false 0 clock) hnone
  obtain ⟨hid, hinside⟩ := h.sized.id_of_read hread
  refine ⟨⟨h.sized, h.positive, ?_, fun {other found} hfound => ?_,
    fun hown {other found} hfound => ?_, fun hown {other found} hfound hclean => ?_⟩,
    fun other _ => ?_, fun {other found} hfound hdirty _ => ?_⟩
  · simp only [len, SortedMap.insert] at hlen hroom ⊢
    omega
  · rcases SortedMap.get_insert_eq_some.mp hfound with ⟨rfl, rfl⟩ | ⟨-, hold⟩
    · exact hinside
    · exact h.inside hold
  · rcases SortedMap.get_insert_eq_some.mp hfound with ⟨rfl, rfl⟩ | ⟨-, hold⟩
    · exact hid
    · exact h.owned hown hold
  · rcases SortedMap.get_insert_eq_some.mp hfound with ⟨rfl, rfl⟩ | ⟨-, hold⟩
    · exact hread
    · exact h.clean hown hold hclean
  · simp only [content, SortedMap.get_insert]
    by_cases hsame : id = other
    · subst hsame
      simp [hnone, hread]
    · simp only [if_neg hsame]
  · have hsame : id ≠ other := by
      rintro rfl
      rw [hnone] at hfound
      cases hfound
    exact ⟨found, by simpa only [SortedMap.get_insert, if_neg hsame] using hfound, hdirty⟩

/-- Loading a page loses nothing exactly when the page of a victim can be had again. -/
theorem Sturdy.load (h : pool.Sturdy own) (io : Io) (id : PageId) :
    Settles own (pool.Evicts (.get id) → pool.KeepsVictim io.eviction)
      (pool.written io (.get id)) pool (pool.load io id).1 (pool.load io id).2 := by
  cases hframe : pool.frames.get id with
  | some frame =>
      have hstays : ¬pool.Evicts (.get id) := by simp [Evicts, hframe]
      obtain ⟨hnoted, -⟩ := h.note (pool.clock + 1) { pool.stats with hits := pool.stats.hits + 1 }
      have hset := hnoted.reframe hframe { frame with lastUsed := pool.clock + 1 } rfl fun hclean =>
        hclean
      simp only [BufferPool.load, hframe, written, if_neg hstays]
      refine Settles.note ⟨hset.1, rfl, le_rfl, fun _ => hset.2, fun hnot => ?_⟩
      exact absurd (fun hevicts => absurd hevicts hstays) hnot
  | none =>
      have hevicts : pool.Evicts (.get id) ↔ pool.len = pool.capacity := by
        simp [Evicts, hframe]
      simp only [BufferPool.load, hframe, written, hevicts]
      apply Settles.note
      obtain ⟨hnoted, -⟩ := h.note (pool.clock + 1)
        { pool.stats with misses := pool.stats.misses + 1 }
      obtain ⟨hsettles, habsent, hroom⟩ := hnoted.makeRoom io.eviction
      cases hmade : BufferPool.makeRoom io.eviction { pool with
          clock := pool.clock + 1
          stats := { pool.stats with misses := pool.stats.misses + 1 } } with
      | mk result middle =>
          rw [hmade] at hsettles habsent hroom
          cases result with
          | error cause => exact hsettles
          | ok _ =>
              refine hsettles.andThen ?_
              dsimp only
              obtain ⟨hsized, hcount, hreads, hpage⟩ := hsettles.sturdy.fetch io id
              obtain ⟨hsturdy, hkept⟩ := hsettles.sturdy.repage hsized hcount.ge fun other _ =>
                hreads other
              have hread := Settles.of_keeps ⟨hsturdy, hkept⟩ rfl hcount.ge
                (Except.ok () : Result Unit)
              cases hfetch : middle.fetch io id with
              | mk found pages =>
                  rw [hfetch] at hsturdy hkept hcount hreads hpage hread
                  cases found with
                  | error cause => exact Settles.of_keeps ⟨hsturdy, hkept⟩ rfl hcount.ge _
                  | ok page =>
                      have hdisk : (pages.read id).1 = .ok page := by rw [hreads, hpage page rfl]
                      have hfill := hsturdy.fill (habsent id hframe) (hroom rfl) hdisk middle.clock
                      exact hread.andThen (Settles.of_keeps hfill rfl le_rfl _)

/-- Using a page in its frame loses nothing that loading it does not. -/
theorem Sturdy.access {α : Type} (h : pool.Sturdy own) (io : Io) (id : PageId)
    (use : Frame → Result (α × Frame)) (huse : ∀ {frame answer new},
      use frame = .ok (answer, new) → new.page = frame.page ∧
        (new.dirty = false → frame.dirty = false)) :
    Settles own (pool.Evicts (.get id) → pool.KeepsVictim io.eviction)
      (pool.written io (.get id)) pool (pool.access io id use).1 (pool.access io id use).2 := by
  have hload := h.load io id
  rw [BufferPool.access]
  cases hresult : pool.load io id with
  | mk result middle =>
      rw [hresult] at hload
      cases result with
      | error cause => exact hload.error
      | ok _ =>
          refine hload.andThen ?_
          dsimp only
          cases hframe : middle.frames.get id with
          | none => exact Settles.of_keeps ⟨hload.sturdy, LosesNothing.refl _⟩ rfl le_rfl _
          | some frame =>
              dsimp only
              cases hused : use frame with
              | error cause =>
                  exact Settles.of_keeps ⟨hload.sturdy, LosesNothing.refl _⟩ rfl le_rfl _
              | ok pair =>
                  obtain ⟨answer, new⟩ := pair
                  obtain ⟨hpage, hdirty⟩ := huse hused
                  exact Settles.of_keeps (hload.sturdy.reframe hframe new hpage hdirty) rfl
                    le_rfl _

theorem Sturdy.get (h : pool.Sturdy own) (io : Io) (id : PageId) :
    Settles own (pool.Evicts (.get id) → pool.KeepsVictim io.eviction)
      (pool.written io (.get id)) pool (pool.get io id).1 (pool.get io id).2 := by
  apply h.access
  intro frame answer new hused
  cases hused
  exact ⟨rfl, fun hclean => hclean⟩

theorem Sturdy.getMut (h : pool.Sturdy own) (io : Io) (id : PageId) :
    Settles own (pool.Evicts (.get id) → pool.KeepsVictim io.eviction)
      (pool.written io (.get id)) pool (pool.getMut io id).1 (pool.getMut io id).2 := by
  apply h.access
  intro frame answer new hused
  cases hused
  exact ⟨rfl, fun hclean => by cases hclean⟩

theorem Sturdy.pin (h : pool.Sturdy own) (io : Io) (id : PageId) :
    Settles own (pool.Evicts (.get id) → pool.KeepsVictim io.eviction)
      (pool.written io (.get id)) pool (pool.pin io id).1 (pool.pin io id).2 := by
  apply h.access
  intro frame answer new hused
  split at hused
  · cases hused
    exact ⟨rfl, fun hclean => hclean⟩
  · cases hused

/-- An allocation loses nothing exactly when the page of a victim can be had again. -/
theorem Sturdy.allocate (h : pool.Sturdy own) (io : Io) :
    Settles own (pool.Evicts .allocate → pool.KeepsVictim io.eviction)
      (pool.written io .allocate) pool (pool.allocate io).1 (pool.allocate io).2 := by
  obtain ⟨hsettles, -, hroom⟩ := h.makeRoom io.eviction
  have hids : pool.written io .allocate =
      if pool.len = pool.capacity then pool.writtenBack io.eviction else [] := rfl
  rw [hids, BufferPool.allocate]
  cases hmade : pool.makeRoom io.eviction with
  | mk result middle =>
      rw [hmade] at hsettles hroom
      cases result with
      | error cause => exact hsettles.error
      | ok _ =>
          refine hsettles.andThen ?_
          dsimp only
          obtain ⟨hsized, hcount, hreads, hnew⟩ := hsettles.sturdy.sized.allocate io.allocation
          obtain ⟨hsturdy, hkept⟩ := hsettles.sturdy.repage hsized hcount hreads
          have hgrown := Settles.of_keeps ⟨hsturdy, hkept⟩ rfl hcount (Except.ok () : Result Unit)
          cases hallocate : middle.pages.allocate io.allocation with
          | mk result pages =>
              rw [hallocate] at hsturdy hkept hgrown hcount
              cases result with
              | error cause => exact Settles.of_keeps ⟨hsturdy, hkept⟩ rfl hcount _
              | ok id =>
                  refine hgrown.andThen ?_
                  dsimp only
                  have hload := hsturdy.load io id
                  have hfree : ¬Evicts { middle with pages := pages } (.get id) := fun hevicts =>
                    absurd hevicts.2 (hroom rfl).ne
                  have hloaded : Settles own True [] { middle with pages := pages }
                      (BufferPool.load io id { middle with pages := pages }).1
                      (BufferPool.load io id { middle with pages := pages }).2 := by
                    refine ⟨hload.sturdy, hload.capacity, hload.pageCount, fun _ => ?_,
                      fun hnot => absurd trivial hnot⟩
                    have hids := hload.kept fun hevicts => absurd hevicts hfree
                    rwa [written, if_neg hfree] at hids
                    simp
                  cases hresult : BufferPool.load io id { middle with pages := pages } with
                  | mk result last =>
                      rw [hresult] at hloaded
                      cases result with
                      | error cause => exact hloaded.error
                      | ok _ => exact hloaded.andThen (Settles.of_keeps
                          ⟨hloaded.sturdy, LosesNothing.refl _⟩ rfl le_rfl _)

/-- Writing the page of a dirty frame in place, failed or not, keeps the invariants. -/
theorem Sturdy.writeFrame (h : pool.Sturdy own) (hframe : pool.frames.get id = some frame)
    (hdirty : frame.dirty = true) (outcome : WriteOutcome) :
    Sturdy own { pool with pages := (pool.pages.write outcome frame.page).2 } := by
  obtain ⟨hsized, hcount, hread, -⟩ := h.sized.write outcome frame.page
  refine ⟨hsized, h.positive, h.bounded, fun hfound => ?_, h.owned,
    fun hown {other found} hfound hclean => ?_⟩
  · rw [hcount]
    exact h.inside hfound
  · have hother : other ≠ id := by
      rintro rfl
      obtain rfl := Option.some.inj (hframe.symm.trans hfound)
      rw [hdirty] at hclean
      cases hclean
    rw [hread other (by rwa [h.owned hown hframe])]
    exact h.clean hown hfound hclean

/-- What flushing frames does: the page file gets the pages of dirty frames, all frames keep their
pages, and those that were not written stay dirty. -/
structure Flushes (own : Prop) (written : List PageId) (pages : PageManager)
    (pool next : BufferPool) : Prop where
  sturdy : next.Sturdy own
  capacity : next.capacity = pool.capacity
  pageCount : next.pages.pageCount = pool.pages.pageCount
  pages : next.pages = pages
  frames : ∀ id, (next.frames.get id).map Frame.page = (pool.frames.get id).map Frame.page
  dirty : ∀ {id frame}, pool.frames.get id = some frame → frame.dirty = true → id ∉ written →
    ∃ kept, next.frames.get id = some kept ∧ kept.dirty = true

/-- The pool after the page of a dirty frame was written. -/
def flushedFrame (pool : BufferPool) (id : PageId) (frame : Frame) (pages : PageManager) :
    BufferPool :=
  { pool with
    pages := pages
    frames := pool.frames.insert id (cleaned frame)
    stats := { pool.stats with writes := pool.stats.writes + 1 } }

theorem flushFrame_clean (hframe : pool.frames.get id = some frame) (hdirty : frame.dirty = false)
    (outcome : WriteOutcome) : pool.flushFrame outcome id = (.ok (), pool) := by
  simp only [BufferPool.flushFrame, hframe, hdirty, Bool.false_eq_true, if_false]

theorem flushFrame_dirty (hframe : pool.frames.get id = some frame) (hdirty : frame.dirty = true)
    (outcome : WriteOutcome) :
    pool.flushFrame outcome id = match pool.pages.write outcome frame.page with
      | (.error cause, pages) => (.error cause, { pool with pages := pages })
      | (.ok _, pages) => (.ok (), pool.flushedFrame id frame pages) := by
  simp only [BufferPool.flushFrame, hframe, hdirty, if_true]
  rfl

/-- A frame whose page was written in place may be clean. -/
theorem Sturdy.flushedFrame (h : pool.Sturdy own) (hframe : pool.frames.get id = some frame)
    (hdirty : frame.dirty = true) {outcome : WriteOutcome} {pages : PageManager}
    (hwrite : pool.pages.write outcome frame.page = (.ok (), pages)) :
    (pool.flushedFrame id frame pages).Sturdy own := by
  have hsturdy := h.writeFrame hframe hdirty outcome
  obtain ⟨-, -, -, hdisk⟩ := h.sized.write outcome frame.page
  rw [hwrite] at hsturdy hdisk
  have hplaced : own → frame.page.id = id := fun hown => h.owned hown hframe
  have hwritten : own → (pages.read id).1 = .ok frame.page := by
    intro hown
    rw [← hplaced hown]
    exact hdisk rfl
  exact ((hsturdy.replace hframe (cleaned frame) hplaced fun hown _ => hwritten hown).note
    pool.clock { pool.stats with writes := pool.stats.writes + 1 }).1

theorem get_flushedFrame_of_ne {other : PageId} (hother : other ≠ id) (pages : PageManager) :
    (pool.flushedFrame id frame pages).frames.get other = pool.frames.get other := by
  rw [BufferPool.flushedFrame, SortedMap.get_insert, if_neg (Ne.symm hother)]

/-- A frame is flushed before others. -/
theorem Flushes.cons {written : List PageId} {pages after : PageManager}
    (hframe : pool.frames.get id = some frame)
    (hcount : pages.pageCount = pool.pages.pageCount)
    (h : Flushes own written after (pool.flushedFrame id frame pages) next) :
    Flushes own (id :: written) after pool next := by
  refine ⟨h.sturdy, h.capacity, h.pageCount.trans hcount, h.pages, fun other => ?_,
    fun {other found} hfound hwas hnot => ?_⟩
  · rw [h.frames other]
    by_cases hother : other = id
    · subst hother
      rw [BufferPool.flushedFrame, SortedMap.get_insert, if_pos rfl, hframe]
      rfl
    · rw [get_flushedFrame_of_ne hother]
  · obtain ⟨hother, hmore⟩ := not_or.mp (List.mem_cons.not.mp hnot)
    exact h.dirty ((get_flushedFrame_of_ne hother pages).trans hfound) hwas hmore

/-- The frames of a list are flushed in order, up to the first failure. -/
theorem Sturdy.flushFrames (h : pool.Sturdy own) (io : Io) {entries : List (PageId × Frame)}
    (hentries : ∀ entry ∈ entries, pool.frames.get entry.1 = some entry.2)
    (hnodup : (entries.map Prod.fst).Nodup) :
    Flushes own (flushed io (entries.map Prod.fst) pool) (writeOut io entries pool.pages) pool
      (pool.flushFrames io (entries.map Prod.fst)).2 := by
  induction entries generalizing pool with
  | nil => exact ⟨h, rfl, rfl, rfl, fun _ => rfl, fun hframe hdirty _ => ⟨_, hframe, hdirty⟩⟩
  | cons entry entries ih =>
      obtain ⟨id, frame⟩ := entry
      obtain ⟨hframe, hrest⟩ := List.forall_mem_cons.mp hentries
      rw [List.map_cons, List.nodup_cons] at hnodup
      obtain ⟨hnew, hnodup⟩ := hnodup
      have hframe : pool.frames.get id = some frame := hframe
      rw [List.map_cons]
      cases hdirty : frame.dirty with
      | false =>
          simp only [BufferPool.flushFrames, flushed, writeOut, flushFrame_clean hframe hdirty,
            hframe, Option.any_some, hdirty, Bool.false_eq_true, if_false]
          exact ih h hrest hnodup
      | true =>
          have hsturdy := h.writeFrame hframe hdirty (io.flush id)
          obtain ⟨-, hcount, -, -⟩ := h.sized.write (io.flush id) frame.page
          cases hwrite : pool.pages.write (io.flush id) frame.page with
          | mk result pages =>
              rw [hwrite] at hsturdy hcount
              simp only [BufferPool.flushFrames, flushed, writeOut, flushFrame_dirty hframe hdirty,
                hframe, Option.any_some, hdirty, if_true, hwrite]
              cases result with
              | error cause =>
                  exact ⟨hsturdy, rfl, hcount, rfl, fun _ => rfl,
                    fun hfound hwas _ => ⟨_, hfound, hwas⟩⟩
              | ok _ =>
                  have hrest : ∀ entry ∈ entries,
                      (pool.flushedFrame id frame pages).frames.get entry.1 = some entry.2 := by
                    intro entry hentry
                    rw [get_flushedFrame_of_ne
                      (ne_of_mem_of_not_mem (List.mem_map_of_mem hentry) hnew)]
                    exact hrest entry hentry
                  have hlast := ih (h.flushedFrame hframe hdirty hwrite) hrest hnodup
                  exact Flushes.cons hframe hcount hlast

/-- After flushing, a page with a frame has the content it had, and another is read from the new
page file. -/
theorem Flushes.content {written : List PageId} {pages : PageManager}
    (h : Flushes own written pages pool next) (id : PageId) :
    next.content id = match pool.frames.get id with
      | some frame => .ok frame.page
      | none => (pages.read id).1 := by
  have hpage := h.frames id
  rw [BufferPool.content, h.pages]
  cases hframe : pool.frames.get id with
  | none =>
      rw [hframe, Option.map_none, Option.map_eq_none_iff] at hpage
      rw [hpage]
  | some frame =>
      rw [hframe, Option.map_some] at hpage
      obtain ⟨kept, hkept, hsame⟩ := Option.map_eq_some_iff.mp hpage
      rw [hkept]
      exact congrArg Except.ok hsame

/-- Flushing frames loses nothing exactly when pages without a frame are read as before. -/
theorem Flushes.settles {α : Type} {written : List PageId} {pages : PageManager}
    (h : Flushes own written pages pool next) (result : Result α) :
    Settles own (∀ id : PageId, id.toNat < pool.pages.pageCount → pool.frames.get id = none →
      (pages.read id).1 = (pool.pages.read id).1) written pool result next := by
  refine ⟨h.sturdy, h.capacity, h.pageCount.ge, fun hspares => ⟨fun id hid => ?_, h.dirty⟩,
    fun hnot => .inr ?_⟩
  · rw [h.content, BufferPool.content]
    cases hframe : pool.frames.get id with
    | none => exact hspares id hid hframe
    | some frame => rfl
  · push Not at hnot
    obtain ⟨id, hid, hnone, hdiffer⟩ := hnot
    refine ⟨id, hid, ?_⟩
    rw [h.content, content_of_none hnone, hnone]
    exact hdiffer

/-- Flushing a pool, failed or not, loses nothing exactly when it spares the pages on disk that have
no frame. -/
theorem Sturdy.flushAll (h : pool.Sturdy own) (io : Io) :
    Settles own (pool.SparesDisk io) (pool.written io .flushAll) pool (pool.flushAll io).1
      (pool.flushAll io).2 := by
  have hflush := h.flushFrames io
    (fun entry hentry => (SortedMap.mem_entries _).mp hentry) pool.frames.nodup_keys
  have hlast (result : Result Unit) := hflush.settles result
  rw [BufferPool.flushAll]
  cases hflushed : pool.flushFrames io pool.frames.keys with
  | mk result next =>
      have hnext : (pool.flushFrames io (pool.frames.entries.map Prod.fst)).2 = next :=
        congrArg Prod.snd hflushed
      rw [hnext] at hlast
      cases result with
      | error cause => exact hlast (.error cause)
      | ok _ =>
          have hflushed := hlast (.ok ())
          refine hflushed.andThen ?_
          dsimp only
          split
          · have hsynced := hflushed.sturdy.sized.of_bytes next.pages.sync rfl rfl
            exact Settles.of_keeps (hflushed.sturdy.repage hsynced.1 le_rfl fun other _ =>
              hsynced.2 other) rfl le_rfl _
          · exact Settles.of_keeps ⟨hflushed.sturdy, LosesNothing.refl _⟩ rfl le_rfl _

/-- Releasing a pin, failed or not, loses nothing. -/
theorem Sturdy.unpin (h : pool.Sturdy own) (id : PageId) :
    Settles own True [] pool (pool.unpin id).1 (pool.unpin id).2 := by
  cases hframe : pool.frames.get id with
  | none =>
      simp only [BufferPool.unpin, hframe]
      exact Settles.of_keeps ⟨h, LosesNothing.refl pool⟩ rfl le_rfl _
  | some frame =>
      simp only [BufferPool.unpin, hframe]
      split
      · exact Settles.of_keeps ⟨h, LosesNothing.refl pool⟩ rfl le_rfl _
      · rename_i pins _
        have hset := h.reframe hframe { frame with pins := pins } rfl fun hclean => hclean
        exact Settles.of_keeps hset rfl le_rfl _

/-- `getMut` leaves the page that it answers in a dirty frame. -/
theorem getMut_eq_ok {io : Io} {page : Page} (h : pool.getMut io id = (.ok page, next)) :
    ∃ frame, next.frames.get id = some frame ∧ frame.page = page ∧ frame.dirty = true := by
  rw [BufferPool.getMut, BufferPool.access] at h
  split at h
  · cases h
  · split at h
    · cases h
    · rename_i frame hframe
      cases h
      exact ⟨{ frame with dirty := true }, by simp, rfl, rfl⟩

/-- A caller's change of a page in a dirty frame keeps the invariants of the pool. -/
theorem Sturdy.setPage (h : pool.Sturdy own) (hframe : pool.frames.get id = some frame)
    (hdirty : frame.dirty = true) {page : Page} (hid : own → page.id = id) :
    (pool.setPage id page).Sturdy own := by
  simp only [BufferPool.setPage, hframe]
  refine h.replace hframe { frame with page := page } hid fun _ hclean => ?_
  rw [show frame.dirty = false from hclean] at hdirty
  cases hdirty

/-- A call keeps the invariants of the pool, and if it fails, it loses nothing exactly when it is
safe. -/
theorem Sturdy.perform (h : pool.Sturdy own) (io : Io) (call : PoolCall) :
    ((own → KeepsIds call) → (pool.perform io call).2.Sturdy own) ∧
      ∀ cause, (pool.perform io call).1 = .error cause →
        (pool.LosesNothing (pool.written io call) (pool.perform io call).2 ↔
          pool.Safe io call) := by
  cases call with
  | allocate =>
      exact ⟨fun _ => (h.allocate io).sturdy, fun _ _ => (h.allocate io).losesNothing_iff⟩
  | get id => exact ⟨fun _ => (h.get io id).sturdy, fun _ _ => (h.get io id).losesNothing_iff⟩
  | getMut id change =>
      have hget := h.getMut io id
      simp only [BufferPool.perform, BufferPool.mutate]
      cases hresult : pool.getMut io id with
      | mk result next =>
          rw [hresult] at hget
          cases result with
          | error cause => exact ⟨fun _ => hget.sturdy, fun _ _ => hget.losesNothing_iff⟩
          | ok page =>
              obtain ⟨frame, hframe, rfl, hdirty⟩ := getMut_eq_ok hresult
              refine ⟨fun hids => hget.sturdy.setPage hframe hdirty fun hown => ?_,
                fun cause hcause => ?_⟩
              · rw [hids hown, hget.sturdy.owned hown hframe]
              · cases hcause
  | pin id => exact ⟨fun _ => (h.pin io id).sturdy, fun _ _ => (h.pin io id).losesNothing_iff⟩
  | unpin id =>
      have hunpin := h.unpin id
      refine ⟨fun _ => hunpin.sturdy, fun _ _ => ?_⟩
      exact ⟨fun _ hevicts => hevicts.elim, fun _ => hunpin.kept trivial⟩
  | flushAll =>
      exact ⟨fun _ => (h.flushAll io).sturdy, fun _ _ => (h.flushAll io).losesNothing_iff⟩

/-- The invariants hold after any calls, failed or not. -/
theorem Sturdy.afterCalls {calls : List (Io × PoolCall)} (h : pool.Sturdy own)
    (hids : own → ∀ call ∈ calls, KeepsIds call.2) : (pool.afterCalls calls).Sturdy own := by
  induction calls generalizing pool with
  | nil => exact h
  | cons call calls ih =>
      have hnext := (h.perform call.1 call.2).1 fun hown => hids hown call List.mem_cons_self
      exact ih hnext fun hown other hother => hids hown other (List.mem_cons_of_mem _ hother)

/-- A pool that opens a page file has the invariants. -/
theorem sturdy_openFile {file : File} {capacity : Nat}
    (hfits : file.bytes.length ≤ maxFileLength) (hopen : openFile file capacity = .ok pool) :
    pool.Sturdy own := by
  obtain ⟨⟨images, hcoherent⟩, -⟩ := sound_openFile hfits hopen
  refine ⟨⟨hcoherent.holds.length_eq.ge, hcoherent.holds.fits⟩, hcoherent.positive,
    hcoherent.bounded, fun hframe => ?_, fun _ _ _ hframe => (hcoherent.placed hframe).1,
    fun _ _ _ hframe hclean => ?_⟩
  · exact hcoherent.holds.count ▸ (hcoherent.placed hframe).2.2
  · rw [hcoherent.holds.read_eq]
    exact hcoherent.clean hframe hclean

/-- While frames hold pages under their ids, nothing written changes a page without a frame. -/
theorem read_writeOut (io : Io) {pages : PageManager} (hsized : pages.Sized)
    {entries : List (PageId × Frame)} (howned : ∀ entry ∈ entries, entry.2.page.id = entry.1)
    (hother : id ∉ entries.map Prod.fst) :
    ((writeOut io entries pages).read id).1 = (pages.read id).1 := by
  induction entries generalizing pages with
  | nil => rfl
  | cons entry entries ih =>
      obtain ⟨other, frame⟩ := entry
      obtain ⟨hid, howned⟩ := List.forall_mem_cons.mp howned
      obtain ⟨hne, hother⟩ := not_or.mp (List.mem_cons.not.mp hother)
      have hne : id ≠ frame.page.id := hid ▸ hne
      obtain ⟨hnext, -, hread, -⟩ := hsized.write (io.flush other) frame.page
      rw [writeOut]
      split
      · cases hwrite : pages.write (io.flush other) frame.page with
        | mk result after =>
            rw [hwrite] at hnext hread
            cases result with
            | error cause => exact hread id hne
            | ok _ => exact (ih hnext howned hother).trans (hread id hne)
      · exact ih hsized howned hother

/-- While pages keep their ids, only a write-back that fails makes a call unsafe. -/
theorem Sturdy.safe_iff (h : pool.Sturdy True) (io : Io) (call : PoolCall) :
    pool.Safe io call ↔ (pool.Evicts call → pool.WritesBack io.eviction) := by
  have hvictim : pool.KeepsVictim io.eviction ↔ pool.WritesBack io.eviction := by
    constructor
    · intro hkeeps id frame hsome hdirty
      have hback := hkeeps id frame hsome
      rw [hdirty, if_pos rfl] at hback
      exact hback.2
    · intro hback id frame hsome
      obtain ⟨hframe, -⟩ := victim_eq_some hsome
      cases hdirty : frame.dirty with
      | true => exact ⟨h.owned trivial hframe, hback id frame hsome hdirty⟩
      | false => exact h.clean trivial hframe hdirty
  cases call with
  | flushAll =>
      refine ⟨fun _ hevicts => hevicts.elim, fun _ id _ hnone => ?_⟩
      apply read_writeOut io h.sized
      · exact fun entry hentry => h.owned trivial ((SortedMap.mem_entries _).mp hentry)
      · intro hmem
        obtain ⟨⟨other, frame⟩, hentry, rfl⟩ := List.mem_map.mp hmem
        rw [(SortedMap.mem_entries _).mp hentry] at hnone
        cases hnone
  | _ => exact imp_congr_right fun _ => hvictim

end BufferPool

open BufferPool

/-- Take any calls of a pool that was opened on a page file, with any I/O failing, and then a call
that fails. It leaves every page its content, and every dirty page that it has not written in a
dirty frame, exactly when it is safe. If the pages kept their ids, this says that it evicts no page
whose write-back fails. -/
theorem failed_call_loses_nothing_iff {file : File} {capacity : Nat} {start next : BufferPool}
    {calls : List (Io × PoolCall)} {io : Io} {call : PoolCall} {cause : NovaError}
    (hfits : file.bytes.length ≤ maxFileLength)
    (hopen : BufferPool.openFile file capacity = .ok start)
    (hfails : (start.afterCalls calls).perform io call = (.error cause, next)) :
    ((start.afterCalls calls).LosesNothing ((start.afterCalls calls).written io call) next ↔
      (start.afterCalls calls).Safe io call) ∧
    ((∀ call ∈ calls, KeepsIds call.2) →
      ((start.afterCalls calls).LosesNothing ((start.afterCalls calls).written io call) next ↔
        ((start.afterCalls calls).Evicts call →
          (start.afterCalls calls).WritesBack io.eviction))) := by
  have hsafe : (start.afterCalls calls).LosesNothing ((start.afterCalls calls).written io call)
      next ↔ (start.afterCalls calls).Safe io call := by
    have hstart : start.Sturdy False := sturdy_openFile hfits hopen
    have hsturdy : (start.afterCalls calls).Sturdy False := hstart.afterCalls fun hown => hown.elim
    have hcall := (hsturdy.perform io call).2 cause
    rw [hfails] at hcall
    exact hcall rfl
  refine ⟨hsafe, fun hids => hsafe.trans ?_⟩
  have hstart : start.Sturdy True := sturdy_openFile hfits hopen
  exact (hstart.afterCalls fun _ => hids).safe_iff io call

/-- The first page gets a record, in the only frame. -/
def changedPage : List (Io × PoolCall) :=
  [(.perfect, .allocate), (.perfect, .getMut 0 fun page => (page.insert [7]).2)]

/-- The write-back of a victim stores nothing. -/
def lostWriteBack : Io := { Io.perfect with eviction := .cut 0 }

/-- The pool after these calls, over a file that gets one empty page. -/
theorem afterCalls_changedPage {first pages : PageManager}
    (hallocate : first.allocate .complete = (.ok 0, pages))
    (hread : (pages.read 0).1 = .ok (Page.new 0)) :
    ∃ stats, afterCalls changedPage ⟨first, .empty, 1, 0, ⟨0, 0, 0, 0⟩⟩ =
      ⟨(pages.read 0).2, SortedMap.empty.insert 0 ⟨⟨0, [some [7]]⟩, true, 0, 2⟩, 1, 2, stats⟩ := by
  have hpair : pages.read 0 = (.ok (Page.new 0), (pages.read 0).2) := by rw [← hread]
  have hinsert : ((Page.new 0).insert [7]).2 = ⟨0, [some [7]]⟩ := by decide +kernel
  have hroom (pages : PageManager) (stats : BufferStats) (clock : UInt64) :
      makeRoom .complete ⟨pages, .empty, 1, clock, stats⟩ =
        (.ok (), ⟨pages, .empty, 1, clock, stats⟩) := rfl
  have hfirst : perform .perfect ⟨first, .empty, 1, 0, ⟨0, 0, 0, 0⟩⟩ .allocate =
      (.ok (), ⟨(pages.read 0).2, SortedMap.empty.insert 0 ⟨Page.new 0, false, 0, 1⟩, 1, 1,
        ⟨0, 1, 0, 0⟩⟩) := by
    simp only [perform, BufferPool.allocate, eviction_perfect, allocation_perfect, hroom,
      hallocate, load, SortedMap.get_empty, fetch_perfect]
    rw [hpair]
    rfl
  refine ⟨⟨1, 1, 0, 0⟩, ?_⟩
  simp only [afterCalls, changedPage, List.foldl_cons, List.foldl_nil, hfirst]
  simp only [perform, mutate, getMut, access, load, SortedMap.get_insert, if_true, setPage,
    SortedMap.insert_insert, hinsert]
  rfl

/-- The only frame is given up although its page was not written. -/
theorem allocate_lostWriteBack {pages : PageManager} {frame : Frame} (clock : UInt64)
    (stats : BufferStats) (hsized : pages.Sized) (hdirty : frame.dirty = true)
    (hpins : frame.pins = 0) :
    ∃ cause next, perform lostWriteBack ⟨pages, SortedMap.empty.insert 0 frame, 1, clock, stats⟩
        .allocate = (.error cause, next) ∧
      next.frames.get 0 = none ∧ next.content 0 = (pages.read 0).1 ∧
      ¬WritesBack lostWriteBack.eviction
        ⟨pages, SortedMap.empty.insert 0 frame, 1, clock, stats⟩ := by
  obtain ⟨hfails, hread⟩ := hsized.write_nothing frame.page
  have hvictim : victim ⟨pages, SortedMap.empty.insert 0 frame, 1, clock, stats⟩ =
      some (0, frame) := by
    simp [victim, SortedMap.insert, SortedMap.empty, Entries.insert, hpins, List.minOn?]
  have hnone : ((SortedMap.empty.insert 0 frame).remove 0).get 0 = none := by
    rw [SortedMap.get_remove, if_pos rfl]
  have hfull : len ⟨pages, SortedMap.empty.insert 0 frame, 1, clock, stats⟩ = 1 := rfl
  cases hwrite : pages.write (.cut 0) frame.page with
  | mk result after =>
      rw [hwrite] at hfails hread
      cases result with
      | ok _ => exact absurd rfl hfails
      | error cause =>
          refine ⟨cause, ⟨after, (SortedMap.empty.insert 0 frame).remove 0, 1, clock, stats⟩, ?_,
            hnone, ?_, fun hback => ?_⟩
          · simp only [perform, BufferPool.allocate, makeRoom, hfull, if_true, evictOne, hvictim,
              hdirty, lostWriteBack, hwrite]
            rfl
          · rw [content_of_none hnone]
            exact hread 0
          · have hwritten := hback 0 frame hvictim hdirty
            simp only [lostWriteBack, hwrite] at hwritten
            cases hwritten

/-- What happens when the frame of the changed page is needed for a new page. -/
theorem changedPage_fails : ∃ start next cause,
    BufferPool.openFile ⟨[], 0, 0⟩ 1 = .ok start ∧
    (start.afterCalls changedPage).content 0 = .ok ⟨0, [some [7]]⟩ ∧
    (start.afterCalls changedPage).perform lostWriteBack .allocate = (.error cause, next) ∧
    (next.frames.get 0 = none ∧ next.content 0 = .ok (Page.new 0)) ∧
    ¬((start.afterCalls changedPage).Evicts .allocate →
      (start.afterCalls changedPage).WritesBack lostWriteBack.eviction) := by
  have hholds : PageManager.Holds ⟨⟨[], 0, 0⟩, 0⟩ [] :=
    ⟨Blocks.nil pageSize, rfl, Nat.zero_le _⟩
  have hzero : UInt64.ofNat ([] : List Bytes).length = 0 := rfl
  rcases hholds.allocate .complete with ⟨pages, hallocate, hpages⟩ | ⟨_, _, _, hfull⟩
  · rw [hzero] at hallocate
    have hread : (pages.read 0).1 = .ok (Page.new 0) := by
      rw [hpages.read_eq, readImage_append (by decide), if_pos hzero.symm]
    have hstate := hpages.read_state 0
    obtain ⟨stats, hafter⟩ := afterCalls_changedPage hallocate hread
    have hdirty : (Frame.mk ⟨0, [some [7]]⟩ true 0 2).dirty = true := rfl
    obtain ⟨cause, next, hfails, hnone, hcontent, hlost⟩ :=
      allocate_lostWriteBack 2 stats ⟨hstate.length_eq.ge, hstate.fits⟩ hdirty rfl
    rw [← hafter] at hfails hlost
    refine ⟨⟨⟨⟨[], 0, 0⟩, 0⟩, .empty, 1, 0, ⟨0, 0, 0, 0⟩⟩, next, cause, rfl, ?_, hfails,
      ⟨hnone, ?_⟩, fun hsafe => hlost (hsafe ?_)⟩
    · rw [hafter, content, SortedMap.get_insert, if_pos rfl]
    · rw [hcontent, hstate.read_eq, ← hpages.read_eq, hread]
    · rw [hafter]
      rfl
  · exact absurd (hfull rfl) (by decide)

/-- A page gets a record, its frame is needed for a new page, and the write-back fails: the call
fails as well, and the record is gone. -/
theorem failed_write_back_loses_change : ∃ start next cause,
    BufferPool.openFile ⟨[], 0, 0⟩ 1 = .ok start ∧
    (start.afterCalls changedPage).content 0 = .ok ⟨0, [some [7]]⟩ ∧
    (start.afterCalls changedPage).perform lostWriteBack .allocate = (.error cause, next) ∧
    next.frames.get 0 = none ∧ next.content 0 = .ok (Page.new 0) := by
  obtain ⟨start, next, cause, hopen, hcontent, hfails, ⟨hgone, hlost⟩, -⟩ := changedPage_fails
  exact ⟨start, next, cause, hopen, hcontent, hfails, hgone, hlost⟩

/-- The failed write-back is what makes that call lose something. -/
theorem failed_call_loses_nothing_iff_changedPage : ∃ start next cause,
    BufferPool.openFile ⟨[], 0, 0⟩ 1 = .ok start ∧
    (start.afterCalls changedPage).perform lostWriteBack .allocate = (.error cause, next) ∧
    ¬(start.afterCalls changedPage).LosesNothing
      ((start.afterCalls changedPage).written lostWriteBack .allocate) next := by
  have hids : ∀ call ∈ changedPage, KeepsIds call.2 := by
    intro call hcall
    simp only [changedPage, List.mem_cons, List.not_mem_nil, or_false] at hcall
    rcases hcall with rfl | rfl
    · trivial
    · intro page
      exact Page.id_insert page [7]
  obtain ⟨start, next, cause, hopen, -, hfails, -, hunsafe⟩ := changedPage_fails
  refine ⟨start, next, cause, hopen, hfails, fun hkept => hunsafe ?_⟩
  exact ((failed_call_loses_nothing_iff (Nat.zero_le _) hopen hfails).2 hids).mp hkept

end NovaBase.Buffer
