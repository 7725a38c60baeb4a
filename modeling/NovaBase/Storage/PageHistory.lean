import Mathlib.Logic.Function.Basic
import NovaBase.Lib.Run
import NovaBase.Storage.PageFit

/-!
# Pages after any calls

Insertions and removals start from an empty page. As long as every insertion
leaves room for its directory entry, the page fits its image and the image
holds exactly the records that the calls have left. The free space is computed
with a subtraction that stops at zero, so an empty record is accepted even
where its directory entry has no room; the page can then no longer be written.
-/

namespace NovaBase.Storage

open Lib Lib.Bytes

namespace Page

theorem length_payload_append (a b : List (Option Bytes)) :
    (payload (a ++ b)).length = (payload a).length + (payload b).length := by
  induction a with
  | nil => simp [payload]
  | cons slot a ih =>
      cases slot with
      | none => exact ih
      | some record =>
          simp only [List.cons_append, payload, List.length_append, ih]
          omega

theorem sum_lengths (slots : List (Option Bytes)) :
    (slots.filterMap fun slot => slot.map List.length).sum = (payload slots).length := by
  induction slots with
  | nil => rfl
  | cons slot slots ih =>
      cases slot with
      | none => exact ih
      | some record =>
          simp only [List.filterMap_cons, Option.map_some, List.sum_cons, payload,
            List.length_append, ih]
          omega

/-- The bytes that the header, the directory and the payload take. -/
def used (page : Page) : Nat :=
  pageHeaderSize + page.slots.length * slotSize + (payload page.slots).length

theorem fits_iff {page : Page} : page.Fits ↔ page.used ≤ pageSize := Iff.rfl

theorem freeSpace_eq (page : Page) :
    page.freeSpace =
      pageSize - page.used - if page.slots.any Option.isNone then 0 else slotSize := by
  simp only [freeSpace, sum_lengths, used]

/-- A page with an image fits it. -/
theorem fits_of_toBytes {page : Page} {bytes : Bytes} (h : page.toBytes = .ok bytes) :
    page.Fits := by
  obtain ⟨-, -, last, hlast, hroom, -⟩ := toBytes_eq h
  simp only [Fits]
  omega

theorem Fits.length_lt {page : Page} (h : page.Fits) : page.slots.length < 65536 := by
  simp only [Fits, pageHeaderSize, slotSize, pageSize] at h
  omega

/-- The record goes into the first deleted slot, or into a new one. -/
theorem insert_cases (page : Page) (record : Bytes) :
    (page.freeSpace < record.length ∧ ∃ cause, page.insert record = (.error cause, page)) ∨
    record.length ≤ page.freeSpace ∧
      ((∃ before after, page.slots = before ++ none :: after ∧
          page.insert record =
            (slotId before.length, { page with slots := before ++ some record :: after })) ∨
        page.slots.any Option.isNone = false ∧
          page.insert record = match slotId page.slots.length with
            | .error cause => (.error cause, page)
            | .ok id => (.ok id, { page with slots := page.slots ++ [some record] })) := by
  rw [insert]
  by_cases hspace : page.freeSpace < record.length
  · exact .inl ⟨hspace, _, if_pos hspace⟩
  · refine .inr ⟨not_lt.mp hspace, ?_⟩
    rw [if_neg hspace]
    cases hfind : page.slots.findIdx? Option.isNone with
    | none =>
        refine .inr ⟨?_, rfl⟩
        rw [List.findIdx?_eq_none_iff] at hfind
        exact List.any_eq_false.mpr fun slot hslot => by simp [hfind slot hslot]
    | some index =>
        obtain ⟨hlt, hnone, -⟩ := List.findIdx?_eq_some_iff_getElem.mp hfind
        have hslot : page.slots[index] = none := by simpa using hnone
        have hsplit :
            page.slots = page.slots.take index ++ none :: page.slots.drop (index + 1) := by
          rw [← hslot, List.getElem_cons_drop, List.take_append_drop]
        have hlength : (page.slots.take index).length = index := by
          rw [List.length_take, min_eq_left hlt.le]
        refine .inl ⟨page.slots.take index, page.slots.drop (index + 1), hsplit, ?_⟩
        dsimp only
        rw [hlength, List.set_eq_take_append_cons_drop, if_pos hlt]

end Page

/-- One call that changes a page. -/
inductive PageEdit
  | insert (record : Bytes)
  | remove (slot : SlotId)
  deriving DecidableEq

namespace PageEdit

/-- The page after the call. -/
def run (page : Page) : PageEdit → Page
  | .insert record => (page.insert record).2
  | .remove slot => (page.remove slot).2

/-- The records that are known to be stored, after what the call has answered. -/
def note (page : Page) (known : SlotId → Option Bytes) : PageEdit → SlotId → Option Bytes
  | .insert record =>
      match (page.insert record).1 with
      | .ok slot => Function.update known slot (some record)
      | .error _ => known
  | .remove slot =>
      match (page.remove slot).1 with
      | .ok _ => Function.update known slot none
      | .error _ => known

/-- An empty record that needs a new slot finds room for its directory entry. -/
def Roomy (page : Page) : PageEdit → Prop
  | .insert [] => page.slots.any Option.isNone = true ∨ page.used + slotSize ≤ pageSize
  | _ => True

end PageEdit

/-- What the calls on a page, one after another, have stored in each slot and not removed. -/
def lastStored : List PageEdit → Page → (SlotId → Option Bytes) → SlotId → Option Bytes
  | [], _, known => known
  | edit :: edits, page, known => lastStored edits (edit.run page) (edit.note page known)

/-- A call never fails to give a next page. -/
def editStep (page : Page) (edit : PageEdit) : Option Page := some (edit.run page)

namespace Page

variable {page : Page}

theorem used_replace {before after : List (Option Bytes)} (record : Bytes)
    (h : page.slots = before ++ none :: after) :
    used { page with slots := before ++ some record :: after } = page.used + record.length := by
  simp only [used, h, length_payload_append, payload, List.length_append, List.length_cons]
  omega

theorem used_push (page : Page) (record : Bytes) :
    used { page with slots := page.slots ++ [some record] } =
      page.used + slotSize + record.length := by
  simp only [used, length_payload_append, payload, List.length_append, List.length_singleton,
    List.nil_append, Nat.add_mul]
  omega

theorem id_insert (page : Page) (record : Bytes) : (page.insert record).2.id = page.id := by
  rw [Page.insert]
  split
  · rfl
  · split
    · rfl
    · split <;> rfl

/-- An insertion keeps a page fitting unless it is an empty record without room. -/
theorem Fits.insert (h : page.Fits) {record : Bytes} :
    (page.insert record).2.Fits ↔ (PageEdit.insert record).Roomy page := by
  have hfree := page.freeSpace_eq
  rw [fits_iff] at h
  have hroomy : (PageEdit.insert record).Roomy page ↔ (record = [] →
      page.slots.any Option.isNone = true ∨ page.used + slotSize ≤ pageSize) := by
    cases record <;> simp [PageEdit.Roomy]
  rw [hroomy]
  rcases page.insert_cases record with ⟨hspace, cause, hinsert⟩ |
    ⟨hspace, ⟨before, after, hslots, hinsert⟩ | ⟨hfull, hinsert⟩⟩
  · rw [hinsert]
    refine iff_of_true h fun hnil => ?_
    subst hnil
    exact absurd hspace (Nat.not_lt_zero _)
  · have hany : page.slots.any Option.isNone = true := by simp [hslots]
    rw [hinsert]
    refine iff_of_true ?_ fun _ => .inl hany
    rw [fits_iff, used_replace record hslots]
    rw [hany, if_pos rfl] at hfree
    omega
  · have hslot : slotId page.slots.length = .ok (UInt16.ofNat page.slots.length) :=
      if_pos (fits_iff.mpr h).length_lt
    rw [hinsert, hslot, fits_iff, used_push]
    simp only [hfull, Bool.false_eq_true, if_false, false_or] at hfree ⊢
    cases record with
    | nil => simp
    | cons byte record =>
        simp only [List.length_cons] at hspace ⊢
        refine iff_of_true ?_ (by simp)
        omega

theorem Fits.remove (h : page.Fits) (slot : SlotId) : (page.remove slot).2.Fits := by
  rw [Page.remove]
  cases hget : page.get slot with
  | none => exact h
  | some record =>
      have hslot : page.slots[slot.toNat]? = some (some record) := by
        simpa [Page.get, Option.join_eq_some_iff] using hget
      obtain ⟨hlt, hat⟩ := List.getElem?_eq_some_iff.mp hslot
      have hsplit : page.slots = page.slots.take slot.toNat ++
          some record :: page.slots.drop (slot.toNat + 1) := by
        rw [← hat, List.getElem_cons_drop, List.take_append_drop]
      have hset : page.slots.set slot.toNat none =
          page.slots.take slot.toNat ++ none :: page.slots.drop (slot.toNat + 1) := by
        rw [List.set_eq_take_append_cons_drop, if_pos hlt]
      have hpayload := congrArg (fun slots => (payload slots).length) hsplit
      rw [fits_iff] at h ⊢
      simp only [length_payload_append, payload, List.length_append] at hpayload
      simp only [used, List.length_set] at h ⊢
      rw [hset]
      simp only [length_payload_append, payload]
      omega

/-- A call keeps a page fitting exactly when it is roomy. -/
theorem Fits.run (h : page.Fits) (edit : PageEdit) : (edit.run page).Fits ↔ edit.Roomy page := by
  cases edit with
  | insert record => exact h.insert
  | remove slot => exact iff_of_true (h.remove slot) trivial

theorem get_of_slots {slots : List (Option Bytes)} (id : PageId) {index : Nat}
    (hindex : index < 65536) {value : Option Bytes} {known : SlotId → Option Bytes}
    (hat : (slots[index]?).join = value)
    (helse : ∀ slot : SlotId, slot.toNat ≠ index → (slots[slot.toNat]?).join = known slot) :
    (⟨id, slots⟩ : Page).get = Function.update known (UInt16.ofNat index) value := by
  funext slot
  have hindex' : (UInt16.ofNat index).toNat = index := by
    rw [UInt16.toNat_ofNat', Nat.mod_eq_of_lt hindex]
  by_cases hslot : slot = UInt16.ofNat index
  · subst hslot
    rw [Function.update_self, Page.get, hindex', hat]
  · rw [Function.update_of_ne hslot, Page.get]
    refine helse slot fun heq => hslot (UInt16.toNat_inj.mp ?_)
    rw [heq, hindex']

/-- After a call each slot holds what the call's answer says. -/
theorem Fits.get_run (h : page.Fits) (edit : PageEdit) :
    (edit.run page).get = edit.note page page.get := by
  have hlength := h.length_lt
  cases edit with
  | insert record =>
      rw [PageEdit.run, PageEdit.note]
      rcases page.insert_cases record with ⟨-, cause, hinsert⟩ |
        ⟨-, ⟨before, after, hslots, hinsert⟩ | ⟨-, hinsert⟩⟩
      · rw [hinsert]
      · have hbefore : before.length < 65536 := by
          rw [hslots, List.length_append, List.length_cons] at hlength
          omega
        rw [hinsert, slotId, if_pos hbefore]
        refine get_of_slots page.id hbefore (by simp) fun slot hslot => ?_
        rw [Page.get, hslots]
        rcases Nat.lt_or_gt_of_ne hslot with hlt | hgt
        · rw [List.getElem?_append_left hlt, List.getElem?_append_left hlt]
        · obtain ⟨k, hk⟩ := Nat.exists_eq_add_of_lt hgt
          rw [List.getElem?_append_right (by omega), List.getElem?_append_right (by omega), hk,
            show before.length + k + 1 - before.length = k + 1 by omega,
            List.getElem?_cons_succ, List.getElem?_cons_succ]
      · rw [hinsert, slotId, if_pos hlength]
        refine get_of_slots page.id hlength (by simp) fun slot hslot => ?_
        rw [Page.get]
        rcases Nat.lt_or_gt_of_ne hslot with hlt | hgt
        · rw [List.getElem?_append_left hlt]
        · rw [List.getElem?_eq_none (by simpa using Nat.succ_le_of_lt hgt),
            List.getElem?_eq_none hgt.le]
  | remove slot =>
      rw [PageEdit.run, PageEdit.note, Page.remove]
      cases hget : page.get slot with
      | none => rfl
      | some record =>
          have hslot : slot.toNat < page.slots.length := by
            by_contra hout
            rw [Page.get, List.getElem?_eq_none (not_lt.mp hout)] at hget
            simp at hget
          have hempty : ((page.slots.set slot.toNat none)[slot.toNat]?).join = none := by
            simp [hslot]
          have hupdate := get_of_slots page.id slot.toNat_lt hempty
            fun other hother => show _ = page.get other by
              rw [Page.get, List.getElem?_set_ne (Ne.symm hother)]
          rw [UInt16.ofNat_toNat] at hupdate
          exact hupdate

theorem id_run (edit : PageEdit) : (edit.run page).id = page.id := by
  cases edit with
  | insert record =>
      rw [PageEdit.run]
      rcases page.insert_cases record with ⟨-, cause, hinsert⟩ |
        ⟨-, ⟨before, after, -, hinsert⟩ | ⟨-, hinsert⟩⟩
      · rw [hinsert]
      · rw [hinsert]
      · rw [hinsert]
        cases slotId page.slots.length <;> rfl
  | remove slot =>
      rw [PageEdit.run, Page.remove]
      cases page.get slot <;> rfl

/-- A record that has room goes into a slot that was free. -/
theorem Fits.insert_ok (h : page.Fits) {record : Bytes} (hspace : record.length ≤ page.freeSpace)
    (hrecord : record ≠ []) :
    ∃ slot next, page.insert record = (.ok slot, next) ∧ next.Fits ∧ next.id = page.id ∧
      page.get slot = none ∧ next.get = Function.update page.get slot (some record) := by
  have hlength := h.length_lt
  obtain ⟨slot, hslot, hfree⟩ : ∃ slot, (page.insert record).1 = .ok slot ∧
      page.get slot = none := by
    rcases page.insert_cases record with ⟨hfull, -⟩ |
      ⟨-, ⟨before, after, hslots, hinsert⟩ | ⟨-, hinsert⟩⟩
    · omega
    · have hbefore : before.length < 65536 := by
        rw [hslots, List.length_append, List.length_cons] at hlength
        omega
      refine ⟨UInt16.ofNat before.length, by rw [hinsert, slotId, if_pos hbefore], ?_⟩
      rw [Page.get, UInt16.toNat_ofNat', Nat.mod_eq_of_lt hbefore, hslots]
      simp
    · refine ⟨UInt16.ofNat page.slots.length, by rw [hinsert, slotId, if_pos hlength], ?_⟩
      rw [Page.get, UInt16.toNat_ofNat', Nat.mod_eq_of_lt hlength]
      simp
  have hroomy : (PageEdit.insert record).Roomy page := by
    cases record with
    | nil => exact absurd rfl hrecord
    | cons byte record => exact trivial
  refine ⟨slot, (page.insert record).2, by rw [← hslot], h.insert.mpr hroomy,
    id_run (.insert record), hfree, ?_⟩
  have hget := h.get_run (.insert record)
  simp only [PageEdit.note, hslot] at hget
  exact hget

theorem mem_records {slot : SlotId} {record : Bytes} :
    (slot, record) ∈ page.records ↔ page.get slot = some record := by
  simp only [records, List.mem_filterMap, List.mem_zipIdx_iff_getElem?,
    Option.ite_none_right_eq_some,
    Option.map_eq_some_iff, Prod.mk.injEq, Page.get, Option.join_eq_some_iff, Prod.exists]
  constructor
  · rintro ⟨stored, index, hat, hindex, found, rfl, rfl, rfl⟩
    rwa [UInt16.toNat_ofNat', Nat.mod_eq_of_lt hindex]
  · intro hat
    exact ⟨some record, slot.toNat, hat, slot.toNat_lt, record, rfl, UInt16.ofNat_toNat, rfl⟩

theorem nodup_records (page : Page) : (page.records.map Prod.fst).Nodup := by
  have hindices : (page.slots.zipIdx.map Prod.snd).Nodup := by
    rw [List.zipIdx_map_snd]
    exact List.nodup_range'
  rw [List.Nodup, List.pairwise_map] at hindices ⊢
  refine List.pairwise_filterMap.mpr (hindices.imp ?_)
  rintro ⟨first, i⟩ ⟨second, j⟩ hne ⟨slot, record⟩ hfirst ⟨other, another⟩ hsecond rfl
  simp only [Option.ite_none_right_eq_some, Option.map_eq_some_iff, Prod.mk.injEq] at hfirst hsecond
  obtain ⟨hi, -, -, hslot, -⟩ := hfirst
  obtain ⟨hj, -, -, hother, -⟩ := hsecond
  refine hne ?_
  have heq := congrArg UInt16.toNat (hslot.trans hother.symm)
  rwa [UInt16.toNat_ofNat', UInt16.toNat_ofNat', Nat.mod_eq_of_lt hi, Nat.mod_eq_of_lt hj] at heq

/-- The image of the page gives back an equal page, with the given id and records. -/
def Restores (page : Page) (id : PageId) (known : SlotId → Option Bytes) : Prop :=
  ∃ bytes, page.toBytes = .ok bytes ∧ fromBytes bytes = .ok page ∧ page.id = id ∧
    page.get = known

theorem Fits.restores (h : page.Fits) : page.Restores page.id page.get := by
  obtain ⟨bytes, hbytes⟩ := toBytes_of_fits h
  exact ⟨bytes, hbytes, fromBytes_toBytes hbytes, rfl, rfl⟩

/-- From a page that fits, every page on the way can be restored with the records stored so far
if and only if every call is roomy. -/
theorem Fits.restores_iff (h : page.Fits) (edits : List PageEdit) :
    (∀ k next, Lib.run editStep (edits.take k) page = some next →
        next.Restores page.id (lastStored (edits.take k) page page.get)) ↔
      Along editStep (fun page edit => edit.Roomy page) edits page := by
  induction edits generalizing page with
  | nil =>
      refine iff_of_true (fun k next hrun => ?_) trivial
      obtain rfl : page = next := by simpa using hrun
      rw [List.take_nil]
      exact h.restores
  | cons edit edits ih =>
      have hstep : editStep page edit = some (edit.run page) := rfl
      have hfirst : Along editStep (fun page edit => edit.Roomy page) (edit :: edits) page ↔
          edit.Roomy page ∧
            Along editStep (fun page edit => edit.Roomy page) edits (edit.run page) := Iff.rfl
      have hlast (k : Nat) : lastStored ((edit :: edits).take (k + 1)) page page.get =
          lastStored (edits.take k) (edit.run page) (edit.run page).get := by
        rw [List.take_succ_cons, lastStored, h.get_run]
      rw [hfirst, ← h.run edit]
      constructor
      · intro hall
        have hfits : (edit.run page).Fits := by
          obtain ⟨bytes, hbytes, -⟩ := hall 1 (edit.run page) rfl
          exact fits_of_toBytes hbytes
        refine ⟨hfits, (ih hfits).mp fun k next hrun => ?_⟩
        have hnext := hall (k + 1) next (run_cons.mpr ⟨_, hstep, hrun⟩)
        rwa [hlast, ← id_run edit] at hnext
      · rintro ⟨hfits, hrest⟩ k next hrun
        cases k with
        | zero =>
            obtain rfl : page = next := by simpa using hrun
            exact h.restores
        | succ k =>
            obtain ⟨middle, hmiddle, hrun⟩ := run_cons.mp hrun
            cases hmiddle
            rw [hlast, ← id_run edit]
            exact (ih hfits).mpr hrest k next hrun

/-- Every page on the way from an empty one can be written and read back with its records if and
only if every empty record that needs a new slot finds room for its directory entry. -/
theorem restores_iff_roomy (id : PageId) (edits : List PageEdit) :
    (∀ k page, Lib.run editStep (edits.take k) (Page.new id) = some page →
        page.Restores id (lastStored (edits.take k) (Page.new id) fun _ => none)) ↔
      Along editStep (fun page edit => edit.Roomy page) edits (Page.new id) := by
  have hempty : (Page.new id).get = fun _ => none := by
    funext slot
    simp [Page.get, Page.new]
  have hfits : (Page.new id).Fits := fits_new id
  rw [← hfits.restores_iff edits, hempty]
  rfl

/-- A page that one record fills completely. -/
def fullPage : Page := PageEdit.run (Page.new 0) (.insert (List.replicate 4060 7))

/-- The full page accepts an empty record, and has no image then. -/
theorem empty_record_overflows :
    (fullPage.insert []).1 = .ok 1 ∧
      ¬∃ bytes, (PageEdit.run fullPage (.insert [])).toBytes = .ok bytes := by
  have hfull : fullPage = ⟨0, [some (List.replicate 4060 7)]⟩ := by decide +kernel
  rw [hfull]
  refine ⟨by decide +kernel, ?_⟩
  rintro ⟨bytes, hbytes⟩
  have hfits := fits_of_toBytes hbytes
  rw [Fits] at hfits
  revert hfits
  decide +kernel

end Page

end NovaBase.Storage
