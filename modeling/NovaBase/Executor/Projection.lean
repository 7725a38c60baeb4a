import Mathlib.Data.Set.Insert
import NovaBase.Executor.Pipeline

/-!
# Projections

A projection is the restriction of a document to a set of paths: what a path of
the set names is kept whole, and of a document on the way to such a path the
fields are kept that lead on. The code builds it up path by path, and neither
their order nor their repetition matters to a set.
-/

namespace NovaBase

open Lib

namespace DocumentOf

variable {ν : Type}

@[simp] theorem get_new (id : NovaId) (field : String) : (new id : DocumentOf ν).get field = none :=
  rfl

@[simp] theorem id_insert (document : DocumentOf ν) (field : String) (value : ν) :
    (document.insert field value).2.id = document.id := rfl

@[simp] theorem get_insert (document : DocumentOf ν) (field : String) (value : ν) (other : String) :
    (document.insert field value).2.get other =
      if field = other then some value else document.get other :=
  Entries.get_insert field value other

end DocumentOf

namespace Document

theorem wellFormed_of_get {document : Document} (h : WellFormed document) {field : String}
    {value : NovaValue} (hget : document.get field = some value) : value.WellFormed :=
  (wellFormed_iff.mp h).2 _ (Entries.mem_of_get hget)

theorem wellFormed_nested {document nested : Document} (h : WellFormed document) {field : String}
    (hget : document.get field = some (.document nested)) : WellFormed nested := by
  have hvalue := wellFormed_of_get h hget
  rwa [NovaValue.WellFormed] at hvalue

/-- Documents with fields in order are determined by their identifier and what they map. -/
theorem ext_get {a b : Document} (ha : Entries.Sorted a.fields) (hb : Entries.Sorted b.fields)
    (hid : a.id = b.id) (hget : ∀ field, a.get field = b.get field) : a = b := by
  cases a
  cases b
  cases hid
  exact congrArg _ (Entries.ext_get ha hb hget)

/-- Setting what a field already has changes nothing. -/
theorem insert_of_get {document : Document} (h : Entries.Sorted document.fields) {field : String}
    {value : NovaValue} (hget : document.get field = some value) :
    (document.insert field value).2 = document := by
  refine ext_get (Entries.sorted_insert h field value) h rfl fun other => ?_
  rw [DocumentOf.get_insert]
  split
  · rename_i heq
    rw [← heq, hget]
  · rfl

end Document

end NovaBase

namespace NovaBase.Executor

open Lib NovaQl

section Restriction

open Classical

/-- What a set of paths selects behind a field. -/
def behind (paths : Set (List String)) (field : String) : Set (List String) :=
  {rest | field :: rest ∈ paths}

mutual

/-- What is kept of a value at which a set of paths has arrived. -/
noncomputable def restrictValue (paths : Set (List String)) : NovaValue → Option NovaValue
  | .document document =>
      if [] ∈ paths then some (.document document)
      else if paths = ∅ then none
      else some (.document (restrict paths document))
  | value => if [] ∈ paths then some value else none

/-- A document restricted to a set of paths. -/
noncomputable def restrict (paths : Set (List String)) : DocumentOf NovaValue → DocumentOf NovaValue
  | ⟨id, fields⟩ => ⟨id, restrictFields paths fields⟩

/-- The fields that a set of paths keeps, each with what the paths keep of its value. -/
noncomputable def restrictFields (paths : Set (List String)) :
    List (String × NovaValue) → List (String × NovaValue)
  | [] => []
  | (field, value) :: rest =>
      match restrictValue (behind paths field) value with
      | some kept => (field, kept) :: restrictFields paths rest
      | none => restrictFields paths rest

end

/-- A field that is kept holds what is left of its value. -/
theorem mem_restrictFields {paths : Set (List String)} {fields : List (String × NovaValue)}
    {e : String × NovaValue} (h : e ∈ restrictFields paths fields) :
    ∃ value, (e.1, value) ∈ fields ∧ restrictValue (behind paths e.1) value = some e.2 := by
  induction fields with
  | nil => cases h
  | cons entry rest ih =>
      obtain ⟨field, value⟩ := entry
      rw [restrictFields] at h
      have hrest (h : e ∈ restrictFields paths rest) :
          ∃ old, (e.1, old) ∈ (field, value) :: rest ∧
            restrictValue (behind paths e.1) old = some e.2 := by
        obtain ⟨old, hmem, hold⟩ := ih h
        exact ⟨old, List.mem_cons_of_mem _ hmem, hold⟩
      cases hvalue : restrictValue (behind paths field) value with
      | none =>
          rw [hvalue] at h
          exact hrest h
      | some kept =>
          rw [hvalue] at h
          rcases List.mem_cons.mp h with rfl | h
          · exact ⟨value, List.mem_cons_self, hvalue⟩
          · exact hrest h

theorem sorted_restrictFields (paths : Set (List String)) {fields : Entries String NovaValue}
    (hsorted : Entries.Sorted fields) : Entries.Sorted (restrictFields paths fields) := by
  induction fields with
  | nil => exact Entries.sorted_nil
  | cons entry rest ih =>
      obtain ⟨field, value⟩ := entry
      obtain ⟨hlt, hrest⟩ := Entries.sorted_cons.mp hsorted
      rw [restrictFields]
      cases restrictValue (behind paths field) value with
      | none => exact ih hrest
      | some kept =>
          refine Entries.sorted_cons.mpr ⟨fun e he => ?_, ih hrest⟩
          obtain ⟨old, hmem, -⟩ := mem_restrictFields he
          exact hlt (e.1, old) hmem

/-- Restricting fields restricts the value of each field on its own. -/
theorem get_restrictFields (paths : Set (List String)) {fields : Entries String NovaValue}
    (hsorted : Entries.Sorted fields) (field : String) :
    Entries.get (restrictFields paths fields) field =
      (Entries.get fields field).bind (restrictValue (behind paths field)) := by
  apply Option.ext
  intro value
  rw [Option.bind_eq_some_iff]
  constructor
  · intro h
    obtain ⟨old, hmem, hold⟩ := mem_restrictFields (Entries.mem_of_get h)
    exact ⟨old, Entries.get_of_mem hsorted hmem, hold⟩
  · rintro ⟨old, hget, hold⟩
    refine Entries.get_of_mem (sorted_restrictFields paths hsorted) ?_
    have hmem := Entries.mem_of_get hget
    clear hget hsorted
    induction fields with
    | nil => cases hmem
    | cons entry rest ih =>
        obtain ⟨name, first⟩ := entry
        rw [restrictFields]
        rcases List.mem_cons.mp hmem with heq | hmem
        · obtain ⟨rfl, rfl⟩ := Prod.mk.inj heq
          rw [hold]
          exact List.mem_cons_self
        · cases restrictValue (behind paths name) first with
          | none => exact ih hmem
          | some kept => exact List.mem_cons_of_mem _ (ih hmem)

@[simp] theorem id_restrict (paths : Set (List String)) (document : Document) :
    (restrict paths document).id = document.id := by
  cases document
  rfl

theorem sorted_restrict (paths : Set (List String)) {document : Document}
    (h : Document.WellFormed document) : Entries.Sorted (restrict paths document).fields := by
  cases document
  exact sorted_restrictFields paths h.1

/-- What a field of a restricted document is. -/
theorem get_restrict (paths : Set (List String)) {document : Document}
    (h : Document.WellFormed document) (field : String) :
    (restrict paths document).get field =
      (document.get field).bind (restrictValue (behind paths field)) := by
  cases document
  exact get_restrictFields paths h.1 field

/-- A value that is selected itself is kept whole. -/
theorem restrictValue_of_nil {paths : Set (List String)} (h : [] ∈ paths) (value : NovaValue) :
    restrictValue paths value = some value := by
  cases value <;> simp [restrictValue, h]

/-- A document on the way to a selected field is kept with what is left of it. -/
theorem restrictValue_document {paths : Set (List String)} (hnil : [] ∉ paths)
    (hpaths : paths.Nonempty) (document : Document) :
    restrictValue paths (.document document) = some (.document (restrict paths document)) := by
  simp [restrictValue, hnil, hpaths.ne_empty]

theorem restrictValue_empty (value : NovaValue) : restrictValue ∅ value = none := by
  cases value <;> simp [restrictValue]

/-- The value is a nested document. -/
def isDocument : NovaValue → Bool
  | .document _ => true
  | _ => false

/-- A scalar on the way to a selected field is left out. -/
theorem restrictValue_scalar {paths : Set (List String)} (hnil : [] ∉ paths) {value : NovaValue}
    (h : isDocument value = false) : restrictValue paths value = none := by
  cases value <;> simp_all [restrictValue, isDocument]

theorem restrictValue_scalar_congr {paths paths' : Set (List String)}
    (hnil : [] ∈ paths ↔ [] ∈ paths') {value : NovaValue} (h : isDocument value = false) :
    restrictValue paths value = restrictValue paths' value := by
  by_cases hpaths : [] ∈ paths
  · rw [restrictValue_of_nil hpaths, restrictValue_of_nil (hnil.mp hpaths)]
  · rw [restrictValue_scalar hpaths h, restrictValue_scalar (fun h' => hpaths (hnil.mpr h')) h]

theorem restrict_empty (document : Document) : restrict ∅ document = .new document.id := by
  obtain ⟨id, fields⟩ := document
  have hbehind (field : String) : behind ∅ field = ∅ := rfl
  have hfields : restrictFields ∅ fields = [] := by
    induction fields with
    | nil => rfl
    | cons entry rest ih => rw [restrictFields, hbehind, restrictValue_empty, ih]
  rw [restrict, hfields]
  rfl

end Restriction

section Project

theorem behind_insert_self (paths : Set (List String)) (field : String) (rest : List String) :
    behind (insert (field :: rest) paths) field = insert rest (behind paths field) := by
  ext other
  simp [behind]

theorem behind_insert_of_ne (paths : Set (List String)) {field other : String} (rest : List String)
    (h : field ≠ other) : behind (insert (field :: rest) paths) other = behind paths other := by
  ext path
  simp [behind, h.symm]

section Steps

variable {source target nested inner result : Document} {field : String} {rest : List String}

theorem projectSegments_of_none (h : source.get field = none) :
    projectSegments source target (field :: rest) = .ok target := by
  rw [projectSegments, h]
  rfl

theorem projectSegments_last {value : NovaValue} (h : source.get field = some value) :
    projectSegments source target [field] = .ok (target.insert field value).2 := by
  rw [projectSegments, h]
  rfl

theorem projectSegments_scalar {value : NovaValue} (h : source.get field = some value)
    (hrest : rest ≠ []) (hvalue : isDocument value = false) :
    projectSegments source target (field :: rest) = .ok target := by
  rw [projectSegments, h]
  cases value <;> simp_all [isDocument]

/-- Projecting into a nested document goes on from what was projected before. -/
theorem projectSegments_present (h : source.get field = some (.document nested))
    (hrest : rest ≠ []) (htarget : target.get field = some (.document inner))
    (hresult : projectSegments nested inner rest = .ok result) :
    projectSegments source target (field :: rest) =
      .ok (target.insert field (.document result)).2 := by
  simp [projectSegments, h, hrest, htarget, hresult]

/-- The first path into a nested document starts with an empty one of the same identifier. -/
theorem projectSegments_absent (h : source.get field = some (.document nested))
    (hrest : rest ≠ []) (htarget : target.get field = none)
    (hresult : projectSegments nested (.new nested.id) rest = .ok result) :
    projectSegments source target (field :: rest) =
      .ok ((target.insert field (.document (.new nested.id))).2.insert field
        (.document result)).2 := by
  simp [projectSegments, h, hrest, htarget, hresult]

end Steps

/-- A document that has everything gains nothing. -/
theorem projectSegments_self {document : Document} (h : Document.WellFormed document)
    (segments : List String) : projectSegments document document segments = .ok document := by
  induction segments generalizing document with
  | nil => rfl
  | cons field rest ih =>
      have hsorted := (Document.wellFormed_iff.mp h).1
      cases hget : document.get field with
      | none => exact projectSegments_of_none hget
      | some value =>
          by_cases hrest : rest = []
          · subst hrest
            rw [projectSegments_last hget, Document.insert_of_get hsorted hget]
          · cases value with
            | document nested =>
                have hnested := ih (Document.wellFormed_nested h hget)
                rw [projectSegments_present hget hrest hget hnested,
                  Document.insert_of_get hsorted hget]
            | _ => exact projectSegments_scalar hget hrest rfl

/-- What an update of one field makes of a restriction, if it agrees with one path more there. -/
theorem eq_restrict_insert {document target : Document} (h : Document.WellFormed document)
    {paths : Set (List String)} {field : String} {rest : List String}
    (hsorted : Entries.Sorted target.fields) (hid : target.id = document.id)
    (hfield : target.get field =
      (document.get field).bind (restrictValue (insert rest (behind paths field))))
    (hothers : ∀ other, field ≠ other → target.get other = (restrict paths document).get other) :
    target = restrict (insert (field :: rest) paths) document := by
  refine Document.ext_get hsorted (sorted_restrict _ h) (hid.trans (id_restrict _ _).symm)
    fun other => ?_
  rw [get_restrict _ h]
  by_cases hother : field = other
  · subst hother
    rw [behind_insert_self, hfield]
  · rw [behind_insert_of_ne _ _ hother, hothers other hother, get_restrict _ h]

/-- Setting a field to what one path more keeps of it is to restrict to that path too. -/
theorem insert_eq_restrict {document target : Document} (h : Document.WellFormed document)
    {paths : Set (List String)} {field : String} {rest : List String} {value kept : NovaValue}
    (hsorted : Entries.Sorted target.fields) (hid : target.id = document.id)
    (hget : document.get field = some value)
    (hkept : restrictValue (insert rest (behind paths field)) value = some kept)
    (hothers : ∀ other, field ≠ other → target.get other = (restrict paths document).get other) :
    (target.insert field kept).2 = restrict (insert (field :: rest) paths) document := by
  refine eq_restrict_insert h (Entries.sorted_insert hsorted _ _) hid ?_ fun other hother => ?_
  · rw [DocumentOf.get_insert, if_pos rfl, hget, Option.bind_some, hkept]
  · rw [DocumentOf.get_insert, if_neg hother, hothers other hother]

/-- A path into a nested document, where the nested document gains the rest of it. -/
theorem projectSegments_nested {document nested : Document} (h : Document.WellFormed document)
    (paths : Set (List String)) {field : String} {rest : List String}
    (hget : document.get field = some (.document nested)) (hrest : rest ≠ [])
    (hinner : projectSegments nested (restrict (behind paths field) nested) rest =
      .ok (restrict (insert rest (behind paths field)) nested)) :
    projectSegments document (restrict paths document) (field :: rest) =
      .ok (restrict (insert (field :: rest) paths) document) := by
  have hsorted := sorted_restrict paths h
  have hid := id_restrict paths document
  have htarget := get_restrict paths h field
  rw [hget, Option.bind_some] at htarget
  have hnil : ([] : List String) ∈ insert rest (behind paths field) ↔ [] ∈ behind paths field := by
    simp [Ne.symm hrest]
  by_cases hall : [] ∈ behind paths field
  · have hself := projectSegments_self (Document.wellFormed_nested h hget) rest
    rw [restrictValue_of_nil hall] at htarget
    rw [projectSegments_present hget hrest htarget hself]
    exact congrArg Except.ok (insert_eq_restrict h hsorted hid hget
      (restrictValue_of_nil (hnil.mpr hall) _) fun _ _ => rfl)
  · have hkept : restrictValue (insert rest (behind paths field)) (.document nested) =
        some (.document (restrict (insert rest (behind paths field)) nested)) :=
      restrictValue_document (fun h => hall (hnil.mp h)) (Set.insert_nonempty _ _) nested
    by_cases hbehind : behind paths field = ∅
    · rw [hbehind, restrictValue_empty] at htarget
      rw [hbehind, restrict_empty] at hinner
      rw [projectSegments_absent hget hrest htarget hinner]
      rw [← hbehind]
      refine congrArg Except.ok (insert_eq_restrict h (Entries.sorted_insert hsorted _ _) hid hget
        hkept fun other hother => ?_)
      rw [DocumentOf.get_insert, if_neg hother]
    · rw [restrictValue_document hall (Set.nonempty_iff_ne_empty.mpr hbehind)] at htarget
      rw [projectSegments_present hget hrest htarget hinner]
      exact congrArg Except.ok (insert_eq_restrict h hsorted hid hget hkept fun _ _ => rfl)

/-- One more path is one more path of the set. -/
theorem projectSegments_restrict {document : Document} (h : Document.WellFormed document)
    (paths : Set (List String)) {segments : List String} (hne : segments ≠ []) :
    projectSegments document (restrict paths document) segments =
      .ok (restrict (insert segments paths) document) := by
  induction segments generalizing document paths with
  | nil => exact absurd rfl hne
  | cons field rest ih =>
      have hsorted := sorted_restrict paths h
      have hid := id_restrict paths document
      have htarget := get_restrict paths h field
      cases hget : document.get field with
      | none =>
          rw [projectSegments_of_none hget]
          refine congrArg Except.ok (eq_restrict_insert h hsorted hid ?_ fun _ _ => rfl)
          rw [htarget, hget]
          rfl
      | some value =>
          by_cases hrest : rest = []
          · subst hrest
            rw [projectSegments_last hget]
            exact congrArg Except.ok (insert_eq_restrict h hsorted hid hget
              (restrictValue_of_nil (Set.mem_insert _ _) _) fun _ _ => rfl)
          · cases value with
            | document nested =>
                exact projectSegments_nested h paths hget hrest
                  (ih (Document.wellFormed_nested h hget) (behind paths field) hrest)
            | _ =>
                have hnil : [] ∈ behind paths field ↔
                    ([] : List String) ∈ insert rest (behind paths field) := by
                  simp [Ne.symm hrest]
                rw [projectSegments_scalar hget hrest rfl]
                refine congrArg Except.ok (eq_restrict_insert h hsorted hid ?_ fun _ _ => rfl)
                rw [htarget, hget, Option.bind_some, Option.bind_some]
                exact restrictValue_scalar_congr hnil rfl

/-- The paths that a projection follows. -/
def selected (paths : List Path) : Set (List String) :=
  {segments | segments ≠ [] ∧ segments ≠ ["_id"] ∧ ∃ path ∈ paths, path.segments = segments}

theorem selected_cons (path : Path) (paths : List Path) :
    selected (path :: paths) =
      if path.segments = [] ∨ path.segments = ["_id"] then selected paths
      else insert path.segments (selected paths) := by
  ext segments
  split
  · rename_i hskip
    simp only [selected, List.exists_mem_cons_iff, Set.mem_ofPred_eq]
    grind
  · rename_i htake
    simp only [selected, List.exists_mem_cons_iff, Set.mem_ofPred_eq, Set.mem_insert_iff]
    grind

/-- A projection is the restriction to its paths. -/
theorem project_eq_restrict {document : Document} (h : Document.WellFormed document)
    (paths : List Path) : project document paths = .ok (restrict (selected paths) document) := by
  have hfold (before : Set (List String)) :
      paths.foldlM (fun target path =>
        if path.segments = ["_id"] then return target
        else projectSegments document target path.segments) (restrict before document) =
        .ok (restrict (selected paths ∪ before) document) := by
    induction paths generalizing before with
    | nil =>
        have hnone : selected [] = ∅ := by simp [selected]
        rw [hnone, Set.empty_union]
        rfl
    | cons path paths ih =>
        rw [List.foldlM_cons, selected_cons]
        by_cases hid : path.segments = ["_id"]
        · rw [if_pos hid, if_pos (.inr hid)]
          exact ih before
        · rw [if_neg hid]
          by_cases hnil : path.segments = []
          · rw [hnil, if_pos (.inl rfl)]
            exact ih before
          · rw [projectSegments_restrict h before hnil, if_neg (not_or.mpr ⟨hnil, hid⟩), ok_bind,
              ih, Set.union_insert, Set.insert_union]
  have hstart := hfold ∅
  rw [restrict_empty, Set.union_empty] at hstart
  exact hstart

end Project

section Reading

theorem lookupParts_cons (document : Document) (part next : String) (rest : List String) :
    Document.lookupParts document (part :: next :: rest) =
      match document.get part with
      | some (.document nested) => Document.lookupParts nested (next :: rest)
      | _ => none := rfl

theorem lookupParts_of_none {document : Document} {part : String} (hget : document.get part = none)
    (rest : List String) : Document.lookupParts document (part :: rest) = none := by
  cases rest with
  | nil => exact hget
  | cons next rest => rw [lookupParts_cons, hget]

theorem lookupParts_scalar {document : Document} {part next : String} {rest : List String}
    {value : NovaValue} (hget : document.get part = some value)
    (hvalue : isDocument value = false) :
    Document.lookupParts document (part :: next :: rest) = none := by
  rw [lookupParts_cons, hget]
  cases value <;> first | rfl | cases hvalue

/-- A path of the set leads where it led before. -/
theorem lookupParts_restrict {document : Document} (h : Document.WellFormed document)
    {paths : Set (List String)} {segments : List String} (hmem : segments ∈ paths) :
    Document.lookupParts (restrict paths document) segments =
      Document.lookupParts document segments := by
  induction segments generalizing document paths with
  | nil => rfl
  | cons part rest ih =>
      have hkept := get_restrict paths h part
      have hrest : rest ∈ behind paths part := hmem
      cases rest with
      | nil =>
          have hsame : (document.get part).bind (restrictValue (behind paths part)) =
              document.get part := by
            cases document.get part with
            | none => rfl
            | some value => exact restrictValue_of_nil hrest value
          exact hkept.trans hsame
      | cons next rest =>
          cases hget : document.get part with
          | none =>
              rw [hget, Option.bind_none] at hkept
              rw [lookupParts_of_none hkept, lookupParts_of_none hget]
          | some value =>
              rw [hget, Option.bind_some] at hkept
              by_cases hall : [] ∈ behind paths part
              · rw [restrictValue_of_nil hall] at hkept
                rw [lookupParts_cons, lookupParts_cons, hkept, hget]
              · cases value with
                | document nested =>
                    rw [restrictValue_document hall ⟨_, hrest⟩] at hkept
                    rw [lookupParts_cons, lookupParts_cons, hkept, hget]
                    exact ih (Document.wellFormed_nested h hget) hrest
                | _ =>
                    rw [restrictValue_scalar hall rfl] at hkept
                    rw [lookupParts_of_none hkept, lookupParts_scalar hget rfl]

/-- What can be reached in a restriction is the same in the document, and a path of the set leads
there or to what it is in. -/
theorem lookupParts_of_restrict {document : Document} (h : Document.WellFormed document)
    {paths : Set (List String)} {segments : List String} {value : NovaValue}
    (hlookup : Document.lookupParts (restrict paths document) segments = some value)
    (hvalue : isDocument value = false) :
    Document.lookupParts document segments = some value ∧
      ∃ path ∈ paths, path ≠ [] ∧ path <+: segments := by
  induction segments generalizing document paths with
  | nil => cases hlookup
  | cons part rest ih =>
      have hkept := get_restrict paths h part
      cases hget : document.get part with
      | none =>
          rw [hget, Option.bind_none] at hkept
          cases hlookup.symm.trans (lookupParts_of_none hkept rest)
      | some found =>
          rw [hget, Option.bind_some] at hkept
          by_cases hall : [] ∈ behind paths part
          · rw [restrictValue_of_nil hall, ← hget] at hkept
            refine ⟨?_, [part], hall, List.cons_ne_nil _ _, rest, rfl⟩
            cases rest with
            | nil => exact hkept.symm.trans hlookup
            | cons next rest =>
                rw [lookupParts_cons, hkept] at hlookup
                exact hlookup
          · cases found with
            | document nested =>
                by_cases hbehind : behind paths part = ∅
                · rw [hbehind, restrictValue_empty] at hkept
                  cases hlookup.symm.trans (lookupParts_of_none hkept rest)
                · rw [restrictValue_document hall (Set.nonempty_iff_ne_empty.mpr hbehind)] at hkept
                  cases rest with
                  | nil =>
                      cases hkept.symm.trans hlookup
                      cases hvalue
                  | cons next rest =>
                      rw [lookupParts_cons, hkept] at hlookup
                      obtain ⟨hfound, path, hpath, hne, hfront⟩ :=
                        ih (Document.wellFormed_nested h hget) hlookup
                      rw [lookupParts_cons, hget]
                      exact ⟨hfound, part :: path, hpath, List.cons_ne_nil _ _,
                        List.prefix_cons_inj part |>.mpr hfront⟩
            | _ =>
                rw [restrictValue_scalar hall rfl] at hkept
                cases hlookup.symm.trans (lookupParts_of_none hkept rest)

end Reading

section Again

theorem wellFormed_restrictFields {paths : Set (List String)} {fields : Entries String NovaValue}
    (h : ∀ e ∈ fields, ∀ paths kept, restrictValue paths e.2 = some kept → kept.WellFormed) :
    ∀ e ∈ restrictFields paths fields, e.2.WellFormed := by
  intro e he
  obtain ⟨value, hmem, hkept⟩ := mem_restrictFields he
  exact h _ hmem _ _ hkept

/-- What is left of a value is well formed. -/
theorem wellFormed_restrictValue {value kept : NovaValue} (h : value.WellFormed)
    {paths : Set (List String)} (hkept : restrictValue paths value = some kept) :
    kept.WellFormed := by
  induction value using NovaValue.nested_induction generalizing paths kept with
  | document document ih =>
      by_cases hall : [] ∈ paths
      · rw [restrictValue_of_nil hall] at hkept
        exact Option.some.inj hkept ▸ h
      · by_cases hpaths : paths = ∅
        · rw [hpaths, restrictValue_empty] at hkept
          cases hkept
        · rw [restrictValue_document hall (Set.nonempty_iff_ne_empty.mpr hpaths)] at hkept
          obtain rfl := Option.some.inj hkept
          rw [NovaValue.WellFormed] at h ⊢
          have hfields := (Document.wellFormed_iff.mp h).2
          obtain ⟨id, fields⟩ := document
          refine Document.wellFormed_iff.mpr ⟨sorted_restrictFields paths h.1, ?_⟩
          exact wellFormed_restrictFields fun e he paths kept => ih e he (hfields e he)
  | _ =>
      by_cases hall : [] ∈ paths
      · rw [restrictValue_of_nil hall] at hkept
        exact Option.some.inj hkept ▸ h
      · rw [restrictValue_scalar hall rfl] at hkept
        cases hkept

theorem wellFormed_restrict {document : Document} (h : Document.WellFormed document)
    (paths : Set (List String)) : Document.WellFormed (restrict paths document) := by
  have hfields := (Document.wellFormed_iff.mp h).2
  obtain ⟨id, fields⟩ := document
  refine Document.wellFormed_iff.mpr ⟨sorted_restrictFields paths h.1, ?_⟩
  exact wellFormed_restrictFields fun e he paths kept => wellFormed_restrictValue (hfields e he)

/-- Restricting twice is restricting once. -/
theorem restrictFields_restrictFields {paths : Set (List String)}
    {fields : Entries String NovaValue}
    (h : ∀ e ∈ fields, ∀ paths kept, restrictValue paths e.2 = some kept →
      restrictValue paths kept = some kept) :
    restrictFields paths (restrictFields paths fields) = restrictFields paths fields := by
  induction fields with
  | nil => rfl
  | cons entry rest ih =>
      obtain ⟨field, value⟩ := entry
      rw [List.forall_mem_cons] at h
      rw [restrictFields]
      cases hvalue : restrictValue (behind paths field) value with
      | none => exact ih h.2
      | some kept =>
          rw [restrictFields, h.1 _ _ hvalue, ih h.2]

/-- What has been kept is kept again. -/
theorem restrictValue_restrictValue {value kept : NovaValue} {paths : Set (List String)}
    (hkept : restrictValue paths value = some kept) : restrictValue paths kept = some kept := by
  induction value using NovaValue.nested_induction generalizing paths kept with
  | document document ih =>
      by_cases hall : [] ∈ paths
      · exact restrictValue_of_nil hall kept
      · by_cases hpaths : paths = ∅
        · rw [hpaths, restrictValue_empty] at hkept
          cases hkept
        · have hnonempty := Set.nonempty_iff_ne_empty.mpr hpaths
          rw [restrictValue_document hall hnonempty] at hkept
          obtain rfl := Option.some.inj hkept
          obtain ⟨id, fields⟩ := document
          rw [restrictValue_document hall hnonempty]
          simp only [restrict, restrictFields_restrictFields fun e he paths kept => ih e he]
  | _ =>
      by_cases hall : [] ∈ paths
      · exact restrictValue_of_nil hall kept
      · rw [restrictValue_scalar hall rfl] at hkept
        cases hkept

/-- Projecting a projection changes nothing. -/
theorem restrict_restrict (paths : Set (List String)) (document : Document) :
    restrict paths (restrict paths document) = restrict paths document := by
  obtain ⟨id, fields⟩ := document
  simp only [restrict,
    restrictFields_restrictFields fun e _ paths kept => restrictValue_restrictValue]

end Again

/-- A projection keeps the identifier and what the paths lead to, keeps nothing else, depends on
the paths as a set and does not change its own result. -/
theorem project_exact {document : Document} (h : Document.WellFormed document) (paths : List Path) :
    ∃ projected, project document paths = .ok projected ∧ projected.id = document.id ∧
      (∀ path ∈ paths, readPath projected path = readPath document path) ∧
      (∀ segments value, Document.lookupParts projected segments = some value →
        isDocument value = false → Document.lookupParts document segments = some value ∧
          ∃ path ∈ paths, path.segments ≠ [] ∧ path.segments <+: segments) ∧
      (∀ others : List Path, (∀ segments, (∃ path ∈ others, path.segments = segments) ↔
        ∃ path ∈ paths, path.segments = segments) → project document others = .ok projected) ∧
      project projected paths = .ok projected := by
  refine ⟨_, project_eq_restrict h paths, id_restrict _ _, ?_, ?_, ?_, ?_⟩
  · intro path hpath
    unfold readPath
    split
    · rw [id_restrict]
    · rename_i hid
      by_cases hnil : path.segments = []
      · rw [hnil]
        rfl
      · rw [lookupParts_restrict h (show path.segments ∈ selected paths from
          ⟨hnil, hid, path, hpath, rfl⟩)]
  · intro segments value hlookup hvalue
    obtain ⟨hfound, found, ⟨-, -, path, hpath, rfl⟩, hne, hfront⟩ :=
      lookupParts_of_restrict h hlookup hvalue
    exact ⟨hfound, path, hpath, hne, hfront⟩
  · intro others hothers
    have hselected : selected others = selected paths := by
      ext segments
      simp only [selected, Set.mem_ofPred_eq, hothers segments]
    rw [project_eq_restrict h, hselected]
  · rw [project_eq_restrict (wellFormed_restrict h _), restrict_restrict]

/-- A person with an address. -/
def person : Document :=
  ((DocumentOf.new (.filled 1)).insert "address"
    (.document ((DocumentOf.new (.filled 2)).insert "city" (.string "Pune")).2)).2

theorem wellFormed_person : Document.WellFormed person :=
  Document.wellFormed_insert (Document.wellFormed_new _) "address"
    (Document.wellFormed_insert (Document.wellFormed_new _) "city" trivial)

/-- The city of a person, and a part of it that is not there. -/
theorem project_exact_person :
    let paths : List Path :=
      [⟨["address", "city", "ward"], ⟨0, 17⟩⟩, ⟨["address", "city"], ⟨0, 12⟩⟩]
    ∃ projected, project person paths = .ok projected ∧ projected.id = person.id ∧
      project projected paths = .ok projected := by
  intro paths
  obtain ⟨projected, hproject, hid, -, -, -, hagain⟩ := project_exact wellFormed_person paths
  exact ⟨projected, hproject, hid, hagain⟩

end NovaBase.Executor
