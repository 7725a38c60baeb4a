import NovaBase.Executor.Atomicity
import NovaBase.Nbf.Layout

/-!
# Stored documents

Statements store only documents whose fields are in key order and whose floats are
finite. What the binary format keeps of such a document is the document itself.
-/

namespace NovaBase

open Lib

mutual

/-- Every map of fields inside a value is in key order, and every float is finite. -/
def NovaValue.Storable : NovaValue → Prop
  | .float64 value => value.isFinite = true
  | .array values => NovaValue.AllStorable values
  | .document document => Document.Storable document
  | _ => True

/-- Every value of an array is storable. -/
def NovaValue.AllStorable : List NovaValue → Prop
  | [] => True
  | value :: rest => value.Storable ∧ NovaValue.AllStorable rest

/-- The fields are in key order and their values are storable. -/
def Document.Storable : DocumentOf NovaValue → Prop
  | ⟨_, fields⟩ => Entries.Sorted fields ∧ Document.FieldsStorable fields

/-- The values of all fields are storable. -/
def Document.FieldsStorable : List (String × NovaValue) → Prop
  | [] => True
  | (_, value) :: rest => value.Storable ∧ Document.FieldsStorable rest

end

theorem NovaValue.allStorable_iff {values : List NovaValue} :
    NovaValue.AllStorable values ↔ ∀ value ∈ values, value.Storable := by
  induction values with
  | nil => simp [NovaValue.AllStorable]
  | cons value rest ih => rw [NovaValue.AllStorable, ih, List.forall_mem_cons]

namespace Document

theorem fieldsStorable_iff {fields : Entries String NovaValue} :
    FieldsStorable fields ↔ ∀ e ∈ fields, e.2.Storable := by
  induction fields with
  | nil => simp [FieldsStorable]
  | cons entry rest ih =>
      obtain ⟨key, value⟩ := entry
      rw [FieldsStorable, ih, List.forall_mem_cons]

theorem storable_iff {document : Document} :
    Storable document ↔
      Entries.Sorted document.fields ∧ ∀ e ∈ document.fields, e.2.Storable := by
  obtain ⟨id, fields⟩ := document
  rw [Storable, fieldsStorable_iff]

theorem storable_new (id : NovaId) : Storable (DocumentOf.new id) :=
  ⟨Entries.sorted_nil, trivial⟩

/-- Putting a storable value into a document keeps it storable. -/
theorem storable_insert {document : Document} {value : NovaValue} (field : String)
    (hdocument : Storable document) (hvalue : value.Storable) :
    Storable (document.insert field value).2 := by
  obtain ⟨hsorted, hfields⟩ := storable_iff.mp hdocument
  refine storable_iff.mpr ⟨Entries.sorted_insert hsorted field value, fun e he => ?_⟩
  rcases Entries.mem_insert he with rfl | hmem
  · exact hvalue
  · exact hfields e hmem

theorem storable_get {document : Document} {field : String} {value : NovaValue}
    (hdocument : Storable document) (hget : document.get field = some value) : value.Storable :=
  (storable_iff.mp hdocument).2 (field, value) (Entries.mem_of_get hget)

end Document

theorem NovaValue.wellFormed_of_storable {value : NovaValue} (h : value.Storable) :
    value.WellFormed := by
  induction value using NovaValue.nested_induction with
  | array values ih =>
      have hvalues := NovaValue.allStorable_iff.mp h
      exact NovaValue.allWellFormed_iff.mpr fun value hmem => ih value hmem (hvalues value hmem)
  | document document ih =>
      obtain ⟨hsorted, hfields⟩ := Document.storable_iff.mp h
      exact Document.wellFormed_iff.mpr ⟨hsorted, fun e he => ih e he (hfields e he)⟩
  | _ => trivial

namespace Nbf

open Lib.Bytes

theorem not_nan_of_finite {value : F64} (h : value.isFinite = true) : value.isNaN = false := by
  rw [F64.isFinite, bne_iff_ne] at h
  rw [F64.isNaN, Bool.and_eq_false_iff]
  exact .inl (beq_false_of_ne h)

/-- Storable values have no NaN, so that they are read back as they are. -/
theorem canonicalValue_of_storable {value : NovaValue} (h : value.Storable) :
    canonicalValue value = value := by
  induction value using NovaValue.nested_induction with
  | float64 value => rw [canonicalValue, not_nan_of_finite h, if_neg Bool.false_ne_true]
  | array values ih =>
      have hvalues := NovaValue.allStorable_iff.mp h
      rw [canonicalValue, canonicalValues_eq_map]
      exact congrArg NovaValue.array
        ((List.map_congr_left fun value hmem => ih value hmem (hvalues value hmem)).trans
          (List.map_id _))
  | document document ih =>
      obtain ⟨-, hfields⟩ := Document.storable_iff.mp h
      obtain ⟨id, fields⟩ := document
      rw [canonicalValue, canonical, canonicalFields_eq_map]
      have hsame : ∀ e ∈ fields, (e.1, canonicalValue e.2) = e := fun e he =>
        congrArg (Prod.mk e.1) (ih e he (hfields e he))
      rw [List.map_congr_left hsame, List.map_id']
  | _ => rfl

theorem canonical_of_storable {document : Document} (h : Document.Storable document) :
    canonical document = document :=
  NovaValue.document.inj (@canonicalValue_of_storable (.document document) h)

/-- A storable document that is encoded is read back as it is. -/
theorem decode_encode_of_storable {document : Document} (h : Document.Storable document)
    {bytes : Bytes} (hencode : encode document = .ok bytes) (hfits : bytes.length < 2 ^ 64) :
    decode bytes = .ok document := by
  have hformed : Document.WellFormed document :=
    @NovaValue.wellFormed_of_storable (.document document) h
  obtain ⟨stream, hstream, hlength, rfl⟩ := encode_eq_ok hencode
  rw [decode_stream hformed hstream (hlength.trans_lt hfits), canonical_of_storable h]

end Nbf

namespace Executor

open NovaQl Index

/-- Induction over nested values: a value may assume the property of everything it holds. -/
@[elab_as_elim]
theorem RuntimeValue.nested_induction {motive : RuntimeValue → Prop} (missing : motive .missing)
    (null : motive .null) (boolean : ∀ value, motive (.boolean value))
    (int64 : ∀ value, motive (.int64 value)) (float64 : ∀ value, motive (.float64 value))
    (string : ∀ value, motive (.string value))
    (array : ∀ values, (∀ value ∈ values, motive value) → motive (.array values))
    (object : ∀ fields, (∀ e ∈ fields, motive e.2) → motive (.object fields))
    (timestamp : ∀ value, motive (.timestamp value)) (novaId : ∀ value, motive (.novaId value))
    (value : RuntimeValue) : motive value := by
  refine @RuntimeValue.rec motive (fun values => ∀ value ∈ values, motive value)
    (fun fields => ∀ e ∈ fields, motive e.2) (fun e => motive e.2)
    missing null boolean int64 float64 string array object timestamp novaId ?_ ?_ ?_ ?_ ?_ value
  · simp
  · intro head tail hhead htail
    exact List.forall_mem_cons.mpr ⟨hhead, htail⟩
  · simp
  · intro head tail hhead htail
    exact List.forall_mem_cons.mpr ⟨hhead, htail⟩
  · intro key value hvalue
    exact hvalue

section Values

/-- The generator may fail; nothing is said about what it gives. -/
theorem generate_ends (ids : IdSource) : generate.Ends ids (fun _ _ => True) (fun _ _ => True) := by
  rcases hresult : generate ids with ⟨result, ids'⟩
  cases result with
  | ok id => exact .inl ⟨id, ids', hresult, trivial⟩
  | error cause => exact .inr ⟨cause, ids', hresult, trivial⟩

theorem refused_ends {α : Type} {Q : α → IdSource → Prop} (cause : NovaError) (ids : IdSource) :
    (Action.ofExcept (Except.error (Failure.error cause)) : Action Failure IdSource α).Ends ids Q
      (fun _ _ => True) :=
  .inr ⟨_, ids, rfl, trivial⟩

/-- Values that are stored have been checked, element by element. -/
theorem intoNovaValues_ends {values : List RuntimeValue}
    (h : ∀ value ∈ values, ∀ ids, (intoNovaValue value).Ends ids
      (fun stored _ => stored.Storable) (fun _ _ => True)) (ids : IdSource) :
    (intoNovaValues values).Ends ids (fun stored _ => NovaValue.AllStorable stored)
      (fun _ _ => True) := by
  induction values generalizing ids with
  | nil => exact .pure trivial
  | cons value rest ih =>
      obtain ⟨hvalue, hrest⟩ := List.forall_mem_cons.mp h
      apply (hvalue ids).bind
      intro first middle hfirst
      apply (ih hrest middle).bind
      intro others last hothers
      exact .pure ⟨hfirst, hothers⟩

theorem intoNovaFields_ends {fields : List (String × RuntimeValue)}
    (h : ∀ e ∈ fields, ∀ ids, (intoNovaValue e.2).Ends ids
      (fun stored _ => stored.Storable) (fun _ _ => True))
    {document : Document} (hdocument : Document.Storable document) (ids : IdSource) :
    (intoNovaFields document fields).Ends ids (fun stored _ => Document.Storable stored)
      (fun _ _ => True) := by
  induction fields generalizing document ids with
  | nil => exact .pure hdocument
  | cons entry rest ih =>
      obtain ⟨name, value⟩ := entry
      obtain ⟨hvalue, hrest⟩ := List.forall_mem_cons.mp h
      apply (hvalue ids).bind
      intro stored middle hstored
      exact ih hrest (Document.storable_insert name hdocument hstored) middle

/-- What a value is stored as is storable. -/
theorem intoNovaValue_ends (value : RuntimeValue) (ids : IdSource) :
    (intoNovaValue value).Ends ids (fun stored _ => stored.Storable) (fun _ _ => True) := by
  induction value using RuntimeValue.nested_induction generalizing ids with
  | missing => exact refused_ends _ ids
  | float64 value =>
      rw [intoNovaValue]
      split
      · rename_i hfinite
        exact .pure hfinite
      · exact refused_ends _ ids
  | array values ih =>
      rw [intoNovaValue]
      apply (intoNovaValues_ends ih ids).bind
      intro stored last hstored
      exact .pure hstored
  | object fields ih =>
      rw [intoNovaValue]
      apply (generate_ends ids).bind
      intro id middle _
      apply (intoNovaFields_ends ih (Document.storable_new id) middle).bind
      intro stored last hstored
      exact .pure hstored
  | _ => exact .pure trivial

end Values

/-- Assigning a storable value keeps a document storable. -/
theorem preserves_storable {value : NovaValue} (hvalue : value.Storable) (path : Path) :
    (setPath path value).Preserves fun draft => Document.Storable draft.1 := by
  rw [setPath]
  split
  · exact Action.Preserves.ofExcept _
  · exact preserves_setSegments (fun segment => Document.storable_insert segment)
      Document.storable_get Document.storable_new (fun _ => Iff.rfl) hvalue path.segments

/-- Storable documents are what statements make of storable documents. -/
theorem admissible_storable : Admissible Document.Storable where
  assigned assignment := by
    apply Action.Preserves.of_ends
    rintro ⟨document, ids⟩ hdocument
    have hread : (Action.reads fun draft : Draft => (evaluate draft.1 assignment.value).lift)
        (document, ids) = ((evaluate document assignment.value).lift, document, ids) := rfl
    cases hvalue : evaluate document assignment.value with
    | error cause =>
        rw [hvalue] at hread
        exact .inr ⟨_, _, Action.bind_of_error hread, hdocument⟩
    | ok value =>
        rw [hvalue] at hread
        apply Action.Ends.after hread
        have hstored : (Action.zoom Prod.snd (fun draft ids => (draft.1, ids))
            (intoNovaValue value) : Action Failure Draft NovaValue).Ends (document, ids) _ _ :=
          (intoNovaValue_ends value ids).zoom
        apply hstored.seq
        · rintro stored _ ⟨ids', rfl, hstored⟩
          exact (preserves_storable hstored assignment.path).ends hdocument
        · rintro _ _ ⟨ids', rfl, -⟩
          exact hdocument
  created expression ids := by
    have hfields : ∀ result : Partial (Entries String RuntimeValue),
        Action.Ends (do
          let fields ← Action.ofExcept result
          let id ← generate
          intoNovaFields (.new id) fields) ids (fun document _ => Document.Storable document)
          (fun _ _ => True) := by
      intro result
      cases result with
      | error cause => exact .inr ⟨cause, ids, rfl, trivial⟩
      | ok fields =>
          apply Action.Ends.after rfl
          apply (generate_ends ids).bind
          intro id middle _
          exact intoNovaFields_ends (fun e _ => intoNovaValue_ends e.2)
            (Document.storable_new id) middle
    exact hfields _

section Stores

/-- Documents are stored under their ids, and each of them has the property. -/
def Everywhere (P : Document → Prop) (documents : Documents) : Prop :=
  ∀ collection stored id document, documents collection = some stored →
    stored id = some document → document.id = id ∧ P document

variable {P : Document → Prop} {documents : Documents} {collection : String}
  {stored : NovaId → Option Document}

theorem Everywhere.keyed (h : Everywhere P documents) : Keyed documents :=
  fun hstored hdocument => (h _ _ _ _ hstored hdocument).1

/-- A document of a collection is changed. -/
theorem Everywhere.setDocument (h : Everywhere P documents)
    (hstored : documents collection = some stored)
    {id : NovaId} {value : Option Document}
    (hvalue : ∀ document, value = some document → document.id = id ∧ P document) :
    Everywhere P (Function.update documents collection
      (some (Function.update stored id value))) := by
  intro other found key document hfound hdocument
  rw [Function.update_apply] at hfound
  split at hfound
  · cases hfound
    rw [Function.update_apply] at hdocument
    split at hdocument
    · rename_i hkey
      exact hkey ▸ hvalue document hdocument
    · exact h collection stored key document hstored hdocument
  · exact h other found key document hfound hdocument

/-- A collection is made or dropped. -/
theorem Everywhere.setCollection (h : Everywhere P documents)
    {value : Option (NovaId → Option Document)}
    (hvalue : ∀ stored id, value = some stored → stored id = none) :
    Everywhere P (Function.update documents collection value) := by
  intro other found key document hfound hdocument
  rw [Function.update_apply] at hfound
  split at hfound
  · cases (hvalue found key hfound).symm.trans hdocument
  · exact h other found key document hfound hdocument

theorem everywhere_new : Everywhere P MemoryBackend.new.documents := by
  intro collection stored id document hstored
  cases hstored

/-- The store holds only documents that were given to it. -/
theorem MemoryBackend.callsKeep (P : Document → Prop) :
    CallsKeep P fun backend : MemoryBackend => Everywhere P backend.documents where
  scan {backend} collection h := by
    apply (scan_ends h.keyed collection).weaken
    · rintro list _ ⟨rfl, stored, hstored, hlist, -⟩
      exact ⟨h, fun document hmem => (h _ _ _ _ hstored ((hlist document).mp hmem)).2⟩
    · rintro _ _ ⟨rfl, -⟩
      exact h
  scanIndex collection index key h := .inr ⟨_, _, rfl, h⟩
  insert collection document hdocument := by
    apply Action.Preserves.of_ends
    intro backend h
    apply (insert_ends backend collection document).weaken
    · rintro _ next ⟨-, stored, hstored, -, hnext⟩
      rw [hnext]
      apply h.setDocument hstored
      rintro _ ⟨⟩
      exact ⟨rfl, hdocument⟩
    · rintro _ _ rfl
      exact h
  replace collection document hdocument := by
    apply Action.Preserves.of_ends
    intro backend h
    apply (replace_ends backend collection document).weaken
    · rintro _ next ⟨stored, -, hstored, -, hnext⟩
      rw [hnext]
      apply h.setDocument hstored
      rintro _ ⟨⟩
      exact ⟨rfl, hdocument⟩
    · rintro _ _ ⟨rfl, -⟩
      exact h
  delete collection id := by
    apply Action.Preserves.of_ends
    intro backend h
    apply (delete_ends backend collection id).weaken
    · rintro _ next ⟨stored, -, hstored, -, hnext⟩
      rw [hnext]
      apply h.setDocument hstored
      nofun
    · rintro _ _ ⟨rfl, -⟩
      exact h
  createCollection name := by
    apply Action.Preserves.of_ends
    intro backend h
    apply (createCollection_ends backend name).weaken
    · rintro _ next ⟨-, hnext⟩
      rw [hnext]
      apply h.setCollection
      rintro _ _ ⟨⟩
      rfl
    · rintro _ _ rfl
      exact h
  dropCollection name := by
    apply Action.Preserves.of_ends
    intro backend h
    apply (dropCollection_ends backend name).weaken
    · rintro _ next ⟨-, hnext⟩
      rw [hnext]
      apply h.setCollection
      nofun
    · rintro _ _ rfl
      exact h
  createIndex name collection field := Action.Preserves.ofExcept _
  dropIndex name := Action.Preserves.ofExcept _

variable [CharacterTables]

omit [CharacterTables] in
/-- An indexed store keeps what the store in memory keeps. -/
theorem IndexedBackend.Follows.keeps {α : Type}
    {call : Action Failure (IndexedBackend MemoryBackend) α}
    {inMemory : Action Failure MemoryBackend α} (h : Follows call inMemory)
    {I : MemoryBackend → Prop} (hmemory : inMemory.Preserves I) :
    call.Preserves fun backend => backend.Coherent ∧ I backend.inner := by
  apply Action.Preserves.of_ends
  rintro backend ⟨hbackend, hinner⟩
  have hkept : ∀ {result next}, inMemory backend.inner = (result, next) → I next := by
    intro result next hcall
    have hnext := hmemory backend.inner hinner
    rwa [hcall] at hnext
  apply (h backend hbackend).weaken
  · exact fun _ _ hnext => ⟨hnext.1, hkept hnext.2⟩
  · rintro _ next ⟨hnext, ⟨hsame, -⟩ | ⟨-, _, hcall⟩⟩
    · exact ⟨hnext, hsame ▸ hinner⟩
    · exact ⟨hnext, hkept hcall⟩

/-- The indexed store holds only documents that were given to it. -/
theorem IndexedBackend.callsKeep (P : Document → Prop) :
    CallsKeep P fun backend : IndexedBackend MemoryBackend =>
      backend.Coherent ∧ Everywhere P backend.inner.documents where
  scan {backend} collection h := by
    apply (scan_ends h.1 collection).weaken
    · rintro list _ ⟨rfl, stored, hstored, hlist, -⟩
      exact ⟨h, fun document hmem => (h.2 _ _ _ _ hstored ((hlist document).mp hmem)).2⟩
    · rintro _ _ ⟨rfl, -⟩
      exact h
  scanIndex {backend} collection index key h := by
    apply (scanIndex_ends h.1 collection index key).weaken
    · rintro list _ ⟨rfl, stored, hstored, hlist⟩
      exact ⟨h, fun document hmem => (h.2 _ _ _ _ hstored (hlist document hmem)).2⟩
    · rintro _ _ rfl
      exact h
  insert collection document hdocument :=
    (follows_insert collection document).keeps
      ((MemoryBackend.callsKeep P).insert collection hdocument)
  replace collection document hdocument :=
    (follows_replace collection document).keeps
      ((MemoryBackend.callsKeep P).replace collection hdocument)
  delete collection id :=
    (follows_delete collection id).keeps ((MemoryBackend.callsKeep P).delete collection id)
  createCollection name :=
    (follows_createCollection name).keeps ((MemoryBackend.callsKeep P).createCollection name)
  dropCollection name :=
    (follows_dropCollection name).keeps ((MemoryBackend.callsKeep P).dropCollection name)
  createIndex name collection field :=
    @Follows.keeps _ _ _ (follows_createIndex name collection field)
      (fun backend => Everywhere P backend.documents)
      ((Action.Preserves.reads _).bind fun _ => Action.Preserves.pure _)
  dropIndex name :=
    @Follows.keeps _ _ _ (follows_dropIndex name) (fun backend => Everywhere P backend.documents)
      (Action.Preserves.pure _)

/-- Every document is storable, and the binary format keeps it as it is if it takes it at all. -/
def RoundTrips (documents : Documents) : Prop :=
  ∀ collection stored id document, documents collection = some stored →
    stored id = some document → Document.Storable document ∧
      ∀ bytes, Nbf.encode document = .ok bytes → bytes.length < 2 ^ 64 →
        Nbf.decode bytes = .ok document

omit [CharacterTables] in
theorem roundTrips_of_everywhere (h : Everywhere Document.Storable documents) :
    RoundTrips documents := by
  intro collection stored id document hstored hdocument
  have hstorable := (h collection stored id document hstored hdocument).2
  exact ⟨hstorable, fun bytes => Nbf.decode_encode_of_storable hstorable⟩

/-- After any statements, of which some may have failed, the documents of a store are encoded and
read back without a change. -/
theorem stored_documents_round_trip (queries : List Query) (ids : IdSource) :
    RoundTrips (executeAll queries ⟨MemoryBackend.new, ids, 0⟩).backend.documents ∧
      RoundTrips (executeAll queries ⟨IndexedBackend.empty, ids, 0⟩).backend.inner.documents := by
  constructor
  · apply roundTrips_of_everywhere
    exact (MemoryBackend.callsKeep Document.Storable).executeAll admissible_storable queries
      everywhere_new
  · apply roundTrips_of_everywhere
    exact ((IndexedBackend.callsKeep Document.Storable).executeAll admissible_storable queries
      ⟨IndexedBackend.coherent_empty, everywhere_new⟩).2

end Stores

end Executor

end NovaBase
