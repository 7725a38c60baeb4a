import NovaBase.Executor.Backend
import NovaBase.Index.Mirror

/-!
# The store in memory

The documents of a store in memory are a partial function from collections and
identifiers. Each call changes it at one place, or fails and changes nothing.
-/

namespace NovaBase.Executor

open Lib Index

namespace MemoryBackend

/-- The documents of all collections, by their ids. -/
def documents (backend : MemoryBackend) : Documents :=
  fun collection => (backend.collections.get collection).map SortedMap.get

variable {backend : MemoryBackend} {collection : String} {stored : NovaId → Option Document}

/-- A collection has documents when there is a map of that name. -/
theorem documents_eq_some : backend.documents collection = some stored ↔
    ∃ map, backend.collections.get collection = some map ∧ map.get = stored := by
  rw [documents, Option.map_eq_some_iff]

theorem documents_insert (backend : MemoryBackend) (collection : String)
    (map : SortedMap NovaId Document) :
    documents ⟨backend.collections.insert collection map⟩ =
      Function.update backend.documents collection (some map.get) := by
  funext other
  rw [documents, SortedMap.get_insert, Function.update_apply]
  by_cases h : collection = other
  · rw [if_pos h, if_pos h.symm]
    rfl
  · rw [if_neg h, if_neg (Ne.symm h)]
    rfl

theorem documents_remove (backend : MemoryBackend) (collection : String) :
    documents ⟨backend.collections.remove collection⟩ =
      Function.update backend.documents collection none := by
  funext other
  rw [documents, SortedMap.get_remove, Function.update_apply]
  by_cases h : collection = other
  · rw [if_pos h, if_pos h.symm]
    rfl
  · rw [if_neg h, if_neg (Ne.symm h)]
    rfl

/-- A document under its own identifier. -/
theorem keyed_document (backend : MemoryBackend) (hkeyed : Keyed backend.documents)
    (hstored : backend.documents collection = some stored) {id : NovaId} {value : Option Document}
    (hvalue : ∀ document, value = some document → document.id = id) :
    Keyed (Function.update backend.documents collection
      (some (Function.update stored id value))) := by
  intro other found key document hfound hdocument
  rw [Function.update_apply] at hfound
  split at hfound
  · cases hfound
    rw [Function.update_apply] at hdocument
    split at hdocument
    · rename_i hkey
      exact hkey ▸ hvalue document hdocument
    · exact hkeyed hstored hdocument
  · exact hkeyed hfound hdocument

/-- A collection without documents, or none. -/
theorem keyed_collection (backend : MemoryBackend) (hkeyed : Keyed backend.documents)
    {value : Option (NovaId → Option Document)}
    (hvalue : ∀ stored id, value = some stored → stored id = none) :
    Keyed (Function.update backend.documents collection value) := by
  intro other found key document hfound hdocument
  rw [Function.update_apply] at hfound
  split at hfound
  · cases (hvalue found key hfound).symm.trans hdocument
  · exact hkeyed hfound hdocument

/-- A change of one collection. -/
theorem onCollection_ends {α : Type} (backend : MemoryBackend) (collection : String)
    (change : SortedMap NovaId Document → Result (α × SortedMap NovaId Document)) :
    (onCollection collection change).Ends backend
      (fun result next => ∃ map map', backend.collections.get collection = some map ∧
        change map = .ok (result, map') ∧
        next.documents = Function.update backend.documents collection (some map'.get))
      (fun _ next => next = backend ∧ ∀ map, backend.collections.get collection = some map →
        ∀ result, change map ≠ .ok result) := by
  cases hmap : backend.collections.get collection with
  | none =>
      refine .inr ⟨.error (missingCollection collection), backend, ?_, rfl, nofun⟩
      rw [onCollection, hmap]
  | some map =>
      cases hchange : change map with
      | error cause =>
          refine .inr ⟨.error cause, backend, ?_, rfl, ?_⟩
          · rw [onCollection, hmap]
            simp only [hchange]
          · rintro _ ⟨⟩ result hok
            cases hchange.symm.trans hok
      | ok outcome =>
          obtain ⟨result, map'⟩ := outcome
          refine .inl ⟨result, ⟨backend.collections.insert collection map'⟩, ?_, map, map', rfl,
            hchange, documents_insert backend collection map'⟩
          rw [onCollection, hmap]
          simp only [hchange]

/-- A document with an id that the collection does not have. -/
theorem insert_ends (backend : MemoryBackend) (collection : String) (document : Document) :
    (insert collection document).Ends backend
      (fun id next => id = document.id ∧ ∃ stored, backend.documents collection = some stored ∧
        stored document.id = none ∧ next.documents = Function.update backend.documents collection
          (some (Function.update stored document.id (some document))))
      (fun _ next => next = backend) := by
  apply (onCollection_ends backend collection _).weaken
  · rintro id next ⟨map, map', hmap, hchange, hnext⟩
    split at hchange
    · cases hchange
    · rename_i hnew
      obtain ⟨rfl, rfl⟩ := Prod.mk.inj (Except.ok.inj hchange)
      refine ⟨rfl, map.get, documents_eq_some.mpr ⟨map, hmap, rfl⟩, ?_, ?_⟩
      · simpa [SortedMap.contains] using hnew
      · rw [hnext, SortedMap.get_insert_eq_update]
  · exact fun _ _ h => h.1

/-- The collection does not have the document. -/
def Lacks (backend : MemoryBackend) (collection : String) (id : NovaId) : Prop :=
  ∀ stored, backend.documents collection = some stored → stored id = none

/-- No document is stored where the map does not have the identifier. -/
theorem lacks_of_contains {id : NovaId}
    (h : ∀ map, backend.collections.get collection = some map → ¬ map.contains id = true) :
    backend.Lacks collection id := by
  intro stored hstored
  obtain ⟨map, hmap, rfl⟩ := documents_eq_some.mp hstored
  simpa [SortedMap.contains] using h map hmap

/-- Another document in the place of one that the collection has. -/
theorem replace_ends (backend : MemoryBackend) (collection : String) (document : Document) :
    (replace collection document).Ends backend
      (fun _ next => ∃ stored old, backend.documents collection = some stored ∧
        stored document.id = some old ∧
        next.documents = Function.update backend.documents collection
          (some (Function.update stored document.id (some document))))
      (fun _ next => next = backend ∧ backend.Lacks collection document.id) := by
  apply (onCollection_ends backend collection _).weaken
  · rintro _ next ⟨map, map', hmap, hchange, hnext⟩
    split at hchange
    · rename_i hpresent
      obtain ⟨-, rfl⟩ := Prod.mk.inj (Except.ok.inj hchange)
      obtain ⟨old, hold⟩ := Option.isSome_iff_exists.mp hpresent
      refine ⟨map.get, old, documents_eq_some.mpr ⟨map, hmap, rfl⟩, hold, ?_⟩
      rw [hnext, SortedMap.get_insert_eq_update]
    · cases hchange
  · rintro _ next ⟨hnext, hfailed⟩
    refine ⟨hnext, lacks_of_contains fun map hmap hpresent => ?_⟩
    exact hfailed map hmap _ (if_pos hpresent)

/-- Deleting removes a stored document, or fails without effect. -/
theorem delete_ends (backend : MemoryBackend) (collection : String) (id : NovaId) :
    (delete collection id).Ends backend
      (fun _ next => ∃ stored old, backend.documents collection = some stored ∧
        stored id = some old ∧ next.documents = Function.update backend.documents collection
          (some (Function.update stored id none)))
      (fun _ next => next = backend ∧ backend.Lacks collection id) := by
  apply (onCollection_ends backend collection _).weaken
  · rintro _ next ⟨map, map', hmap, hchange, hnext⟩
    split at hchange
    · rename_i hpresent
      obtain ⟨-, rfl⟩ := Prod.mk.inj (Except.ok.inj hchange)
      obtain ⟨old, hold⟩ := Option.isSome_iff_exists.mp hpresent
      refine ⟨map.get, old, documents_eq_some.mpr ⟨map, hmap, rfl⟩, hold, ?_⟩
      rw [hnext, SortedMap.get_remove_eq_update]
    · cases hchange
  · rintro _ next ⟨hnext, hfailed⟩
    refine ⟨hnext, lacks_of_contains fun map hmap hpresent => ?_⟩
    exact hfailed map hmap _ (if_pos hpresent)

/-- A collection is created empty, or there is one of that name already. -/
theorem createCollection_ends (backend : MemoryBackend) (name : String) :
    (createCollection name).Ends backend
      (fun _ next => backend.documents name = none ∧
        next.documents = Function.update backend.documents name (some fun _ => none))
      (fun _ next => next = backend) := by
  cases hmap : backend.collections.get name with
  | none =>
      have habsent : backend.collections.contains name = false := by
        rw [SortedMap.contains, hmap]
        rfl
      refine .inl ⟨(), ⟨backend.collections.insert name .empty⟩, ?_, ?_, ?_⟩
      · rw [createCollection, habsent]
        rfl
      · rw [documents, hmap]
        rfl
      · rw [documents_insert]
        rfl
  | some map =>
      have hpresent : backend.collections.contains name = true := by
        rw [SortedMap.contains, hmap]
        rfl
      exact .inr ⟨_, backend, if_pos hpresent, rfl⟩

/-- A collection is dropped with its documents, or there is none of that name. -/
theorem dropCollection_ends (backend : MemoryBackend) (name : String) :
    (dropCollection name).Ends backend
      (fun _ next => backend.documents name ≠ none ∧
        next.documents = Function.update backend.documents name none)
      (fun _ next => next = backend) := by
  by_cases hpresent : backend.collections.contains name = true
  · refine .inl ⟨(), ⟨backend.collections.remove name⟩, if_pos hpresent, ?_,
      documents_remove backend name⟩
    intro hnone
    rw [documents, Option.map_eq_none_iff] at hnone
    rw [SortedMap.contains, hnone] at hpresent
    cases hpresent
  · exact .inr ⟨_, backend, if_neg hpresent, rfl⟩

/-- The identifiers of the documents are the keys they are stored under. -/
theorem map_id_values (hkeyed : Keyed backend.documents) {map : SortedMap NovaId Document}
    (hmap : backend.collections.get collection = some map) :
    map.values.map DocumentOf.id = map.keys := by
  rw [SortedMap.values, SortedMap.keys, List.map_map]
  apply List.map_congr_left
  rintro ⟨id, document⟩ hmem
  exact hkeyed (documents_eq_some.mpr ⟨map, hmap, rfl⟩) ((SortedMap.mem_entries map).mp hmem)

/-- A scan lists the documents of a collection in increasing order of their ids. -/
theorem scan_ends (hkeyed : Keyed backend.documents) (collection : String) :
    (scan collection).Ends backend
      (fun list next => next = backend ∧ ∃ stored, backend.documents collection = some stored ∧
        (∀ document, document ∈ list ↔ stored document.id = some document) ∧
        (list.map DocumentOf.id).Pairwise (· < ·))
      (fun _ next => next = backend ∧ backend.documents collection = none) := by
  cases hmap : backend.collections.get collection with
  | none =>
      refine .inr ⟨.error (missingCollection collection), backend, ?_, rfl, ?_⟩
      · rw [scan, Action.reads_apply, hmap]
      · rw [documents, hmap]
        rfl
  | some map =>
      have hstored : backend.documents collection = some map.get :=
        documents_eq_some.mpr ⟨map, hmap, rfl⟩
      refine .inl ⟨map.values, backend, ?_, rfl, map.get, hstored, fun document => ?_, ?_⟩
      · rw [scan, Action.reads_apply, hmap]
      · rw [SortedMap.mem_values]
        constructor
        · rintro ⟨id, hid⟩
          rw [hkeyed hstored hid]
          exact hid
        · exact fun h => ⟨_, h⟩
      · rw [map_id_values hkeyed hmap]
        exact map.pairwise_keys

end MemoryBackend

end NovaBase.Executor
