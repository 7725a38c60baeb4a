import NovaBase.Executor.Memory
import NovaBase.Executor.Plan

/-!
# What a store holds

Seen from outside, a store holds documents under their identifiers and indexes
that are no more than their definitions. A call changes these contents at one
place. How an index keeps its keys does not show, but for what it refuses.
-/

namespace NovaBase.Executor

open Lib Index

/-- The documents of all collections, and the definitions of the indexes by their names. -/
structure Contents where
  documents : Documents
  indexes : String → Option IndexDefinition

namespace Contents

variable {contents : Contents} {collection : String} {document : Document}

/-- Other documents in a collection. -/
def put (contents : Contents) (collection : String) (stored : NovaId → Option Document) :
    Contents :=
  { contents with documents := Function.update contents.documents collection (some stored) }

/-- A collection is gone, and its indexes are gone with it. -/
def drop (contents : Contents) (collection : String) : Contents where
  documents := Function.update contents.documents collection none
  indexes name :=
    (contents.indexes name).filter fun definition => definition.collection ≠ collection

/-- Another index. -/
def define (contents : Contents) (definition : IndexDefinition) : Contents :=
  { contents with
    indexes := Function.update contents.indexes definition.name (some definition) }

/-- One index less. -/
def forget (contents : Contents) (name : String) : Contents :=
  { contents with indexes := Function.update contents.indexes name none }

/-- Every index of the collection can keep the document. -/
def Accepts (contents : Contents) (collection : String) (document : Document) : Prop :=
  ∀ name definition, contents.indexes name = some definition →
    definition.collection = collection → Indexable definition document

/-- An access path leads to the document: any path but that through an index for its key. -/
def Wants (contents : Contents) : AccessPath → Document → Prop
  | .indexScan _ index key, document =>
      ∃ definition, contents.indexes index = some definition ∧
        documentKey definition document = .ok (some key)
  | _, _ => True

@[simp] theorem put_documents (contents : Contents) (collection : String)
    (stored : NovaId → Option Document) :
    (contents.put collection stored).documents collection = some stored :=
  Function.update_self ..

@[simp] theorem put_indexes (contents : Contents) (collection : String)
    (stored : NovaId → Option Document) :
    (contents.put collection stored).indexes = contents.indexes := rfl

/-- Only the last change of a collection counts. -/
@[simp] theorem put_put (contents : Contents) (collection : String)
    (first second : NovaId → Option Document) :
    (contents.put collection first).put collection second = contents.put collection second :=
  congrArg (Contents.mk · contents.indexes) (Function.update_idem ..)

theorem put_stored {stored : NovaId → Option Document}
    (h : contents.documents collection = some stored) :
    contents.put collection stored = contents := by
  rw [put, ← h, Function.update_eq_self]

end Contents

/-- A document has been put into a collection, which had none with its id. -/
def Inserted (collection : String) (document : Document) (before after : Contents) : Prop :=
  ∃ stored, before.documents collection = some stored ∧ stored document.id = none ∧
    after = before.put collection (Function.update stored document.id (some document))

/-- The documents of a collection that are wanted, in increasing order of their ids. -/
structure Lists (stored : NovaId → Option Document) (wanted : Document → Prop)
    (list : List Document) : Prop where
  mem : ∀ document, document ∈ list ↔ stored document.id = some document ∧ wanted document
  increasing : (list.map DocumentOf.id).Pairwise (· < ·)

/-- Of a whole collection, every document is wanted. -/
theorem lists_all {stored : NovaId → Option Document} {list : List Document}
    (hlist : ∀ document, document ∈ list ↔ stored document.id = some document)
    (hsorted : (list.map DocumentOf.id).Pairwise (· < ·)) : Lists stored (fun _ => True) list :=
  ⟨fun document => by rw [hlist, and_true], hsorted⟩

/-- A listing has no document twice, for it is in the order of identifiers. -/
theorem Lists.nodup {stored : NovaId → Option Document} {wanted : Document → Prop}
    {list : List Document} (h : Lists stored wanted list) : (list.map DocumentOf.id).Nodup :=
  h.increasing.imp ne_of_lt

namespace MemoryBackend

/-- A store in memory has no indexes. -/
def contents (backend : MemoryBackend) : Contents := ⟨backend.documents, fun _ => none⟩

end MemoryBackend

end NovaBase.Executor
