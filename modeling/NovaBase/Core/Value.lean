import Mathlib.Data.String.Basic
import NovaBase.Lib.Bytes
import NovaBase.Lib.SortedMap
import NovaBase.Core.Float

/-!
# Typed document values

A document is an id and a map of fields, and its values nest: a field may hold
an array or another document. Values are an inductive type, so their maps are
bare `Entries`; `WellFormed` says that every map inside a value is in key
order, which insertion and removal keep.
-/

namespace NovaBase

open Lib Lib.Bytes

/-- The number of bytes of an identifier. -/
def novaIdLength : Nat := 16

/-- A document identifier. -/
structure NovaId where
  bytes : Bytes
  length_eq : bytes.length = novaIdLength
  deriving DecidableEq

namespace NovaId

/-- The bytes of an identifier, read as one big-endian number. -/
def toNat (id : NovaId) : Nat := fromBigEndian id.bytes

theorem toNat_injective : Function.Injective toNat := by
  intro a b h
  have hlen : a.bytes.length = b.bytes.length := a.length_eq.trans b.length_eq.symm
  cases a
  cases b
  congr
  exact fromBigEndian_injective hlen h

/-- Byte order on identifiers. -/
instance : LinearOrder NovaId := LinearOrder.lift' toNat toNat_injective

/-- The identifier with these bytes, if they are sixteen. -/
def fromBytes (bytes : Bytes) : Option NovaId :=
  if h : bytes.length = novaIdLength then some ⟨bytes, h⟩ else none

/-- The identifier whose bytes are all the same. -/
def filled (byte : UInt8) : NovaId := ⟨List.replicate novaIdLength byte, List.length_replicate⟩

theorem fromBytes_bytes (id : NovaId) : fromBytes id.bytes = some id := dif_pos id.length_eq

end NovaId

/-- Milliseconds since the epoch. -/
structure NovaTimestamp where
  millis : Int64
  deriving DecidableEq

/-- A document whose values are taken from `ν`. -/
structure DocumentOf (ν : Type) where
  id : NovaId
  fields : List (String × ν)

/-- A typed value that can be stored inside a document. -/
inductive NovaValue
  | null
  | boolean (value : Bool)
  | int64 (value : Int64)
  | float64 (value : F64)
  | string (value : String)
  | array (values : List NovaValue)
  | document (document : DocumentOf NovaValue)
  | timestamp (value : NovaTimestamp)
  | novaId (value : NovaId)

/-- A document as it is stored, with values for its fields. -/
abbrev Document := DocumentOf NovaValue

namespace NovaValue

/-- The human-readable name of the variant. -/
def typeName : NovaValue → String
  | .null => "null"
  | .boolean _ => "boolean"
  | .int64 _ => "int64"
  | .float64 _ => "float64"
  | .string _ => "string"
  | .array _ => "array"
  | .document _ => "document"
  | .timestamp _ => "timestamp"
  | .novaId _ => "nova_id"

/-- Induction over nested values: a value may assume the property of everything it holds. -/
@[elab_as_elim]
theorem nested_induction {motive : NovaValue → Prop} (null : motive .null)
    (boolean : ∀ value, motive (.boolean value)) (int64 : ∀ value, motive (.int64 value))
    (float64 : ∀ value, motive (.float64 value)) (string : ∀ value, motive (.string value))
    (array : ∀ values, (∀ value ∈ values, motive value) → motive (.array values))
    (document : ∀ document, (∀ e ∈ document.fields, motive e.2) → motive (.document document))
    (timestamp : ∀ value, motive (.timestamp value)) (novaId : ∀ value, motive (.novaId value))
    (value : NovaValue) : motive value := by
  refine @NovaValue.rec motive (fun values => ∀ value ∈ values, motive value)
    (fun document => ∀ e ∈ document.fields, motive e.2)
    (fun fields => ∀ e ∈ fields, motive e.2) (fun e => motive e.2)
    null boolean int64 float64 string array document timestamp novaId ?_ ?_ ?_ ?_ ?_ ?_ value
  · simp
  · intro head tail hhead htail
    exact List.forall_mem_cons.mpr ⟨hhead, htail⟩
  · intro id fields hfields
    exact hfields
  · simp
  · intro head tail hhead htail
    exact List.forall_mem_cons.mpr ⟨hhead, htail⟩
  · intro key value hvalue
    exact hvalue

end NovaValue

namespace DocumentOf

variable {ν : Type}

/-- An empty document. -/
def new (id : NovaId) : DocumentOf ν := ⟨id, []⟩

/-- The value of a field. -/
def get (document : DocumentOf ν) (field : String) : Option ν := Entries.get document.fields field

/-- Insert or replace a field; the previous value is returned. -/
def insert (document : DocumentOf ν) (field : String) (value : ν) : Option ν × DocumentOf ν :=
  (document.get field, ⟨document.id, Entries.insert document.fields field value⟩)

/-- Remove a field; the previous value is returned. -/
def remove (document : DocumentOf ν) (field : String) : Option ν × DocumentOf ν :=
  (document.get field, ⟨document.id, Entries.remove document.fields field⟩)

end DocumentOf

mutual

/-- Every map of fields inside a value is in key order. -/
def NovaValue.WellFormed : NovaValue → Prop
  | .array values => NovaValue.AllWellFormed values
  | .document document => Document.WellFormed document
  | _ => True

/-- Every value of an array is well formed. -/
def NovaValue.AllWellFormed : List NovaValue → Prop
  | [] => True
  | value :: rest => value.WellFormed ∧ NovaValue.AllWellFormed rest

/-- The fields are in key order, without repetition, and their values are well formed. -/
def Document.WellFormed : DocumentOf NovaValue → Prop
  | ⟨_, fields⟩ => Entries.Sorted fields ∧ Document.FieldsWellFormed fields

/-- The values of all fields are well formed. -/
def Document.FieldsWellFormed : List (String × NovaValue) → Prop
  | [] => True
  | (_, value) :: rest => value.WellFormed ∧ Document.FieldsWellFormed rest

end

theorem NovaValue.allWellFormed_iff {values : List NovaValue} :
    NovaValue.AllWellFormed values ↔ ∀ value ∈ values, value.WellFormed := by
  induction values with
  | nil => simp [NovaValue.AllWellFormed]
  | cons value rest ih => rw [NovaValue.AllWellFormed, ih, List.forall_mem_cons]

namespace Document

theorem fieldsWellFormed_iff {fields : Entries String NovaValue} :
    FieldsWellFormed fields ↔ ∀ e ∈ fields, e.2.WellFormed := by
  induction fields with
  | nil => simp [FieldsWellFormed]
  | cons entry rest ih =>
      obtain ⟨key, value⟩ := entry
      rw [FieldsWellFormed, ih, List.forall_mem_cons]

theorem wellFormed_iff {document : Document} :
    WellFormed document ↔
      Entries.Sorted document.fields ∧ ∀ e ∈ document.fields, e.2.WellFormed := by
  obtain ⟨id, fields⟩ := document
  rw [WellFormed, fieldsWellFormed_iff]

theorem wellFormed_new (id : NovaId) : WellFormed (DocumentOf.new id) :=
  ⟨Entries.sorted_nil, trivial⟩

theorem wellFormed_insert {document : Document} (hdocument : WellFormed document) (field : String)
    {value : NovaValue} (hvalue : value.WellFormed) :
    WellFormed (document.insert field value).2 := by
  obtain ⟨hsorted, hfields⟩ := wellFormed_iff.mp hdocument
  refine wellFormed_iff.mpr ⟨Entries.sorted_insert hsorted field value, fun e he => ?_⟩
  rcases Entries.mem_insert he with rfl | hmem
  · exact hvalue
  · exact hfields e hmem

end Document

end NovaBase
