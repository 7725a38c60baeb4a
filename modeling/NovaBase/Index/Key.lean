import Mathlib.Data.Sum.Order
import NovaBase.Core.Error
import NovaBase.Core.Value

/-!
# Index keys

The scalar values that an index can hold, in the order the tree keeps them:
first by kind, then by value. Floats are ordered by `total_cmp` and every
`NaN` is made the same one, so equal keys are identical.
-/

namespace NovaBase.Index

/-- A float with its `NaN`s made one. -/
structure OrderedF64 where
  value : F64
  canonical : value.isNaN → value = F64.nan
  deriving DecidableEq

namespace OrderedF64

/-- Every NaN is taken for the same one. -/
def new (value : F64) : OrderedF64 :=
  if h : value.isNaN then ⟨F64.nan, fun _ => rfl⟩ else ⟨value, fun hnan => absurd hnan h⟩

/-- The position of a float in the total order of floats. -/
def totalKey (key : OrderedF64) : Int := key.value.totalKey

theorem totalKey_injective : Function.Injective totalKey := by
  intro a b h
  cases a
  cases b
  congr
  exact F64.totalKey_injective h

instance : LinearOrder OrderedF64 := LinearOrder.lift' totalKey totalKey_injective

end OrderedF64

/-- Scalar values supported by an index. -/
inductive IndexKey
  | int64 (value : Int64)
  | float64 (value : OrderedF64)
  | string (value : String)
  | novaId (value : NovaId)
  deriving DecidableEq

namespace IndexKey

/-- Keys ordered by kind and then by value. -/
abbrev Ranked := Lex (Int ⊕ Lex (OrderedF64 ⊕ Lex (String ⊕ NovaId)))

/-- A key with the rank of its type in front. -/
def ranked : IndexKey → Ranked
  | .int64 value => toLex (.inl value.toInt)
  | .float64 value => toLex (.inr (toLex (.inl value)))
  | .string value => toLex (.inr (toLex (.inr (toLex (.inl value)))))
  | .novaId value => toLex (.inr (toLex (.inr (toLex (.inr value)))))

theorem ranked_injective : Function.Injective ranked := by
  intro a b h
  cases a <;> cases b <;> simp_all [ranked, Int64.toInt_inj]

instance : LinearOrder IndexKey := LinearOrder.lift' ranked ranked_injective

/-- The key of a value, for the kinds that have one. -/
def tryFrom : NovaValue → Result IndexKey
  | .int64 value => .ok (.int64 value)
  | .float64 value => .ok (.float64 (.new value))
  | .string value => .ok (.string value)
  | .novaId value => .ok (.novaId value)
  | other =>
      let name := other.typeName
      .error (.invalidArgument s!"{name} values cannot be indexed")

example : IndexKey.int64 5 < IndexKey.float64 (.new F64.nan) := by decide

end IndexKey

end NovaBase.Index
