import Mathlib.Data.Prod.Lex
import Mathlib.Data.String.Basic
import Mathlib.Order.Compare
import NovaBase.Executor.Runtime

/-!
# The order of values

The comparisons of the executor are written kind by kind. All of them agree with
one linear order, on the kind of a value and then on its content.
-/

namespace NovaBase.Lib

/-- A strictly monotone function keeps the outcome of a comparison. -/
theorem compare_of_strictMono {α β : Type} [LinearOrder α] [LinearOrder β] {f : α → β}
    (hf : StrictMono f) (x y : α) : compare (f x) (f y) = compare x y := by
  rw [← cmp_eq_compare, ← cmp_eq_compare, hf.cmp_map_eq]

end NovaBase.Lib

namespace NovaBase.Executor.RuntimeValue

open Lib NovaQl

/-- Kinds of values, numbered as a sort key has them. -/
def kind : RuntimeValue → Nat
  | .missing => 0
  | .null => 1
  | .boolean _ => 2
  | .int64 _ => 3
  | .float64 _ => 4
  | .string _ => 5
  | .timestamp _ => 6
  | .novaId _ => 7
  | .array _ => 8
  | .object _ => 9

/-- Arrays and documents have no order. -/
def Sortable (value : RuntimeValue) : Prop := value.kind < 8

instance (value : RuntimeValue) : Decidable value.Sortable :=
  inferInstanceAs (Decidable (value.kind < 8))

/-- What the order of values looks at: the kind, then a number, then a text. -/
abbrev OrderKey := Lex (Nat × Lex (Int × String))

/-- A key whose parts are compared from left to right. -/
def OrderKey.of (kind : Nat) (number : Int) (text : String) : OrderKey :=
  toLex (kind, toLex (number, text))

/-- The kind of a value decides first, and its value among values of its kind. -/
def orderKey : RuntimeValue → OrderKey
  | .boolean value => .of 2 (if value then 1 else 0) ""
  | .int64 value => .of 3 value.toInt ""
  | .float64 value => .of 4 value.totalKey ""
  | .string value => .of 5 0 value
  | .timestamp value => .of 6 value.millis.toInt ""
  | .novaId value => .of 7 value.toNat ""
  | value => .of value.kind 0 ""

theorem compare_of_number (kind : Nat) (x y : Int) (text : String) :
    compare (OrderKey.of kind x text) (.of kind y text) = compare x y := by
  refine compare_of_strictMono (f := fun number => OrderKey.of kind number text) ?_ x y
  intro a b h
  exact Prod.Lex.toLex_lt_toLex.mpr (.inr ⟨rfl, Prod.Lex.toLex_lt_toLex.mpr (.inl h)⟩)

theorem compare_of_text (kind : Nat) (number : Int) (x y : String) :
    compare (OrderKey.of kind number x) (.of kind number y) = compare x y := by
  refine compare_of_strictMono (f := fun text => OrderKey.of kind number text) ?_ x y
  intro a b h
  exact Prod.Lex.toLex_lt_toLex.mpr
    (.inr ⟨rfl, Prod.Lex.toLex_lt_toLex.mpr (.inr ⟨rfl, h⟩)⟩)

theorem compare_of_kind {k l : Nat} (h : k < l) (x y : Int) (s t : String) :
    compare (OrderKey.of k x s) (.of l y t) = .lt :=
  compare_lt_iff_lt.mpr (Prod.Lex.toLex_lt_toLex.mpr (.inl h))

theorem compare_novaId (x y : NovaId) : compare (x.toNat : Int) y.toNat = compare x y := by
  refine compare_of_strictMono (f := fun id : NovaId => (id.toNat : Int)) ?_ x y
  intro a b h
  exact Int.ofNat_lt.mpr h

theorem compare_boolean (x y : Bool) :
    compare (if x then 1 else 0 : Int) (if y then 1 else 0) = compare x y := by
  cases x <;> cases y <;> decide

/-- The kinds of values that have an order. -/
theorem kind_of_compareConcrete {a b : RuntimeValue} {ordering : Ordering}
    (h : a.compareConcrete b = some ordering) : a.kind = b.kind ∧ 3 ≤ a.kind ∧ a.kind < 8 := by
  cases a <;> cases b <;> simp only [compareConcrete, reduceCtorEq] at h <;> simp [kind]

/-- Values of one kind are compared as the one order has them. -/
theorem compareConcrete_of_kind {a b : RuntimeValue} (hkind : a.kind = b.kind)
    (hlower : 3 ≤ a.kind) (hupper : a.kind < 8) :
    a.compareConcrete b = some (compare a.orderKey b.orderKey) := by
  cases a <;> cases b <;> simp only [kind, Nat.reduceEqDiff, Nat.reduceLeDiff, Nat.reduceLT,
    Nat.lt_irrefl] at hkind hlower hupper
  case int64 x y => exact congrArg some (compare_of_number 3 _ _ _).symm
  case float64 x y => exact congrArg some (compare_of_number 4 _ _ _).symm
  case string x y => exact congrArg some (compare_of_text 5 0 x y).symm
  case timestamp x y => exact congrArg some (compare_of_number 6 _ _ _).symm
  case novaId x y =>
      exact congrArg some ((compare_of_number 7 _ _ _).trans (compare_novaId x y)).symm

/-- A comparison that has an answer compares the order keys. -/
theorem compareConcrete_eq {a b : RuntimeValue} {ordering : Ordering}
    (h : a.compareConcrete b = some ordering) : ordering = compare a.orderKey b.orderKey := by
  obtain ⟨hkind, hlower, hupper⟩ := kind_of_compareConcrete h
  exact Option.some.inj (h.symm.trans (compareConcrete_of_kind hkind hlower hupper))

/-- Whether two values can be compared as values of a sort key. -/
def Comparable (a b : RuntimeValue) : Prop :=
  a.isConcrete = false ∨ b.isConcrete = false ∨ a.kind = b.kind ∧ a.Sortable

instance (a b : RuntimeValue) : Decidable (Comparable a b) :=
  inferInstanceAs (Decidable (_ ∨ _ ∨ _ ∧ _))

/-- The kind of a value comes first in its order key. -/
theorem orderKey_eq (value : RuntimeValue) :
    ∃ number text, value.orderKey = .of value.kind number text := by
  cases value <;> exact ⟨_, _, rfl⟩

theorem compare_orderKey_of_kind {a b : RuntimeValue} (h : a.kind < b.kind) :
    compare a.orderKey b.orderKey = .lt := by
  obtain ⟨x, s, ha⟩ := orderKey_eq a
  obtain ⟨y, t, hb⟩ := orderKey_eq b
  rw [ha, hb]
  exact compare_of_kind h x y s t

theorem compare_orderKey_of_kind_gt {a b : RuntimeValue} (h : b.kind < a.kind) :
    compare a.orderKey b.orderKey = .gt :=
  compare_gt_iff_gt.mpr (compare_lt_iff_lt.mp (compare_orderKey_of_kind h))

theorem isConcrete_eq_false {value : RuntimeValue} : value.isConcrete = false ↔ value.kind ≤ 1 := by
  cases value <;> simp [isConcrete, kind]

/-- Missing and null come before all values of greater kinds. -/
theorem compareForSort_of_kind {a b : RuntimeValue} (h : a.kind < b.kind) (ha : a.kind ≤ 1) :
    a.compareForSort b = .ok .lt := by
  cases a <;> simp only [kind, Nat.reduceLeDiff] at ha <;>
    cases b <;> simp_all [kind, compareForSort]

theorem compareForSort_of_kind_gt {a b : RuntimeValue} (h : b.kind < a.kind) (hb : b.kind ≤ 1) :
    a.compareForSort b = .ok .gt := by
  cases b <;> simp only [kind, Nat.reduceLeDiff] at hb <;>
    cases a <;> simp_all [kind, compareForSort]

theorem compareForSort_of_compareConcrete {a b : RuntimeValue} {ordering : Ordering}
    (h : a.compareConcrete b = some ordering) : a.compareForSort b = .ok ordering := by
  cases a <;> cases b <;> simp only [compareConcrete, reduceCtorEq] at h <;>
    simp [compareForSort, compareConcrete, Option.some.inj h]

/-- Sortable values of one kind are compared by their order keys. -/
theorem compareForSort_of_same_kind {a b : RuntimeValue} (h : a.kind = b.kind) (ha : a.Sortable) :
    a.compareForSort b = .ok (compare a.orderKey b.orderKey) := by
  by_cases hlower : 3 ≤ a.kind
  · exact compareForSort_of_compareConcrete (compareConcrete_of_kind h hlower ha)
  · cases a <;> cases b <;> simp only [kind, Nat.reduceEqDiff] at h <;> simp [kind] at hlower
    case missing => exact congrArg Except.ok (compare_eq_iff_eq.mpr rfl).symm
    case null => exact congrArg Except.ok (compare_eq_iff_eq.mpr rfl).symm
    case boolean x y =>
        exact congrArg Except.ok ((compare_of_number 2 _ _ _).trans (compare_boolean x y)).symm

/-- Values that can be compared are compared as the one order has them. -/
theorem compareForSort_of_comparable {a b : RuntimeValue} (h : Comparable a b) :
    a.compareForSort b = .ok (compare a.orderKey b.orderKey) := by
  simp only [Comparable, isConcrete_eq_false] at h
  rcases lt_trichotomy a.kind b.kind with hlt | heq | hgt
  · rw [compare_orderKey_of_kind hlt]
    exact compareForSort_of_kind hlt (by omega)
  · refine compareForSort_of_same_kind heq ?_
    rcases h with ha | hb | ⟨-, hsortable⟩
    · exact Nat.lt_of_le_of_lt ha (by decide)
    · exact Nat.lt_of_le_of_lt (heq ▸ hb) (by decide)
    · exact hsortable
  · rw [compare_orderKey_of_kind_gt hgt]
    exact compareForSort_of_kind_gt hgt (by omega)

/-- All other pairs have no order. -/
theorem compareForSort_of_not_comparable {a b : RuntimeValue} (h : ¬ Comparable a b) :
    ∃ cause, a.compareForSort b = .error cause := by
  simp only [Comparable, isConcrete_eq_false, Sortable, not_or, not_and, not_le, not_lt] at h
  obtain ⟨ha, hb, hkind⟩ := h
  cases a <;> simp only [kind] at ha hkind <;>
    first | omega | (cases b <;> simp_all [kind, compareForSort, compareConcrete])

end NovaBase.Executor.RuntimeValue
