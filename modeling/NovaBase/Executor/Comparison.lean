import NovaBase.Executor.Order

/-!
# Comparison operators

The operators `<`, `<=`, `>` and `>=` look at the order of values and the
operators `==` and `!=` at their equality. For floats these are two different
notions: the order is total on bit patterns, where the two zeros differ and a
`NaN` is like itself, and the equality is that of IEEE-754.
-/

namespace NovaBase.F64

/-- Floats are equal when they are the same or both zero, and no NaN. -/
theorem ieeeEq_eq_true {x y : F64} :
    x.ieeeEq y = true ↔
      x.isNaN = false ∧ y.isNaN = false ∧ (x = y ∨ x.isZero = true ∧ y.isZero = true) := by
  have hbits : x.bits = y.bits ↔ x = y := ⟨fun h => congrArg F64.mk h, congrArg F64.bits⟩
  simp [ieeeEq, and_assoc, hbits]

theorem isNaN_of_isZero {x : F64} (h : x.isZero = true) : x.isNaN = false := by
  simp only [isZero, beq_iff_eq] at h
  have hexponent : x.exponentField ≠ 2047 := by
    unfold exponentField
    omega
  simp [isNaN, hexponent]

/-- Equality and order disagree on two zeros of different sign and on a `NaN` and itself. -/
theorem ieeeEq_iff_eq {x y : F64} :
    (x.ieeeEq y = true ↔ x = y) ↔
      ¬ (x ≠ y ∧ x.isZero = true ∧ y.isZero = true ∨ x = y ∧ x.isNaN = true) := by
  rw [ieeeEq_eq_true]
  by_cases hxy : x = y
  · subst hxy
    simp
  · by_cases hzero : x.isZero = true ∧ y.isZero = true
    · simp [hxy, hzero, isNaN_of_isZero hzero.1, isNaN_of_isZero hzero.2]
    · simp [hxy, hzero]

end NovaBase.F64

namespace NovaBase.Executor

open Lib NovaQl RuntimeValue

/-- Whether an infix operation on two expressions is true. -/
def Holds (document : Document) (left : Expression) (operator : BinaryOperator)
    (right : Expression) : Prop :=
  evaluate document (.binary left operator right ⟨0, 0⟩) = .ok (.boolean true)

/-- The laws of comparison, for two expressions on a document. -/
structure Coherent (document : Document) (left right : Expression) : Prop where
  /-- Exactly one of the three holds. -/
  trichotomy :
    Holds document left .less right ∧ ¬ Holds document left .equal right ∧
        ¬ Holds document left .greater right ∨
      ¬ Holds document left .less right ∧ Holds document left .equal right ∧
        ¬ Holds document left .greater right ∨
      ¬ Holds document left .less right ∧ ¬ Holds document left .equal right ∧
        Holds document left .greater right
  lessEqual : Holds document left .lessEqual right ↔
    Holds document left .less right ∨ Holds document left .equal right
  greaterEqual : Holds document left .greaterEqual right ↔
    Holds document left .greater right ∨ Holds document left .equal right
  notEqual : Holds document left .notEqual right ↔ ¬ Holds document left .equal right
  transitive : ∀ third, Holds document left .less right → Holds document right .less third →
    Holds document left .less third

/-- Two zeros of different sign, or a `NaN` and itself. -/
def Drift : RuntimeValue → RuntimeValue → Prop
  | .float64 x, .float64 y => x ≠ y ∧ x.isZero = true ∧ y.isZero = true ∨ x = y ∧ x.isNaN = true
  | _, _ => False

section Laws

variable {document : Document} {left right : Expression} {a b : RuntimeValue}

theorem evaluate_binary (hleft : evaluate document left = .ok a)
    (hright : evaluate document right = .ok b) (operator : BinaryOperator) (span : Span) :
    evaluate document (.binary left operator right span) = evaluateBinary a operator (.ok b) := by
  rw [evaluate, hleft, hright]
  rfl

theorem holds_equal (hleft : evaluate document left = .ok a)
    (hright : evaluate document right = .ok b) :
    Holds document left .equal right ↔ a.eq b = true := by
  rw [Holds, evaluate_binary hleft hright]
  simp [evaluateBinary]

theorem holds_notEqual (hleft : evaluate document left = .ok a)
    (hright : evaluate document right = .ok b) :
    Holds document left .notEqual right ↔ ¬ a.eq b = true := by
  rw [Holds, evaluate_binary hleft hright]
  simp [evaluateBinary]

/-- An operator that looks at the order is true where its predicate is. -/
theorem holds_ordered {operator : BinaryOperator} {predicate : Ordering → Bool}
    (hleft : evaluate document left = .ok a) (hright : evaluate document right = .ok b)
    (hoperator : evaluateBinary a operator (.ok b) = ordered a b predicate) :
    Holds document left operator right ↔
      ∃ ordering, a.compareConcrete b = some ordering ∧ predicate ordering = true := by
  rw [Holds, evaluate_binary hleft hright, hoperator, ordered]
  cases a.compareConcrete b with
  | none => simp
  | some ordering => simp

/-- The operands of a comparison that is true have values. -/
theorem values_of_holds_less (h : Holds document left .less right) :
    ∃ a b, evaluate document left = .ok a ∧ evaluate document right = .ok b := by
  rw [Holds, evaluate] at h
  obtain ⟨a, hleft, h⟩ := bind_eq_ok.mp h
  simp only [evaluateBinary] at h
  obtain ⟨b, hright, -⟩ := bind_eq_ok.mp h
  exact ⟨a, b, hleft, hright⟩

/-- `<` is transitive where it holds, whatever the types of the operands. -/
theorem less_trans {third : Expression} (hless : Holds document left .less right)
    (hthird : Holds document right .less third) : Holds document left .less third := by
  obtain ⟨a, b, hleft, hright⟩ := values_of_holds_less hless
  obtain ⟨-, c, -, hlast⟩ := values_of_holds_less hthird
  obtain ⟨first, hfirst, hlt⟩ := (holds_ordered hleft hright rfl).mp hless
  obtain ⟨second, hsecond, hlt'⟩ := (holds_ordered hright hlast rfl).mp hthird
  obtain ⟨hkind, hlower, hupper⟩ := kind_of_compareConcrete hfirst
  obtain ⟨hkind', -, -⟩ := kind_of_compareConcrete hsecond
  refine (holds_ordered hleft hlast rfl).mpr
    ⟨_, compareConcrete_of_kind (hkind.trans hkind') hlower hupper, ?_⟩
  rw [compareConcrete_eq hfirst, Ordering.isLT_iff_eq_lt, compare_lt_iff_lt] at hlt
  rw [compareConcrete_eq hsecond, Ordering.isLT_iff_eq_lt, compare_lt_iff_lt] at hlt'
  rw [Ordering.isLT_iff_eq_lt, compare_lt_iff_lt]
  exact hlt.trans hlt'

/-- Where there is an order, it agrees with equality on all values that do not drift. -/
theorem eq_iff_not_drift {ordering : Ordering} (h : a.compareConcrete b = some ordering) :
    (a.eq b = true ↔ ordering = .eq) ↔ ¬ Drift a b := by
  have hordering := compareConcrete_eq h
  cases a <;> cases b <;> simp only [compareConcrete, Option.some.injEq, reduceCtorEq] at h
  case float64 x y =>
      have hkey : ordering = .eq ↔ x = y := by
        rw [← h, compare_eq_iff_eq, F64.totalKey_injective.eq_iff]
      rw [hkey]
      exact F64.ieeeEq_iff_eq
  case timestamp x y =>
      have hmillis : x = y ↔ x.millis = y.millis := by
        cases x
        cases y
        simp
      rw [← h]
      simp [RuntimeValue.eq, Drift, Int64.toInt_inj, hmillis]
  all_goals
    rw [← h]
    simp [RuntimeValue.eq, Drift, Int64.toInt_inj, compare_eq_iff_eq]

/-- The laws of comparison hold for all values that have an order, but for those that drift. -/
theorem coherent_iff_not_drift (hleft : evaluate document left = .ok a)
    (hright : evaluate document right = .ok b) (span : Span)
    (hordered : ∃ value, evaluate document (.binary left .less right span) = .ok value) :
    Coherent document left right ↔ ¬ Drift a b := by
  have hordering : ∃ ordering, a.compareConcrete b = some ordering := by
    rw [evaluate_binary hleft hright] at hordered
    obtain ⟨value, hvalue⟩ := hordered
    cases hcompare : a.compareConcrete b with
    | none => simp [evaluateBinary, ordered, hcompare] at hvalue
    | some ordering => exact ⟨ordering, rfl⟩
  obtain ⟨ordering, hcompare⟩ := hordering
  have hoperator {operator : BinaryOperator} {predicate : Ordering → Bool}
      (hsame : evaluateBinary a operator (.ok b) = ordered a b predicate) :
      Holds document left operator right ↔ predicate ordering = true := by
    rw [holds_ordered hleft hright hsame, hcompare]
    simp
  have hless : Holds document left .less right ↔ ordering = .lt :=
    (hoperator rfl).trans Ordering.isLT_iff_eq_lt
  have hgreater : Holds document left .greater right ↔ ordering = .gt :=
    (hoperator rfl).trans Ordering.isGT_iff_eq_gt
  have hlessEqual : Holds document left .lessEqual right ↔ ordering ≠ .gt :=
    (hoperator rfl).trans Ordering.isLE_iff_ne_gt
  have hgreaterEqual : Holds document left .greaterEqual right ↔ ordering ≠ .lt :=
    (hoperator rfl).trans Ordering.isGE_iff_ne_lt
  have hequal := holds_equal hleft hright
  rw [← eq_iff_not_drift hcompare, ← hequal]
  constructor
  · intro h
    have htrichotomy := h.trichotomy
    rw [hless, hgreater] at htrichotomy
    cases ordering <;> simp_all
  · intro heq
    refine ⟨?_, ?_, ?_, ?_, fun third => less_trans⟩
    · rw [hless, hgreater, heq]
      cases ordering <;> decide
    · rw [hlessEqual, hless, heq]
      cases ordering <;> decide
    · rw [hgreaterEqual, hgreater, heq]
      cases ordering <;> decide
    · rw [holds_notEqual hleft hright, hequal]

/-- One is less than two, and all laws hold of them. -/
theorem coherent_one_two :
    Coherent (.new (.filled 0)) (.literal (.integer 1) ⟨0, 1⟩) (.literal (.integer 2) ⟨4, 5⟩) :=
  (coherent_iff_not_drift rfl rfl ⟨0, 5⟩ ⟨.boolean true, rfl⟩).mpr nofun

/-- Zero with a sign. -/
def negativeZero : Expression := .unary .negate (.literal (.float ⟨0⟩) ⟨7, 10⟩) ⟨6, 10⟩

theorem evaluate_negativeZero (document : Document) :
    evaluate document negativeZero = .ok (.float64 ⟨0x8000000000000000⟩) := by
  have hneg : F64.neg ⟨0⟩ = ⟨0x8000000000000000⟩ := by decide
  have hfinite : F64.isFinite ⟨0x8000000000000000⟩ = true := by decide
  simp [negativeZero, evaluate, evaluateLiteral, evaluateUnary, finiteFloat, hneg, hfinite]

/-- The literals `0.0` and `-0.0` are equal, and the one is greater than the other. -/
theorem not_coherent_zeros :
    ¬ ∀ document left right a b span, evaluate document left = .ok a →
      evaluate document right = .ok b →
      (∃ value, evaluate document (.binary left .less right span) = .ok value) →
      Coherent document left right := by
  intro h
  have hzero (document : Document) : evaluate document (.literal (.float ⟨0⟩) ⟨0, 3⟩) =
      .ok (.float64 ⟨0⟩) := rfl
  have hnegative := evaluate_negativeZero (.new (.filled 0))
  have hgreater : Holds (.new (.filled 0)) (.literal (.float ⟨0⟩) ⟨0, 3⟩) .greater negativeZero :=
    (holds_ordered (hzero _) hnegative rfl).mpr ⟨.gt, by decide, rfl⟩
  have hequal : Holds (.new (.filled 0)) (.literal (.float ⟨0⟩) ⟨0, 3⟩) .equal negativeZero :=
    (holds_equal (hzero _) hnegative).mpr (by decide)
  have hzeros := h _ _ _ _ _ ⟨0, 10⟩ (hzero _) hnegative
    ⟨.boolean false, by rw [evaluate_binary (hzero _) hnegative]; rfl⟩
  rcases hzeros.trichotomy with ⟨-, hne, -⟩ | ⟨-, -, hnot⟩ | ⟨-, hne, -⟩
  · exact hne hequal
  · exact hnot hgreater
  · exact hne hequal

end Laws

end NovaBase.Executor
