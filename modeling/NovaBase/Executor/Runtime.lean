import NovaBase.Core.Path
import NovaBase.NovaQl.Syntax

/-!
# Runtime values

What an expression evaluates to on a document. A path that leads nowhere gives a
value of its own. Nothing is converted: an operator takes operands of the types
that it is for and fails on all others.
-/

namespace NovaBase.Executor

open Lib NovaQl

/-- A value that an expression has at run time; the fields of an object are in key order. -/
inductive RuntimeValue
  | missing
  | null
  | boolean (value : Bool)
  | int64 (value : Int64)
  | float64 (value : F64)
  | string (value : String)
  | array (values : List RuntimeValue)
  | object (fields : List (String × RuntimeValue))
  | timestamp (value : NovaTimestamp)
  | novaId (value : NovaId)

/-- An error of the evaluation of a query. -/
def invalid (message : Message) : NovaError :=
  .invalidArgument (.text "query execution: " :: message)

namespace RuntimeValue

/-- The name of the type of a value in messages. -/
def typeName : RuntimeValue → String
  | .missing => "missing"
  | .null => "null"
  | .boolean _ => "boolean"
  | .int64 _ => "int64"
  | .float64 _ => "float64"
  | .string _ => "string"
  | .array _ => "array"
  | .object _ => "document"
  | .timestamp _ => "timestamp"
  | .novaId _ => "nova_id"

mutual

/-- The operator `==` on values, where floats are compared as floats are. -/
def eq : RuntimeValue → RuntimeValue → Bool
  | .missing, .missing => true
  | .null, .null => true
  | .boolean left, .boolean right => left == right
  | .int64 left, .int64 right => left == right
  | .float64 left, .float64 right => left.ieeeEq right
  | .string left, .string right => left == right
  | .array left, .array right => eqValues left right
  | .object left, .object right => eqFields left right
  | .timestamp left, .timestamp right => left == right
  | .novaId left, .novaId right => left == right
  | _, _ => false

/-- Arrays are equal element by element. -/
def eqValues : List RuntimeValue → List RuntimeValue → Bool
  | [], [] => true
  | left :: lefts, right :: rights => eq left right && eqValues lefts rights
  | _, _ => false

/-- Objects are equal field by field, in the order of their fields. -/
def eqFields : List (String × RuntimeValue) → List (String × RuntimeValue) → Bool
  | [], [] => true
  | (name, left) :: lefts, (other, right) :: rights =>
      name == other && eq left right && eqFields lefts rights
  | _, _ => false

end

mutual

/-- The value of what is stored. -/
def ofNova : NovaValue → RuntimeValue
  | .null => .null
  | .boolean value => .boolean value
  | .int64 value => .int64 value
  | .float64 value => .float64 value
  | .string value => .string value
  | .array values => .array (ofNovaValues values)
  | .document document => .object (ofNovaDocument document)
  | .timestamp value => .timestamp value
  | .novaId value => .novaId value

/-- The elements of a stored array. -/
def ofNovaValues : List NovaValue → List RuntimeValue
  | [] => []
  | value :: rest => ofNova value :: ofNovaValues rest

/-- A stored document as an object. Its identifier is not among the fields. -/
def ofNovaDocument : DocumentOf NovaValue → List (String × RuntimeValue)
  | ⟨_, fields⟩ => ofNovaFields fields

/-- The fields of a stored document. -/
def ofNovaFields : List (String × NovaValue) → List (String × RuntimeValue)
  | [] => []
  | (name, value) :: rest => (name, ofNova value) :: ofNovaFields rest

end

/-- The order of two values of one kind that has an order. -/
def compareConcrete : RuntimeValue → RuntimeValue → Option Ordering
  | .int64 left, .int64 right => some (compare left.toInt right.toInt)
  | .float64 left, .float64 right => some (compare left.totalKey right.totalKey)
  | .string left, .string right => some (compare left right)
  | .timestamp left, .timestamp right => some (compare left.millis.toInt right.millis.toInt)
  | .novaId left, .novaId right => some (compare left right)
  | _, _ => none

/-- The order of two values of a sort key: missing before null before everything else. -/
def compareForSort : RuntimeValue → RuntimeValue → Result Ordering
  | .missing, .missing => .ok .eq
  | .null, .null => .ok .eq
  | .missing, _ => .ok .lt
  | _, .missing => .ok .gt
  | .null, _ => .ok .lt
  | _, .null => .ok .gt
  | .boolean left, .boolean right => .ok (compare left right)
  | .array _, .array _ => .error (invalid "arrays and documents are not sortable")
  | .object _, .object _ => .error (invalid "arrays and documents are not sortable")
  | left, right =>
      match compareConcrete left right with
      | some ordering => .ok ordering
      | none => .error (invalid s!"cannot sort unlike types {left.typeName} and {right.typeName}")

/-- The value is there, and it is not null. -/
def isConcrete : RuntimeValue → Bool
  | .missing => false
  | .null => false
  | _ => true

end RuntimeValue

section Arithmetic

/-- An integer, if it fits. -/
def checked (value : Int) : Option Int64 :=
  if Int64.minValue.toInt ≤ value ∧ value ≤ Int64.maxValue.toInt then some (Int64.ofInt value)
  else none

/-- The negation, if it fits. -/
def checkedNeg (value : Int64) : Option Int64 := checked (-value.toInt)

/-- The quotient, rounded towards zero, if there is one and it fits. -/
def checkedDiv (left right : Int64) : Option Int64 :=
  if right = 0 then none else checked (left.toInt.tdiv right.toInt)

/-- The remainder, which is not taken where the quotient would overflow. -/
def checkedRem (left right : Int64) : Option Int64 :=
  if right = 0 ∨ (left = Int64.minValue ∧ right = -1) then none
  else checked (left.toInt.tmod right.toInt)

/-- Arithmetic on integers gives nothing where it overflows. -/
def integerArithmetic (operator : BinaryOperator) (left right : Int64) : Option Int64 :=
  match operator with
  | .add => checked (left.toInt + right.toInt)
  | .subtract => checked (left.toInt - right.toInt)
  | .multiply => checked (left.toInt * right.toInt)
  | .divide => checkedDiv left right
  | .remainder => checkedRem left right
  | _ => none

/-- Arithmetic on floats, which may leave the finite ones. -/
def floatArithmetic (operator : BinaryOperator) (left right : F64) : F64 :=
  match operator with
  | .add => left.add right
  | .subtract => left.sub right
  | .multiply => left.mul right
  | .divide => left.div right
  | .remainder => left.rem right
  | _ => F64.nan

/-- Only finite floats are results. -/
def finiteFloat (value : F64) : Result RuntimeValue :=
  if value.isFinite then .ok (.float64 value)
  else .error (invalid "non-finite arithmetic result")

/-- Arithmetic on two numbers of one type. Nothing is converted. -/
def arithmetic (left : RuntimeValue) (operator : BinaryOperator) (right : RuntimeValue) :
    Result RuntimeValue :=
  match left, right with
  | .int64 left, .int64 right =>
      match integerArithmetic operator left right with
      | some value => .ok (.int64 value)
      | none => .error (invalid "integer arithmetic overflow or division by zero")
  | .float64 left, .float64 right =>
      if (operator = .divide ∨ operator = .remainder) ∧ right.isZero = true then
        .error (invalid "floating-point division by zero")
      else finiteFloat (floatArithmetic operator left right)
  | left, right => .error (invalid (s!"arithmetic requires matching numeric types, got " ++
      s!"{left.typeName} and {right.typeName}"))

end Arithmetic

section Evaluation

/-- The value of a path, where `_id` is the identifier of the document. -/
def readPath (document : Document) (path : Path) : RuntimeValue :=
  if path.segments = ["_id"] then .novaId document.id
  else ((Document.lookupParts document path.segments).map RuntimeValue.ofNova).getD .missing

/-- The value of a literal. -/
def evaluateLiteral : Literal → RuntimeValue
  | .null => .null
  | .boolean value => .boolean value
  | .integer value => .int64 value
  | .float value => .float64 value
  | .string value => .string value

/-- The name of an operator in messages. -/
def UnaryOperator.debug : UnaryOperator → String
  | .not => "Not"
  | .negate => "Negate"
  | .positive => "Positive"

/-- Negation of a boolean or of a number. -/
def evaluateUnary (operator : UnaryOperator) (operand : RuntimeValue) : Result RuntimeValue :=
  match operator, operand with
  | .not, .boolean value => .ok (.boolean !value)
  | .negate, .int64 value =>
      match checkedNeg value with
      | some value => .ok (.int64 value)
      | none => .error (invalid "integer negation overflow")
  | .negate, .float64 value => finiteFloat value.neg
  | .positive, .int64 value => .ok (.int64 value)
  | .positive, .float64 value => .ok (.float64 value)
  | operator, value => .error (invalid
      s!"operator {UnaryOperator.debug operator} does not accept {value.typeName}")

/-- Compare two values that have an order. -/
def ordered (left right : RuntimeValue) (predicate : Ordering → Bool) : Result RuntimeValue :=
  match left.compareConcrete right with
  | some ordering => .ok (.boolean (predicate ordering))
  | none => .error (invalid s!"cannot order {left.typeName} and {right.typeName}")

/-- An array contains an equal element, and a string contains a part. -/
def contains (left right : RuntimeValue) : Result RuntimeValue :=
  match left with
  | .array values => .ok (.boolean (values.any fun value => value.eq right))
  | value => .error (invalid
      s!"left operand of `contains` must be an array, got {value.typeName}")

/-- A value that must be a boolean. -/
def booleanOperand (value : RuntimeValue) (label : String) : Result RuntimeValue :=
  match value with
  | .boolean value => .ok (.boolean value)
  | _ => .error (invalid s!"{label} must be boolean")

/-- An infix operation. The right operand of `and` and `or` counts only where it is needed. -/
def evaluateBinary (left : RuntimeValue) (operator : BinaryOperator)
    (right : Result RuntimeValue) : Result RuntimeValue :=
  match operator, left with
  | .and, .boolean false => .ok (.boolean false)
  | .and, .boolean true => do booleanOperand (← right) "right operand of `and`"
  | .and, _ => .error (invalid "left operand of `and` must be boolean")
  | .or, .boolean true => .ok (.boolean true)
  | .or, .boolean false => do booleanOperand (← right) "right operand of `or`"
  | .or, _ => .error (invalid "left operand of `or` must be boolean")
  | .equal, left => do return .boolean (left.eq (← right))
  | .notEqual, left => do return .boolean !(left.eq (← right))
  | .less, left => do ordered left (← right) Ordering.isLT
  | .lessEqual, left => do ordered left (← right) Ordering.isLE
  | .greater, left => do ordered left (← right) Ordering.isGT
  | .greaterEqual, left => do ordered left (← right) Ordering.isGE
  | .contains, left => do contains left (← right)
  | operator, left => do arithmetic left operator (← right)

mutual

/-- The value of an expression in a document. The right side of `and` and `or` is evaluated only if
the left one does not decide. -/
def evaluate (document : Document) : Expression → Result RuntimeValue
  | .literal value _ => .ok (evaluateLiteral value)
  | .path path _ => .ok (readPath document path)
  | .array values _ => do return .array (← evaluateValues document values)
  | .object fields _ => do return .object (← evaluateFields document [] fields)
  | .unary operator operand _ => do evaluateUnary operator (← evaluate document operand)
  | .binary left operator right _ => do
      evaluateBinary (← evaluate document left) operator (evaluate document right)

/-- The values of a list of expressions, up to the first that fails. -/
def evaluateValues (document : Document) : List Expression → Result (List RuntimeValue)
  | [] => return []
  | value :: rest => do
      let first ← evaluate document value
      let others ← evaluateValues document rest
      return first :: others

/-- The fields of an object, added to those before them. -/
def evaluateFields (document : Document) (before : Entries String RuntimeValue) :
    List (ObjectFieldOf Expression) → Result (Entries String RuntimeValue)
  | [] => return before
  | ⟨name, value, _⟩ :: rest => do
      let value ← evaluate document value
      evaluateFields document (before.insert name value) rest

end

/-- The value of a predicate, which must be a boolean. -/
def evaluatePredicate (expression : Expression) (document : Document) : Result Bool := do
  match ← evaluate document expression with
  | .boolean value => return value
  | other => .error (invalid s!"document predicate must be boolean, got {other.typeName}")

end Evaluation

end NovaBase.Executor
