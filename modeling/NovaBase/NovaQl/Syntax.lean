import NovaBase.Core.Float
import NovaBase.Core.Error

/-!
# Tokens and syntax trees

The tokens of the query language and the trees that the parser makes of them.
Every token and every tree carries the range of the source that it stands for.
-/

namespace NovaBase.NovaQl

/-- How the front end fails to end in a value: it reports an error, it panics, or it calls itself
more often than the stack has room for. -/
inductive Fault (ε : Type)
  | error (cause : ε)
  | panic
  | overflow
  deriving DecidableEq

/-- The fault with another error. -/
def Fault.map {ε ε' : Type} (f : ε → ε') : Fault ε → Fault ε'
  | .error cause => .error (f cause)
  | .panic => .panic
  | .overflow => .overflow

/-- A range of bytes of the source. -/
structure Span where
  start : Nat
  stop : Nat
  deriving DecidableEq

/-- The smallest range that contains both. -/
def Span.join (a b : Span) : Span := ⟨min a.start b.start, max a.stop b.stop⟩

/-- Reserved words. -/
inductive Keyword
  | get
  | insert
  | update
  | set
  | delete
  | project
  | sort
  | asc
  | desc
  | limit
  | skip
  | create
  | drop
  | collection
  | index
  | on
  | explain
  | and
  | or
  | not
  | contains
  | true
  | false
  | null
  deriving DecidableEq

/-- The kinds of tokens, with what they carry. -/
inductive TokenKind
  | identifier (name : String)
  | keyword (keyword : Keyword)
  | string (value : String)
  | integer (value : Int64)
  | float (value : F64)
  | leftBrace
  | rightBrace
  | leftBracket
  | rightBracket
  | leftParen
  | rightParen
  | comma
  | colon
  | dot
  | semicolon
  | pipe
  | equal
  | equalEqual
  | bang
  | bangEqual
  | less
  | lessEqual
  | greater
  | greaterEqual
  | plus
  | minus
  | star
  | slash
  | percent
  | eof
  deriving DecidableEq

/-- A token and its range. -/
structure Token where
  kind : TokenKind
  span : Span
  deriving DecidableEq

/-- The values that a query can spell out. -/
inductive Literal
  | null
  | boolean (value : Bool)
  | integer (value : Int64)
  | float (value : F64)
  | string (value : String)
  deriving DecidableEq

/-- Prefix operators. -/
inductive UnaryOperator
  | not
  | negate
  | positive
  deriving DecidableEq

/-- Infix operators, in increasing groups of precedence. -/
inductive BinaryOperator
  | or
  | and
  | equal
  | notEqual
  | less
  | lessEqual
  | greater
  | greaterEqual
  | contains
  | add
  | subtract
  | multiply
  | divide
  | remainder
  deriving DecidableEq

/-- A dotted field path. -/
structure Path where
  segments : List String
  span : Span
  deriving DecidableEq

/-- One field of an object literal. -/
structure ObjectFieldOf (ε : Type) where
  name : String
  value : ε
  span : Span

/-- A syntax tree. Objects hold their fields in the order of the source. -/
inductive Expression
  | literal (value : Literal) (span : Span)
  | path (path : Path) (span : Span)
  | array (values : List Expression) (span : Span)
  | object (fields : List (ObjectFieldOf Expression)) (span : Span)
  | unary (operator : UnaryOperator) (operand : Expression) (span : Span)
  | binary (left : Expression) (operator : BinaryOperator) (right : Expression) (span : Span)

abbrev ObjectField := ObjectFieldOf Expression

inductive SortDirection
  | ascending
  | descending
  deriving DecidableEq

structure SortKey where
  path : Path
  direction : SortDirection
  deriving DecidableEq

structure Assignment where
  path : Path
  value : Expression

/-- One pipeline transformation. -/
inductive Stage
  | filter (predicate : Expression)
  | project (paths : List Path)
  | sort (keys : List SortKey)
  | limit (count : UInt64)
  | skip (count : UInt64)
  | set (assignments : List Assignment)

/-- What a query does, before its stages. -/
inductive Command
  | get (collection : String)
  | insert (collection : String) (document : Expression)
  | update (collection : String)
  | delete (collection : String)
  | createCollection (name : String)
  | dropCollection (name : String)
  | createIndex (name collection : String) (fields : List Path)
  | dropIndex (name : String)

/-- A complete parsed query. -/
structure Query where
  explain : Bool
  command : Command
  stages : List Stage
  span : Span

namespace Expression

def span : Expression → Span
  | .literal _ span => span
  | .path _ span => span
  | .array _ span => span
  | .object _ span => span
  | .unary _ _ span => span
  | .binary _ _ _ span => span

/-- The same tree for another range, as an expression in parentheses has it. -/
def withSpan (span : Span) : Expression → Expression
  | .literal value _ => .literal value span
  | .path names _ => .path names span
  | .array values _ => .array values span
  | .object fields _ => .object fields span
  | .unary operator operand _ => .unary operator operand span
  | .binary left operator right _ => .binary left operator right span

def isObject : Expression → Bool
  | .object _ _ => true
  | _ => false

/-- Induction over nested expressions: an expression may assume the property of its parts. -/
@[elab_as_elim]
theorem nested_induction {motive : Expression → Prop}
    (literal : ∀ value span, motive (.literal value span))
    (path : ∀ path span, motive (.path path span))
    (array : ∀ values span, (∀ value ∈ values, motive value) → motive (.array values span))
    (object : ∀ fields span, (∀ field ∈ fields, motive field.value) → motive (.object fields span))
    (unary : ∀ operator operand span, motive operand → motive (.unary operator operand span))
    (binary : ∀ left operator right span, motive left → motive right →
      motive (.binary left operator right span))
    (expression : Expression) : motive expression := by
  refine @Expression.rec motive (fun values => ∀ value ∈ values, motive value)
    (fun fields => ∀ field ∈ fields, motive field.value) (fun field => motive field.value)
    literal path array object unary binary ?_ ?_ ?_ ?_ ?_ expression
  · simp
  · intro head tail hhead htail
    exact List.forall_mem_cons.mpr ⟨hhead, htail⟩
  · simp
  · intro head tail hhead htail
    exact List.forall_mem_cons.mpr ⟨hhead, htail⟩
  · intro name value span hvalue
    exact hvalue

end Expression

namespace Stage

def isSet : Stage → Bool
  | .set _ => true
  | _ => false

def isFilter : Stage → Bool
  | .filter _ => true
  | _ => false

end Stage

namespace Command

/-- The commands that stages can follow. -/
def acceptsPipeline : Command → Bool
  | .get _ => true
  | .update _ => true
  | .delete _ => true
  | _ => false

def isUpdate : Command → Bool
  | .update _ => true
  | _ => false

end Command

end NovaBase.NovaQl
