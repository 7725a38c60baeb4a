import NovaBase.Lib.Parsing
import NovaBase.NovaQl.Syntax

/-!
# The documented grammar

A query is written as tokens after the documented grammar: an operand is put in
parentheses only where the table of precedences or the association to the left
asks for it. Where the grammar leaves a choice, a `Spelling` makes it. Ranges do
not show in the tokens, so queries are compared after their ranges are erased.
-/

namespace NovaBase.NovaQl

open Lib

/-- The choices that the grammar leaves to who writes a query. -/
structure Spelling where
  /-- Equality is written `=` and not `==`. -/
  singleEqual : Bool
  /-- Negation is written `!` and not `not`. -/
  bang : Bool
  /-- The keys of objects are written as strings. -/
  quotedKeys : Bool
  /-- Arrays and objects that are not empty end with a comma. -/
  trailingComma : Bool
  /-- An ascending sort key says so. -/
  explicitAscending : Bool
  /-- The query ends with a semicolon. -/
  semicolon : Bool

namespace BinaryOperator

/-- The groups of the documented table, from the lowest precedence on. -/
def precedence : BinaryOperator → Nat
  | .or => 1
  | .and => 2
  | .equal | .notEqual | .less | .lessEqual | .greater | .greaterEqual | .contains => 3
  | .add | .subtract => 4
  | .multiply | .divide | .remainder => 5

/-- How an infix operator is written. -/
def token (spelling : Spelling) : BinaryOperator → TokenKind
  | .or => .keyword .or
  | .and => .keyword .and
  | .equal => if spelling.singleEqual then .equal else .equalEqual
  | .notEqual => .bangEqual
  | .less => .less
  | .lessEqual => .lessEqual
  | .greater => .greater
  | .greaterEqual => .greaterEqual
  | .contains => .keyword .contains
  | .add => .plus
  | .subtract => .minus
  | .multiply => .star
  | .divide => .slash
  | .remainder => .percent

end BinaryOperator

namespace UnaryOperator

/-- Prefix operators bind more tightly than all infix operators. -/
def precedence : Nat := 6

/-- How a prefix operator is written. -/
def token (spelling : Spelling) : UnaryOperator → TokenKind
  | .not => if spelling.bang then .bang else .keyword .not
  | .negate => .minus
  | .positive => .plus

end UnaryOperator

def Literal.token : Literal → TokenKind
  | .null => .keyword .null
  | .boolean true => .keyword .true
  | .boolean false => .keyword .false
  | .integer value => .integer value
  | .float value => .float value
  | .string value => .string value

/-- The segments of a path behind its first one. -/
def renderSegments (segments : List String) : List TokenKind :=
  segments.flatMap fun segment => [.dot, .identifier segment]

def Path.render (path : Path) : List TokenKind :=
  match path.segments with
  | [] => []
  | first :: rest => .identifier first :: renderSegments rest

/-- Parentheses, where they are needed. -/
def parenthesize (needed : Bool) (kinds : List TokenKind) : List TokenKind :=
  if needed then .leftParen :: (kinds ++ [.rightParen]) else kinds

/-- How the key of a field is written. -/
def keyToken (spelling : Spelling) (name : String) : TokenKind :=
  if spelling.quotedKeys then .string name else .identifier name

/-- The comma behind an item of an array or object, which may be the last one. -/
def comma (spelling : Spelling) (last : Bool) : List TokenKind :=
  if last = false ∨ spelling.trailingComma = true then [.comma] else []

namespace Expression

/-- How tightly the outermost operator of an expression binds. -/
def level : Expression → Nat
  | .binary _ operator _ _ => operator.precedence
  | .unary _ _ _ => UnaryOperator.precedence
  | _ => UnaryOperator.precedence + 1

end Expression

section Trees

variable (spelling : Spelling)

mutual

/-- An expression without parentheses around it. -/
def renderExpression : Expression → List TokenKind
  | .literal value _ => [value.token]
  | .path names _ => names.render
  | .array values _ => .leftBracket :: (renderValues values ++ [.rightBracket])
  | .object fields _ => .leftBrace :: (renderFields fields ++ [.rightBrace])
  | .unary operator operand _ => operator.token spelling ::
      parenthesize (operand.level < UnaryOperator.precedence) (renderExpression operand)
  | .binary left operator right _ =>
      parenthesize (left.level < operator.precedence) (renderExpression left) ++
        operator.token spelling ::
          parenthesize (right.level < operator.precedence + 1) (renderExpression right)

def renderValues : List Expression → List TokenKind
  | [] => []
  | value :: rest => renderExpression value ++ (comma spelling rest.isEmpty ++ renderValues rest)

def renderField : ObjectFieldOf Expression → List TokenKind
  | ⟨name, value, _⟩ => keyToken spelling name :: .colon :: renderExpression value

def renderFields : List (ObjectFieldOf Expression) → List TokenKind
  | [] => []
  | field :: rest => renderField field ++ (comma spelling rest.isEmpty ++ renderFields rest)

end

end Trees

def Assignment.render (spelling : Spelling) (assignment : Assignment) : List TokenKind :=
  assignment.path.render ++ .equal :: renderExpression spelling assignment.value

/-- A path with its direction, which may be left out where it is ascending. -/
def SortKey.render (spelling : Spelling) (key : SortKey) : List TokenKind :=
  key.path.render ++ match key.direction with
    | .descending => [.keyword .desc]
    | .ascending => if spelling.explicitAscending then [.keyword .asc] else []

/-- A stage behind its pipe. -/
def Stage.render (spelling : Spelling) : Stage → List TokenKind
  | .filter predicate => renderExpression spelling predicate
  | .project paths => .keyword .project :: separated .comma false (paths.map Path.render)
  | .sort keys => .keyword .sort :: separated .comma false (keys.map (SortKey.render spelling))
  | .limit count => [.keyword .limit, .integer count.toInt64]
  | .skip count => [.keyword .skip, .integer count.toInt64]
  | .set assignments =>
      .keyword .set :: separated .comma false (assignments.map (Assignment.render spelling))

/-- The predicate of a command in its braces. -/
def renderFilter (spelling : Spelling) (predicate : Option Expression) : List TokenKind :=
  .leftBrace :: ((predicate.map (renderExpression spelling)).getD [] ++ [.rightBrace])

/-- A command with its filter, if it takes one. -/
def Command.render (spelling : Spelling) (predicate : Option Expression) :
    Command → List TokenKind
  | .get collection => [.identifier collection, .dot, .keyword .get] ++
    renderFilter spelling predicate
  | .insert collection document =>
      [.identifier collection, .dot, .keyword .insert] ++ renderExpression spelling document
  | .update collection =>
      [.identifier collection, .dot, .keyword .update] ++ renderFilter spelling predicate
  | .delete collection =>
      [.identifier collection, .dot, .keyword .delete] ++ renderFilter spelling predicate
  | .createCollection name => [.keyword .create, .keyword .collection, .identifier name]
  | .dropCollection name => [.keyword .drop, .keyword .collection, .identifier name]
  | .createIndex name collection fields =>
      [.keyword .create, .keyword .index, .identifier name, .keyword .on, .identifier collection,
        .leftParen] ++ (separated .comma false (fields.map Path.render) ++ [.rightParen])
  | .dropIndex name => [.keyword .drop, .keyword .index, .identifier name]

namespace Query

/-- The predicate that the command of a query takes in its braces. -/
def predicate (query : Query) : Option Expression :=
  match query.stages with
  | .filter predicate :: _ => some predicate
  | _ => none

/-- The stages behind pipes. -/
def pipeline (query : Query) : List Stage :=
  match query.stages with
  | .filter _ :: rest => rest
  | stages => stages

/-- A query as it is written. -/
def render (spelling : Spelling) (query : Query) : List TokenKind :=
  (if query.explain then [.keyword .explain] else []) ++
    (query.command.render spelling query.predicate ++
      (query.pipeline.flatMap (fun stage => .pipe :: stage.render spelling) ++
        if spelling.semicolon then [.semicolon] else []))

end Query

section WellFormed

def Path.WellFormed (path : Path) : Prop := path.segments ≠ []

/-- The trees that stand for something: paths name a field and objects name each field once. -/
inductive Expression.WellFormed : Expression → Prop
  | literal (value : Literal) (span : Span) : WellFormed (.literal value span)
  | path {names : Path} (span : Span) (h : names.WellFormed) : WellFormed (.path names span)
  | array {values : List Expression} (span : Span) (h : ∀ value ∈ values, WellFormed value) :
      WellFormed (.array values span)
  | object {fields : List ObjectField} (span : Span)
      (distinct : (fields.map ObjectFieldOf.name).Nodup)
      (h : ∀ field ∈ fields, WellFormed field.value) : WellFormed (.object fields span)
  | unary (operator : UnaryOperator) {operand : Expression} (span : Span)
      (h : WellFormed operand) : WellFormed (.unary operator operand span)
  | binary {left right : Expression} (operator : BinaryOperator) (span : Span)
      (hleft : WellFormed left) (hright : WellFormed right) :
      WellFormed (.binary left operator right span)

/-- The numbers that a limit or skip may be: what an integer token holds. -/
def countBound : Nat := 2 ^ 63

/-- Lists are not empty, and a count is one that the language can write. -/
def Stage.WellFormed : Stage → Prop
  | .filter predicate => predicate.WellFormed
  | .project paths => paths ≠ [] ∧ ∀ path ∈ paths, path.WellFormed
  | .sort keys => keys ≠ [] ∧ ∀ key ∈ keys, key.path.WellFormed
  | .limit count => count.toNat < countBound
  | .skip count => count.toNat < countBound
  | .set assignments => assignments ≠ [] ∧
      ∀ assignment ∈ assignments, assignment.path.WellFormed ∧ assignment.value.WellFormed

/-- A document is an object, and an index has at least one field. -/
def Command.WellFormed : Command → Prop
  | .insert _ document => document.isObject = true ∧ document.WellFormed
  | .createIndex _ _ fields => fields ≠ [] ∧ ∀ path ∈ fields, path.WellFormed
  | _ => True

/-- The documented restrictions on commands and stages. -/
structure Query.WellFormed (query : Query) : Prop where
  command : query.command.WellFormed
  stages : ∀ stage ∈ query.stages, stage.WellFormed
  /-- Only the first stage may be a filter. -/
  filter : ∀ stage ∈ query.stages.tail, stage.isFilter = false
  /-- The other commands take no stages. -/
  pipeline : query.stages ≠ [] → query.command.acceptsPipeline = true
  /-- Updates set something, and nothing else does. -/
  set : query.stages.any Stage.isSet = query.command.isUpdate

end WellFormed

section Erase

def Span.none : Span := ⟨0, 0⟩

def Path.erase (path : Path) : Path := ⟨path.segments, .none⟩

mutual

/-- An expression without its ranges. -/
def eraseExpression : Expression → Expression
  | .literal value _ => .literal value .none
  | .path names _ => .path names.erase .none
  | .array values _ => .array (eraseValues values) .none
  | .object fields _ => .object (eraseFields fields) .none
  | .unary operator operand _ => .unary operator (eraseExpression operand) .none
  | .binary left operator right _ =>
      .binary (eraseExpression left) operator (eraseExpression right) .none

def eraseValues : List Expression → List Expression
  | [] => []
  | value :: rest => eraseExpression value :: eraseValues rest

def eraseField : ObjectFieldOf Expression → ObjectFieldOf Expression
  | ⟨name, value, _⟩ => ⟨name, eraseExpression value, .none⟩

def eraseFields : List (ObjectFieldOf Expression) → List (ObjectFieldOf Expression)
  | [] => []
  | field :: rest => eraseField field :: eraseFields rest

end

def SortKey.erase (key : SortKey) : SortKey := ⟨key.path.erase, key.direction⟩

def Assignment.erase (assignment : Assignment) : Assignment :=
  ⟨assignment.path.erase, eraseExpression assignment.value⟩

def Stage.erase : Stage → Stage
  | .filter predicate => .filter (eraseExpression predicate)
  | .project paths => .project (paths.map Path.erase)
  | .sort keys => .sort (keys.map SortKey.erase)
  | .limit count => .limit count
  | .skip count => .skip count
  | .set assignments => .set (assignments.map Assignment.erase)

def Command.erase : Command → Command
  | .insert collection document => .insert collection (eraseExpression document)
  | .createIndex name collection fields => .createIndex name collection (fields.map Path.erase)
  | command => command

/-- A query without its ranges. -/
def Query.erase (query : Query) : Query :=
  ⟨query.explain, query.command.erase, query.stages.map Stage.erase, .none⟩

end Erase

end NovaBase.NovaQl
