import NovaBase.NovaQl.Lexer

/-!
# The parser

Recursive descent over the tokens, with precedence climbing for the infix
operators. The state is the tokens from the parser's position on, the end token
included; the source indexes them, so a parser that looks behind the end token
panics. The functions that call one another take a frame of the stack for each
call, and overflow where there is none. A loop takes a token in every round, so
it is given as many rounds as there are tokens.
-/

namespace NovaBase.NovaQl

open Lib

/-- A syntax error with its source range. -/
structure ParseError where
  message : Message
  span : Span
  deriving DecidableEq

/-- The state is the list of tokens that are left. -/
abbrev Parser (α : Type) := Action (Fault ParseError) (List Token) α

section Tokens

variable {α : Type}

def panic : Parser α := Action.ofExcept (.error .panic)

/-- The calls nest deeper than the stack allows. -/
def overflow : Parser α := Action.ofExcept (.error .overflow)

def current : Parser Token := Action.reads fun tokens =>
  match tokens with
  | [] => .error .panic
  | token :: _ => .ok token

/-- As many rounds as there are tokens. -/
def rounds : Parser Nat := Action.reads fun tokens => .ok tokens.length

/-- Move on by one token, whatever it is. -/
def step : Parser Unit := Action.modify List.tail

/-- Fail at a span of the source. -/
def errorAt (message : Message) (span : Span) : Parser α :=
  Action.ofExcept (.error (.error ⟨message, span⟩))

/-- Fail at the current token. -/
def error (message : Message) : Parser α := do
  let token ← current
  errorAt message token.span

/-- The current token. The parser moves on unless it is the end token. -/
def advance : Parser Token := do
  let token ← current
  if token.kind = .eof then return token
  else do
    step
    return token

def atSimple (kind : TokenKind) : Parser Bool := do
  let token ← current
  return decide (token.kind = kind)

/-- Whether the current token is of that kind; if so, the parser moves on. -/
def consumeSimple (kind : TokenKind) : Parser Bool := do
  if ← atSimple kind then do
    step
    return true
  else return false

/-- Whether the current token is that keyword; if so, the parser moves on. -/
def consumeKeyword (keyword : Keyword) : Parser Bool := consumeSimple (.keyword keyword)

/-- Take a token of that kind, or fail. -/
def expectSimple (kind : TokenKind) (expected : String) : Parser Token := do
  if ← atSimple kind then advance else error s!"expected {expected}"

/-- Its callers drop the token that the source reads back at the position before, which is the
keyword that was just taken. -/
def expectKeyword (keyword : Keyword) (expected : String) : Parser Unit := do
  if ← consumeKeyword keyword then return () else error s!"expected {expected}"

/-- Take an identifier, or fail. -/
def takeIdentifier (expected : String) : Parser Token := do
  let token ← current
  match token.kind with
  | .identifier _ => advance
  | _ => error s!"expected {expected}"

/-- The name of an identifier that was taken. -/
def identifierName (token : Token) : Parser String :=
  match token.kind with
  | .identifier name => return name
  -- `unreachable!("take_identifier returned a non-identifier")`
  | _ => panic

theorem identifierName_eq {token : Token} {name : String} (h : token.kind = .identifier name) :
    identifierName token = pure name := by
  rw [identifierName, h]

/-- Take an identifier, for its name. -/
def expectIdentifier (expected : String) : Parser String := do
  let token ← takeIdentifier expected
  identifierName token

/-- Take an integer that is not negative. Its token is gone even if it is of another kind. -/
def expectNonnegativeInteger (expected : String) : Parser UInt64 := do
  let token ← advance
  match token.kind with
  | .integer value =>
      if 0 ≤ value then return value.toUInt64
      else errorAt s!"expected non-negative {expected}" token.span
  | _ => errorAt s!"expected {expected}" token.span

end Tokens

section Paths

/-- The segments after the first one, each behind a dot. -/
def parseSegments : Nat → List String → Span → Parser (List String × Span)
  | 0, _, _ => panic
  | rounds + 1, segments, stop => do
      if ← consumeSimple .dot then
        let token ← takeIdentifier "path segment after `.`"
        let segment ← identifierName token
        parseSegments rounds (segments ++ [segment]) token.span
      else return (segments, stop)

/-- The path with this first segment. -/
def parsePathFrom (first : String) (start : Span) : Parser Path := do
  let bound ← rounds
  let (segments, stop) ← parseSegments bound [first] start
  return ⟨segments, start.join stop⟩

def parsePath : Parser Path := do
  let token ← takeIdentifier "field path"
  let first ← identifierName token
  parsePathFrom first token.span

/-- Items between commas, of which there is one or more. A comma behind the last one is taken
where `closing` recognises the end of the list. -/
def parseItems {β : Type} (item : List β → Parser β) (closing : Parser Bool) :
    Nat → List β → Parser (List β)
  | 0, _ => panic
  | rounds + 1, items => do
      let value ← item items
      if ← consumeSimple .comma then
        if ← closing then return items ++ [value]
        else parseItems item closing rounds (items ++ [value])
      else return items ++ [value]

/-- Any number of items before a closing token. -/
def parseList {β : Type} (item : List β → Parser β) (close : TokenKind) : Parser (List β) := do
  if ← atSimple close then return []
  else do
    let bound ← rounds
    parseItems item (atSimple close) bound []

def parsePathList : Parser (List Path) := do
  let bound ← rounds
  parseItems (fun _ => parsePath) (pure false) bound []

end Paths

section Expressions

/-- The operator of a token and how tightly it binds, if it is one. -/
def binaryOperator : TokenKind → Option (BinaryOperator × Nat)
  | .keyword .or => some (.or, 1)
  | .keyword .and => some (.and, 2)
  | .equal => some (.equal, 3)
  | .equalEqual => some (.equal, 3)
  | .bangEqual => some (.notEqual, 3)
  | .less => some (.less, 3)
  | .lessEqual => some (.lessEqual, 3)
  | .greater => some (.greater, 3)
  | .greaterEqual => some (.greaterEqual, 3)
  | .keyword .contains => some (.contains, 3)
  | .plus => some (.add, 4)
  | .minus => some (.subtract, 4)
  | .star => some (.multiply, 5)
  | .slash => some (.divide, 5)
  | .percent => some (.remainder, 5)
  | _ => none

/-- The prefix operator of a token, if it is one. -/
def unaryOperator : TokenKind → Option UnaryOperator
  | .keyword .not => some .not
  | .bang => some .not
  | .minus => some .negate
  | .plus => some .positive
  | _ => none

/-- The key of an object field, which may be an identifier or a string. -/
def parseKey : Parser (String × Span) := do
  let token ← advance
  match token.kind with
  | .identifier name => return (name, token.span)
  | .string name => return (name, token.span)
  | _ => errorAt "expected identifier or string object key" token.span

/-- A field of an object, whose key is none of those of the fields before it. -/
def parseField (expression : Parser Expression) (fields : List ObjectField) :
    Parser ObjectField := do
  let (name, start) ← parseKey
  if name ∈ fields.map ObjectFieldOf.name then
    errorAt [.text "duplicate object field ", .debug name] start
  else do
    let _ ← expectSimple .colon "`:` after object key"
    let value ← expression
    return ⟨name, value, start.join value.span⟩

/-- The infix operators of a minimum precedence, and their right operands. -/
def parseOperators (expression : Nat → Parser Expression) (minimum : Nat) :
    Nat → Expression → Parser Expression
  | 0, _ => panic
  | rounds + 1, left => do
      let token ← current
      match binaryOperator token.kind with
      | some (operator, precedence) =>
          if precedence < minimum then return left
          else do
            let _ ← advance
            let right ← expression (precedence + 1)
            parseOperators expression minimum rounds
              (.binary left operator right (left.span.join right.span))
      | none => return left

/-- The operand that a token begins. The parsers of what is inside brackets are given. -/
def primaryOf (expression : Parser Expression) (array object : Span → Parser Expression)
    (token : Token) : Parser Expression :=
  match token.kind with
  | .integer value => return .literal (.integer value) token.span
  | .float value => return .literal (.float value) token.span
  | .string value => return .literal (.string value) token.span
  | .keyword .true => return .literal (.boolean true) token.span
  | .keyword .false => return .literal (.boolean false) token.span
  | .keyword .null => return .literal .null token.span
  | .identifier first => do
      let path ← parsePathFrom first token.span
      return .path path path.span
  | .leftParen => do
      let inner ← expression
      let stop ← expectSimple .rightParen "`)` after expression"
      return inner.withSpan (token.span.join stop.span)
  | .leftBracket => array token.span
  | .leftBrace => object token.span
  | _ => errorAt "expected expression" token.span

mutual

/-- An expression whose infix operators have a minimum precedence. Here and below the number is
how many calls of these five functions the stack still has room for. -/
def parseExpression : Nat → Nat → Parser Expression
  | 0, _ => overflow
  | frames + 1, minimum => do
      let left ← parseUnary frames
      let bound ← rounds
      parseOperators (parseExpression frames) minimum bound left

/-- An operand behind any number of prefix operators. -/
def parseUnary : Nat → Parser Expression
  | 0 => overflow
  | frames + 1 => do
      let token ← current
      match unaryOperator token.kind with
      | some operator => do
          let start ← advance
          let operand ← parseUnary frames
          return .unary operator operand (start.span.join operand.span)
      | none => parsePrimary frames

/-- An operand behind its prefix operators. -/
def parsePrimary : Nat → Parser Expression
  | 0 => overflow
  | frames + 1 => do
      let token ← advance
      primaryOf (parseExpression frames 1) (parseArray frames) (parseObject frames) token

/-- The rest of an array, behind its opening bracket. -/
def parseArray : Nat → Span → Parser Expression
  | 0, _ => overflow
  | frames + 1, start => do
      let values ← parseList (fun _ => parseExpression frames 1) .rightBracket
      let stop ← expectSimple .rightBracket "`]` after array"
      return .array values (start.join stop.span)

/-- The rest of an object, behind its opening brace. -/
def parseObject : Nat → Span → Parser Expression
  | 0, _ => overflow
  | frames + 1, start => do
      let fields ← parseList (parseField (parseExpression frames 1)) .rightBrace
      let stop ← expectSimple .rightBrace "`\x7d` after object"
      return .object fields (start.join stop.span)

end

end Expressions

section Commands

variable (frames : Nat)

/-- The predicate in braces, which becomes a filter unless the braces are empty. -/
def parseFilterBody : Parser (List Stage) := do
  let _ ← expectSimple .leftBrace "`\x7b` before document predicate"
  if ← consumeSimple .rightBrace then return []
  else do
    let expression ← parseExpression frames 1
    let _ ← expectSimple .rightBrace "`\x7d` after document predicate"
    return [.filter expression]

/-- The document of an insertion, which must be an object. -/
def parseInsert (collection : String) : Parser Command := do
  let document ← parseExpression frames 1
  if document.isObject then return .insert collection document
  else errorAt "insert requires an object literal" document.span

/-- A command on a collection, from the word for the operation on. -/
def parseOperation (collection : String) : Parser (Command × List Stage) := do
  let token ← current
  match token.kind with
  | .keyword .get => do
      let _ ← advance
      let stages ← parseFilterBody frames
      return (.get collection, stages)
  | .keyword .insert => do
      let _ ← advance
      let command ← parseInsert frames collection
      return (command, [])
  | .keyword .update => do
      let _ ← advance
      let stages ← parseFilterBody frames
      return (.update collection, stages)
  | .keyword .delete => do
      let _ ← advance
      let stages ← parseFilterBody frames
      return (.delete collection, stages)
  | _ => error "expected `get`, `insert`, `update`, or `delete` after `.`"

/-- A command that starts with the name of its collection. -/
def parseCollectionCommand : Parser (Command × List Stage) := do
  let collection ← expectIdentifier "collection name"
  let _ ← expectSimple .dot "`.` after collection name"
  parseOperation frames collection

/-- The rest of a command that creates a collection or an index. -/
def parseCreate : Parser Command := do
  let _ ← advance
  if ← consumeKeyword .collection then
    let name ← expectIdentifier "collection name"
    return .createCollection name
  else if ← consumeKeyword .index then
    let name ← expectIdentifier "index name"
    expectKeyword .on "`on` after index name"
    let collection ← expectIdentifier "indexed collection name"
    let _ ← expectSimple .leftParen "`(` before indexed fields"
    let fields ← parsePathList
    let _ ← expectSimple .rightParen "`)` after indexed fields"
    return .createIndex name collection fields
  else error "expected `collection` or `index` after `create`"

/-- The rest of a command that drops a collection or an index. -/
def parseDrop : Parser Command := do
  let _ ← advance
  if ← consumeKeyword .collection then
    let name ← expectIdentifier "collection name"
    return .dropCollection name
  else if ← consumeKeyword .index then
    let name ← expectIdentifier "index name"
    return .dropIndex name
  else error "expected `collection` or `index` after `drop`"

/-- A command, with the filter if it has one. -/
def parseCommand : Parser (Command × List Stage) := do
  let token ← current
  match token.kind with
  | .identifier _ => parseCollectionCommand frames
  | .keyword .create => do
      let command ← parseCreate
      return (command, [])
  | .keyword .drop => do
      let command ← parseDrop
      return (command, [])
  | _ => error "expected `<collection>.<operation>`, `create`, or `drop` command"

end Commands

section Stages

variable (frames : Nat)

/-- A path with its direction, which is ascending where none is written. -/
def parseSortKey : Parser SortKey := do
  let path ← parsePath
  if ← consumeKeyword .desc then return ⟨path, .descending⟩
  else do
    let _ ← consumeKeyword .asc
    return ⟨path, .ascending⟩

def parseAssignment : Parser Assignment := do
  let path ← parsePath
  let _ ← expectSimple .equal "`=` in assignment"
  let value ← parseExpression frames 1
  return ⟨path, value⟩

/-- One stage. A list in it has at least one item, and no comma behind the last. -/
def parseStage : Parser Stage := do
  let token ← current
  match token.kind with
  | .keyword .project => do
      let _ ← advance
      let paths ← parsePathList
      return .project paths
  | .keyword .sort => do
      let _ ← advance
      let bound ← rounds
      let keys ← parseItems (fun _ => parseSortKey) (pure false) bound []
      return .sort keys
  | .keyword .limit => do
      let _ ← advance
      let count ← expectNonnegativeInteger "limit count"
      return .limit count
  | .keyword .skip => do
      let _ ← advance
      let count ← expectNonnegativeInteger "skip count"
      return .skip count
  | .keyword .set => do
      let _ ← advance
      let bound ← rounds
      let assignments ← parseItems (fun _ => parseAssignment frames) (pure false) bound []
      return .set assignments
  | _ => error "expected `project`, `sort`, `limit`, `skip`, or `set` after `|`"

/-- The stages behind a command, each behind a pipe. -/
def parseStages (command : Command) : Nat → List Stage → Parser (List Stage)
  | 0, _ => panic
  | rounds + 1, stages => do
      if ← consumeSimple .pipe then
        if command.acceptsPipeline then
          let stage ← parseStage frames
          parseStages command rounds (stages ++ [stage])
        else error "this command does not accept pipeline stages"
      else return stages

/-- Exactly one query, parsed on a stack of so many frames. -/
def parseQueryWithin : Parser Query := do
  let first ← current
  let explain ← consumeKeyword .explain
  let (command, stages) ← parseCommand frames
  let bound ← rounds
  let stages ← parseStages frames command bound stages
  if command.isUpdate = true ∧ stages.any Stage.isSet = false then
    error "update requires a `set` pipeline stage"
  else if command.isUpdate = false ∧ stages.any Stage.isSet = true then
    error "`set` is only valid in an update pipeline"
  else do
    let _ ← consumeSimple .semicolon
    let last ← current
    let _ ← expectSimple .eof "end of query"
    return ⟨explain, command, stages, ⟨first.span.start, last.span.stop⟩⟩

/-- Exactly one query, on a stack that has room for every nesting of its tokens. -/
def parseQuery : Parser Query := do
  let bound ← rounds
  parseQueryWithin (4 * bound)

end Stages

section Sources

variable [CharacterTables]

/-- An error of the lexer or of the parser. -/
inductive QueryError
  | lex (cause : LexError)
  | parse (cause : ParseError)
  deriving DecidableEq

/-- The query that a source holds, where the stack has room for so many frames. -/
def parseWithin (frames : Nat) (source : String) : Except (Fault QueryError) Query := do
  let tokens ← (lex source).mapError (Fault.map QueryError.lex)
  (parseQueryWithin frames tokens).1.mapError (Fault.map QueryError.parse)

/-- The query that a source holds, whatever its nesting takes of the stack. -/
def parse (source : String) : Except (Fault QueryError) Query := do
  let tokens ← (lex source).mapError (Fault.map QueryError.lex)
  (parseQuery tokens).1.mapError (Fault.map QueryError.parse)

variable {source : String} {tokens : List Token}

theorem parseWithin_of_lex (frames : Nat) (h : lex source = .ok tokens) :
    parseWithin frames source =
      (parseQueryWithin frames tokens).1.mapError (Fault.map QueryError.parse) := by
  rw [parseWithin, h]
  rfl

theorem parse_of_lex (h : lex source = .ok tokens) :
    parse source = (parseQuery tokens).1.mapError (Fault.map QueryError.parse) := by
  rw [parse, h]
  rfl

end Sources

end NovaBase.NovaQl
