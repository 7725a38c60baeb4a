import NovaBase.Core.Path
import NovaBase.Lib.Action
import NovaBase.Lib.Text
import NovaBase.NovaQl.Syntax

/-!
# The lexer

The lexer walks over the source by byte offsets: whole characters at a time, and
by fixed numbers of bytes behind the markers of comments and escapes. It panics
where it slices the source off a boundary of characters. Every round of a loop
takes a character, so a loop is given one round more than the source has
characters.
-/

namespace NovaBase.NovaQl

open Lib

/-- What is wrong with a source. -/
inductive LexErrorKind
  | unexpectedCharacter (character : Char)
  | unterminatedString
  | unterminatedBlockComment
  | invalidEscape (character : Char)
  | invalidUnicodeEscape
  | invalidNumber
  deriving DecidableEq

/-- A lexical error with its source range. -/
structure LexError where
  kind : LexErrorKind
  span : Span
  deriving DecidableEq

/-- The state is the byte offset of the lexer in its source. -/
abbrev Lexer (α : Type) := Action (Fault LexError) Nat α

namespace Lexer

section Characters

variable (source : List Char) {α : Type}

def position : Lexer Nat := Action.reads .ok

/-- The source from the lexer's position on. -/
def remaining : Lexer (List Char) := Action.reads fun position =>
  match Text.sliceFrom source position with
  | some rest => .ok rest
  | none => .error .panic

/-- The source from an offset up to the lexer's position. -/
def textFrom (start : Nat) : Lexer (List Char) := Action.reads fun position =>
  match Text.slice source start position with
  | some text => .ok text
  | none => .error .panic

/-- The rest of the source starts with these characters. -/
def startsWith (opening : List Char) : Lexer Bool := do
  let rest ← remaining source
  return opening.isPrefixOf rest

def peek : Lexer (Option Char) := do
  let rest ← remaining source
  return rest.head?

/-- The character behind the next one. -/
def peekSecond : Lexer (Option Char) := do
  let rest ← remaining source
  return rest[1]?

/-- Move on by a number of bytes. -/
def skip (count : Nat) : Lexer Unit := Action.modify (· + count)

def advance : Lexer (Option Char) := do
  match ← peek source with
  | none => return none
  | some character => do
      skip character.utf8Size
      return some character

/-- Fail with the span from `start` to the lexer's position. -/
def failFrom (kind : LexErrorKind) (start : Nat) : Lexer α := do
  let stop ← position
  Action.ofExcept (.error (.error ⟨kind, ⟨start, stop⟩⟩))

def panic : Lexer α := Action.ofExcept (.error .panic)

/-- Move on over characters of a class. -/
def advanceWhile (p : Char → Bool) : Nat → Lexer Unit
  | 0 => panic
  | rounds + 1 => do
      let next ← peek source
      if next.any p then do
        let _ ← advance source
        advanceWhile p rounds
      else return ()

/-- One round more than the source has characters. -/
def rounds : Nat := source.length + 1

end Characters

section Classes

variable [CharacterTables]

/-- The characters that an identifier can begin with. -/
def isIdentifierStart (character : Char) : Bool :=
  character = '_' || CharacterTables.isAlphabetic character

/-- The characters that an identifier can go on with. -/
def isIdentifierContinue (character : Char) : Bool :=
  character = '_' || isAlphanumeric character ||
    (128 ≤ character.toNat && !CharacterTables.isWhitespace character &&
      !CharacterTables.isControl character)

end Classes

def keywords : List (String × Keyword) :=
  [("get", .get), ("insert", .insert), ("update", .update), ("set", .set), ("delete", .delete),
    ("project", .project), ("sort", .sort), ("asc", .asc), ("desc", .desc), ("limit", .limit),
    ("skip", .skip), ("create", .create), ("drop", .drop), ("collection", .collection),
    ("index", .index), ("on", .on), ("explain", .explain), ("and", .and), ("or", .or),
    ("not", .not), ("contains", .contains), ("true", .true), ("false", .false), ("null", .null)]

/-- Reserved words are compared without regard to the case of ASCII letters. -/
def keyword (value : List Char) : Option Keyword :=
  keywords.findSome? fun (word, keyword) =>
    if value.map Char.toLower = word.toList then some keyword else none

section Trivia

variable [CharacterTables] (source : List Char)

/-- The rest of a block comment that begins at `start`, up to its closing marker. -/
def skipBlock (start : Nat) : Nat → Lexer Unit
  | 0 => panic
  | rounds + 1 => do
      if ← startsWith source ['*', '/'] then return ()
      else do
        match ← advance source with
        | none => failFrom .unterminatedBlockComment start
        | some _ => skipBlock start rounds

/-- Move on over white space and comments. -/
def skipTrivia : Nat → Lexer Unit
  | 0 => panic
  | bound + 1 => do
      advanceWhile source CharacterTables.isWhitespace (rounds source)
      if ← startsWith source ['/', '/'] then do
        advanceWhile source (· != '\n') (rounds source)
        skipTrivia bound
      else if ← startsWith source ['/', '*'] then do
        let start ← position
        skip 2
        skipBlock source start (rounds source)
        skip 2
        skipTrivia bound
      else return ()

end Trivia

section Strings

variable [CharacterTables] (source : List Char)

def invalidUnicode {α : Type} (start : Nat) : Lexer α := failFrom .invalidUnicodeEscape start

/-- The value of a hexadecimal digit. -/
def hexDigit (character : Char) : Option Nat :=
  if '0' ≤ character ∧ character ≤ '9' then some (character.toNat - '0'.toNat)
  else if 'a' ≤ character ∧ character ≤ 'f' then some (character.toNat - 'a'.toNat + 10)
  else if 'A' ≤ character ∧ character ≤ 'F' then some (character.toNat - 'A'.toNat + 10)
  else none

/-- So many hexadecimal digits behind those that make up `value`. -/
def hexDigits (start : Nat) : Nat → Nat → Lexer Nat
  | 0, value => return value
  | count + 1, value => do
      let next ← advance source
      match next.bind hexDigit with
      | none => invalidUnicode start
      | some digit => hexDigits start count (value * 16 + digit)

/-- The number that four hexadecimal digits spell. -/
def hexQuad (start : Nat) : Lexer Nat := hexDigits source start 4 0

/-- `char::from_u32`. -/
def fromScalar (start value : Nat) : Lexer Char :=
  if value.isValidChar then return Char.ofNat value else invalidUnicode start

/-- The character of a Unicode escape that begins at `start`, or of a surrogate pair of them. -/
def unicodeEscape (start : Nat) : Lexer Char := do
  let high ← hexQuad source start
  if 0xd800 ≤ high ∧ high ≤ 0xdbff then do
    if ← startsWith source ['\\', 'u'] then do
      skip 2
      let low ← hexQuad source start
      if 0xdc00 ≤ low ∧ low ≤ 0xdfff then
        fromScalar start (0x10000 + (high - 0xd800) * 1024 + (low - 0xdc00))
      else invalidUnicode start
    else invalidUnicode start
  else if 0xdc00 ≤ high ∧ high ≤ 0xdfff then invalidUnicode start
  else fromScalar start high

/-- The character that an escape stands for; the escape begins at `start`. -/
def escape (start : Nat) : Char → Lexer Char
  | '"' => return '"'
  | '\\' => return '\\'
  | '/' => return '/'
  | 'b' => return '\x08'
  | 'f' => return '\x0c'
  | 'n' => return '\n'
  | 'r' => return '\r'
  | 't' => return '\t'
  | 'u' => unicodeEscape source start
  | invalid => failFrom (.invalidEscape invalid) start

/-- The rest of a string that begins at `start`, behind the characters in `value`. -/
def string (start : Nat) : Nat → String → Lexer TokenKind
  | 0, _ => panic
  | rounds + 1, value => do
      let escapeStart ← position
      match ← advance source with
      | none => failFrom .unterminatedString start
      | some '"' => return .string value
      | some '\\' => do
          match ← advance source with
          | none => failFrom .unterminatedString start
          | some escaped => do
              let character ← escape source escapeStart escaped
              string start rounds (value.push character)
      | some character =>
          if CharacterTables.isControl character then
            failFrom (.unexpectedCharacter character) escapeStart
          else string start rounds (value.push character)

end Strings

section Numbers

/-- The number that decimal digits spell. -/
def decimal (digits : List Char) : Nat :=
  digits.foldl (fun value digit => value * 10 + (digit.toNat - '0'.toNat)) 0

/-- `str::parse::<i64>` on decimal digits. -/
def parseInteger (text : List Char) : Option Int64 :=
  if decimal text < 2 ^ 63 then some (Int64.ofNat (decimal text)) else none

/-- `str::parse::<f64>` on digits, a fraction and an exponent: the nearest double. -/
def parseFloat (text : List Char) : F64 :=
  let whole := text.takeWhile Char.isDigit
  let rest := text.dropWhile Char.isDigit
  let fraction := if rest.head? = some '.' then rest.tail.takeWhile Char.isDigit else []
  let rest := if rest.head? = some '.' then rest.tail.dropWhile Char.isDigit else rest
  -- behind the fraction there is nothing, or the letter of the exponent
  let exponent := rest.tail
  let magnitude := decimal (exponent.dropWhile fun c => c = '+' || c = '-')
  let mantissa := decimal (whole ++ fraction)
  if exponent.head? = some '-' then
    F64.round false (mantissa * 2 ^ 1074) (10 ^ (magnitude + fraction.length))
  else F64.round false (mantissa * 10 ^ magnitude * 2 ^ 1074) (10 ^ fraction.length)

variable [CharacterTables] (source : List Char)

def invalidNumber {α : Type} (start : Nat) : Lexer α := failFrom .invalidNumber start

def digits : Lexer Unit := advanceWhile source Char.isDigit (rounds source)

/-- The fraction of a number; whether there is one. -/
def fraction : Lexer Bool := do
  let next ← peek source
  let second ← peekSecond source
  if next = some '.' ∧ second.any Char.isDigit = true then do
    let _ ← advance source
    digits source
    return true
  else return false

/-- The exponent of a number that begins at `start`; whether there is one. -/
def exponent (start : Nat) : Lexer Bool := do
  let next ← peek source
  if next.any (fun c => c = 'e' || c = 'E') then do
    let _ ← advance source
    let sign ← peek source
    if sign.any (fun c => c = '+' || c = '-') then
      let _ ← advance source
    let first ← peek source
    if first.any Char.isDigit then do
      digits source
      return true
    else invalidNumber start
  else return false

/-- The rest of a number that begins at `start`. -/
def number (start : Nat) : Lexer TokenKind := do
  digits source
  let hasFraction ← fraction source
  let hasExponent ← exponent source start
  let next ← peek source
  if next.any isIdentifierStart then do
    advanceWhile source isIdentifierContinue (rounds source)
    invalidNumber start
  else do
    let text ← textFrom source start
    if hasFraction || hasExponent then
      if (parseFloat text).isFinite then return .float (parseFloat text) else invalidNumber start
    else
      match parseInteger text with
      | some value => return .integer value
      | none => invalidNumber start

end Numbers

section Tokens

variable [CharacterTables] (source : List Char)

/-- The rest of an identifier or a reserved word that begins at `start`. -/
def identifier (start : Nat) : Lexer TokenKind := do
  advanceWhile source isIdentifierContinue (rounds source)
  let text ← textFrom source start
  match keyword text with
  | some keyword => return .keyword keyword
  | none => return .identifier (String.ofList text)

/-- One kind of token if an equals sign follows, and another if none does. -/
def withOptionalEqual (paired single : TokenKind) : Lexer TokenKind := do
  let next ← peek source
  if next = some '=' then do
    let _ ← advance source
    return paired
  else return single

/-- The rest of the token that begins with a character at `start`. -/
def token (start : Nat) : Char → Lexer TokenKind
  | '\x7b' => return .leftBrace
  | '\x7d' => return .rightBrace
  | '[' => return .leftBracket
  | ']' => return .rightBracket
  | '(' => return .leftParen
  | ')' => return .rightParen
  | ',' => return .comma
  | ':' => return .colon
  | '.' => return .dot
  | ';' => return .semicolon
  | '|' => return .pipe
  | '+' => return .plus
  | '-' => return .minus
  | '*' => return .star
  | '/' => return .slash
  | '%' => return .percent
  | '=' => withOptionalEqual source .equalEqual .equal
  | '!' => withOptionalEqual source .bangEqual .bang
  | '<' => withOptionalEqual source .lessEqual .less
  | '>' => withOptionalEqual source .greaterEqual .greater
  | '"' => string source start (rounds source) ""
  | character =>
      if character.isDigit then number source start
      else if isIdentifierStart character then identifier source start
      else failFrom (.unexpectedCharacter character) start

/-- The tokens from the lexer's position on, behind those that it has found. -/
def tokenize : Nat → List Token → Lexer (List Token)
  | 0, _ => panic
  | bound + 1, tokens => do
      skipTrivia source (rounds source)
      let start ← position
      match ← advance source with
      | none => return tokens ++ [⟨.eof, ⟨start, start⟩⟩]
      | some character => do
          let kind ← token source start character
          let stop ← position
          tokenize bound (tokens ++ [⟨kind, ⟨start, stop⟩⟩])

end Tokens

end Lexer

/-- The tokens of a source, or how the lexer fails, and where it stands then. -/
def runLexer [CharacterTables] (source : String) : Except (Fault LexError) (List Token) × Nat :=
  Lexer.tokenize source.toList (Lexer.rounds source.toList) [] 0

/-- The tokens of a source, the end token included. -/
def lex [CharacterTables] (source : String) : Except (Fault LexError) (List Token) :=
  (runLexer source).1

end NovaBase.NovaQl
