import NovaBase.NovaQl.Lexemes

/-!
# String literals

Every character of a string can be written in several ways between the quotes: as
it is, by a short escape, or by one or two numbers of UTF-16 in hexadecimal. The
lexer reads each of them as that character, and it rejects a number that is half
of a character.
-/

namespace NovaBase.NovaQl

open Lib

namespace Lexer

section Digits

/-- The hexadecimal digits in either case, by their values. -/
def hexAlphabet : List (Char × Char) :=
  [('0', '0'), ('1', '1'), ('2', '2'), ('3', '3'), ('4', '4'), ('5', '5'), ('6', '6'), ('7', '7'),
    ('8', '8'), ('9', '9'), ('a', 'A'), ('b', 'B'), ('c', 'C'), ('d', 'D'), ('e', 'E'), ('f', 'F')]

/-- The digit of a value, in either case. -/
def Writes (value : Nat) (digit : Char) : Prop :=
  ∃ letters ∈ hexAlphabet[value]?, digit = letters.1 ∨ digit = letters.2

instance (value : Nat) (digit : Char) : Decidable (Writes value digit) :=
  inferInstanceAs (Decidable (∃ letters ∈ hexAlphabet[value]?, _))

/-- The number that digits of these values make up behind a number. -/
def accumulate (number : Nat) (values : List Nat) : Nat :=
  values.foldl (fun number value => number * 16 + value) number

/-- Four hexadecimal digits of a number. -/
def HexQuad (number : Nat) (digits : List Char) : Prop :=
  ∃ values, values.length = 4 ∧ List.Forall₂ Writes values digits ∧ accumulate 0 values = number

theorem toNat_of_hexDigit {digit : Char} {value : Nat} (h : hexDigit digit = some value) :
    digit.toNat < 128 := by
  have hletters : '9'.toNat = 57 ∧ 'f'.toNat = 102 ∧ 'F'.toNat = 70 := by decide
  simp only [hexDigit, Char.le_def, UInt32.le_iff_toNat_le, Char.toNat_val] at h
  split at h
  · omega
  · split at h
    · omega
    · split at h
      · omega
      · cases h

theorem hexDigit_eq_some {digit : Char} {value : Nat} :
    hexDigit digit = some value ↔ Writes value digit := by
  constructor
  · intro h
    have hall : ∀ n : Fin 128, ∀ value ∈ hexDigit (Char.ofNat n), Writes value (Char.ofNat n) := by
      decide +kernel
    have hdigit := hall ⟨digit.toNat, toNat_of_hexDigit h⟩ value
    rw [Char.ofNat_toNat] at hdigit
    exact hdigit h
  · rintro ⟨letters, hletters, hdigit⟩
    obtain ⟨hvalue, rfl⟩ := List.getElem?_eq_some_iff.mp hletters
    have hall : ∀ i : Fin 16, hexDigit (hexAlphabet[i]).1 = some i.val ∧
        hexDigit (hexAlphabet[i]).2 = some i.val := by decide
    rcases hdigit with rfl | rfl
    · exact (hall ⟨value, hvalue⟩).1
    · exact (hall ⟨value, hvalue⟩).2

theorem Writes.lt {value : Nat} {digit : Char} (h : Writes value digit) : value < 16 := by
  obtain ⟨letters, hletters, -⟩ := h
  exact (List.getElem?_eq_some_iff.mp hletters).choose

theorem exists_writes {value : Nat} (h : value < 16) : ∃ digit, Writes value digit :=
  ⟨_, _, List.getElem?_eq_getElem h, .inl rfl⟩

/-- Every number of 16 bits has four digits. -/
theorem exists_hexQuad {number : Nat} (h : number < 65536) : ∃ digits, HexQuad number digits := by
  have hvalues : ∀ values : List Nat, (∀ value ∈ values, value < 16) →
      ∃ digits, List.Forall₂ Writes values digits := by
    intro values hvalues
    induction values with
    | nil => exact ⟨[], .nil⟩
    | cons value rest ih =>
        obtain ⟨hvalue, hrest⟩ := List.forall_mem_cons.mp hvalues
        obtain ⟨digit, hdigit⟩ := exists_writes hvalue
        obtain ⟨digits, hdigits⟩ := ih hrest
        exact ⟨digit :: digits, .cons hdigit hdigits⟩
  obtain ⟨digits, hdigits⟩ := hvalues
    [number / 4096, number / 256 % 16, number / 16 % 16, number % 16] (by
      simp only [List.forall_mem_cons, List.not_mem_nil, false_implies, implies_true, and_true]
      omega)
  refine ⟨digits, _, rfl, hdigits, ?_⟩
  simp only [accumulate, List.foldl_cons, List.foldl_nil]
  omega
end Digits

section Escapes

variable {source text rest digits : List Char} {position start number : Nat}

/-- A digit is read into the number. -/
theorem hexDigits_digit {c : Char} {value : Nat} (hdigit : Writes value c) (count : Nat)
    (h : (scanner source).Shows position (c :: rest)) :
    hexDigits source start (count + 1) number position =
      hexDigits source start count (number * 16 + value) (position + c.utf8Size) := by
  refine (Action.bind_of_ok (advance_eq h)).trans ?_
  rw [Option.bind_some, hexDigit_eq_some.mpr hdigit]

theorem hexDigits_eq {values : List Nat} (hdigits : List.Forall₂ Writes values digits)
    (h : (scanner source).Shows position (digits ++ rest)) :
    hexDigits source start values.length number position =
      (.ok (accumulate number values), position + Text.size digits) := by
  induction hdigits generalizing number position with
  | nil => rfl
  | @cons value c values digits hdigit _ ih =>
      have hbehind : (scanner source).Shows (position + c.utf8Size) (digits ++ rest) := by
        have h := shows_append [c] h
        simpa using h
      rw [List.length_cons, hexDigits_digit hdigit _ h, ih hbehind, Text.size_cons, Nat.add_assoc]
      rfl

theorem hexQuad_eq (hquad : HexQuad number digits)
    (h : (scanner source).Shows position (digits ++ rest)) :
    hexQuad source start position = (.ok number, position + Text.size digits) := by
  obtain ⟨values, hlength, hdigits, rfl⟩ := hquad
  rw [hexQuad, ← hlength]
  exact hexDigits_eq hdigits h

/-- Where the digits of a number cannot be read, the escape is rejected. -/
theorem hexDigits_cases (count : Nat) (h : (scanner source).Shows position text) :
    (∃ values digits rest, values.length = count ∧ List.Forall₂ Writes values digits ∧
      text = digits ++ rest) ∨
    ∃ stop, hexDigits source start count number position =
      (.error (.error ⟨.invalidUnicodeEscape, ⟨start, stop⟩⟩), stop) := by
  induction count generalizing number position text with
  | zero => exact .inl ⟨[], [], text, rfl, .nil, rfl⟩
  | succ count ih =>
      cases text with
      | nil => exact .inr ⟨position, Action.bind_of_ok (advance_end_eq h)⟩
      | cons c text =>
          cases hdigit : hexDigit c with
          | none =>
              refine .inr ⟨position + c.utf8Size, (Action.bind_of_ok (advance_eq h)).trans ?_⟩
              rw [Option.bind_some, hdigit]
              rfl
          | some value =>
              have hwrites := hexDigit_eq_some.mp hdigit
              have hbehind : (scanner source).Shows (position + c.utf8Size) text := by
                have h := shows_append [c] h
                simpa using h
              rcases @ih text (position + c.utf8Size) (number * 16 + value) hbehind with
                ⟨values, digits, rest, hlength, hdigits, rfl⟩ | ⟨stop, hrun⟩
              · exact .inl ⟨value :: values, c :: digits, rest, congrArg Nat.succ hlength,
                  .cons hwrites hdigits, rfl⟩
              · exact .inr ⟨stop, (hexDigits_digit hwrites count h).trans hrun⟩

end Escapes

section Spellings

variable [CharacterTables]

/-- The letters of the short escapes. -/
def shortEscapes : List (Char × Char) :=
  [('"', '"'), ('\\', '\\'), ('/', '/'), ('\x08', 'b'), ('\x0c', 'f'), ('\n', 'n'), ('\r', 'r'),
    ('\t', 't')]

/-- The ways to write a character between the quotes. -/
inductive Spells : Char → List Char → Prop
  | raw {c : Char} (hquote : c ≠ '"') (hbackslash : c ≠ '\\')
      (hcontrol : CharacterTables.isControl c = false) : Spells c [c]
  | short {c letter : Char} (h : (c, letter) ∈ shortEscapes) : Spells c ['\\', letter]
  | unit {c : Char} {digits : List Char} (h : HexQuad c.toNat digits) :
      Spells c ('\\' :: 'u' :: digits)
  | pair {c : Char} {high low : List Char} (hlarge : 0x10000 ≤ c.toNat)
      (hhigh : HexQuad (0xd800 + (c.toNat - 0x10000) / 0x400) high)
      (hlow : HexQuad (0xdc00 + (c.toNat - 0x10000) % 0x400) low) :
      Spells c ('\\' :: 'u' :: (high ++ '\\' :: 'u' :: low))

theorem Spells.length_pos {c : Char} {text : List Char} (h : Spells c text) : 1 ≤ text.length := by
  cases h <;> simp

omit [CharacterTables] in
/-- A character is a number that is no half of a pair. -/
theorem scalar (c : Char) : (c.toNat < 0xd800 ∨ 0xe000 ≤ c.toNat) ∧ c.toNat < 0x110000 := by
  have hvalid := c.valid
  simp only [UInt32.isValidChar, Nat.isValidChar, Char.toNat_val] at hvalid
  omega

/-- Every character can be written. -/
theorem exists_spells (c : Char) : ∃ text, Spells c text := by
  have hvalid : c.toNat < 0x110000 := (scalar c).2
  by_cases hlarge : 0x10000 ≤ c.toNat
  · obtain ⟨high, hhigh⟩ := @exists_hexQuad (0xd800 + (c.toNat - 0x10000) / 0x400) (by omega)
    obtain ⟨low, hlow⟩ := @exists_hexQuad (0xdc00 + (c.toNat - 0x10000) % 0x400) (by omega)
    exact ⟨_, .pair hlarge hhigh hlow⟩
  · obtain ⟨digits, hdigits⟩ := exists_hexQuad (Nat.not_le.mp hlarge)
    exact ⟨_, .unit hdigits⟩

end Spellings

section Reading

variable [CharacterTables] {source text rest high low : List Char} {position start bound : Nat}
  {c escaped : Char} {value : String}

omit [CharacterTables] in
/-- The mark of an escape takes two bytes. -/
theorem size_escape (text : List Char) : Text.size ('\\' :: 'u' :: text) = 2 + Text.size text := by
  have hsizes : '\\'.utf8Size = 1 ∧ 'u'.utf8Size = 1 := by decide
  rw [Text.size_cons, Text.size_cons, hsizes.1, hsizes.2]
  omega

omit [CharacterTables] in
theorem fromScalar_eq (c : Char) : fromScalar start c.toNat position = (.ok c, position) := by
  have hvalid : c.toNat.isValidChar := c.valid
  rw [fromScalar, if_pos hvalid, Char.ofNat_toNat]
  rfl

omit [CharacterTables] in
theorem unicodeEscape_unit (hquad : HexQuad c.toNat text)
    (h : (scanner source).Shows position (text ++ rest)) :
    unicodeEscape source start position = (.ok c, position + Text.size text) := by
  have hscalar := (scalar c).1
  refine (Action.bind_of_ok (hexQuad_eq hquad h)).trans ?_
  rw [if_neg (by omega), if_neg (by omega), fromScalar_eq]

/-- The first number of a pair. -/
def IsHigh (number : Nat) : Prop := 0xd800 ≤ number ∧ number < 0xdc00

/-- The second number of a pair. -/
def IsLow (number : Nat) : Prop := 0xdc00 ≤ number ∧ number < 0xe000

/-- What is read where the second number of a pair should be. -/
def secondNumber (source : List Char) (start high : Nat) : Lexer Char := do
  let low ← hexQuad source start
  if 0xdc00 ≤ low ∧ low ≤ 0xdfff then
    fromScalar start (0x10000 + (high - 0xd800) * 1024 + (low - 0xdc00))
  else invalidUnicode start

omit [CharacterTables] in
/-- Behind the first number of a pair, another escape is read. -/
theorem unicodeEscape_marked {number : Nat} (hquad : HexQuad number high) (hhigh : IsHigh number)
    (h : (scanner source).Shows position (high ++ '\\' :: 'u' :: rest)) :
    unicodeEscape source start position =
      secondNumber source start number (position + Text.size high + 2) := by
  obtain ⟨hmin, hmax⟩ := hhigh
  have hopening : startsWith source ['\\', 'u'] (position + Text.size high) =
      (.ok true, position + Text.size high) := by
    rw [startsWith_eq (shows_append _ h)]
    simp [List.isPrefixOf]
  refine (Action.bind_of_ok (hexQuad_eq hquad h)).trans ?_
  rw [if_pos (by omega)]
  refine (Action.bind_of_ok hopening).trans ?_
  rw [if_pos rfl]
  exact Action.bind_of_ok rfl

omit [CharacterTables] in
theorem unicodeEscape_pair (hlarge : 0x10000 ≤ c.toNat)
    (hhigh : HexQuad (0xd800 + (c.toNat - 0x10000) / 0x400) high)
    (hlow : HexQuad (0xdc00 + (c.toNat - 0x10000) % 0x400) low)
    (h : (scanner source).Shows position (high ++ '\\' :: 'u' :: (low ++ rest))) :
    unicodeEscape source start position =
      (.ok c, position + Text.size (high ++ '\\' :: 'u' :: low)) := by
  have hscalar := (scalar c).2
  have hdigits : (scanner source).Shows (position + Text.size high + 2) (low ++ rest) :=
    shows_append ['\\', 'u'] (shows_append _ h)
  have hnumber : 0x10000 + (0xd800 + (c.toNat - 0x10000) / 0x400 - 0xd800) * 1024 +
      (0xdc00 + (c.toNat - 0x10000) % 0x400 - 0xdc00) = c.toNat := by omega
  rw [unicodeEscape_marked hhigh ⟨by omega, by omega⟩ h]
  refine (Action.bind_of_ok (hexQuad_eq hlow hdigits)).trans ?_
  rw [if_pos (by omega), hnumber, fromScalar_eq, Text.size_append, size_escape]
  simp only [Nat.add_assoc]

/-- An escape is read as the character that it stands for. -/
theorem string_escape (h : (scanner source).Shows position ('\\' :: escaped :: text)) {after : Nat}
    (hescape : escape source position escaped (position + 1 + escaped.utf8Size) = (.ok c, after)) :
    string source start (bound + 1) value position =
      string source start bound (value.push c) after := by
  have hbehind : (scanner source).Shows (position + 1) (escaped :: text) := shows_append ['\\'] h
  have hbackslash : advance source position = (.ok (some '\\'), position + 1) := advance_eq h
  have hposition : Lexer.position position = (.ok position, position) := rfl
  refine (Action.bind_of_ok hposition).trans ?_
  refine (Action.bind_of_ok hbackslash).trans ?_
  refine (Action.bind_of_ok (advance_eq hbehind)).trans ?_
  exact Action.bind_of_ok hescape

theorem string_escape_error (h : (scanner source).Shows position ('\\' :: escaped :: text))
    {fault : Fault LexError} {after : Nat}
    (hescape : escape source position escaped (position + 1 + escaped.utf8Size) =
      (.error fault, after)) :
    string source start (bound + 1) value position = (.error fault, after) := by
  have hbehind : (scanner source).Shows (position + 1) (escaped :: text) := shows_append ['\\'] h
  have hbackslash : advance source position = (.ok (some '\\'), position + 1) := advance_eq h
  have hposition : Lexer.position position = (.ok position, position) := rfl
  refine (Action.bind_of_ok hposition).trans ?_
  refine (Action.bind_of_ok hbackslash).trans ?_
  refine (Action.bind_of_ok (advance_eq hbehind)).trans ?_
  exact Action.bind_of_error hescape

/-- Whatever way it is written, a character is read as itself. -/
theorem string_step (hspells : Spells c text)
    (h : (scanner source).Shows position (text ++ rest)) :
    string source start (bound + 1) value position =
      string source start bound (value.push c) (position + Text.size text) := by
  cases hspells with
  | raw hquote hbackslash hcontrol =>
      have hposition : Lexer.position position = (.ok position, position) := rfl
      refine (Action.bind_of_ok hposition).trans ?_
      refine (Action.bind_of_ok (advance_eq h)).trans ?_
      simp [hcontrol]
  | @short letter hletter =>
      have hescape : ∀ offset, escape source position letter offset = (.ok c, offset) := by
        intro offset
        simp only [shortEscapes, List.mem_cons, Prod.mk.injEq, List.not_mem_nil,
          or_false] at hletter
        rcases hletter with ⟨rfl, rfl⟩ | ⟨rfl, rfl⟩ | ⟨rfl, rfl⟩ | ⟨rfl, rfl⟩ | ⟨rfl, rfl⟩ |
          ⟨rfl, rfl⟩ | ⟨rfl, rfl⟩ | ⟨rfl, rfl⟩ <;> rfl
      have hbackslash : '\\'.utf8Size = 1 := by decide
      rw [string_escape h (hescape _), Text.size_cons, Text.size_cons, Text.size_nil, hbackslash,
        Nat.add_assoc, Nat.add_zero]
  | @unit digits hquad =>
      have hdigits : (scanner source).Shows (position + 2) (digits ++ rest) :=
        shows_append ['\\', 'u'] h
      have hescape : escape source position 'u' (position + 1 + 'u'.utf8Size) =
          (.ok c, position + 2 + Text.size digits) := unicodeEscape_unit hquad hdigits
      rw [string_escape h hescape, size_escape, Nat.add_assoc]
  | @pair high low hlarge hhigh hlow =>
      have hdigits : (scanner source).Shows (position + 2)
          (high ++ '\\' :: 'u' :: (low ++ rest)) := by
        have happend : (high ++ '\\' :: 'u' :: low) ++ rest =
            high ++ '\\' :: 'u' :: (low ++ rest) := by simp
        rw [← happend]
        exact shows_append ['\\', 'u'] h
      have hescape : escape source position 'u' (position + 1 + 'u'.utf8Size) =
          (.ok c, position + 2 + Text.size (high ++ '\\' :: 'u' :: low)) :=
        unicodeEscape_pair hlarge hhigh hlow hdigits
      rw [string_escape h hescape, size_escape, Nat.add_assoc]

/-- What is written character by character is read character by character. -/
theorem string_run {characters : List Char} {spellings : List (List Char)}
    (hspells : List.Forall₂ Spells characters spellings) (left : Nat)
    (h : (scanner source).Shows position (spellings.flatten ++ rest)) :
    string source start (characters.length + left) value position =
      string source start left (value ++ String.ofList characters)
        (position + Text.size spellings.flatten) := by
  induction hspells generalizing position value with
  | nil => simp
  | @cons c text characters spellings hc _ ih =>
      rw [List.flatten_cons, List.append_assoc] at h
      have hvalue : value.push c ++ String.ofList characters =
          value ++ String.ofList (c :: characters) := by
        apply String.toList_injective
        simp
      rw [List.length_cons, Nat.add_right_comm, string_step hc h, ih (shows_append _ h), hvalue,
        List.flatten_cons, Text.size_append, Nat.add_assoc]

/-- The closing quote ends the string. -/
theorem string_close (h : (scanner source).Shows position ('"' :: rest)) :
    string source start (bound + 1) value position =
      (.ok (.string value), position + Text.size ['"']) := by
  have hposition : Lexer.position position = (.ok position, position) := rfl
  refine (Action.bind_of_ok hposition).trans ?_
  exact Action.bind_of_ok (advance_eq h)

end Reading

section Surrogates

variable [CharacterTables] {source text rest : List Char} {position start bound : Nat}
  {value : String}

/-- The text begins with the escape of half a character, and the other half does not follow. -/
inductive Unpaired : List Char → Prop
  | low {number : Nat} {digits rest : List Char} (hquad : HexQuad number digits)
      (hlow : IsLow number) : Unpaired ('\\' :: 'u' :: (digits ++ rest))
  | high {number : Nat} {digits rest : List Char} (hquad : HexQuad number digits)
      (hhigh : IsHigh number)
      (hrest : ∀ second digits last, HexQuad second digits → IsLow second →
        rest ≠ '\\' :: 'u' :: (digits ++ last)) :
      Unpaired ('\\' :: 'u' :: (digits ++ rest))

omit [CharacterTables] in
theorem unicodeEscape_unpaired (hunpaired : Unpaired ('\\' :: 'u' :: text))
    (h : (scanner source).Shows position text) :
    ∃ stop, unicodeEscape source start position =
      (.error (.error ⟨.invalidUnicodeEscape, ⟨start, stop⟩⟩), stop) := by
  cases hunpaired with
  | @low number digits rest hquad hlow =>
      obtain ⟨hmin, hmax⟩ := hlow
      refine ⟨position + Text.size digits, (Action.bind_of_ok (hexQuad_eq hquad h)).trans ?_⟩
      rw [if_neg (by omega), if_pos (by omega)]
      rfl
  | @high number digits rest hquad hhigh hrest =>
      have hbehind := shows_append _ h
      cases hopening : List.isPrefixOf ['\\', 'u'] rest with
      | false =>
          obtain ⟨hmin, hmax⟩ := hhigh
          refine ⟨position + Text.size digits, (Action.bind_of_ok (hexQuad_eq hquad h)).trans ?_⟩
          rw [if_pos (by omega)]
          refine (Action.bind_of_ok (startsWith_eq hbehind)).trans ?_
          rw [hopening, if_neg Bool.false_ne_true]
          rfl
      | true =>
          obtain ⟨more, rfl⟩ := List.isPrefixOf_iff_prefix.mp hopening
          have hmore : (scanner source).Shows (position + Text.size digits + 2) more :=
            shows_append ['\\', 'u'] hbehind
          rw [unicodeEscape_marked hquad hhigh h]
          rcases @hexDigits_cases source more (position + Text.size digits + 2) start 0 4 hmore with
            ⟨values, second, last, hlength, hsecond, rfl⟩ | ⟨stop, hfailed⟩
          · have hquad : HexQuad (accumulate 0 values) second := ⟨values, hlength, hsecond, rfl⟩
            have hnot : ¬IsLow (accumulate 0 values) :=
              fun hlow => hrest _ _ last hquad hlow rfl
            refine ⟨position + Text.size digits + 2 + Text.size second,
              (Action.bind_of_ok (hexQuad_eq hquad hmore)).trans ?_⟩
            rw [IsLow] at hnot
            rw [if_neg (by omega)]
            rfl
          · exact ⟨stop, Action.bind_of_error hfailed⟩

end Surrogates

end Lexer

section Literals

variable [CharacterTables] {source text rest : List Char} {characters : List Char}
  {spellings : List (List Char)} {position : Nat}

open Lexer

theorem length_le_flatten (h : List.Forall₂ Spells characters spellings) :
    characters.length ≤ spellings.flatten.length := by
  induction h with
  | nil => exact le_rfl
  | cons hc _ ih =>
      have hpos := hc.length_pos
      rw [List.length_cons, List.flatten_cons, List.length_append]
      omega

/-- The lexer has read the characters at the start of a string, with a round left. -/
theorem token_spelled (hspells : List.Forall₂ Spells characters spellings)
    (h : (scanner source).Shows position ('"' :: (spellings.flatten ++ rest))) :
    ∃ left, token source position '"' (position + '"'.utf8Size) =
      string source position (left + 1) (String.ofList characters)
        (position + '"'.utf8Size + Text.size spellings.flatten) := by
  have hlength := length_le_flatten hspells
  obtain ⟨left, hleft⟩ : ∃ left, Lexer.rounds source = characters.length + (left + 1) := by
    obtain ⟨front, rfl, -⟩ := h
    refine ⟨Lexer.rounds (front ++ '"' :: (spellings.flatten ++ rest)) - characters.length - 1, ?_⟩
    simp only [Lexer.rounds, List.length_append, List.length_cons]
    omega
  have hbehind : (scanner source).Shows (position + '"'.utf8Size) (spellings.flatten ++ rest) := by
    have h := shows_append ['"'] h
    simpa using h
  have hrun := @string_run _ source rest (position + '"'.utf8Size) position "" _ _ hspells
    (left + 1) hbehind
  rw [String.empty_append] at hrun
  refine ⟨left, ?_⟩
  rw [← hrun, ← hleft]
  rfl

theorem solid_quote : Solid '"' := solid_ascii (by decide) (by decide) (by decide)

/-- Characters between quotes are read as one string, whatever is behind it. -/
theorem takes_literal (hspells : List.Forall₂ Spells characters spellings) :
    Takes source ('"' :: ((spellings.flatten ++ ['"']) ++ rest))
      [.string (String.ofList characters)] rest := by
  apply Takes.token _ solid_quote
  intro position h
  have hopened : (scanner source).Shows position ('"' :: (spellings.flatten ++ '"' :: rest)) := by
    simpa using h
  obtain ⟨left, hrun⟩ := token_spelled hspells hopened
  have hclose : (scanner source).Shows
      (position + '"'.utf8Size + Text.size spellings.flatten) ('"' :: rest) := by
    have hbehind := shows_append ('"' :: spellings.flatten) hopened
    rw [Text.size_cons, ← Nat.add_assoc] at hbehind
    exact hbehind
  have hsize : position + Text.size ('"' :: (spellings.flatten ++ ['"'])) =
      position + '"'.utf8Size + Text.size spellings.flatten + Text.size ['"'] := by
    rw [Text.size_cons, Text.size_append]
    omega
  rw [hrun, string_close hclose, hsize]

theorem readAs_literal (hspells : List.Forall₂ Spells characters spellings) :
    ReadAs source ('"' :: (spellings.flatten ++ ['"']))
      [.string (String.ofList characters), .eof] := by
  have hread := (@takes_literal _ source [] _ _ hspells).readAs readAs_nil
  rw [List.append_nil] at hread
  exact hread

theorem lex_literal (hspells : List.Forall₂ Spells characters spellings) :
    ∃ literal stop, lex (String.ofList ('"' :: (spellings.flatten ++ ['"']))) =
      .ok [literal, stop] ∧ literal.kind = .string (String.ofList characters) ∧
        stop.kind = .eof := by
  obtain ⟨tokens, hlex, hkinds⟩ := lex_of_readAs (readAs_literal hspells)
  obtain ⟨literal, tokens, rfl, hliteral, hkinds⟩ := List.map_eq_cons_iff.mp hkinds
  obtain ⟨stop, rfl, hstop⟩ := List.map_eq_singleton_iff.mp hkinds
  exact ⟨literal, stop, hlex, hliteral, hstop⟩

/-- Half a character behind characters that are written as they should be. -/
theorem lex_unpaired (hspells : List.Forall₂ Spells characters spellings) (htext : Unpaired text) :
    ∃ cause, lex (String.ofList ('"' :: (spellings.flatten ++ text))) = .error (.error cause) ∧
      cause.kind = .invalidUnicodeEscape := by
  obtain ⟨more, rfl⟩ : ∃ more, text = '\\' :: 'u' :: more := by
    cases htext with
    | low _ _ => exact ⟨_, rfl⟩
    | high _ _ _ => exact ⟨_, rfl⟩
  have hshows : (scanner ('"' :: (spellings.flatten ++ '\\' :: 'u' :: more))).Shows 0
      ('"' :: (spellings.flatten ++ '\\' :: 'u' :: more)) := ⟨[], rfl, rfl⟩
  obtain ⟨left, hrun⟩ := token_spelled hspells hshows
  have hescape : (scanner ('"' :: (spellings.flatten ++ '\\' :: 'u' :: more))).Shows
      (0 + '"'.utf8Size + Text.size spellings.flatten) ('\\' :: 'u' :: more) := by
    have h := shows_append ('"' :: spellings.flatten) hshows
    rw [Text.size_cons, ← Nat.add_assoc] at h
    exact h
  have hmore := shows_append ['\\', 'u'] hescape
  obtain ⟨stop, hfailed⟩ := @unicodeEscape_unpaired _ more _
    (0 + '"'.utf8Size + Text.size spellings.flatten) htext hmore
  have htoken := hrun.trans (string_escape_error hescape hfailed)
  have htrivia := skipTrivia_eq ('"' :: (spellings.flatten ++ '\\' :: 'u' :: more)).length hshows
    fun c hc => by
      cases hc
      exact solid_quote
  refine ⟨⟨.invalidUnicodeEscape, ⟨0 + '"'.utf8Size + Text.size spellings.flatten, stop⟩⟩, ?_, rfl⟩
  have hlexed : tokenize ('"' :: (spellings.flatten ++ '\\' :: 'u' :: more))
      (Lexer.rounds ('"' :: (spellings.flatten ++ '\\' :: 'u' :: more))) [] 0 = (.error (.error
        ⟨.invalidUnicodeEscape, ⟨0 + '"'.utf8Size + Text.size spellings.flatten, stop⟩⟩),
        stop) := by
    have hposition : Lexer.position 0 = (.ok 0, 0) := rfl
    refine (Action.bind_of_ok htrivia).trans ?_
    refine (Action.bind_of_ok hposition).trans ?_
    refine (Action.bind_of_ok (advance_eq hshows)).trans ?_
    exact Action.bind_of_error htoken
  rw [lex, runLexer, String.toList_ofList, hlexed]

/-- Every string can be written, and however its characters are written, the quoted text is read as
that string. Where the first fault of a text is half a character, its escape is rejected. -/
theorem strings_read_as_written :
    (∀ s : String, ∃ spellings, List.Forall₂ Spells s.toList spellings) ∧
    (∀ (s : String) spellings, List.Forall₂ Spells s.toList spellings →
      ∃ literal stop, lex (String.ofList ('"' :: (spellings.flatten ++ ['"']))) =
        .ok [literal, stop] ∧ literal.kind = .string s ∧ stop.kind = .eof) ∧
    ∀ (s : String) spellings text, List.Forall₂ Spells s.toList spellings → Unpaired text →
      ∃ cause, lex (String.ofList ('"' :: (spellings.flatten ++ text))) = .error (.error cause) ∧
        cause.kind = .invalidUnicodeEscape := by
  refine ⟨fun s => ?_, fun s spellings hspells => ?_, fun s spellings text => lex_unpaired⟩
  · induction s.toList with
    | nil => exact ⟨[], .nil⟩
    | cons c characters ih =>
        obtain ⟨text, htext⟩ := exists_spells c
        obtain ⟨spellings, hspellings⟩ := ih
        exact ⟨text :: spellings, .cons htext hspellings⟩
  · obtain ⟨literal, stop, hlex, hliteral, hstop⟩ := lex_literal hspells
    rw [String.ofList_toList] at hliteral
    exact ⟨literal, stop, hlex, hliteral, hstop⟩

end Literals

end NovaBase.NovaQl
