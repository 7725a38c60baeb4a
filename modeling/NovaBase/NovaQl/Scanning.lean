import NovaBase.Lib.Consumption
import NovaBase.NovaQl.Lexer

/-!
# The lexer stays on its source

Whatever the source is, the lexer stands between two characters of it whenever
it looks at it. Its tokens follow one another through the source, with nothing
but whitespace and comments between them, and its errors lie inside the source.
-/

namespace NovaBase.NovaQl

open Lib

/-- A range inside a source of `limit` bytes. -/
def Span.Within (limit : Nat) (span : Span) : Prop := span.start ≤ span.stop ∧ span.stop ≤ limit

/-- The lexer stands behind a front of the source, and its errors lie inside the source. -/
def scanner (source : List Char) : Reader (Fault LexError) Nat Char where
  Shows position input := ∃ front, source = front ++ input ∧ Text.size front = position
  Reported fault := ∃ cause, fault = .error cause ∧ cause.span.Within (Text.size source)

namespace Lexer

section Characters

variable {source input : List Char} {α β : Type} {p : Lexer α}
  {Q : α → List Char → List Char → Prop}

theorem consumes_position : Consumes (scanner source) position input
    fun position taken _ => taken = [] ∧ position + Text.size input = Text.size source := by
  refine Consumes.reads fun position hshows => ⟨position, rfl, rfl, ?_⟩
  obtain ⟨front, rfl, rfl⟩ := hshows
  rw [Text.size_append]

theorem consumes_remaining : Consumes (scanner source) (remaining source) input
    fun rest taken _ => taken = [] ∧ rest = input := by
  refine Consumes.reads fun position hshows => ⟨input, ?_, rfl, rfl⟩
  obtain ⟨front, rfl, rfl⟩ := hshows
  simp only [Text.sliceFrom_size]

theorem consumes_peek : Consumes (scanner source) (peek source) input
    fun next taken _ => taken = [] ∧ next = input.head? := by
  apply consumes_remaining.map
  rintro rest taken _ _ ⟨rfl, rfl⟩
  exact ⟨rfl, rfl⟩

theorem consumes_peekSecond : Consumes (scanner source) (peekSecond source) input
    fun next taken _ => taken = [] ∧ next = input[1]? := by
  apply consumes_remaining.map
  rintro rest taken _ _ ⟨rfl, rfl⟩
  exact ⟨rfl, rfl⟩

theorem consumes_startsWith {opening : List Char} :
    Consumes (scanner source) (startsWith source opening) input
      fun found taken _ => taken = [] ∧ (found = true ↔ opening <+: input) := by
  apply consumes_remaining.map
  rintro rest taken _ _ ⟨rfl, rfl⟩
  exact ⟨rfl, List.isPrefixOf_iff_prefix⟩

/-- Whole characters are skipped by their size. -/
theorem consumes_skip (front : List Char) {rest : List Char} {count : Nat} {next : Unit → Lexer β}
    {P : β → List Char → List Char → Prop} (hcount : Text.size front = count)
    (hnext : Consumes (scanner source) (next ()) rest fun b more last => P b (front ++ more) last) :
    Consumes (scanner source) (skip count >>= next) (front ++ rest) P := by
  have hskip : Consumes (scanner source) (skip count) (front ++ rest)
      fun _ taken left => taken = front ∧ left = rest := by
    rintro position ⟨before, rfl, rfl⟩
    refine .inl ⟨(), Text.size before + count, rfl, front, rest, rfl, ⟨before ++ front, ?_, ?_⟩,
      rfl, rfl⟩
    · rw [List.append_assoc]
    · rw [Text.size_append, hcount]
  apply hskip.bind
  rintro _ _ _ _ ⟨rfl, rfl⟩
  exact hnext

theorem consumes_advance {character : Char} {rest : List Char} {next : Option Char → Lexer β}
    {P : β → List Char → List Char → Prop}
    (hnext : Consumes (scanner source) (next (some character)) rest
      fun b more last => P b (character :: more) last) :
    Consumes (scanner source) (advance source >>= next) (character :: rest) P := by
  have hadvance : Consumes (scanner source) (advance source) (character :: rest)
      fun found taken left => found = some character ∧ taken = [character] ∧ left = rest := by
    apply consumes_peek.look
    rintro _ rfl
    exact consumes_skip [character] (Nat.add_zero _) (Consumes.pure ⟨rfl, rfl, rfl⟩)
  apply hadvance.bind
  rintro _ _ _ _ ⟨rfl, rfl, rfl⟩
  exact hnext

theorem consumes_advance_end {next : Option Char → Lexer β}
    {P : β → List Char → List Char → Prop} (hnext : Consumes (scanner source) (next none) [] P) :
    Consumes (scanner source) (advance source >>= next) [] P := by
  have hadvance : Consumes (scanner source) (advance source) []
      fun found taken _ => taken = [] ∧ found = none := by
    apply consumes_peek.look
    rintro _ rfl
    exact Consumes.pure ⟨rfl, rfl⟩
  apply hadvance.look
  rintro _ rfl
  exact hnext

/-- An error from an offset that the lexer has passed. -/
theorem consumes_failFrom {kind : LexErrorKind} {start : Nat}
    (hstart : start + Text.size input ≤ Text.size source) :
    Consumes (scanner source) (failFrom kind start) input Q := by
  apply consumes_position.look
  intro stop hstop
  exact Consumes.fail ⟨_, rfl, by dsimp only; omega, by dsimp only; omega⟩

theorem consumes_textFrom {front : List Char} {start : Nat} (text : List Char)
    (hsource : source = front ++ (text ++ input)) (hstart : Text.size front = start) :
    Consumes (scanner source) (textFrom source start) input
      fun found taken _ => taken = [] ∧ found = text := by
  refine Consumes.reads fun position hshows => ⟨text, ?_, rfl, rfl⟩
  obtain ⟨before, hbefore, rfl⟩ := hshows
  have hfront : before = front ++ text := by
    rw [hsource, ← List.append_assoc] at hbefore
    exact (List.append_cancel_right hbefore).symm
  rw [hfront, Text.size_append, ← hstart, hsource]
  simp only [Text.slice_size]

/-- A loop that runs for a round more than the source has characters. -/
theorem consumes_rounds (h : input.length < rounds source → Consumes (scanner source) p input Q) :
    Consumes (scanner source) p input Q := by
  refine Consumes.assume fun position hshows => h ?_
  obtain ⟨front, rfl, -⟩ := hshows
  rw [rounds, List.length_append]
  omega

theorem consumes_advanceWhile (class' : Char → Bool) {bound : Nat} (hbound : input.length < bound) :
    Consumes (scanner source) (advanceWhile source class' bound) input
      fun _ taken rest => (∀ c ∈ taken, class' c = true) ∧ ∀ c ∈ rest.head?, class' c = false := by
  induction bound generalizing input with
  | zero => exact absurd hbound (Nat.not_lt_zero _)
  | succ bound ih =>
      apply consumes_peek.look
      rintro _ rfl
      cases input with
      | nil => exact Consumes.pure ⟨nofun, nofun⟩
      | cons character rest =>
          cases hclass : class' character with
          | true =>
              simp only [List.head?_cons, Option.any_some, hclass, ↓reduceIte]
              apply consumes_advance
              apply (ih (Nat.lt_of_succ_lt_succ hbound)).weaken
              intro _ taken left _ hloop
              exact ⟨List.forall_mem_cons.mpr ⟨hclass, hloop.1⟩, hloop.2⟩
          | false =>
              simp only [List.head?_cons, Option.any_some, hclass, Bool.false_eq_true, ↓reduceIte]
              exact Consumes.pure ⟨nofun, by simpa using hclass⟩

end Characters

section Trivia

variable {source input : List Char}

theorem consumes_skipBlock {start bound : Nat} (hbound : input.length < bound)
    (hstart : start + Text.size input ≤ Text.size source) :
    Consumes (scanner source) (skipBlock source start bound) input
      fun _ taken rest => ¬['*', '/'] <:+: taken ++ ['*'] ∧ ['*', '/'] <+: rest := by
  induction bound generalizing input with
  | zero => exact absurd hbound (Nat.not_lt_zero _)
  | succ bound ih =>
      apply consumes_startsWith.look
      rintro found hfound
      cases found with
      | true =>
          refine Consumes.pure ⟨fun hinfix => ?_, hfound.mp rfl⟩
          exact absurd hinfix.length_le (by decide)
      | false =>
          have hopen : ¬['*', '/'] <+: input := fun h => nomatch hfound.mpr h
          cases input with
          | nil =>
              apply consumes_advance_end
              exact consumes_failFrom hstart
          | cons character rest =>
              rw [Text.size_cons] at hstart
              apply consumes_advance
              apply (ih (Nat.lt_of_succ_lt_succ hbound) (by omega)).weaken
              rintro _ taken left hrest ⟨hbody, hclose⟩
              refine ⟨fun hinfix => ?_, hclose⟩
              rcases List.infix_cons_iff.mp hinfix with hfront | hinfix
              · -- a marker over the boundary of `taken` would have its second half there
                obtain ⟨rfl, hslash⟩ := List.cons_prefix_cons.mp hfront
                cases taken with
                | nil => simp at hslash
                | cons second more =>
                    obtain ⟨rfl, -⟩ := List.cons_prefix_cons.mp hslash
                    exact hopen ⟨more ++ left, by rw [hrest]; rfl⟩
              · exact hbody hinfix

variable [CharacterTables]

/-- Whitespace and comments lead from a text to the rest of it. -/
inductive Skips : List Char → List Char → Prop
  | done (rest : List Char) : Skips rest rest
  | whitespace {c : Char} {text rest : List Char} (hc : CharacterTables.isWhitespace c = true)
      (h : Skips text rest) : Skips (c :: text) rest
  /-- A comment that goes up to the end of its line. -/
  | lineComment {body text rest : List Char} (hbody : '\n' ∉ body)
      (hend : ∀ c ∈ text.head?, c = '\n') (h : Skips text rest) :
      Skips ('/' :: '/' :: (body ++ text)) rest
  /-- A comment that goes up to the first closing marker. -/
  | blockComment {body text rest : List Char} (hbody : ¬['*', '/'] <:+: body ++ ['*'])
      (h : Skips text rest) : Skips ('/' :: '*' :: (body ++ '*' :: '/' :: text)) rest

theorem Skips.append_whitespace {spaces text rest : List Char} (h : Skips text rest)
    (hspaces : ∀ c ∈ spaces, CharacterTables.isWhitespace c = true) :
    Skips (spaces ++ text) rest := by
  induction spaces with
  | nil => exact h
  | cons c spaces ih =>
      obtain ⟨hc, hspaces⟩ := List.forall_mem_cons.mp hspaces
      exact .whitespace hc (ih hspaces)

/-- A line comment from its marker on, up to the end of the line. -/
theorem Skips.of_line {taken text rest : List Char} (h : Skips text rest)
    (hopen : ['/', '/'] <+: taken ++ text) (htaken : ∀ c ∈ taken, (c != '\n') = true)
    (htext : ∀ c ∈ text.head?, (c != '\n') = false) : Skips (taken ++ text) rest := by
  have hend : ∀ c ∈ text.head?, c = '\n' := fun c hc => by simpa using htext c hc
  -- neither of the two characters of the marker is the end of a line
  match taken with
  | [] =>
      obtain ⟨more, rfl⟩ := hopen
      exact absurd (hend '/' rfl) (by decide)
  | [first] =>
      obtain ⟨rfl, more, rfl⟩ := List.cons_prefix_cons.mp hopen
      exact absurd (hend '/' rfl) (by decide)
  | first :: second :: body =>
      obtain ⟨rfl, hsecond⟩ := List.cons_prefix_cons.mp hopen
      obtain ⟨rfl, -⟩ := List.cons_prefix_cons.mp hsecond
      refine .lineComment (fun hmem => ?_) hend h
      have hnewline := htaken '\n' (List.mem_cons_of_mem _ (List.mem_cons_of_mem _ hmem))
      exact absurd hnewline (by decide)

theorem Skips.of_block {taken text rest : List Char} (h : Skips text rest)
    (hbody : ¬['*', '/'] <:+: taken ++ ['*']) :
    Skips (['/', '*'] ++ (taken ++ (['*', '/'] ++ text))) rest :=
  .blockComment hbody h

theorem consumes_skipTrivia {bound : Nat} (hbound : input.length < bound) :
    Consumes (scanner source) (skipTrivia source bound) input
      fun _ _ rest => Skips input rest ∧
        ∀ c ∈ rest.head?, CharacterTables.isWhitespace c = false := by
  induction bound generalizing input with
  | zero => exact absurd hbound (Nat.not_lt_zero _)
  | succ bound ih =>
      have hspaces : Consumes (scanner source)
          (advanceWhile source CharacterTables.isWhitespace (rounds source)) input
          fun _ taken rest => (∀ c ∈ taken, CharacterTables.isWhitespace c = true) ∧
            ∀ c ∈ rest.head?, CharacterTables.isWhitespace c = false :=
        consumes_rounds fun hrounds => consumes_advanceWhile _ hrounds
      apply hspaces.bind
      rintro _ spaces text rfl ⟨hwhite, hvisible⟩
      rw [List.length_append] at hbound
      apply consumes_startsWith.look
      intro line hline
      cases line with
      | true =>
          have hopen := hline.mp rfl
          have hbody : Consumes (scanner source) (advanceWhile source (· != '\n') (rounds source))
              text fun _ taken rest => (∀ c ∈ taken, (c != '\n') = true) ∧
                ∀ c ∈ rest.head?, (c != '\n') = false :=
            consumes_rounds fun hrounds => consumes_advanceWhile _ hrounds
          apply hbody.bind
          rintro _ taken rest rfl ⟨htaken, hrest⟩
          have hlength : 0 < taken.length := by
            cases taken with
            | nil =>
                obtain ⟨more, rfl⟩ := hopen
                exact absurd (hrest '/' rfl) (by decide)
            | cons _ _ => exact Nat.succ_pos _
          rw [List.length_append] at hbound
          apply (ih (by omega)).weaken
          rintro _ _ left _ ⟨hskips, hleft⟩
          exact ⟨(hskips.of_line hopen htaken hrest).append_whitespace hwhite, hleft⟩
      | false =>
          apply consumes_startsWith.look
          intro block hblock
          cases block with
          | true =>
              obtain ⟨body, rfl⟩ := hblock.mp rfl
              apply consumes_position.look
              intro start hstart
              rw [Text.size_append] at hstart
              apply consumes_skip ['/', '*'] rfl
              have hbody : Consumes (scanner source) (skipBlock source start (rounds source)) body
                  fun _ taken rest => ¬['*', '/'] <:+: taken ++ ['*'] ∧ ['*', '/'] <+: rest :=
                consumes_rounds fun hrounds => consumes_skipBlock hrounds (by omega)
              apply hbody.bind
              rintro _ taken _ rfl ⟨htaken, rest, rfl⟩
              apply consumes_skip ['*', '/'] rfl
              simp only [List.length_append, List.length_cons, List.length_nil] at hbound
              apply (ih (by omega)).weaken
              rintro _ _ left _ ⟨hskips, hleft⟩
              exact ⟨(hskips.of_block htaken).append_whitespace hwhite, hleft⟩
          | false => exact Consumes.pure ⟨(Skips.done text).append_whitespace hwhite, hvisible⟩

end Trivia

section Strings

variable {source input : List Char} {start : Nat}

theorem consumes_hexDigits (count value : Nat)
    (hstart : start + Text.size input ≤ Text.size source) :
    Consumes (scanner source) (hexDigits source start count value) input fun _ _ _ => True := by
  induction count generalizing input value with
  | zero => exact Consumes.pure trivial
  | succ count ih =>
      cases input with
      | nil =>
          apply consumes_advance_end
          exact consumes_failFrom hstart
      | cons character rest =>
          rw [Text.size_cons] at hstart
          apply consumes_advance
          cases hdigit : hexDigit character with
          | none =>
              simp only [Option.bind_some, hdigit]
              exact consumes_failFrom (by omega)
          | some digit =>
              simp only [Option.bind_some, hdigit]
              exact ih _ (by omega)

theorem consumes_fromScalar {value : Nat} (hstart : start + Text.size input ≤ Text.size source) :
    Consumes (scanner source) (fromScalar start value) input fun _ _ _ => True := by
  rw [fromScalar]
  split
  · exact Consumes.pure trivial
  · exact consumes_failFrom hstart

theorem consumes_unicodeEscape (hstart : start + Text.size input ≤ Text.size source) :
    Consumes (scanner source) (unicodeEscape source start) input fun _ _ _ => True := by
  apply (consumes_hexDigits 4 0 hstart).bind
  rintro high taken rest rfl -
  rw [Text.size_append] at hstart
  split
  · apply consumes_startsWith.look
    intro pair hpair
    cases pair with
    | true =>
        obtain ⟨more, rfl⟩ := hpair.mp rfl
        rw [Text.size_append] at hstart
        apply consumes_skip ['\\', 'u'] rfl
        apply (consumes_hexDigits 4 0 (by omega)).bind
        rintro low _ _ rfl -
        rw [Text.size_append] at hstart
        split
        · exact consumes_fromScalar (by omega)
        · exact consumes_failFrom (by omega)
    | false => exact consumes_failFrom (by omega)
  · split
    · exact consumes_failFrom (by omega)
    · exact consumes_fromScalar (by omega)

theorem consumes_escape (escaped : Char) (hstart : start + Text.size input ≤ Text.size source) :
    Consumes (scanner source) (escape source start escaped) input fun _ _ _ => True := by
  rw [escape.eq_def]
  split
  case h_9 => exact consumes_unicodeEscape hstart
  case h_10 => exact consumes_failFrom hstart
  all_goals exact Consumes.pure trivial

variable [CharacterTables]

theorem consumes_string {bound : Nat} (value : String) (hbound : input.length < bound)
    (hstart : start + Text.size input ≤ Text.size source) :
    Consumes (scanner source) (string source start bound value) input
      fun kind _ _ => ∃ value, kind = .string value := by
  induction bound generalizing input value with
  | zero => exact absurd hbound (Nat.not_lt_zero _)
  | succ bound ih =>
      apply consumes_position.look
      intro escapeStart hescape
      cases input with
      | nil =>
          apply consumes_advance_end
          exact consumes_failFrom hstart
      | cons character rest =>
          rw [Text.size_cons] at hstart hescape
          rw [List.length_cons] at hbound
          apply consumes_advance
          split
          · rename_i hnone
            cases hnone
          · exact Consumes.pure ⟨value, rfl⟩
          · cases rest with
            | nil =>
                apply consumes_advance_end
                exact consumes_failFrom (by omega)
            | cons escaped rest =>
                rw [Text.size_cons] at hstart hescape
                rw [List.length_cons] at hbound
                apply consumes_advance
                apply (consumes_escape escaped (by omega)).bind
                rintro decoded _ left rfl -
                rw [Text.size_append] at hstart
                rw [List.length_append] at hbound
                exact ih _ (by omega) (by omega)
          · rename_i hsame
            cases hsame
            split
            · exact consumes_failFrom (by omega)
            · exact ih _ (by omega) (by omega)

end Strings

section Numbers

variable {source front input : List Char} {start : Nat}

/-- The lexer has passed the offset where a text before it begins. -/
theorem passed (text : List Char) (hsource : source = front ++ (text ++ input))
    (hstart : Text.size front = start) :
    start + Text.size input ≤ Text.size source := by
  rw [hsource, Text.size_append, Text.size_append, hstart]
  omega

theorem consumes_digits : Consumes (scanner source) (digits source) input fun _ _ _ => True :=
  consumes_rounds fun hrounds => (consumes_advanceWhile _ hrounds).weaken fun _ _ _ _ _ => trivial

theorem consumes_fraction :
    Consumes (scanner source) (fraction source) input fun _ _ _ => True := by
  apply consumes_peek.look
  rintro _ rfl
  apply consumes_peekSecond.look
  rintro _ rfl
  split
  · rename_i hpoint
    cases input with
    | nil => cases hpoint.1
    | cons point rest =>
        apply consumes_advance
        exact consumes_digits.map fun _ _ _ _ _ => trivial
  · exact Consumes.pure trivial

/-- The digits of an exponent, behind its sign. -/
theorem consumes_exponent_digits (hstart : start + Text.size input ≤ Text.size source) :
    Consumes (scanner source) (do
      let first ← peek source
      if first.any Char.isDigit then do
        digits source
        return true
      else invalidNumber start) input fun _ _ _ => True := by
  apply consumes_peek.look
  rintro _ rfl
  split
  · exact consumes_digits.map fun _ _ _ _ _ => trivial
  · exact consumes_failFrom hstart

theorem consumes_exponent (hstart : start + Text.size input ≤ Text.size source) :
    Consumes (scanner source) (exponent source start) input fun _ _ _ => True := by
  apply consumes_peek.look
  rintro _ rfl
  cases input with
  | nil => exact Consumes.pure trivial
  | cons letter rest =>
      rw [Text.size_cons] at hstart
      split
      · apply consumes_advance
        apply consumes_peek.look
        rintro _ rfl
        cases rest with
        | nil => exact consumes_exponent_digits (by omega)
        | cons sign rest =>
            rw [Text.size_cons] at hstart
            split
            · apply consumes_advance
              exact consumes_exponent_digits (by omega)
            · exact consumes_exponent_digits (by rw [Text.size_cons]; omega)
      · exact Consumes.pure trivial

variable [CharacterTables]

theorem consumes_number (text : List Char) (hsource : source = front ++ (text ++ input))
    (hstart : Text.size front = start) :
    Consumes (scanner source) (number source start) input
      fun kind _ _ => kind ≠ .eof ∧ ∀ name, kind ≠ .identifier name := by
  apply consumes_digits.bind
  rintro _ whole input rfl -
  apply consumes_fraction.bind
  rintro hasFraction decimals input rfl -
  have hpassed : source = front ++ ((text ++ (whole ++ decimals)) ++ input) := by
    rw [hsource]
    simp only [List.append_assoc]
  apply (consumes_exponent (passed _ hpassed hstart)).bind
  rintro hasExponent power input rfl -
  have htext : source = front ++ ((text ++ (whole ++ (decimals ++ power))) ++ input) := by
    rw [hsource]
    simp only [List.append_assoc]
  apply consumes_peek.look
  rintro _ rfl
  split
  · have hletters : Consumes (scanner source)
        (advanceWhile source isIdentifierContinue (rounds source)) input fun _ _ _ => True :=
      consumes_rounds fun hrounds => (consumes_advanceWhile _ hrounds).weaken
        fun _ _ _ _ _ => trivial
    apply hletters.bind
    rintro _ letters rest rfl -
    have hfailed := passed _ htext hstart
    rw [Text.size_append] at hfailed
    exact consumes_failFrom (by omega)
  · apply (consumes_textFrom _ htext hstart).look
    rintro _ rfl
    split
    · split
      · exact Consumes.pure ⟨nofun, nofun⟩
      · exact consumes_failFrom (passed _ htext hstart)
    · split
      · exact Consumes.pure ⟨nofun, nofun⟩
      · exact consumes_failFrom (passed _ htext hstart)

end Numbers

section Tokens

variable [CharacterTables] {source front input : List Char} {start : Nat}

/-- What an identifier is made of. -/
def IsIdentifier (name : String) : Prop :=
  ∃ first rest, name.toList = first :: rest ∧ isIdentifierStart first = true ∧
    ∀ c ∈ rest, isIdentifierContinue c = true

/-- A token kind other than the end, whose name is one if it has one. -/
def Lexeme (kind : TokenKind) : Prop :=
  kind ≠ .eof ∧ ∀ name, kind = .identifier name → IsIdentifier name

/-- The name is read as an identifier where it stands: it is no reserved word, and no whitespace
is skipped at its start. -/
def Reads (name : String) : Prop :=
  keyword name.toList = none ∧ ∀ c ∈ name.toList.head?, CharacterTables.isWhitespace c = false

/-- A token kind whose name, if it has one, is read as an identifier. -/
def Word (kind : TokenKind) : Prop := Lexeme kind ∧ ∀ name, kind = .identifier name → Reads name

theorem consumes_identifier {first : Char} (hsource : source = front ++ (first :: input))
    (hstart : Text.size front = start) (hfirst : isIdentifierStart first = true)
    (hvisible : CharacterTables.isWhitespace first = false) :
    Consumes (scanner source) (identifier source start) input fun kind _ _ => Word kind := by
  have hletters : Consumes (scanner source)
      (advanceWhile source isIdentifierContinue (rounds source)) input
      fun _ taken _ => ∀ c ∈ taken, isIdentifierContinue c = true :=
    consumes_rounds fun hrounds => (consumes_advanceWhile _ hrounds).weaken fun _ _ _ _ h => h.1
  apply hletters.bind
  rintro _ letters rest rfl hcontinue
  apply (consumes_textFrom (first :: letters) hsource hstart).look
  rintro _ rfl
  split
  · exact Consumes.pure ⟨⟨nofun, nofun⟩, nofun⟩
  · rename_i hunreserved
    refine Consumes.pure ⟨⟨nofun, ?_⟩, ?_⟩
    · rintro _ ⟨⟩
      exact ⟨first, letters, String.toList_ofList, hfirst, hcontinue⟩
    · rintro _ ⟨⟩
      rw [Reads, String.toList_ofList]
      refine ⟨hunreserved, fun c hc => ?_⟩
      cases hc
      exact hvisible

theorem consumes_withOptionalEqual {paired single : TokenKind} (hpaired : Word paired)
    (hsingle : Word single) :
    Consumes (scanner source) (withOptionalEqual source paired single) input
      fun kind _ _ => Word kind := by
  apply consumes_peek.look
  rintro _ rfl
  split
  · rename_i hequal
    cases input with
    | nil => cases hequal
    | cons second rest =>
        apply consumes_advance
        exact Consumes.pure hpaired
  · exact Consumes.pure hsingle

theorem consumes_token {first : Char} (hsource : source = front ++ (first :: input))
    (hstart : Text.size front = start)
    (hvisible : CharacterTables.isWhitespace first = false) :
    Consumes (scanner source) (token source start first) input fun kind _ _ => Word kind := by
  have hpassed : start + Text.size input ≤ Text.size source := passed [first] hsource hstart
  rw [token.eq_def]
  split
  case h_21 =>
    refine consumes_rounds fun hrounds => (consumes_string "" hrounds hpassed).weaken ?_
    rintro _ _ _ _ ⟨value, rfl⟩
    exact ⟨⟨nofun, nofun⟩, nofun⟩
  case h_22 =>
    split
    · apply (consumes_number [first] hsource hstart).weaken
      rintro kind _ _ _ ⟨hend, hname⟩
      exact ⟨⟨hend, fun name h => absurd h (hname name)⟩, fun name h => absurd h (hname name)⟩
    · split
      · exact consumes_identifier hsource hstart (by assumption) hvisible
      · exact consumes_failFrom hpassed
  case h_17 | h_18 | h_19 | h_20 =>
    exact consumes_withOptionalEqual ⟨⟨nofun, nofun⟩, nofun⟩ ⟨⟨nofun, nofun⟩, nofun⟩
  all_goals exact Consumes.pure ⟨⟨nofun, nofun⟩, nofun⟩

/-- The tokens follow one another from an offset on, with nothing but whitespace and comments
before each, and the end token stands at the end of the source. -/
inductive Tiles (source : List Char) : Nat → List Token → Prop
  | eof {start : Nat} {gap : List Char} (hgap : Text.sliceFrom source start = some gap)
      (htrivia : Skips gap []) :
      Tiles source start [⟨.eof, ⟨Text.size source, Text.size source⟩⟩]
  | token {start : Nat} {gap text : List Char} {token : Token} {tokens : List Token}
      (hkind : token.kind ≠ .eof) (hgap : Text.sliceFrom source start = some gap)
      (htext : Text.sliceFrom source token.span.start = some text) (htrivia : Skips gap text)
      (hstart : start ≤ token.span.start) (hspan : token.span.start < token.span.stop)
      (hrest : Tiles source token.span.stop tokens) : Tiles source start (token :: tokens)

/-- A token and what is skipped before it stand in front of the tokens behind it. -/
theorem Tiles.cons {spaces body text : List Char} {first : Char} {kind : TokenKind}
    {tokens : List Token}
    (htiles : Tiles source (Text.size (front ++ (spaces ++ (first :: body)))) tokens)
    (hkind : kind ≠ .eof) (hgap : Text.sliceFrom source (Text.size front) = some input)
    (htext : Text.sliceFrom source (Text.size (front ++ spaces)) = some text)
    (hskips : Skips input text) :
    Tiles source (Text.size front)
      (⟨kind, ⟨Text.size (front ++ spaces), Text.size (front ++ (spaces ++ (first :: body)))⟩⟩ ::
        tokens) := by
  have hpositive := first.utf8Size_pos
  refine .token hkind hgap htext hskips ?_ ?_ htiles
  · rw [Text.size_append]
    exact Nat.le_add_right _ _
  · simp only [Text.size_append, Text.size_cons]
    omega

/-- Every identifier among the tokens is one. -/
def Named (tokens : List Token) : Prop :=
  ∀ token ∈ tokens, ∀ name, token.kind = .identifier name → IsIdentifier name

/-- Every identifier among the tokens is read as one. -/
def Words (tokens : List Token) : Prop :=
  ∀ token ∈ tokens, ∀ name, token.kind = .identifier name → Reads name

theorem consumes_tokenize {bound : Nat} (tokens : List Token) (hbound : input.length < bound)
    (hsource : source = front ++ input) :
    Consumes (scanner source) (tokenize source bound tokens) input fun found _ rest =>
      rest = [] ∧ ∃ more, found = tokens ++ more ∧ Tiles source (Text.size front) more ∧
        Named more ∧ Words more := by
  induction bound generalizing input front tokens with
  | zero => exact absurd hbound (Nat.not_lt_zero _)
  | succ bound ih =>
      have hgap : Text.sliceFrom source (Text.size front) = some input := by
        rw [hsource, Text.sliceFrom_size]
      have htrivia : Consumes (scanner source) (skipTrivia source (rounds source)) input
          fun _ _ rest => Skips input rest ∧
            ∀ c ∈ rest.head?, CharacterTables.isWhitespace c = false :=
        consumes_rounds fun hrounds => consumes_skipTrivia hrounds
      apply htrivia.bind
      rintro _ spaces text rfl ⟨hskips, hvisible⟩
      apply consumes_position.look
      intro start hposition
      have hstart : Text.size (front ++ spaces) = start := by
        simp only [hsource, Text.size_append] at hposition ⊢
        omega
      cases text with
      | nil =>
          apply consumes_advance_end
          refine Consumes.pure ⟨rfl, _, rfl, ?_, ?_, ?_⟩
          · obtain rfl : start = Text.size source := hposition
            exact .eof hgap hskips
          all_goals
            intro token htoken name hname
            cases List.mem_singleton.mp htoken
            cases hname
      | cons first text =>
          have hfirst : source = (front ++ spaces) ++ (first :: text) := by
            rw [hsource, List.append_assoc]
          apply consumes_advance
          apply (consumes_token hfirst hstart (hvisible first rfl)).bind
          rintro kind body rest rfl ⟨⟨hend, hname⟩, hreads⟩
          apply consumes_position.look
          intro stop hstop
          have hlast : source = (front ++ (spaces ++ (first :: body))) ++ rest := by
            rw [hfirst]
            simp only [List.append_assoc, List.cons_append]
          have hsize : Text.size (front ++ (spaces ++ (first :: body))) = stop := by
            have htotal := congrArg Text.size hlast
            rw [Text.size_append] at htotal
            omega
          have hrounds : rest.length < bound := by
            simp only [List.length_append, List.length_cons] at hbound
            omega
          apply (ih (tokens ++ [Token.mk kind ⟨start, stop⟩]) hrounds hlast).weaken
          rintro _ _ _ _ ⟨rfl, more, rfl, htiles, hnamed, hwords⟩
          refine ⟨rfl, ⟨kind, ⟨start, stop⟩⟩ :: more, by simp, ?_, ?_, ?_⟩
          · have htext : Text.sliceFrom source (Text.size (front ++ spaces)) =
                some (first :: (body ++ rest)) := by
              rw [hfirst, Text.sliceFrom_size]
            rw [← hstart, ← hsize]
            exact htiles.cons hend hgap htext hskips
          · exact List.forall_mem_cons.mpr ⟨hname, hnamed⟩
          · exact List.forall_mem_cons.mpr ⟨hreads, hwords⟩

end Tokens

end Lexer

section Lex

variable [CharacterTables] (source : String)

/-- The lexer ends on a boundary of characters, with tokens that tile the source or with an error
inside it. -/
theorem runLexer_ends : Action.Ends
    (Lexer.tokenize source.toList (Lexer.rounds source.toList) []) 0
    (fun tokens position => (∃ rest, Text.sliceFrom source.toList position = some rest) ∧
      Lexer.Tiles source.toList 0 tokens ∧ Lexer.Named tokens ∧ Lexer.Words tokens)
    (fun fault position => (∃ rest, Text.sliceFrom source.toList position = some rest) ∧
      ∃ cause, fault = .error cause ∧ cause.span.Within source.utf8ByteSize) := by
  have hboundary : ∀ {rest : List Char} {position : Nat},
      (scanner source.toList).Shows position rest →
        ∃ rest, Text.sliceFrom source.toList position = some rest := by
    rintro rest _ ⟨front, hsource, rfl⟩
    exact ⟨rest, by rw [hsource, Text.sliceFrom_size]⟩
  have htokens := Lexer.consumes_tokenize [] (Nat.lt_succ_self source.toList.length)
    (List.nil_append source.toList).symm
  refine (htokens 0 ⟨[], rfl, rfl⟩).weaken ?_ ?_
  · rintro tokens position ⟨_, rest, -, hshows, -, more, rfl, htiles, hnamed, hwords⟩
    exact ⟨hboundary hshows, htiles, hnamed, hwords⟩
  · rintro fault position ⟨⟨cause, hfault, hspan⟩, rest, -, hshows⟩
    exact ⟨hboundary hshows, cause, hfault, Text.size_toList source ▸ hspan⟩

end Lex

end NovaBase.NovaQl
