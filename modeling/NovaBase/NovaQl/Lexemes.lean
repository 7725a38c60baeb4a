import NovaBase.NovaQl.Scanning

/-!
# Texts that are read as they stand

Runs of the lexer on texts of brackets and words with nothing between them. A
text is read as a list of kinds from wherever it ends the source.
-/

namespace NovaBase.NovaQl

open Lib

namespace Lexer

section Characters

variable {source input : List Char} {position : Nat}

theorem remaining_eq (h : (scanner source).Shows position input) :
    remaining source position = (.ok input, position) := by
  obtain ⟨front, rfl, rfl⟩ := h
  simp only [remaining, Action.reads_apply, Text.sliceFrom_size]

theorem peek_eq (h : (scanner source).Shows position input) :
    peek source position = (.ok input.head?, position) :=
  Action.bind_of_ok (remaining_eq h)

theorem startsWith_eq {opening : List Char} (h : (scanner source).Shows position input) :
    startsWith source opening position = (.ok (opening.isPrefixOf input), position) :=
  Action.bind_of_ok (remaining_eq h)

/-- Behind a front of the input, the lexer stands before the rest of it. -/
theorem shows_append (front : List Char) {rest : List Char}
    (h : (scanner source).Shows position (front ++ rest)) :
    (scanner source).Shows (position + Text.size front) rest := by
  obtain ⟨before, rfl, rfl⟩ := h
  exact ⟨before ++ front, (List.append_assoc ..).symm, Text.size_append ..⟩

theorem advance_eq {character : Char} {rest : List Char}
    (h : (scanner source).Shows position (character :: rest)) :
    advance source position = (.ok (some character), position + character.utf8Size) :=
  Action.bind_of_ok (peek_eq h)

theorem advance_end_eq (h : (scanner source).Shows position []) :
    advance source position = (.ok none, position) :=
  Action.bind_of_ok (peek_eq h)

theorem advanceWhile_eq (taken : List Char) {class' : Char → Bool} {rest : List Char} {bound : Nat}
    (h : (scanner source).Shows position (taken ++ rest)) (hbound : taken.length < bound)
    (htaken : ∀ c ∈ taken, class' c = true) (hrest : ∀ c ∈ rest.head?, class' c = false) :
    advanceWhile source class' bound position = (.ok (), position + Text.size taken) := by
  induction taken generalizing bound position with
  | nil =>
      obtain ⟨bound, rfl⟩ := Nat.exists_eq_add_of_lt hbound
      refine (Action.bind_of_ok (peek_eq h)).trans ?_
      cases rest with
      | nil => rfl
      | cons c rest =>
          simp only [List.nil_append, List.head?_cons, Option.any_some, hrest c rfl,
            Bool.false_eq_true, ↓reduceIte]
          rfl
  | cons c taken ih =>
      obtain ⟨bound, rfl⟩ : ∃ n, bound = n + 1 := Nat.exists_eq_succ_of_ne_zero (by omega)
      obtain ⟨hc, htaken⟩ := List.forall_mem_cons.mp htaken
      have hrest' := shows_append [c] h
      have hloop := ih hrest' (Nat.lt_of_succ_lt_succ hbound) htaken
      refine (Action.bind_of_ok (peek_eq h)).trans ?_
      simp only [List.cons_append, List.head?_cons, Option.any_some, hc, ↓reduceIte]
      refine (Action.bind_of_ok (advance_eq h)).trans ?_
      rw [Text.size_cons, ← Nat.add_assoc]
      simpa using hloop

end Characters

section Tokens

variable [CharacterTables] {source : List Char}

/-- A character before which the lexer finds nothing to skip. -/
def Solid (character : Char) : Prop :=
  CharacterTables.isWhitespace character = false ∧ character ≠ '/'

/-- Spaces are skipped, up to a character before which there is nothing to skip. -/
theorem skipTrivia_spaces (count bound : Nat) {input : List Char} {position : Nat}
    (h : (scanner source).Shows position (List.replicate count ' ' ++ input))
    (hsolid : ∀ c ∈ input.head?, Solid c) :
    skipTrivia source (bound + 1) position = (.ok (), position + count) := by
  have hspace : ∀ c ∈ List.replicate count ' ', CharacterTables.isWhitespace c = true := by
    intro c hc
    rw [List.eq_of_mem_replicate hc, CharacterTables.whitespace_ascii ' ' (by decide)]
    decide
  have hlength : (List.replicate count ' ').length < rounds source := by
    obtain ⟨front, rfl, -⟩ := h
    simp only [rounds, List.length_append]
    omega
  have hsize : Text.size (List.replicate count ' ') = count := by
    have hone : ' '.utf8Size = 1 := by decide
    simp [Text.size, hone]
  have hspaces := advanceWhile_eq _ h hlength hspace fun c hc => (hsolid c hc).1
  have hbehind := shows_append _ h
  rw [hsize] at hspaces hbehind
  have hslash : ∀ second, List.isPrefixOf ['/', second] input = false := by
    intro second
    cases input with
    | nil => rfl
    | cons c rest =>
        have hne : c ≠ '/' := (hsolid c rfl).2
        simp [List.isPrefixOf, hne.symm]
  refine (Action.bind_of_ok hspaces).trans ?_
  refine (Action.bind_of_ok (startsWith_eq hbehind)).trans ?_
  simp only [hslash, Bool.false_eq_true, ↓reduceIte]
  refine (Action.bind_of_ok (startsWith_eq hbehind)).trans ?_
  simp only [hslash, Bool.false_eq_true, ↓reduceIte]
  rfl

theorem skipTrivia_eq (bound : Nat) {input : List Char} {position : Nat}
    (h : (scanner source).Shows position input) (hsolid : ∀ c ∈ input.head?, Solid c) :
    skipTrivia source (bound + 1) position = (.ok (), position) :=
  skipTrivia_spaces 0 bound h hsolid

/-- A token is taken and the lexer goes on behind it. -/
theorem tokenize_token (body : List Char) {first : Char} {rest : List Char} {kind : TokenKind}
    (bound : Nat) (tokens : List Token) {position : Nat} (hsolid : Solid first)
    (htoken : token source position first (position + first.utf8Size) =
      (.ok kind, position + Text.size (first :: body)))
    (h : (scanner source).Shows position (first :: (body ++ rest))) :
    tokenize source (bound + 1) tokens position =
      tokenize source bound (tokens ++ [⟨kind, ⟨position, position + Text.size (first :: body)⟩⟩])
        (position + Text.size (first :: body)) := by
  have htrivia := skipTrivia_eq source.length h fun c hc => by
    cases hc
    exact hsolid
  refine (Action.bind_of_ok htrivia).trans ?_
  refine (Action.bind_of_ok (advance_eq h)).trans ?_
  exact Action.bind_of_ok htoken

/-- A space before the next token makes no difference to the tokens. -/
theorem tokenize_space (bound : Nat) (tokens : List Token) {input : List Char} {position : Nat}
    (h : (scanner source).Shows position (' ' :: input)) (hsolid : ∀ c ∈ input.head?, Solid c) :
    tokenize source (bound + 1) tokens position =
      tokenize source (bound + 1) tokens (position + 1) := by
  have hbehind : (scanner source).Shows (position + 1) input := shows_append [' '] h
  have hskip := skipTrivia_spaces 1 source.length h hsolid
  have hnothing := skipTrivia_eq source.length hbehind hsolid
  refine (Action.bind_of_ok hskip).trans (Eq.symm ?_)
  exact Action.bind_of_ok hnothing

/-- From the text on the lexer takes tokens of these kinds and goes on with the rest. -/
def Takes (source text : List Char) (kinds : List TokenKind) (rest : List Char) : Prop :=
  ∀ position bound tokens, (scanner source).Shows position text → text.length < bound →
    ∃ taken stop left, (scanner source).Shows stop rest ∧ rest.length < left ∧
      taken.map Token.kind = kinds ∧
      tokenize source bound tokens position = tokenize source left (tokens ++ taken) stop

/-- Where the text ends the source it is read as tokens of these kinds. -/
def ReadAs (source text : List Char) (kinds : List TokenKind) : Prop :=
  ∀ position bound tokens, (scanner source).Shows position text → text.length < bound →
    ∃ more stop, tokenize source bound tokens position = (.ok (tokens ++ more), stop) ∧
      more.map Token.kind = kinds

theorem readAs_nil : ReadAs source [] [.eof] := by
  intro position bound tokens hshows hbound
  obtain ⟨bound, rfl⟩ := Nat.exists_eq_add_of_lt hbound
  refine ⟨[⟨.eof, ⟨position, position⟩⟩], position, ?_, rfl⟩
  refine (Action.bind_of_ok (skipTrivia_eq _ hshows nofun)).trans ?_
  exact Action.bind_of_ok (advance_end_eq hshows)

variable {first : Char} {body text middle rest : List Char} {kind : TokenKind}
  {kinds later : List TokenKind}

theorem Takes.trans (hfirst : Takes source text kinds middle)
    (hsecond : Takes source middle later rest) : Takes source text (kinds ++ later) rest := by
  intro position bound tokens hshows hbound
  obtain ⟨taken, after, left, hafter, hleft, hkinds, hrun⟩ := hfirst _ _ tokens hshows hbound
  obtain ⟨more, stop, last, hstop, hlast, hlater, hrest⟩ :=
    hsecond _ _ (tokens ++ taken) hafter hleft
  refine ⟨taken ++ more, stop, last, hstop, hlast, ?_, ?_⟩
  · rw [List.map_append, hkinds, hlater]
  · rw [hrun, hrest, List.append_assoc]

theorem Takes.readAs (htext : Takes source text kinds rest) (hrest : ReadAs source rest later) :
    ReadAs source text (kinds ++ later) := by
  intro position bound tokens hshows hbound
  obtain ⟨taken, after, left, hafter, hleft, hkinds, hrun⟩ := htext _ _ tokens hshows hbound
  obtain ⟨more, stop, hmore, hlater⟩ := hrest _ _ (tokens ++ taken) hafter hleft
  refine ⟨taken ++ more, stop, ?_, ?_⟩
  · rw [hrun, hmore, List.append_assoc]
  · rw [List.map_append, hkinds, hlater]

/-- The tokens of a source begin with those that are taken first. -/
theorem Takes.lex_eq (htext : Takes text text kinds rest) {tokens : List Token}
    (h : lex (String.ofList text) = .ok tokens) :
    ∃ taken more, tokens = taken ++ more ∧ taken.map Token.kind = kinds := by
  obtain ⟨taken, stop, left, ⟨front, hsource, hstop⟩, hleft, hkinds, hrun⟩ :=
    htext 0 (rounds text) [] ⟨[], rfl, rfl⟩ (Nat.lt_succ_self _)
  have hlexed : (tokenize text left taken stop).1 = .ok tokens := by
    rw [lex, runLexer, String.toList_ofList, hrun] at h
    exact h
  have hends := consumes_tokenize taken hleft hsource stop ⟨front, hsource, hstop⟩
  obtain ⟨-, -, -, -, -, more, hfound, -⟩ := hends.of_ok (Prod.ext hlexed rfl)
  exact ⟨taken, more, hfound, hkinds⟩

/-- A token and the text behind it. -/
theorem Takes.token (body : List Char) (hsolid : Solid first)
    (htoken : ∀ position, (scanner source).Shows position (first :: (body ++ rest)) →
      Lexer.token source position first (position + first.utf8Size) =
        (.ok kind, position + Text.size (first :: body))) :
    Takes source (first :: (body ++ rest)) [kind] rest := by
  intro position bound tokens hshows hbound
  obtain ⟨bound, rfl⟩ := Nat.exists_eq_add_of_lt hbound
  have hbehind : (scanner source).Shows (position + Text.size (first :: body)) rest :=
    shows_append (first :: body) hshows
  refine ⟨[⟨kind, ⟨position, position + Text.size (first :: body)⟩⟩], _, _, hbehind, ?_, rfl,
    tokenize_token body _ tokens hsolid (htoken position hshows) hshows⟩
  simp only [List.length_cons, List.length_append]
  omega

/-- A space is passed without a token. -/
theorem Takes.space (hsolid : ∀ c ∈ rest.head?, Solid c) : Takes source (' ' :: rest) [] rest := by
  intro position bound tokens hshows hbound
  obtain ⟨bound, rfl⟩ := Nat.exists_eq_add_of_lt hbound
  have hbehind : (scanner source).Shows (position + 1) rest := shows_append [' '] hshows
  refine ⟨[], position + 1, (' ' :: rest).length + bound + 1, hbehind, Nat.lt_of_succ_lt hbound,
    rfl, ?_⟩
  rw [List.append_nil]
  exact tokenize_space _ tokens hshows hsolid

/-- A character that is a token of its own. -/
theorem Takes.punctuation (hsolid : Solid first)
    (htoken : ∀ start, Lexer.token source start first = pure kind) :
    Takes source (first :: rest) [kind] rest := by
  apply Takes.token [] hsolid
  intro position _
  rw [htoken, Action.pure_apply]
  simp

theorem ReadAs.punctuation (hsolid : Solid first)
    (htoken : ∀ start, token source start first = pure kind) (hrest : ReadAs source rest kinds) :
    ReadAs source (first :: rest) (kind :: kinds) :=
  (Takes.punctuation hsolid htoken).readAs hrest

/-- What a word is a token of. -/
def wordKind (word : List Char) : TokenKind :=
  match keyword word with
  | some keyword => .keyword keyword
  | none => .identifier (String.ofList word)

theorem Takes.word (hsolid : Solid first)
    (htoken : ∀ start, Lexer.token source start first = identifier source start)
    (hbody : ∀ c ∈ body, isIdentifierContinue c = true)
    (hnext : ∀ c ∈ rest.head?, isIdentifierContinue c = false) :
    Takes source (first :: (body ++ rest)) [wordKind (first :: body)] rest := by
  apply Takes.token body hsolid
  intro position hshows
  rw [htoken]
  have hbehind : (scanner source).Shows (position + first.utf8Size) (body ++ rest) := by
    have h := shows_append [first] hshows
    simpa using h
  have hlength : body.length < rounds source := by
    obtain ⟨front, rfl, -⟩ := hshows
    simp only [rounds, List.length_append, List.length_cons]
    omega
  have hletters := advanceWhile_eq _ hbehind hlength hbody hnext
  have hsize : position + first.utf8Size + Text.size body =
      position + Text.size (first :: body) := by
    rw [Text.size_cons, Nat.add_assoc]
  have htext : textFrom source position (position + Text.size (first :: body)) =
      (.ok (first :: body), position + Text.size (first :: body)) := by
    obtain ⟨front, rfl, rfl⟩ := hshows
    have hslice := Text.slice_size front (first :: body) rest
    rw [List.cons_append] at hslice
    simp only [textFrom, Action.reads_apply, hslice]
  rw [hsize] at hletters
  refine (Action.bind_of_ok hletters).trans ?_
  refine (Action.bind_of_ok htext).trans ?_
  rw [wordKind]
  cases keyword (first :: body) <;> rfl

theorem ReadAs.word (hsolid : Solid first)
    (htoken : ∀ start, token source start first = identifier source start)
    (hbody : ∀ c ∈ body, isIdentifierContinue c = true)
    (hnext : ∀ c ∈ rest.head?, isIdentifierContinue c = false) (hrest : ReadAs source rest kinds) :
    ReadAs source (first :: (body ++ rest)) (wordKind (first :: body) :: kinds) :=
  (Takes.word hsolid htoken hbody hnext).readAs hrest

/-- What is read as tokens is lexed to them. -/
theorem lex_of_readAs {text : List Char} (h : ReadAs text text kinds) :
    ∃ tokens, lex (String.ofList text) = .ok tokens ∧ tokens.map Token.kind = kinds := by
  obtain ⟨more, stop, hrun, hkinds⟩ := h 0 (rounds text) [] ⟨[], rfl, rfl⟩ (Nat.lt_succ_self _)
  refine ⟨more, ?_, hkinds⟩
  rw [lex, runLexer, String.toList_ofList, hrun]
  rfl

end Tokens

section Ascii

variable [CharacterTables]

theorem isIdentifierStart_ascii {c : Char} (hc : c.toNat < 128) :
    isIdentifierStart c = (c = '_' || c.isAlpha) := by
  rw [isIdentifierStart, CharacterTables.alphabetic_ascii c hc]

theorem isIdentifierContinue_ascii {c : Char} (hc : c.toNat < 128) :
    isIdentifierContinue c = (c = '_' || (c.isAlpha || c.isDigit)) := by
  have hlarge : ¬128 ≤ c.toNat := Nat.not_le.mpr hc
  rw [isIdentifierContinue, isAlphanumeric, CharacterTables.alphabetic_ascii c hc,
    CharacterTables.numeric_ascii c hc]
  simp [hlarge]

theorem solid_ascii {c : Char} (hc : c.toNat < 128) (hspace : isAsciiWhitespace c = false)
    (hslash : c ≠ '/') : Solid c :=
  ⟨(CharacterTables.whitespace_ascii c hc).trans hspace, hslash⟩

end Ascii

section Paths

/-- The text of a path behind its first segment. -/
def segmentsText (segments : List String) : List Char :=
  segments.flatMap fun segment => '.' :: segment.toList

theorem toList_joinDots (first : String) (segments : List String) :
    (joinDots (first :: segments)).toList = first.toList ++ segmentsText segments := by
  induction segments generalizing first with
  | nil => simp [joinDots, segmentsText]
  | cons second rest ih =>
      have hjoin : joinDots (first :: second :: rest) =
          first ++ "." ++ joinDots (second :: rest) := by
        simp [joinDots, String.intercalate_cons_cons]
      rw [hjoin, String.toList_append, String.toList_append, ih, segmentsText, segmentsText,
        List.flatMap_cons]
      simp

end Paths

section Names

variable [CharacterTables] {source rest : List Char} {first : Char} {word : String}

theorem isIdentifierStart_eq_false (hascii : first.toNat < 128)
    (h : (first = '_' || first.isAlpha) = false) : isIdentifierStart first = false := by
  rw [isIdentifierStart_ascii hascii, h]

/-- Identifiers begin with characters that begin nothing else. -/
theorem token_of_start (h : isIdentifierStart first = true) (start : Nat) :
    token source start first = identifier source start := by
  have hother : ∀ c : Char, c.toNat < 128 → (c = '_' || c.isAlpha) = false → first ≠ c := by
    rintro c hascii hc rfl
    rw [isIdentifierStart_eq_false hascii hc] at h
    cases h
  have hdigit : first.isDigit = false := by
    by_contra hdigit
    have hrange := isDigit_iff.mp (Bool.eq_true_of_not_eq_false hdigit)
    refine hother first (by omega) ?_ rfl
    have hne : first ≠ '_' := by
      rintro rfl
      exact absurd hrange.2 (by decide)
    have halpha : first.isAlpha ≠ true := by
      rw [ne_eq, isAlpha_iff]
      omega
    simp [hne, halpha]
  rw [token.eq_def]
  split
  case h_22 =>
    rw [hdigit, if_neg Bool.false_ne_true, if_pos h]
  all_goals exact absurd rfl (hother _ (by decide) (by decide))

theorem solid_of_start (h : isIdentifierStart first = true)
    (hvisible : CharacterTables.isWhitespace first = false) : Solid first := by
  refine ⟨hvisible, ?_⟩
  rintro rfl
  rw [isIdentifierStart_eq_false (by decide) (by decide)] at h
  cases h

/-- A name that is read as an identifier begins no trivia. -/
theorem solid_name (hname : IsIdentifier word) (hreads : Reads word) :
    ∀ c ∈ (word.toList ++ rest).head?, Solid c := by
  obtain ⟨first, letters, htext, hfirst, -⟩ := hname
  have hvisible := hreads.2
  rw [htext] at hvisible ⊢
  rintro _ ⟨⟩
  exact solid_of_start hfirst (hvisible first rfl)

/-- A name that is read as an identifier where no more of one follows. -/
theorem Takes.name (hname : IsIdentifier word) (hreads : Reads word)
    (hnext : ∀ c ∈ rest.head?, isIdentifierContinue c = false) :
    Takes source (word.toList ++ rest) [.identifier word] rest := by
  obtain ⟨first, letters, htext, hfirst, hletters⟩ := hname
  obtain ⟨hkeyword, hvisible⟩ := hreads
  have hkind : wordKind (first :: letters) = .identifier word := by
    rw [← htext, wordKind, hkeyword, String.ofList_toList]
  rw [htext] at hvisible ⊢
  rw [← hkind]
  exact Takes.word (solid_of_start hfirst (hvisible first rfl))
    (token_of_start hfirst) hletters hnext

/-- A dot and a name behind it. -/
theorem Takes.segment (hname : IsIdentifier word) (hreads : Reads word)
    (hnext : ∀ c ∈ rest.head?, isIdentifierContinue c = false) :
    Takes source ('.' :: (word.toList ++ rest)) [.dot, .identifier word] rest := by
  have hdot : Solid '.' := solid_ascii (by decide) (by decide) (by decide)
  exact (Takes.punctuation hdot fun _ => rfl).trans (Takes.name hname hreads hnext)

end Names

end Lexer

end NovaBase.NovaQl
