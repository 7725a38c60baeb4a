import NovaBase.NovaQl.Lexemes
import NovaBase.NovaQl.Nesting

/-!
# The command that creates an index

The command is written with one space between its words. Where its collection and
its path are made of names it is parsed as written; where it is parsed at all, its
name is the one that was written.
-/

namespace NovaBase.NovaQl

open Lib

/-- The command that creates an index on one path. -/
def createIndexText (name collection path : String) : String :=
  "create index " ++ name ++ " on " ++ collection ++ " (" ++ path ++ ")"

namespace Lexer

variable [CharacterTables] {source rest : List Char} {name : String}

/-- A reserved word, in ASCII letters. -/
theorem Takes.reserved (first : Char) (body : List Char) {word : Keyword}
    (hword : keyword (first :: body) = some word)
    (hletters : ((first :: body).all fun c => c.toNat < 128 && c.isAlpha) = true)
    (hnext : ∀ c ∈ rest.head?, isIdentifierContinue c = false) :
    Takes source (first :: (body ++ rest)) [.keyword word] rest := by
  have hletter : ∀ c ∈ first :: body, c.toNat < 128 ∧ c.isAlpha = true := by
    intro c hc
    simpa using List.all_eq_true.mp hletters c hc
  obtain ⟨⟨hascii, halpha⟩, hbody⟩ := List.forall_mem_cons.mp hletter
  have hstart : isIdentifierStart first = true := by
    rw [isIdentifierStart_ascii hascii, halpha, Bool.or_true]
  have hcontinue : ∀ c ∈ body, isIdentifierContinue c = true := by
    intro c hc
    obtain ⟨hascii, halpha⟩ := hbody c hc
    rw [isIdentifierContinue_ascii hascii]
    simp [halpha]
  have hspace := isAsciiWhitespace_of_isAlpha halpha
  have hsolid := solid_of_start hstart
    ((CharacterTables.whitespace_ascii first hascii).trans hspace)
  have hkind : wordKind (first :: body) = .keyword word := by
    rw [wordKind, hword]
  exact hkind ▸ Takes.word hsolid (token_of_start hstart) hcontinue hnext

end Lexer

section Opening

variable {name : String} {rest last : List Token} {create index title on : Span} {query : Query}

/-- The tokens of a command that creates an index, up to the collection. -/
def openingTokens (name : String) (create index title on : Span) : List Token :=
  [⟨.keyword .create, create⟩, ⟨.keyword .index, index⟩, ⟨.identifier name, title⟩,
    ⟨.keyword .on, on⟩]

theorem openingTokens_of_kinds {tokens : List Token} (h : tokens.map Token.kind =
    [.keyword .create, .keyword .index, .identifier name, .keyword .on]) :
    ∃ create index title on, tokens = openingTokens name create index title on := by
  obtain ⟨⟨_, create⟩, tokens, rfl, rfl, hindex⟩ := List.map_eq_cons_iff.mp h
  obtain ⟨⟨_, index⟩, tokens, rfl, rfl, htitle⟩ := List.map_eq_cons_iff.mp hindex
  obtain ⟨⟨_, title⟩, tokens, rfl, rfl, hon⟩ := List.map_eq_cons_iff.mp htitle
  obtain ⟨⟨_, on⟩, rfl, rfl⟩ := List.map_eq_singleton_iff.mp hon
  exact ⟨create, index, title, on, rfl⟩

theorem parseCreate_opening {command : Command}
    (h : parseCreate (openingTokens name create index title on ++ rest) = (.ok command, last)) :
    ∃ collection fields, command = .createIndex name collection fields := by
  have hrun : parseCreate (openingTokens name create index title on ++ rest) =
      (do
        let collection ← expectIdentifier "indexed collection name"
        let _ ← expectSimple .leftParen "`(` before indexed fields"
        let fields ← parsePathList
        let _ ← expectSimple .rightParen "`)` after indexed fields"
        return .createIndex name collection fields : Parser Command) rest := rfl
  rw [hrun] at h
  obtain ⟨collection, _, -, h⟩ := Action.bind_eq_ok.mp h
  obtain ⟨_, _, -, h⟩ := Action.bind_eq_ok.mp h
  obtain ⟨fields, _, -, h⟩ := Action.bind_eq_ok.mp h
  obtain ⟨_, _, -, h⟩ := Action.bind_eq_ok.mp h
  obtain ⟨hcommand, -⟩ := Prod.mk.inj h
  exact ⟨collection, fields, (Except.ok.inj hcommand).symm⟩

/-- What is parsed from such tokens creates an index of that name. -/
theorem parseQuery_opening
    (h : parseQuery (openingTokens name create index title on ++ rest) = (.ok query, last)) :
    query.explain = false ∧
      ∃ collection fields, query.command = .createIndex name collection fields := by
  obtain ⟨bound, _, hrounds, h⟩ := Action.bind_eq_ok.mp h
  obtain ⟨-, rfl⟩ := Prod.mk.inj hrounds
  obtain ⟨first, _, hfirst, h⟩ := Action.bind_eq_ok.mp h
  obtain ⟨-, rfl⟩ := Prod.mk.inj hfirst
  have hexplain : consumeKeyword .explain (openingTokens name create index title on ++ rest) =
      (.ok false, openingTokens name create index title on ++ rest) := rfl
  rw [Action.bind_of_ok hexplain] at h
  obtain ⟨⟨command, filters⟩, _, hcommand, h⟩ := Action.bind_eq_ok.mp h
  have hcreate : parseCommand (4 * bound) (openingTokens name create index title on ++ rest) =
      (do
        let command ← parseCreate
        return (command, []) : Parser (Command × List Stage))
        (openingTokens name create index title on ++ rest) := rfl
  rw [hcreate] at hcommand
  obtain ⟨created, _, hcreated, hreturn⟩ := Action.bind_eq_ok.mp hcommand
  obtain rfl : created = command :=
    (Prod.mk.inj (Except.ok.inj (Prod.mk.inj hreturn).1)).1
  obtain ⟨rounds, _, -, h⟩ := Action.bind_eq_ok.mp h
  obtain ⟨stages, _, -, h⟩ := Action.bind_eq_ok.mp h
  obtain ⟨collection, fields, rfl⟩ := parseCreate_opening hcreated
  have hfails : ∀ {message : Message} {tokens : List Token},
      error message tokens ≠ (.ok query, last) := by
    intro message tokens herror
    obtain ⟨token, _, -, hat⟩ := Action.bind_eq_ok.mp herror
    cases hat
  split at h
  · exact absurd h hfails
  split at h
  · exact absurd h hfails
  obtain ⟨_, _, -, h⟩ := Action.bind_eq_ok.mp h
  obtain ⟨_, _, -, h⟩ := Action.bind_eq_ok.mp h
  obtain ⟨_, _, -, h⟩ := Action.bind_eq_ok.mp h
  obtain ⟨hquery, -⟩ := Prod.mk.inj h
  obtain rfl := Except.ok.inj hquery
  exact ⟨rfl, collection, fields, rfl⟩

end Opening

section Texts

variable [CharacterTables] {source rest : List Char} {name collection : String}
  {first : String} {segments : List String}

theorem isIdentifierContinue_eq_false {c : Char} (h : c = ' ' ∨ c = '.' ∨ c = ')') :
    Lexer.isIdentifierContinue c = false := by
  rcases h with rfl | rfl | rfl <;> rw [Lexer.isIdentifierContinue_ascii (by decide)] <;> decide

theorem ends_of_head {c : Char} (h : c = ' ' ∨ c = '.' ∨ c = ')') :
    ∀ next ∈ (c :: rest).head?, Lexer.isIdentifierContinue next = false := by
  rintro _ ⟨⟩
  exact isIdentifierContinue_eq_false h

theorem solid_of_head {c : Char} (h : Lexer.Solid c) :
    ∀ next ∈ (c :: rest).head?, Lexer.Solid next := by
  rintro _ ⟨⟩
  exact h

/-- The text up to the collection, and the text behind it. -/
def openingText (name : String) (rest : List Char) : List Char :=
  'c' :: (['r', 'e', 'a', 't', 'e'] ++ ' ' :: 'i' :: (['n', 'd', 'e', 'x'] ++
    ' ' :: (name.toList ++ ' ' :: 'o' :: (['n'] ++ rest))))

theorem takes_openingText (hname : IsName name)
    (hnext : ∀ c ∈ rest.head?, Lexer.isIdentifierContinue c = false) :
    Lexer.Takes source (openingText name rest)
      [.keyword .create, .keyword .index, .identifier name, .keyword .on] rest := by
  have hletter : ∀ c, c = 'i' ∨ c = 'o' → Lexer.Solid c := by
    rintro c (rfl | rfl) <;> exact Lexer.solid_ascii (by decide) (by decide) (by decide)
  have hspaces : ∀ {rest : List Char}, ∀ c ∈ (' ' :: rest).head?,
      Lexer.isIdentifierContinue c = false := ends_of_head (.inl rfl)
  have hon : Lexer.Takes source ('o' :: (['n'] ++ rest)) [.keyword .on] rest :=
    Lexer.Takes.reserved 'o' ['n'] (by decide) (by decide) hnext
  have htitle := (Lexer.Takes.name hname.1 hname.2 hspaces).trans
    ((Lexer.Takes.space (solid_of_head (hletter 'o' (.inr rfl)))).trans hon)
  have hindex : Lexer.Takes source
      ('i' :: (['n', 'd', 'e', 'x'] ++ ' ' :: (name.toList ++ ' ' :: 'o' :: (['n'] ++ rest))))
      [.keyword .index, .identifier name, .keyword .on] rest :=
    (Lexer.Takes.reserved 'i' ['n', 'd', 'e', 'x'] (by decide) (by decide) hspaces).trans
      ((Lexer.Takes.space (Lexer.solid_name hname.1 hname.2)).trans htitle)
  exact (Lexer.Takes.reserved 'c' ['r', 'e', 'a', 't', 'e'] (by decide) (by decide) hspaces).trans
    ((Lexer.Takes.space (solid_of_head (hletter 'i' (.inl rfl)))).trans hindex)

omit [CharacterTables] in
theorem toList_createIndexText (path : String) :
    (createIndexText name collection path).toList =
      openingText name (' ' :: (collection.toList ++ ' ' :: '(' :: (path.toList ++ [')']))) := by
  unfold createIndexText openingText
  simp

theorem takes_segmentsText (h : ∀ segment ∈ segments, IsName segment)
    (hnext : ∀ c ∈ rest.head?, Lexer.isIdentifierContinue c = false) :
    Lexer.Takes source (Lexer.segmentsText segments ++ rest) (renderSegments segments) rest := by
  induction segments with
  | nil => exact fun position bound tokens hshows hbound =>
      ⟨[], position, bound, hshows, hbound, rfl, by rw [List.append_nil]⟩
  | cons segment segments ih =>
      obtain ⟨⟨hidentifier, hreads⟩, hsegments⟩ := List.forall_mem_cons.mp h
      have hbehind : ∀ c ∈ (Lexer.segmentsText segments ++ rest).head?,
          Lexer.isIdentifierContinue c = false := by
        cases segments with
        | nil => exact hnext
        | cons second segments => exact ends_of_head (.inr (.inl rfl))
      have htext : Lexer.segmentsText (segment :: segments) ++ rest =
          '.' :: (segment.toList ++ (Lexer.segmentsText segments ++ rest)) := by
        simp [Lexer.segmentsText]
      rw [htext]
      exact (Lexer.Takes.segment hidentifier hreads hbehind).trans (ih hsegments)

/-- The path that names these segments, in parentheses. -/
theorem readAs_fields (hfirst : IsName first) (hrest : ∀ segment ∈ segments, IsName segment) :
    Lexer.ReadAs source ('(' :: ((joinDots (first :: segments)).toList ++ [')']))
      (.leftParen :: .identifier first :: (renderSegments segments ++ [.rightParen, .eof])) := by
  have hparens : ∀ c, c = '(' ∨ c = ')' → Lexer.Solid c := by
    rintro c (rfl | rfl) <;> exact Lexer.solid_ascii (by decide) (by decide) (by decide)
  have hclose : Lexer.ReadAs source [')'] [.rightParen, .eof] :=
    Lexer.ReadAs.punctuation (hparens ')' (.inr rfl)) (fun _ => rfl) Lexer.readAs_nil
  have hsegments := (takes_segmentsText hrest (ends_of_head (.inr (.inr rfl)))).readAs hclose
  have hbehind : ∀ c ∈ (Lexer.segmentsText segments ++ [')']).head?,
      Lexer.isIdentifierContinue c = false := by
    cases segments with
    | nil => exact ends_of_head (.inr (.inr rfl))
    | cons second segments => exact ends_of_head (.inr (.inl rfl))
  have hpath := (Lexer.Takes.name hfirst.1 hfirst.2 hbehind).readAs hsegments
  rw [Lexer.toList_joinDots, List.append_assoc]
  exact Lexer.ReadAs.punctuation (hparens '(' (.inl rfl)) (fun _ => rfl) hpath

/-- The query that creates an index on one path. -/
def createIndexQuery (name collection : String) (segments : List String) : Query :=
  ⟨false, .createIndex name collection [⟨segments, .none⟩], [], .none⟩

omit [CharacterTables] in
theorem wellFormed_createIndexQuery (hne : segments ≠ []) :
    (createIndexQuery name collection segments).WellFormed where
  command := ⟨List.cons_ne_nil _ _, List.forall_mem_singleton.mpr hne⟩
  stages := List.forall_mem_nil _
  filter := List.forall_mem_nil _
  pipeline h := absurd rfl h
  set := rfl

theorem readAs_createIndexText (hname : IsName name) (hcollection : IsName collection)
    (hfirst : IsName first) (hrest : ∀ segment ∈ segments, IsName segment) :
    Lexer.ReadAs source (createIndexText name collection (joinDots (first :: segments))).toList
      ((createIndexQuery name collection (first :: segments)).render plainSpelling ++ [.eof]) := by
  have hleft : Lexer.Solid '(' := Lexer.solid_ascii (by decide) (by decide) (by decide)
  have hfields : Lexer.ReadAs source
      (' ' :: '(' :: ((joinDots (first :: segments)).toList ++ [')'])) _ :=
    (Lexer.Takes.space (solid_of_head hleft)).readAs (readAs_fields hfirst hrest)
  have hindexed := (Lexer.Takes.name hcollection.1 hcollection.2 (ends_of_head (.inl rfl))).readAs
    hfields
  have hcommand := (takes_openingText hname (ends_of_head (.inl rfl))).readAs
    ((Lexer.Takes.space (Lexer.solid_name hcollection.1 hcollection.2)).readAs hindexed)
  have hrender : (createIndexQuery name collection (first :: segments)).render plainSpelling =
      [.keyword .create, .keyword .index, .identifier name, .keyword .on, .identifier collection,
        .leftParen, .identifier first] ++ (renderSegments segments ++ [.rightParen]) := by
    simp [createIndexQuery, Query.render, Command.render, Query.pipeline, plainSpelling,
      separated, Path.render]
  rw [toList_createIndexText, hrender]
  simpa using hcommand

/-- The command is parsed as it is written. -/
theorem parse_createIndexText (hname : IsName name) (hcollection : IsName collection)
    (hne : segments ≠ []) (hsegments : ∀ segment ∈ segments, IsName segment) :
    ∃ query path, parse (createIndexText name collection (joinDots segments)) = .ok query ∧
      query.explain = false ∧ query.command = .createIndex name collection [path] ∧
      path.segments = segments := by
  obtain ⟨first, rest, rfl⟩ := List.exists_cons_of_ne_nil hne
  obtain ⟨hfirst, hrest⟩ := List.forall_mem_cons.mp hsegments
  obtain ⟨query, hparse, herase⟩ := parse_of_readAs (wellFormed_createIndexQuery hne)
    (readAs_createIndexText hname hcollection hfirst hrest)
  rw [String.ofList_toList] at hparse
  have hcommand : query.command.erase = .createIndex name collection [⟨first :: rest, .none⟩] :=
    congrArg Query.command herase
  cases hkind : query.command with
  | createIndex title found fields =>
      rw [hkind] at hcommand
      obtain ⟨rfl, rfl, hfields⟩ := Command.createIndex.inj hcommand
      obtain ⟨path, rfl, hpath⟩ := List.map_eq_singleton_iff.mp hfields
      have hexplain : query.explain = false := congrArg Query.explain herase
      exact ⟨query, path, hparse, hexplain, hkind, congrArg Path.segments hpath⟩
  | _ =>
      rw [hkind] at hcommand
      cases hcommand

/-- Where the command is parsed at all, it creates an index of that name. -/
theorem command_of_createIndexText (hname : IsName name) {path : String} {query : Query}
    (h : parse (createIndexText name collection path) = .ok query) :
    query.explain = false ∧
      ∃ collection fields, query.command = .createIndex name collection fields := by
  cases hlex : lex (createIndexText name collection path) with
  | error fault =>
      rw [parse, hlex] at h
      cases h
  | ok tokens =>
      have htext := hlex
      rw [← @String.ofList_toList (createIndexText name collection path),
        toList_createIndexText] at htext
      obtain ⟨taken, more, rfl, hkinds⟩ :=
        (takes_openingText hname (ends_of_head (.inl rfl))).lex_eq htext
      obtain ⟨create, index, title, on, rfl⟩ : ∃ create index title on,
          taken = openingTokens name create index title on :=
        openingTokens_of_kinds hkinds
      rw [parse_of_lex hlex] at h
      cases hparse : parseQuery (openingTokens name create index title on ++ more) with
      | mk result last =>
          rw [hparse] at h
          cases result with
          | error fault => cases h
          | ok parsed =>
              obtain rfl : parsed = query := Except.ok.inj h
              exact parseQuery_opening hparse

end Texts

end NovaBase.NovaQl
