import NovaBase.NovaQl.Descent

/-!
# Sources are read safely

On every source the lexer and the parser end, without a panic. The tokens tile
the source, the parser stays before the end token, and every error names a range
of the source.
-/

namespace NovaBase.NovaQl

open Lib

section Tokens

variable [CharacterTables] {source : String} {tokens : List Token}

theorem Lexer.Tiles.ends {text : List Char} {start : Nat} (h : Lexer.Tiles text start tokens) :
    ∃ front stop, tokens = front ++ [stop] ∧ stop.kind = .eof := by
  induction h with
  | eof _ _ => exact ⟨[], _, rfl, rfl⟩
  | @token _ _ _ token _ _ _ _ _ _ _ _ ih =>
      obtain ⟨front, stop, rfl, hstop⟩ := ih
      exact ⟨token :: front, stop, rfl, hstop⟩

theorem Lexer.Tiles.start_le {text : List Char} {start : Nat} (h : Lexer.Tiles text start tokens) :
    start ≤ Text.size text := by
  cases h with
  | eof hgap _ => exact Text.le_size_of_sliceFrom hgap
  | token _ hgap _ _ _ _ _ => exact Text.le_size_of_sliceFrom hgap

theorem Lexer.Tiles.within {text : List Char} {start : Nat} (h : Lexer.Tiles text start tokens) :
    ∀ token ∈ tokens, token.span.Within (Text.size text) := by
  induction h with
  | eof _ _ => exact List.forall_mem_singleton.mpr ⟨le_refl _, le_refl _⟩
  | token _ _ _ _ _ hspan hrest ih =>
      exact List.forall_mem_cons.mpr ⟨⟨hspan.le, hrest.start_le⟩, ih⟩

/-- What the lexer promises the parser. -/
def sourceGuard (source : String) (shallow : Prop) : Guard where
  limit := source.utf8ByteSize
  Name := Lexer.IsIdentifier
  Shallow := shallow

/-- A guard for names of another kind. -/
def namesGuard (source : String) (Name : String → Prop) (shallow : Prop) : Guard where
  limit := source.utf8ByteSize
  Name := Name
  Shallow := shallow

theorem lex_ok (h : lex source = .ok tokens) :
    Lexer.Tiles source.toList 0 tokens ∧ Lexer.Named tokens ∧ Lexer.Words tokens := by
  have hrun : Lexer.tokenize source.toList (Lexer.rounds source.toList) [] 0 =
      (.ok tokens, (runLexer source).2) := Prod.ext h rfl
  exact ((runLexer_ends source).of_ok hrun).2

theorem sound_of_lex {Name : String → Prop} (h : lex source = .ok tokens)
    (hnames : ∀ token ∈ tokens, ∀ name, token.kind = .identifier name → Name name)
    (shallow : Prop) : (namesGuard source Name shallow).Sound tokens := by
  obtain ⟨htiles, -⟩ := lex_ok h
  refine ⟨htiles.ends, fun token htoken => ⟨?_, hnames token htoken⟩⟩
  rw [namesGuard, ← Text.size_toList]
  exact htiles.within token htoken

end Tokens

section Sources

variable [CharacterTables] {source : String} {tokens : List Token} {frames : Nat}

/-- The parser ends before the end token or a token before it; it never panics, and it overflows
only on a stack that is too small for the tokens. -/
theorem parseQueryWithin_ends {Name : String → Prop} (h : lex source = .ok tokens)
    (hnames : ∀ token ∈ tokens, ∀ name, token.kind = .identifier name → Name name)
    (frames : Nat) :
    Action.Ends (parseQueryWithin frames) tokens
      (fun query rest => rest <:+ tokens ∧ rest ≠ [] ∧
        query.Sound (namesGuard source Name (frames + 1 < 4 * (tokens.length - 3))))
      (fun fault rest => rest <:+ tokens ∧ rest ≠ [] ∧
        ((∃ cause, fault = .error cause ∧ cause.span.Within source.utf8ByteSize) ∨
          (fault = .overflow ∧ frames + 1 < 4 * (tokens.length - 3)))) := by
  have hsound := sound_of_lex h hnames (frames + 1 < 4 * (tokens.length - 3))
  have hnonempty : ∀ {rest : List Token}, (namesGuard source Name
      (frames + 1 < 4 * (tokens.length - 3))).Sound rest → rest ≠ [] := by
    rintro rest hrest rfl
    obtain ⟨token, more, hnil⟩ := hrest.exists_cons
    cases hnil
  have hfits : (namesGuard source Name (frames + 1 < 4 * (tokens.length - 3))).Fits
      (4 * (tokens.length - 3)) (frames + 1) := Nat.lt_or_ge _ _
  refine (descends_query hfits tokens ⟨rfl, hsound⟩).weaken ?_ ?_
  · rintro query rest ⟨taken, _, htokens, ⟨rfl, hrest⟩, hquery⟩
    exact ⟨htokens ▸ List.suffix_append taken rest, hnonempty hrest, hquery⟩
  · rintro fault rest ⟨hfault, _, hsuffix, rfl, hrest⟩
    exact ⟨hsuffix, hnonempty hrest, hfault⟩

theorem sound_of_parse_names {Name : String → Prop} {query : Query}
    (hnames : ∀ tokens, lex source = .ok tokens →
      ∀ token ∈ tokens, ∀ name, token.kind = .identifier name → Name name)
    (h : parse source = .ok query) : ∃ shallow, query.Sound (namesGuard source Name shallow) := by
  cases hlex : lex source with
  | error fault =>
      rw [parse, hlex] at h
      cases h
  | ok tokens =>
      rw [parse_of_lex hlex] at h
      have hparse : parseQuery tokens = parseQueryWithin (4 * tokens.length) tokens :=
        Action.bind_of_ok rfl
      rw [hparse] at h
      rcases parseQueryWithin_ends hlex (hnames tokens hlex) (4 * tokens.length) with
        ⟨parsed, rest, hrun, -, -, hsound⟩ | ⟨fault, rest, hrun, -⟩
      · rw [hrun] at h
        cases h
        exact ⟨_, hsound⟩
      · rw [hrun] at h
        cases h

/-- What is parsed keeps the documented restrictions, its names are identifiers and its ranges
lie inside the source. -/
theorem sound_of_parse {query : Query} (h : parse source = .ok query) :
    ∃ shallow, query.Sound (sourceGuard source shallow) :=
  sound_of_parse_names (fun _ hlex => (lex_ok hlex).2.1) h

/-- An identifier that the lexer reads as one. -/
def IsName (name : String) : Prop := Lexer.IsIdentifier name ∧ Lexer.Reads name

/-- The names of what is parsed are read as identifiers again. -/
theorem names_of_parse {query : Query} (h : parse source = .ok query) :
    ∃ shallow, query.Sound (namesGuard source IsName shallow) := by
  apply sound_of_parse_names _ h
  intro tokens hlex token htoken name hname
  obtain ⟨-, hnamed, hwords⟩ := lex_ok hlex
  exact ⟨hnamed token htoken name hname, hwords token htoken name hname⟩

/-- On every source the lexer stays on boundaries of characters and its tokens tile the source;
on its tokens the parser never passes the end token, whatever the stack, and a stack of four
frames for each token is enough. Every error lies inside the source. -/
theorem sources_read_safely (source : String) :
    (∃ rest, Text.sliceFrom source.toList (runLexer source).2 = some rest) ∧
    (∀ fault, lex source = .error fault →
      ∃ cause, fault = .error cause ∧ cause.span.Within source.utf8ByteSize) ∧
    ∀ tokens, lex source = .ok tokens → Lexer.Tiles source.toList 0 tokens ∧
      ∀ frames, (parseQueryWithin frames tokens).2 <:+ tokens ∧
        (parseQueryWithin frames tokens).2 ≠ [] ∧
        ∀ fault, (parseQueryWithin frames tokens).1 = .error fault →
          (∃ cause, fault = .error cause ∧ cause.span.Within source.utf8ByteSize) ∨
          (fault = .overflow ∧ frames + 1 < 4 * (tokens.length - 3)) := by
  have hlexer := runLexer_ends source
  refine ⟨?_, ?_, ?_⟩
  · rcases hlexer with ⟨tokens, position, hrun, hposition, -⟩ |
      ⟨fault, position, hrun, hposition, -⟩
    · exact (congrArg Prod.snd hrun : (runLexer source).2 = position) ▸ hposition
    · exact (congrArg Prod.snd hrun : (runLexer source).2 = position) ▸ hposition
  · intro fault hfault
    rcases hlexer with ⟨tokens, position, hrun, -⟩ | ⟨other, position, hrun, -, hspan⟩
    · cases (congrArg Prod.fst hrun).symm.trans hfault
    · cases (congrArg Prod.fst hrun).symm.trans hfault
      exact hspan
  · intro tokens htokens
    refine ⟨(lex_ok htokens).1, fun frames => ?_⟩
    rcases parseQueryWithin_ends htokens (lex_ok htokens).2.1 frames with
      ⟨query, rest, hrun, hsuffix, hne, -⟩ | ⟨fault, rest, hrun, hsuffix, hne, hfault⟩
    · rw [hrun]
      exact ⟨hsuffix, hne, nofun⟩
    · rw [hrun]
      refine ⟨hsuffix, hne, ?_⟩
      rintro _ ⟨⟩
      exact hfault

end Sources

/-- A string that does not end, and a command that lacks its predicate. -/
theorem sources_read_safely_truncated : let _ := CharacterTables.ascii
    (∃ cause, lex "a\"é" = .error (.error cause) ∧ cause.span.Within 4) ∧
    ∃ tokens, lex "a.get" = .ok tokens ∧ Lexer.Tiles "a.get".toList 0 tokens ∧
      ∃ cause, (parseQueryWithin 3 tokens).1 = .error (.error cause) ∧ cause.span.Within 5 := by
  intro _
  constructor
  · obtain ⟨cause, hcause, hspan⟩ := (sources_read_safely "a\"é").2.1
      (.error ⟨.unterminatedString, ⟨1, 4⟩⟩) (by decide +kernel)
    have hlex : lex "a\"é" = .error (.error ⟨.unterminatedString, ⟨1, 4⟩⟩) := by decide +kernel
    have hsize : "a\"é".utf8ByteSize = 4 := by decide +kernel
    exact ⟨cause, hcause ▸ hlex, hsize ▸ hspan⟩
  · have hlex : lex "a.get" = .ok [⟨.identifier "a", ⟨0, 1⟩⟩, ⟨.dot, ⟨1, 2⟩⟩,
        ⟨.keyword .get, ⟨2, 5⟩⟩, ⟨.eof, ⟨5, 5⟩⟩] := by decide +kernel
    have hsize : "a.get".utf8ByteSize = 5 := by decide +kernel
    obtain ⟨htiles, hparser⟩ := (sources_read_safely "a.get").2.2 _ hlex
    refine ⟨_, hlex, htiles, ?_⟩
    rcases (hparser 3).2.2 _ rfl with ⟨cause, hcause, hspan⟩ | ⟨hoverflow, -⟩
    · exact ⟨cause, congrArg Except.error hcause, hsize ▸ hspan⟩
    · cases hoverflow

end NovaBase.NovaQl
