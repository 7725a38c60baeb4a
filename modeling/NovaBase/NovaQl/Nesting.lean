import NovaBase.NovaQl.Lexemes
import NovaBase.NovaQl.RoundTrip
import NovaBase.NovaQl.Safety

/-!
# Nesting has no limit

The calls that the parser has active at one time are bounded by the number of
tokens and by nothing else: four for each opening bracket. No constant bounds
them for all sources, nor the depth of the expressions that are accepted.
-/

namespace NovaBase.NovaQl

open Lib

section Depth

mutual

/-- How many operators and brackets of an expression stand inside one another. -/
def depth : Expression → Nat
  | .literal _ _ => 0
  | .path _ _ => 0
  | .array values _ => depthOfValues values + 1
  | .object fields _ => depthOfFields fields + 1
  | .unary _ operand _ => depth operand + 1
  | .binary left _ right _ => max (depth left) (depth right) + 1

def depthOfValues : List Expression → Nat
  | [] => 0
  | value :: rest => max (depth value) (depthOfValues rest)

def depthOfFields : List (ObjectFieldOf Expression) → Nat
  | [] => 0
  | ⟨_, value, _⟩ :: rest => max (depth value) (depthOfFields rest)

end

theorem depth_erase (e : Expression) : depth (eraseExpression e) = depth e := by
  induction e using Expression.nested_induction with
  | literal value span => rfl
  | path path span => rfl
  | array values span ih =>
      have hvalues : depthOfValues (eraseValues values) = depthOfValues values := by
        induction values with
        | nil => rfl
        | cons value rest ihrest =>
            obtain ⟨hvalue, hrest⟩ := List.forall_mem_cons.mp ih
            rw [eraseValues, depthOfValues, depthOfValues, hvalue, ihrest hrest]
      rw [eraseExpression, depth, depth, hvalues]
  | object fields span ih =>
      have hfields : depthOfFields (eraseFields fields) = depthOfFields fields := by
        induction fields with
        | nil => rfl
        | cons field rest ihrest =>
            obtain ⟨hvalue, hrest⟩ := List.forall_mem_cons.mp ih
            obtain ⟨name, value, range⟩ := field
            rw [eraseFields, eraseField, depthOfFields, depthOfFields, hvalue, ihrest hrest]
      rw [eraseExpression, depth, depth, hfields]
  | unary operator operand span ih => rw [eraseExpression, depth, depth, ih]
  | binary left operator right span ihleft ihright =>
      rw [eraseExpression, depth, depth, ihleft, ihright]

end Depth

section Overflow

variable {α β : Type} {p : Parser α} {next : α → Parser β} {tokens : List Token}

/-- The parser runs out of stack on these tokens. -/
def Overflows (p : Parser α) (tokens : List Token) : Prop :=
  ∃ rest, p tokens = (.error .overflow, rest)

theorem Overflows.first (h : Overflows p tokens) : Overflows (p >>= next) tokens := by
  obtain ⟨rest, h⟩ := h
  exact ⟨rest, Action.bind_of_error h⟩

theorem Overflows.after {a : α} {rest : List Token} (hp : p tokens = (.ok a, rest))
    (h : Overflows (next a) rest) : Overflows (p >>= next) tokens := by
  obtain ⟨last, h⟩ := h
  exact ⟨last, (Action.bind_of_ok hp).trans h⟩

theorem overflows_overflow : Overflows (overflow : Parser α) tokens := ⟨tokens, rfl⟩

/-- So many opening brackets and the end of the source. -/
def Opens (count : Nat) (tokens : List Token) : Prop :=
  ∃ brackets last, tokens = brackets ++ [last] ∧ brackets.length = count ∧
    (∀ token ∈ brackets, token.kind = .leftBracket) ∧ last.kind = .eof

theorem Opens.length {count : Nat} (h : Opens count tokens) : tokens.length = count + 1 := by
  obtain ⟨brackets, last, rfl, rfl, -, -⟩ := h
  exact List.length_append

theorem Opens.exists_cons {count : Nat} (h : Opens count tokens) :
    ∃ token rest, tokens = token :: rest ∧ (token.kind = .leftBracket ∨ token.kind = .eof) ∧
      ∀ below, count = below + 1 → token.kind = .leftBracket ∧ Opens below rest := by
  obtain ⟨brackets, last, rfl, rfl, hbrackets, hlast⟩ := h
  cases brackets with
  | nil => exact ⟨last, [], rfl, .inr hlast, nofun⟩
  | cons token brackets =>
      obtain ⟨htoken, hbrackets⟩ := List.forall_mem_cons.mp hbrackets
      refine ⟨token, brackets ++ [last], rfl, .inl htoken, ?_⟩
      intro below hbelow
      exact ⟨htoken, brackets, last, rfl, Nat.succ.inj hbelow, hbrackets, hlast⟩

/-- The array that an opening bracket begins calls the parser of expressions. -/
theorem overflows_array {count frames : Nat} {start : Span} (hopens : Opens count tokens)
    (hexpression : ∀ frames, frames < 4 * count + 3 → Overflows (parseExpression frames 1) tokens)
    (hframes : frames < 4 * count + 4) : Overflows (parseArray frames start) tokens := by
  cases frames with
  | zero => exact overflows_overflow
  | succ frames =>
      obtain ⟨token, rest, rfl, hkind, -⟩ := hopens.exists_cons
      have hopen : atSimple .rightBracket (token :: rest) = (.ok false, token :: rest) := by
        have hne : token.kind ≠ .rightBracket := by
          rcases hkind with hkind | hkind <;> rw [hkind] <;> nofun
        exact congrArg (fun found => (Except.ok found, token :: rest)) (decide_eq_false hne)
      have hlist : Overflows (parseList (fun _ => parseExpression frames 1) .rightBracket)
          (token :: rest) := by
        apply Overflows.after hopen
        exact Overflows.after rfl (hexpression frames (by omega)).first
      rw [parseArray]
      exact hlist.first

theorem overflows_primary {count frames : Nat} (hopens : Opens count tokens)
    (harray : ∀ below rest, count = below + 1 → Opens below rest → ∀ frames start,
      frames < 4 * below + 4 → Overflows (parseArray frames start) rest)
    (hframes : frames < 4 * count + 1) : Overflows (parsePrimary frames) tokens := by
  cases frames with
  | zero => exact overflows_overflow
  | succ frames =>
      obtain ⟨below, rfl⟩ : ∃ below, count = below + 1 :=
        Nat.exists_eq_succ_of_ne_zero (by omega)
      obtain ⟨token, rest, rfl, -, hbelow⟩ := hopens.exists_cons
      obtain ⟨hkind, hrest⟩ := hbelow below rfl
      have hadvance : advance (token :: rest) = (.ok token, rest) := by
        have hne : token.kind ≠ .eof := by
          rw [hkind]
          nofun
        exact congrFun (if_neg hne) (token :: rest)
      rw [parsePrimary]
      apply Overflows.after hadvance
      simp only [primaryOf, hkind]
      exact harray below rest rfl hrest frames _ (by omega)

theorem overflows_unary {count frames : Nat} (hopens : Opens count tokens)
    (hprimary : ∀ frames, frames < 4 * count + 1 → Overflows (parsePrimary frames) tokens)
    (hframes : frames < 4 * count + 2) : Overflows (parseUnary frames) tokens := by
  cases frames with
  | zero => exact overflows_overflow
  | succ frames =>
      obtain ⟨token, rest, rfl, hkind, -⟩ := hopens.exists_cons
      have hoperator : unaryOperator token.kind = none := by
        rcases hkind with hkind | hkind <;> rw [hkind] <;> rfl
      have hcurrent : current (token :: rest) = (.ok token, token :: rest) := rfl
      rw [parseUnary]
      apply Overflows.after hcurrent
      simp only [hoperator]
      exact hprimary frames (by omega)

theorem overflows_of_unary {count frames minimum : Nat}
    (hunary : ∀ frames, frames < 4 * count + 2 → Overflows (parseUnary frames) tokens)
    (hframes : frames < 4 * count + 3) : Overflows (parseExpression frames minimum) tokens := by
  cases frames with
  | zero => exact overflows_overflow
  | succ frames =>
      rw [parseExpression]
      exact (hunary frames (by omega)).first

/-- Every opening bracket takes four frames: an expression, an operand, what the bracket begins
and the array. -/
theorem overflows_expression {count frames minimum : Nat} (hopens : Opens count tokens)
    (hframes : frames < 4 * count + 3) : Overflows (parseExpression frames minimum) tokens := by
  induction count generalizing frames minimum tokens with
  | zero =>
      have hprimary : ∀ frames, frames < 4 * 0 + 1 → Overflows (parsePrimary frames) tokens :=
        fun frames hlt => overflows_primary hopens nofun hlt
      exact overflows_of_unary (fun frames hlt => overflows_unary hopens hprimary hlt) hframes
  | succ count ih =>
      have harray : ∀ below rest, count + 1 = below + 1 → Opens below rest → ∀ frames start,
          frames < 4 * below + 4 → Overflows (parseArray frames start) rest := by
        rintro below rest hbelow hrest frames start hlt
        obtain rfl : count = below := Nat.succ.inj hbelow
        exact overflows_array hrest (fun frames hframes => ih hrest hframes) hlt
      have hprimary : ∀ frames, frames < 4 * (count + 1) + 1 →
          Overflows (parsePrimary frames) tokens :=
        fun frames hlt => overflows_primary hopens harray hlt
      exact overflows_of_unary (fun frames hlt => overflows_unary hopens hprimary hlt) hframes

/-- Brackets behind `insert`, the third token: nothing comes to an expression earlier. -/
theorem overflows_insert {count frames : Nat} {collection : String} {first dot insert : Token}
    (hfirst : first.kind = .identifier collection) (hdot : dot.kind = .dot)
    (hinsert : insert.kind = .keyword .insert) (hopens : Opens count tokens)
    (hframes : frames < 4 * count + 3) :
    Overflows (parseQueryWithin frames) (first :: dot :: insert :: tokens) := by
  have hne : tokens ≠ [] := by
    obtain ⟨token, rest, rfl, -⟩ := hopens.exists_cons
    exact List.cons_ne_nil _ _
  have hcurrent : ∀ token rest, current (token :: rest) = (.ok token, token :: rest) :=
    fun _ _ => rfl
  obtain ⟨explain, hexplain, rfl⟩ := @parses_consume_not (.keyword .explain) []
    (first :: dot :: insert :: tokens) (List.cons_ne_nil _ _) rfl (by
      change first.kind ≠ _
      rw [hfirst]
      nofun)
  obtain ⟨name, hname, -⟩ := @parses_expect_identifier (fun _ => True) collection "collection name"
    [first] (dot :: insert :: tokens) (List.cons_ne_nil _ _) (congrArg (· :: []) hfirst) trivial
  obtain ⟨_, hexpect, -⟩ := @parses_expect .dot (fun _ => True) "`.` after collection name" nofun
    [dot] (insert :: tokens) (List.cons_ne_nil _ _) (congrArg (· :: []) hdot) trivial
  obtain ⟨_, hadvance, -⟩ := @parses_advance (.keyword .insert) (fun _ => True) nofun
    [insert] tokens hne (congrArg (· :: []) hinsert) trivial
  have hoperation : Overflows (parseOperation frames name) (insert :: tokens) := by
    apply Overflows.after (hcurrent _ _)
    simp only [hinsert]
    apply Overflows.after hadvance
    exact (overflows_expression hopens hframes).first.first
  have hcommand : Overflows (parseCommand frames) (first :: dot :: insert :: tokens) := by
    apply Overflows.after (hcurrent _ _)
    simp only [hfirst]
    apply Overflows.after hname
    apply Overflows.after hexpect
    exact hoperation
  apply Overflows.after (hcurrent _ _)
  apply Overflows.after hexplain
  exact hcommand.first

end Overflow

section Sources

variable [CharacterTables] {source : List Char}

theorem readAs_replicate {c : Char} {kind : TokenKind} (hsolid : Lexer.Solid c)
    (htoken : ∀ start, Lexer.token source start c = pure kind) {rest : List Char}
    {kinds : List TokenKind} (hrest : Lexer.ReadAs source rest kinds) (count : Nat) :
    Lexer.ReadAs source (List.replicate count c ++ rest) (List.replicate count kind ++ kinds) := by
  induction count with
  | zero => exact hrest
  | succ count ih => exact Lexer.ReadAs.punctuation hsolid htoken ih

theorem solid_punctuation : Lexer.Solid '[' ∧ Lexer.Solid ']' ∧ Lexer.Solid '.' ∧
    Lexer.Solid '\x7b' ∧ Lexer.Solid '\x7d' := by
  refine ⟨?_, ?_, ?_, ?_, ?_⟩ <;> exact Lexer.solid_ascii (by decide) (by decide) (by decide)

/-- A collection named `a` and a word for an operation on it. -/
theorem readAs_operation {first : Char} {body rest : List Char} {kinds : List TokenKind}
    (hfirst : first = 'i' ∨ first = 'g')
    (hbody : (body.all fun c => c.toNat < 128 && c.isAlpha) = true)
    (hnext : ∀ c ∈ rest.head?, c = '[' ∨ c = '\x7b') (hrest : Lexer.ReadAs source rest kinds) :
    Lexer.ReadAs source ('a' :: '.' :: first :: (body ++ rest))
      (.identifier "a" :: .dot :: Lexer.wordKind (first :: body) :: kinds) := by
  have hsolid : ∀ c, c = 'a' ∨ c = 'i' ∨ c = 'g' → Lexer.Solid c := by
    rintro c (rfl | rfl | rfl) <;> exact Lexer.solid_ascii (by decide) (by decide) (by decide)
  have hidentifier : ∀ c, c = 'a' ∨ c = 'i' ∨ c = 'g' → ∀ start,
      Lexer.token source start c = Lexer.identifier source start := by
    rintro c (rfl | rfl | rfl) start
    all_goals
      refine if_pos ?_
      rw [Lexer.isIdentifierStart_ascii (by decide)]
      decide
  have hcontinue : ∀ c ∈ body, Lexer.isIdentifierContinue c = true := by
    intro c hc
    obtain ⟨hascii, halpha⟩ : c.toNat < 128 ∧ c.isAlpha = true := by
      simpa using List.all_eq_true.mp hbody c hc
    rw [Lexer.isIdentifierContinue_ascii hascii]
    simp [halpha]
  have hend : ∀ c, c = '[' ∨ c = '\x7b' ∨ c = '.' → Lexer.isIdentifierContinue c = false := by
    rintro c (rfl | rfl | rfl) <;> rw [Lexer.isIdentifierContinue_ascii (by decide)] <;> decide
  have hword := Lexer.ReadAs.word (hsolid first (.inr hfirst)) (hidentifier first (.inr hfirst))
    hcontinue (fun c hc => hend c ((hnext c hc).imp_right .inl)) hrest
  have hdot : Lexer.ReadAs source ('.' :: first :: (body ++ rest))
      (.dot :: Lexer.wordKind (first :: body) :: kinds) :=
    Lexer.ReadAs.punctuation solid_punctuation.2.2.1 (fun _ => rfl) hword
  have hdotted : ∀ c ∈ ('.' :: first :: (body ++ rest)).head?,
      Lexer.isIdentifierContinue c = false :=
    fun c hc => hend c (.inr (.inr (Option.some.inj hc).symm))
  exact @Lexer.ReadAs.word _ source 'a' [] _ _ (hsolid 'a' (.inl rfl))
    (hidentifier 'a' (.inl rfl)) (List.forall_mem_nil _) hdotted hdot

/-- `a.insert` and opening brackets, which nothing closes. -/
def bracketsText (count : Nat) : List Char :=
  'a' :: '.' :: 'i' :: (['n', 's', 'e', 'r', 't'] ++ (List.replicate count '[' ++ []))

theorem readAs_bracketsText (count : Nat) : Lexer.ReadAs source (bracketsText count)
    (.identifier "a" :: .dot :: .keyword .insert ::
      (List.replicate count .leftBracket ++ [.eof])) := by
  have hbrackets : Lexer.ReadAs source (List.replicate count '[' ++ [])
      (List.replicate count .leftBracket ++ [.eof]) :=
    readAs_replicate solid_punctuation.1 (fun _ => rfl) Lexer.readAs_nil count
  have hnext : ∀ c ∈ (List.replicate count '[' ++ []).head?, c = '[' ∨ c = '\x7b' := by
    intro c hc
    cases count with
    | zero => cases hc
    | succ count => exact .inl (Option.some.inj hc).symm
  exact readAs_operation (.inl rfl) (by decide) hnext hbrackets

theorem lex_bracketsText (count : Nat) : ∃ first dot insert tokens,
    lex (String.ofList (bracketsText count)) = .ok (first :: dot :: insert :: tokens) ∧
    first.kind = .identifier "a" ∧ dot.kind = .dot ∧ insert.kind = .keyword .insert ∧
    Opens count tokens := by
  obtain ⟨tokens, hlex, hkinds⟩ := Lexer.lex_of_readAs (readAs_bracketsText count)
  obtain ⟨first, tokens, rfl, hfirst, hkinds⟩ := List.map_eq_cons_iff.mp hkinds
  obtain ⟨dot, tokens, rfl, hdot, hkinds⟩ := List.map_eq_cons_iff.mp hkinds
  obtain ⟨insert, tokens, rfl, hinsert, hkinds⟩ := List.map_eq_cons_iff.mp hkinds
  obtain ⟨brackets, ends, rfl, hbrackets, hends⟩ := List.map_eq_append_iff.mp hkinds
  obtain ⟨last, rfl, hlast⟩ := List.map_eq_singleton_iff.mp hends
  have hlength : brackets.length = count := by
    simpa using congrArg List.length hbrackets
  have hkind : ∀ token ∈ brackets, token.kind = .leftBracket := by
    intro token htoken
    apply List.eq_of_mem_replicate (n := count)
    rw [← hbrackets]
    exact List.mem_map_of_mem htoken
  exact ⟨first, dot, insert, _, hlex, hfirst, hdot, hinsert,
    ⟨brackets, last, rfl, hlength, hkind, hlast⟩⟩

end Sources

section Nested

/-- One array inside another, and so on. -/
def nested : Nat → Expression
  | 0 => .array [] .none
  | count + 1 => .array [nested count] .none

theorem depth_nested (count : Nat) : depth (nested count) = count + 1 := by
  induction count with
  | zero => rfl
  | succ count ih =>
      rw [nested, depth, depthOfValues, depthOfValues, ih, Nat.max_zero]

theorem wellFormed_nested (count : Nat) : (nested count).WellFormed := by
  induction count with
  | zero => exact .array _ (List.forall_mem_nil _)
  | succ count ih => exact .array _ (List.forall_mem_singleton.mpr ih)

/-- No commas, `==` and no semicolon. -/
def plainSpelling : Spelling := ⟨false, false, false, false, false, false⟩

theorem renderExpression_nested (count : Nat) :
    renderExpression plainSpelling (nested count) =
      List.replicate (count + 1) .leftBracket ++ List.replicate (count + 1) .rightBracket := by
  induction count with
  | zero => rfl
  | succ count ih =>
      have hcomma : comma plainSpelling true = [] := rfl
      rw [nested, renderExpression, renderValues, ih]
      simp only [List.isEmpty_nil, hcomma, renderValues, List.append_nil]
      rw [List.replicate_succ (n := count + 1), List.replicate_succ' (n := count + 1),
        List.cons_append, List.append_assoc]

/-- `a.get{[[ ]]}`: a predicate that is no boolean is rejected only when the query runs. -/
def nestedQuery (count : Nat) : Query := ⟨false, .get "a", [.filter (nested count)], .none⟩

theorem wellFormed_nestedQuery (count : Nat) : (nestedQuery count).WellFormed where
  command := trivial
  stages := List.forall_mem_singleton.mpr (wellFormed_nested count)
  filter := List.forall_mem_nil _
  pipeline _ := rfl
  set := rfl

variable [CharacterTables] {source : List Char}

/-- A query of which the filter is an array in arrays. -/
def nestedText (count : Nat) : List Char :=
  'a' :: '.' :: 'g' :: (['e', 't'] ++ '\x7b' :: (List.replicate (count + 1) '[' ++
    (List.replicate (count + 1) ']' ++ ['\x7d'])))

theorem readAs_nestedText (count : Nat) : Lexer.ReadAs source (nestedText count)
    ((nestedQuery count).render plainSpelling ++ [.eof]) := by
  obtain ⟨hleft, hright, -, hopen, hclose⟩ := solid_punctuation
  have hends : Lexer.ReadAs source ['\x7d'] [.rightBrace, .eof] :=
    Lexer.ReadAs.punctuation hclose (fun _ => rfl) Lexer.readAs_nil
  have hcloses := readAs_replicate hright (fun _ => rfl) hends (count + 1)
  have hopens := readAs_replicate hleft (fun _ => rfl) hcloses (count + 1)
  have hbraces := Lexer.ReadAs.punctuation hopen (fun _ => rfl) hopens
  have hnext : ∀ {rest : List Char}, ∀ c ∈ ('\x7b' :: rest).head?, c = '[' ∨ c = '\x7b' :=
    fun c hc => .inr (Option.some.inj hc).symm
  have hread := @readAs_operation _ source 'g' ['e', 't'] _ _ (.inr rfl) (by decide) hnext hbraces
  have hword : Lexer.wordKind ['g', 'e', 't'] = .keyword .get := by decide
  have hrender : (nestedQuery count).render plainSpelling =
      [.identifier "a", .dot, .keyword .get, .leftBrace] ++
        (renderExpression plainSpelling (nested count) ++ [.rightBrace]) := by
    simp [nestedQuery, Query.render, Command.render, renderFilter, Query.predicate, Query.pipeline,
      plainSpelling]
  rw [hword] at hread
  rw [hrender, renderExpression_nested, nestedText]
  simpa using hread

theorem parse_nestedText (count : Nat) : ∃ query e,
    parse (String.ofList (nestedText count)) = .ok query ∧
    .filter e ∈ query.stages ∧ depth e = count + 1 := by
  obtain ⟨query, hparse, herase⟩ :=
    parse_of_readAs (wellFormed_nestedQuery count) (readAs_nestedText count)
  have hstages : query.stages.map Stage.erase = [.filter (eraseExpression (nested count))] :=
    congrArg Query.stages herase
  obtain ⟨stage, hstage, hfilter⟩ : ∃ stage, query.stages = [stage] ∧
      stage.erase = .filter (eraseExpression (nested count)) := by
    simpa [List.map_eq_singleton_iff] using hstages
  cases stage with
  | filter e =>
      have he : eraseExpression e = eraseExpression (nested count) := Stage.filter.inj hfilter
      refine ⟨query, e, hparse, ?_, ?_⟩
      · rw [hstage]
        exact List.mem_singleton.mpr rfl
      · rw [← depth_erase e, he, depth_erase, depth_nested]
  | _ => cases hfilter

end Nested

section Bounds

variable [CharacterTables]

theorem parseWithin_bracketsText {bound count : Nat} (h : bound < 4 * count + 3) :
    ∃ source tokens, lex source = .ok tokens ∧ tokens.length = count + 4 ∧
      parseWithin bound source = .error .overflow := by
  obtain ⟨first, dot, insert, tokens, hlex, hfirst, hdot, hinsert, hopens⟩ := lex_bracketsText count
  obtain ⟨rest, hoverflow⟩ := overflows_insert hfirst hdot hinsert hopens h
  refine ⟨_, _, hlex, ?_, ?_⟩
  · rw [List.length_cons, List.length_cons, List.length_cons, hopens.length]
  · rw [parseWithin_of_lex bound hlex, hoverflow]
    rfl

theorem not_overflow_of_le {bound : Nat} {source : String} {tokens : List Token}
    (hlex : lex source = .ok tokens) (h : 4 * (tokens.length - 3) ≤ bound + 1) :
    parseWithin bound source ≠ .error .overflow := by
  intro hoverflow
  rw [parseWithin_of_lex bound hlex] at hoverflow
  rcases parseQueryWithin_ends hlex (lex_ok hlex).2.1 bound with
    ⟨query, rest, hrun, -⟩ | ⟨fault, rest, hrun, -, -, ⟨cause, rfl, -⟩ | ⟨-, hsmall⟩⟩
  · rw [hrun] at hoverflow
    cases hoverflow
  · rw [hrun] at hoverflow
    cases hoverflow
  · exact absurd hsmall (Nat.not_lt.mpr h)

/-- So many calls suffice for all sources of so many tokens if and only if they are four for each
token behind the second. No number of calls suffices for all sources, and accepted expressions
nest as deep as one likes. -/
theorem nesting_unbounded (bound : Nat) :
    (∀ count, (∀ source tokens, lex source = .ok tokens → tokens.length ≤ count + 1 →
      parseWithin bound source ≠ .error .overflow) ↔ 4 * (count - 2) ≤ bound + 1) ∧
    (∃ source, parseWithin bound source = .error .overflow) ∧
    ∃ source query e, parse source = .ok query ∧ .filter e ∈ query.stages ∧ bound < depth e := by
  refine ⟨fun count => ⟨?_, ?_⟩, ?_, ?_⟩
  · intro h
    by_contra hlarge
    obtain ⟨source, tokens, hlex, hlength, hoverflow⟩ :=
      parseWithin_bracketsText (show bound < 4 * (count - 3) + 3 by omega)
    exact h source tokens hlex (by omega) hoverflow
  · intro hbound source tokens hlex hlength
    exact not_overflow_of_le hlex (by omega)
  · obtain ⟨source, tokens, -, -, hoverflow⟩ :=
      parseWithin_bracketsText (show bound < 4 * bound + 3 by omega)
    exact ⟨source, hoverflow⟩
  · obtain ⟨query, e, hparse, hfilter, hdepth⟩ := parse_nestedText bound
    exact ⟨_, query, e, hparse, hfilter, hdepth ▸ Nat.lt_succ_self bound⟩

end Bounds

/-- No bound on the calls holds for every source, and none on the depth of what is accepted. -/
theorem no_nesting_bound : let _ := CharacterTables.ascii
    (¬∃ bound, ∀ source, parseWithin bound source ≠ .error .overflow) ∧
    ¬∃ bound, ∀ source query e, parse source = .ok query → .filter e ∈ query.stages →
      depth e ≤ bound := by
  intro _
  constructor
  · rintro ⟨bound, h⟩
    obtain ⟨source, tokens, -, -, hoverflow⟩ :=
      parseWithin_bracketsText (show bound < 4 * bound + 3 by omega)
    exact h source hoverflow
  · rintro ⟨bound, h⟩
    obtain ⟨query, e, hparse, hfilter, hdepth⟩ := parse_nestedText bound
    have hle := h _ query e hparse hfilter
    omega

end NovaBase.NovaQl
