import NovaBase.NovaQl.Parser
import NovaBase.NovaQl.Render

/-!
# Expressions are parsed as they are written

Every token, path and list is shown to parse what it is written as. An infix
operator takes its left operand first, before the parser knows of the operator,
so the lemma on precedence climbing says what becomes of a left operand whatever
comes after it.
-/

namespace NovaBase.NovaQl

open Lib

/-- What a parser sees of its tokens. -/
def input : Input Token TokenKind (List Token) where
  kind := Token.kind
  feed tokens rest := tokens ++ rest
  peek
    | [] => .eof
    | token :: _ => token.kind
  Ready rest := rest ≠ []
  ready_feed _ _ := List.append_ne_nil_of_right_ne_nil _
  feed_nil _ := rfl
  feed_append xs ys rest := List.append_assoc xs ys rest
  peek_feed _ _ _ := rfl

section Tokens

variable {α : Type} {kind : TokenKind} {kinds : List TokenKind} {follow : TokenKind → Prop}
  {R : α → Prop}

theorem parses_current : Parses input current [] follow fun token => follow token.kind := by
  intro tokens rest hready htokens hfollow
  obtain ⟨token, more, rfl⟩ := List.exists_cons_of_ne_nil hready
  rw [List.map_eq_nil_iff.mp htokens, input.feed_nil]
  exact ⟨token, rfl, hfollow⟩

/-- A parser that begins with the current token. -/
theorem parses_at_token {next : Token → Parser α}
    (hnext : ∀ token, token.kind = kind → Parses input (next token) (kind :: kinds) follow R) :
    Parses input (current >>= next) (kind :: kinds) follow R :=
  Parses.look (fun _ _ => parses_current) hnext

theorem parses_step : Parses input step [kind] follow fun _ => True := by
  intro tokens rest _ htokens _
  obtain ⟨token, rfl, -⟩ := List.map_eq_singleton_iff.mp htokens
  exact ⟨(), rfl, trivial⟩

theorem parses_advance (h : kind ≠ .eof) :
    Parses input advance [kind] follow fun token => token.kind = kind := by
  apply parses_at_token
  intro token htoken
  rw [if_neg (by rwa [htoken])]
  exact parses_step.map fun _ _ => htoken

theorem parses_at : Parses input (atSimple kind) [] (· = kind) (· = true) :=
  parses_current.map fun _ htoken => decide_eq_true htoken

theorem parses_at_not : Parses input (atSimple kind) [] (· ≠ kind) (· = false) :=
  parses_current.map fun _ htoken => decide_eq_false htoken

theorem parses_consume : Parses input (consumeSimple kind) [kind] follow (· = true) := by
  apply Parses.look (Q := (· = true)) (fun _ _ => parses_at)
  rintro _ rfl
  exact parses_step.map fun _ _ => rfl

theorem parses_consume_not :
    Parses input (consumeSimple kind) [] (· ≠ kind) (· = false) := by
  apply parses_at_not.finish
  rintro _ rfl
  exact Parses.pure rfl

variable {p q : Parser α}

/-- The branch of a token that is there. -/
theorem parses_taken (hp : Parses input p kinds follow R) :
    Parses input (consumeSimple kind >>= fun taken => if taken = true then p else q)
      (kind :: kinds) follow R := by
  apply parses_consume.cons
  rintro _ rfl
  exact hp

/-- The branch of a token that is not there. -/
theorem parses_not_taken (hkind : ∀ k, follow k → kinds.headD k ≠ kind)
    (hq : Parses input q kinds follow R) :
    Parses input (consumeSimple kind >>= fun taken => if taken = true then p else q)
      kinds follow R := by
  apply Parses.look (Q := (· = false))
  · intro k hk
    apply parses_consume_not.weaken
    · rintro _ rfl
      exact hkind k hk
    · exact fun _ h => h
  rintro _ rfl
  exact hq

theorem parses_expect {expected : String} (h : kind ≠ .eof) :
    Parses input (expectSimple kind expected) [kind] follow fun token => token.kind = kind := by
  apply Parses.look (Q := (· = true)) (fun _ _ => parses_at)
  rintro _ rfl
  exact parses_advance h

theorem parses_expect_eof {expected : String} :
    Parses input (expectSimple .eof expected) [] (· = .eof) fun _ => True := by
  apply Parses.look (Q := (· = true))
  · rintro _ rfl
    exact parses_at
  rintro _ rfl
  apply parses_current.finish
  intro token htoken
  rw [if_pos htoken]
  exact Parses.pure trivial

theorem parses_expect_keyword {keyword : Keyword} {expected : String} :
    Parses input (expectKeyword keyword expected) [.keyword keyword] follow fun _ => True :=
  parses_taken (Parses.pure trivial)

theorem parses_identifier {name expected : String} :
    Parses input (takeIdentifier expected) [.identifier name] follow
      fun token => token.kind = .identifier name := by
  apply parses_at_token
  intro token htoken
  simp only [htoken]
  exact parses_advance nofun

theorem parses_expect_identifier {name expected : String} :
    Parses input (expectIdentifier expected) [.identifier name] follow (· = name) := by
  apply parses_identifier.finish
  intro token htoken
  rw [identifierName_eq htoken]
  exact Parses.pure rfl

/-- A loop runs for more rounds than there are tokens. -/
theorem parses_rounds {next : Nat → Parser α}
    (h : ∀ bound, kinds.length < bound → Parses input (next bound) kinds follow R) :
    Parses input (rounds >>= next) kinds follow R := by
  intro tokens rest hready htokens hfollow
  have hlength : kinds.length < (tokens ++ rest).length := by
    have hrest := List.length_pos_of_ne_nil hready
    rw [← htokens, List.length_map, List.length_append]
    omega
  exact h _ hlength tokens rest hready htokens hfollow

end Tokens

section Paths

theorem parses_segments (rest segments : List String) (stop : Span) {bound : Nat}
    (hbound : (renderSegments rest).length < bound) :
    Parses input (parseSegments bound segments stop) (renderSegments rest) (· ≠ .dot)
      (·.1 = segments ++ rest) := by
  induction rest generalizing bound segments stop with
  | nil =>
      obtain ⟨bound, rfl⟩ := Nat.exists_eq_add_of_lt hbound
      apply parses_not_taken fun _ hk => hk
      exact Parses.pure (List.append_nil _).symm
  | cons segment rest ih =>
      obtain ⟨bound, rfl⟩ : ∃ n, bound = n + 1 := Nat.exists_eq_succ_of_ne_zero (by omega)
      apply parses_taken
      apply parses_identifier.cons
      intro token htoken
      rw [identifierName_eq htoken]
      have hrest : (renderSegments rest).length < bound := by
        simp [renderSegments] at hbound ⊢
        omega
      have h := ih (segments ++ [segment]) token.span hrest
      rwa [List.append_assoc] at h

theorem parses_path_from (first : String) (rest : List String) (start : Span) :
    Parses input (parsePathFrom first start) (renderSegments rest) (· ≠ .dot)
      (·.erase = ⟨first :: rest, .none⟩) := by
  apply parses_rounds
  intro bound hbound
  apply (parses_segments rest [first] start hbound).finish
  rintro ⟨segments, stop⟩ (rfl : segments = [first] ++ rest)
  exact Parses.pure rfl

theorem parses_path {path : Path} (h : path.WellFormed) :
    Parses input parsePath path.render (· ≠ .dot) (·.erase = path.erase) := by
  obtain ⟨segments, span⟩ := path
  obtain ⟨first, rest, rfl⟩ := List.exists_cons_of_ne_nil h
  apply parses_identifier.cons
  intro token htoken
  rw [identifierName_eq htoken]
  exact parses_path_from first rest token.span

end Paths

section Items

variable {β δ : Type} {item : List β → Parser β} {closing : Parser Bool}
  {render : β → List TokenKind} {erase : β → δ} {trailing : Bool} {all : List β}
  {follow after : TokenKind → Prop}

/-- What the loop over items asks of an item and of the tokens around the items. -/
structure Itemized (item : List β → Parser β) (closing : Parser Bool)
    (render : β → List TokenKind) (erase : β → δ) (trailing : Bool) (all : List β)
    (follow after : TokenKind → Prop) : Prop where
  /-- Each item is parsed, whatever equals the items before it. -/
  item : ∀ done x rest before, all = done ++ x :: rest → before.map erase = done.map erase →
    Parses input (item before) (render x) follow (fun parsed => erase parsed = erase x)
  comma : follow .comma
  ends : ∀ k, after k → follow k ∧ k ≠ .comma
  /-- No item is taken for the end of the list. -/
  goesOn : ∀ x ∈ all, ∀ kinds k,
    Parses input closing [] (fun next => next = (render x ++ kinds).headD k) (· = false)
  /-- The end of the list is recognised behind a comma. -/
  closes : trailing = true → Parses input closing [] after (· = true)

theorem separated_cons (render : β → List TokenKind) (trailing : Bool) (x : β) (xs : List β) :
    ∃ kinds, separated TokenKind.comma trailing ((x :: xs).map render) = render x ++ kinds := by
  cases xs with
  | nil => exact ⟨_, rfl⟩
  | cons y rest => exact ⟨_, rfl⟩

theorem Itemized.parses (h : Itemized item closing render erase trailing all follow after)
    {xs : List β} (hne : xs ≠ []) (done before : List β) {bound : Nat}
    (hall : all = done ++ xs) (hbefore : before.map erase = done.map erase)
    (hbound : (separated TokenKind.comma trailing (xs.map render)).length < bound) :
    Parses input (parseItems item closing bound before)
      (separated .comma trailing (xs.map render)) after
      (fun parsed => parsed.map erase = all.map erase) := by
  induction xs generalizing done before bound with
  | nil => exact absurd rfl hne
  | cons x rest ih =>
      obtain ⟨bound, rfl⟩ : ∃ n, bound = n + 1 := Nat.exists_eq_succ_of_ne_zero (by omega)
      cases rest with
      | nil =>
          apply (h.item done x [] before hall hbefore).bind
          · intro parsed hparsed
            have hdone : (before ++ [parsed]).map erase = all.map erase := by
              rw [hall, List.map_append, List.map_append, hbefore, List.map_singleton,
                List.map_singleton, hparsed]
            cases trailing with
            | true =>
                apply parses_taken
                apply (h.closes rfl).finish
                rintro _ rfl
                exact Parses.pure hdone
            | false =>
                change Parses input _ [] after _
                apply parses_not_taken
                · exact fun k hk => (h.ends k hk).2
                · exact Parses.pure hdone
          · intro k hk
            cases trailing with
            | true => exact h.comma
            | false => exact (h.ends k hk).1
      | cons y rest =>
          apply (h.item done x (y :: rest) before hall hbefore).bind
          · intro parsed hparsed
            apply parses_taken
            obtain ⟨kinds, hkinds⟩ : ∃ kinds,
                separated TokenKind.comma trailing ((y :: rest).map render) = render y ++ kinds :=
              separated_cons render trailing y rest
            have hy : y ∈ all := by simp [hall]
            apply Parses.look (Q := (· = false))
            · intro k _
              have hgoes := h.goesOn y hy kinds k
              rwa [← hkinds] at hgoes
            rintro _ rfl
            apply ih (by simp) (done ++ [x]) (before ++ [parsed])
            · rw [hall, List.append_assoc, List.singleton_append]
            · rw [List.map_append, List.map_append, hbefore, List.map_singleton,
                List.map_singleton, hparsed]
            · simp only [List.map_cons, separated, List.length_append, List.length_cons] at hbound ⊢
              omega
          · intro k _
            exact h.comma

/-- A list before its closing token, which may be empty. -/
theorem Itemized.parses_list {close : TokenKind}
    (h : Itemized item (atSimple close) render erase trailing all follow (· = close)) :
    Parses input (parseList item close) (separated .comma trailing (all.map render)) (· = close)
      (fun parsed => parsed.map erase = all.map erase) := by
  cases all with
  | nil =>
      apply Parses.look (Q := (· = true))
      · rintro _ rfl
        exact parses_at
      rintro _ rfl
      exact Parses.pure rfl
  | cons x rest =>
      obtain ⟨kinds, hkinds⟩ := separated_cons render trailing x rest
      apply Parses.look (Q := (· = false))
      · intro k _
        have hgoes := h.goesOn x (List.mem_cons_self ..) kinds k
        rwa [← hkinds] at hgoes
      rintro _ rfl
      apply parses_rounds
      intro bound hbound
      exact h.parses (by simp) [] [] rfl rfl hbound

end Items

section Expressions

variable {spelling : Spelling}

/-- A token that ends an expression of this minimum precedence. -/
def Stops (minimum : Nat) (kind : TokenKind) : Prop :=
  kind ≠ .dot ∧ ∀ operator precedence, binaryOperator kind = some (operator, precedence) →
    precedence < minimum

/-- An expression where an operand of this precedence is expected. -/
def written (spelling : Spelling) (minimum : Nat) (e : Expression) : List TokenKind :=
  parenthesize (e.level < minimum) (renderExpression spelling e)

theorem binaryOperator_token (operator : BinaryOperator) :
    binaryOperator (operator.token spelling) = some (operator, operator.precedence) := by
  cases operator with
  | equal => rw [BinaryOperator.token]; split <;> rfl
  | _ => rfl

theorem unaryOperator_token (operator : UnaryOperator) :
    unaryOperator (operator.token spelling) = some operator := by
  cases operator with
  | not => rw [UnaryOperator.token]; split <;> rfl
  | _ => rfl

theorem BinaryOperator.token_ne_eof (operator : BinaryOperator) :
    operator.token spelling ≠ .eof := by
  intro h
  cases (congrArg binaryOperator h).symm.trans (binaryOperator_token operator)

theorem UnaryOperator.token_ne_eof (operator : UnaryOperator) :
    operator.token spelling ≠ .eof := by
  intro h
  cases (congrArg unaryOperator h).symm.trans (unaryOperator_token operator)

theorem Stops.token (operator : BinaryOperator) :
    Stops (operator.precedence + 1) (operator.token spelling) := by
  constructor
  · intro h
    cases (congrArg binaryOperator h).symm.trans (binaryOperator_token operator)
  · intro other precedence h
    rw [binaryOperator_token] at h
    cases h
    exact Nat.lt_succ_self _

theorem Stops.mono {m q : Nat} {kind : TokenKind} (h : Stops m kind) (hmq : m ≤ q) :
    Stops q kind :=
  ⟨h.1, fun operator precedence hkind => (h.2 operator precedence hkind).trans_le hmq⟩

theorem BinaryOperator.precedence_bounds (operator : BinaryOperator) :
    1 ≤ operator.precedence ∧ operator.precedence < UnaryOperator.precedence := by
  cases operator <;> decide

theorem Expression.level_pos (e : Expression) : 1 ≤ e.level := by
  cases e with
  | binary _ operator _ _ => exact operator.precedence_bounds.1
  | _ => simp [Expression.level, UnaryOperator.precedence]

theorem written_of_le {minimum : Nat} {e : Expression} (h : minimum ≤ e.level) :
    written spelling minimum e = renderExpression spelling e := by
  rw [written, parenthesize, if_neg (by simpa using h)]

theorem written_of_lt {minimum : Nat} {e : Expression} (h : e.level < minimum) :
    written spelling minimum e = .leftParen :: (renderExpression spelling e ++ [.rightParen]) := by
  rw [written, parenthesize, if_pos (by simpa using h)]

theorem renderValues_eq (values : List Expression) :
    renderValues spelling values =
      separated .comma spelling.trailingComma (values.map (renderExpression spelling)) := by
  induction values with
  | nil => rfl
  | cons value rest ih =>
      rw [renderValues, ih]
      cases rest with
      | nil => simp [comma, separated]
      | cons next rest => simp [comma, separated]

theorem renderFields_eq (fields : List ObjectField) :
    renderFields spelling fields =
      separated .comma spelling.trailingComma (fields.map (renderField spelling)) := by
  induction fields with
  | nil => rfl
  | cons field rest ih =>
      rw [renderFields, ih]
      cases rest with
      | nil => simp [comma, separated]
      | cons next rest => simp [comma, separated]

theorem eraseValues_eq_map (values : List Expression) :
    eraseValues values = values.map eraseExpression := by
  induction values with
  | nil => rfl
  | cons value rest ih => rw [eraseValues, ih, List.map_cons]

theorem eraseFields_eq_map (fields : List ObjectField) :
    eraseFields fields = fields.map eraseField := by
  induction fields with
  | nil => rfl
  | cons field rest ih => rw [eraseFields, ih, List.map_cons]

@[simp] theorem eraseExpression_withSpan (span : Span) (e : Expression) :
    eraseExpression (e.withSpan span) = eraseExpression e := by
  cases e <;> rfl

/-- A token with which an expression may begin, or a field of an object. -/
def Starts (kind : TokenKind) : Prop := kind ≠ .rightBracket ∧ kind ≠ .rightBrace

theorem Literal.starts_token (value : Literal) : Starts value.token := by
  rcases value with _ | value | _ | _ | _
  · exact ⟨nofun, nofun⟩
  · cases value <;> exact ⟨nofun, nofun⟩
  all_goals exact ⟨nofun, nofun⟩

theorem starts_expression (spelling : Spelling) {e : Expression} (he : e.WellFormed) :
    ∃ kind kinds, renderExpression spelling e = kind :: kinds ∧ Starts kind := by
  induction he with
  | literal value _ => exact ⟨_, _, rfl, value.starts_token⟩
  | @path names _ h =>
      obtain ⟨first, rest, hsegments⟩ := List.exists_cons_of_ne_nil h
      refine ⟨.identifier first, renderSegments rest, ?_, nofun, nofun⟩
      rw [renderExpression, Path.render, hsegments]
  | array _ _ _ => exact ⟨_, _, rfl, nofun, nofun⟩
  | object _ _ _ _ => exact ⟨_, _, rfl, nofun, nofun⟩
  | unary operator _ _ _ =>
      refine ⟨_, _, rfl, ?_, ?_⟩
      all_goals
        intro h
        cases (congrArg unaryOperator h).symm.trans (unaryOperator_token operator)
  | @binary left right operator _ _ _ ih _ =>
      rw [renderExpression]
      by_cases hlevel : left.level < operator.precedence
      · rw [parenthesize, if_pos (by simpa using hlevel)]
        exact ⟨_, _, rfl, nofun, nofun⟩
      · obtain ⟨kind, kinds, hkinds, hkind⟩ := ih
        rw [parenthesize, if_neg (by simpa using hlevel), hkinds]
        exact ⟨kind, _, rfl, hkind⟩

/-- The expression is parsed where an operand of a prefix operator is expected. A token takes no
more than four frames of the stack. -/
def Operand (spelling : Spelling) (e : Expression) : Prop :=
  ∀ frames, 4 * (written spelling UnaryOperator.precedence e).length ≤ frames + 1 →
    Parses input (parseUnary frames) (written spelling UnaryOperator.precedence e) (· ≠ .dot)
      (fun parsed => eraseExpression parsed = eraseExpression e)

/-- The expression becomes the left operand of whatever comes after it. -/
def Climbs (spelling : Spelling) (e : Expression) (q : Nat) : Prop :=
  ∀ (m frames : Nat) (kinds : List TokenKind) (follow : TokenKind → Prop) (R : Expression → Prop),
    m ≤ q → 4 * (written spelling q e).length ≤ frames + 1 →
    (∀ k, follow k → Stops (q + 1) (kinds.headD k)) →
    (∀ left bound, eraseExpression left = eraseExpression e → kinds.length < bound →
      Parses input (parseOperators (parseExpression frames) m bound left) kinds follow R) →
    Parses input (parseExpression (frames + 1) m) (written spelling q e ++ kinds) follow R

/-- The expression is parsed where an operand of this precedence is expected. -/
def Parsed (spelling : Spelling) (e : Expression) (q : Nat) : Prop :=
  ∀ frames, 4 * (written spelling q e).length ≤ frames + 1 →
    Parses input (parseExpression (frames + 1) q) (written spelling q e) (Stops q)
      (fun parsed => eraseExpression parsed = eraseExpression e)

theorem Operand.climbs {e : Expression} {q : Nat} (h : Operand spelling e)
    (hq : written spelling q e = written spelling UnaryOperator.precedence e) :
    Climbs spelling e q := by
  intro m frames kinds follow R hmq hroom hfollow hnext
  rw [hq] at hroom ⊢
  rw [parseExpression]
  apply (h frames hroom).bind
  · intro left hleft
    apply parses_rounds
    intro bound hbound
    exact hnext left bound hleft hbound
  · exact fun k hk => (hfollow k hk).1

theorem parses_no_operator {expression : Nat → Parser Expression} {minimum bound : Nat}
    {left : Expression} (hbound : 0 < bound) :
    Parses input (parseOperators expression minimum bound left) [] (Stops minimum) (· = left) := by
  obtain ⟨bound, rfl⟩ := Nat.exists_eq_add_of_lt hbound
  apply parses_current.finish
  intro token htoken
  split
  · rename_i operator precedence hoperator
    rw [if_pos (htoken.2 operator precedence hoperator)]
    exact Parses.pure rfl
  · exact Parses.pure rfl

theorem Climbs.parsed {e : Expression} {q : Nat} (h : Climbs spelling e q) :
    Parsed spelling e q := by
  intro frames hroom
  have hparses := h q frames [] (Stops q) _ (le_refl q) hroom
    (fun k hk => hk.mono (Nat.le_succ q)) (fun left bound hleft hbound =>
      (parses_no_operator hbound).weaken (fun _ hk => hk) fun _ hparsed => hparsed ▸ hleft)
  rwa [List.append_nil] at hparses

theorem parses_primary {kind : TokenKind} {kinds : List TokenKind} {follow : TokenKind → Prop}
    {R : Expression → Prop} {frames : Nat} (hkind : unaryOperator kind = none)
    (h : Parses input (parsePrimary frames) (kind :: kinds) follow R) :
    Parses input (parseUnary (frames + 1)) (kind :: kinds) follow R := by
  rw [parseUnary]
  apply parses_at_token
  intro token htoken
  simp only [htoken, hkind]
  exact h

theorem parses_literal (value : Literal) {frames : Nat} {follow : TokenKind → Prop} :
    Parses input (parsePrimary (frames + 1)) [value.token] follow
      (fun parsed => eraseExpression parsed = .literal value .none) := by
  rw [parsePrimary]
  apply (parses_advance (by rcases value with _ | ⟨_ | _⟩ | _ | _ | _ <;> nofun)).finish
  intro token htoken
  rcases value with _ | ⟨_ | _⟩ | _ | _ | _
  all_goals
    simp only [primaryOf, htoken, Literal.token]
    exact Parses.pure rfl

theorem parses_operand_path {names : Path} (h : names.WellFormed) {frames : Nat} :
    Parses input (parsePrimary (frames + 1)) names.render (· ≠ .dot)
      (fun parsed => eraseExpression parsed = .path names.erase .none) := by
  obtain ⟨segments, span⟩ := names
  obtain ⟨first, rest, rfl⟩ := List.exists_cons_of_ne_nil h
  rw [parsePrimary]
  apply (parses_advance (by nofun)).cons
  intro token htoken
  simp only [primaryOf, htoken]
  apply (parses_path_from first rest token.span).map
  intro path hpath
  rw [eraseExpression, hpath]
  rfl

theorem length_le_separated {β : Type} (render : β → List TokenKind) (trailing : Bool) {x : β}
    {all : List β} (h : x ∈ all) :
    (render x).length ≤ (separated TokenKind.comma trailing (all.map render)).length := by
  induction all with
  | nil => cases h
  | cons y rest ih =>
      cases rest with
      | nil =>
          cases List.mem_singleton.mp h
          simp [separated]
      | cons z rest =>
          rw [List.map_cons, List.map_cons, separated, List.length_append, List.length_cons]
          rcases List.mem_cons.mp h with rfl | hmem
          · omega
          · have hrest := ih hmem
            rw [List.map_cons] at hrest
            omega

/-- Inside brackets an expression is parsed on any stack with room for its tokens. -/
theorem Parsed.nested {e : Expression} (h : Parsed spelling e 1) {frames : Nat}
    (hroom : 4 * (renderExpression spelling e).length < frames) :
    Parses input (parseExpression frames 1) (renderExpression spelling e) (Stops 1)
      (fun parsed => eraseExpression parsed = eraseExpression e) := by
  have hwritten : written spelling 1 e = renderExpression spelling e := written_of_le e.level_pos
  obtain ⟨frames, rfl⟩ : ∃ n, frames = n + 1 := Nat.exists_eq_succ_of_ne_zero (by omega)
  have hparses := h frames (by rw [hwritten]; omega)
  rwa [hwritten] at hparses

theorem parses_parenthesized {e : Expression} {frames : Nat} (h : Parsed spelling e 1)
    (hroom : 4 * (renderExpression spelling e).length < frames) {follow : TokenKind → Prop} :
    Parses input (parsePrimary (frames + 1))
      (.leftParen :: (renderExpression spelling e ++ [.rightParen])) follow
      (fun parsed => eraseExpression parsed = eraseExpression e) := by
  rw [parsePrimary]
  apply (parses_advance (by nofun)).cons
  intro token htoken
  simp only [primaryOf, htoken]
  apply (h.nested hroom).bind
  · intro inner hparsed
    apply (parses_expect (by nofun)).map
    intro stop _
    rw [eraseExpression_withSpan, hparsed]
  · exact fun _ _ => ⟨nofun, nofun⟩

theorem itemized_values {values : List Expression} {frames : Nat}
    (hvalues : ∀ value ∈ values, value.WellFormed ∧ Parsed spelling value 1)
    (hroom : 4 * (renderValues spelling values).length < frames) :
    Itemized (fun _ => parseExpression frames 1) (atSimple .rightBracket)
      (renderExpression spelling) eraseExpression spelling.trailingComma values (Stops 1)
      (· = .rightBracket) where
  item done value rest before hall _ := by
    have hvalue : value ∈ values := by simp [hall]
    have hlength := length_le_separated (renderExpression spelling) spelling.trailingComma hvalue
    rw [renderValues_eq] at hroom
    exact (hvalues value hvalue).2.nested (by omega)
  comma := ⟨nofun, nofun⟩
  ends := by
    rintro _ rfl
    exact ⟨⟨nofun, nofun⟩, nofun⟩
  goesOn value hvalue kinds k := by
    obtain ⟨kind, front, hfront, hstarts⟩ := starts_expression spelling (hvalues value hvalue).1
    apply parses_at_not.weaken
    · rintro _ rfl
      rw [hfront]
      exact hstarts.1
    · exact fun _ h => h
  closes _ := parses_at

theorem parses_key (name : String) {follow : TokenKind → Prop} :
    Parses input parseKey [keyToken spelling name] follow (·.1 = name) := by
  have hkind : keyToken spelling name = .string name ∨
      keyToken spelling name = .identifier name := by
    rw [keyToken]
    split
    · exact .inl rfl
    · exact .inr rfl
  rcases hkind with hkind | hkind
  all_goals
    rw [hkind]
    apply (parses_advance (by nofun)).finish
    intro token htoken
    simp only [htoken]
    exact Parses.pure rfl

theorem name_eraseField (field : ObjectField) : (eraseField field).name = field.name := by
  cases field
  rfl

theorem map_name_eraseField (fields : List ObjectField) :
    (fields.map eraseField).map ObjectFieldOf.name = fields.map ObjectFieldOf.name := by
  rw [List.map_map]
  exact List.map_congr_left fun field _ => name_eraseField field

theorem itemized_fields {fields : List ObjectField} {frames : Nat}
    (hdistinct : (fields.map ObjectFieldOf.name).Nodup)
    (hfields : ∀ field ∈ fields, Parsed spelling field.value 1)
    (hroom : 4 * (renderFields spelling fields).length < frames) :
    Itemized (parseField (parseExpression frames 1)) (atSimple .rightBrace)
      (renderField spelling) eraseField spelling.trailingComma fields (Stops 1)
      (· = .rightBrace) where
  item done field rest before hall hbefore := by
    have hfield : field ∈ fields := by simp [hall]
    have hlength := length_le_separated (renderField spelling) spelling.trailingComma hfield
    rw [renderFields_eq] at hroom
    have hfresh : field.name ∉ before.map ObjectFieldOf.name := by
      rw [← map_name_eraseField, hbefore, map_name_eraseField]
      rw [hall, List.map_append, List.map_cons] at hdistinct
      exact fun hmem => (List.nodup_append.mp hdistinct).2.2 _ hmem _ (List.mem_cons_self ..) rfl
    obtain ⟨name, value, span⟩ := field
    apply (parses_key name).cons
    rintro ⟨key, start⟩ (rfl : key = name)
    simp only [if_neg hfresh]
    apply (parses_expect (by nofun)).cons
    intro _ _
    apply ((hfields _ hfield).nested _).map
    · intro parsed hparsed
      rw [eraseField, hparsed]
      rfl
    · rw [renderField, List.length_cons, List.length_cons] at hlength
      change 4 * (renderExpression spelling value).length < frames
      omega
  comma := ⟨nofun, nofun⟩
  ends := by
    rintro _ rfl
    exact ⟨⟨nofun, nofun⟩, nofun⟩
  goesOn field hfield kinds k := by
    apply parses_at_not.weaken
    · rintro _ rfl
      rw [renderField, keyToken]
      split <;> nofun
    · exact fun _ h => h
  closes _ := parses_at

theorem parses_array {values : List Expression} {frames : Nat} {follow : TokenKind → Prop}
    (span : Span) (hvalues : ∀ value ∈ values, value.WellFormed ∧ Parsed spelling value 1)
    (hroom : 4 * (renderValues spelling values).length < frames) :
    Parses input (parsePrimary (frames + 2))
      (renderExpression spelling (.array values span)) follow
      (fun parsed => eraseExpression parsed = eraseExpression (.array values span)) := by
  have hitems := (itemized_values hvalues hroom).parses_list
  rw [← renderValues_eq] at hitems
  rw [renderExpression, parsePrimary]
  apply (parses_advance (by nofun)).cons
  intro token htoken
  simp only [primaryOf, htoken]
  rw [parseArray]
  apply hitems.bind
  · intro parsed hparsed
    apply (parses_expect (by nofun)).map
    intro stop _
    rw [eraseExpression, eraseExpression, eraseValues_eq_map, eraseValues_eq_map, hparsed]
  · exact fun _ _ => rfl

theorem parses_object {fields : List ObjectField} {frames : Nat} {follow : TokenKind → Prop}
    (span : Span) (hdistinct : (fields.map ObjectFieldOf.name).Nodup)
    (hfields : ∀ field ∈ fields, Parsed spelling field.value 1)
    (hroom : 4 * (renderFields spelling fields).length < frames) :
    Parses input (parsePrimary (frames + 2))
      (renderExpression spelling (.object fields span)) follow
      (fun parsed => eraseExpression parsed = eraseExpression (.object fields span)) := by
  have hitems := (itemized_fields hdistinct hfields hroom).parses_list
  rw [← renderFields_eq] at hitems
  rw [renderExpression, parsePrimary]
  apply (parses_advance (by nofun)).cons
  intro token htoken
  simp only [primaryOf, htoken]
  rw [parseObject]
  apply hitems.bind
  · intro parsed hparsed
    apply (parses_expect (by nofun)).map
    intro stop _
    rw [eraseExpression, eraseExpression, eraseFields_eq_map, eraseFields_eq_map, hparsed]
  · exact fun _ _ => rfl

/-- An operator and its right operand, behind the left operand. -/
theorem parses_operator {right : Expression} {operator : BinaryOperator}
    (hright : Parsed spelling right (operator.precedence + 1)) {m frames bound : Nat}
    {left : Expression} {kinds : List TokenKind} {follow : TokenKind → Prop}
    {R : Expression → Prop} (hm : m ≤ operator.precedence)
    (hroom : 4 * (written spelling (operator.precedence + 1) right).length ≤ frames + 1)
    (hfollow : ∀ k, follow k → Stops (operator.precedence + 1) (kinds.headD k))
    (hnext : ∀ parsed span, eraseExpression parsed = eraseExpression right →
      Parses input (parseOperators (parseExpression (frames + 1)) m bound
        (.binary left operator parsed span)) kinds follow R) :
    Parses input (parseOperators (parseExpression (frames + 1)) m (bound + 1) left)
      (operator.token spelling :: (written spelling (operator.precedence + 1) right ++ kinds))
      follow R := by
  apply parses_at_token
  intro token htoken
  simp only [htoken, binaryOperator_token, if_neg (Nat.not_lt.mpr hm)]
  apply (parses_advance operator.token_ne_eof).cons
  intro _ _
  apply (hright frames hroom).bind
  · intro parsed hparsed
    exact hnext parsed _ hparsed
  · exact hfollow

/-- An infix operator: first its left operand, then the operator goes on from there. -/
theorem climbs_binary {left right : Expression} {operator : BinaryOperator} (span : Span) {q : Nat}
    (hq : q ≤ operator.precedence) (hleft : Climbs spelling left operator.precedence)
    (hright : Parsed spelling right (operator.precedence + 1)) :
    Climbs spelling (.binary left operator right span) q := by
  have hwritten : written spelling q (.binary left operator right span) =
      written spelling operator.precedence left ++
        operator.token spelling :: written spelling (operator.precedence + 1) right :=
    written_of_le hq
  intro m frames kinds follow R hmq hroom hfollow hnext
  rw [hwritten, List.length_append, List.length_cons] at hroom
  rw [hwritten, List.append_assoc, List.cons_append]
  obtain ⟨frames, rfl⟩ : ∃ n, frames = n + 1 := Nat.exists_eq_succ_of_ne_zero (by omega)
  apply hleft m _ _ _ _ (hmq.trans hq) (by omega)
  · exact fun _ _ => Stops.token operator
  intro parsedLeft bound hparsedLeft hbound
  rw [List.length_cons, List.length_append] at hbound
  obtain ⟨bound, rfl⟩ : ∃ n, bound = n + 1 := Nat.exists_eq_succ_of_ne_zero (by omega)
  apply parses_operator hright (hmq.trans hq) (by omega)
  · exact fun k hk => (hfollow k hk).mono (Nat.succ_le_succ hq)
  · intro parsedRight span' hparsedRight
    apply hnext _ bound _ (by omega)
    rw [eraseExpression, eraseExpression, hparsedLeft, hparsedRight]

/-- What is shown of every well-formed expression, from the same of its parts. -/
structure Inverted (spelling : Spelling) (e : Expression) : Prop where
  operand : Operand spelling e
  climbs : ∀ q, 1 ≤ q → q ≤ UnaryOperator.precedence → Climbs spelling e q

/-- An expression that binds more tightly than the infix operators. -/
theorem Operand.inverted {e : Expression} (h : Operand spelling e)
    (hlevel : UnaryOperator.precedence ≤ e.level) : Inverted spelling e := by
  constructor
  · exact h
  · intro q _ hq
    apply h.climbs
    rw [written_of_le hlevel, written_of_le (hq.trans hlevel)]

theorem Inverted.parsed {e : Expression} (h : Inverted spelling e) {q : Nat} (hpos : 1 ≤ q)
    (hq : q ≤ UnaryOperator.precedence) : Parsed spelling e q :=
  (h.climbs q hpos hq).parsed

/-- An expression that is no prefix operation, as an operand. -/
theorem operand_of_primary {e : Expression} {kind : TokenKind} {kinds : List TokenKind}
    (hwritten : written spelling UnaryOperator.precedence e = kind :: kinds)
    (hkind : unaryOperator kind = none)
    (h : ∀ frames, 4 * (kind :: kinds).length ≤ frames + 4 →
      Parses input (parsePrimary (frames + 2)) (kind :: kinds) (· ≠ .dot)
        (fun parsed => eraseExpression parsed = eraseExpression e)) : Operand spelling e := by
  intro frames hroom
  rw [hwritten] at hroom ⊢
  obtain ⟨frames, rfl⟩ : ∃ n, frames = n + 3 := by
    rw [List.length_cons] at hroom
    exact ⟨frames - 3, by omega⟩
  exact parses_primary hkind (h frames hroom)

/-- A prefix operation, when its operand is parsed back. -/
theorem inverted_unary (operator : UnaryOperator) {operand : Expression} (span : Span)
    (h : Inverted spelling operand) : Inverted spelling (.unary operator operand span) := by
  refine Operand.inverted ?_ (le_refl UnaryOperator.precedence)
  intro frames hroom
  have hwritten : written spelling UnaryOperator.precedence (.unary operator operand span) =
      operator.token spelling :: written spelling UnaryOperator.precedence operand := rfl
  rw [hwritten] at hroom ⊢
  rw [List.length_cons] at hroom
  obtain ⟨frames, rfl⟩ : ∃ n, frames = n + 1 := Nat.exists_eq_succ_of_ne_zero (by omega)
  rw [parseUnary]
  apply parses_at_token
  intro token htoken
  simp only [htoken, unaryOperator_token]
  apply (parses_advance operator.token_ne_eof).cons
  intro _ _
  apply (h.operand frames (by omega)).map
  intro parsed hparsed
  rw [eraseExpression, eraseExpression, hparsed]

/-- An infix operation, when its operands are. Where it binds less tightly than what is around it,
it has parentheses. -/
theorem inverted_binary {left right : Expression} (operator : BinaryOperator) (span : Span)
    (hleft : Inverted spelling left) (hright : Inverted spelling right) :
    Inverted spelling (.binary left operator right span) := by
  obtain ⟨hpos, hlt⟩ := operator.precedence_bounds
  have hclimbs : ∀ q, q ≤ operator.precedence →
      Climbs spelling (.binary left operator right span) q := fun q hq =>
    climbs_binary span hq (hleft.climbs _ hpos hlt.le) (hright.parsed (Nat.le_add_left ..) hlt)
  have hparens : ∀ q, operator.precedence < q →
      written spelling q (.binary left operator right span) = .leftParen ::
        (renderExpression spelling (.binary left operator right span) ++ [.rightParen]) :=
    fun q hq => written_of_lt hq
  have hoperand : Operand spelling (.binary left operator right span) := by
    apply operand_of_primary (hparens _ hlt) rfl
    intro frames hroom
    rw [List.length_cons, List.length_append, List.length_singleton] at hroom
    exact parses_parenthesized (hclimbs 1 hpos).parsed (by omega)
  constructor
  · exact hoperand
  · intro q _ _
    by_cases hq : q ≤ operator.precedence
    · exact hclimbs q hq
    · apply hoperand.climbs
      rw [hparens q (by omega), hparens _ hlt]

/-- Every expression is parsed back, by induction on it. -/
theorem inverted {e : Expression} (he : e.WellFormed) : Inverted spelling e := by
  induction he with
  | literal value span =>
      refine Operand.inverted ?_ (Nat.le_succ UnaryOperator.precedence)
      apply operand_of_primary rfl
      · rcases value with _ | ⟨_ | _⟩ | _ | _ | _ <;> rfl
      · exact fun _ _ => parses_literal value
  | @path names span h =>
      refine Operand.inverted ?_ (Nat.le_succ UnaryOperator.precedence)
      obtain ⟨first, rest, hsegments⟩ := List.exists_cons_of_ne_nil h
      have hrender : names.render = .identifier first :: renderSegments rest := by
        rw [Path.render, hsegments]
      refine operand_of_primary hrender rfl ?_
      intro _ _
      rw [← hrender]
      exact parses_operand_path h
  | @array values span h ih =>
      refine Operand.inverted ?_ (Nat.le_succ UnaryOperator.precedence)
      apply operand_of_primary rfl rfl
      intro frames hroom
      rw [List.length_cons, List.length_append, List.length_singleton] at hroom
      apply parses_array span _ (by omega)
      intro value hvalue
      exact ⟨h value hvalue, (ih value hvalue).parsed (le_refl 1) (by decide)⟩
  | @object fields span hdistinct h ih =>
      refine Operand.inverted ?_ (Nat.le_succ UnaryOperator.precedence)
      apply operand_of_primary rfl rfl
      intro frames hroom
      rw [List.length_cons, List.length_append, List.length_singleton] at hroom
      apply parses_object span hdistinct _ (by omega)
      intro field hfield
      exact (ih field hfield).parsed (le_refl 1) (by decide)
  | @unary operator operand span h ih => exact inverted_unary operator span ih
  | @binary left right operator span _ _ ihleft ihright =>
      exact inverted_binary operator span ihleft ihright

/-- Any expression where one is expected that ends before a token of no infix operator. -/
theorem parses_expression {e : Expression} (he : e.WellFormed) {frames : Nat}
    (hroom : 4 * (renderExpression spelling e).length < frames) :
    Parses input (parseExpression frames 1) (renderExpression spelling e) (Stops 1)
      (fun parsed => eraseExpression parsed = eraseExpression e) :=
  ((inverted he).parsed (le_refl 1) (by decide)).nested hroom

end Expressions

end NovaBase.NovaQl
