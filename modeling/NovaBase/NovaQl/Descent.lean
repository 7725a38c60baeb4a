import NovaBase.Lib.Consumption
import NovaBase.NovaQl.Render
import NovaBase.NovaQl.Scanning
import NovaBase.NovaQl.Parser

/-!
# The parser stays on its tokens

On any tokens that end with the end token, the parser never looks behind it and
none of its unreachable arms is reached. What it accepts is a well-formed tree of
the names and ranges of its tokens; its errors lie in the same ranges. A token
takes no more than four frames of the stack.
-/

namespace NovaBase.NovaQl

open Lib

/-- What is known of the tokens: a bound on their ranges and the names of identifiers. Where the
stack may be too small for them, the parser may overflow. -/
structure Guard where
  limit : Nat
  Name : String → Prop
  Shallow : Prop

namespace Guard

variable (g : Guard)

/-- The token lies in the source, and its name is allowed. -/
def Admits (token : Token) : Prop :=
  token.span.Within g.limit ∧ ∀ name, token.kind = .identifier name → g.Name name

/-- Tokens up to the end token. -/
structure Sound (tokens : List Token) : Prop where
  ends : ∃ front stop, tokens = front ++ [stop] ∧ stop.kind = .eof
  admits : ∀ token ∈ tokens, g.Admits token

/-- The parser stands before an end of the tokens, and its errors lie in their ranges. -/
def reader : Reader (Fault ParseError) (List Token) Token where
  Shows tokens input := tokens = input ∧ g.Sound input
  Reported fault := (∃ cause, fault = .error cause ∧ cause.span.Within g.limit) ∨
    (fault = .overflow ∧ g.Shallow)

end Guard

theorem Span.Within.join {limit : Nat} {a b : Span} (ha : a.Within limit) (hb : b.Within limit) :
    (a.join b).Within limit := by
  obtain ⟨hstart, hstop⟩ := ha
  obtain ⟨-, hstop'⟩ := hb
  constructor
  · calc
      min a.start b.start ≤ a.start := Nat.min_le_left _ _
      _ ≤ a.stop := hstart
      _ ≤ max a.stop b.stop := Nat.le_max_left _ _
  · exact Nat.max_le.mpr ⟨hstop, hstop'⟩

namespace Guard.Sound

variable {g : Guard} {token : Token} {tokens : List Token}

theorem exists_cons (h : g.Sound tokens) : ∃ token rest, tokens = token :: rest := by
  obtain ⟨front, stop, rfl, -⟩ := h.ends
  exact List.exists_cons_of_ne_nil (by simp)

/-- Behind any token but the end there are tokens up to the end. -/
theorem tail (h : g.Sound (token :: tokens)) (hkind : token.kind ≠ .eof) : g.Sound tokens := by
  obtain ⟨front, stop, hfront, hstop⟩ := h.ends
  refine ⟨?_, (List.forall_mem_cons.mp h.admits).2⟩
  cases front with
  | nil =>
      obtain ⟨rfl, -⟩ := List.cons.inj hfront
      exact absurd hstop hkind
  | cons first front =>
      obtain ⟨-, rfl⟩ := List.cons.inj hfront
      exact ⟨front, stop, rfl, hstop⟩

end Guard.Sound

section Tokens

variable {g : Guard} {α β : Type} {input : List Token} {p : Parser α}
  {Q : α → List Token → List Token → Prop} {P : β → List Token → List Token → Prop}

theorem descends_current {next : Token → Parser β}
    (hnext : ∀ token rest, input = token :: rest → g.Admits token →
      Consumes g.reader (next token) input P) :
    Consumes g.reader (current >>= next) input P := by
  rintro tokens ⟨rfl, hsound⟩
  obtain ⟨token, rest, rfl⟩ := hsound.exists_cons
  have hadmits := hsound.admits token (List.mem_cons_self ..)
  have hcurrent : current (token :: rest) = (.ok token, token :: rest) := rfl
  rw [Action.Ends, Action.bind_of_ok hcurrent]
  exact hnext token rest rfl hadmits (token :: rest) ⟨rfl, hsound⟩

/-- There is always a token. -/
theorem descends_nonempty (h : 0 < input.length → Consumes g.reader p input Q) :
    Consumes g.reader p input Q := by
  refine Consumes.assume fun tokens hshows => h ?_
  obtain ⟨token, rest, rfl⟩ := hshows.2.exists_cons
  exact Nat.succ_pos _

theorem descends_step {token : Token} {rest : List Token} {next : Unit → Parser β}
    (hkind : token.kind ≠ .eof)
    (hnext : Consumes g.reader (next ()) rest fun b more last => P b (token :: more) last) :
    Consumes g.reader (step >>= next) (token :: rest) P := by
  have hstep : Consumes g.reader step (token :: rest)
      fun _ taken left => taken = [token] ∧ left = rest := by
    rintro tokens ⟨rfl, hsound⟩
    exact .inl ⟨(), rest, rfl, [token], rest, rfl, ⟨rfl, hsound.tail hkind⟩, rfl, rfl⟩
  apply hstep.bind
  rintro _ _ _ _ ⟨rfl, rfl⟩
  exact hnext

theorem descends_errorAt {message : Message} {span : Span} (hspan : span.Within g.limit) :
    Consumes g.reader (errorAt message span) input Q :=
  Consumes.fail (.inl ⟨_, rfl, hspan⟩)

theorem descends_error {message : Message} : Consumes g.reader (error message) input Q :=
  descends_current fun _ _ _ hadmits => descends_errorAt hadmits.1

/-- The parser moves on from every token but the end. -/
theorem descends_advance : Consumes g.reader advance input fun token taken _ =>
    g.Admits token ∧ (token.kind ≠ .eof → taken = [token]) := by
  apply descends_current
  rintro token rest rfl hadmits
  split
  · exact Consumes.pure ⟨hadmits, fun hkind => absurd (by assumption) hkind⟩
  · exact descends_step (by assumption) (Consumes.pure ⟨hadmits, fun _ => rfl⟩)

/-- The parser moves on from a token that is known not to be the end. -/
theorem descends_advance_cons {token : Token} {rest : List Token} (hkind : token.kind ≠ .eof) :
    Consumes g.reader advance (token :: rest)
      fun found taken left => found = token ∧ taken = [token] ∧ left = rest ∧ g.Admits token := by
  apply descends_current
  rintro found more hinput hadmits
  obtain ⟨rfl, rfl⟩ := List.cons.inj hinput
  rw [if_neg hkind]
  exact descends_step hkind (Consumes.pure ⟨rfl, rfl, rfl, hadmits⟩)

theorem descends_past {token : Token} {rest : List Token} {next : Token → Parser β}
    (hkind : token.kind ≠ .eof)
    (hnext : g.Admits token →
      Consumes g.reader (next token) rest fun b more last => P b (token :: more) last) :
    Consumes g.reader (advance >>= next) (token :: rest) P := by
  apply (descends_advance_cons hkind).bind
  rintro _ _ _ _ ⟨rfl, rfl, rfl, hadmits⟩
  exact hnext hadmits

theorem descends_at {kind : TokenKind} : Consumes g.reader (atSimple kind) input
    fun found taken _ => taken = [] ∧
      (found = true → ∃ token rest, input = token :: rest ∧ token.kind = kind) := by
  apply descends_current
  rintro token rest rfl -
  exact Consumes.pure ⟨rfl, fun hfound => ⟨token, rest, rfl, of_decide_eq_true hfound⟩⟩

theorem descends_consume {kind : TokenKind} (hkind : kind ≠ .eof) :
    Consumes g.reader (consumeSimple kind) input
      fun found taken _ => found = true → 1 ≤ taken.length := by
  apply descends_at.look
  intro found hfound
  cases found with
  | true =>
      obtain ⟨token, rest, rfl, rfl⟩ := hfound rfl
      exact descends_step hkind (Consumes.pure fun _ => Nat.le_add_left ..)
  | false => exact Consumes.pure nofun

theorem descends_expect {kind : TokenKind} {expected : String} :
    Consumes g.reader (expectSimple kind expected) input
      fun token taken _ => g.Admits token ∧ (kind ≠ .eof → 1 ≤ taken.length) := by
  apply descends_at.look
  intro found hfound
  cases found with
  | true =>
      obtain ⟨first, rest, rfl, rfl⟩ := hfound rfl
      by_cases hkind : first.kind = .eof
      · exact descends_advance.weaken fun _ _ _ _ h => ⟨h.1, fun hne => absurd hkind hne⟩
      · apply (descends_advance_cons hkind).weaken
        rintro _ _ _ _ ⟨rfl, rfl, -, hadmits⟩
        exact ⟨hadmits, fun _ => le_refl 1⟩
  | false => exact descends_error

theorem descends_expectKeyword {keyword : Keyword} {expected : String} :
    Consumes g.reader (expectKeyword keyword expected) input fun _ _ _ => True := by
  apply (descends_consume (by nofun)).bind
  rintro found taken rest rfl -
  split
  · exact Consumes.pure trivial
  · exact descends_error

theorem descends_takeIdentifier {expected : String} :
    Consumes g.reader (takeIdentifier expected) input fun token taken _ =>
      token.span.Within g.limit ∧ 1 ≤ taken.length ∧
        ∃ name, token.kind = .identifier name ∧ g.Name name := by
  apply descends_current
  rintro first rest rfl -
  split
  · rename_i name hname
    have hkind : first.kind ≠ .eof := by
      rw [hname]
      nofun
    apply (descends_advance_cons hkind).weaken
    rintro _ _ _ _ ⟨rfl, rfl, -, hadmits⟩
    exact ⟨hadmits.1, le_refl 1, name, hname, hadmits.2 name hname⟩
  · exact descends_error

/-- The arm for other tokens is not reached behind `takeIdentifier`. -/
theorem descends_name {expected : String} {next : Token → String → Parser β}
    (hnext : ∀ token name taken rest, input = taken ++ rest → 1 ≤ taken.length →
      token.span.Within g.limit → g.Name name →
        Consumes g.reader (next token name) rest fun b more last => P b (taken ++ more) last) :
    Consumes g.reader (do
      let token ← takeIdentifier expected
      let name ← identifierName token
      next token name) input P := by
  apply descends_takeIdentifier.bind
  rintro token taken rest hinput ⟨hspan, htaken, name, hkind, hname⟩
  rw [identifierName_eq hkind]
  exact hnext token name taken rest hinput htaken hspan hname

theorem descends_expectIdentifier {expected : String} :
    Consumes g.reader (expectIdentifier expected) input
      fun name taken _ => g.Name name ∧ 1 ≤ taken.length := by
  apply descends_takeIdentifier.bind
  rintro token taken rest _ ⟨-, htaken, name, hkind, hname⟩
  rw [identifierName_eq hkind]
  exact Consumes.pure ⟨hname, by rwa [List.append_nil]⟩

end Tokens

section Paths

variable {g : Guard} {input : List Token}

/-- A path of names in range. -/
structure Path.Sound (g : Guard) (path : Path) : Prop where
  wellFormed : path.WellFormed
  names : ∀ segment ∈ path.segments, g.Name segment
  within : path.span.Within g.limit

theorem descends_segments {bound : Nat} {segments : List String} {stop : Span}
    (hbound : input.length ≤ bound) (hne : segments ≠ [])
    (hnames : ∀ segment ∈ segments, g.Name segment) (hstop : stop.Within g.limit) :
    Consumes g.reader (parseSegments bound segments stop) input fun result _ _ =>
      result.1 ≠ [] ∧ (∀ segment ∈ result.1, g.Name segment) ∧ result.2.Within g.limit := by
  induction bound generalizing input segments stop with
  | zero => exact descends_nonempty fun hpos => absurd hpos (by omega)
  | succ bound ih =>
      apply (descends_consume (by nofun)).bind
      rintro found taken rest rfl -
      split
      · apply descends_name
        rintro token name more left rfl hmore hspan hname
        simp only [List.length_append] at hbound
        have hlonger : ∀ segment ∈ segments ++ [name], g.Name segment := by
          simpa [or_imp, forall_and] using ⟨hnames, hname⟩
        exact ih (by omega) (by simp) hlonger hspan
      · exact Consumes.pure ⟨hne, hnames, hstop⟩

theorem descends_rounds {α : Type} {next : Nat → Parser α}
    {Q : α → List Token → List Token → Prop}
    (h : Consumes g.reader (next input.length) input Q) :
    Consumes g.reader (rounds >>= next) input Q := by
  rintro tokens ⟨rfl, hsound⟩
  exact h tokens ⟨rfl, hsound⟩

theorem descends_pathFrom {first : String} {start : Span} (hfirst : g.Name first)
    (hstart : start.Within g.limit) :
    Consumes g.reader (parsePathFrom first start) input fun path _ _ => path.Sound g := by
  apply descends_rounds
  have hnames : ∀ segment ∈ [first], g.Name segment := by simpa using hfirst
  apply (descends_segments (le_refl _) (List.cons_ne_nil _ _) hnames hstart).map
  rintro ⟨segments, stop⟩ _ _ _ ⟨hne, hall, hstop⟩
  exact ⟨hne, hall, hstart.join hstop⟩

theorem descends_path : Consumes g.reader parsePath input
    fun path taken _ => path.Sound g ∧ 1 ≤ taken.length := by
  apply descends_name
  intro token name taken rest _ htaken hspan hname
  apply (descends_pathFrom hname hspan).weaken
  intro path more _ _ hpath
  rw [List.length_append]
  exact ⟨hpath, by omega⟩

end Paths

section Items

variable {g : Guard} {input : List Token} {β : Type} {item : List β → Parser β}
  {closing : Parser Bool}

/-- Every item takes a token, so the loop ends. What holds of the items is kept by one more. -/
theorem descends_items {I : List β → Prop} {bound : Nat} {items : List β}
    (hbound : input.length ≤ bound)
    (hitem : ∀ items later, later.length ≤ input.length → I items →
      Consumes g.reader (item items) later fun x taken _ => I (items ++ [x]) ∧ 1 ≤ taken.length)
    (hclosing : ∀ later, Consumes g.reader closing later fun _ taken _ => taken = [] ∧ True)
    (hitems : I items) :
    Consumes g.reader (parseItems item closing bound items) input
      fun all _ _ => all ≠ [] ∧ I all := by
  induction bound generalizing input items with
  | zero => exact descends_nonempty fun hpos => absurd hpos (by omega)
  | succ bound ih =>
      apply (hitem items input (le_refl _) hitems).bind
      rintro value taken rest rfl ⟨hvalue, htaken⟩
      have hne : items ++ [value] ≠ [] := by simp
      rw [List.length_append] at hbound hitem
      apply (descends_consume (by nofun)).bind
      rintro comma more left rfl -
      rw [List.length_append] at hbound hitem
      split
      · apply (hclosing left).look
        intro closes _
        split
        · exact Consumes.pure ⟨hne, hvalue⟩
        · exact ih (by omega) (fun items later hlater => hitem items later (by omega)) hvalue
      · exact Consumes.pure ⟨hne, hvalue⟩

theorem descends_list {I : List β → Prop} {close : TokenKind}
    (hitem : ∀ items later, later.length ≤ input.length → I items →
      Consumes g.reader (item items) later fun x taken _ => I (items ++ [x]) ∧ 1 ≤ taken.length)
    (hnone : I []) :
    Consumes g.reader (parseList item close) input fun all _ _ => I all := by
  have hat : ∀ later, Consumes g.reader (atSimple close) later fun _ taken _ => taken = [] ∧ True :=
    fun later => descends_at.weaken fun _ _ _ _ h => ⟨h.1, trivial⟩
  apply (hat input).look
  intro found _
  split
  · exact Consumes.pure hnone
  · apply descends_rounds
    exact (descends_items (le_refl _) hitem hat hnone).weaken fun _ _ _ _ h => h.2

/-- A list that nothing closes. -/
theorem descends_open {T : β → Prop} {item : Parser β} {bound : Nat}
    (hbound : input.length ≤ bound)
    (hitem : ∀ later, later.length ≤ input.length →
      Consumes g.reader item later fun x taken _ => T x ∧ 1 ≤ taken.length) :
    Consumes g.reader (parseItems (fun _ => item) (pure false) bound []) input
      fun all _ _ => all ≠ [] ∧ ∀ x ∈ all, T x := by
  apply descends_items hbound
  · intro items later hlater hitems
    apply (hitem later hlater).weaken
    intro x taken _ _ hx
    exact ⟨by simpa [or_imp, forall_and] using ⟨hitems, hx.1⟩, hx.2⟩
  · exact fun later => Consumes.pure ⟨rfl, trivial⟩
  · exact List.forall_mem_nil _

end Items

section Expressions

variable {g : Guard} {input : List Token}

/-- A well-formed tree of names and ranges that the guard admits. -/
inductive Expression.Sound (g : Guard) : Expression → Prop
  | literal (value : Literal) {span : Span} (within : span.Within g.limit) :
      Sound g (.literal value span)
  | path {names : Path} {span : Span} (within : span.Within g.limit) (h : names.Sound g) :
      Sound g (.path names span)
  | array {values : List Expression} {span : Span} (within : span.Within g.limit)
      (h : ∀ value ∈ values, Sound g value) : Sound g (.array values span)
  | object {fields : List ObjectField} {span : Span} (within : span.Within g.limit)
      (distinct : (fields.map ObjectFieldOf.name).Nodup)
      (h : ∀ field ∈ fields, Sound g field.value) : Sound g (.object fields span)
  | unary (operator : UnaryOperator) {operand : Expression} {span : Span}
      (within : span.Within g.limit) (h : Sound g operand) :
      Sound g (.unary operator operand span)
  | binary (operator : BinaryOperator) {left right : Expression} {span : Span}
      (within : span.Within g.limit) (hleft : Sound g left) (hright : Sound g right) :
      Sound g (.binary left operator right span)

namespace Expression.Sound

variable {e : Expression}

theorem within (h : e.Sound g) : e.span.Within g.limit := by
  cases h <;> assumption

theorem withSpan (h : e.Sound g) {span : Span} (hspan : span.Within g.limit) :
    (e.withSpan span).Sound g := by
  cases h with
  | literal value _ => exact .literal value hspan
  | path _ h => exact .path hspan h
  | array _ h => exact .array hspan h
  | object _ distinct h => exact .object hspan distinct h
  | unary operator _ h => exact .unary operator hspan h
  | binary operator _ hleft hright => exact .binary operator hspan hleft hright

theorem wellFormed (h : e.Sound g) : e.WellFormed := by
  induction h with
  | literal value _ => exact .literal value _
  | path _ h => exact .path _ h.wellFormed
  | array _ _ ih => exact .array _ ih
  | object _ distinct _ ih => exact .object _ distinct ih
  | unary operator _ _ ih => exact .unary operator _ ih
  | binary operator _ _ _ ihleft ihright => exact .binary operator _ ihleft ihright

end Expression.Sound

/-- The stack has room for so many calls, unless it may be too small. -/
def Guard.Fits (g : Guard) (calls frames : Nat) : Prop := g.Shallow ∨ calls ≤ frames

theorem Guard.Fits.mono {calls frames calls' frames' : Nat} (h : g.Fits calls frames)
    (hle : calls ≤ frames → calls' ≤ frames') : g.Fits calls' frames' :=
  h.imp_right hle

/-- On an empty stack there is no room for a call, and there is always a token. -/
theorem descends_overflow {α : Type} {Q : α → List Token → List Token → Prop} {frames : Nat}
    (hfits : g.Fits (4 * input.length) frames) (hframes : frames < 4) :
    Consumes g.reader overflow input Q := by
  cases hfits with
  | inl hshallow => exact Consumes.fail (.inr ⟨rfl, hshallow⟩)
  | inr hle => exact descends_nonempty fun hpos => absurd hpos (by omega)

/-- The five functions that call one another, with the frames that each leaves for its tokens. -/
structure Descends (g : Guard) (frames : Nat) : Prop where
  expression : ∀ (minimum : Nat) (input : List Token), g.Fits (4 * input.length) (frames + 1) →
    Consumes g.reader (parseExpression frames minimum) input
      fun e taken _ => e.Sound g ∧ 1 ≤ taken.length
  unary : ∀ input : List Token, g.Fits (4 * input.length) (frames + 2) →
    Consumes g.reader (parseUnary frames) input fun e taken _ => e.Sound g ∧ 1 ≤ taken.length
  primary : ∀ input : List Token, g.Fits (4 * input.length) (frames + 3) →
    Consumes g.reader (parsePrimary frames) input fun e taken _ => e.Sound g ∧ 1 ≤ taken.length
  array : ∀ (start : Span) (input : List Token), start.Within g.limit →
    g.Fits (4 * input.length) frames →
    Consumes g.reader (parseArray frames start) input fun e _ _ => e.Sound g
  object : ∀ (start : Span) (input : List Token), start.Within g.limit →
    g.Fits (4 * input.length) frames →
    Consumes g.reader (parseObject frames start) input fun e _ _ => e.Sound g

theorem ne_eof_of_binaryOperator {kind : TokenKind} {operator : BinaryOperator × Nat}
    (h : binaryOperator kind = some operator) : kind ≠ .eof := by
  rintro rfl
  cases h

theorem ne_eof_of_unaryOperator {kind : TokenKind} {operator : UnaryOperator}
    (h : unaryOperator kind = some operator) : kind ≠ .eof := by
  rintro rfl
  cases h

/-- Every infix operator takes a token, so the loop ends. -/
theorem descends_operators {expression : Nat → Parser Expression} {minimum bound : Nat}
    {left : Expression} (hbound : input.length ≤ bound)
    (hright : ∀ minimum later, later.length < input.length →
      Consumes g.reader (expression minimum) later fun e taken _ => e.Sound g ∧ 1 ≤ taken.length)
    (hleft : left.Sound g) :
    Consumes g.reader (parseOperators expression minimum bound left) input
      fun e _ _ => e.Sound g := by
  induction bound generalizing input left with
  | zero => exact descends_nonempty fun hpos => absurd hpos (by omega)
  | succ bound ih =>
      apply descends_current
      rintro token rest rfl -
      rw [List.length_cons] at hbound hright
      split
      · rename_i operator precedence hoperator
        split
        · exact Consumes.pure hleft
        · apply descends_past (ne_eof_of_binaryOperator hoperator)
          intro _
          apply (hright _ rest (Nat.lt_succ_self _)).bind
          rintro right taken later rfl ⟨hsound, htaken⟩
          rw [List.length_append] at hbound hright
          exact ih (by omega) (fun minimum later hlater => hright minimum later (by omega))
            (.binary operator (hleft.within.join hsound.within) hleft hsound)
      · exact Consumes.pure hleft

theorem Descends.expression_succ {frames : Nat} (h : Descends g frames) (minimum : Nat)
    (hfits : g.Fits (4 * input.length) (frames + 2)) :
    Consumes g.reader (parseExpression (frames + 1) minimum) input
      fun e taken _ => e.Sound g ∧ 1 ≤ taken.length := by
  rw [parseExpression]
  apply (h.unary input hfits).bind
  rintro left taken rest rfl ⟨hleft, htaken⟩
  rw [List.length_append] at hfits
  apply descends_rounds
  apply (descends_operators (le_refl _) _ hleft).weaken
  · intro e more _ _ he
    rw [List.length_append]
    exact ⟨he, by omega⟩
  · intro minimum later hlater
    exact h.expression minimum later (hfits.mono (by omega))

theorem Descends.unary_succ {frames : Nat} (h : Descends g frames)
    (hfits : g.Fits (4 * input.length) (frames + 3)) :
    Consumes g.reader (parseUnary (frames + 1)) input
      fun e taken _ => e.Sound g ∧ 1 ≤ taken.length := by
  rw [parseUnary]
  apply descends_current
  rintro token rest rfl -
  split
  · rename_i operator hoperator
    rw [List.length_cons] at hfits
    apply descends_past (ne_eof_of_unaryOperator hoperator)
    intro hadmits
    apply (h.unary rest (hfits.mono (by omega))).map
    rintro operand taken _ _ ⟨hoperand, -⟩
    exact ⟨.unary operator (hadmits.1.join hoperand.within) hoperand, Nat.le_add_left ..⟩
  · exact h.primary _ hfits

theorem Descends.primary_succ {frames : Nat} (h : Descends g frames)
    (hfits : g.Fits (4 * input.length) (frames + 4)) :
    Consumes g.reader (parsePrimary (frames + 1)) input
      fun e taken _ => e.Sound g ∧ 1 ≤ taken.length := by
  rw [parsePrimary]
  apply descends_advance.bind
  rintro token taken rest rfl ⟨hadmits, htaken⟩
  by_cases hend : token.kind = .eof
  · simp only [primaryOf, hend]
    exact descends_errorAt hadmits.1
  obtain rfl := htaken hend
  rw [List.length_append, List.length_singleton] at hfits
  have hspan : token.span.Within g.limit := hadmits.1
  have hliteral : ∀ value, Consumes g.reader
      (pure (Expression.literal value token.span) : Parser Expression) rest
      fun e more _ => e.Sound g ∧ 1 ≤ ([token] ++ more).length :=
    fun value => Consumes.pure ⟨.literal value hspan, Nat.le_add_left ..⟩
  cases hkind : token.kind with
  | integer value => simpa only [primaryOf, hkind] using hliteral (.integer value)
  | float value => simpa only [primaryOf, hkind] using hliteral (.float value)
  | string value => simpa only [primaryOf, hkind] using hliteral (.string value)
  | keyword word =>
      cases word with
      | true => simpa only [primaryOf, hkind] using hliteral (.boolean true)
      | false => simpa only [primaryOf, hkind] using hliteral (.boolean false)
      | null => simpa only [primaryOf, hkind] using hliteral .null
      | _ =>
          simp only [primaryOf, hkind]
          exact descends_errorAt hspan
  | identifier first =>
      simp only [primaryOf, hkind]
      apply (descends_pathFrom (hadmits.2 first hkind) hspan).map
      intro path more _ _ hpath
      exact ⟨.path hpath.within hpath, Nat.le_add_left ..⟩
  | leftParen =>
      simp only [primaryOf, hkind]
      apply (h.expression 1 rest (hfits.mono (by omega))).bind
      rintro inner more left rfl ⟨hinner, -⟩
      apply descends_expect.map
      intro stop last _ _ hstop
      exact ⟨hinner.withSpan (hspan.join hstop.1.1), Nat.le_add_left ..⟩
  | leftBracket =>
      simp only [primaryOf, hkind]
      apply (h.array _ rest hspan (hfits.mono (by omega))).weaken
      exact fun e more _ _ he => ⟨he, Nat.le_add_left ..⟩
  | leftBrace =>
      simp only [primaryOf, hkind]
      apply (h.object _ rest hspan (hfits.mono (by omega))).weaken
      exact fun e more _ _ he => ⟨he, Nat.le_add_left ..⟩
  | _ =>
      simp only [primaryOf, hkind]
      exact descends_errorAt hspan

theorem Descends.array_succ {frames : Nat} (h : Descends g frames) {start : Span}
    (hstart : start.Within g.limit) (hfits : g.Fits (4 * input.length) (frames + 1)) :
    Consumes g.reader (parseArray (frames + 1) start) input fun e _ _ => e.Sound g := by
  rw [parseArray]
  have hvalues : Consumes g.reader (parseList (fun _ => parseExpression frames 1) .rightBracket)
      input fun values _ _ => ∀ value ∈ values, value.Sound g := by
    apply descends_list
    · intro values later hlater hall
      apply (h.expression 1 later (hfits.mono (by omega))).weaken
      intro value taken _ _ hvalue
      exact ⟨by simpa [or_imp, forall_and] using ⟨hall, hvalue.1⟩, hvalue.2⟩
    · exact List.forall_mem_nil _
  apply hvalues.bind
  rintro values taken rest rfl hall
  apply descends_expect.map
  intro stop _ _ _ hstop
  exact .array (hstart.join hstop.1.1) hall

theorem descends_key : Consumes g.reader parseKey input
    fun key taken _ => key.2.Within g.limit ∧ 1 ≤ taken.length := by
  apply descends_advance.bind
  rintro token taken rest rfl ⟨hadmits, htaken⟩
  by_cases hend : token.kind = .eof
  · simp only [hend]
    exact descends_errorAt hadmits.1
  obtain rfl := htaken hend
  split
  case h_3 => exact descends_errorAt hadmits.1
  all_goals exact Consumes.pure ⟨hadmits.1, le_refl 1⟩

/-- Fields with sound values, none of which has the name of another. -/
def Distinct (g : Guard) (fields : List ObjectField) : Prop :=
  (fields.map ObjectFieldOf.name).Nodup ∧ ∀ field ∈ fields, field.value.Sound g

theorem descends_field {expression : Parser Expression} {fields : List ObjectField}
    (hexpression : ∀ later, later.length < input.length →
      Consumes g.reader expression later fun e taken _ => e.Sound g ∧ 1 ≤ taken.length)
    (hfields : Distinct g fields) :
    Consumes g.reader (parseField expression fields) input
      fun field taken _ => Distinct g (fields ++ [field]) ∧ 1 ≤ taken.length := by
  apply descends_key.bind
  rintro ⟨name, start⟩ taken rest rfl ⟨hstart, htaken⟩
  rw [List.length_append] at hexpression
  dsimp only
  split
  · exact descends_errorAt hstart
  · rename_i hfresh
    apply descends_expect.bind
    rintro _ colon left rfl -
    rw [List.length_append] at hexpression
    apply (hexpression left (by omega)).map
    rintro value more _ _ ⟨hvalue, -⟩
    refine ⟨⟨?_, ?_⟩, ?_⟩
    · rw [List.map_append, List.map_singleton]
      exact List.nodup_append.mpr ⟨hfields.1, List.nodup_singleton _, by
        rintro _ hmem _ hname rfl
        cases List.mem_singleton.mp hname
        exact hfresh hmem⟩
    · simpa [or_imp, forall_and] using ⟨hfields.2, hvalue⟩
    · rw [List.length_append]
      omega

theorem Descends.object_succ {frames : Nat} (h : Descends g frames) {start : Span}
    (hstart : start.Within g.limit) (hfits : g.Fits (4 * input.length) (frames + 1)) :
    Consumes g.reader (parseObject (frames + 1) start) input fun e _ _ => e.Sound g := by
  rw [parseObject]
  have hfields : Consumes g.reader (parseList (parseField (parseExpression frames 1)) .rightBrace)
      input fun fields _ _ => Distinct g fields := by
    apply descends_list
    · intro fields later hlater hall
      exact descends_field (fun last hlast => h.expression 1 last (hfits.mono (by omega))) hall
    · exact ⟨List.nodup_nil, List.forall_mem_nil _⟩
  apply hfields.bind
  rintro fields taken rest rfl ⟨hdistinct, hall⟩
  apply descends_expect.map
  intro stop _ _ _ hstop
  exact .object (hstart.join hstop.1.1) hdistinct hall

/-- One call takes one frame, and what it leaves is enough for the calls below it. -/
theorem descends (g : Guard) (frames : Nat) : Descends g frames := by
  induction frames with
  | zero =>
      constructor
      · exact fun _ _ hfits => descends_overflow hfits (by decide)
      · exact fun _ hfits => descends_overflow hfits (by decide)
      · exact fun _ hfits => descends_overflow hfits (by decide)
      · exact fun _ _ _ hfits => descends_overflow hfits (by decide)
      · exact fun _ _ _ hfits => descends_overflow hfits (by decide)
  | succ frames ih =>
      constructor
      · exact fun minimum _ hfits => ih.expression_succ minimum hfits
      · exact fun _ hfits => ih.unary_succ hfits
      · exact fun _ hfits => ih.primary_succ hfits
      · exact fun _ _ hstart hfits => ih.array_succ hstart hfits
      · exact fun _ _ hstart hfits => ih.object_succ hstart hfits

end Expressions

section Queries

variable {g : Guard} {input : List Token} {frames : Nat}

def Stage.Sound (g : Guard) : Stage → Prop
  | .filter predicate => predicate.Sound g
  | .project paths => paths ≠ [] ∧ ∀ path ∈ paths, path.Sound g
  | .sort keys => keys ≠ [] ∧ ∀ key ∈ keys, key.path.Sound g
  | .limit count => count.toNat < countBound
  | .skip count => count.toNat < countBound
  | .set assignments => assignments ≠ [] ∧
      ∀ assignment ∈ assignments, assignment.path.Sound g ∧ assignment.value.Sound g

def Command.Sound (g : Guard) : Command → Prop
  | .insert collection document =>
      g.Name collection ∧ document.isObject = true ∧ document.Sound g
  | .createIndex name collection fields =>
      (g.Name name ∧ g.Name collection) ∧ fields ≠ [] ∧ ∀ path ∈ fields, path.Sound g
  | .get name | .update name | .delete name | .createCollection name | .dropCollection name
  | .dropIndex name => g.Name name

theorem descends_expression {minimum : Nat} (hfits : g.Fits (4 * input.length) (frames + 1)) :
    Consumes g.reader (parseExpression frames minimum) input
      fun e taken _ => e.Sound g ∧ 1 ≤ taken.length :=
  (descends g frames).expression minimum input hfits

/-- The filter of a command, which is all that it brings along of the stages. -/
def Filters (g : Guard) (stages : List Stage) : Prop :=
  stages.length ≤ 1 ∧ ∀ stage ∈ stages, stage.Sound g

theorem descends_filterBody (hfits : g.Fits (4 * (input.length - 1)) (frames + 1)) :
    Consumes g.reader (parseFilterBody frames) input fun stages _ _ => Filters g stages := by
  apply descends_expect.bind
  rintro _ brace rest rfl ⟨-, hbrace⟩
  have htaken := hbrace (by nofun)
  rw [List.length_append] at hfits
  apply (descends_consume (by nofun)).bind
  rintro found closing later rfl -
  split
  · exact Consumes.pure ⟨Nat.zero_le _, List.forall_mem_nil _⟩
  · rw [List.length_append] at hfits
    apply (descends_expression (hfits.mono (by omega))).bind
    rintro e taken left rfl ⟨he, -⟩
    apply descends_expect.map
    intro _ _ _ _ _
    exact ⟨le_refl _, by simpa [Stage.Sound] using he⟩

theorem descends_insert {collection : String} (hname : g.Name collection)
    (hfits : g.Fits (4 * input.length) (frames + 1)) :
    Consumes g.reader (parseInsert frames collection) input fun command _ _ => command.Sound g := by
  apply (descends_expression hfits).bind
  rintro document taken rest rfl ⟨hdocument, -⟩
  split
  · exact Consumes.pure ⟨hname, by assumption, hdocument⟩
  · exact descends_errorAt hdocument.within

/-- A command with the filter that it brings along; commands without a pipeline bring none. -/
def Begins (g : Guard) (begun : Command × List Stage) : Prop :=
  begun.1.Sound g ∧ Filters g begun.2 ∧ (begun.2 ≠ [] → begun.1.acceptsPipeline = true)

theorem descends_operation {collection : String} (hname : g.Name collection)
    (hfits : g.Fits (4 * (input.length - 1)) (frames + 1)) :
    Consumes g.reader (parseOperation frames collection) input fun begun _ _ => Begins g begun := by
  apply descends_current
  rintro token rest rfl -
  rw [List.length_cons, Nat.add_sub_cancel] at hfits
  have hnone : Filters g [] := ⟨Nat.zero_le _, List.forall_mem_nil _⟩
  have hfilter : g.Fits (4 * (rest.length - 1)) (frames + 1) := hfits.mono (by omega)
  split
  case h_5 => exact descends_error
  case h_2 hkind =>
    apply descends_past (by rw [hkind]; nofun)
    intro _
    apply (descends_insert hname hfits).map
    exact fun command _ _ _ hcommand => ⟨hcommand, hnone, fun hne => absurd rfl hne⟩
  all_goals
    rename_i hkind
    apply descends_past (by rw [hkind]; nofun)
    intro _
    apply (descends_filterBody hfilter).map
    exact fun stages _ _ _ hstages => ⟨hname, hstages, fun _ => rfl⟩

theorem descends_collectionCommand (hfits : g.Fits (4 * (input.length - 3)) (frames + 1)) :
    Consumes g.reader (parseCollectionCommand frames) input fun begun _ _ => Begins g begun := by
  apply descends_expectIdentifier.bind
  rintro collection taken rest rfl ⟨hname, hfirst⟩
  apply descends_expect.bind
  rintro _ dot later rfl ⟨-, hdot⟩
  have hsecond := hdot (by nofun)
  simp only [List.length_append] at hfits
  exact descends_operation hname (hfits.mono (by omega))

theorem descends_pathList : Consumes g.reader parsePathList input
    fun paths _ _ => paths ≠ [] ∧ ∀ path ∈ paths, path.Sound g :=
  descends_rounds (descends_open (le_refl _) fun _ _ => descends_path)

theorem descends_create {token : Token} {rest : List Token} (hkind : token.kind ≠ .eof) :
    Consumes g.reader parseCreate (token :: rest) fun command _ _ =>
      Begins g (command, []) := by
  have hnone : Filters g [] := ⟨Nat.zero_le _, List.forall_mem_nil _⟩
  apply descends_past hkind
  intro _
  apply (descends_consume (by nofun)).bind
  rintro collection taken later rfl -
  split
  · exact descends_expectIdentifier.map fun name _ _ _ hname =>
      ⟨hname.1, hnone, fun hne => absurd rfl hne⟩
  · apply (descends_consume (by nofun)).bind
    rintro index taken later rfl -
    split
    · apply descends_expectIdentifier.bind
      rintro name taken later rfl ⟨hname, -⟩
      apply descends_expectKeyword.bind
      rintro _ taken later rfl -
      apply descends_expectIdentifier.bind
      rintro collection taken later rfl ⟨hcollection, -⟩
      apply descends_expect.bind
      rintro _ taken later rfl -
      apply descends_pathList.bind
      rintro fields taken later rfl hfields
      exact descends_expect.map fun _ _ _ _ _ =>
        ⟨⟨⟨hname, hcollection⟩, hfields⟩, hnone, fun hne => absurd rfl hne⟩
    · exact descends_error

theorem descends_drop {token : Token} {rest : List Token} (hkind : token.kind ≠ .eof) :
    Consumes g.reader parseDrop (token :: rest) fun command _ _ => Begins g (command, []) := by
  have hnone : Filters g [] := ⟨Nat.zero_le _, List.forall_mem_nil _⟩
  apply descends_past hkind
  intro _
  apply (descends_consume (by nofun)).bind
  rintro collection taken later rfl -
  split
  · exact descends_expectIdentifier.map fun name _ _ _ hname =>
      ⟨hname.1, hnone, fun hne => absurd rfl hne⟩
  · apply (descends_consume (by nofun)).bind
    rintro index taken later rfl -
    split
    · exact descends_expectIdentifier.map fun name _ _ _ hname =>
        ⟨hname.1, hnone, fun hne => absurd rfl hne⟩
    · exact descends_error

theorem descends_command (hfits : g.Fits (4 * (input.length - 3)) (frames + 1)) :
    Consumes g.reader (parseCommand frames) input fun begun _ _ => Begins g begun := by
  apply descends_current
  rintro token rest rfl -
  split
  case h_1 => exact descends_collectionCommand hfits
  case h_2 hkind => exact (descends_create (by rw [hkind]; nofun)).map fun _ _ _ _ h => h
  case h_3 hkind => exact (descends_drop (by rw [hkind]; nofun)).map fun _ _ _ _ h => h
  case h_4 => exact descends_error

theorem toNat_lt_countBound {value : Int64} (h : 0 ≤ value) :
    value.toUInt64.toNat < countBound := by
  have hint : 0 ≤ value.toInt := Int64.le_iff_toInt_le.mp h
  have hcast : value.toInt = value.toUInt64.toBitVec.toInt := rfl
  rw [hcast, BitVec.toInt_eq_toNat_cond] at hint
  have hlt := value.toUInt64.toBitVec.isLt
  have hsame : value.toUInt64.toNat = value.toUInt64.toBitVec.toNat := rfl
  rw [hsame, countBound]
  split at hint <;> omega

theorem descends_count {expected : String} :
    Consumes g.reader (expectNonnegativeInteger expected) input
      fun count _ _ => count.toNat < countBound := by
  apply descends_advance.bind
  rintro token taken rest rfl ⟨hadmits, -⟩
  split
  · split
    · exact Consumes.pure (toNat_lt_countBound (by assumption))
    · exact descends_errorAt hadmits.1
  · exact descends_errorAt hadmits.1

theorem descends_sortKey : Consumes g.reader parseSortKey input
    fun key taken _ => key.path.Sound g ∧ 1 ≤ taken.length := by
  apply descends_path.bind
  rintro path taken rest rfl ⟨hpath, htaken⟩
  apply (descends_consume (by nofun)).bind
  rintro descending more later rfl -
  split
  · exact Consumes.pure ⟨hpath, by simp; omega⟩
  · apply (descends_consume (by nofun)).map
    intro _ last _ _ _
    exact ⟨hpath, by simp; omega⟩

theorem descends_assignment (hfits : g.Fits (4 * (input.length - 2)) (frames + 1)) :
    Consumes g.reader (parseAssignment frames) input fun assignment taken _ =>
      (assignment.path.Sound g ∧ assignment.value.Sound g) ∧ 1 ≤ taken.length := by
  apply descends_path.bind
  rintro path taken rest rfl ⟨hpath, htaken⟩
  apply descends_expect.bind
  rintro _ equal later rfl ⟨-, hequal⟩
  have hmore := hequal (by nofun)
  simp only [List.length_append] at hfits
  apply (descends_expression (hfits.mono (by omega))).map
  rintro value last _ _ ⟨hvalue, -⟩
  exact ⟨⟨hpath, hvalue⟩, by simp; omega⟩

theorem descends_stage (hfits : g.Fits (4 * (input.length - 3)) (frames + 1)) :
    Consumes g.reader (parseStage frames) input
      fun stage _ _ => stage.Sound g ∧ stage.isFilter = false := by
  apply descends_current
  rintro token rest rfl -
  rw [List.length_cons] at hfits
  split
  case h_6 => exact descends_error
  all_goals
    rename_i hkind
    apply descends_past (by rw [hkind]; nofun)
    intro _
  · exact descends_pathList.map fun paths _ _ _ hpaths => ⟨hpaths, rfl⟩
  · apply descends_rounds
    apply (descends_open (le_refl _) fun _ _ => descends_sortKey).map
    exact fun keys _ _ _ hkeys => ⟨hkeys, rfl⟩
  · exact descends_count.map fun count _ _ _ hcount => ⟨hcount, rfl⟩
  · exact descends_count.map fun count _ _ _ hcount => ⟨hcount, rfl⟩
  · have hassignment : ∀ later : List Token, later.length ≤ rest.length →
        Consumes g.reader (parseAssignment frames) later fun assignment taken _ =>
          (assignment.path.Sound g ∧ assignment.value.Sound g) ∧ 1 ≤ taken.length :=
      fun later hlater => descends_assignment (hfits.mono (by omega))
    apply descends_rounds
    apply (descends_open (le_refl _) hassignment).map
    exact fun assignments _ _ _ hall => ⟨hall, rfl⟩

/-- The stages of a command: only the first may be a filter. -/
def Piped (g : Guard) (command : Command) (stages : List Stage) : Prop :=
  (∀ stage ∈ stages, stage.Sound g) ∧ (∀ stage ∈ stages.tail, stage.isFilter = false) ∧
    (stages ≠ [] → command.acceptsPipeline = true)

theorem Piped.concat {command : Command} {stages : List Stage} {stage : Stage}
    (h : Piped g command stages) (hcommand : command.acceptsPipeline = true)
    (hstage : stage.Sound g) (hfilter : stage.isFilter = false) :
    Piped g command (stages ++ [stage]) := by
  refine ⟨by simpa [or_imp, forall_and] using ⟨h.1, hstage⟩, ?_, fun _ => hcommand⟩
  cases stages with
  | nil => exact List.forall_mem_nil _
  | cons first rest =>
      have htail := h.2.1
      simpa [or_imp, forall_and] using ⟨htail, hfilter⟩

theorem descends_stages {command : Command} {bound : Nat} {stages : List Stage}
    (hbound : input.length ≤ bound) (hfits : g.Fits (4 * (input.length - 4)) (frames + 1))
    (hstages : Piped g command stages) :
    Consumes g.reader (parseStages frames command bound stages) input
      fun all _ _ => Piped g command all := by
  induction bound generalizing input stages with
  | zero => exact descends_nonempty fun hpos => absurd hpos (by omega)
  | succ bound ih =>
      apply (descends_consume (by nofun)).bind
      rintro found pipe rest rfl hpipe
      split
      · have htaken := hpipe (by assumption)
        simp only [List.length_append] at hbound hfits
        split
        · apply (descends_stage (hfits.mono (by omega))).bind
          rintro stage taken later rfl ⟨hstage, hfilter⟩
          simp only [List.length_append] at hbound hfits
          exact ih (by omega) (hfits.mono (by omega))
            (hstages.concat (by assumption) hstage hfilter)
        · exact descends_error
      · exact Consumes.pure hstages

/-- A well-formed query of names that the guard admits. -/
structure Query.Sound (g : Guard) (query : Query) : Prop where
  wellFormed : query.WellFormed
  command : query.command.Sound g
  stages : ∀ stage ∈ query.stages, stage.Sound g

theorem Stage.Sound.wellFormed {stage : Stage} (h : stage.Sound g) : stage.WellFormed := by
  cases stage with
  | filter predicate => exact Expression.Sound.wellFormed h
  | project paths => exact ⟨h.1, fun path hpath => (h.2 path hpath).wellFormed⟩
  | sort keys => exact ⟨h.1, fun key hkey => (h.2 key hkey).wellFormed⟩
  | limit count => exact h
  | skip count => exact h
  | set assignments =>
      exact ⟨h.1, fun assignment hmem => ⟨(h.2 assignment hmem).1.wellFormed,
        (h.2 assignment hmem).2.wellFormed⟩⟩

theorem Command.Sound.wellFormed {command : Command} (h : command.Sound g) :
    command.WellFormed := by
  cases command with
  | insert collection document => exact ⟨h.2.1, h.2.2.wellFormed⟩
  | createIndex name collection fields =>
      exact ⟨h.2.1, fun path hpath => (h.2.2 path hpath).wellFormed⟩
  | _ => trivial

/-- Three tokens come before every expression of a query. -/
theorem descends_query (hfits : g.Fits (4 * (input.length - 3)) (frames + 1)) :
    Consumes g.reader (parseQueryWithin frames) input fun query _ _ => query.Sound g := by
  apply descends_current
  rintro first rest hinput -
  apply (descends_consume (by nofun)).bind
  rintro explain taken later rfl -
  simp only [List.length_append] at hfits
  apply (descends_command (hfits.mono (by omega))).bind
  rintro ⟨command, filters⟩ taken later rfl ⟨hcommand, hfilters, haccepts⟩
  simp only [List.length_append] at hfits
  have hbegin : Piped g command filters := by
    refine ⟨hfilters.2, ?_, haccepts⟩
    have hlength := hfilters.1
    rcases filters with _ | ⟨stage, _ | ⟨next, rest⟩⟩
    · exact List.forall_mem_nil _
    · exact List.forall_mem_nil _
    · simp at hlength
  apply descends_rounds
  apply (descends_stages (le_refl _) (hfits.mono (by omega)) hbegin).bind
  rintro stages taken later rfl ⟨hstages, htail, hpipeline⟩
  split
  · exact descends_error
  · rename_i hupdate
    split
    · exact descends_error
    · rename_i hset
      have hsame : stages.any Stage.isSet = command.isUpdate := by
        cases hany : stages.any Stage.isSet <;> cases hcommand : command.isUpdate <;>
          simp_all
      have hwellFormed : ∀ span, Query.WellFormed ⟨explain, command, stages, span⟩ := fun span =>
        ⟨hcommand.wellFormed, fun stage hstage => (hstages stage hstage).wellFormed, htail,
          hpipeline, hsame⟩
      apply (descends_consume (by nofun)).bind
      rintro semicolon taken later rfl -
      apply descends_current
      rintro last more hmore -
      exact descends_expect.map fun _ _ _ _ _ => ⟨hwellFormed _, hcommand, hstages⟩

end Queries

end NovaBase.NovaQl
