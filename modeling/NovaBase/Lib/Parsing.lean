import NovaBase.Lib.Action

/-!
# Parsers that read what was written

A parser is a command on a state that holds the tokens still to come. It parses
a list of kinds when it takes any tokens of these kinds from the front of its
input, whatever follows, so long as the next kind does not make it go on.
-/

namespace NovaBase.Lib

/-- States `σ` that hold tokens `τ` of kinds `κ`, and what a parser sees of the first one. -/
structure Input (τ κ σ : Type) where
  kind : τ → κ
  feed : List τ → σ → σ
  peek : σ → κ
  /-- The states that a parser may look at. -/
  Ready : σ → Prop
  ready_feed : ∀ xs s, Ready s → Ready (feed xs s)
  feed_nil : ∀ s, feed [] s = s
  feed_append : ∀ xs ys s, feed (xs ++ ys) s = feed xs (feed ys s)
  peek_feed : ∀ x xs s, peek (feed (x :: xs) s) = kind x

/-- The kinds of some lists, with a separator between two of them and, if it trails, behind the
last one. -/
def separated {κ : Type} (separator : κ) (trailing : Bool) : List (List κ) → List κ
  | [] => []
  | [kinds] => kinds ++ if trailing then [separator] else []
  | kinds :: next :: rest => kinds ++ separator :: separated separator trailing (next :: rest)

section Rules

variable {ε τ κ σ α β : Type} (I : Input τ κ σ)

/-- `p` takes `kinds` where the kind after them is in `follow`, and ends in a value with `Q`. -/
def Parses (p : Action ε σ α) (kinds : List κ) (follow : κ → Prop) (Q : α → Prop) : Prop :=
  ∀ tokens s, I.Ready s → tokens.map I.kind = kinds → follow (I.peek s) →
    ∃ a, p (I.feed tokens s) = (.ok a, s) ∧ Q a

variable {I} {p : Action ε σ α} {next : α → Action ε σ β} {kinds others : List κ}
  {follow follow' : κ → Prop} {Q Q' : α → Prop} {R : β → Prop}

/-- The first kind of what was fed, or else the one after it. -/
theorem Input.peek_feed_eq_headD (tokens : List τ) (s : σ) :
    I.peek (I.feed tokens s) = (tokens.map I.kind).headD (I.peek s) := by
  cases tokens with
  | nil => rw [I.feed_nil, List.map_nil, List.headD_nil]
  | cons token rest => rw [I.peek_feed, List.map_cons, List.headD_cons]

namespace Parses

theorem pure {a : α} (h : Q a) : Parses I (Pure.pure a : Action ε σ α) [] follow Q := by
  intro tokens s _ htokens _
  rw [List.map_eq_nil_iff.mp htokens, I.feed_nil]
  exact ⟨a, rfl, h⟩

theorem bind (hp : Parses I p kinds follow Q)
    (hnext : ∀ a, Q a → Parses I (next a) others follow' R)
    (hfollow : ∀ k, follow' k → follow (others.headD k)) :
    Parses I (p >>= next) (kinds ++ others) follow' R := by
  intro tokens s hready htokens hs
  obtain ⟨front, back, rfl, hfront, hback⟩ := List.map_eq_append_iff.mp htokens
  have hpeek : follow (I.peek (I.feed back s)) := by
    rw [Input.peek_feed_eq_headD, hback]
    exact hfollow _ hs
  obtain ⟨a, hrun, ha⟩ := hp front (I.feed back s) (I.ready_feed back s hready) hfront hpeek
  obtain ⟨b, hrest, hb⟩ := hnext a ha back s hready hback hs
  refine ⟨b, ?_, hb⟩
  rw [I.feed_append, Action.bind_of_ok hrun, hrest]

/-- A first part that takes one token. -/
theorem cons {kind : κ} (hp : Parses I p [kind] (fun _ => True) Q)
    (hnext : ∀ a, Q a → Parses I (next a) others follow R) :
    Parses I (p >>= next) (kind :: others) follow R :=
  hp.bind hnext fun _ _ => trivial

theorem weaken (hp : Parses I p kinds follow Q) (hfollow : ∀ k, follow' k → follow k)
    (hQ : ∀ a, Q a → Q' a) : Parses I p kinds follow' Q' := by
  intro tokens s hready htokens hs
  obtain ⟨a, hrun, ha⟩ := hp tokens s hready htokens (hfollow _ hs)
  exact ⟨a, hrun, hQ a ha⟩

/-- A first part that takes nothing and tells something of the next kind. -/
theorem look (hp : ∀ k, follow k → Parses I p [] (fun next => next = kinds.headD k) Q)
    (hnext : ∀ a, Q a → Parses I (next a) kinds follow R) :
    Parses I (p >>= next) kinds follow R := by
  intro tokens s hready htokens hs
  have hpeek : I.peek (I.feed tokens s) = kinds.headD (I.peek s) := by
    rw [Input.peek_feed_eq_headD, htokens]
  obtain ⟨a, hrun, ha⟩ := hp _ hs [] (I.feed tokens s) (I.ready_feed tokens s hready) rfl hpeek
  rw [I.feed_nil] at hrun
  rw [Action.bind_of_ok hrun]
  exact hnext a ha tokens s hready htokens hs

/-- A last part that takes nothing. -/
theorem finish (hp : Parses I p kinds follow Q)
    (hnext : ∀ a, Q a → Parses I (next a) [] follow R) : Parses I (p >>= next) kinds follow R := by
  have h := hp.bind hnext (fun k hk => hk)
  rwa [List.append_nil] at h

theorem map {f : α → β} (hp : Parses I p kinds follow Q) (hR : ∀ a, Q a → R (f a)) :
    Parses I (p >>= fun a => Pure.pure (f a)) kinds follow R :=
  hp.finish fun a ha => pure (hR a ha)

end Parses

end Rules

end NovaBase.Lib
