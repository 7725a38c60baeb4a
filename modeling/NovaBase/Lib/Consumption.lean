import NovaBase.Lib.Action

/-!
# Parsers on any input

The states of a parser show the input that is left. On an input of any kind, a
parser either takes a front of it and ends in a value, or reports an error with
an end of the input still left. The rules say so of a sequence when it holds of
its parts, each on the input that the part before it leaves.
-/

namespace NovaBase.Lib

/-- How states `σ` show inputs of `τ`, and the errors `ε` that may be reported. -/
structure Reader (ε σ τ : Type) where
  Shows : σ → List τ → Prop
  Reported : ε → Prop

section Rules

variable {ε σ τ α β : Type} (R : Reader ε σ τ)

/-- On this input, `p` ends in a value with what it has taken and what it leaves in `Q`, or in a
reported error. -/
def Consumes (p : Action ε σ α) (input : List τ) (Q : α → List τ → List τ → Prop) : Prop :=
  ∀ s, R.Shows s input → Action.Ends p s
    (fun a s' => ∃ taken rest, input = taken ++ rest ∧ R.Shows s' rest ∧ Q a taken rest)
    (fun e s' => R.Reported e ∧ ∃ rest, rest <:+ input ∧ R.Shows s' rest)

namespace Consumes

variable {R} {p : Action ε σ α} {next : α → Action ε σ β} {input : List τ}
  {Q Q' : α → List τ → List τ → Prop} {P : β → List τ → List τ → Prop}

theorem pure {a : α} (h : Q a [] input) : Consumes R (Pure.pure a) input Q := by
  intro s hs
  exact Action.Ends.pure ⟨[], input, rfl, hs, h⟩

theorem bind (hp : Consumes R p input Q)
    (hnext : ∀ a taken rest, input = taken ++ rest → Q a taken rest →
      Consumes R (next a) rest fun b more last => P b (taken ++ more) last) :
    Consumes R (p >>= next) input P := by
  intro s hs
  refine (hp s hs).bind ?_
  rintro a s' ⟨taken, rest, hinput, hs', ha⟩
  refine (hnext a taken rest hinput ha s' hs').weaken ?_ ?_
  · rintro b last ⟨more, left, rfl, hlast, hb⟩
    exact ⟨taken ++ more, left, by rw [hinput, List.append_assoc], hlast, hb⟩
  · rintro e last ⟨he, left, hleft, hlast⟩
    exact ⟨he, left, hleft.trans (hinput ▸ List.suffix_append taken rest), hlast⟩

theorem weaken (hp : Consumes R p input Q)
    (h : ∀ a taken rest, input = taken ++ rest → Q a taken rest → Q' a taken rest) :
    Consumes R p input Q' := by
  intro s hs
  refine (hp s hs).weaken ?_ fun _ _ he => he
  rintro a s' ⟨taken, rest, hinput, hs', ha⟩
  exact ⟨taken, rest, hinput, hs', h a taken rest hinput ha⟩

theorem map {f : α → β} (hp : Consumes R p input Q)
    (h : ∀ a taken rest, input = taken ++ rest → Q a taken rest → P (f a) taken rest) :
    Consumes R (p >>= fun a => Pure.pure (f a)) input P := by
  refine hp.bind fun a taken rest hinput ha => pure ?_
  rw [List.append_nil]
  exact h a taken rest hinput ha

/-- A first part that takes nothing. -/
theorem look {T : α → Prop} (hp : Consumes R p input fun a taken _ => taken = [] ∧ T a)
    (hnext : ∀ a, T a → Consumes R (next a) input P) : Consumes R (p >>= next) input P := by
  refine hp.bind ?_
  rintro a _ rest hinput ⟨rfl, ha⟩
  obtain rfl : input = rest := hinput
  exact hnext a ha

theorem fail {e : ε} (h : R.Reported e) : Consumes R (Action.ofExcept (.error e)) input Q := by
  intro s hs
  exact .inr ⟨e, s, rfl, h, input, List.suffix_rfl, hs⟩

/-- What can be read from every state that shows the input. -/
theorem reads {f : σ → Except ε α} (h : ∀ s, R.Shows s input → ∃ a, f s = .ok a ∧ Q a [] input) :
    Consumes R (Action.reads f) input Q := by
  intro s hs
  obtain ⟨a, hf, ha⟩ := h s hs
  exact .inl ⟨a, s, congrArg (·, s) hf, [], input, rfl, hs, ha⟩

/-- What is known of an input that some state shows. -/
theorem assume (h : ∀ s, R.Shows s input → Consumes R p input Q) : Consumes R p input Q :=
  fun s hs => h s hs s hs

end Consumes

end Rules

end NovaBase.Lib
