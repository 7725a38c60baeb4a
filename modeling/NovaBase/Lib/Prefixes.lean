import Mathlib.Data.List.Basic

/-!
# Readers on longer inputs

A reader takes values from the front of its input and leaves the rest. One reader extends another
if it reads from a longer input what the other reads from a shorter one, and leaves the tail.
Readers that are sequences extend each other when their parts do.
-/

namespace NovaBase.Lib

variable {ε τ α β : Type}

/-- What `short` reads, `long` reads when more follows. -/
def Extends (short long : List τ → Except ε (α × List τ)) : Prop :=
  ∀ input a rest tail, short input = .ok (a, rest) → long (input ++ tail) = .ok (a, rest ++ tail)

namespace Extends

theorem pure (a : α) :
    Extends (fun input : List τ => (.ok (a, input) : Except ε _)) fun input => .ok (a, input) := by
  intro input found rest tail h
  obtain ⟨rfl, rfl⟩ := Prod.mk.inj (Except.ok.inj h)
  rfl

theorem fail {long : List τ → Except ε (α × List τ)} (cause : ε) :
    Extends (fun _ => .error cause) long :=
  fun _ _ _ _ h => nomatch h

theorem bind {short long : List τ → Except ε (α × List τ)}
    {next next' : α × List τ → Except ε (β × List τ)} (h : Extends short long)
    (hnext : ∀ a, Extends (fun input => next (a, input)) fun input => next' (a, input)) :
    Extends (fun input => short input >>= next) fun input => long input >>= next' := by
  intro input b rest tail hread
  dsimp only at hread ⊢
  cases hfirst : short input with
  | error cause =>
      rw [hfirst] at hread
      cases hread
  | ok read =>
      rw [hfirst] at hread
      rw [h input read.1 read.2 tail hfirst]
      exact hnext read.1 read.2 b rest tail hread

end Extends

end NovaBase.Lib
