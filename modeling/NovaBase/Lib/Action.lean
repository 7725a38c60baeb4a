import Mathlib.Data.List.Basic

/-!
# Commands that may fail

A command reads and changes a state and ends with a value or an error. The
state is kept when it fails: what was done before the error stays done. The
rules derive what a sequence of commands ensures from what its parts ensure.
-/

namespace NovaBase.Lib

/-- A command on states `σ` with results `α` and errors `ε`. -/
def Action (ε σ α : Type) : Type := σ → Except ε α × σ

namespace Action

variable {ε σ τ α β : Type}

/-- Do one action, and then another unless the first fails. A failure keeps the state that it has
reached. -/
def bind (x : Action ε σ α) (next : α → Action ε σ β) : Action ε σ β := fun s =>
  match x s with
  | (.ok a, s') => next a s'
  | (.error e, s') => (.error e, s')

instance : Monad (Action ε σ) where
  pure a := fun s => (.ok a, s)
  bind := bind

/-- A result that does not depend on the state. -/
def ofExcept (result : Except ε α) : Action ε σ α := fun s => (result, s)

/-- A result read from the state. -/
def reads (f : σ → Except ε α) : Action ε σ α := fun s => (f s, s)

/-- Change the state. -/
def modify (f : σ → σ) : Action ε σ Unit := fun s => (.ok (), f s)

/-- A command on a part of the state. -/
def zoom (part : σ → τ) (replace : σ → τ → σ) (x : Action ε τ α) : Action ε σ α := fun s =>
  let (result, t) := x (part s)
  (result, replace s t)

theorem pure_apply (a : α) (s : σ) : (pure a : Action ε σ α) s = (.ok a, s) := rfl

theorem bind_of_ok {x : Action ε σ α} {next : α → Action ε σ β} {s s' : σ} {a : α}
    (h : x s = (.ok a, s')) : (x >>= next) s = next a s' := by
  have hbind : (x >>= next) s = bind x next s := rfl
  rw [hbind, bind, h]

theorem bind_of_error {x : Action ε σ α} {next : α → Action ε σ β} {s s' : σ} {e : ε}
    (h : x s = (.error e, s')) : (x >>= next) s = (.error e, s') := by
  have hbind : (x >>= next) s = bind x next s := rfl
  rw [hbind, bind, h]

theorem bind_pure_unit (x : Action ε σ Unit) : (x >>= fun _ => pure ()) = x := by
  funext s
  rcases hx : x s with ⟨_ | _, s'⟩
  · exact bind_of_error hx
  · exact bind_of_ok hx

/-- A sequence succeeds when its parts do, one after the other. -/
theorem bind_eq_ok {x : Action ε σ α} {next : α → Action ε σ β} {s s' : σ} {b : β} :
    (x >>= next) s = (.ok b, s') ↔
      ∃ a middle, x s = (.ok a, middle) ∧ next a middle = (.ok b, s') := by
  constructor
  · intro h
    rcases hx : x s with ⟨result, middle⟩
    cases result with
    | ok a => exact ⟨a, middle, rfl, (bind_of_ok hx).symm.trans h⟩
    | error e => cases (bind_of_error hx).symm.trans h
  · rintro ⟨a, middle, hx, hnext⟩
    exact (bind_of_ok hx).trans hnext

theorem ofExcept_apply (result : Except ε α) (s : σ) : ofExcept result s = (result, s) := rfl

theorem reads_apply (f : σ → Except ε α) (s : σ) : reads f s = (f s, s) := rfl

theorem forM_map {γ δ : Type} (g : γ → δ) (f : δ → Action ε σ PUnit) (xs : List γ) :
    (xs.map g).forM f = xs.forM fun a => f (g a) := by
  induction xs with
  | nil => rfl
  | cons a rest ih => exact congrArg (bind (f (g a))) (funext fun _ => ih)

/-- The command ends in a value and a state with `Q`, or in an error and a state with `E`. -/
def Ends (x : Action ε σ α) (s : σ) (Q : α → σ → Prop) (E : ε → σ → Prop) : Prop :=
  (∃ a s', x s = (.ok a, s') ∧ Q a s') ∨ ∃ e s', x s = (.error e, s') ∧ E e s'

section Rules

variable {x : Action ε σ α} {next : α → Action ε σ β} {s : σ} {Q Q' : α → σ → Prop}
  {R : β → σ → Prop} {E E' : ε → σ → Prop}

theorem Ends.pure {a : α} (h : Q a s) : Ends (Pure.pure a : Action ε σ α) s Q E :=
  .inl ⟨a, s, rfl, h⟩

theorem Ends.bind (hx : Ends x s Q E) (hnext : ∀ a s', Q a s' → Ends (next a) s' R E) :
    Ends (x >>= next) s R E := by
  rcases hx with ⟨a, s', hok, hQ⟩ | ⟨e, s', herror, hE⟩
  · rcases hnext a s' hQ with ⟨b, last, hlast, hR⟩ | ⟨e, last, hlast, hE⟩
    · exact .inl ⟨b, last, (bind_of_ok hok).trans hlast, hR⟩
    · exact .inr ⟨e, last, (bind_of_ok hok).trans hlast, hE⟩
  · exact .inr ⟨e, s', bind_of_error herror, hE⟩

/-- A first step that has succeeded. -/
theorem Ends.after {a : α} {s' : σ} (hx : x s = (.ok a, s')) (hnext : Ends (next a) s' R E) :
    Ends (x >>= next) s R E := by
  apply Ends.bind (Q := fun b last => a = b ∧ s' = last) (.inl ⟨a, s', hx, rfl, rfl⟩)
  intro _ _ h
  obtain ⟨rfl, rfl⟩ := h
  exact hnext

theorem Ends.weaken (hx : Ends x s Q E) (hQ : ∀ a s', Q a s' → Q' a s')
    (hE : ∀ e s', E e s' → E' e s') : Ends x s Q' E' := by
  rcases hx with ⟨a, s', hok, h⟩ | ⟨e, s', herror, h⟩
  · exact .inl ⟨a, s', hok, hQ a s' h⟩
  · exact .inr ⟨e, s', herror, hE e s' h⟩

/-- The rule of sequences, for a first part with errors of its own. -/
theorem Ends.seq (hx : Ends x s Q E') (hnext : ∀ a s', Q a s' → Ends (next a) s' R E)
    (hE : ∀ e s', E' e s' → E e s') : Ends (x >>= next) s R E :=
  (hx.weaken (fun _ _ h => h) hE).bind hnext

/-- A command on a part of the state. -/
theorem Ends.zoom {part : σ → τ} {replace : σ → τ → σ} {y : Action ε τ α} {P : α → τ → Prop}
    {F : ε → τ → Prop} (hy : Ends y (part s) P F) :
    Ends (Action.zoom part replace y) s (fun a s' => ∃ t, s' = replace s t ∧ P a t)
      (fun e s' => ∃ t, s' = replace s t ∧ F e t) := by
  rcases hy with ⟨a, t, hok, hP⟩ | ⟨e, t, herror, hF⟩
  · refine .inl ⟨a, replace s t, ?_, t, rfl, hP⟩
    rw [Action.zoom, hok]
  · refine .inr ⟨e, replace s t, ?_, t, rfl, hF⟩
    rw [Action.zoom, herror]

/-- The rule of loops: an invariant on what has been done so far. -/
theorem Ends.forM {γ : Type} {f : γ → Action ε σ PUnit} {xs : List γ} {I : List γ → σ → Prop}
    (hstart : I [] s)
    (hstep : ∀ done a rest s, xs = done ++ a :: rest → I done s →
      Ends (f a) s (fun _ => I (done ++ [a])) E) :
    Ends (xs.forM f) s (fun _ => I xs) E := by
  suffices h : ∀ rest done s, xs = done ++ rest → I done s →
      Ends (rest.forM f) s (fun _ => I xs) E from h xs [] s rfl hstart
  intro rest
  induction rest with
  | nil =>
      intro done s hxs hI
      rw [List.append_nil] at hxs
      exact Ends.pure (hxs ▸ hI)
  | cons a rest ih =>
      intro done s hxs hI
      refine (hstep done a rest s hxs hI).bind fun _ s' hI' => ?_
      exact ih (done ++ [a]) s' (by simp [hxs]) hI'

/-- What a command ensures holds when it has succeeded. -/
theorem Ends.of_ok {a : α} {s' : σ} (hx : Ends x s Q E) (hok : x s = (.ok a, s')) : Q a s' := by
  rcases hx with ⟨b, last, hb, hQ⟩ | ⟨e, last, he, -⟩
  · obtain ⟨hsame, rfl⟩ := Prod.mk.inj (hok.symm.trans hb)
    exact Except.ok.inj hsame ▸ hQ
  · cases hok.symm.trans he

/-- The rule of loops that have succeeded. -/
theorem forM_ok {γ : Type} {f : γ → Action ε σ PUnit} {xs : List γ} {I : List γ → σ → Prop}
    {s' : σ} (hrun : xs.forM f s = (.ok ⟨⟩, s')) (hstart : I [] s)
    (hstep : ∀ done a rest s s', xs = done ++ a :: rest → I done s → f a s = (.ok ⟨⟩, s') →
      I (done ++ [a]) s') : I xs s' := by
  apply Ends.of_ok (Ends.forM (E := fun _ _ => True) hstart _) hrun
  intro done a rest middle hxs hI
  rcases ha : f a middle with ⟨result, next⟩
  cases result with
  | ok value => exact .inl ⟨value, next, ha, hstep done a rest middle next hxs hI ha⟩
  | error e => exact .inr ⟨e, next, ha, trivial⟩

end Rules

/-- The command leaves a part of the state as it is, also when it fails. -/
def Keeps {ν : Type} (x : Action ε σ α) (part : σ → ν) : Prop := ∀ s, part (x s).2 = part s

namespace Keeps

variable {ν μ : Type} {x : Action ε σ α} {next : α → Action ε σ β} {f : σ → ν}

theorem pure (a : α) : (Pure.pure a : Action ε σ α).Keeps f := fun _ => rfl

theorem ofExcept (result : Except ε α) : (Action.ofExcept result : Action ε σ α).Keeps f :=
  fun _ => rfl

theorem reads (g : σ → Except ε α) : (Action.reads g).Keeps f := fun _ => rfl

theorem bind (hx : x.Keeps f) (hnext : ∀ a, (next a).Keeps f) : (x >>= next).Keeps f := by
  intro s
  rcases hresult : x s with ⟨result, s'⟩
  have hfirst : f s' = f s := by
    rw [← hx s, hresult]
  cases result with
  | ok a => rw [bind_of_ok hresult, hnext a s', hfirst]
  | error e => rw [bind_of_error hresult, hfirst]

theorem comp (h : x.Keeps f) (g : ν → μ) : x.Keeps fun s => g (f s) :=
  fun s => congrArg g (h s)

theorem forM {γ : Type} {g : γ → Action ε σ PUnit} (h : ∀ a, (g a).Keeps f) (xs : List γ) :
    (xs.forM g).Keeps f := by
  induction xs with
  | nil => exact pure _
  | cons a rest ih => exact (h a).bind fun _ => ih

/-- A command on a part of the state. -/
theorem zoom {part : σ → τ} {replace : σ → τ → σ} {g : τ → μ} {y : Action ε τ α}
    (hy : y.Keeps g) (h : ∀ s t, g t = g (part s) → f (replace s t) = f s) :
    (Action.zoom part replace y).Keeps f :=
  fun s => h s _ (hy (part s))

end Keeps

/-- The command keeps an invariant of the state, also when it fails. -/
def Preserves (x : Action ε σ α) (I : σ → Prop) : Prop := ∀ s, I s → I (x s).2

namespace Preserves

variable {I : σ → Prop} {x : Action ε σ α} {next : α → Action ε σ β}

theorem pure (a : α) : (Pure.pure a : Action ε σ α).Preserves I := fun _ h => h

theorem ofExcept (result : Except ε α) : (Action.ofExcept result : Action ε σ α).Preserves I :=
  fun _ h => h

theorem reads (g : σ → Except ε α) : (Action.reads g).Preserves I := fun _ h => h

theorem bind (hx : x.Preserves I) (hnext : ∀ a, (next a).Preserves I) :
    (x >>= next).Preserves I := by
  intro s hs
  rcases hresult : x s with ⟨result, s'⟩
  have hfirst : I s' := by
    have h := hx s hs
    rwa [hresult] at h
  cases result with
  | ok a =>
      rw [bind_of_ok hresult]
      exact hnext a s' hfirst
  | error e =>
      rw [bind_of_error hresult]
      exact hfirst

theorem forM_of_mem {γ : Type} {g : γ → Action ε σ PUnit} {xs : List γ}
    (h : ∀ a ∈ xs, (g a).Preserves I) : (xs.forM g).Preserves I := by
  induction xs with
  | nil => exact pure _
  | cons a rest ih =>
      obtain ⟨ha, hrest⟩ := List.forall_mem_cons.mp h
      exact ha.bind fun _ => ih hrest

theorem forM {γ : Type} {g : γ → Action ε σ PUnit} (h : ∀ a, (g a).Preserves I) (xs : List γ) :
    (xs.forM g).Preserves I := forM_of_mem fun a _ => h a

theorem of_ends (h : ∀ s, I s → x.Ends s (fun _ s' => I s') (fun _ s' => I s')) :
    x.Preserves I := by
  intro s hs
  rcases h s hs with ⟨_, s', hx, hlast⟩ | ⟨_, s', hx, hlast⟩
  · rw [hx]
    exact hlast
  · rw [hx]
    exact hlast

theorem ends (h : x.Preserves I) {s : σ} (hs : I s) :
    x.Ends s (fun _ s' => I s') (fun _ s' => I s') := by
  have hlast := h s hs
  rcases hresult : x s with ⟨result, s'⟩
  rw [hresult] at hlast
  cases result with
  | ok a => exact .inl ⟨a, s', hresult, hlast⟩
  | error e => exact .inr ⟨e, s', hresult, hlast⟩

/-- A command on a part of the state. -/
theorem zoom {part : σ → τ} {replace : σ → τ → σ} {J : τ → Prop} {y : Action ε τ α}
    (hy : y.Preserves J) (hpart : ∀ s, I s → J (part s))
    (h : ∀ s t, I s → J t → I (replace s t)) : (Action.zoom part replace y).Preserves I :=
  fun s hs => h s _ hs (hy (part s) (hpart s hs))

end Preserves

/-- On a part of the state the command does what another command does there. -/
def Projects (x : Action ε σ α) (part : σ → τ) (y : Action ε τ α) : Prop :=
  ∀ s, (x s).1 = (y (part s)).1 ∧ part (x s).2 = (y (part s)).2

namespace Projects

variable {part : σ → τ} {x : Action ε σ α} {y : Action ε τ α} {next : α → Action ε σ β}
  {other : α → Action ε τ β}

theorem apply (h : x.Projects part y) (s : σ) : y (part s) = ((x s).1, part (x s).2) :=
  Prod.ext (h s).1.symm (h s).2.symm

theorem pure (a : α) : (Pure.pure a : Action ε σ α).Projects part (Pure.pure a) :=
  fun _ => ⟨rfl, rfl⟩

theorem ofExcept (result : Except ε α) :
    (Action.ofExcept result : Action ε σ α).Projects part (Action.ofExcept result) :=
  fun _ => ⟨rfl, rfl⟩

theorem bind (hx : x.Projects part y) (hnext : ∀ a, (next a).Projects part (other a)) :
    (x >>= next).Projects part (y >>= other) := by
  intro s
  rcases hresult : x s with ⟨result, s'⟩
  have hy := hx.apply s
  rw [hresult] at hy
  cases result with
  | ok a =>
      rw [bind_of_ok hresult, bind_of_ok hy]
      exact hnext a s'
  | error e =>
      rw [bind_of_error hresult, bind_of_error hy]
      exact ⟨rfl, rfl⟩

theorem forM {γ : Type} {g : γ → Action ε σ PUnit} {g' : γ → Action ε τ PUnit}
    (h : ∀ a, (g a).Projects part (g' a)) (xs : List γ) :
    (xs.forM g).Projects part (xs.forM g') := by
  induction xs with
  | nil => exact pure _
  | cons a rest ih => exact (h a).bind fun _ => ih

end Projects

end Action

end NovaBase.Lib
