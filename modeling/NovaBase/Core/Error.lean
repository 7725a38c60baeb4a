/-!
# Structured errors

Every crate of the database returns `NovaError`. A message is kept as the
format string it was built from: literal text, and values printed through
`Debug`, whose escaping rules are the formatter's own and are not repeated here.
-/

namespace NovaBase

/-- One piece of a formatted message. -/
inductive Fragment
  | text (value : String)
  | debug (value : String)
  deriving DecidableEq, Repr

/-- A formatted message. -/
abbrev Message := List Fragment

instance : Coe String Message := ⟨fun value => [.text value]⟩

/-- Top-level structured error. An I/O error carries nothing the database inspects. -/
inductive NovaError
  | internal (message : Message)
  | invalidArgument (message : Message)
  | notFound (message : Message)
  | alreadyExists (message : Message)
  | unsupported (message : Message)
  | storage (message : Message)
  | corruption (message : Message)
  | auth (message : Message)
  | permissionDenied (message : Message)
  | invalidState (message : Message)
  | timeout
  | io
  deriving DecidableEq, Repr

/-- The `Display` text of an error. -/
def NovaError.display : NovaError → Message
  | .internal message => .text "internal error: " :: message
  | .invalidArgument message => .text "invalid argument: " :: message
  | .notFound message => .text "not found: " :: message
  | .alreadyExists message => .text "already exists: " :: message
  | .unsupported message => .text "unsupported: " :: message
  | .storage message => .text "storage error: " :: message
  | .corruption message => .text "corruption: " :: message
  | .auth message => .text "authorization error: " :: message
  | .permissionDenied message => .text "permission denied: " :: message
  | .invalidState message => .text "invalid state: " :: message
  | .timeout => "operation timed out"
  | .io => "io error"

/-- The result alias used across the database. -/
abbrev Result (α : Type) := Except NovaError α

/-- A failed validation of stored bytes. -/
def corruption {α : Type} (message : Message) : Result α := .error (.corruption message)

/-- The result of code that could also panic, by indexing out of range or by running forever. -/
inductive Failure
  | error (cause : NovaError)
  | panic
  deriving DecidableEq, Repr

/-- A computation whose freedom from panics is still to be proved. -/
abbrev Partial (α : Type) := Except Failure α

/-- Indexing, which panics out of range. -/
def indexed {α : Type} (xs : List α) (i : Nat) : Partial α :=
  match xs[i]? with
  | some x => .ok x
  | none => .error .panic

/-- Return early with `cause` unless the condition holds. -/
def require {ε : Type} (condition : Prop) [Decidable condition] (cause : ε) : Except ε Unit :=
  if condition then .ok () else .error cause

/-- A result used where a panic is possible. -/
def Result.lift {α : Type} : Result α → Partial α
  | .ok value => .ok value
  | .error cause => .error (.error cause)

section Sequencing

variable {ε α β : Type}

@[simp] theorem require_eq_ok {condition : Prop} [Decidable condition] {cause : ε} {u : Unit} :
    require condition cause = .ok u ↔ condition := by
  unfold require
  split <;> simp_all

theorem require_of {condition : Prop} [Decidable condition] (cause : ε) (h : condition) :
    require condition cause = .ok () := by
  simp [h]

/-- A sequence succeeds when both of its steps do. -/
@[simp] theorem bind_eq_ok {first : Except ε α} {next : α → Except ε β} {b : β} :
    (first >>= next) = .ok b ↔ ∃ a, first = .ok a ∧ next a = .ok b := by
  cases first <;> simp [bind, Except.bind]

@[simp] theorem ok_bind (a : α) (next : α → Except ε β) :
    ((Except.ok a : Except ε α) >>= next) = next a := rfl

@[simp] theorem error_bind (cause : ε) (next : α → Except ε β) :
    ((Except.error cause : Except ε α) >>= next) = .error cause := rfl

@[simp] theorem pure_eq_ok (a : α) : (pure a : Except ε α) = .ok a := rfl

@[simp] theorem map_ok (f : α → β) (a : α) : f <$> (Except.ok a : Except ε α) = .ok (f a) := rfl

theorem toOption_eq_some {result : Except ε α} {a : α} :
    result.toOption = some a ↔ result = .ok a := by
  cases result <;> simp [Except.toOption]

@[simp] theorem Result.lift_eq_ok {result : Result α} {a : α} :
    result.lift = .ok a ↔ result = .ok a := by
  cases result <;> simp [Result.lift]

/-- Every error of the result has a property. -/
def FailsOnly (P : ε → Prop) (result : Except ε α) : Prop :=
  ∀ cause, result = .error cause → P cause

theorem failsOnly_ok {P : ε → Prop} (a : α) : FailsOnly P (Except.ok a : Except ε α) :=
  fun _ h => by simp at h

theorem failsOnly_require (condition : Prop) [Decidable condition] (cause : ε) :
    FailsOnly (· = cause) (require condition cause) := by
  intro found hfound
  unfold require at hfound
  split at hfound
  · simp at hfound
  · exact (Except.error.inj hfound).symm

theorem FailsOnly.bind {P : ε → Prop} {first : Except ε α} {next : α → Except ε β}
    (hfirst : FailsOnly P first) (hnext : ∀ a, first = .ok a → FailsOnly P (next a)) :
    FailsOnly P (first >>= next) := by
  intro cause h
  cases hresult : first with
  | error found =>
      rw [hresult, error_bind] at h
      exact Except.error.inj h ▸ hfirst found hresult
  | ok a =>
      rw [hresult, ok_bind] at h
      exact hnext a hresult cause h

theorem indexed_eq_ok {xs : List α} {i : Nat} {x : α} : indexed xs i = .ok x ↔ xs[i]? = some x := by
  unfold indexed
  split <;> simp_all

theorem indexed_of {xs : List α} {i : Nat} {x : α} (h : xs[i]? = some x) :
    indexed xs i = .ok x :=
  indexed_eq_ok.mpr h

end Sequencing

end NovaBase
