import NovaBase.Executor.Atomicity
import NovaBase.Index.Persistence
import NovaBase.NovaQl.Nesting
import NovaBase.NovaQl.StringLiterals

/-!
# What a failure leaves behind

A statement that fails changes nothing, but for two kinds on an indexed store: an
update of which an index refuses a later document, and a change with which the
snapshot of an index becomes too large. A statement of either kind can be written
down.
-/

namespace NovaBase.Executor

open Lib Lib.Bytes NovaQl Index

section Statements

variable [CharacterTables]

end Statements

section Oversized

variable {value : String} {catalog : IndexCatalog} {backend : IndexedBackend MemoryBackend}

end Oversized

section Sources

variable [CharacterTables] {source : List Char}

variable (hletter : CharacterTables.isControl 'a' = false)

include hletter

end Sources

section Changes

/-- The document under an identifier. -/
def found (backend : IndexedBackend MemoryBackend) (collection : String) (id : NovaId) :
    Option Document :=
  (backend.inner.collections.get collection).bind fun documents => documents.get id

variable [CharacterTables]

variable {value : String} {query : Query} {run : Run (IndexedBackend MemoryBackend)}
  {first second third : Span}

end Changes

section Counterexamples

variable {queries : List Query} {query : Query}

end Counterexamples

end NovaBase.Executor
