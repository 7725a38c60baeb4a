import NovaBase.Core.Identifiers
import NovaBase.Nbf.Codec
import NovaBase.Storage.Manager

/-!
# The storage engine

Documents live as encoded records in slotted pages. A directory from document
ids to slots is kept in memory; opening the page file rebuilds it from a scan of
all pages. An insertion takes the first page with room, or a new one.
-/

namespace NovaBase

open Lib Nbf

namespace Storage

/-- Where a document is stored. -/
structure Location where
  page : PageId
  slot : SlotId
  deriving DecidableEq

/-- Documents in slotted pages, with the directory of their places. -/
structure StorageEngine where
  pages : PageManager
  locations : SortedMap NovaId Location

/-- The ids of the pages of a file. -/
def pageIds (count : Nat) : List PageId := (List.range count).map UInt64.ofNat

/-- What happens to the two writes of an insertion. -/
structure InsertIo where
  allocation : WriteOutcome
  page : WriteOutcome
  deriving DecidableEq

/-- Nothing fails, for want of room in the file apart. -/
def InsertIo.perfect : InsertIo := ⟨.complete, .complete⟩

namespace StorageEngine

/-- Enter the records of one page into the directory. -/
def scanRecords (page : PageId) :
    List (SlotId × Bytes) → SortedMap NovaId Location → Result (SortedMap NovaId Location)
  | [], locations => .ok locations
  | (slot, bytes) :: records, locations => do
      let document ← decode bytes
      require (locations.get document.id = none)
        (NovaError.corruption s!"duplicate document id {document.id.display} in page file")
      scanRecords page records (locations.insert document.id ⟨page, slot⟩)

/-- Enter the records of pages into the directory. -/
def scanPages : List PageId → PageManager → SortedMap NovaId Location →
    Result (PageManager × SortedMap NovaId Location)
  | [], pages, locations => .ok (pages, locations)
  | id :: ids, pages, locations =>
      match pages.read id with
      | (.error cause, _) => .error cause
      | (.ok page, pages) => do
          let locations ← scanRecords id page.records locations
          scanPages ids pages locations

/-- Open a document store and rebuild its directory. -/
def openFile (file : File) : Result StorageEngine := do
  let pages ← PageManager.openFile file
  let (pages, locations) ← scanPages (pageIds pages.pageCount) pages .empty
  return ⟨pages, locations⟩

/-- The number of stored documents. -/
def len (engine : StorageEngine) : Nat := engine.locations.entries.length

/-- Store a record in a page that has been read, and enter it into the directory. -/
def insertInto (outcome : WriteOutcome) (id : NovaId) (encoded : Bytes) (pageId : PageId)
    (page : Page) (engine : StorageEngine) : Result NovaId × StorageEngine :=
  match page.insert encoded with
  | (.error cause, _) => (.error cause, engine)
  | (.ok slot, page) =>
      match engine.pages.write outcome page with
      | (.error cause, pages) => (.error cause, { engine with pages := pages })
      | (.ok _, pages) => (.ok id, ⟨pages, engine.locations.insert id ⟨pageId, slot⟩⟩)

/-- Store a record in the first of some pages that has room for it. Nothing is returned when none
has. -/
def insertFirst (outcome : WriteOutcome) (id : NovaId) (encoded : Bytes) :
    List PageId → StorageEngine → Option (Result NovaId) × StorageEngine
  | [], engine => (none, engine)
  | pageId :: pageIds, engine =>
      match engine.pages.read pageId with
      | (.error cause, pages) => (some (.error cause), { engine with pages := pages })
      | (.ok page, pages) =>
          let engine := { engine with pages := pages }
          if encoded.length ≤ page.freeSpace then
            match engine.insertInto outcome id encoded pageId page with
            | (result, engine) => (some result, engine)
          else insertFirst outcome id encoded pageIds engine

/-- Store a record in a new page. -/
def insertNew (io : InsertIo) (id : NovaId) (encoded : Bytes) (engine : StorageEngine) :
    Result NovaId × StorageEngine :=
  match engine.pages.allocate io.allocation with
  | (.error cause, pages) => (.error cause, { engine with pages := pages })
  | (.ok pageId, pages) =>
      match pages.read pageId with
      | (.error cause, pages) => (.error cause, { engine with pages := pages })
      | (.ok page, pages) =>
          insertInto io.page id encoded pageId page { engine with pages := pages }

/-- The longest record that fits an empty page. -/
def emptyPageCapacity : Nat := (Page.new 0).freeSpace

/-- Insert one document. -/
def insert (io : InsertIo) (document : Document) (engine : StorageEngine) :
    Result NovaId × StorageEngine :=
  let id := document.id
  if engine.locations.contains id then
    (.error (.alreadyExists s!"document {id.display}"), engine)
  else
    match encode document with
    | .error cause => (.error cause, engine)
    | .ok encoded =>
        if emptyPageCapacity < encoded.length then
          (.error (.storage (s!"encoded document {id.display} is {encoded.length} bytes; " ++
            s!"page record capacity is {emptyPageCapacity}")), engine)
        else
          match engine.insertFirst io.page id encoded (pageIds engine.pages.pageCount) with
          | (some result, engine) => (result, engine)
          | (none, engine) => engine.insertNew io id encoded

/-- Read a document by id. -/
def get (id : NovaId) (engine : StorageEngine) : Result (Option Document) × StorageEngine :=
  match engine.locations.get id with
  | none => (.ok none, engine)
  | some location =>
      match engine.pages.read location.page with
      | (.error cause, pages) => (.error cause, { engine with pages := pages })
      | (.ok page, pages) =>
          let document : Result (Option Document) :=
            match page.get location.slot with
            | none => corruption (s!"document {id.display} points to missing page " ++
                s!"{location.page.toNat} slot {location.slot.toNat}")
            | some bytes => do
                let document ← decode bytes
                require (document.id = id) (NovaError.corruption
                  (s!"document index id {id.display} does not match stored id " ++
                    s!"{document.id.display}"))
                return some document
          (document, { engine with pages := pages })

/-- Synchronize the page file and let go of it. -/
def shutdown (engine : StorageEngine) : File := engine.pages.sync.file

end StorageEngine

end Storage

end NovaBase
