import Mathlib.Data.Prod.Lex
import NovaBase.Lib.SortedMap
import NovaBase.Storage.Manager

/-!
# The buffer pool

A write-back cache of a fixed number of pages above the page file. Each frame
owns one page, a dirty flag, a pin count and the time of its last use. A miss in
a full pool evicts the unpinned frame that was used longest ago, which is
written first if it is dirty.
-/

namespace NovaBase.Buffer

open Lib Storage

/-- A page in memory. `dirty` says that it differs from the page on disk, `pins` how many users keep
it there, and `lastUsed` when it was used last. -/
structure Frame where
  page : Page
  dirty : Bool
  pins : Nat
  lastUsed : UInt64
  deriving DecidableEq

/-- Observable counters of a pool. -/
structure BufferStats where
  hits : Nat
  misses : Nat
  evictions : Nat
  writes : Nat
  deriving DecidableEq

/-- A page cache of bounded capacity that evicts the least recently used page. -/
structure BufferPool where
  pages : PageManager
  frames : SortedMap PageId Frame
  capacity : Nat
  clock : UInt64
  stats : BufferStats

/-- What happens to the writes, the read and the synchronization of one call. -/
structure Io where
  eviction : WriteOutcome
  allocation : WriteOutcome
  flush : PageId → WriteOutcome
  read : Bool
  sync : Bool

/-- Nothing fails, for want of room in the file apart. -/
def Io.perfect : Io := ⟨.complete, .complete, fun _ => .complete, true, true⟩

/-- The answer of a pool without a frame to give. -/
def allPinned : NovaError := .invalidState "all buffer frames are pinned"

/-- The answer of code that is never reached. -/
def disappeared : NovaError := .internal "loaded buffer frame disappeared"

namespace BufferPool

/-- Open a page file with a fixed positive frame capacity. -/
def openFile (file : File) (capacity : Nat) : Result BufferPool := do
  require (capacity ≠ 0) (NovaError.invalidArgument "buffer pool capacity must be positive")
  let pages ← PageManager.openFile file
  return ⟨pages, .empty, capacity, 0, ⟨0, 0, 0, 0⟩⟩

/-- The number of frames. -/
def len (pool : BufferPool) : Nat := pool.frames.entries.length

/-- The unpinned frame that was used longest ago; the page id decides between equals. -/
def victim (pool : BufferPool) : Option (PageId × Frame) :=
  (pool.frames.entries.filter fun entry => entry.2.pins = 0).minOn? fun entry =>
    toLex (entry.2.lastUsed, entry.1)

/-- Give up one frame. The frame is gone even when its page cannot be written. -/
def evictOne (outcome : WriteOutcome) (pool : BufferPool) : Result Unit × BufferPool :=
  match pool.victim with
  | none => (.error allPinned, pool)
  | some (id, frame) =>
      let pool := { pool with frames := pool.frames.remove id }
      let evicted (pool : BufferPool) : BufferPool :=
        { pool with stats := { pool.stats with evictions := pool.stats.evictions + 1 } }
      if frame.dirty then
        match pool.pages.write outcome frame.page with
        | (.error cause, pages) => (.error cause, { pool with pages := pages })
        | (.ok _, pages) =>
            (.ok (), evicted { pool with
              pages := pages
              stats := { pool.stats with writes := pool.stats.writes + 1 } })
      else (.ok (), evicted pool)

/-- Give up a frame if the pool is full. -/
def makeRoom (outcome : WriteOutcome) (pool : BufferPool) : Result Unit × BufferPool :=
  if pool.len = pool.capacity then pool.evictOne outcome else (.ok (), pool)

/-- Read a page from disk, unless the read fails. -/
def fetch (io : Io) (id : PageId) (pool : BufferPool) : Result Page × PageManager :=
  if io.read then pool.pages.read id else (.error .io, pool.pages)

/-- Bring a page into a frame, or note its use there. -/
def load (io : Io) (id : PageId) (pool : BufferPool) : Result Unit × BufferPool :=
  let pool := { pool with clock := pool.clock + 1 }
  match pool.frames.get id with
  | some frame =>
      (.ok (), { pool with
        stats := { pool.stats with hits := pool.stats.hits + 1 }
        frames := pool.frames.insert id { frame with lastUsed := pool.clock } })
  | none =>
      let pool := { pool with stats := { pool.stats with misses := pool.stats.misses + 1 } }
      match pool.makeRoom io.eviction with
      | (.error cause, pool) => (.error cause, pool)
      | (.ok _, pool) =>
          match pool.fetch io id with
          | (.error cause, pages) => (.error cause, { pool with pages := pages })
          | (.ok page, pages) =>
              (.ok (), { pool with
                pages := pages
                frames := pool.frames.insert id ⟨page, false, 0, pool.clock⟩ })

/-- Allocate a disk page and load it into the pool. -/
def allocate (io : Io) (pool : BufferPool) : Result PageId × BufferPool :=
  match pool.makeRoom io.eviction with
  | (.error cause, pool) => (.error cause, pool)
  | (.ok _, pool) =>
      match pool.pages.allocate io.allocation with
      | (.error cause, pages) => (.error cause, { pool with pages := pages })
      | (.ok id, pages) =>
          match load io id { pool with pages := pages } with
          | (.error cause, pool) => (.error cause, pool)
          | (.ok _, pool) => (.ok id, pool)

/-- Load a page and change its frame. -/
def access {α : Type} (io : Io) (id : PageId) (use : Frame → Result (α × Frame))
    (pool : BufferPool) : Result α × BufferPool :=
  match pool.load io id with
  | (.error cause, pool) => (.error cause, pool)
  | (.ok _, pool) =>
      match pool.frames.get id with
      | none => (.error disappeared, pool)
      | some frame =>
          match use frame with
          | .error cause => (.error cause, pool)
          | .ok (answer, frame) =>
              (.ok answer, { pool with frames := pool.frames.insert id frame })

/-- Fetch a page, loading it and possibly evicting another first. -/
def get (io : Io) (id : PageId) : BufferPool → Result Page × BufferPool :=
  access io id fun frame => .ok (frame.page, frame)

/-- Fetch a page to be changed, and mark its frame dirty. -/
def getMut (io : Io) (id : PageId) : BufferPool → Result Page × BufferPool :=
  access io id fun frame => .ok (frame.page, { frame with dirty := true })

/-- Pin a page, so that it is not evicted. -/
def pin (io : Io) (id : PageId) : BufferPool → Result Unit × BufferPool :=
  access io id fun frame =>
    if frame.pins + 1 < 2 ^ 64 then .ok ((), { frame with pins := frame.pins + 1 })
    else .error (.invalidState "page pin count overflow")

/-- Release one pin. -/
def unpin (id : PageId) (pool : BufferPool) : Result Unit × BufferPool :=
  match pool.frames.get id with
  | none => (.error (.invalidState "page is not buffered"), pool)
  | some frame =>
      match frame.pins with
      | 0 => (.error (.invalidState "page is not pinned"), pool)
      | pins + 1 =>
          (.ok (), { pool with frames := pool.frames.insert id { frame with pins := pins } })

/-- Write the page of a dirty frame. -/
def flushFrame (outcome : WriteOutcome) (id : PageId) (pool : BufferPool) :
    Result Unit × BufferPool :=
  match pool.frames.get id with
  | none => (.ok (), pool)
  | some frame =>
      if frame.dirty then
        match pool.pages.write outcome frame.page with
        | (.error cause, pages) => (.error cause, { pool with pages := pages })
        | (.ok _, pages) =>
            (.ok (), { pool with
              pages := pages
              frames := pool.frames.insert id { frame with dirty := false }
              stats := { pool.stats with writes := pool.stats.writes + 1 } })
      else (.ok (), pool)

/-- Write the dirty frames among the given ones. -/
def flushFrames (io : Io) : List PageId → BufferPool → Result Unit × BufferPool
  | [], pool => (.ok (), pool)
  | id :: ids, pool =>
      match pool.flushFrame (io.flush id) id with
      | (.error cause, pool) => (.error cause, pool)
      | (.ok _, pool) => flushFrames io ids pool

/-- Write every dirty frame, and synchronize the page file. -/
def flushAll (io : Io) (pool : BufferPool) : Result Unit × BufferPool :=
  match pool.flushFrames io pool.frames.keys with
  | (.error cause, pool) => (.error cause, pool)
  | (.ok _, pool) =>
      if io.sync then (.ok (), { pool with pages := pool.pages.sync })
      else (.error .io, pool)

/-- Flush the pool and let go of it. -/
def shutdown (io : Io) (pool : BufferPool) : Result Unit × File :=
  match pool.flushAll io with
  | (result, pool) => (result, pool.pages.file)

/-- What the caller of `getMut` does to the page, in its frame. -/
def setPage (id : PageId) (page : Page) (pool : BufferPool) : BufferPool :=
  match pool.frames.get id with
  | none => pool
  | some frame => { pool with frames := pool.frames.insert id { frame with page := page } }

/-- Fetch a page and change it there. -/
def mutate (io : Io) (id : PageId) (change : Page → Page) (pool : BufferPool) :
    Result Page × BufferPool :=
  match pool.getMut io id with
  | (.error cause, pool) => (.error cause, pool)
  | (.ok page, pool) => (.ok page, pool.setPage id (change page))

/-- The page that a pool shows under an id: the one in its frame, or else the one on disk. -/
def content (pool : BufferPool) (id : PageId) : Result Page :=
  match pool.frames.get id with
  | some frame => .ok frame.page
  | none => (pool.pages.read id).1

end BufferPool

end NovaBase.Buffer
