import Dodb.Storage.Wal
import Dodb.Btree.Checker

/-! The store in memory, its page cache, and the overlay a batch is prepared on.

An overlay is opened on the store for one batch or one transaction group. It reads
through its own pages, the cache, and the store's dirty pages or the data file, in
that order, and what it writes stays in it until a prepared batch is published. -/
namespace Dodb
open Lib PageProg

/-! ### The page cache -/

/-- A page and when it was last used. -/
structure CacheEntry where
  page : PageData
  lastUsed : Nat
  deriving DecidableEq

/-- Decoded pages, at most `capacity` of them. -/
structure PageCache where
  capacity : Nat
  pages : SortedMap PageId CacheEntry
  clock : Nat

namespace PageCache

def new (capacity : Nat) : PageCache := ⟨capacity, .empty, 0⟩

/-- The clock wraps as the source's `wrapping_add`. -/
def tick (cache : PageCache) : PageCache := {cache with clock := (cache.clock + 1) % 2 ^ 64}

/-- Looks a page up; the clock moves even when it is not there. -/
def get (cache : PageCache) (pageId : PageId) : Option PageData × PageCache :=
  let cache := cache.tick
  match cache.pages.get? pageId with
  | none => (none, cache)
  | some entry =>
    (some entry.page, {cache with pages := cache.pages.insert pageId {entry with lastUsed := cache.clock}})

/-- The page that was used least recently, the lowest of several. -/
def victim : List (PageId × CacheEntry) → Option (PageId × CacheEntry)
  | [] => none
  | entry :: rest =>
    match victim rest with
    | none => some entry
    | some other => if entry.2.lastUsed ≤ other.2.lastUsed then some entry else some other

/-- Drops the pages used least recently until the cache is within its capacity. -/
def evict (capacity : Nat) : Nat → SortedMap PageId CacheEntry → SortedMap PageId CacheEntry
  | 0, pages => pages
  | n + 1, pages =>
    if pages.size ≤ capacity then pages
    else
      match victim pages.entries with
      | none => pages
      | some entry => evict capacity n (pages.erase entry.1)

def insert (cache : PageCache) (pageId : PageId) (page : PageData) : PageCache :=
  if cache.capacity = 0 then cache
  else
    let cache := cache.tick
    let pages := cache.pages.insert pageId ⟨page, cache.clock⟩
    {cache with pages := evict cache.capacity pages.size pages}

def insertMany (cache : PageCache) (pages : SortedMap PageId PageData) : PageCache :=
  pages.entries.foldl (fun cache entry => cache.insert entry.1 entry.2) cache

end PageCache

/-! ### The store -/

/-- What a database is opened with. -/
structure DatabaseConfig where
  databaseUuid : Uuid
  tenantId : TenantId
  shardId : ShardId
  shardEpoch : ShardEpoch
  cacheCapacity : Nat := 128
  limits : StorageLimits := {}

def DatabaseConfig.identity (config : DatabaseConfig) : WalIdentity :=
  ⟨config.databaseUuid, config.tenantId, config.shardId, config.shardEpoch⟩

/-- The store's memory; its two files are the machine's. Timings and the fault injector of
the tests are left out. -/
structure Store where
  wal : Option WalLog
  currentSuperblock : Superblock
  activeSlot : SuperblockSlot
  rootPageId : PageId
  freeListHead : Option PageId
  highWaterPageId : PageId
  nextRevision : Revision
  nextLsn : Lsn
  nextBatchId : Nat
  cache : PageCache
  config : DatabaseConfig
  dirtyPages : SortedMap PageId Bytes
  dirtySuperblock : Option Bytes
  trackPublishedPages : Bool
  publishedPageUpdates : SortedMap PageId PageData
  broken : Option String

/-- A batch that was executed on an overlay and is ready to be published. -/
structure PreparedBatch where
  responses : List BatchResponse
  changedPages : SortedMap PageId Bytes
  changedDecoded : SortedMap PageId PageData
  readPages : SortedMap PageId PageData
  newSuperblock : Superblock
  newSlot : SuperblockSlot
  baseGeneration : Nat
  nextRevision : Revision
  rootPageId : PageId
  freeListHead : Option PageId
  highWaterPageId : PageId
  commitLsn : Option Lsn
  batchId : Nat

/-- The set of pages the source remembers as allocated is never read and is left out. -/
structure Overlay where
  store : Store
  pages : SortedMap PageId PageData
  dirty : SortedMap PageId Unit
  readPages : SortedMap PageId PageData
  alloc : Alloc
  nextLsn : Lsn
  nextBatchId : Nat
  currentSuperblock : Superblock
  activeSlot : SuperblockSlot

/-- A batch starts from the committed state with no page written. -/
def Overlay.new (store : Store) : Overlay where
  store := store
  pages := .empty
  dirty := .empty
  readPages := .empty
  alloc := ⟨store.rootPageId, store.freeListHead, store.highWaterPageId, store.nextRevision, none⟩
  nextLsn := store.nextLsn
  nextBatchId := store.nextBatchId
  currentSuperblock := store.currentSuperblock
  activeSlot := store.activeSlot

variable [Crc32c]

/-! ### Reading pages -/

/-- Reads the block of the data file a page lives in. -/
def readBlock {μ : Type} (pageId : PageId) : Io (Machine FileId μ) Error Bytes :=
  readAt ioFailure (.corruption "unexpected end of database file") .data (pageId * pageSize) pageSize

/-- A page that is not yet written to the file, or else the file's. -/
def readPageFromFile (pageId : PageId) : Io (Machine FileId Store) Error PageData := do
  let store ← memory
  match store.dirtyPages.get? pageId with
  | some bytes => Io.ofExcept (PageData.decodeAt pageId bytes)
  | none =>
    let bytes ← readBlock pageId
    Io.ofExcept (PageData.decodeAt pageId bytes)

namespace Overlay

/-- Runs a program of the store the overlay is on. -/
def onStore {α : Type} (m : Io (Machine FileId Store) Error α) : Io (Machine FileId Overlay) Error α :=
  zoom Overlay.store (fun store overlay => {overlay with store}) m

/-- A page of the overlay, or of the cache, or else of the store. -/
def readPage (pageId : PageId) : Io (Machine FileId Overlay) Error PageData := do
  let overlay ← memory
  match overlay.pages.get? pageId with
  | some page => pure page
  | none =>
    let (hit, cache) := overlay.store.cache.get pageId
    modifyMemory fun overlay => {overlay with store := {overlay.store with cache}}
    match hit with
    | some page =>
      modifyMemory fun overlay => {overlay with pages := overlay.pages.insert pageId page}
      pure page
    | none =>
      let page ← onStore (readPageFromFile pageId)
      modifyMemory fun overlay => {overlay with
        readPages := overlay.readPages.insert pageId page
        pages := overlay.pages.insert pageId page}
      pure page

/-- The page is dirty from here on, and later reads of the batch see it. -/
def replacePage (pageId : PageId) (page : PageData) : Io (Machine FileId Overlay) Error PUnit :=
  modifyMemory fun overlay => {overlay with
    pages := overlay.pages.insert pageId page
    dirty := overlay.dirty.insert pageId ()}

/-- The tree code over an overlay. -/
def handler : Handler PageId PageData Alloc Error (Machine FileId Overlay) where
  read := readPage
  write := replacePage
  get := do
    let overlay ← memory
    pure overlay.alloc
  put alloc := modifyMemory fun overlay => {overlay with alloc}

/-- Runs a tree algorithm on an overlay. -/
def exec {α : Type} (p : Prog α) : Io (Machine FileId Overlay) Error α := p.run handler

/-! ### Finishing -/

/-- Gives the pages of `ids` the LSN they are committed with. -/
def restampPages (provisional : Revision) (committed : Lsn) :
    List PageId → SortedMap PageId PageData → Result (SortedMap PageId PageData)
  | [], pages => .ok pages
  | pageId :: rest, pages =>
    match pages.get? pageId with
    | none => .error (.internalInvariantViolation "dirty page missing from overlay")
    | some page => restampPages provisional committed rest (pages.insert pageId (page.restamp provisional committed))

/-- The images and the decoded pages of `ids`. -/
def encodeChanged (pages : SortedMap PageId PageData) :
    List PageId → Result (SortedMap PageId Bytes × SortedMap PageId PageData)
  | [] => .ok (.empty, .empty)
  | pageId :: rest =>
    match pages.get? pageId with
    | none => .error (.internalInvariantViolation "dirty page missing from overlay")
    | some page => do
      let bytes ← page.encode pageId
      let (changedPages, changedDecoded) ← encodeChanged pages rest
      pure (changedPages.insert pageId bytes, changedDecoded.insert pageId page)

/-- The superblock that commits an allocator state on top of `base`. -/
def nextSuperblock (base : Superblock) (alloc : Alloc) : Result Superblock := do
  let generation ← addOr (.internalInvariantViolation "superblock generation exhausted") base.generation 1
  let bytes ← encodeSuperblock {base with
    generation
    rootPageId := some alloc.rootPageId
    freeListHead := alloc.freeListHead
    highWaterPageId := some alloc.highWaterPageId}
  decodeSuperblock bytes

/-- A row with the commit's revision in place of the one the batch was executed with. -/
def restampRow (provisional committed : Revision) (row : Document) : Document :=
  if row.revision = provisional then {row with revision := committed} else row

def restampState (provisional committed : Revision) : RevisionState → RevisionState
  | .present value revision => .present value (if revision = provisional then committed else revision)
  | .missing revision => .missing (if revision = provisional then committed else revision)

/-- What the batch itself wrote takes the commit's revision. -/
def restampResponse (provisional committed : Revision) : BatchResponse → BatchResponse
  | .put revision => .put (if revision = provisional then committed else revision)
  | .delete revision => .delete (if revision = provisional then committed else revision)
  | .get state => .get (restampState provisional committed state)
  | .query rows => .query (rows.map (restampRow provisional committed))
  | .scan rows => .scan (rows.map (restampRow provisional committed))

/-- The LSN a batch with `dirty` changed pages commits with: in a log it follows the records of
its pages and of the superblock, without one it is the provisional revision. -/
def commitLsnOf (wal : Option WalLog) (nextLsn : Lsn) (dirty : SortedMap PageId Unit) (provisional : Lsn) :
    Result Lsn :=
  if wal.isSome then
    addOr (.internalInvariantViolation "WAL LSN exhausted") nextLsn (dirty.size + 1)
  else .ok provisional

/-- Turns the overlay of a batch into what is to be published; a batch that wrote nothing has no
commit LSN. -/
def finish (o : Overlay) (responses : List BatchResponse) : Result PreparedBatch := do
  let prepared : PreparedBatch :=
    { responses
      changedPages := .empty
      changedDecoded := .empty
      readPages := o.readPages
      newSuperblock := o.store.currentSuperblock
      newSlot := o.store.activeSlot.other
      baseGeneration := o.store.currentSuperblock.generation
      nextRevision := o.store.nextRevision
      rootPageId := o.alloc.rootPageId
      freeListHead := o.alloc.freeListHead
      highWaterPageId := o.alloc.highWaterPageId
      commitLsn := none
      batchId := o.store.nextBatchId }
  match o.alloc.lastLsn with
  | none =>
    let (changedPages, changedDecoded) ← encodeChanged o.pages o.dirty.keys
    pure {prepared with changedPages, changedDecoded}
  | some provisional =>
    let commitLsn ← commitLsnOf o.store.wal o.store.nextLsn o.dirty provisional
    let pages ← restampPages provisional commitLsn o.dirty.keys o.pages
    let newSuperblock ← nextSuperblock o.store.currentSuperblock o.alloc
    let (changedPages, changedDecoded) ← encodeChanged pages o.dirty.keys
    let nextRevision ← addOr (.internalInvariantViolation "storage revision exhausted") commitLsn 1
    pure {prepared with
      responses := responses.map (restampResponse provisional commitLsn)
      changedPages, changedDecoded, newSuperblock, nextRevision, commitLsn := some commitLsn}

/-- Turns what the overlay holds of one transaction into what is to be published, and makes the
overlay the base of the next one. -/
def finishTransaction : Io (Machine FileId Overlay) Error PreparedBatch := do
  let o ← memory
  match o.alloc.lastLsn with
  | none => Io.raise (.internalInvariantViolation "transaction has no provisional revision")
  | some provisional =>
    let commitLsn ← Io.ofExcept (commitLsnOf o.store.wal o.nextLsn o.dirty provisional)
    let pages ← Io.ofExcept (restampPages provisional commitLsn o.dirty.keys o.pages)
    modifyMemory fun o => {o with pages}
    let newSuperblock ← Io.ofExcept (nextSuperblock o.currentSuperblock o.alloc)
    let (changedPages, changedDecoded) ← Io.ofExcept (encodeChanged pages o.dirty.keys)
    modifyMemory fun o => {o with readPages := .empty}
    let nextRevision ← Io.ofExcept
      (addOr (.internalInvariantViolation "storage revision exhausted") commitLsn 1)
    modifyMemory fun o => {o with
      currentSuperblock := newSuperblock
      activeSlot := o.activeSlot.other
      alloc := {o.alloc with nextRevision}}
    let nextLsn ← Io.ofExcept (addOr (.internalInvariantViolation "WAL LSN exhausted") commitLsn 1)
    modifyMemory fun o => {o with nextLsn}
    let nextBatchId ← Io.ofExcept
      (addOr (.internalInvariantViolation "WAL batch ID exhausted") o.nextBatchId 1)
    modifyMemory fun o => {o with
      nextBatchId
      dirty := .empty
      alloc := {o.alloc with lastLsn := none}}
    pure
      { responses := []
        changedPages, changedDecoded
        readPages := o.readPages
        newSuperblock
        newSlot := o.activeSlot.other
        baseGeneration := o.currentSuperblock.generation
        nextRevision
        rootPageId := o.alloc.rootPageId
        freeListHead := o.alloc.freeListHead
        highWaterPageId := o.alloc.highWaterPageId
        commitLsn := some commitLsn
        batchId := o.nextBatchId }

/-- Validates a transaction, stages its mutations, and finishes it; a transaction without
mutations prepares nothing. -/
def prepareTransaction (request : TransactionRequest) :
    Io (Machine FileId Overlay) Error (Option PreparedBatch) := do
  let o ← memory
  exec (validateTransaction o.store.config.limits request)
  if request.mutations = [] then pure none
  else
    exec (mutateAll o.store.config.limits request.mutations)
    let prepared ← finishTransaction
    pure (some prepared)

end Overlay

end Dodb
