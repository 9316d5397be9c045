import Dodb.Btree.Overlay

/-! The store's operations on its two files: publishing prepared batches, flushing,
checkpointing, and opening with recovery. -/
namespace Dodb
open Lib PageProg

variable [Crc32c]

/-! ### The data file -/

/-- The checksum a block of the data file is read with does not match it. -/
def refusedBlock (pageId : PageId) (bytes : Bytes) : Bool :=
  if pageId < firstDataPage then
    decide (ofLe (slice bytes superblockChecksumOffset 4) ≠ superblockChecksum bytes)
  else decide (ofLe (slice bytes pageChecksumOffset 4) ≠ pageChecksum bytes)

section Data
variable {μ : Type}

abbrev Data (μ : Type) := Io (Machine FileId μ) Error

def dataLength : Data μ Nat := fileLength ioFailure .data

def dataSetLength (length : Nat) : Data μ PUnit := setLength ioFailure .data length

def dataSync : Data μ PUnit := syncFile ioFailure .data

/-- Writes the block of a page. A write that is cut short leaves a mixture of the old and the
new bytes, which its checksum is taken to give away. -/
def writeBlock (pageId : PageId) (bytes : Bytes) : Data μ PUnit :=
  writeAt ioFailure .data (pageId * pageSize) bytes fun file left =>
    decide (File.Mixed (slice file.volatile (pageId * pageSize) pageSize) bytes left) &&
      refusedBlock pageId left

/-- The two superblock slots, and the one that counts. -/
def readSuperblock : Data μ SelectedSuperblock := do
  let slotA ← readBlock 0
  let slotB ← readBlock 1
  Io.ofExcept (chooseSuperblock slotA slotB)

/-- The length of a data file that holds the pages up to `highWater`. -/
def lengthFor (highWater : PageId) (exhausted overflow : Error) : Result Nat := do
  let count ← addOr exhausted highWater 1
  mulOr overflow count pageSize

def databaseLength (highWater : PageId) : Result Nat :=
  lengthFor highWater (.invalidInput "database page id is exhausted")
    (.invalidInput "database file length overflows")

/-- A data file of whole pages with at least the two superblock slots. -/
def wholePages (length : Nat) : Prop := firstDataPage * pageSize ≤ length ∧ pageSize ∣ length

omit [Crc32c] in
instance (length : Nat) : Decidable (wholePages length) := inferInstanceAs (Decidable (_ ∧ _))

/-- Makes the file at least this long; never shortens it. -/
def extendTo (length : Nat) : Data μ PUnit := do
  let current ← dataLength
  if current < length then dataSetLength length else pure ⟨⟩

/-- Writes the images in the order given and does not sync. -/
def writePages : List (PageId × Bytes) → Data μ PUnit
  | [] => pure ⟨⟩
  | (pageId, bytes) :: rest => do
    writeBlock pageId bytes
    writePages rest

end Data

/-- The root, the free list and the high water a superblock has, if the file can hold them. -/
def metadataFromSuperblock (sb : Superblock) (fileLength : Nat) :
    Result (PageId × Option PageId × PageId) := do
  ensure (sb.pageSize = pageSize) (.unsupportedFormat "superblock page size is unsupported")
  let root ← match sb.rootPageId with
    | some root => pure root
    | none => .error (.corruption "selected superblock has no root page")
  let highWater ← match sb.highWaterPageId with
    | some highWater => pure highWater
    | none => .error (.corruption "selected superblock has no high-water page")
  let expectedPageCount ← addOr (.corruption "superblock high-water page overflows") highWater 1
  ensure (firstDataPage ≤ highWater ∧ expectedPageCount = fileLength / pageSize)
    (.corruption "superblock high-water page is inconsistent with file length")
  ensure (firstDataPage ≤ root ∧ root ≤ highWater) (.corruption "superblock root page is outside the file")
  ensure (sb.freeListHead.all fun free => decide (firstDataPage ≤ free ∧ free ≤ highWater))
    (.corruption "superblock free-list head is outside the file")
  pure (root, sb.freeListHead, highWater)

/-- The checker over the data file. -/
def fileHandler : Handler PageId PageData TreeCheckState Error (Machine FileId TreeCheckState) where
  read pageId := do
    let bytes ← readBlock pageId
    Io.ofExcept (PageData.decodeAt pageId bytes)
  write _ _ := Io.raise (.internalInvariantViolation "the checker does not write")
  get := memory
  put state := modifyMemory fun _ => state

/-- Runs the checker on the data file. -/
def checkFile {μ : Type} (root : PageId) (freeHead : Option PageId) (highWater : PageId) :
    Data μ InvariantReport := do
  let (report, _) ← runOn {} ((checkTree root freeHead highWater).run fileHandler)
  pure report

namespace Store

abbrev Op := Io (Machine FileId Store) Error

/-- From now on the store does not serve. -/
def setBroken (error : Error) : Op PUnit :=
  modifyMemory fun s => {s with broken := some error.display}

/-- Runs `m`; when it fails the store is degraded and the error is reported through `wrap`. -/
def orBreak {α : Type} (wrap : Error → Error) (m : Op α) : Op α := do
  match ← Io.attempt m with
  | .ok a => pure a
  | .error error =>
    setBroken error
    Io.raise (wrap error)

/-! ### Publishing -/

/-- Refuses everything once the store is broken. -/
def requireServing : Op PUnit := do
  let s ← memory
  match s.broken with
  | some message => Io.raise (.durabilityFailure
      s!"storage shard is not serving after an uncertain persistence failure: {message}")
  | none => pure ⟨⟩

/-- Each batch is prepared on the superblock of the one before. -/
def checkGenerations : Nat → List PreparedBatch → Result Unit
  | _, [] => .ok ()
  | expected, candidate :: rest => do
    ensure (candidate.baseGeneration = expected) (.internalInvariantViolation
      "prepared transaction group has a non-contiguous superblock generation")
    checkGenerations candidate.newSuperblock.generation rest

/-- The superblock images of a group and, with a log, its commits. -/
def encodeGroup (logged : Bool) : List PreparedBatch → Result (List Bytes × List WalCommit)
  | [] => .ok ([], [])
  | candidate :: rest => do
    let superblockBytes ← encodeSuperblock candidate.newSuperblock
    let commit ← if logged then do
        let commitLsn ← match candidate.commitLsn with
          | some commitLsn => pure commitLsn
          | none => .error (.internalInvariantViolation "WAL transaction has no commit LSN")
        let images := candidate.changedPages.entries.map fun entry => (⟨entry.1, entry.2⟩ : WalPageImage)
        pure [(⟨candidate.batchId, commitLsn,
          images ++ [⟨candidate.newSlot.pageId, superblockBytes⟩]⟩ : WalCommit)]
      else pure []
    let (superblocks, commits) ← encodeGroup logged rest
    pure (superblockBytes :: superblocks, commit ++ commits)

/-- Without a log, a batch goes to the data file at once. -/
def writeCandidates : List (PreparedBatch × Bytes) → Op PUnit
  | [] => pure ⟨⟩
  | (candidate, superblockBytes) :: rest => do
    let targetLength ← Io.ofExcept (databaseLength candidate.highWaterPageId)
    extendTo targetLength
    writePages candidate.changedPages.entries
    writeBlock candidate.newSlot.pageId superblockBytes
    dataSync
    writeCandidates rest

/-- Makes a batch the state of the store; with a log, its pages are written later. -/
def publishCandidate (candidate : PreparedBatch) (superblockBytes : Bytes) : Op PUnit := do
  let superblock ← Io.ofExcept (decodeSuperblock superblockBytes)
  modifyMemory fun s => {s with
    currentSuperblock := superblock
    activeSlot := candidate.newSlot
    rootPageId := candidate.rootPageId
    freeListHead := candidate.freeListHead
    highWaterPageId := candidate.highWaterPageId
    nextRevision := candidate.nextRevision}
  match candidate.commitLsn with
  | none => pure ⟨⟩
  | some commitLsn =>
    let nextLsn ← Io.ofExcept (addOr (.internalInvariantViolation "WAL LSN exhausted") commitLsn 1)
    modifyMemory fun s => {s with nextLsn}
    let nextBatchId ← Io.ofExcept
      (addOr (.internalInvariantViolation "WAL batch ID exhausted") candidate.batchId 1)
    modifyMemory fun s => {s with
      nextBatchId
      dirtyPages := s.dirtyPages.insertMany candidate.changedPages.entries
      dirtySuperblock := some superblockBytes}
  modifyMemory fun s => {s with cache := s.cache.insertMany candidate.readPages}
  modifyMemory fun s => if s.trackPublishedPages then {s with
    publishedPageUpdates := s.publishedPageUpdates.insertMany candidate.changedDecoded.entries} else s
  modifyMemory fun s => {s with cache := s.cache.insertMany candidate.changedDecoded}

/-- Publishes the batches of a group in commit order. -/
def publishCandidates : List (PreparedBatch × Bytes) → Op PUnit
  | [] => pure ⟨⟩
  | (candidate, superblockBytes) :: rest => do
    publishCandidate candidate superblockBytes
    publishCandidates rest

/-- Commits the batches to the log as one group, or writes them where there is no log, and then publishes each. When the
log fails, nothing is published and the store is broken. -/
def publishPreparedGroup (prepared : List PreparedBatch) : Op PUnit := do
  requireServing
  let s ← memory
  Io.ofExcept (checkGenerations s.currentSuperblock.generation prepared)
  if prepared.all fun candidate => candidate.changedPages.isEmpty then pure ⟨⟩
  else
    let (superblocks, commits) ← Io.ofExcept (encodeGroup s.wal.isSome prepared)
    match s.wal with
    | some wal =>
      let wal ← orBreak id (appendGroup wal commits)
      modifyMemory fun s => {s with wal := some wal}
    | none => writeCandidates (prepared.zip superblocks)
    publishCandidates (prepared.zip superblocks)

/-- A group of one batch. -/
def publishPrepared (prepared : PreparedBatch) : Op (List BatchResponse) := do
  publishPreparedGroup [prepared]
  pure prepared.responses

/-! ### Batches and transactions -/

/-- Runs a program on an overlay of the store; the store keeps what reading did to its cache. -/
def onOverlay {α : Type} (m : Io (Machine FileId Overlay) Error α) : Op α :=
  zoom Overlay.new (fun overlay _ => overlay.store) m

/-- Executes the requests on an overlay, within one budget. -/
def prepareBatchWithResponseBudget (requests : List BatchRequest) (maxResponseBytes : Nat) :
    Op PreparedBatch := onOverlay do
  let budget ← Io.ofExcept (ResponseBudget.new maxResponseBytes)
  let o ← memory
  let responses ← Overlay.exec (executeAll o.store.config.limits requests budget)
  let o ← memory
  Io.ofExcept (o.finish responses)

def prepareBatch (requests : List BatchRequest) : Op PreparedBatch :=
  prepareBatchWithResponseBudget requests usizeMax

/-- Without a budget the responses may be of any size. -/
def applyBatch (requests : List BatchRequest) : Op (List BatchResponse) := do
  let prepared ← prepareBatch requests
  publishPrepared prepared

def applyBatchWithResponseBudget (requests : List BatchRequest) (maxResponseBytes : Nat) :
    Op (List BatchResponse) := do
  let prepared ← prepareBatchWithResponseBudget requests maxResponseBytes
  publishPrepared prepared

def get (key : DocumentKey) : Op RevisionState := do
  match ← applyBatch [.get key] with
  | .get state :: _ => pure state
  | _ => Io.raise (.internalInvariantViolation "get produced an unexpected batch response")

def put (key : DocumentKey) (value : Bytes) : Op Revision := do
  match ← applyBatch [.put key value] with
  | .put revision :: _ => pure revision
  | _ => Io.raise (.internalInvariantViolation "put produced an unexpected batch response")

def delete (key : DocumentKey) : Op Revision := do
  match ← applyBatch [.delete key] with
  | .delete revision :: _ => pure revision
  | _ => Io.raise (.internalInvariantViolation "delete produced an unexpected batch response")

def query (pk : PrimaryKey) (exclusiveAfterSk : Option SortKey) (limit : Nat) : Op (List Document) := do
  match ← applyBatch [.query pk exclusiveAfterSk limit] with
  | .query rows :: _ => pure rows
  | _ => Io.raise (.internalInvariantViolation "query produced an unexpected batch response")

def scan (exclusiveAfterKey : Option DocumentKey) (limit : Nat) : Op (List Document) := do
  match ← applyBatch [.scan exclusiveAfterKey limit] with
  | .scan rows :: _ => pure rows
  | _ => Io.raise (.internalInvariantViolation "scan produced an unexpected batch response")

/-- Errors that only refuse the candidate they are about. -/
def refusesCandidate : Error → Bool
  | .conflict _ => true
  | .invalidRequest _ => true
  | .invalidInput _ => true
  | _ => false

/-- Prepares candidates in order on one overlay: what was prepared, and each one's result. -/
def prepareGroup : List TransactionRequest →
    Io (Machine FileId Overlay) Error (List PreparedBatch × List (Result TransactionResult))
  | [] => pure ([], [])
  | request :: rest => do
    let outcome ← Io.attempt (Overlay.prepareTransaction request)
    let (prepared, result) ← match outcome with
      | .ok (some candidate) =>
        match candidate.commitLsn with
        | some commitLsn => pure ([candidate], .ok ⟨some commitLsn⟩)
        | none => Io.raise (.internalInvariantViolation "mutation transaction has no commit LSN")
      | .ok none => pure ([], .ok ⟨none⟩)
      | .error error => if refusesCandidate error then pure ([], .error error) else Io.raise error
    let (others, results) ← prepareGroup rest
    pure (prepared ++ others, result :: results)

/-- Each transaction is prepared on what the ones before it leave; one that is refused has no part in the commit. -/
def applyTransactionGroup (requests : List TransactionRequest) :
    Op (List (Result TransactionResult)) := do
  if requests = [] then pure []
  else
    let (prepared, results) ← onOverlay (prepareGroup requests)
    if prepared = [] then pure results
    else
      publishPreparedGroup prepared
      pure results

/-- A group of one. -/
def transact (request : TransactionRequest) : Op TransactionResult := do
  let results ← applyTransactionGroup [request]
  match results.getLast? with
  | none => Io.raise (.internalInvariantViolation "transaction group returned no result")
  | some result => Io.ofExcept result

/-! ### Reads of one committed state -/

/-- The keys are read from one committed state. -/
def transactGetWithResponseBudget (keys : List DocumentKey) (maxResponseBytes : Nat) :
    Op (List RevisionState) := do
  requireServing
  onOverlay do
    let budget ← Io.ofExcept (ResponseBudget.new maxResponseBytes)
    Overlay.exec (getStates keys budget)

def transactGet (keys : List DocumentKey) : Op (List RevisionState) :=
  transactGetWithResponseBudget keys usizeMax

/-- The revisions of several keys, all at one time. -/
def observe (keys : List DocumentKey) : Op (List ObservedState) := do
  requireServing
  onOverlay (Overlay.exec (getObservedStates keys))

/-! ### Flushing and checking -/

/-- Writes the pages and the superblock that only the log has. -/
def writeDirty : Op PUnit := do
  let s ← memory
  let targetLength ← Io.ofExcept (databaseLength s.highWaterPageId)
  extendTo targetLength
  writePages s.dirtyPages.entries
  match s.dirtySuperblock with
  | some superblockBytes => writeBlock s.activeSlot.pageId superblockBytes
  | none => pure ⟨⟩

/-- A store that cannot write them is broken. -/
def flushDirtyPages : Op PUnit := do
  let s ← memory
  if s.wal.isNone then dataSync
  else if s.dirtyPages.isEmpty ∧ s.dirtySuperblock.isNone then pure ⟨⟩
  else
    orBreak (wrapError .durabilityFailure "database data-file write failed after WAL commit") writeDirty
    orBreak (wrapError .durabilityFailure "database data-file sync failed after WAL commit") dataSync
    modifyMemory fun s => {s with dirtyPages := .empty, dirtySuperblock := none}

/-- Without a log there is nothing to write, only to sync. -/
def flush : Op PUnit := do
  let s ← memory
  if s.wal.isNone then dataSync else flushDirtyPages

/-- The LSN of the last commit in the log, or the checkpoint's when there is none. -/
def latestKnownLsn (s : Store) (wal : WalLog) : Lsn :=
  (wal.committed.getLast?.map WalCommit.commitLsn).getD s.currentSuperblock.checkpointLsn

/-- Flushes, compares the store with the superblock of the file, and runs the checker. -/
def checkInvariants : Op InvariantReport := do
  let s ← memory
  if s.wal.isSome then flushDirtyPages else pure ⟨⟩
  let length ← dataLength
  Io.ofExcept (ensure (wholePages length) (.corruption "database file length is not page aligned"))
  let selected ← readSuperblock
  let s ← memory
  Io.ofExcept (ensure (selected.slot = s.activeSlot ∧ selected.superblock = s.currentSuperblock)
    (.corruption "in-memory superblock is not the selected file copy"))
  let (root, freeHead, highWater) ← Io.ofExcept (metadataFromSuperblock selected.superblock length)
  Io.ofExcept (ensure (root = s.rootPageId ∧ freeHead = s.freeListHead ∧ highWater = s.highWaterPageId)
    (.corruption "in-memory allocator metadata does not match superblock"))
  match s.wal with
  | some wal => Io.ofExcept (ensure (s.currentSuperblock.checkpointLsn ≤ s.latestKnownLsn wal)
      (.corruption "checkpoint LSN is newer than the known durable WAL state"))
  | none => pure ()
  checkFile root freeHead highWater

/-! ### Checkpoints -/

/-- What a checkpoint has written and dropped. -/
structure CheckpointReport where
  checkpointLsn : Lsn
  pagesFlushed : Nat
  bytesWritten : Nat
  walBytesReclaimed : Nat
  deriving DecidableEq, Repr

/-- The bytes a checkpoint is about to write to the data file. -/
def checkpointBytes (s : Store) (metadataChanged : Bool) : Result Nat := do
  let overflow : Error := .checkpointFailure "checkpoint byte count overflows"
  let pages ← mulOr overflow s.dirtyPages.size pageSize
  let flushed ← addOr overflow pages (if s.dirtySuperblock.isSome then pageSize else 0)
  addOr overflow flushed (if metadataChanged then pageSize else 0)

/-- Moves the checkpoint LSN forward: a new superblock in the inactive slot, synced. -/
def writeCheckpoint (checkpointLsn : Lsn) : Op PUnit := do
  let s ← memory
  let generation ← Io.ofExcept (addOr (.internalInvariantViolation "superblock generation exhausted")
    s.currentSuperblock.generation 1)
  let bytes ← Io.ofExcept (encodeSuperblock {s.currentSuperblock with generation, checkpointLsn})
  let checkpointSuperblock ← Io.ofExcept (decodeSuperblock bytes)
  let checkpointBytes ← Io.ofExcept (encodeSuperblock checkpointSuperblock)
  let checkpointSlot := s.activeSlot.other
  orBreak (wrapError .checkpointFailure "checkpoint superblock write failed")
    (writeBlock checkpointSlot.pageId checkpointBytes)
  orBreak (wrapError .checkpointFailure "checkpoint metadata sync failed") dataSync
  modifyMemory fun s => {s with currentSuperblock := checkpointSuperblock, activeSlot := checkpointSlot}

/-- Runs a program of the store's log. -/
def onWal {α : Type} (wal : WalLog) (m : Wal WalLog α) : Op α :=
  zoom (fun _ => wal) (fun wal s => {s with wal := some wal}) m

/-- Brings everything to the data file, moves the checkpoint LSN forward, and begins the log anew. -/
def checkpoint : Op CheckpointReport := do
  let s ← memory
  match s.broken with
  | some message => Io.raise (.checkpointFailure s!"storage shard is degraded: {message}")
  | none => pure ⟨⟩
  let wal ← match s.wal with
    | some wal => pure wal
    | none => Io.raise (.checkpointFailure "formal checkpoint requires a WAL-backed store")
  let checkpointLsn := s.latestKnownLsn wal
  Io.ofExcept (ensure (s.currentSuperblock.checkpointLsn ≤ checkpointLsn)
    (.internalInvariantViolation "checkpoint LSN would move backwards"))
  let metadataChanged := decide (s.currentSuperblock.checkpointLsn < checkpointLsn)
  let bytesWritten ← Io.ofExcept (s.checkpointBytes metadataChanged)
  let walBytesBefore ← walLength
  Io.mapError (wrapError .checkpointFailure "checkpoint data-file flush failed") flushDirtyPages
  if metadataChanged then writeCheckpoint checkpointLsn else pure ⟨⟩
  let _ ← orBreak (wrapError .checkpointFailure "checkpoint invariant check failed") checkInvariants
  if wal.committed ≠ [] ∨ wal.historyStartLsn < checkpointLsn then
    orBreak (wrapError .checkpointFailure "WAL reset failed") (onWal wal (resetWal checkpointLsn))
    modifyMemory fun s => match s.wal with
      | some wal => {s with nextLsn := wal.nextLsn, nextBatchId := wal.nextBatchId}
      | none => s
  else pure ⟨⟩
  let walBytesAfter ← walLength
  pure ⟨checkpointLsn, s.dirtyPages.size, bytesWritten, walBytesBefore - walBytesAfter⟩

end Store

/-! ### Opening -/

section Open
variable {μ : Type}

/-- A store on a data file with the given superblock, before its counters are known. -/
def Store.atSuperblock (config : DatabaseConfig) (wal : Option WalLog) (selected : SelectedSuperblock)
    (metadata : PageId × Option PageId × PageId) (nextLsn : Lsn) : Store where
  wal
  currentSuperblock := selected.superblock
  activeSlot := selected.slot
  rootPageId := metadata.1
  freeListHead := metadata.2.1
  highWaterPageId := metadata.2.2
  nextRevision := 1
  nextLsn
  nextBatchId := 1
  cache := PageCache.new config.cacheCapacity
  config
  dirtyPages := .empty
  dirtySuperblock := none
  trackPublishedPages := false
  publishedPageUpdates := .empty
  broken := none

/-- Creates the three pages of a new database. The superblock kept in memory is the one built here,
whose checksum field is zero. -/
def initializeStore (config : DatabaseConfig) : Data μ Store := do
  let rootPageId := firstDataPage
  let superblock : Superblock := {Superblock.new 1 config.databaseUuid config.tenantId config.shardId
    config.shardEpoch with rootPageId := some rootPageId, highWaterPageId := some rootPageId}
  let rootBytes ← Io.ofExcept ((PageData.leaf 0 none []).encode rootPageId)
  let superblockBytes ← Io.ofExcept (encodeSuperblock superblock)
  dataSetLength (3 * pageSize)
  writeBlock 0 superblockBytes
  writeBlock 1 superblockBytes
  writeBlock rootPageId rootBytes
  dataSync
  pure (Store.atSuperblock config none ⟨.A, superblock⟩ (rootPageId, none, rootPageId) 1)

/-- Whether the data file belongs to the database that is being opened. -/
def validateSuperblockIdentity (sb : Superblock) (identity : WalIdentity) : Result Unit :=
  ensure (sb.databaseUuid = identity.databaseUuid ∧ sb.tenantId = identity.tenantId ∧
    sb.shardId = identity.shardId ∧ sb.shardEpoch = identity.shardEpoch)
    (.corruption "database superblock identity does not match the requested shard")

/-- The checkpoint LSN of an existing data file, if it can tell one. -/
def validateExistingIdentityBeforeWal (identity : WalIdentity) (walLength : Nat) : Data μ (Option Lsn) := do
  let length ← dataLength
  if length = 0 then pure none
  else if ¬wholePages length then
    if walLength = 0 then
      Io.raise (.corruption "database file is not a complete existing database")
    else pure none
  else
    let slotA ← readBlock 0
    let slotB ← readBlock 1
    match chooseSuperblock slotA slotB with
    | .error error => if 0 < walLength then pure none else Io.raise error
    | .ok selected =>
      Io.ofExcept (validateSuperblockIdentity selected.superblock identity)
      pure (some selected.superblock.checkpointLsn)

/-- Whether the image of a page is newer than what the file holds of it. -/
def shouldWrite (readableLength : Nat) (commitLsn : Lsn) (page : WalPageImage) : Data μ Bool := do
  if page.isSuperblock then pure true
  else if (page.pageId + 1) * pageSize ≤ readableLength then
    let bytes ← readBlock page.pageId
    match decodePageAt bytes (some page.pageId) with
    | .ok current => pure (decide (current.header.pageLsn < commitLsn))
    | .error _ => pure true
  else pure true

/-- Redoes the pages of a batch; answers whether anything has been written so far. -/
def recoverPages (readableLength : Nat) (commitLsn : Lsn) : List WalPageImage → Bool → Data μ Bool
  | [], changed => pure changed
  | page :: rest, changed => do
    let _ ← Io.ofExcept (mulOr (.recoveryFailure "recovery page offset overflows") page.pageId pageSize)
    if ← shouldWrite readableLength commitLsn page then
      writeBlock page.pageId page.image
      recoverPages readableLength commitLsn rest true
    else recoverPages readableLength commitLsn rest changed

/-- Redo of one commit after the other; says whether anything was written. -/
def recoverBatches (readableLength : Nat) : List WalCommit → Bool → Data μ Bool
  | [], changed => pure changed
  | batch :: rest, changed => do
    let changed ← recoverPages readableLength batch.commitLsn batch.pages changed
    recoverBatches readableLength rest changed

/-- The highest data page the batches have an image of. -/
def highestDataPage (batches : List WalCommit) : PageId :=
  (batches.flatMap WalCommit.pages).foldl (fun highest page => max highest page.pageId) firstDataPage

/-- Redoes the commits after the checkpoint. -/
def recoverDataFile (committed : List WalCommit) (checkpointLsn : Lsn) : Data μ PUnit := do
  let batches := committed.filter fun batch => decide (checkpointLsn < batch.commitLsn)
  if batches = [] then pure ⟨⟩
  else
    let targetLength ← Io.ofExcept (lengthFor (highestDataPage batches)
      (.recoveryFailure "recovery page range overflows") (.recoveryFailure "recovery file length overflows"))
    let currentLength ← dataLength
    if currentLength < targetLength then dataSetLength targetLength
    else Io.ofExcept (ensure (pageSize ∣ currentLength) (.recoveryFailure
      "database file has a non-page-aligned length before recovery"))
    let readableLength ← dataLength
    let changed ← recoverBatches readableLength batches (decide (currentLength < targetLength))
    if changed then
      Io.mapError (wrapError .durabilityFailure "database sync during WAL recovery failed") dataSync
    else pure ⟨⟩

/-- A data file that exists, with the log opened before it. -/
def openRecovered (config : DatabaseConfig) (wal : WalLog) : Data μ Store := do
  let length ← dataLength
  Io.ofExcept (ensure (wholePages length) (.recoveryFailure "recovered database file is not page aligned"))
  let selected ← readSuperblock
  Io.ofExcept (validateSuperblockIdentity selected.superblock config.identity)
  let metadata ← Io.ofExcept (metadataFromSuperblock selected.superblock length)
  let wal ← Io.ofExcept (wal.resumeAfter selected.superblock.checkpointLsn)
  let (report, store) ← runOn (Store.atSuperblock config (some wal) selected metadata 0) Store.checkInvariants
  let maxCommitLsn := (wal.committed.getLast?.map WalCommit.commitLsn).getD 0
  let nextRevision ← Io.ofExcept (addOr (.internalInvariantViolation "storage revision exhausted")
    (max report.maxRevision maxCommitLsn) 1)
  pure {store with nextRevision, nextLsn := wal.nextLsn, nextBatchId := wal.nextBatchId}

/-- Opens a database. The data file is asked for its identity and checkpoint, the log is opened, its commits after the
checkpoint are redone, and the tree is checked. Where both files are new, the database is created. -/
def openWithWal (config : DatabaseConfig) : Data μ Store := do
  let length ← walLength
  let hint ← validateExistingIdentityBeforeWal config.identity length
  let checkpointHint := hint.getD 0
  let wal ← openWal config.identity checkpointHint
  let dataLength ← dataLength
  if dataLength = 0 ∧ wal.committed = [] then
    let store ← initializeStore config
    pure {store with wal := some wal, nextLsn := wal.nextLsn, nextBatchId := wal.nextBatchId}
  else
    recoverDataFile wal.committed checkpointHint
    openRecovered config wal

/-- Opens the form of the database that has no log. -/
def openNoWal (config : DatabaseConfig) : Data μ Store := do
  let length ← dataLength
  if length = 0 then initializeStore config
  else
    Io.ofExcept (ensure (wholePages length) (.corruption "database file length is not page aligned"))
    let selected ← readSuperblock
    let metadata ← Io.ofExcept (metadataFromSuperblock selected.superblock length)
    let (report, store) ← runOn (Store.atSuperblock config none selected metadata 1) Store.checkInvariants
    let nextRevision ← Io.ofExcept (addOr (.internalInvariantViolation "storage revision exhausted")
      report.maxRevision 1)
    pure {store with nextRevision}

end Open

end Dodb
