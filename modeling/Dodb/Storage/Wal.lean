import Dodb.Lib.File
import Dodb.Storage.Superblock

/-! The write-ahead log: a file of checksummed frames, the first an INIT frame with the
database's identity and the LSN the history starts after, then for each commit the
images of the pages it changed and a COMMIT frame with their digest.

Opening a log reads it whole and keeps what its complete frames say (`scanWal`); a tail
that ends inside a frame is cut off. The source reads frame by frame; as reading changes
nothing, one read of the whole file can fail in the same ways. -/
namespace Dodb
open Lib

/-- The two files of a database. -/
inductive FileId where
  | data
  | wal
  deriving DecidableEq, Repr

/-- What a file operation that fails reports. -/
def ioFailure : Error := .io "input/output error"

def walFormatVersion : Nat := 2
def legacyWalFormatVersion : Nat := 1
/-- The bytes of `DWAL`. -/
def walMagic : Bytes := [0x44, 0x57, 0x41, 0x4c]
def walHeaderSize : Nat := 48
def walTrailerSize : Nat := 4
def walMinFrameSize : Nat := walHeaderSize + walTrailerSize
def walMaxPayloadSize : Nat := 64 * 1024 * 1024
def headerChecksumOffset : Nat := 40
def initPayloadSize : Nat := 52
def legacyInitPayloadSize : Nat := 44
def initFrameSize : Nat := walHeaderSize + initPayloadSize + walTrailerSize
def pageImagePayloadSize : Nat := 8 + pageSize
def commitPayloadSize : Nat := 16

/-- What a frame of the log is. -/
inductive WalRecordType where
  | init
  | pageImage
  | commit
  deriving DecidableEq, Repr

namespace WalRecordType

def toByte : WalRecordType → UInt8
  | init => 1
  | pageImage => 2
  | commit => 3

def decode (value : UInt8) : Result WalRecordType :=
  if value = 1 then .ok init
  else if value = 2 then .ok pageImage
  else if value = 3 then .ok commit
  else .error (.unsupportedFormat s!"unknown WAL record type {value.toNat}")

@[simp] theorem decode_toByte (t : WalRecordType) : decode t.toByte = .ok t := by
  cases t <;> rfl

end WalRecordType

/-- The database that a log belongs to. -/
structure WalIdentity where
  databaseUuid : Uuid
  tenantId : TenantId
  shardId : ShardId
  shardEpoch : ShardEpoch
  deriving DecidableEq

/-- A page as a commit leaves it. -/
structure WalPageImage where
  pageId : PageId
  image : Bytes
  deriving DecidableEq, Repr

/-- The pages of one commit. -/
structure WalCommit where
  batchId : Nat
  commitLsn : Lsn
  pages : List WalPageImage
  deriving DecidableEq, Repr

/-- A record of the log. -/
structure Frame where
  formatVersion : Nat
  recordType : WalRecordType
  recordLsn : Lsn
  batchId : Nat
  recordIndex : Nat
  payload : Bytes
  deriving DecidableEq, Repr

/-- Images whose COMMIT the scanner has not met yet. -/
structure PendingBatch where
  batchId : Nat
  firstRecordLsn : Lsn
  pages : List WalPageImage
  digestInput : Bytes
  deriving DecidableEq, Repr

/-- The validated index of complete commits that an open log keeps; counters that only
feed metrics are left out. -/
structure WalLog where
  identity : WalIdentity
  formatVersion : Nat
  nextLsn : Lsn
  nextBatchId : Nat
  historyStartLsn : Lsn
  committed : List WalCommit
  deriving DecidableEq

variable [Crc32c]

/-! ### Frames -/

/-- The checksum is taken with its own field set to zero. -/
def headerChecksum (header : Bytes) : Nat :=
  (Crc32c.crc32c (splice header headerChecksumOffset (zeros 4))).toNat

/-- A frame's header with a given checksum of its own. -/
def frameHeader (frame : Frame) (checksum : Nat) : Bytes :=
  walMagic ++ (le 2 frame.formatVersion ++ ([frame.recordType.toByte, 0] ++
    (le 4 (walHeaderSize + frame.payload.length + walTrailerSize) ++ (le 4 frame.payload.length ++
      (le 8 frame.recordLsn ++ (le 8 frame.batchId ++ (le 4 frame.recordIndex ++ (zeros 4 ++
        (le 4 checksum ++ le 4 (Crc32c.crc32c frame.payload).toNat)))))))))

/-- A header, the payload, and the frame's length once more. -/
def encodeFrame (frame : Frame) : Result Bytes := do
  ensure (frame.payload.length ≤ walMaxPayloadSize) (.invalidInput "WAL payload exceeds maximum size")
  let header := frameHeader frame 0
  pure (splice header headerChecksumOffset (le 4 (headerChecksum header)) ++ (frame.payload ++
    le 4 (walHeaderSize + frame.payload.length + walTrailerSize)))

/-- The header of a frame whose checksum is right. -/
structure DecodedHeader where
  version : Nat
  recordType : WalRecordType
  frameLength : Nat
  payloadLength : Nat
  recordLsn : Nat
  batchId : Nat
  recordIndex : Nat

/-- Checks the header alone; the payload may still be missing. -/
def decodeHeader (bytes : Bytes) : Result DecodedHeader := do
  ensure (bytes.length = walHeaderSize) (.corruption "WAL header has an invalid length")
  ensure (slice bytes 0 4 = walMagic) (.corruption "WAL magic mismatch")
  let version := ofLe (slice bytes 4 2)
  ensure (version = walFormatVersion ∨ version = legacyWalFormatVersion)
    (.unsupportedFormat s!"WAL version {version}, supported {walFormatVersion}")
  ensure (bytes.getD 7 0 = 0 ∧ (slice bytes 36 4).all (· == 0))
    (.corruption "WAL reserved header bytes are non-zero")
  ensure (ofLe (slice bytes headerChecksumOffset 4) = headerChecksum bytes)
    (.corruption "WAL header checksum mismatch")
  let recordType ← WalRecordType.decode (bytes.getD 6 0)
  pure ⟨version, recordType, ofLe (slice bytes 8 4), ofLe (slice bytes 12 4), ofLe (slice bytes 16 8),
    ofLe (slice bytes 24 8), ofLe (slice bytes 32 4)⟩

/-- The frame at the front of `bytes`, which lie at `offset` of the file, if it is complete;
`version` and `previousLsn` are those of the frames before it. -/
def nextFrame (bytes : Bytes) (offset : Nat) (version : Option Nat) (previousLsn : Option Lsn) :
    Result (Option (Frame × Nat)) :=
  if bytes.length < walHeaderSize then .ok none
  else do
    let headerBytes := slice bytes 0 walHeaderSize
    let header ← decodeHeader headerBytes
    ensure (version.all fun version => decide (version = header.version))
      (.corruption "WAL frames use inconsistent format versions")
    ensure (walMinFrameSize ≤ header.frameLength ∧
      header.frameLength = walHeaderSize + header.payloadLength + walTrailerSize ∧
      header.payloadLength ≤ walMaxPayloadSize)
      (.corruption s!"invalid WAL frame length {header.frameLength} at offset {offset}")
    if header.frameLength > bytes.length then .ok none
    else do
      let payload := slice bytes walHeaderSize header.payloadLength
      let trailer := slice bytes (walHeaderSize + header.payloadLength) walTrailerSize
      ensure (ofLe trailer = header.frameLength)
        (.corruption s!"WAL trailing length mismatch at offset {offset}")
      ensure (previousLsn.all fun previous => decide (previous < header.recordLsn))
        (.corruption s!"WAL LSN {header.recordLsn} is not strictly greater than the previous LSN")
      let expected := ofLe (slice headerBytes 44 4)
      let actual := (Crc32c.crc32c payload).toNat
      ensure (expected = actual) (.corruption
        s!"WAL payload checksum mismatch at offset {offset}: expected {hex 8 expected}, calculated {hex 8 actual}")
      pure (some (⟨header.version, header.recordType, header.recordLsn, header.batchId,
        header.recordIndex, payload⟩, header.frameLength))

/-- The complete frames of a log and the bytes they take. Every frame takes some, so the
number of bytes bounds the number of frames. -/
def scanFrames : Nat → Bytes → Nat → Option Nat → Option Lsn → Result (List Frame × Nat)
  | 0, _, offset, _, _ => .ok ([], offset)
  | bound + 1, bytes, offset, version, previousLsn => do
    match ← nextFrame bytes offset version previousLsn with
    | none => pure ([], offset)
    | some (frame, frameLength) =>
      let (frames, validLength) ← scanFrames bound (bytes.drop frameLength) (offset + frameLength)
        (some (version.getD frame.formatVersion)) (some frame.recordLsn)
      pure (frame :: frames, validLength)

/-! ### Payloads -/

def encodePageImage (page : WalPageImage) : Bytes := le 8 page.pageId ++ page.image

def decodePageImage (payload : Bytes) : Result WalPageImage := do
  ensure (payload.length = pageImagePayloadSize) (.corruption
    s!"WAL page-image payload has {payload.length} bytes, expected {pageImagePayloadSize}")
  pure ⟨ofLe (slice payload 0 8), payload.drop 8⟩

def WalPageImage.isSuperblock (page : WalPageImage) : Bool := page.pageId = 0 || page.pageId = 1

/-- The image is a superblock or a page of the number it has. -/
def validatePageImage (page : WalPageImage) : Result Unit :=
  if page.isSuperblock then do
    let _ ← decodeSuperblock page.image
    pure ()
  else do
    let _ ← decodePageAt page.image (some page.pageId)
    pure ()

/-- A page bears the LSN of its commit; superblocks are not checked. -/
def validatePageImageLsn (page : WalPageImage) (commitLsn : Lsn) : Result Unit :=
  if page.isSuperblock then .ok ()
  else
    let pageLsn := ofLe (slice page.image 16 8)
    ensure (pageLsn = commitLsn)
      (.corruption s!"WAL page {page.pageId} has page LSN {pageLsn}, commit LSN {commitLsn}")

/-- The digest a COMMIT frame holds of its images' payloads. -/
def digest (digestInput : Bytes) : Nat := (Crc32c.crc32c digestInput).toNat

/-- The commit repeats what it covers: where it began, its pages and their digest. -/
def commitPayload (firstRecordLsn : Lsn) (pageCount : Nat) (digest : Nat) : Bytes :=
  le 8 firstRecordLsn ++ (le 4 pageCount ++ le 4 digest)

def decodeCommitPayload (payload : Bytes) : Result (Lsn × Nat × Nat) := do
  ensure (payload.length = commitPayloadSize) (.corruption
    s!"WAL commit payload has {payload.length} bytes, expected {commitPayloadSize}")
  pure (ofLe (slice payload 0 8), ofLe (slice payload 8 4), ofLe (slice payload 12 4))

/-- The first record binds the log to one database and epoch. -/
def identityPayload (identity : WalIdentity) (startAfterLsn : Lsn) : Bytes :=
  identity.databaseUuid.val ++ (le 8 identity.tenantId.toNat ++ (le 8 identity.shardId.toNat ++
    (le 8 identity.shardEpoch.toNat ++ (le 4 pageSize ++ le 8 startAfterLsn))))

/-- The LSN that the history of the log starts after, if the log is the expected database's. -/
def verifyIdentity (version : Nat) (payload : Bytes) (expected : WalIdentity) : Result Lsn := do
  ensure (payload.length = if version = legacyWalFormatVersion then legacyInitPayloadSize else initPayloadSize)
    (.corruption "WAL initialization payload has invalid length")
  let actual : WalIdentity :=
    { databaseUuid := Uuid.ofBytes (slice payload 0 16)
      tenantId := UInt64.ofNat (ofLe (slice payload 16 8))
      shardId := UInt64.ofNat (ofLe (slice payload 24 8))
      shardEpoch := UInt64.ofNat (ofLe (slice payload 32 8)) }
  ensure (ofLe (slice payload 40 4) = pageSize) (.unsupportedFormat "WAL page size is unsupported")
  ensure (actual = expected) (.corruption "WAL identity does not match the requested database shard")
  pure (if version = legacyWalFormatVersion then 0 else ofLe (slice payload 44 8))

/-! ### Scanning -/

/-- What the frames so far add up to. -/
structure ScanState where
  committed : List WalCommit := []
  pending : Option PendingBatch := none
  highestBatchIdSeen : Nat := 0
  maxBatchId : Nat := 0
  deriving DecidableEq

/-- Adds a page image to the batch it belongs to, which it may open. -/
def scanPageImage (s : ScanState) (frame : Frame) : Result ScanState := do
  let page ← decodePageImage frame.payload
  validatePageImage page
  let (current, highest) ← match s.pending.filter fun pending => decide (pending.batchId = frame.batchId) with
    | some pending => pure (pending, s.highestBatchIdSeen)
    | none => do
      ensure (s.highestBatchIdSeen < frame.batchId) (.corruption "WAL batch IDs are not strictly increasing")
      pure (⟨frame.batchId, frame.recordLsn, [], []⟩, frame.batchId)
  ensure (frame.recordIndex = current.pages.length % 2 ^ 32)
    (.corruption "WAL page-image record index is not contiguous")
  pure {s with
    highestBatchIdSeen := highest
    pending := some {current with
      digestInput := current.digestInput ++ frame.payload
      pages := current.pages ++ [page]}}

/-- Every page of a batch carries the LSN it is committed with. -/
def validatePageImageLsns (commitLsn : Lsn) : List WalPageImage → Result Unit
  | [] => .ok ()
  | page :: rest => do
    validatePageImageLsn page commitLsn
    validatePageImageLsns commitLsn rest

/-- A COMMIT frame has to match the images before it in every respect. -/
def scanCommit (s : ScanState) (frame : Frame) : Result ScanState :=
  match s.pending with
  | none => .error (.corruption "WAL commit has no matching page-image records")
  | some current => do
    ensure (current.batchId = frame.batchId ∧ frame.recordIndex = current.pages.length % 2 ^ 32)
      (.corruption "WAL commit does not match its page-image sequence")
    let (firstLsn, pageCount, expected) ← decodeCommitPayload frame.payload
    ensure (firstLsn = current.firstRecordLsn ∧ pageCount = current.pages.length ∧
      digest current.digestInput = expected) (.corruption "WAL commit metadata does not match page images")
    validatePageImageLsns frame.recordLsn current.pages
    pure {s with
      pending := none
      committed := s.committed ++ [⟨frame.batchId, frame.recordLsn, current.pages⟩]}

/-- One frame behind the first: a page image or a COMMIT. -/
def scanFrame (historyStartLsn : Lsn) (s : ScanState) (frame : Frame) : Result ScanState := do
  ensure (historyStartLsn < frame.recordLsn)
    (.corruption "WAL record LSN is not after the initialization history boundary")
  let s := {s with maxBatchId := max s.maxBatchId frame.batchId}
  match frame.recordType with
  | .init => .error (.corruption "WAL contains a second initialization record")
  | .pageImage => scanPageImage s frame
  | .commit => scanCommit s frame

/-- The frames behind the first, in order. -/
def scanRecords (historyStartLsn : Lsn) : ScanState → List Frame → Result ScanState
  | s, [] => .ok s
  | s, frame :: rest => do
    let s ← scanFrame historyStartLsn s frame
    scanRecords historyStartLsn s rest

/-- The log `bytes` are, and how many of them its complete frames take. -/
def scanWal (identity : WalIdentity) (bytes : Bytes) : Result (WalLog × Nat) := do
  let (frames, validLength) ← scanFrames (bytes.length + 1) bytes 0 none none
  match frames with
  | [] => .error (.corruption "WAL has no complete initialization record")
  | first :: rest => do
    ensure (first.recordType = .init ∧ first.recordLsn = 0 ∧ first.batchId = 0 ∧ first.recordIndex = 0)
      (.corruption "WAL does not begin with the required initialization record")
    let historyStartLsn ← verifyIdentity first.formatVersion first.payload identity
    let s ← scanRecords historyStartLsn {} rest
    let nextLsn ← addOr (.internalInvariantViolation "WAL LSN exhausted")
      ((rest.getLast?.getD first).recordLsn) 1
    let nextBatchId ← addOr (.internalInvariantViolation "WAL batch ID exhausted") s.maxBatchId 1
    pure (⟨identity, first.formatVersion, nextLsn, max nextBatchId 1, historyStartLsn, s.committed⟩, validLength)

/-! ### Opening and resetting -/

section Programs
variable {μ : Type}

abbrev Wal (μ : Type) := Io (Machine FileId μ) Error

def walLength : Wal μ Nat := fileLength ioFailure .wal

def walRead (length : Nat) : Wal μ Bytes := readAt ioFailure (.io "unexpected end of WAL") .wal 0 length

/-- A write that is cut short leaves the bytes it got to. -/
def walWrite (offset : Nat) (bytes : Bytes) : Wal μ PUnit :=
  writeAt ioFailure .wal offset bytes fun _ left => left.isPrefixOf bytes

def walSetLength (length : Nat) : Wal μ PUnit := setLength ioFailure .wal length

def walSync : Wal μ PUnit := syncFile ioFailure .wal

/-- Writes a frame behind the end of the log. -/
def appendFrame (frame : Frame) : Wal μ PUnit := do
  let bytes ← Io.ofExcept (encodeFrame frame)
  let payloadEnd := walHeaderSize + frame.payload.length
  let offset ← walLength
  walWrite offset (bytes.take walHeaderSize)
  walWrite (offset + walHeaderSize) (slice bytes walHeaderSize frame.payload.length)
  walWrite (offset + payloadEnd) (bytes.drop payloadEnd)

def initFrame (formatVersion : Nat) (identity : WalIdentity) (startAfterLsn : Lsn) : Frame :=
  ⟨formatVersion, .init, 0, 0, 0, identityPayload identity startAfterLsn⟩

/-- An error with its text put behind `message`. -/
def wrapError (wrap : String → Error) (message : String) (error : Error) : Error :=
  wrap (message ++ ": " ++ error.display)

/-- A new log has one frame, which names its database. -/
def initializeEmpty (identity : WalIdentity) (startAfterLsn : Lsn) : Wal μ WalLog := do
  let nextLsn ← Io.ofExcept (addOr (.internalInvariantViolation "WAL LSN exhausted") startAfterLsn 1)
  appendFrame (initFrame walFormatVersion identity startAfterLsn)
  Io.mapError (wrapError .durabilityFailure "initial WAL sync failed") walSync
  pure ⟨identity, walFormatVersion, nextLsn, 1, startAfterLsn, []⟩

/-- A log shorter than an INIT frame that is the beginning of the one expected. -/
def isTornInitializationPrefix (identity : WalIdentity) (startAfterLsn : Lsn) (length : Nat) : Wal μ Bool := do
  let expected ← Io.ofExcept (encodeFrame (initFrame walFormatVersion identity startAfterLsn))
  if length ≥ expected.length then pure false
  else
    let bytes ← walRead length
    pure (decide (bytes = expected.take length))

/-- Opens the log. One that is new, or whose first frame is torn, is initialised; else it is scanned, and a torn end is
cut off. -/
def openWal (identity : WalIdentity) (startAfterLsn : Lsn) : Wal μ WalLog := do
  let length ← walLength
  if length = 0 then initializeEmpty identity startAfterLsn
  else
    let torn ← if length < initFrameSize then isTornInitializationPrefix identity startAfterLsn length
      else pure false
    if torn then
      Io.mapError (wrapError .recoveryFailure "WAL torn INIT reset failed") (walSetLength 0)
      Io.mapError (wrapError .durabilityFailure "WAL torn INIT reset sync failed") walSync
      initializeEmpty identity startAfterLsn
    else
      let length ← walLength
      let bytes ← walRead length
      let (wal, validLength) ← Io.ofExcept (scanWal identity bytes)
      if validLength < length then
        walSetLength validLength
        Io.mapError (wrapError .durabilityFailure "WAL torn-tail truncation sync failed") walSync
        pure wal
      else pure wal

/-- The counters go on behind the checkpoint, if the log is older. -/
def WalLog.resumeAfter (wal : WalLog) (checkpointLsn : Lsn) : Result WalLog := do
  let nextLsn ← addOr (.internalInvariantViolation "WAL LSN exhausted") checkpointLsn 1
  pure (if wal.nextLsn < nextLsn then {wal with nextLsn} else wal)

/-- Empties the log and starts its history after a checkpoint. The index in memory changes
once the file is known to be empty. -/
def resetWal (checkpointLsn : Lsn) : Wal WalLog PUnit := do
  let wal ← memory
  Io.ofExcept (ensure (wal.historyStartLsn ≤ checkpointLsn)
    (.checkpointFailure "WAL reset would move its history start backwards"))
  Io.mapError (wrapError .checkpointFailure "WAL reset truncation failed") (walSetLength 0)
  Io.mapError (wrapError .checkpointFailure "WAL reset truncation sync failed") walSync
  modifyMemory fun wal => {wal with historyStartLsn := checkpointLsn, formatVersion := walFormatVersion}
  let nextLsn ← Io.ofExcept (addOr (.internalInvariantViolation "WAL LSN exhausted") checkpointLsn 1)
  modifyMemory fun wal => {wal with nextLsn, nextBatchId := 1, committed := []}
  appendFrame (initFrame walFormatVersion wal.identity checkpointLsn)
  Io.mapError (wrapError .checkpointFailure "WAL reset sync failed") walSync

/-! ### Appending -/

/-- Appends the frames of images `index` on and answers their payloads. -/
def appendImages (formatVersion : Nat) (commit : WalCommit) (firstRecordLsn : Lsn) :
    Nat → List WalPageImage → Wal μ Bytes
  | _, [] => pure []
  | index, page :: rest => do
    Io.ofExcept (validatePageImageLsn page commit.commitLsn)
    Io.ofExcept (validatePageImage page)
    let payload := encodePageImage page
    let recordLsn ← Io.ofExcept (addOr (.internalInvariantViolation "WAL LSN exhausted") firstRecordLsn index)
    Io.ofExcept (ensure (index ≤ u32Max) (.invalidInput "WAL record index overflows u32"))
    appendFrame ⟨formatVersion, .pageImage, recordLsn, commit.batchId, index, payload⟩
    let payloads ← appendImages formatVersion commit firstRecordLsn (index + 1) rest
    pure (payload ++ payloads)

/-- The images of a commit and its COMMIT frame. -/
def appendGroupCommit (formatVersion : Nat) (commit : WalCommit) (firstRecordLsn : Lsn)
    (expectedBatchId : Nat) : Wal μ PUnit := do
  Io.ofExcept (ensure (commit.pages ≠ []) (.invalidInput "a WAL commit must contain at least one page image"))
  Io.ofExcept (ensure (commit.batchId = expectedBatchId) (.internalInvariantViolation
    s!"WAL batch id {commit.batchId}, expected {expectedBatchId}"))
  let expectedCommit ← Io.ofExcept (addOr (.internalInvariantViolation "WAL LSN exhausted")
    firstRecordLsn commit.pages.length)
  Io.ofExcept (ensure (commit.commitLsn = expectedCommit) (.internalInvariantViolation
    s!"WAL commit LSN {commit.commitLsn}, expected {expectedCommit}"))
  let digestInput ← appendImages formatVersion commit firstRecordLsn 0 commit.pages
  Io.ofExcept (ensure (commit.pages.length ≤ u32Max) (.invalidInput "WAL page count does not fit u32"))
  appendFrame ⟨formatVersion, .commit, commit.commitLsn, commit.batchId, commit.pages.length,
    commitPayload firstRecordLsn commit.pages.length (digest digestInput)⟩

/-- Appends commits one after another; answers the LSN and batch id after the last. -/
def appendCommits (formatVersion : Nat) : List WalCommit → Lsn → Nat → Wal μ (Lsn × Nat)
  | [], nextLsn, nextBatchId => pure (nextLsn, nextBatchId)
  | commit :: rest, nextLsn, nextBatchId => do
    appendGroupCommit formatVersion commit nextLsn nextBatchId
    let nextLsn ← Io.ofExcept (addOr (.internalInvariantViolation "WAL LSN exhausted") commit.commitLsn 1)
    let nextBatchId ← Io.ofExcept (addOr (.internalInvariantViolation "WAL batch id exhausted") nextBatchId 1)
    appendCommits formatVersion rest nextLsn nextBatchId

/-- Appends commits and syncs once; the index in memory changes only after that. -/
def appendGroup (wal : WalLog) (commits : List WalCommit) : Wal μ WalLog := do
  match commits.getLast? with
  | none => Io.raise (.invalidInput "a WAL group must contain a commit")
  | some last =>
    let (nextLsn, nextBatchId) ← appendCommits wal.formatVersion commits wal.nextLsn wal.nextBatchId
    Io.mapError (wrapError .durabilityFailure s!"WAL group sync failed at commit LSN {last.commitLsn}") walSync
    pure {wal with nextLsn, nextBatchId, committed := wal.committed ++ commits}

end Programs

end Dodb
