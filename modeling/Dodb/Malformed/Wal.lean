import Dodb.Malformed.Storage
import Dodb.Storage.WalAccepted

/-! The scan of the log with every operation of the source that could panic.

The scan goes over the frames of a file by offset and reads what each header announces, and then over the records they
hold. Offsets stay within the file, so that the additions on them do not overflow; every payload is measured before its
fields are taken from it. -/
namespace Dodb.Malformed
open Lib Attempt

variable [Crc32c]

/-! ### Reading a file -/

/-- The passes of `read_exact_at`, on a file that hands out what it has. -/
def readPasses (file : Bytes) (offset length : Nat) : Nat → Nat → Bytes → Attempt Error Bytes
  | 0, _, _ => panic
  | bound + 1, position, bytes =>
    if position < length then do
      let readOffset ← addOrFail (.corruption "WAL read offset overflows") offset position
      let buffer ← rangeFrom bytes position
      let read := slice file readOffset buffer.length
      if read.length = 0 then total (.error (.io "unexpected end of WAL"))
      else
        let next ← add position read.length
        readPasses file offset length bound next (splice bytes position read)
    else pure bytes

/-- Reads `length` bytes of the file, or fails where it ends. -/
def readExactAt (file : Bytes) (offset length : Nat) : Attempt Error Bytes :=
  readPasses file offset length (length + 1) 0 (zeros length)

omit [Crc32c] in
theorem readExactAt_bind {file : Bytes} (hfile : file.length ≤ wordMax) {offset length : Nat}
    (h : offset + length ≤ file.length) {β : Type} (f : Bytes → Attempt Error β) :
    readExactAt file offset length >>= f = f (slice file offset length) := by
  have hread : readExactAt file offset length = pure (slice file offset length) := by
    have hlen := length_slice file offset length h
    unfold readExactAt
    obtain _ | n := length
    · rfl
    · rw [readPasses, if_pos (Nat.succ_pos n), addOrFail_bind (by omega), rangeFrom_bind (Nat.zero_le _)]
      simp only [List.drop_zero, length_zeros, Nat.add_zero]
      rw [if_neg (by rw [hlen]; omega), add_bind (by rw [hlen]; omega), readPasses, if_neg (by rw [hlen]; omega)]
      simp [splice, hlen, zeros]
  rw [hread, Attempt.pure_bind]

/-! ### Frames -/

def headerChecksum (header : Bytes) : Attempt Error Nat := do
  let input ← array walHeaderSize header
  let _ ← range input headerChecksumOffset (headerChecksumOffset + 4)
  pure (Dodb.headerChecksum input)

def decodeHeader (bytes : Bytes) : Attempt Error DecodedHeader := do
  require (bytes.length = walHeaderSize) (.corruption "WAL header has an invalid length")
  let magic ← range bytes 0 4
  require (magic = walMagic) (.corruption "WAL magic mismatch")
  let version ← field 2 bytes 4 6
  let version := ofLe version
  require (version = walFormatVersion ∨ version = legacyWalFormatVersion)
    (.unsupportedFormat s!"WAL version {version}, supported {walFormatVersion}")
  let reserved ← index bytes 7
  require (reserved = 0) (.corruption "WAL reserved header bytes are non-zero")
  let reserved ← range bytes 36 40
  require (reserved.all (· == 0)) (.corruption "WAL reserved header bytes are non-zero")
  let expectedChecksum ← field 4 bytes headerChecksumOffset 44
  let checksum ← headerChecksum bytes
  require (ofLe expectedChecksum = checksum) (.corruption "WAL header checksum mismatch")
  let type ← index bytes 6
  let recordType ← total (WalRecordType.decode type)
  let frameLength ← field 4 bytes 8 12
  let payloadLength ← field 4 bytes 12 16
  let recordLsn ← field 8 bytes 16 24
  let batchId ← field 8 bytes 24 32
  let recordIndex ← field 4 bytes 32 36
  pure ⟨version, recordType, ofLe frameLength, ofLe payloadLength, ofLe recordLsn, ofLe batchId, ofLe recordIndex⟩

def verifyPayloadChecksum (header payload : Bytes) (offset : Nat) : Attempt Error Unit := do
  let expected ← field 4 header 44 48
  let expected := ofLe expected
  let actual := (Crc32c.crc32c payload).toNat
  require (expected = actual) (.corruption
    s!"WAL payload checksum mismatch at offset {offset}: expected {hex 8 expected}, calculated {hex 8 actual}")

/-- A pass of the loop over the frames of a file, up to where the frame is kept; nothing where the loop is left. -/
def nextFrame (file : Bytes) (offset : Nat) (version : Option Nat) (previousLsn : Option Lsn) :
    Attempt Error (Option (Frame × Nat)) := do
  let remaining ← sub file.length offset
  if remaining < walHeaderSize then pure none
  else
    let headerBytes ← readExactAt file offset walHeaderSize
    let header ← decodeHeader headerBytes
    require (version.all fun version => decide (version = header.version))
      (.corruption "WAL frames use inconsistent format versions")
    let headed ← add walHeaderSize header.payloadLength
    let expectedLength ← add headed walTrailerSize
    require (walMinFrameSize ≤ header.frameLength ∧ header.frameLength = expectedLength ∧
      header.payloadLength ≤ walMaxPayloadSize)
      (.corruption s!"invalid WAL frame length {header.frameLength} at offset {offset}")
    if header.frameLength > remaining then pure none
    else
      let payloadOffset ← addOrFail (.corruption "WAL payload offset overflows") offset walHeaderSize
      let payload ← readExactAt file payloadOffset header.payloadLength
      let headed ← add walHeaderSize header.payloadLength
      let trailerOffset ← addOrFail (.corruption "WAL trailer offset overflows") offset headed
      let trailer ← readExactAt file trailerOffset walTrailerSize
      let trailer ← array 4 trailer
      require (ofLe trailer = header.frameLength)
        (.corruption s!"WAL trailing length mismatch at offset {offset}")
      require (previousLsn.all fun previous => decide (previous < header.recordLsn))
        (.corruption s!"WAL LSN {header.recordLsn} is not strictly greater than the previous LSN")
      verifyPayloadChecksum headerBytes payload offset
      pure (some (⟨header.version, header.recordType, header.recordLsn, header.batchId, header.recordIndex, payload⟩,
        header.frameLength))

/-- The loop over the frames, with the number of frames it has scanned. -/
def scanFrames (file : Bytes) : Nat → Nat → Option Nat → Option Lsn → Nat → Attempt Error (List Frame × Nat)
  | 0, _, _, _, _ => panic
  | bound + 1, offset, version, previousLsn, recordsScanned =>
    if offset < file.length then do
      match ← nextFrame file offset version previousLsn with
      | none => pure ([], offset)
      | some (frame, frameLength) =>
        let recordsScanned ← add recordsScanned 1
        let next ← add offset frameLength
        let (frames, validLength) ← scanFrames file bound next (some (version.getD frame.formatVersion))
          (some frame.recordLsn) recordsScanned
        pure (frame :: frames, validLength)
    else pure ([], offset)

theorem headerChecksum_bind {header : Bytes} (h : header.length = walHeaderSize) {β : Type} (f : Nat → Attempt Error β) :
    headerChecksum header >>= f = f (Dodb.headerChecksum header) := by
  have hrange : headerChecksumOffset ≤ headerChecksumOffset + 4 ∧ headerChecksumOffset + 4 ≤ header.length := by
    rw [h]
    decide
  rw [headerChecksum, Attempt.bind_assoc, array_bind h, Attempt.bind_assoc, range_bind hrange, Attempt.pure_bind]

theorem decodeHeader_eq (bytes : Bytes) : decodeHeader bytes = total (Dodb.decodeHeader bytes) := by
  refine require_bind fun hlen => ?_
  simp (disch := (rw [hlen]; decide)) only [range_bind, field_bind, byte_bind, headerChecksum_bind hlen, require, pure_eq,
    total_bind, ensure_and]

theorem payloadLength_le {bytes : Bytes} {header : DecodedHeader} (h : Dodb.decodeHeader bytes = .ok header) :
    header.payloadLength ≤ u32Max := by
  simp only [Dodb.decodeHeader, except_bind_eq_ok, ensure_eq_ok] at h
  obtain ⟨_, hlen, _, _, _, _, _, _, _, _, _, _, heq⟩ := h
  cases heq
  have := ofLe_lt (slice bytes 12 4)
  rw [length_slice _ _ _ (by rw [hlen]; decide)] at this
  exact Nat.le_sub_one_of_lt this

theorem nextFrame_eq {file : Bytes} (hfile : file.length ≤ wordMax) {offset : Nat} (hoffset : offset ≤ file.length)
    (version : Option Nat) (previousLsn : Option Lsn) :
    nextFrame file offset version previousLsn =
      total (Dodb.nextFrame (file.drop offset) offset version previousLsn) := by
  rw [nextFrame, sub_bind hoffset, Dodb.nextFrame, List.length_drop]
  by_cases hshort : file.length - offset < walHeaderSize
  · rw [if_pos hshort, if_pos hshort]
    rfl
  · have hheader : slice file offset walHeaderSize = slice (file.drop offset) 0 walHeaderSize := by simp [slice]
    rw [if_neg hshort, if_neg hshort, readExactAt_bind hfile (by omega), hheader, decodeHeader_eq]
    refine total_bind_eq fun header hdecoded => require_bind fun _ => ?_
    have hpayload := payloadLength_le hdecoded
    have hword : walHeaderSize + u32Max + walTrailerSize ≤ wordMax := by decide
    rw [add_bind (by omega), add_bind (by omega)]
    refine require_bind fun hlength => ?_
    by_cases hlong : header.frameLength > file.length - offset
    · rw [if_pos hlong, if_pos hlong]
      rfl
    · rw [if_neg hlong, if_neg hlong, addOrFail_bind (by omega), readExactAt_bind hfile (by omega), add_bind (by omega),
        addOrFail_bind (by omega), readExactAt_bind hfile (by omega)]
      have htrailer : slice file (offset + (walHeaderSize + header.payloadLength)) walTrailerSize =
          slice (file.drop offset) (walHeaderSize + header.payloadLength) walTrailerSize := by simp [slice]
      have hbody : slice file (offset + walHeaderSize) header.payloadLength =
          slice (file.drop offset) walHeaderSize header.payloadLength := by simp [slice]
      have hfour : (slice (file.drop offset) (walHeaderSize + header.payloadLength) walTrailerSize).length = 4 :=
        length_slice _ _ _ (by rw [List.length_drop]; omega)
      rw [htrailer, hbody, array_bind hfour]
      refine require_bind fun _ => require_bind fun _ => ?_
      have hlen : (slice (file.drop offset) 0 walHeaderSize).length = walHeaderSize :=
        length_slice _ _ _ (by rw [List.length_drop]; omega)
      rw [verifyPayloadChecksum, Attempt.bind_assoc, field_bind (by rw [hlen]; decide)]
      exact require_bind fun _ => rfl

theorem scanFrames_eq {file : Bytes} (hfile : file.length ≤ wordMax) {bound offset recordsScanned : Nat}
    (hoffset : offset ≤ file.length) (hbound : file.length < bound + offset) (hscanned : recordsScanned ≤ offset)
    (version : Option Nat) (previousLsn : Option Lsn) :
    scanFrames file bound offset version previousLsn recordsScanned =
      total (Dodb.scanFrames bound (file.drop offset) offset version previousLsn) := by
  induction bound generalizing offset recordsScanned version previousLsn with
  | zero => omega
  | succ bound ih =>
    rw [scanFrames, Dodb.scanFrames]
    by_cases hlt : offset < file.length
    · rw [if_pos hlt, nextFrame_eq hfile hoffset]
      refine total_bind_eq fun found hfound => ?_
      obtain _ | ⟨frame, frameLength⟩ := found
      · rfl
      · obtain ⟨hlength, hwithin, _⟩ := nextFrame_eq_some hfound
        rw [List.length_drop] at hwithin
        have hpos : 0 < frameLength := by
          rw [hlength]
          exact Nat.lt_of_lt_of_le (by decide) (Nat.le_add_left walTrailerSize _)
        dsimp only
        rw [add_bind (by omega), add_bind (by omega), ih (by omega) (by omega) (by omega), List.drop_drop]
        exact total_bind_eq fun _ _ => rfl
    · rw [if_neg hlt, List.drop_eq_nil_of_le (by omega)]
      rfl

/-! ### Payloads -/

def decodePageImage (payload : Bytes) : Attempt Error WalPageImage := do
  require (payload.length = pageImagePayloadSize) (.corruption
    s!"WAL page-image payload has {payload.length} bytes, expected {pageImagePayloadSize}")
  let pageId ← field 8 payload 0 8
  let image ← rangeFrom payload 8
  let image ← array pageSize image
  pure ⟨ofLe pageId, image⟩

def validatePageImage (page : WalPageImage) : Attempt Error Unit :=
  if page.isSuperblock then do
    let _ ← decodeSuperblock page.image
    pure ()
  else do
    let _ ← decodePageAt page.image (some page.pageId)
    pure ()

def validatePageImageLsn (page : WalPageImage) (commitLsn : Lsn) : Attempt Error Unit :=
  if page.isSuperblock then pure ()
  else do
    let pageLsn ← field 8 page.image 16 24
    let pageLsn := ofLe pageLsn
    require (pageLsn = commitLsn)
      (.corruption s!"WAL page {page.pageId} has page LSN {pageLsn}, commit LSN {commitLsn}")

def decodeCommitPayload (payload : Bytes) : Attempt Error (Lsn × Nat × Nat) := do
  require (payload.length = commitPayloadSize) (.corruption
    s!"WAL commit payload has {payload.length} bytes, expected {commitPayloadSize}")
  let pageCount ← field 4 payload 8 12
  let firstLsn ← field 8 payload 0 8
  let digest ← field 4 payload 12 16
  pure (ofLe firstLsn, ofLe pageCount, ofLe digest)

def verifyIdentity (version : Nat) (payload : Bytes) (expected : WalIdentity) : Attempt Error Lsn := do
  require (payload.length = if version = legacyWalFormatVersion then legacyInitPayloadSize else initPayloadSize)
    (.corruption "WAL initialization payload has invalid length")
  let databaseUuid ← field 16 payload 0 16
  let tenantId ← field 8 payload 16 24
  let shardId ← field 8 payload 24 32
  let shardEpoch ← field 8 payload 32 40
  let actual : WalIdentity :=
    { databaseUuid := Uuid.ofBytes databaseUuid
      tenantId := UInt64.ofNat (ofLe tenantId)
      shardId := UInt64.ofNat (ofLe shardId)
      shardEpoch := UInt64.ofNat (ofLe shardEpoch) }
  let size ← field 4 payload 40 44
  require (ofLe size = pageSize) (.unsupportedFormat "WAL page size is unsupported")
  require (actual = expected) (.corruption "WAL identity does not match the requested database shard")
  if version = legacyWalFormatVersion then pure 0
  else
    let startAfterLsn ← field 8 payload 44 52
    pure (ofLe startAfterLsn)

omit [Crc32c] in
theorem decodePageImage_eq (payload : Bytes) : decodePageImage payload = total (Dodb.decodePageImage payload) := by
  refine require_bind fun hlen => ?_
  rw [field_bind (by rw [hlen]; decide), rangeFrom_bind (by rw [hlen]; decide),
    array_bind (by rw [List.length_drop, hlen]; rfl)]
  rfl

theorem validatePageImage_eq (page : WalPageImage) : validatePageImage page = total (Dodb.validatePageImage page) := by
  unfold validatePageImage Dodb.validatePageImage
  split
  · rw [decodeSuperblock_eq]
    exact total_bind_eq fun _ _ => rfl
  · rw [decodePageAt_eq]
    exact total_bind_eq fun _ _ => rfl

omit [Crc32c] in
theorem validatePageImageLsn_eq {page : WalPageImage} (h : page.image.length = pageSize) (commitLsn : Lsn) :
    validatePageImageLsn page commitLsn = total (Dodb.validatePageImageLsn page commitLsn) := by
  unfold validatePageImageLsn Dodb.validatePageImageLsn
  split
  · rfl
  · rw [field_bind (by rw [h]; decide)]
    rfl

omit [Crc32c] in
theorem decodeCommitPayload_eq (payload : Bytes) :
    decodeCommitPayload payload = total (Dodb.decodeCommitPayload payload) := by
  refine require_bind fun hlen => ?_
  rw [field_bind (by rw [hlen]; decide), field_bind (by rw [hlen]; decide), field_bind (by rw [hlen]; decide)]
  rfl

omit [Crc32c] in
/-- A payload of the older version is shorter, and its last field is not looked at. -/
theorem verifyIdentity_eq (version : Nat) (payload : Bytes) (expected : WalIdentity) :
    verifyIdentity version payload expected = total (Dodb.verifyIdentity version payload expected) := by
  refine require_bind fun hlen => ?_
  have hshort : 44 ≤ payload.length := by
    rw [hlen]
    split <;> decide
  rw [field_bind (by omega), field_bind (by omega), field_bind (by omega), field_bind (by omega)]
  dsimp only
  rw [field_bind (by omega)]
  refine require_bind fun _ => require_bind fun _ => ?_
  by_cases hversion : version = legacyWalFormatVersion
  · rw [if_pos hversion, if_pos hversion]
    rfl
  · rw [if_neg hversion] at hlen
    rw [if_neg hversion, if_neg hversion, field_bind (by rw [hlen]; decide)]
    rfl

/-! ### Records -/

/-- A page image of another batch than the one being collected opens its own. -/
def openBatch (s : ScanState) (frame : Frame) : Attempt Error ScanState :=
  if s.pending.all fun pending => decide (pending.batchId ≠ frame.batchId) then do
    require (s.highestBatchIdSeen < frame.batchId) (.corruption "WAL batch IDs are not strictly increasing")
    pure {s with highestBatchIdSeen := frame.batchId, pending := some ⟨frame.batchId, frame.recordLsn, [], []⟩}
  else pure s

def scanPageImage (s : ScanState) (frame : Frame) : Attempt Error ScanState := do
  let page ← decodePageImage frame.payload
  validatePageImage page
  let s ← openBatch s frame
  let current ← expect s.pending
  require (frame.recordIndex = current.pages.length % 2 ^ 32)
    (.corruption "WAL page-image record index is not contiguous")
  pure {s with
    pending := some {current with
      digestInput := current.digestInput ++ frame.payload
      pages := current.pages ++ [page]}}

def validatePageImageLsns (commitLsn : Lsn) : List WalPageImage → Attempt Error Unit
  | [] => pure ()
  | page :: rest => do
    validatePageImageLsn page commitLsn
    validatePageImageLsns commitLsn rest

def scanCommit (s : ScanState) (frame : Frame) : Attempt Error ScanState :=
  match s.pending with
  | none => total (.error (.corruption "WAL commit has no matching page-image records"))
  | some current => do
    require (current.batchId = frame.batchId ∧ frame.recordIndex = current.pages.length % 2 ^ 32)
      (.corruption "WAL commit does not match its page-image sequence")
    let (firstLsn, pageCount, expected) ← decodeCommitPayload frame.payload
    require (firstLsn = current.firstRecordLsn ∧ pageCount = current.pages.length ∧
      digest current.digestInput = expected) (.corruption "WAL commit metadata does not match page images")
    validatePageImageLsns frame.recordLsn current.pages
    pure {s with
      pending := none
      committed := s.committed ++ [⟨frame.batchId, frame.recordLsn, current.pages⟩]}

/-- One frame behind the first. -/
def scanFrame (historyStartLsn : Lsn) (s : ScanState) (frame : Frame) : Attempt Error ScanState := do
  require (historyStartLsn < frame.recordLsn)
    (.corruption "WAL record LSN is not after the initialization history boundary")
  let s := {s with maxBatchId := max s.maxBatchId frame.batchId}
  match frame.recordType with
  | .init => total (.error (.corruption "WAL contains a second initialization record"))
  | .pageImage => scanPageImage s frame
  | .commit => scanCommit s frame

def scanRecords (historyStartLsn : Lsn) : ScanState → List Frame → Attempt Error ScanState
  | s, [] => pure s
  | s, frame :: rest => do
    let s ← scanFrame historyStartLsn s frame
    scanRecords historyStartLsn s rest

/-- The sum over an iterator. -/
def sum : Nat → List Nat → Attempt Error Nat
  | total, [] => pure total
  | total, n :: rest => do
    let total ← add total n
    sum total rest

/-- What `Dodb.scanWal` computes, with each step that could panic. -/
def scanWal (identity : WalIdentity) (file : Bytes) : Attempt Error (WalLog × Nat) := do
  let (frames, validLength) ← scanFrames file (file.length + 1) 0 none none 0
  match frames with
  | [] => total (.error (.corruption "WAL has no complete initialization record"))
  | first :: rest => do
    require (first.recordType = .init ∧ first.recordLsn = 0 ∧ first.batchId = 0 ∧ first.recordIndex = 0)
      (.corruption "WAL does not begin with the required initialization record")
    let historyStartLsn ← verifyIdentity first.formatVersion first.payload identity
    let s ← scanRecords historyStartLsn {} rest
    let _ ← sum 0 (s.committed.map fun commit => commit.pages.length)
    let nextLsn ← total (addOr (.internalInvariantViolation "WAL LSN exhausted")
      ((rest.getLast?.getD first).recordLsn) 1)
    let nextBatchId ← total (addOr (.internalInvariantViolation "WAL batch ID exhausted") s.maxBatchId 1)
    pure (⟨identity, first.formatVersion, nextLsn, max nextBatchId 1, historyStartLsn, s.committed⟩, validLength)

theorem scanPageImage_eq (s : ScanState) (frame : Frame) :
    scanPageImage s frame = total (Dodb.scanPageImage s frame) := by
  rw [scanPageImage, decodePageImage_eq]
  refine total_bind_eq fun page _ => ?_
  rw [validatePageImage_eq]
  refine total_bind_eq fun _ _ => ?_
  rw [openBatch]
  cases hpending : s.pending with
  | none =>
    rw [if_pos Option.all_none, Attempt.bind_assoc]
    exact require_bind fun _ => require_bind (c := frame.recordIndex = 0 % 2 ^ 32) fun _ => rfl
  | some pending =>
    by_cases hsame : pending.batchId = frame.batchId
    · rw [if_neg (by simp [hsame]), Option.filter_some, if_pos (decide_eq_true hsame), Attempt.pure_bind, hpending]
      exact require_bind (c := frame.recordIndex = pending.pages.length % 2 ^ 32) fun _ => rfl
    · rw [if_pos (by simp [hsame]), Option.filter_some, if_neg (by simp [hsame]), Attempt.bind_assoc]
      exact require_bind fun _ => require_bind (c := frame.recordIndex = 0 % 2 ^ 32) fun _ => rfl

omit [Crc32c] in
theorem validatePageImageLsns_eq (commitLsn : Lsn) {pages : List WalPageImage}
    (h : ∀ page ∈ pages, page.image.length = pageSize) :
    validatePageImageLsns commitLsn pages = total (Dodb.validatePageImageLsns commitLsn pages) := by
  induction pages with
  | nil => rfl
  | cons page rest ih =>
    rw [validatePageImageLsns, validatePageImageLsn_eq (h page List.mem_cons_self),
      ih fun page hpage => h page (List.mem_cons_of_mem _ hpage)]
    exact total_bind_eq fun _ _ => rfl

/-- The pages of the batch that is being collected are whole pages. -/
theorem pending_whole {runs : List Run} {s : ScanState} (h : Scanned runs s) {current : PendingBatch}
    (hpending : s.pending = some current) : ∀ page ∈ current.pages, page.image.length = pageSize := by
  intro page hpage
  obtain ⟨rs, r, rfl, _, rfl, _⟩ := h.exists_open hpending
  obtain ⟨frame, hframe, rfl⟩ := List.mem_map.mp hpage
  have hr := h.sound r (List.mem_append_right _ (List.mem_singleton.mpr rfl))
  exact (validatePageImage_ok (hr.image frame hframe).2.2.2).1

omit [Crc32c] in
/-- Every page that is replayed has a frame of its own. -/
theorem replayable_le (runs : List Run) :
    ((runs.filterMap Run.committed).map fun commit => commit.pages.length).sum ≤ (runs.flatMap Run.frames).length := by
  induction runs with
  | nil => exact le_rfl
  | cons r rest ih =>
    rw [List.flatMap_cons, List.length_append, Run.frames, List.length_append]
    cases hcommit : r.commit with
    | none =>
      rw [List.filterMap_cons_none (by rw [Run.committed, hcommit]; rfl)]
      omega
    | some c =>
      rw [List.filterMap_cons_some (by rw [Run.committed, hcommit]; rfl), List.map_cons, List.sum_cons, Run.length_pages]
      omega

theorem scanCommit_eq {runs : List Run} {s : ScanState} (h : Scanned runs s) (frame : Frame) :
    scanCommit {s with maxBatchId := max s.maxBatchId frame.batchId} frame =
      total (Dodb.scanCommit {s with maxBatchId := max s.maxBatchId frame.batchId} frame) := by
  unfold scanCommit Dodb.scanCommit
  cases hpending : s.pending with
  | none => rfl
  | some current =>
    refine require_bind fun _ => ?_
    rw [decodeCommitPayload_eq]
    refine total_bind_eq fun payload _ => ?_
    obtain ⟨firstLsn, pageCount, expected⟩ := payload
    refine require_bind fun _ => ?_
    rw [validatePageImageLsns_eq _ (pending_whole h hpending)]
    exact total_bind_eq fun _ _ => rfl

theorem scanFrame_eq {runs : List Run} {s : ScanState} (h : Scanned runs s) (historyStartLsn : Lsn) (frame : Frame) :
    scanFrame historyStartLsn s frame = total (Dodb.scanFrame historyStartLsn s frame) := by
  refine require_bind fun _ => ?_
  dsimp only
  cases frame.recordType with
  | init => rfl
  | pageImage => exact scanPageImage_eq ..
  | commit => exact scanCommit_eq h frame

theorem scanRecords_eq {runs : List Run} {s : ScanState} (h : Scanned runs s) (historyStartLsn : Lsn)
    (frames : List Frame) :
    scanRecords historyStartLsn s frames = total (Dodb.scanRecords historyStartLsn s frames) := by
  induction frames generalizing runs s with
  | nil => rfl
  | cons frame rest ih =>
    rw [scanRecords, scanFrame_eq h]
    refine total_bind_eq fun s' hs' => ?_
    obtain ⟨_, runs', h', _⟩ := h.step hs'
    exact ih h'

omit [Crc32c] in
theorem sum_bind {l : List Nat} {start : Nat} (h : start + l.sum ≤ wordMax) {β : Type} (f : Nat → Attempt Error β) :
    sum start l >>= f = f (start + l.sum) := by
  induction l generalizing start with
  | nil => rfl
  | cons n rest ih =>
    rw [List.sum_cons] at h ⊢
    rw [sum, Attempt.bind_assoc, add_bind (by omega), ih (by omega), Nat.add_assoc]

/-- Whatever a file of the log holds, the scan of it does not panic. -/
theorem scanWal_eq (identity : WalIdentity) {file : Bytes} (hfile : file.length ≤ wordMax) :
    scanWal identity file = total (Dodb.scanWal identity file) := by
  rw [scanWal, scanFrames_eq hfile (Nat.zero_le _) (Nat.lt_succ_self _) le_rfl]
  refine total_bind_eq fun found hfound => ?_
  obtain ⟨frames, validLength⟩ := found
  dsimp only
  obtain _ | ⟨first, rest⟩ := frames
  · rfl
  · dsimp only
    refine require_bind fun _ => ?_
    rw [verifyIdentity_eq]
    refine total_bind_eq fun historyStartLsn _ => ?_
    rw [scanRecords_eq Scanned.empty]
    refine total_bind_eq fun s hs => ?_
    obtain ⟨_, runs, hscanned, hruns⟩ := Scanned.empty.run hs
    have hreplayable := replayable_le runs
    rw [← hscanned.committed, hruns, List.flatMap_nil, List.nil_append] at hreplayable
    obtain ⟨_, hwithin, _⟩ := scanFrames_eq_ok hfound
    rw [List.drop_zero] at hwithin
    have hframes := length_le_framesLength (first :: rest)
    rw [List.length_cons] at hframes
    rw [sum_bind (by omega)]
    exact total_bind_eq fun _ _ => total_bind_eq fun _ _ => rfl

end Dodb.Malformed
