import Dodb.Lib.Attempt
import Dodb.Storage.Superblock

/-! The decoders of keys, pages and superblocks with every operation of the source that could panic.

Each is the decoder of the same name over again, with the source's indexing, slicing, conversions and additions as
`Attempt`s, and each is shown to be that decoder: nothing in it is out of range, whatever the bytes are. A loop of the
source has a bound here, and panics when it comes to its end, so that this too is excluded. -/
namespace Dodb.Malformed
open Lib Attempt

/-! ### Keys -/

def decodeComponentFrom (encoded : Bytes) : Nat → Nat → Bytes → Attempt KeyCodecError (Bytes × Nat)
  | 0, _, _ => panic
  | bound + 1, offset, bytes =>
    if offset < encoded.length then do
      let byte ← index encoded offset
      if byte ≠ 0 then
        let offset ← add offset 1
        decodeComponentFrom encoded bound offset (bytes ++ [byte])
      else
        let next ← add offset 1
        match encoded[next]? with
        | none => total (.error (.truncatedEscape offset))
        | some escape =>
          if escape = 0 then
            let stop ← add offset 2
            pure (bytes, stop)
          else if escape = 0xff then
            let offset ← add offset 2
            decodeComponentFrom encoded bound offset (bytes ++ [0])
          else total (.error (.invalidEscape offset escape))
    else total (.error (.truncatedEscape offset))

def decodeComponent (encoded : Bytes) (start : Nat) : Attempt KeyCodecError (Bytes × Nat) :=
  if start ≥ encoded.length then total (.error (.missingComponent start))
  else decodeComponentFrom encoded (encoded.length + 1) start []

/-- What `DocumentKey.decode` computes, with each step that could panic. -/
def decodeKey (encoded : Bytes) : Attempt KeyCodecError DocumentKey := do
  let (pk, next) ← decodeComponent encoded 0
  let (sk, stop) ← decodeComponent encoded next
  if stop ≠ encoded.length then total (.error (.trailingBytes stop))
  else pure ⟨pk, sk⟩

/-- Each pass takes at least one byte, and the number of bytes left bounds the passes. -/
theorem decodeComponentFrom_eq {encoded : Bytes} (hsize : encoded.length ≤ sizeMax) {bound offset : Nat} (bytes : Bytes)
    (hoffset : offset ≤ encoded.length) (hbound : encoded.length < bound + offset) :
    decodeComponentFrom encoded bound offset bytes =
      total ((decodeBytes offset (encoded.drop offset)).map fun r => (bytes ++ r.1, r.2)) := by
  induction bound generalizing offset bytes with
  | zero => omega
  | succ bound ih =>
    have hword : encoded.length + 2 ≤ wordMax := (Nat.add_le_add_right hsize 2).trans (by decide)
    rw [decodeComponentFrom]
    by_cases hlt : offset < encoded.length
    · rw [if_pos hlt, byte_bind hlt, List.getD_eq_getElem _ _ hlt, List.drop_eq_getElem_cons hlt]
      by_cases hbyte : encoded[offset] ≠ 0
      · rw [if_pos hbyte, add_bind (by omega), ih _ (by omega) (by omega), decodeBytes_cons hbyte]
        cases decodeBytes (offset + 1) (encoded.drop (offset + 1)) with
        | ok r => simp [Except.map]
        | error e => rfl
      · rw [if_neg hbyte, add_bind (by omega)]
        rw [not_not] at hbyte
        by_cases hnext : offset + 1 < encoded.length
        · rw [List.getElem?_eq_getElem hnext, List.drop_eq_getElem_cons hnext, decodeBytes, if_neg (by simpa using hbyte)]
          dsimp only
          split
          · rw [add_bind (by omega)]
            simp [Except.map, pure]
          · split
            · rw [add_bind (by omega), ih _ (by omega) (by omega)]
              cases decodeBytes (offset + 2) (encoded.drop (offset + 2)) with
              | ok r => simp [Except.map]
              | error e => rfl
            · rfl
        · rw [List.getElem?_eq_none (by omega), List.drop_eq_nil_of_le (by omega), decodeBytes, if_neg (by simpa using hbyte)]
          rfl
    · rw [if_neg hlt, List.drop_eq_nil_of_le (by omega)]
      rfl

theorem decodeComponent_eq {encoded : Bytes} (hsize : encoded.length ≤ sizeMax) (start : Nat) :
    decodeComponent encoded start = total (Dodb.decodeComponent encoded start) := by
  unfold decodeComponent Dodb.decodeComponent
  split
  · rfl
  · rw [decodeComponentFrom_eq hsize _ (by omega) (by omega)]
    cases decodeBytes start (encoded.drop start) <;> rfl

theorem decodeKey_eq {encoded : Bytes} (hsize : encoded.length ≤ sizeMax) :
    decodeKey encoded = total (DocumentKey.decode encoded) := by
  unfold decodeKey DocumentKey.decode
  rw [decodeComponent_eq hsize]
  refine total_bind_eq fun first _ => ?_
  obtain ⟨pk, next⟩ := first
  dsimp only
  rw [decodeComponent_eq hsize]
  refine total_bind_eq fun second _ => ?_
  obtain ⟨sk, stop⟩ := second
  dsimp only
  split <;> rfl

/-! ### Pages -/

section Blocks
variable [Crc32c]

/-- The bytes are copied to an array and the checksum's own bytes are cleared. -/
def pageChecksum (page : Bytes) : Attempt Error Nat := do
  assert (page.length = pageSize)
  let checksumInput ← array pageSize page
  let _ ← range checksumInput pageChecksumOffset (pageChecksumOffset + 4)
  pure (Dodb.pageChecksum checksumInput)

/-- What `Dodb.decodePageAt` computes, with each step that could panic. -/
def decodePageAt (bytes : Bytes) (expectedPageId : Option PageId) : Attempt Error DecodedPage := do
  require (bytes.length = pageSize) (.corruption s!"page has {bytes.length} bytes, expected {pageSize}")
  let magic ← range bytes 0 4
  require (magic = pageMagic) (.corruption "page magic mismatch")
  let b4 ← index bytes 4
  let b5 ← index bytes 5
  let formatVersion := ofLe [b4, b5]
  require (formatVersion = pageFormatVersion)
    (.unsupportedFormat s!"page version {formatVersion}, supported {pageFormatVersion}")
  let b7 ← index bytes 7
  require (b7 = 0) (.corruption "page reserved byte is non-zero")
  let b6 ← index bytes 6
  let pageType ← total (PageType.decode b6)
  let pageId ← field 8 bytes 8 16
  let pageId := ofLe pageId
  require (expectedPageId.all fun expected => decide (pageId = expected))
    (.corruption s!"page id mismatch: encoded {pageId}, expected {expectedPageId.getD 0}")
  let pageLsn ← field 8 bytes 16 24
  let flags ← field 4 bytes 24 28
  let storedChecksum ← field 4 bytes pageChecksumOffset (pageChecksumOffset + 4)
  let storedChecksum := ofLe storedChecksum
  let calculatedChecksum ← pageChecksum bytes
  require (storedChecksum = calculatedChecksum) (.corruption
    s!"page checksum mismatch: stored {hex 8 storedChecksum}, calculated {hex 8 calculatedChecksum}")
  let body ← rangeFrom bytes pageHeaderSize
  pure ⟨⟨formatVersion, pageType, pageId, ofLe pageLsn, ofLe flags, storedChecksum⟩, body⟩

theorem pageChecksum_bind {page : Bytes} (h : page.length = pageSize) {β : Type} (f : Nat → Attempt Error β) :
    pageChecksum page >>= f = f (Dodb.pageChecksum page) := by
  have hrange : pageChecksumOffset ≤ pageChecksumOffset + 4 ∧ pageChecksumOffset + 4 ≤ page.length := by
    rw [h]
    decide
  rw [pageChecksum, Attempt.bind_assoc, assert_bind h, Attempt.bind_assoc, array_bind h, Attempt.bind_assoc,
    range_bind hrange, Attempt.pure_bind]

theorem decodePageAt_eq (bytes : Bytes) (expectedPageId : Option PageId) :
    decodePageAt bytes expectedPageId = total (Dodb.decodePageAt bytes expectedPageId) := by
  refine require_bind fun hlen => ?_
  have hversion : [bytes.getD 4 0, bytes.getD 5 0] = slice bytes 4 2 := by
    rw [slice_eq_map (by rw [hlen]; decide)]
    rfl
  simp (disch := (rw [hlen]; decide)) only [range_bind, field_bind, byte_bind, rangeFrom_bind, pageChecksum_bind hlen,
    hversion, require, pure_eq, total_bind]

/-! ### Superblocks -/

def superblockChecksum (page : Bytes) : Attempt Error Nat := do
  assert (page.length = pageSize)
  let checksumInput ← array pageSize page
  let _ ← range checksumInput superblockChecksumOffset (superblockChecksumOffset + 4)
  pure (Dodb.superblockChecksum checksumInput)

/-- What `Dodb.decodeSuperblock` computes, with each step that could panic. -/
def decodeSuperblock (bytes : Bytes) : Attempt Error Superblock := do
  require (bytes.length = pageSize) (.corruption s!"superblock has {bytes.length} bytes, expected {pageSize}")
  let magic ← range bytes 0 4
  require (magic = superblockMagic) (.corruption "superblock magic mismatch")
  let formatVersion ← field 2 bytes 4 6
  let formatVersion := ofLe formatVersion
  require (formatVersion = superblockFormatVersion) (.unsupportedFormat
    s!"superblock version {formatVersion}, supported {superblockFormatVersion}")
  let storedChecksum ← field 4 bytes superblockChecksumOffset (superblockChecksumOffset + 4)
  let storedChecksum := ofLe storedChecksum
  let calculatedChecksum ← superblockChecksum bytes
  require (storedChecksum = calculatedChecksum) (.corruption
    s!"superblock checksum mismatch: stored {hex 8 storedChecksum}, calculated {hex 8 calculatedChecksum}")
  let size ← field 4 bytes 54 58
  let size := ofLe size
  require (size = pageSize) (.unsupportedFormat s!"superblock page size {size}, supported {pageSize}")
  let generation ← field 8 bytes 6 14
  let databaseUuid ← field 16 bytes 14 30
  let tenantId ← field 8 bytes 30 38
  let shardId ← field 8 bytes 38 46
  let shardEpoch ← field 8 bytes 46 54
  let rootPageId ← field 8 bytes 58 (58 + 8)
  let freeListHead ← field 8 bytes 66 (66 + 8)
  let highWaterPageId ← field 8 bytes 74 (74 + 8)
  let checkpointLsn ← field 8 bytes 82 (82 + 8)
  pure
    { formatVersion
      generation := ofLe generation
      databaseUuid := Uuid.ofBytes databaseUuid
      tenantId := UInt64.ofNat (ofLe tenantId)
      shardId := UInt64.ofNat (ofLe shardId)
      shardEpoch := UInt64.ofNat (ofLe shardEpoch)
      pageSize := size
      rootPageId := decodePageId (ofLe rootPageId)
      freeListHead := decodePageId (ofLe freeListHead)
      highWaterPageId := decodePageId (ofLe highWaterPageId)
      checkpointLsn := ofLe checkpointLsn
      checksum := storedChecksum }

/-- Both slots are decoded, whatever comes of the first. -/
def chooseSuperblock (slotA slotB : Bytes) : Attempt Error SelectedSuperblock := do
  let a ← caught (decodeSuperblock slotA)
  let b ← caught (decodeSuperblock slotB)
  total (match a, b with
    | .error (.unsupportedFormat message), _ => .error (.unsupportedFormat message)
    | _, .error (.unsupportedFormat message) => .error (.unsupportedFormat message)
    | .ok superblock, .error _ => .ok ⟨.A, superblock⟩
    | .error _, .ok superblock => .ok ⟨.B, superblock⟩
    | .ok a, .ok b => if a.generation ≥ b.generation then .ok ⟨.A, a⟩ else .ok ⟨.B, b⟩
    | .error _, .error _ => .error (.corruption "both superblock copies are invalid"))

theorem superblockChecksum_bind {page : Bytes} (h : page.length = pageSize) {β : Type} (f : Nat → Attempt Error β) :
    superblockChecksum page >>= f = f (Dodb.superblockChecksum page) := by
  have hrange : superblockChecksumOffset ≤ superblockChecksumOffset + 4 ∧ superblockChecksumOffset + 4 ≤ page.length := by
    rw [h]
    decide
  rw [superblockChecksum, Attempt.bind_assoc, assert_bind h, Attempt.bind_assoc, array_bind h, Attempt.bind_assoc,
    range_bind hrange, Attempt.pure_bind]

theorem decodeSuperblock_eq (bytes : Bytes) : decodeSuperblock bytes = total (Dodb.decodeSuperblock bytes) := by
  refine require_bind fun hlen => ?_
  simp (disch := (rw [hlen]; decide)) only [range_bind, field_bind, superblockChecksum_bind hlen, require, pure_eq,
    total_bind]

theorem chooseSuperblock_eq (slotA slotB : Bytes) :
    chooseSuperblock slotA slotB = total (Dodb.chooseSuperblock slotA slotB) := by
  rw [chooseSuperblock, decodeSuperblock_eq, decodeSuperblock_eq, caught_total_bind, caught_total_bind]
  rfl

end Blocks

end Dodb.Malformed
