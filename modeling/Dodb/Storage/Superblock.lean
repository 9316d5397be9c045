import Dodb.Storage.Page

/-! The superblock: the root of the tree, the free list, the high-water page and the
checkpoint LSN, with the identity of the database. Two copies fill the first two
pages of the data file; the valid one of the higher generation counts. -/
namespace Dodb
open Lib

def superblockFormatVersion : Nat := 1
/-- The bytes of `DSBK`. -/
def superblockMagic : Bytes := [0x44, 0x53, 0x42, 0x4b]
def superblockChecksumOffset : Nat := 90
/-- Stands on disk for no page. -/
def nullPageId : Nat := u64Max

@[simp] theorem length_superblockMagic : superblockMagic.length = 4 := by decide

abbrev ShardId := UInt64
abbrev ShardEpoch := UInt64

/-- Sixteen bytes. -/
abbrev Uuid := {bs : Bytes // bs.length = 16}

/-- The first sixteen of some bytes. -/
def Uuid.ofBytes (bs : Bytes) : Uuid := ⟨resize bs 16, length_resize bs 16⟩

def Uuid.zero : Uuid := ⟨zeros 16, by decide⟩

@[simp] theorem Uuid.ofBytes_val (uuid : Uuid) : Uuid.ofBytes uuid.val = uuid := by
  obtain ⟨bs, h⟩ := uuid
  simp [Uuid.ofBytes, resize, h, zeros]

/-- The root of a data file: whose it is, where its tree begins, and what it has of the log. -/
@[ext]
structure Superblock where
  formatVersion : Nat
  generation : Nat
  databaseUuid : Uuid
  tenantId : TenantId
  shardId : ShardId
  shardEpoch : ShardEpoch
  pageSize : Nat
  rootPageId : Option PageId
  freeListHead : Option PageId
  highWaterPageId : Option PageId
  checkpointLsn : Lsn
  checksum : Nat
  deriving DecidableEq

def Superblock.new (generation : Nat) (databaseUuid : Uuid) (tenantId : TenantId) (shardId : ShardId)
    (shardEpoch : ShardEpoch) : Superblock :=
  ⟨superblockFormatVersion, generation, databaseUuid, tenantId, shardId, shardEpoch, Dodb.pageSize, none,
    none, none, 0, 0⟩

/-- A superblock is written to the slot that the one before it is not in. -/
inductive SuperblockSlot where
  | A
  | B
  deriving DecidableEq, Repr

namespace SuperblockSlot

/-- The slot a new superblock is written to while this one is active. -/
def other : SuperblockSlot → SuperblockSlot
  | A => B
  | B => A

/-- The page of the data file that is this slot. -/
def pageId : SuperblockSlot → PageId
  | A => 0
  | B => 1

/-- Each slot is one page at the start of the file. -/
def offset (slot : SuperblockSlot) : Nat := slot.pageId * pageSize

@[simp] theorem other_other (slot : SuperblockSlot) : slot.other.other = slot := by
  cases slot <;> rfl

theorem pageId_lt (slot : SuperblockSlot) : slot.pageId < 2 := by
  cases slot <;> decide

end SuperblockSlot

/-- The superblock a data file is opened with. -/
structure SelectedSuperblock where
  slot : SuperblockSlot
  superblock : Superblock
  deriving DecidableEq

def encodePageId (pageId : Option PageId) : Nat := pageId.getD nullPageId

def decodePageId (value : Nat) : Option PageId := if value ≠ nullPageId then some value else none

/-- A superblock page with a given checksum. -/
def superblockLayout (sb : Superblock) (checksum : Nat) : Bytes :=
  superblockMagic ++ (le 2 sb.formatVersion ++ (le 8 sb.generation ++ (sb.databaseUuid.val ++
    (le 8 sb.tenantId.toNat ++ (le 8 sb.shardId.toNat ++ (le 8 sb.shardEpoch.toNat ++
      (le 4 sb.pageSize ++ (le 8 (encodePageId sb.rootPageId) ++ (le 8 (encodePageId sb.freeListHead) ++
        (le 8 (encodePageId sb.highWaterPageId) ++ (le 8 sb.checkpointLsn ++
          (le 4 checksum ++ zeros (pageSize - 94)))))))))))))

theorem length_superblockLayout (sb : Superblock) (checksum : Nat) :
    (superblockLayout sb checksum).length = pageSize := by
  simp [superblockLayout, sb.databaseUuid.property, pageSize]

theorem splice_superblockLayout (sb : Superblock) (checksum : Nat) {x : Bytes} (hx : x.length = 4) :
    splice (superblockLayout sb checksum) superblockChecksumOffset x =
      superblockMagic ++ (le 2 sb.formatVersion ++ (le 8 sb.generation ++ (sb.databaseUuid.val ++
        (le 8 sb.tenantId.toNat ++ (le 8 sb.shardId.toNat ++ (le 8 sb.shardEpoch.toNat ++
          (le 4 sb.pageSize ++ (le 8 (encodePageId sb.rootPageId) ++ (le 8 (encodePageId sb.freeListHead) ++
            (le 8 (encodePageId sb.highWaterPageId) ++ (le 8 sb.checkpointLsn ++
              (x ++ zeros (pageSize - 94))))))))))))) := by
  have := splice_field (superblockMagic ++ (le 2 sb.formatVersion ++ (le 8 sb.generation ++
    (sb.databaseUuid.val ++ (le 8 sb.tenantId.toNat ++ (le 8 sb.shardId.toNat ++ (le 8 sb.shardEpoch.toNat ++
      (le 4 sb.pageSize ++ (le 8 (encodePageId sb.rootPageId) ++ (le 8 (encodePageId sb.freeListHead) ++
        (le 8 (encodePageId sb.highWaterPageId) ++ le 8 sb.checkpointLsn)))))))))))
    (le 4 checksum) x (zeros (pageSize - 94)) superblockChecksumOffset
    (by simp [sb.databaseUuid.property, superblockChecksumOffset]) (by simp [hx])
  simpa only [superblockLayout, List.append_assoc] using this

variable [Crc32c]

/-- The checksum of the slot with its checksum field zero. -/
def superblockChecksum (page : Bytes) : Nat :=
  (Crc32c.crc32c (splice page superblockChecksumOffset (zeros 4))).toNat

def encodeSuperblock (sb : Superblock) : Result Bytes :=
  if sb.formatVersion ≠ superblockFormatVersion then
    .error (.unsupportedFormat s!"cannot encode superblock version {sb.formatVersion}")
  else if sb.pageSize ≠ pageSize then
    .error (.invalidInput s!"superblock page size is {sb.pageSize}, expected {pageSize}")
  else
    let page := superblockLayout sb 0
    .ok (splice page superblockChecksumOffset (le 4 (superblockChecksum page)))

/-- Tells a slot of another version from one that is damaged. -/
def decodeSuperblock (bytes : Bytes) : Result Superblock := do
  ensure (bytes.length = pageSize)
    (.corruption s!"superblock has {bytes.length} bytes, expected {pageSize}")
  ensure (slice bytes 0 4 = superblockMagic) (.corruption "superblock magic mismatch")
  let formatVersion := ofLe (slice bytes 4 2)
  ensure (formatVersion = superblockFormatVersion) (.unsupportedFormat
    s!"superblock version {formatVersion}, supported {superblockFormatVersion}")
  let storedChecksum := ofLe (slice bytes superblockChecksumOffset 4)
  let calculatedChecksum := superblockChecksum bytes
  ensure (storedChecksum = calculatedChecksum) (.corruption
    s!"superblock checksum mismatch: stored {hex 8 storedChecksum}, calculated {hex 8 calculatedChecksum}")
  let size := ofLe (slice bytes 54 4)
  ensure (size = pageSize) (.unsupportedFormat s!"superblock page size {size}, supported {pageSize}")
  pure
    { formatVersion
      generation := ofLe (slice bytes 6 8)
      databaseUuid := Uuid.ofBytes (slice bytes 14 16)
      tenantId := UInt64.ofNat (ofLe (slice bytes 30 8))
      shardId := UInt64.ofNat (ofLe (slice bytes 38 8))
      shardEpoch := UInt64.ofNat (ofLe (slice bytes 46 8))
      pageSize := size
      rootPageId := decodePageId (ofLe (slice bytes 58 8))
      freeListHead := decodePageId (ofLe (slice bytes 66 8))
      highWaterPageId := decodePageId (ofLe (slice bytes 74 8))
      checkpointLsn := ofLe (slice bytes 82 8)
      checksum := storedChecksum }

/-- Selects the valid copy of the higher generation; an unsupported copy is never skipped. -/
def chooseSuperblock (slotA slotB : Bytes) : Result SelectedSuperblock :=
  match decodeSuperblock slotA, decodeSuperblock slotB with
  | .error (.unsupportedFormat message), _ => .error (.unsupportedFormat message)
  | _, .error (.unsupportedFormat message) => .error (.unsupportedFormat message)
  | .ok superblock, .error _ => .ok ⟨.A, superblock⟩
  | .error _, .ok superblock => .ok ⟨.B, superblock⟩
  | .ok a, .ok b => if a.generation ≥ b.generation then .ok ⟨.A, a⟩ else .ok ⟨.B, b⟩
  | .error _, .error _ => .error (.corruption "both superblock copies are invalid")

/-! ### Reading back what was written -/

/-- The fields fit the bytes they are written to. -/
structure Superblock.Encodable (sb : Superblock) : Prop where
  formatVersion : sb.formatVersion = superblockFormatVersion
  pageSize : sb.pageSize = Dodb.pageSize
  generation : sb.generation ≤ u64Max
  rootPageId : ∀ p ∈ sb.rootPageId, p < nullPageId
  freeListHead : ∀ p ∈ sb.freeListHead, p < nullPageId
  highWaterPageId : ∀ p ∈ sb.highWaterPageId, p < nullPageId
  checkpointLsn : sb.checkpointLsn ≤ u64Max

omit [Crc32c] in
theorem Superblock.Encodable.new {generation : Nat} (h : generation ≤ u64Max) (databaseUuid : Uuid)
    (tenantId : TenantId) (shardId : ShardId) (shardEpoch : ShardEpoch) :
    (Superblock.new generation databaseUuid tenantId shardId shardEpoch).Encodable where
  formatVersion := rfl
  pageSize := rfl
  generation := h
  rootPageId _ hp := nomatch hp
  freeListHead _ hp := nomatch hp
  highWaterPageId _ hp := nomatch hp
  checkpointLsn := Nat.zero_le _

omit [Crc32c] in
theorem decodePageId_encodePageId {pageId : Option PageId} (h : ∀ p ∈ pageId, p < nullPageId) :
    decodePageId (encodePageId pageId) = pageId := by
  cases pageId with
  | none => simp [encodePageId, decodePageId]
  | some p => simp [encodePageId, decodePageId, (h p rfl).ne]

omit [Crc32c] in
theorem encodePageId_lt {pageId : Option PageId} (h : ∀ p ∈ pageId, p < nullPageId) :
    encodePageId pageId < 256 ^ 8 := by
  apply lt_of_le_u64Max
  cases pageId with
  | none => exact le_refl _
  | some p => exact (h p rfl).le

theorem superblockChecksum_superblockLayout (sb : Superblock) (checksum : Nat) :
    superblockChecksum (superblockLayout sb checksum) = superblockChecksum (superblockLayout sb 0) := by
  unfold superblockChecksum
  rw [splice_superblockLayout _ _ (by simp), splice_superblockLayout _ _ (by simp)]

theorem superblockChecksum_lt (page : Bytes) : superblockChecksum page < 256 ^ 4 :=
  UInt32.toNat_lt _

/-- The page `encodeSuperblock` writes. -/
def superblockPage (sb : Superblock) : Bytes :=
  superblockLayout sb (superblockChecksum (superblockLayout sb 0))

@[simp] theorem length_superblockPage (sb : Superblock) : (superblockPage sb).length = pageSize :=
  length_superblockLayout _ _

theorem encodeSuperblock_eq {sb : Superblock} (h : sb.Encodable) : encodeSuperblock sb = .ok (superblockPage sb) := by
  rw [encodeSuperblock, if_neg (not_not.mpr h.formatVersion), if_neg (not_not.mpr h.pageSize)]
  simp only [splice_superblockLayout _ _ (length_le 4 _)]
  rfl

theorem decodeSuperblock_superblockPage {sb : Superblock} (h : sb.Encodable) :
    decodeSuperblock (superblockPage sb) =
      .ok {sb with checksum := superblockChecksum (superblockLayout sb 0)} := by
  have hcrc := superblockChecksum_lt (superblockLayout sb 0)
  have hsame := superblockChecksum_superblockLayout sb (superblockChecksum (superblockLayout sb 0))
  have hlen := length_superblockPage sb
  rw [decodeSuperblock]
  unfold superblockPage at *
  generalize superblockChecksum (superblockLayout sb 0) = checksum at *
  have huuid := sb.databaseUuid.property
  have hfields : Fields (superblockLayout sb checksum) 0 [superblockMagic, le 2 sb.formatVersion,
      le 8 sb.generation, sb.databaseUuid.val, le 8 sb.tenantId.toNat, le 8 sb.shardId.toNat,
      le 8 sb.shardEpoch.toNat, le 4 sb.pageSize, le 8 (encodePageId sb.rootPageId),
      le 8 (encodePageId sb.freeListHead), le 8 (encodePageId sb.highWaterPageId), le 8 sb.checkpointLsn,
      le 4 checksum] := .of_eq rfl
  simp only [Fields, Nat.reduceAdd, length_superblockMagic, length_le, huuid] at hfields
  obtain ⟨hmagic, hversion, hgen, huuid', htenant, hshard, hepoch, hsize, hroot, hfree, hhigh, hckpt, hcrc', -⟩ :=
    hfields
  simp only [except_bind_eq_ok, ensure_eq_ok, superblockChecksumOffset, hmagic, hversion, hgen, huuid',
    htenant, hshard, hepoch, hsize, hroot, hfree, hhigh, hckpt, hcrc', hsame, ofLe_le _ _ hcrc,
    ofLe_le _ _ (lt_of_le_u64Max h.generation), ofLe_le _ _ (lt_of_le_u64Max h.checkpointLsn),
    ofLe_le _ _ (encodePageId_lt h.rootPageId), ofLe_le _ _ (encodePageId_lt h.freeListHead),
    ofLe_le _ _ (encodePageId_lt h.highWaterPageId), decodePageId_encodePageId h.rootPageId,
    decodePageId_encodePageId h.freeListHead, decodePageId_encodePageId h.highWaterPageId,
    ofLe_le 8 _ (UInt64.toNat_lt _), UInt64.ofNat_toNat, Uuid.ofBytes_val, h.formatVersion, h.pageSize]
  exact ⟨(), hlen, (), trivial, (), by decide, (), trivial, (), by decide, rfl⟩

end Dodb
