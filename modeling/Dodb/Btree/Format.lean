import Dodb.Storage.Superblock

/-! The bodies of tree, overflow and free pages.

Leaves and internal pages are slotted: a 32-byte header, one 8-byte slot per
entry, and the entries' records packed against the end of the body. The two
differ in their records and in what the header's page id means (the next leaf,
the leftmost child), so the slotted form is written once, over the record codec.

Entry counts and sizes of the source are machine words; the overflow checks on
them that no list in memory can trip are not repeated here. -/
namespace Dodb
open Lib

def bodySize : Nat := pageSize - pageHeaderSize
def layoutVersion : Nat := 1
def inlineValueLimit : Nat := 512
def maxValueSize : Nat := 64 * 1024 * 1024
def overflowDataOffset : Nat := 32
def overflowDataSize : Nat := bodySize - overflowDataOffset
def maxOverflowPages : Nat := (maxValueSize + overflowDataSize - 1) / overflowDataSize

def leafMagic : Bytes := [0x4c, 0x45, 0x41, 0x46]
def internalMagic : Bytes := [0x49, 0x4e, 0x54, 0x4e]
def overflowMagic : Bytes := [0x4f, 0x56, 0x46, 0x4c]
def freeMagic : Bytes := [0x46, 0x52, 0x45, 0x45]
def slottedHeaderSize : Nat := 32
def slotSize : Nat := 8
def leafRecordHeaderSize : Nat := 32
def internalRecordHeaderSize : Nat := 12
def u16Max : Nat := 2 ^ 16 - 1

/-- Where a leaf entry keeps its value. -/
inductive ValueRef where
  | inline (value : Bytes)
  | overflow (head : PageId) (length : Nat)
  deriving DecidableEq, Repr

/-- An entry without a value is a tombstone: it keeps the revision of a delete. -/
structure LeafEntry where
  key : Bytes
  revision : Revision
  value : Option ValueRef
  deriving DecidableEq, Repr

/-- A separator and the child with the keys from it on. -/
structure InternalEntry where
  key : Bytes
  rightChild : PageId
  deriving DecidableEq, Repr

/-- A page of the tree, decoded. -/
inductive PageData where
  | leaf (lsn : Lsn) (nextLeaf : Option PageId) (entries : List LeafEntry)
  | internal (lsn : Lsn) (leftmostChild : PageId) (entries : List InternalEntry)
  | overflow (lsn : Lsn) (next : Option PageId) (totalLength : Nat) (chunk : Bytes)
  | free (lsn : Lsn) (next : Option PageId)
  deriving DecidableEq, Repr

/-! ### Fixed fields -/

def readLe (width : Nat) (bytes : Bytes) (offset : Nat) : Result Nat := do
  ensure (offset + width ≤ bytes.length) (.corruption "fixed field is truncated")
  pure (ofLe (slice bytes offset width))

def readU16 : Bytes → Nat → Result Nat := readLe 2

def readU64 : Bytes → Nat → Result Nat := readLe 8

def checkBodySize (body : Bytes) : Result Unit :=
  ensure (body.length = bodySize)
    (.corruption s!"page body has {body.length} bytes, expected {bodySize}")

def checkVersion (bytes : Bytes) : Result Unit := do
  let version ← readU16 bytes 0
  ensure (version = layoutVersion)
    (.unsupportedFormat s!"page layout version {version}, supported {layoutVersion}")

def allZero (bytes : Bytes) : Bool := bytes.all (· == 0)

/-- A canonical key, or the error `wrap` makes of the key codec's. -/
def checkCanonical (key : Bytes) (wrap : String → Error) : Result Unit :=
  match DocumentKey.decode key with
  | .ok _ => .ok ()
  | .error error => .error (wrap error.display)

/-! ### Slotted pages -/

/-- Every key is less than the next. -/
def strictlyOrdered : List Bytes → Bool
  | [] => true
  | [_] => true
  | a :: b :: rest => decide (a < b) && strictlyOrdered (b :: rest)

/-- Packs the records of `entries` against the end of the body, the last first, and
answers where the first begins. -/
def placeRecords {E : Type} (slotBytes : Nat) (full : Error) (encodeRecord : E → Result Bytes) :
    List E → Result (Nat × List Bytes)
  | [] => .ok (bodySize, [])
  | entry :: rest => do
    let (upper, records) ← placeRecords slotBytes full encodeRecord rest
    let record ← encodeRecord entry
    ensure (slotBytes + record.length ≤ upper) full
    pure (upper - record.length, record :: records)

/-- The slots of records of the given lengths and key lengths, the first at `offset`. -/
def encodeSlots (offset : Nat) : List (Nat × Nat) → Bytes
  | [] => []
  | (length, keyLength) :: rest =>
    le 2 offset ++ (le 2 length ++ (le 2 keyLength ++ (zeros 2 ++ encodeSlots (offset + length) rest)))

/-- What a slotted page needs to know of its entries. -/
structure RecordCodec (E : Type) where
  magic : Bytes
  key : E → Bytes
  encodeRecord : E → Result Bytes
  decodeRecord : Bytes → Nat → Result E
  recordHeaderSize : Nat
  tooMany : Error
  full : Error
  unordered : Error
  magicMismatch : Error
  outside : Error
  overlapping : Error

namespace RecordCodec

variable {E : Type} (codec : RecordCodec E)

/-- The entries as a slotted body: slots from the front, records from the back. -/
def encode (link : Nat) (entries : List E) : Result Bytes := do
  let slotBytes := slottedHeaderSize + entries.length * slotSize
  ensure (entries.length ≤ u16Max ∧ slotBytes ≤ bodySize) codec.tooMany
  ensure (strictlyOrdered (entries.map codec.key)) codec.unordered
  let (upper, records) ← placeRecords slotBytes codec.full codec.encodeRecord entries
  pure (codec.magic ++ (le 2 layoutVersion ++ (le 2 entries.length ++ (le 2 slotBytes ++ (le 2 upper ++
    (le 8 link ++ (zeros 12 ++
      (encodeSlots upper (records.zipWith (fun record entry => (record.length, (codec.key entry).length))
        entries) ++ (zeros (upper - slotBytes) ++ records.flatten)))))))))

/-- One slot and the record it points to, with the range the record takes. -/
def decodeSlot (body : Bytes) (recordsStart index : Nat) : Result ((Nat × Nat) × E) := do
  let slot := slottedHeaderSize + index * slotSize
  let offset ← readU16 body slot
  let length ← readU16 body (slot + 2)
  let keyLength ← readU16 body (slot + 4)
  ensure (recordsStart ≤ offset ∧ offset + length ≤ body.length ∧ codec.recordHeaderSize ≤ length)
    codec.outside
  let entry ← codec.decodeRecord (slice body offset length) keyLength
  pure ((offset, offset + length), entry)

def rangeLe (a b : Nat × Nat) : Bool := decide (a.1 < b.1 ∨ (a.1 = b.1 ∧ a.2 ≤ b.2))

/-- No range begins before the one before it ends. -/
def nonOverlapping : List (Nat × Nat) → Bool
  | [] => true
  | [_] => true
  | a :: b :: rest => decide (a.2 ≤ b.1) && nonOverlapping (b :: rest)

/-- The header's page id and the entries; `checkLink` is what the page type asks of the
former and of the reserved bytes. -/
def decode (checkLink : Nat → Bool → Result Unit) (body : Bytes) : Result (Nat × List E) := do
  checkBodySize body
  ensure (slice body 0 4 = codec.magic) codec.magicMismatch
  checkVersion (slice body 4 2)
  let count ← readU16 body 6
  let slotEnd ← readU16 body 8
  let recordsStart ← readU16 body 10
  let link ← readU64 body 12
  checkLink link (allZero (slice body 20 12))
  ensure (slotEnd = slottedHeaderSize + count * slotSize ∧ slotEnd ≤ recordsStart ∧
    recordsStart ≤ body.length ∧ slotEnd ≤ body.length) (.corruption "invalid slotted-page boundaries")
  let slots ← (List.range count).mapM (codec.decodeSlot body recordsStart)
  ensure (nonOverlapping ((slots.map Prod.fst).mergeSort rangeLe)) codec.overlapping
  let entries := slots.map Prod.snd
  ensure (strictlyOrdered (entries.map codec.key)) codec.unordered
  pure (link, entries)

end RecordCodec

/-! ### Leaves -/

/-- The flags, value length, page id and inline bytes a leaf record stores for a value. -/
def leafRecordValue : Option ValueRef → UInt8 × Nat × Nat × Bytes
  | none => (0, 0, nullPageId, [])
  | some (.inline value) => (1, value.length, 0, value)
  | some (.overflow head length) => (2, length, head, [])

/-- The key, the revision and the value or where it is kept. -/
def encodeLeafRecord (entry : LeafEntry) : Result Bytes := do
  ensure (entry.key.length ≤ u16Max) (.invalidInput "encoded document key is too large")
  checkCanonical entry.key fun error => .invalidInput s!"document key is not canonical: {error}"
  let (flags, valueLength, aux, inline) := leafRecordValue entry.value
  pure (le 8 entry.revision ++ (le 8 valueLength ++ (le 8 aux ++ ([flags, 0] ++
    (le 2 entry.key.length ++ (zeros 4 ++ (entry.key ++ inline)))))))

/-- The flags say which kind of value the record has, and the other fields must agree. -/
def decodeLeafValue (bytes : Bytes) (keyEnd valueLength aux : Nat) (flags : UInt8) :
    Result (Option ValueRef) :=
  if flags = 0 then do
    ensure (valueLength = 0 ∧ aux = nullPageId ∧ bytes.length = keyEnd)
      (.corruption "invalid tombstone leaf record")
    pure none
  else if flags = 1 then do
    ensure (keyEnd + valueLength = bytes.length ∧ aux = 0) (.corruption "invalid inline leaf record")
    pure (some (.inline (slice bytes keyEnd valueLength)))
  else if flags = 2 then do
    ensure (bytes.length = keyEnd ∧ aux ≠ nullPageId ∧ valueLength ≠ 0)
      (.corruption "invalid overflow leaf record")
    pure (some (.overflow aux valueLength))
  else .error (.corruption s!"unknown leaf value state {flags.toNat}")

def decodeLeafRecord (bytes : Bytes) (slotKeyLength : Nat) : Result LeafEntry := do
  let revision ← readU64 bytes 0
  let valueLength ← readU64 bytes 8
  ensure (valueLength ≤ maxValueSize) (.corruption "leaf value exceeds supported maximum")
  let aux ← readU64 bytes 16
  let flags := bytes.getD 24 0
  ensure (bytes.getD 25 0 = 0 ∧ allZero (slice bytes 28 4))
    (.corruption "leaf record reserved bytes are non-zero")
  let keyLength ← readU16 bytes 26
  ensure (keyLength = slotKeyLength) (.corruption "leaf slot key length does not match record")
  let keyEnd := leafRecordHeaderSize + keyLength
  ensure (keyEnd ≤ bytes.length) (.corruption "leaf key exceeds record")
  let key := slice bytes leafRecordHeaderSize keyLength
  checkCanonical key fun error => .corruption s!"leaf key is not canonical: {error}"
  let value ← decodeLeafValue bytes keyEnd valueLength aux flags
  pure ⟨key, revision, value⟩

def leafCodec : RecordCodec LeafEntry where
  magic := leafMagic
  key := LeafEntry.key
  encodeRecord := encodeLeafRecord
  decodeRecord := decodeLeafRecord
  recordHeaderSize := leafRecordHeaderSize
  tooMany := .invalidInput "too many entries for one leaf page"
  full := .invalidInput "leaf records exceed page capacity"
  unordered := .corruption "leaf keys are not strictly ordered"
  magicMismatch := .corruption "leaf layout magic mismatch"
  outside := .corruption "leaf record range is outside free space"
  overlapping := .corruption "overlapping leaf records"

def encodeLeaf (nextLeaf : Option PageId) (entries : List LeafEntry) : Result Bytes :=
  leafCodec.encode (encodePageId nextLeaf) entries

def decodeLeaf (lsn : Lsn) (body : Bytes) : Result PageData := do
  let (link, entries) ← leafCodec.decode
    (fun _ reserved => ensure reserved (.corruption "leaf reserved bytes are non-zero")) body
  pure (.leaf lsn (decodePageId link) entries)

/-- Whether the entries can be stored in one leaf. -/
def leafFits (entries : List LeafEntry) : Bool := (encodeLeaf none entries).isOk

/-! ### Internal pages -/

def encodeInternalRecord (entry : InternalEntry) : Result Bytes := do
  ensure (entry.key.length ≤ u16Max ∧ 2 ≤ entry.rightChild) (.invalidInput "invalid internal entry")
  checkCanonical entry.key fun error => .invalidInput s!"internal separator is not canonical: {error}"
  pure (le 2 entry.key.length ++ (zeros 2 ++ (le 8 entry.rightChild ++ entry.key)))

def decodeInternalRecord (record : Bytes) (keyLength : Nat) : Result InternalEntry := do
  let recordKeyLength ← readU16 record 0
  ensure (allZero (slice record 2 2) ∧ recordKeyLength = keyLength)
    (.corruption "internal record key length is invalid")
  ensure (record.length = internalRecordHeaderSize + keyLength)
    (.corruption "internal record length is invalid")
  let rightChild ← readU64 record 4
  ensure (2 ≤ rightChild) (.corruption "internal child page id is invalid")
  let key := record.drop internalRecordHeaderSize
  checkCanonical key fun error => .corruption s!"internal separator is not canonical: {error}"
  pure ⟨key, rightChild⟩

def internalCodec : RecordCodec InternalEntry where
  magic := internalMagic
  key := InternalEntry.key
  encodeRecord := encodeInternalRecord
  decodeRecord := decodeInternalRecord
  recordHeaderSize := internalRecordHeaderSize
  tooMany := .invalidInput "too many entries for one internal page"
  full := .invalidInput "internal records exceed page capacity"
  unordered := .corruption "internal separators are not strictly ordered"
  magicMismatch := .corruption "internal layout magic mismatch"
  outside := .corruption "internal record range is outside free space"
  overlapping := .corruption "overlapping internal records"

def encodeInternal (leftmostChild : PageId) (entries : List InternalEntry) : Result Bytes := do
  ensure (2 ≤ leftmostChild) (.invalidInput "internal leftmost child is invalid")
  internalCodec.encode leftmostChild entries

def decodeInternal (lsn : Lsn) (body : Bytes) : Result PageData := do
  let (link, entries) ← internalCodec.decode
    (fun link reserved => ensure (2 ≤ link ∧ reserved) (.corruption "invalid internal header")) body
  pure (.internal lsn link entries)

/-- Whether the separators can be stored in one internal page. -/
def internalFits (leftmostChild : PageId) (entries : List InternalEntry) : Bool :=
  (encodeInternal leftmostChild entries).isOk

/-! ### Overflow and free pages -/

/-- A chunk of a long value, and the page with the next one. -/
def encodeOverflow (next : Option PageId) (totalLength : Nat) (chunk : Bytes) : Result Bytes := do
  ensure (totalLength ≠ 0 ∧ totalLength ≤ maxValueSize)
    (.invalidInput "overflow value length is outside limits")
  ensure (chunk.length ≤ overflowDataSize ∧ chunk.length ≤ u16Max ∧ chunk ≠ [])
    (.invalidInput "overflow chunk length is invalid")
  pure (overflowMagic ++ (le 2 layoutVersion ++ (zeros 2 ++ (le 8 (encodePageId next) ++
    (le 8 totalLength ++ (le 2 chunk.length ++ (zeros 6 ++
      (chunk ++ zeros (overflowDataSize - chunk.length)))))))))

/-- A chunk that is empty, or leaves the page, is refused. -/
def decodeOverflow (lsn : Lsn) (body : Bytes) : Result PageData := do
  checkBodySize body
  ensure (slice body 0 4 = overflowMagic) (.corruption "overflow layout magic mismatch")
  checkVersion (slice body 4 2)
  ensure (allZero (slice body 6 2) ∧ allZero (slice body 26 6))
    (.corruption "overflow reserved bytes are non-zero")
  let next ← readU64 body 8
  let totalLength ← readU64 body 16
  let chunkLength ← readU16 body 24
  ensure (totalLength ≠ 0 ∧ totalLength ≤ maxValueSize ∧ chunkLength ≠ 0)
    (.corruption "overflow length is invalid")
  ensure (overflowDataOffset + chunkLength ≤ body.length) (.corruption "overflow chunk exceeds page")
  pure (.overflow lsn (decodePageId next) totalLength (slice body overflowDataOffset chunkLength))

def encodeFree (next : Option PageId) : Result Bytes :=
  .ok (freeMagic ++ (le 2 layoutVersion ++ (zeros 2 ++ (le 8 (encodePageId next) ++ zeros (bodySize - 16)))))

def decodeFree (lsn : Lsn) (body : Bytes) : Result PageData := do
  checkBodySize body
  ensure (slice body 0 4 = freeMagic) (.corruption "free-page layout magic mismatch")
  checkVersion (slice body 4 2)
  ensure (allZero (slice body 6 2) ∧ allZero (body.drop 16))
    (.corruption "free-page reserved bytes are non-zero")
  let next ← readU64 body 8
  pure (.free lsn (decodePageId next))

/-! ### Pages -/

namespace PageData

def pageType : PageData → PageType
  | leaf .. => .leaf
  | internal .. => .internal
  | overflow .. => .overflow
  | free .. => .free

def lsn : PageData → Lsn
  | leaf lsn _ _ => lsn
  | internal lsn _ _ => lsn
  | overflow lsn _ _ _ => lsn
  | free lsn _ => lsn

/-- Gives the page, and the entries it holds from the batch being committed, their final LSN. -/
def restamp (provisional : Revision) (committed : Lsn) : PageData → PageData
  | leaf _ nextLeaf entries => leaf committed nextLeaf
      (entries.map fun entry => if entry.revision = provisional then {entry with revision := committed} else entry)
  | internal _ leftmostChild entries => internal committed leftmostChild entries
  | overflow _ next totalLength chunk => overflow committed next totalLength chunk
  | free _ next => free committed next

def encodeBody : PageData → Result Bytes
  | leaf _ nextLeaf entries => encodeLeaf nextLeaf entries
  | internal _ leftmostChild entries => encodeInternal leftmostChild entries
  | overflow _ next totalLength chunk => encodeOverflow next totalLength chunk
  | free _ next => encodeFree next

variable [Crc32c]

def encode (page : PageData) (pageId : PageId) : Result Bytes := do
  let body ← page.encodeBody
  encodePage (PageHeader.new page.pageType pageId page.lsn) body

def decode (page : DecodedPage) : Result PageData := do
  ensure (page.header.flags = 0) (.corruption
    s!"page {page.header.pageId} has unsupported flags {hex 1 page.header.flags}")
  match page.header.pageType with
  | .leaf => decodeLeaf page.header.pageLsn page.body
  | .internal => decodeInternal page.header.pageLsn page.body
  | .overflow => decodeOverflow page.header.pageLsn page.body
  | .free => decodeFree page.header.pageLsn page.body
  | .test => .error (.corruption "test pages are not valid database pages")

/-- Reads the page that belongs at `pageId`. -/
def decodeAt (pageId : PageId) (bytes : Bytes) : Result PageData := do
  let decoded ← decodePageAt bytes (some pageId)
  decode decoded

end PageData

end Dodb
