import Dodb.Malformed.Storage
import Dodb.Btree.FormatDecoded

/-! The decoder of page bodies with every operation of the source that could panic.

The slots and the records of a page are where its bytes say they are. The region of the slots, the range of every
record and the lengths within it are checked before they are used, and that is what keeps the slices in range. -/
namespace Dodb.Malformed
open Lib Attempt

/-! ### Fixed fields -/

def readArray (n : Nat) (bytes : Bytes) (offset : Nat) : Attempt Error Bytes := do
  let stop ← addOrFail (.corruption "fixed-field offset overflows") offset n
  require (stop ≤ bytes.length) (.corruption "fixed field is truncated")
  pure (slice bytes offset n)

def readU16 (bytes : Bytes) (offset : Nat) : Attempt Error Nat := do
  let array ← readArray 2 bytes offset
  pure (ofLe array)

def readU64 (bytes : Bytes) (offset : Nat) : Attempt Error Nat := do
  let array ← readArray 8 bytes offset
  pure (ofLe array)

theorem readU16_eq {offset : Nat} (bytes : Bytes) (h : offset + 2 ≤ wordMax) :
    readU16 bytes offset = total (Dodb.readU16 bytes offset) := by
  rw [readU16, readArray, addOrFail_bind h, Attempt.bind_assoc]
  exact require_bind fun _ => rfl

theorem readU64_eq {offset : Nat} (bytes : Bytes) (h : offset + 8 ≤ wordMax) :
    readU64 bytes offset = total (Dodb.readU64 bytes offset) := by
  rw [readU64, readArray, addOrFail_bind h, Attempt.bind_assoc]
  exact require_bind fun _ => rfl

/-- The key is decoded to see that it can be. -/
def checkCanonical (key : Bytes) (wrap : String → Error) : Attempt Error Unit := do
  let decoded ← caught (decodeKey key)
  match decoded with
  | .ok _ => pure ()
  | .error error => total (.error (wrap error.display))

theorem checkCanonical_eq {key : Bytes} (h : key.length ≤ sizeMax) (wrap : String → Error) :
    checkCanonical key wrap = total (Dodb.checkCanonical key wrap) := by
  rw [checkCanonical, decodeKey_eq h, caught_total_bind, Dodb.checkCanonical]
  cases DocumentKey.decode key <;> rfl

/-! ### Neighbours -/

/-- The pairs of neighbours, as `windows(2)` hands them out. -/
def windows2 {α : Type} : List α → List (List α)
  | a :: b :: rest => [a, b] :: windows2 (b :: rest)
  | _ => []

def checkPairs {α : Type} (good : α → α → Bool) (e : Error) : List (List α) → Attempt Error Unit
  | [] => pure ()
  | pair :: rest => do
    let a ← index pair 0
    let b ← index pair 1
    require (good a b) e
    checkPairs good e rest

theorem checkPairs_windows2 {α : Type} {good : α → α → Bool} (all : List α → Bool) (hnil : all [] = true)
    (hone : ∀ a, all [a] = true) (hcons : ∀ a b rest, all (a :: b :: rest) = (good a b && all (b :: rest))) (e : Error)
    (l : List α) : checkPairs good e (windows2 l) = total (ensure (all l) e) := by
  induction l with
  | nil =>
    rw [hnil]
    rfl
  | cons a rest ih =>
    cases rest with
    | nil =>
      rw [hone]
      rfl
    | cons b rest =>
      show require (good a b) e >>= (fun _ => checkPairs good e (windows2 (b :: rest))) = _
      rw [ih, hcons]
      cases good a b <;> rfl

/-! ### Slotted pages -/

section Slotted
variable {E : Type} (codec : RecordCodec E) (overflows : Error) (decodeRecord : Bytes → Nat → Attempt Error E)
  (checkLink : Nat → Bytes → Attempt Error Unit)

def validateSlotRegion (count slotEnd recordsStart headerSize bodyLen : Nat) : Attempt Error Unit := do
  let slots ← mulOrFail (.corruption "slot count overflows") count slotSize
  let expectedSlotEnd ← addOrFail (.corruption "slot count overflows") headerSize slots
  require (slotEnd = expectedSlotEnd ∧ slotEnd ≤ recordsStart ∧ recordsStart ≤ bodyLen ∧ slotEnd ≤ bodyLen)
    (.corruption "invalid slotted-page boundaries")

/-- One slot and its record; a range outside the body would panic. -/
def decodeSlot (body : Bytes) (recordsStart i : Nat) : Attempt Error ((Nat × Nat) × E) := do
  let before ← mul i slotSize
  let slot ← add slottedHeaderSize before
  let offset ← readU16 body slot
  let lengthAt ← add slot 2
  let length ← readU16 body lengthAt
  let keyLengthAt ← add slot 4
  let keyLength ← readU16 body keyLengthAt
  let stop ← addOrFail overflows offset length
  require (recordsStart ≤ offset ∧ stop ≤ body.length ∧ codec.recordHeaderSize ≤ length) codec.outside
  let record ← range body offset stop
  let entry ← decodeRecord record keyLength
  pure ((offset, stop), entry)

/-- The body of a leaf or of an internal page. -/
def decodeSlotted (body : Bytes) : Attempt Error (Nat × List E) := do
  total (checkBodySize body)
  let magic ← range body 0 4
  require (magic = codec.magic) codec.magicMismatch
  let version ← range body 4 6
  total (checkVersion version)
  let count ← readU16 body 6
  let slotEnd ← readU16 body 8
  let recordsStart ← readU16 body 10
  let link ← readU64 body 12
  checkLink link body
  validateSlotRegion count slotEnd recordsStart slottedHeaderSize body.length
  let slots ← (List.range count).mapM (decodeSlot codec overflows decodeRecord body recordsStart)
  checkPairs (fun a b => decide (a.2 ≤ b.1)) codec.overlapping
    (windows2 ((slots.map Prod.fst).mergeSort RecordCodec.rangeLe))
  let entries := slots.map Prod.snd
  checkPairs (fun a b => decide (a < b)) codec.unordered (windows2 (entries.map codec.key))
  pure (link, entries)

variable {codec decodeRecord checkLink}

theorem decodeSlot_eq (hrecord : ∀ record keyLength, codec.recordHeaderSize ≤ record.length → record.length ≤ bodySize →
      keyLength ≤ u16Max → decodeRecord record keyLength = total (codec.decodeRecord record keyLength))
    {body : Bytes} (hbody : body.length = bodySize) {recordsStart i : Nat} (hi : i ≤ u16Max) :
    decodeSlot codec overflows decodeRecord body recordsStart i = total (codec.decodeSlot body recordsStart i) := by
  have hbig : slottedHeaderSize + u16Max * slotSize + 4 + 2 ≤ wordMax := by decide
  have hsmall : i * slotSize ≤ u16Max * slotSize := Nat.mul_le_mul_right _ hi
  rw [decodeSlot, mul_bind (by omega), add_bind (by omega), readU16_eq _ (by omega)]
  refine total_bind_eq fun offset hoffset => ?_
  rw [add_bind (by omega), readU16_eq _ (by omega)]
  refine total_bind_eq fun length hlength => ?_
  rw [add_bind (by omega), readU16_eq _ (by omega)]
  refine total_bind_eq fun keyLength hkeyLength => ?_
  have hoffset := Dodb.readU16_le hoffset
  have hlength := Dodb.readU16_le hlength
  have hword : u16Max + u16Max ≤ wordMax := by decide
  rw [addOrFail_bind (by omega)]
  refine require_bind fun hrange => ?_
  rw [range_bind (by omega), Nat.add_sub_cancel_left, hrecord]
  · exact total_bind_eq fun _ _ => rfl
  · rw [length_slice _ _ _ (by omega)]
    omega
  · rw [length_slice _ _ _ (by omega)]
    omega
  · exact Dodb.readU16_le hkeyLength

theorem decodeSlotted_eq (hrecord : ∀ record keyLength, codec.recordHeaderSize ≤ record.length →
      record.length ≤ bodySize → keyLength ≤ u16Max → decodeRecord record keyLength = total (codec.decodeRecord record keyLength))
    (link : Nat → Bool → Result Unit) (hlink : ∀ n body, body.length = bodySize →
      checkLink n body = total (link n (allZero (slice body 20 12)))) (body : Bytes) :
    decodeSlotted codec overflows decodeRecord checkLink body = total (codec.decode link body) := by
  refine total_bind_eq fun _ hsize => ?_
  have hbody : body.length = bodySize := ensure_eq_ok.mp hsize
  rw [range_bind (by rw [hbody]; decide)]
  refine require_bind fun _ => ?_
  rw [range_bind (by rw [hbody]; decide)]
  refine total_bind_eq fun _ _ => ?_
  rw [readU16_eq _ (by decide)]
  refine total_bind_eq fun count hcount => ?_
  rw [readU16_eq _ (by decide)]
  refine total_bind_eq fun slotEnd _ => ?_
  rw [readU16_eq _ (by decide)]
  refine total_bind_eq fun recordsStart _ => ?_
  rw [readU64_eq _ (by decide)]
  refine total_bind_eq fun n _ => ?_
  rw [hlink n body hbody]
  refine total_bind_eq fun _ _ => ?_
  have hcount := readU16_le hcount
  have hword : slottedHeaderSize + u16Max * slotSize ≤ wordMax := by decide
  have hslots : count * slotSize ≤ u16Max * slotSize := Nat.mul_le_mul_right _ hcount
  rw [validateSlotRegion, mulOrFail_bind (by omega), addOrFail_bind (by omega)]
  refine require_bind fun _ => ?_
  rw [mapM_total fun i hi => decodeSlot_eq overflows hrecord hbody (by rw [List.mem_range] at hi; omega)]
  refine total_bind_eq fun slots _ => ?_
  rw [checkPairs_windows2 RecordCodec.nonOverlapping rfl (fun _ => rfl) (fun _ _ _ => rfl)]
  refine total_bind_eq fun _ _ => ?_
  dsimp only
  rw [checkPairs_windows2 strictlyOrdered rfl (fun _ => rfl) (fun _ _ _ => rfl)]
  exact total_bind_eq fun _ _ => rfl

end Slotted

/-! ### Leaves -/

def decodeLeafValue (bytes : Bytes) (keyEnd valueLength aux : Nat) (flags : UInt8) : Attempt Error (Option ValueRef) :=
  if flags = 0 then do
    require (valueLength = 0 ∧ aux = nullPageId ∧ bytes.length = keyEnd)
      (.corruption "invalid tombstone leaf record")
    pure none
  else if flags = 1 then do
    let valueEnd ← addOrFail (.corruption "inline value length overflows") keyEnd valueLength
    require (valueEnd = bytes.length ∧ aux = 0) (.corruption "invalid inline leaf record")
    let value ← range bytes keyEnd valueEnd
    pure (some (.inline value))
  else if flags = 2 then do
    require (bytes.length = keyEnd ∧ aux ≠ nullPageId ∧ valueLength ≠ 0)
      (.corruption "invalid overflow leaf record")
    pure (some (.overflow aux valueLength))
  else total (.error (.corruption s!"unknown leaf value state {flags.toNat}"))

/-- The reserved bytes are looked at one after the other, as far as the first that is not zero. -/
def decodeLeafRecord (bytes : Bytes) (slotKeyLength : Nat) : Attempt Error LeafEntry := do
  let revision ← readU64 bytes 0
  let valueLength ← readU64 bytes 8
  require (valueLength ≤ maxValueSize) (.corruption "leaf value exceeds supported maximum")
  let aux ← readU64 bytes 16
  let flags ← index bytes 24
  let reserved ← index bytes 25
  require (reserved = 0) (.corruption "leaf record reserved bytes are non-zero")
  let reserved ← range bytes 28 32
  require (allZero reserved) (.corruption "leaf record reserved bytes are non-zero")
  let keyLength ← readU16 bytes 26
  require (keyLength = slotKeyLength) (.corruption "leaf slot key length does not match record")
  let keyEnd ← addOrFail (.corruption "leaf key length overflows") leafRecordHeaderSize keyLength
  require (keyEnd ≤ bytes.length) (.corruption "leaf key exceeds record")
  let key ← range bytes leafRecordHeaderSize keyEnd
  checkCanonical key fun error => .corruption s!"leaf key is not canonical: {error}"
  let value ← decodeLeafValue bytes keyEnd valueLength aux flags
  pure ⟨key, revision, value⟩

def decodeLeaf (lsn : Lsn) (body : Bytes) : Attempt Error PageData := do
  let (link, entries) ← decodeSlotted leafCodec (.corruption "leaf record range overflows") decodeLeafRecord
    (fun _ body => do
      let reserved ← range body 20 32
      require (allZero reserved) (.corruption "leaf reserved bytes are non-zero")) body
  pure (.leaf lsn (decodePageId link) entries)

theorem decodeLeafValue_eq {bytes : Bytes} (hbytes : bytes.length ≤ bodySize) {keyEnd valueLength : Nat}
    (hkey : keyEnd ≤ bytes.length) (hvalue : valueLength ≤ maxValueSize) (aux : Nat) (flags : UInt8) :
    decodeLeafValue bytes keyEnd valueLength aux flags = total (Dodb.decodeLeafValue bytes keyEnd valueLength aux flags) := by
  have hword : bodySize + maxValueSize ≤ wordMax := by decide
  unfold decodeLeafValue Dodb.decodeLeafValue
  split
  · exact require_bind fun _ => rfl
  · split
    · rw [addOrFail_bind (by omega)]
      refine require_bind fun hend => ?_
      rw [range_bind (by omega), Nat.add_sub_cancel_left]
      rfl
    · split
      · exact require_bind fun _ => rfl
      · rfl

theorem decodeLeafRecord_eq {bytes : Bytes} {keyLength : Nat} (hheader : leafRecordHeaderSize ≤ bytes.length)
    (hbytes : bytes.length ≤ bodySize) (hkey : keyLength ≤ u16Max) :
    decodeLeafRecord bytes keyLength = total (Dodb.decodeLeafRecord bytes keyLength) := by
  have h32 : 32 ≤ bytes.length := hheader
  have hsize : bodySize ≤ sizeMax := by decide
  have hword : leafRecordHeaderSize + u16Max ≤ wordMax := by decide
  rw [decodeLeafRecord, readU64_eq _ (by decide)]
  refine total_bind_eq fun revision _ => ?_
  rw [readU64_eq _ (by decide)]
  refine total_bind_eq fun valueLength _ => require_bind fun hvalue => ?_
  rw [readU64_eq _ (by decide)]
  refine total_bind_eq fun aux _ => ?_
  rw [byte_bind (by omega), byte_bind (by omega)]
  dsimp only
  rw [← ensure_and]
  refine require_bind fun _ => ?_
  rw [range_bind (by omega)]
  refine require_bind fun _ => ?_
  rw [readU16_eq _ (by decide)]
  refine total_bind_eq fun recordKeyLength hread => require_bind fun _ => ?_
  have hread := readU16_le hread
  rw [addOrFail_bind (by omega)]
  refine require_bind fun hend => ?_
  rw [range_bind (by omega), Nat.add_sub_cancel_left, checkCanonical_eq (by rw [length_slice _ _ _ hend]; omega)]
  refine total_bind_eq fun _ _ => ?_
  rw [decodeLeafValue_eq hbytes hend hvalue]
  exact total_bind_eq fun _ _ => rfl

theorem decodeLeaf_eq (lsn : Lsn) (body : Bytes) : decodeLeaf lsn body = total (Dodb.decodeLeaf lsn body) := by
  rw [decodeLeaf, decodeSlotted_eq _ (fun _ _ => decodeLeafRecord_eq) (fun _ reserved =>
    ensure reserved (.corruption "leaf reserved bytes are non-zero")) (fun n body hbody => ?_)]
  · exact total_bind_eq fun _ _ => rfl
  · rw [range_bind (by rw [hbody]; decide)]
    rfl

/-! ### Internal pages -/

def decodeInternalRecord (record : Bytes) (keyLength : Nat) : Attempt Error InternalEntry := do
  let recordKeyLength ← readU16 record 0
  let reserved ← range record 2 4
  require (allZero reserved ∧ recordKeyLength = keyLength) (.corruption "internal record key length is invalid")
  let size ← add internalRecordHeaderSize keyLength
  require (record.length = size) (.corruption "internal record length is invalid")
  let rightChild ← readU64 record 4
  require (2 ≤ rightChild) (.corruption "internal child page id is invalid")
  let key ← rangeFrom record internalRecordHeaderSize
  checkCanonical key fun error => .corruption s!"internal separator is not canonical: {error}"
  pure ⟨key, rightChild⟩

def decodeInternal (lsn : Lsn) (body : Bytes) : Attempt Error PageData := do
  let (link, entries) ← decodeSlotted internalCodec (.corruption "internal record range overflows") decodeInternalRecord
    (fun link body => do
      require (2 ≤ link) (.corruption "invalid internal header")
      let reserved ← range body 20 32
      require (allZero reserved) (.corruption "invalid internal header")) body
  pure (.internal lsn link entries)

theorem decodeInternalRecord_eq {record : Bytes} {keyLength : Nat} (hheader : internalRecordHeaderSize ≤ record.length)
    (hbytes : record.length ≤ bodySize) (hkey : keyLength ≤ u16Max) :
    decodeInternalRecord record keyLength = total (Dodb.decodeInternalRecord record keyLength) := by
  have h12 : 12 ≤ record.length := hheader
  have hsize : bodySize ≤ sizeMax := by decide
  have hword : internalRecordHeaderSize + u16Max ≤ wordMax := by decide
  rw [decodeInternalRecord, readU16_eq _ (by decide)]
  refine total_bind_eq fun recordKeyLength _ => ?_
  rw [range_bind (by omega)]
  refine require_bind fun _ => ?_
  rw [add_bind (by omega)]
  refine require_bind fun _ => ?_
  rw [readU64_eq _ (by decide)]
  refine total_bind_eq fun rightChild _ => require_bind fun _ => ?_
  rw [rangeFrom_bind hheader, checkCanonical_eq (by rw [List.length_drop]; omega)]
  exact total_bind_eq fun _ _ => rfl

theorem decodeInternal_eq (lsn : Lsn) (body : Bytes) :
    decodeInternal lsn body = total (Dodb.decodeInternal lsn body) := by
  rw [decodeInternal, decodeSlotted_eq _ (fun _ _ => decodeInternalRecord_eq) (fun link reserved =>
    ensure (2 ≤ link ∧ reserved) (.corruption "invalid internal header")) (fun n body hbody => ?_)]
  · exact total_bind_eq fun _ _ => rfl
  · have hboth := ensure_and (c := 2 ≤ n) (d := allZero (slice body 20 12) = true)
      (Error.corruption "invalid internal header") pure
    rw [bind_pure, bind_pure] at hboth
    rw [← hboth]
    refine require_bind fun _ => ?_
    rw [range_bind (by rw [hbody]; decide)]
    rfl

/-! ### Overflow and free pages -/

def decodeOverflow (lsn : Lsn) (body : Bytes) : Attempt Error PageData := do
  total (checkBodySize body)
  let magic ← range body 0 4
  require (magic = overflowMagic) (.corruption "overflow layout magic mismatch")
  let version ← range body 4 6
  total (checkVersion version)
  let reserved ← range body 6 8
  require (allZero reserved) (.corruption "overflow reserved bytes are non-zero")
  let reserved ← range body 26 32
  require (allZero reserved) (.corruption "overflow reserved bytes are non-zero")
  let next ← readU64 body 8
  let totalLength ← readU64 body 16
  let chunkLength ← readU16 body 24
  require (totalLength ≠ 0 ∧ totalLength ≤ maxValueSize ∧ chunkLength ≠ 0) (.corruption "overflow length is invalid")
  let stop ← add overflowDataOffset chunkLength
  require (stop ≤ body.length) (.corruption "overflow chunk exceeds page")
  let stop ← add overflowDataOffset chunkLength
  let chunk ← range body overflowDataOffset stop
  pure (.overflow lsn (decodePageId next) totalLength chunk)

def decodeFree (lsn : Lsn) (body : Bytes) : Attempt Error PageData := do
  total (checkBodySize body)
  let magic ← range body 0 4
  require (magic = freeMagic) (.corruption "free-page layout magic mismatch")
  let version ← range body 4 6
  total (checkVersion version)
  let reserved ← range body 6 8
  require (allZero reserved) (.corruption "free-page reserved bytes are non-zero")
  let reserved ← rangeFrom body 16
  require (allZero reserved) (.corruption "free-page reserved bytes are non-zero")
  let next ← readU64 body 8
  pure (.free lsn (decodePageId next))

theorem decodeOverflow_eq (lsn : Lsn) (body : Bytes) :
    decodeOverflow lsn body = total (Dodb.decodeOverflow lsn body) := by
  have hword : overflowDataOffset + u16Max ≤ wordMax := by decide
  refine total_bind_eq fun _ hsize => ?_
  have hbody : body.length = bodySize := ensure_eq_ok.mp hsize
  rw [range_bind (by rw [hbody]; decide)]
  refine require_bind fun _ => ?_
  rw [range_bind (by rw [hbody]; decide)]
  refine total_bind_eq fun _ _ => ?_
  rw [← ensure_and, range_bind (by rw [hbody]; decide)]
  refine require_bind fun _ => ?_
  rw [range_bind (by rw [hbody]; decide)]
  refine require_bind fun _ => ?_
  rw [readU64_eq _ (by decide)]
  refine total_bind_eq fun next _ => ?_
  rw [readU64_eq _ (by decide)]
  refine total_bind_eq fun totalLength _ => ?_
  rw [readU16_eq _ (by decide)]
  refine total_bind_eq fun chunkLength hchunk => require_bind fun _ => ?_
  have hchunk := readU16_le hchunk
  rw [add_bind (by omega)]
  refine require_bind fun hstop => ?_
  rw [add_bind (by omega), range_bind (by omega), Nat.add_sub_cancel_left]
  rfl

theorem decodeFree_eq (lsn : Lsn) (body : Bytes) : decodeFree lsn body = total (Dodb.decodeFree lsn body) := by
  refine total_bind_eq fun _ hsize => ?_
  have hbody : body.length = bodySize := ensure_eq_ok.mp hsize
  rw [range_bind (by rw [hbody]; decide)]
  refine require_bind fun _ => ?_
  rw [range_bind (by rw [hbody]; decide)]
  refine total_bind_eq fun _ _ => ?_
  rw [← ensure_and, range_bind (by rw [hbody]; decide)]
  refine require_bind fun _ => ?_
  rw [rangeFrom_bind (by rw [hbody]; decide)]
  refine require_bind fun _ => ?_
  rw [readU64_eq _ (by decide)]
  exact total_bind_eq fun _ _ => rfl

/-! ### Pages -/

/-- What `PageData.decode` computes, with each step that could panic. -/
def decodePageData (page : DecodedPage) : Attempt Error PageData := do
  require (page.header.flags = 0) (.corruption
    s!"page {page.header.pageId} has unsupported flags {hex 1 page.header.flags}")
  match page.header.pageType with
  | .leaf => decodeLeaf page.header.pageLsn page.body
  | .internal => decodeInternal page.header.pageLsn page.body
  | .overflow => decodeOverflow page.header.pageLsn page.body
  | .free => decodeFree page.header.pageLsn page.body
  | .test => total (.error (.corruption "test pages are not valid database pages"))

theorem decodePageData_eq (page : DecodedPage) : decodePageData page = total (PageData.decode page) := by
  refine require_bind fun _ => ?_
  cases page.header.pageType with
  | leaf => exact decodeLeaf_eq ..
  | internal => exact decodeInternal_eq ..
  | overflow => exact decodeOverflow_eq ..
  | free => exact decodeFree_eq ..
  | test => rfl

end Dodb.Malformed
