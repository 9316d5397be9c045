import Dodb.Lib.Cursor
import Dodb.Malformed.Format
import Dodb.Malformed.Wal
import Dodb.Protocol.Codec

/-! The decoders of the wire format with every operation of the source that could panic, and all decoders together.

The source's `Reader` is a `Cursor`: it adds to its offset and takes the bytes of a number by index. The decoders over it
follow those of the codec, which have no partial operations. -/
namespace Dodb.Malformed.Protocol
open Lib Attempt Cursor Dodb.Protocol

abbrev Scan := Cursor ProtocolError

/-! ### Numbers and byte strings -/

def readU8 : Scan UInt8 := Cursor.byte .truncatedPayload
def readU32 : Scan Nat := Cursor.number .lengthOverflow .truncatedPayload 4
def readU64 : Scan Nat := Cursor.number .lengthOverflow .truncatedPayload 8

def readBytes (maximum : Nat) : Scan Bytes := do
  let length ← readU32
  ofAttempt (require (length ≤ maximum) (.payloadTooLarge length maximum))
  Cursor.take .lengthOverflow .truncatedPayload length

def readCount (maximum : Nat) : Scan Nat := do
  let count ← readU32
  ofAttempt (require (count ≤ maximum) (.payloadTooLarge count maximum))
  pure count

def readFlag : Scan Bool := do
  let flag ← readU8
  if flag = 0 then pure false else if flag = 1 then pure true else Cursor.fail (.invalidFlag flag)

def readOptional {α : Type} (read : Scan α) : Scan (Option α) := do
  let flag ← readFlag
  if flag then
    let a ← read
    pure (some a)
  else pure none

def readList {α : Type} (read : Scan α) (maximum : Nat) : Scan (List α) := do
  let count ← readCount maximum
  read.many count

section Limited
variable (limits : ProtocolLimits)

/-! ### Keys -/

def encodedComponentLen (bytes : Bytes) : Attempt ProtocolError Nat := do
  let counted ← add bytes.length (bytes.count 0)
  add counted 2

def encodedLen (key : DocumentKey) : Attempt ProtocolError Nat := do
  let pk ← encodedComponentLen key.pk
  let sk ← encodedComponentLen key.sk
  add pk sk

def validateKeyParts (pk : PrimaryKey) (sk : SortKey) : Attempt ProtocolError Unit := do
  let encodedLength ← encodedLen ⟨pk, sk⟩
  require (encodedLength ≤ limits.maxEncodedKeySize) (.keyTooLarge encodedLength limits.maxEncodedKeySize)

def decodeKey : Scan DocumentKey := do
  let pk ← readBytes limits.maxKeyComponentSize
  let sk ← readBytes limits.maxKeyComponentSize
  ofAttempt (validateKeyParts limits pk sk)
  pure ⟨pk, sk⟩

/-! ### Requests -/

def decodeCondition : Scan TransactionCondition := do
  let kind ← readU8
  let key ← decodeKey limits
  if kind = 0 then
    let expectedRevision ← readU64
    pure (.revisionEquals key expectedRevision)
  else if kind = 1 then pure (.exists key)
  else if kind = 2 then pure (.notExists key)
  else Cursor.fail (.invalidExpectation kind)

def decodeMutation : Scan TransactionMutation := do
  let kind ← readU8
  let key ← decodeKey limits
  if kind = 0 then
    let value ← readBytes limits.maxValueSize
    pure (.put key value)
  else if kind = 1 then pure (.delete key)
  else Cursor.fail (.invalidOpcode kind)

def decodeRequestPayload : Scan Request := do
  let opcode ← readU8
  if opcode = 1 then
    let key ← decodeKey limits
    pure (.get key)
  else if opcode = 2 then
    let key ← decodeKey limits
    let value ← readBytes limits.maxValueSize
    pure (.put key value)
  else if opcode = 3 then
    let key ← decodeKey limits
    pure (.delete key)
  else if opcode = 4 then
    let pk ← readBytes limits.maxKeyComponentSize
    let exclusiveAfterSk ← readOptional (readBytes limits.maxKeyComponentSize)
    ofAttempt (validateKeyParts limits pk (exclusiveAfterSk.getD []))
    let limit ← readCount limits.maxQueryLimit
    pure (.query pk exclusiveAfterSk limit)
  else if opcode = 5 then
    let exclusiveAfterKey ← readOptional (decodeKey limits)
    let limit ← readCount limits.maxScanLimit
    pure (.scan exclusiveAfterKey limit)
  else if opcode = 8 then
    let conditions ← readList (decodeCondition limits) limits.maxConditions
    let mutations ← readList (decodeMutation limits) limits.maxMutations
    pure (.transact ⟨conditions, mutations⟩)
  else Cursor.fail (.invalidOpcode opcode)

/-! ### Responses -/

def decodeRevisionState : Scan RevisionState := do
  let state ← readU8
  if state = 0 then
    let value ← readBytes limits.maxValueSize
    let revision ← readU64
    pure (.present value revision)
  else if state = 1 then
    let revision ← readU64
    pure (.missing revision)
  else Cursor.fail (.invalidRevisionState state)

def decodeDocument : Scan Document := do
  let key ← decodeKey limits
  let value ← readBytes limits.maxValueSize
  let revision ← readU64
  pure ⟨key, value, revision⟩

def decodeTransactionOutcome : Scan TransactionOutcome := do
  let flag ← readU8
  if flag = 0 then pure ⟨none⟩
  else if flag = 1 then
    let commitLsn ← readU64
    pure ⟨some commitLsn⟩
  else Cursor.fail (.invalidFlag flag)

def decodeResponsePayload (opcode : UInt8) : Scan Response :=
  if opcode = 1 then do
    let state ← decodeRevisionState limits
    pure (.get state)
  else if opcode = 2 then do
    let revision ← readU64
    pure (.put revision)
  else if opcode = 3 then do
    let revision ← readU64
    pure (.delete revision)
  else if opcode = 4 then do
    let documents ← readList (decodeDocument limits) limits.maxScanLimit
    pure (.query documents)
  else if opcode = 5 then do
    let documents ← readList (decodeDocument limits) limits.maxScanLimit
    pure (.scan documents)
  else if opcode = 8 then do
    let outcome ← decodeTransactionOutcome
    pure (.transact outcome)
  else Cursor.fail (.invalidOpcode opcode)

def decodeObservedState : Scan ObservedState := do
  let state ← readU8
  if state = 0 then
    let revision ← readU64
    pure (.present revision)
  else if state = 1 then
    let revision ← readU64
    pure (.missing revision)
  else Cursor.fail (.invalidRevisionState state)

def decodeExpectation : Scan ConditionExpectation := do
  let kind ← readU8
  if kind = 0 then
    let revision ← readU64
    pure (.revisionEquals revision)
  else if kind = 1 then pure .exists
  else if kind = 2 then pure .notExists
  else Cursor.fail (.invalidExpectation kind)

def decodeConflict : Scan ConflictDetails := do
  let key ← decodeKey limits
  let expected ← decodeExpectation
  let actual ← decodeObservedState
  pure ⟨key, expected, actual⟩

def decodeApplicationError : Scan ApplicationError := do
  let kindCode ← readU8
  let kind ← ofAttempt (total (applicationErrorKind kindCode))
  let bytes ← readBytes limits.maxErrorDetailSize
  let detail ← ofAttempt (total (fromUtf8 bytes))
  let outcomeCode ← readU8
  let outcome ← ofAttempt (total (mutationOutcome outcomeCode))
  let conflict ← readOptional (decodeConflict limits)
  pure ⟨kind, detail, outcome, conflict⟩

end Limited

/-! ### Frames -/

def decodeHeader (bytes : Bytes) : Attempt ProtocolError FrameHeader := do
  require (headerSize ≤ bytes.length) .truncatedHeader
  let start ← range bytes 0 4
  require (start = magic) .invalidMagic
  let b4 ← index bytes 4
  let b5 ← index bytes 5
  let version := ofBe [b4, b5]
  require (version = protocolVersion) (.unsupportedVersion version)
  let messageType ← index bytes 6
  require (messageType = requestMessageType ∨ messageType = responseMessageType) (.unknownMessageType messageType)
  let b7 ← index bytes 7
  let b8 ← index bytes 8
  let b9 ← index bytes 9
  let b10 ← index bytes 10
  pure ⟨version, messageType, ofBe [b7, b8, b9, b10]⟩

def validatePayloadLength (header : FrameHeader) (payload : Bytes) (maximumFrameSize : Nat) :
    Attempt ProtocolError Unit := do
  let frameLength ← addOrFail .lengthOverflow headerSize header.payloadLength
  require (frameLength ≤ maximumFrameSize) (.payloadTooLarge frameLength maximumFrameSize)
  require (payload.length = header.payloadLength)
    (if payload.length < header.payloadLength then .truncatedPayload else .trailingBytes)

def splitFrame (frame : Bytes) : Attempt ProtocolError (FrameHeader × Bytes) := do
  require (headerSize ≤ frame.length) .truncatedHeader
  let header ← decodeHeader (frame.take headerSize)
  let frameLength ← add headerSize header.payloadLength
  if frame.length ≠ frameLength then do
    let frameLength ← add headerSize header.payloadLength
    total (.error (if frame.length < frameLength then .truncatedPayload else .trailingBytes))
  else
    let payload ← rangeFrom frame headerSize
    pure (header, payload)

def readRequest (limits : ProtocolLimits) : Scan (TenantId × Request) := do
  let tenant ← readU64
  let request ← decodeRequestPayload limits
  pure (UInt64.ofNat tenant, request)

def decodeRequestParts (header : FrameHeader) (payload : Bytes) (limits : ProtocolLimits) :
    Attempt ProtocolError (TenantId × Request) := do
  total limits.validate
  validatePayloadLength header payload limits.maxRequestFrameSize
  require (header.messageType = requestMessageType) (.unknownMessageType header.messageType)
  (readRequest limits).whole .trailingBytes payload

def decodeRequestFrame (frame : Bytes) (limits : ProtocolLimits) : Attempt ProtocolError (TenantId × Request) := do
  let (header, payload) ← splitFrame frame
  decodeRequestParts header payload limits

def readEnvelope (expectedResponseType : Option UInt8) (limits : ProtocolLimits) : Scan ResponseEnvelope := do
  let status ← readU8
  if status = 0 then
    let actual ← readU8
    ofAttempt (total (match expectedResponseType with
      | some expected => ensure (actual = expected) (.invalidResponseType expected actual)
      | none => .ok ()))
    let response ← decodeResponsePayload limits actual
    pure (.success response)
  else if status = 1 then
    let error ← decodeApplicationError limits
    pure (.error error)
  else Cursor.fail (.invalidStatus status)

def decodeResponseParts (header : FrameHeader) (payload : Bytes) (expectedResponseType : Option UInt8)
    (limits : ProtocolLimits) : Attempt ProtocolError ResponseEnvelope := do
  total limits.validate
  validatePayloadLength header payload limits.maxResponseFrameSize
  require (header.messageType = responseMessageType) (.unknownMessageType header.messageType)
  (readEnvelope expectedResponseType limits).whole .trailingBytes payload

def decodeResponseFrame (frame : Bytes) (expectedResponseType : Option UInt8) (limits : ProtocolLimits) :
    Attempt ProtocolError ResponseEnvelope := do
  let (header, payload) ← splitFrame frame
  decodeResponseParts header payload expectedResponseType limits

/-! ### Following the codec -/

theorem follows_readU8 : Follows readU8 Dodb.Protocol.readU8 fun _ => True := .byte _

theorem follows_readU32 : Follows readU32 Dodb.Protocol.readU32 fun n => n ≤ u32Max :=
  (Follows.number _ _ (by decide)).mono fun _ hn => Nat.le_sub_one_of_lt hn

theorem follows_readU64 : Follows readU64 Dodb.Protocol.readU64 fun _ => True :=
  (Follows.number _ _ (by decide)).mono fun _ _ => trivial

theorem follows_total {α : Type} (x : Wire α) : Follows (ofAttempt (total x)) (Reader.ofExcept x) fun _ => True :=
  .ofAttempt rfl fun _ _ => trivial

/-- A byte string is shorter than its length field can say. -/
theorem follows_readBytes (maximum : Nat) :
    Follows (readBytes maximum) (Dodb.Protocol.readBytes maximum) fun bytes => bytes.length ≤ u32Max := by
  refine follows_readU32.bind fun length hlength => (follows_total _).bind fun _ _ => ?_
  have hsize : length ≤ sizeMax := hlength.trans (by decide)
  exact (Follows.take _ _ hsize).mono fun bytes hbytes => hbytes.le.trans hlength

theorem follows_readCount (maximum : Nat) :
    Follows (readCount maximum) (Dodb.Protocol.readCount maximum) fun _ => True :=
  follows_readU32.bind fun _ _ => (follows_total _).bind fun _ _ => .pure trivial

theorem follows_readFlag : Follows readFlag Dodb.Protocol.readFlag fun _ => True :=
  follows_readU8.bind fun _ _ => .ite (.pure trivial) (.ite (.pure trivial) (.fail _))

theorem follows_readOptional {α : Type} {c : Scan α} {r : Read α} {P : α → Prop} (h : Follows c r P) :
    Follows (readOptional c) (Dodb.Protocol.readOptional r) fun a => ∀ x ∈ a, P x := by
  refine follows_readFlag.bind fun flag _ => ?_
  split
  · refine h.bind fun a ha => .pure fun x hx => ?_
    cases hx
    exact ha
  · exact .pure fun x hx => nomatch hx

theorem follows_readList {α : Type} {c : Scan α} {r : Read α} {P : α → Prop} (h : Follows c r P) (maximum : Nat) :
    Follows (readList c maximum) (Dodb.Protocol.readList r maximum) fun _ => True :=
  (follows_readCount maximum).bind fun count _ => h.many count

theorem encodedComponentLen_eq {bytes : Bytes} (h : bytes.length ≤ u32Max) :
    encodedComponentLen bytes = total (.ok (Dodb.encodedComponentLen bytes)) := by
  have hword : u32Max + u32Max + 2 ≤ wordMax := by decide
  have hcount := List.count_le_length (a := (0 : UInt8)) (l := bytes)
  rw [encodedComponentLen, add_bind (by omega), ← bind_pure (add _ _), add_bind (by omega)]
  rfl

theorem encodedComponentLen_le {bytes : Bytes} (h : bytes.length ≤ u32Max) :
    Dodb.encodedComponentLen bytes ≤ 2 * u32Max + 2 := by
  have hcount := List.count_le_length (a := (0 : UInt8)) (l := bytes)
  unfold Dodb.encodedComponentLen
  omega

section Limited
variable (limits : ProtocolLimits)

theorem validateKeyParts_eq {pk : PrimaryKey} {sk : SortKey} (hpk : pk.length ≤ u32Max) (hsk : sk.length ≤ u32Max) :
    validateKeyParts limits pk sk = total (Dodb.Protocol.validateKeyParts limits pk sk) := by
  have hword : 4 * u32Max + 4 ≤ wordMax := by decide
  have hpkLen := encodedComponentLen_le hpk
  have hskLen := encodedComponentLen_le hsk
  rw [validateKeyParts, encodedLen, encodedComponentLen_eq hpk, encodedComponentLen_eq hsk]
  show (add _ _ >>= _) = _
  rw [add_bind (by omega)]
  rfl

theorem follows_validateKeyParts {pk : PrimaryKey} {sk : SortKey} (hpk : pk.length ≤ u32Max)
    (hsk : sk.length ≤ u32Max) :
    Follows (ofAttempt (validateKeyParts limits pk sk)) (.ofExcept (Dodb.Protocol.validateKeyParts limits pk sk))
      fun _ => True :=
  .ofAttempt (validateKeyParts_eq limits hpk hsk) fun _ _ => trivial

theorem follows_decodeKey : Follows (decodeKey limits) (Dodb.Protocol.decodeKey limits) fun _ => True :=
  (follows_readBytes _).bind fun _ hpk => (follows_readBytes _).bind fun _ hsk =>
    (follows_validateKeyParts limits hpk hsk).bind fun _ _ => .pure trivial

theorem follows_decodeCondition :
    Follows (decodeCondition limits) (Dodb.Protocol.decodeCondition limits) fun _ => True := by
  refine follows_readU8.bind fun kind _ => (follows_decodeKey limits).bind fun key _ => ?_
  refine .ite ?_ (.ite (.pure trivial) (.ite (.pure trivial) (.fail _)))
  exact follows_readU64.bind fun _ _ => .pure trivial

theorem follows_decodeMutation :
    Follows (decodeMutation limits) (Dodb.Protocol.decodeMutation limits) fun _ => True := by
  refine follows_readU8.bind fun kind _ => (follows_decodeKey limits).bind fun key _ => ?_
  refine .ite ?_ (.ite (.pure trivial) (.fail _))
  exact (follows_readBytes _).bind fun _ _ => .pure trivial

theorem follows_decodeRequestPayload :
    Follows (decodeRequestPayload limits) (Dodb.Protocol.decodeRequestPayload limits) fun _ => True := by
  have hkey := follows_decodeKey limits
  refine follows_readU8.bind fun opcode _ => .ite ?_ (.ite ?_ (.ite ?_ (.ite ?_ (.ite ?_ (.ite ?_ (.fail _))))))
  · exact hkey.bind fun _ _ => .pure trivial
  · exact hkey.bind fun _ _ => (follows_readBytes _).bind fun _ _ => .pure trivial
  · exact hkey.bind fun _ _ => .pure trivial
  · refine (follows_readBytes _).bind fun pk hpk => (follows_readOptional (follows_readBytes _)).bind fun after hafter => ?_
    have hsk : (after.getD []).length ≤ u32Max := by
      cases after with
      | none => exact Nat.zero_le _
      | some sk => exact hafter sk rfl
    exact (follows_validateKeyParts limits hpk hsk).bind fun _ _ => (follows_readCount _).bind fun _ _ => .pure trivial
  · exact (follows_readOptional hkey).bind fun _ _ => (follows_readCount _).bind fun _ _ => .pure trivial
  · exact (follows_readList (follows_decodeCondition limits) _).bind fun _ _ =>
      (follows_readList (follows_decodeMutation limits) _).bind fun _ _ => .pure trivial

theorem follows_decodeRevisionState :
    Follows (decodeRevisionState limits) (Dodb.Protocol.decodeRevisionState limits) fun _ => True := by
  refine follows_readU8.bind fun state _ => .ite ?_ (.ite ?_ (.fail _))
  · exact (follows_readBytes _).bind fun _ _ => follows_readU64.bind fun _ _ => .pure trivial
  · exact follows_readU64.bind fun _ _ => .pure trivial

theorem follows_decodeDocument : Follows (decodeDocument limits) (Dodb.Protocol.decodeDocument limits) fun _ => True :=
  (follows_decodeKey limits).bind fun _ _ => (follows_readBytes _).bind fun _ _ =>
    follows_readU64.bind fun _ _ => .pure trivial

theorem follows_decodeTransactionOutcome :
    Follows decodeTransactionOutcome Dodb.Protocol.decodeTransactionOutcome fun _ => True :=
  follows_readU8.bind fun _ _ => .ite (.pure trivial) (.ite (follows_readU64.bind fun _ _ => .pure trivial) (.fail _))

theorem follows_decodeResponsePayload (opcode : UInt8) :
    Follows (decodeResponsePayload limits opcode) (Dodb.Protocol.decodeResponsePayload limits opcode) fun _ => True := by
  have hdocuments := follows_readList (follows_decodeDocument limits) limits.maxScanLimit
  refine .ite ?_ (.ite ?_ (.ite ?_ (.ite ?_ (.ite ?_ (.ite ?_ (.fail _))))))
  · exact (follows_decodeRevisionState limits).bind fun _ _ => .pure trivial
  · exact follows_readU64.bind fun _ _ => .pure trivial
  · exact follows_readU64.bind fun _ _ => .pure trivial
  · exact hdocuments.bind fun _ _ => .pure trivial
  · exact hdocuments.bind fun _ _ => .pure trivial
  · exact follows_decodeTransactionOutcome.bind fun _ _ => .pure trivial

theorem follows_decodeObservedState : Follows decodeObservedState Dodb.Protocol.decodeObservedState fun _ => True := by
  refine follows_readU8.bind fun state _ => .ite ?_ (.ite ?_ (.fail _))
  · exact follows_readU64.bind fun _ _ => .pure trivial
  · exact follows_readU64.bind fun _ _ => .pure trivial

theorem follows_decodeExpectation : Follows decodeExpectation Dodb.Protocol.decodeExpectation fun _ => True := by
  refine follows_readU8.bind fun kind _ => .ite ?_ (.ite (.pure trivial) (.ite (.pure trivial) (.fail _)))
  exact follows_readU64.bind fun _ _ => .pure trivial

theorem follows_decodeConflict : Follows (decodeConflict limits) (Dodb.Protocol.decodeConflict limits) fun _ => True :=
  (follows_decodeKey limits).bind fun _ _ => follows_decodeExpectation.bind fun _ _ =>
    follows_decodeObservedState.bind fun _ _ => .pure trivial

theorem follows_decodeApplicationError :
    Follows (decodeApplicationError limits) (Dodb.Protocol.decodeApplicationError limits) fun _ => True := by
  refine follows_readU8.bind fun kindCode _ => (follows_total _).bind fun kind _ => ?_
  refine (follows_readBytes _).bind fun bytes _ => (follows_total _).bind fun detail _ => ?_
  refine follows_readU8.bind fun outcomeCode _ => (follows_total _).bind fun outcome _ => ?_
  exact (follows_readOptional (follows_decodeConflict limits)).bind fun _ _ => .pure trivial

theorem follows_readRequest : Follows (readRequest limits) (Dodb.Protocol.readRequest limits) fun _ => True :=
  follows_readU64.bind fun _ _ => (follows_decodeRequestPayload limits).bind fun _ _ => .pure trivial

theorem follows_readEnvelope (expectedResponseType : Option UInt8) :
    Follows (readEnvelope expectedResponseType limits) (Dodb.Protocol.readEnvelope expectedResponseType limits)
      fun _ => True := by
  refine follows_readU8.bind fun status _ => .ite ?_ (.ite ?_ (.fail _))
  · refine follows_readU8.bind fun actual _ => (follows_total _).bind fun _ _ => ?_
    exact (follows_decodeResponsePayload limits actual).bind fun _ _ => .pure trivial
  · exact (follows_decodeApplicationError limits).bind fun _ _ => .pure trivial

end Limited

/-! ### Never a panic -/

theorem decodeHeader_eq (bytes : Bytes) : decodeHeader bytes = total (Dodb.Protocol.decodeHeader bytes) := by
  refine require_bind fun hlen => ?_
  have hsize : headerSize = 11 := rfl
  have hversion : slice bytes 4 2 = [bytes.getD 4 0, bytes.getD 5 0] := slice_eq_map (by omega)
  have hlength : slice bytes 7 4 = [bytes.getD 7 0, bytes.getD 8 0, bytes.getD 9 0, bytes.getD 10 0] :=
    slice_eq_map (by omega)
  have hstart : slice bytes 0 4 = bytes.take 4 := by rw [slice, List.drop_zero]
  rw [range_bind (by omega), Nat.sub_zero, hstart]
  refine require_bind fun _ => ?_
  rw [byte_bind (by omega), byte_bind (by omega), hversion]
  refine require_bind fun _ => ?_
  rw [byte_bind (by omega)]
  refine require_bind fun _ => ?_
  rw [byte_bind (by omega), byte_bind (by omega), byte_bind (by omega), byte_bind (by omega), hlength]
  rfl

theorem payloadLength_le {bytes : Bytes} {header : FrameHeader} (h : Dodb.Protocol.decodeHeader bytes = .ok header) :
    header.payloadLength ≤ u32Max := by
  simp only [Dodb.Protocol.decodeHeader, except_bind_eq_ok, ensure_eq_ok] at h
  obtain ⟨_, hlen, _, _, _, _, _, _, heq⟩ := h
  cases heq
  have := ofBe_lt (slice bytes 7 4)
  rw [length_slice _ _ _ hlen] at this
  exact Nat.le_sub_one_of_lt this

theorem splitFrame_payload {frame : Bytes} {parts : FrameHeader × Bytes}
    (h : Dodb.Protocol.splitFrame frame = .ok parts) : parts.2.length ≤ frame.length := by
  simp only [Dodb.Protocol.splitFrame, except_bind_eq_ok] at h
  obtain ⟨_, _, header, _, _, _, heq⟩ := h
  cases heq
  rw [List.length_drop]
  exact Nat.sub_le _ _

theorem validatePayloadLength_eq (header : FrameHeader) (payload : Bytes) (maximumFrameSize : Nat) :
    validatePayloadLength header payload maximumFrameSize =
      total (Dodb.Protocol.validatePayloadLength header payload maximumFrameSize) := by
  have hword : wordMax = u64Max := rfl
  rw [validatePayloadLength, Dodb.Protocol.validatePayloadLength, addOrFail, hword]
  by_cases hle : headerSize + header.payloadLength ≤ u64Max
  · rw [if_pos hle, ensure, if_pos hle]
    exact require_bind fun _ => rfl
  · rw [if_neg hle, ensure, if_neg hle]
    rfl

theorem splitFrame_eq (frame : Bytes) : splitFrame frame = total (Dodb.Protocol.splitFrame frame) := by
  refine require_bind fun hlen => ?_
  rw [decodeHeader_eq]
  refine total_bind_eq fun header hheader => ?_
  have hpayload := payloadLength_le hheader
  have hword : headerSize + u32Max ≤ wordMax := by decide
  rw [add_bind (by omega), ensure]
  by_cases hframe : frame.length = headerSize + header.payloadLength
  · rw [if_neg (not_not.mpr hframe), if_pos hframe, rangeFrom_bind hlen]
    rfl
  · rw [if_pos hframe, if_neg hframe, add_bind (by omega)]
    rfl

theorem decodeRequestFrame_eq {frame : Bytes} (hsize : frame.length ≤ sizeMax) (limits : ProtocolLimits) :
    decodeRequestFrame frame limits = total (Dodb.Protocol.decodeRequestFrame frame limits) := by
  rw [decodeRequestFrame, splitFrame_eq]
  refine total_bind_eq fun parts hparts => ?_
  have hpayload := (splitFrame_payload hparts).trans hsize
  obtain ⟨header, payload⟩ := parts
  refine total_bind_eq fun _ _ => ?_
  rw [validatePayloadLength_eq]
  exact total_bind_eq fun _ _ => require_bind fun _ => (follows_readRequest limits).whole _ hpayload

theorem decodeResponseFrame_eq {frame : Bytes} (hsize : frame.length ≤ sizeMax) (expectedResponseType : Option UInt8)
    (limits : ProtocolLimits) : decodeResponseFrame frame expectedResponseType limits =
      total (Dodb.Protocol.decodeResponseFrame frame expectedResponseType limits) := by
  rw [decodeResponseFrame, splitFrame_eq]
  refine total_bind_eq fun parts hparts => ?_
  have hpayload := (splitFrame_payload hparts).trans hsize
  obtain ⟨header, payload⟩ := parts
  refine total_bind_eq fun _ _ => ?_
  rw [validatePayloadLength_eq]
  exact total_bind_eq fun _ _ => require_bind fun _ => (follows_readEnvelope limits expectedResponseType).whole _ hpayload

end Dodb.Malformed.Protocol

namespace Dodb.Malformed
open Lib Attempt

/-- No decoder panics, whatever the bytes are: each answers or fails as the decoder without partial operations does. A
byte string is as long as memory can hold, and a file as long as its length can say. -/
theorem decoders_never_panic [Crc32c] :
    (∀ bytes, decodeSuperblock bytes = total (Dodb.decodeSuperblock bytes)) ∧
    (∀ slotA slotB, chooseSuperblock slotA slotB = total (Dodb.chooseSuperblock slotA slotB)) ∧
    (∀ bytes expectedPageId, decodePageAt bytes expectedPageId >>= decodePageData =
      total (Dodb.decodePageAt bytes expectedPageId >>= PageData.decode)) ∧
    (∀ identity file, file.length ≤ wordMax → scanWal identity file = total (Dodb.scanWal identity file)) ∧
    (∀ bytes, bytes.length ≤ sizeMax → decodeKey bytes = total (DocumentKey.decode bytes)) ∧
    (∀ frame limits, frame.length ≤ sizeMax →
      Protocol.decodeRequestFrame frame limits = total (Dodb.Protocol.decodeRequestFrame frame limits)) ∧
    ∀ frame expectedResponseType limits, frame.length ≤ sizeMax →
      Protocol.decodeResponseFrame frame expectedResponseType limits =
        total (Dodb.Protocol.decodeResponseFrame frame expectedResponseType limits) := by
  refine ⟨decodeSuperblock_eq, chooseSuperblock_eq, fun bytes expectedPageId => ?_, fun identity file => scanWal_eq identity,
    fun bytes => decodeKey_eq, fun frame limits hsize => Protocol.decodeRequestFrame_eq hsize limits,
    fun frame expected limits hsize => Protocol.decodeResponseFrame_eq hsize expected limits⟩
  rw [decodePageAt_eq]
  exact total_bind_eq fun page _ => decodePageData_eq page

/-- A leaf whose only slot points to a record that leaves the page; the header and the checksum are right. -/
def badSlotPage : Bytes :=
  (@encodePage castagnoli (PageHeader.new .leaf 2 5) (leafMagic ++ (le 2 layoutVersion ++ (le 2 1 ++ (le 2 40 ++
    (le 2 40 ++ (le 8 nullPageId ++ (zeros 12 ++ (le 2 4000 ++ (le 2 100 ++ (le 2 10 ++ zeros 2))))))))))).toOption.getD []

/-- A log with a page image of three bytes, in a frame whose checksums are right. -/
def badFrameLog : Bytes :=
  @frameBytes castagnoli (initFrame walFormatVersion sampleIdentity 4) ++
    @frameBytes castagnoli ⟨walFormatVersion, .pageImage, 5, 1, 0, [1, 2, 3]⟩

/-- A page with a bad slot, a log with a bad frame, an escape that is cut off and frames of one byte. -/
theorem decoders_never_panic_malformed :
    @decodePageAt castagnoli badSlotPage (some 2) >>= decodePageData =
      total (.error (.corruption "leaf record range is outside free space")) ∧
    @scanWal castagnoli sampleIdentity badFrameLog =
      total (.error (.corruption "WAL page-image payload has 3 bytes, expected 4104")) ∧
    decodeKey [0] = total (.error (.truncatedEscape 0)) ∧
    Protocol.decodeRequestFrame [0] {} = total (.error .truncatedHeader) ∧
    Protocol.decodeResponseFrame [0] none {} = total (.error .truncatedHeader) := by
  obtain ⟨_, _, hpage, hscan, hkey, hrequest, hresponse⟩ := @decoders_never_panic castagnoli
  have hslot : @Dodb.decodePageAt castagnoli badSlotPage (some 2) >>= PageData.decode =
      .error (.corruption "leaf record range is outside free space") := by decide +kernel
  have hframe : @Dodb.scanWal castagnoli sampleIdentity badFrameLog =
      .error (.corruption "WAL page-image payload has 3 bytes, expected 4104") := by decide +kernel
  refine ⟨(hpage _ _).trans (congrArg total hslot), (hscan _ _ (by decide +kernel)).trans (congrArg total hframe),
    (hkey [0] (by decide)).trans rfl, (hrequest [0] {} (by decide)).trans rfl, (hresponse [0] none {} (by decide)).trans rfl⟩

end Dodb.Malformed
