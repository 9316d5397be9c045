import Dodb.Protocol.Message

/-! The wire format: an eleven-byte header and a payload, big-endian, of length-prefixed byte
strings, counted lists and tagged cases.

What the source's `Writer` gets appended is the bytes an encoder answers here; its `Reader` is
`Lib.Reader`, whose input is what the source has not read yet. -/
namespace Dodb.Protocol
open Lib

abbrev Wire (α : Type) := Except ProtocolError α
abbrev Read := Lib.Reader ProtocolError

/-! ### Numbers and byte strings -/

def u32 (n : Nat) : Bytes := be 4 n
def u64 (n : Nat) : Bytes := be 8 n

def readU8 : Read UInt8 := Reader.byte .truncatedPayload
def readU32 : Read Nat := Reader.number .truncatedPayload 4
def readU64 : Read Nat := Reader.number .truncatedPayload 8

/-- A count or limit: a number of at most `maximum`. -/
def encodeCount (count maximum : Nat) : Wire Bytes := do
  ensure (count ≤ maximum) (.payloadTooLarge count maximum)
  ensure (count ≤ u32Max) .lengthOverflow
  pure (u32 count)

def readCount (maximum : Nat) : Read Nat := do
  let count ← readU32
  Reader.ofExcept (ensure (count ≤ maximum) (.payloadTooLarge count maximum))
  pure count

/-- Bytes with their length in front. -/
def encodeBytes (bytes : Bytes) (maximum : Nat) : Wire Bytes := do
  ensure (bytes.length ≤ maximum) (.payloadTooLarge bytes.length maximum)
  ensure (bytes.length ≤ u32Max) .lengthOverflow
  pure (u32 bytes.length ++ bytes)

def readBytes (maximum : Nat) : Read Bytes := do
  let length ← readU32
  Reader.ofExcept (ensure (length ≤ maximum) (.payloadTooLarge length maximum))
  Reader.take .truncatedPayload length

def readFlag : Read Bool := do
  let flag ← readU8
  if flag = 0 then pure false else if flag = 1 then pure true else Reader.fail (.invalidFlag flag)

/-- A flag, and the value if there is one. -/
def encodeOptional {α : Type} (encode : α → Wire Bytes) : Option α → Wire Bytes
  | some a => do
    let bytes ← encode a
    pure (1 :: bytes)
  | none => pure [0]

def readOptional {α : Type} (read : Read α) : Read (Option α) := do
  let flag ← readFlag
  if flag then
    let a ← read
    pure (some a)
  else pure none

/-- A counted list. -/
def encodeList {α : Type} (encode : α → Wire Bytes) (maximum : Nat) (list : List α) : Wire Bytes := do
  let count ← encodeCount list.length maximum
  let elements ← writeMany encode list
  pure (count ++ elements)

/-- A count, and that many values. -/
def readList {α : Type} (read : Read α) (maximum : Nat) : Read (List α) := do
  let count ← readCount maximum
  read.many count

/-! ### Keys -/

section Limited
variable (limits : ProtocolLimits)

/-- The key fits what the storage engine takes. -/
def validateKeyParts (pk : PrimaryKey) (sk : SortKey) : Wire Unit :=
  let encodedLength := (DocumentKey.mk pk sk).encodedLen
  ensure (encodedLength ≤ limits.maxEncodedKeySize) (.keyTooLarge encodedLength limits.maxEncodedKeySize)

def encodeKey (key : DocumentKey) : Wire Bytes := do
  validateKeyParts limits key.pk key.sk
  let pk ← encodeBytes key.pk limits.maxKeyComponentSize
  let sk ← encodeBytes key.sk limits.maxKeyComponentSize
  pure (pk ++ sk)

def decodeKey : Read DocumentKey := do
  let pk ← readBytes limits.maxKeyComponentSize
  let sk ← readBytes limits.maxKeyComponentSize
  Reader.ofExcept (validateKeyParts limits pk sk)
  pure ⟨pk, sk⟩

/-! ### Requests -/

def encodeCondition : TransactionCondition → Wire Bytes
  | .revisionEquals key expectedRevision => do
    let bytes ← encodeKey limits key
    pure (0 :: (bytes ++ u64 expectedRevision))
  | .exists key => do
    let bytes ← encodeKey limits key
    pure (1 :: bytes)
  | .notExists key => do
    let bytes ← encodeKey limits key
    pure (2 :: bytes)

/-- The key is read before the kind is looked at. -/
def decodeCondition : Read TransactionCondition := do
  let kind ← readU8
  let key ← decodeKey limits
  if kind = 0 then
    let expectedRevision ← readU64
    pure (.revisionEquals key expectedRevision)
  else if kind = 1 then pure (.exists key)
  else if kind = 2 then pure (.notExists key)
  else Reader.fail (.invalidExpectation kind)

def encodeMutation : TransactionMutation → Wire Bytes
  | .put key value => do
    let bytes ← encodeKey limits key
    let value ← encodeBytes value limits.maxValueSize
    pure (0 :: (bytes ++ value))
  | .delete key => do
    let bytes ← encodeKey limits key
    pure (1 :: bytes)

def decodeMutation : Read TransactionMutation := do
  let kind ← readU8
  let key ← decodeKey limits
  if kind = 0 then
    let value ← readBytes limits.maxValueSize
    pure (.put key value)
  else if kind = 1 then pure (.delete key)
  else Reader.fail (.invalidOpcode kind)

/-- What follows a request's opcode. -/
def encodeRequestBody : Request → Wire Bytes
  | .get key => encodeKey limits key
  | .put key value => do
    let key ← encodeKey limits key
    let value ← encodeBytes value limits.maxValueSize
    pure (key ++ value)
  | .delete key => encodeKey limits key
  | .query pk exclusiveAfterSk limit => do
    validateKeyParts limits pk (exclusiveAfterSk.getD [])
    let pk ← encodeBytes pk limits.maxKeyComponentSize
    let sk ← encodeOptional (encodeBytes · limits.maxKeyComponentSize) exclusiveAfterSk
    let limit ← encodeCount limit limits.maxQueryLimit
    pure (pk ++ (sk ++ limit))
  | .scan exclusiveAfterKey limit => do
    let key ← encodeOptional (encodeKey limits) exclusiveAfterKey
    let limit ← encodeCount limit limits.maxScanLimit
    pure (key ++ limit)
  | .transact request => do
    let conditions ← encodeList (encodeCondition limits) limits.maxConditions request.conditions
    let mutations ← encodeList (encodeMutation limits) limits.maxMutations request.mutations
    pure (conditions ++ mutations)

def encodeRequestPayload (request : Request) : Wire Bytes := do
  let body ← encodeRequestBody limits request
  pure (requestOpcode request :: body)

def decodeRequestPayload : Read Request := do
  let opcode ← readU8
  if opcode = 1 then
    let key ← decodeKey limits
    pure (.get key)
  else if opcode = 2 then
    let key ← decodeKey limits
    let value ← readBytes limits.maxValueSize
    pure (.put key value)
  else if opcode = 3 then
    let key ← decodeKey limits
    pure (.delete key)
  else if opcode = 4 then
    let pk ← readBytes limits.maxKeyComponentSize
    let exclusiveAfterSk ← readOptional (readBytes limits.maxKeyComponentSize)
    Reader.ofExcept (validateKeyParts limits pk (exclusiveAfterSk.getD []))
    let limit ← readCount limits.maxQueryLimit
    pure (.query pk exclusiveAfterSk limit)
  else if opcode = 5 then
    let exclusiveAfterKey ← readOptional (decodeKey limits)
    let limit ← readCount limits.maxScanLimit
    pure (.scan exclusiveAfterKey limit)
  else if opcode = 8 then
    let conditions ← readList (decodeCondition limits) limits.maxConditions
    let mutations ← readList (decodeMutation limits) limits.maxMutations
    pure (.transact ⟨conditions, mutations⟩)
  else Reader.fail (.invalidOpcode opcode)

/-! ### Responses -/

def encodeRevisionState : RevisionState → Wire Bytes
  | .present value revision => do
    let value ← encodeBytes value limits.maxValueSize
    pure (0 :: (value ++ u64 revision))
  | .missing revision => pure (1 :: u64 revision)

def decodeRevisionState : Read RevisionState := do
  let state ← readU8
  if state = 0 then
    let value ← readBytes limits.maxValueSize
    let revision ← readU64
    pure (.present value revision)
  else if state = 1 then
    let revision ← readU64
    pure (.missing revision)
  else Reader.fail (.invalidRevisionState state)

def encodeDocument (document : Document) : Wire Bytes := do
  let key ← encodeKey limits document.key
  let value ← encodeBytes document.value limits.maxValueSize
  pure (key ++ (value ++ u64 document.revision))

def decodeDocument : Read Document := do
  let key ← decodeKey limits
  let value ← readBytes limits.maxValueSize
  let revision ← readU64
  pure ⟨key, value, revision⟩

def encodeTransactionOutcome (outcome : TransactionOutcome) : Bytes :=
  match outcome.commitLsn with
  | some commitLsn => 1 :: u64 commitLsn
  | none => [0]

def decodeTransactionOutcome : Read TransactionOutcome := do
  let flag ← readU8
  if flag = 0 then pure ⟨none⟩
  else if flag = 1 then
    let commitLsn ← readU64
    pure ⟨some commitLsn⟩
  else Reader.fail (.invalidFlag flag)

/-- Queries and scans are both held to the scan limit. -/
def encodeResponsePayload : Response → Wire Bytes
  | .get state => encodeRevisionState limits state
  | .put revision => pure (u64 revision)
  | .delete revision => pure (u64 revision)
  | .query documents => encodeList (encodeDocument limits) limits.maxScanLimit documents
  | .scan documents => encodeList (encodeDocument limits) limits.maxScanLimit documents
  | .transact outcome => pure (encodeTransactionOutcome outcome)

def decodeResponsePayload (opcode : UInt8) : Read Response :=
  if opcode = 1 then do
    let state ← decodeRevisionState limits
    pure (.get state)
  else if opcode = 2 then do
    let revision ← readU64
    pure (.put revision)
  else if opcode = 3 then do
    let revision ← readU64
    pure (.delete revision)
  else if opcode = 4 then do
    let documents ← readList (decodeDocument limits) limits.maxScanLimit
    pure (.query documents)
  else if opcode = 5 then do
    let documents ← readList (decodeDocument limits) limits.maxScanLimit
    pure (.scan documents)
  else if opcode = 8 then do
    let outcome ← decodeTransactionOutcome
    pure (.transact outcome)
  else Reader.fail (.invalidOpcode opcode)

/-! ### Errors -/

def applicationErrorKindCode : ApplicationErrorKind → UInt8
  | .invalidRequest => 0
  | .overloaded => 1
  | .conflict => 2
  | .storageFailure => 3
  | .corruption => 4
  | .durabilityFailure => 5
  | .internal => 6
  | .unsupportedProtocol => 7
  | .responseTooLarge => 8

def applicationErrorKind (code : UInt8) : Wire ApplicationErrorKind :=
  if code = 0 then .ok .invalidRequest
  else if code = 1 then .ok .overloaded
  else if code = 2 then .ok .conflict
  else if code = 3 then .ok .storageFailure
  else if code = 4 then .ok .corruption
  else if code = 5 then .ok .durabilityFailure
  else if code = 6 then .ok .internal
  else if code = 7 then .ok .unsupportedProtocol
  else if code = 8 then .ok .responseTooLarge
  else .error (.invalidErrorKind code)

def mutationOutcomeCode : MutationOutcome → UInt8
  | .notApplicable => 0
  | .notApplied => 1
  | .unknown => 2

def mutationOutcome (code : UInt8) : Wire MutationOutcome :=
  if code = 0 then .ok .notApplicable
  else if code = 1 then .ok .notApplied
  else if code = 2 then .ok .unknown
  else .error (.invalidFlag code)

def encodeObservedState : ObservedState → Bytes
  | .present revision => 0 :: u64 revision
  | .missing revision => 1 :: u64 revision

def decodeObservedState : Read ObservedState := do
  let state ← readU8
  if state = 0 then
    let revision ← readU64
    pure (.present revision)
  else if state = 1 then
    let revision ← readU64
    pure (.missing revision)
  else Reader.fail (.invalidRevisionState state)

def encodeExpectation : ConditionExpectation → Bytes
  | .revisionEquals revision => 0 :: u64 revision
  | .exists => [1]
  | .notExists => [2]

def decodeExpectation : Read ConditionExpectation := do
  let kind ← readU8
  if kind = 0 then
    let revision ← readU64
    pure (.revisionEquals revision)
  else if kind = 1 then pure .exists
  else if kind = 2 then pure .notExists
  else Reader.fail (.invalidExpectation kind)

def encodeConflict (conflict : ConflictDetails) : Wire Bytes := do
  let key ← encodeKey limits conflict.key
  pure (key ++ (encodeExpectation conflict.expected ++ encodeObservedState conflict.actual))

def decodeConflict : Read ConflictDetails := do
  let key ← decodeKey limits
  let expected ← decodeExpectation
  let actual ← decodeObservedState
  pure ⟨key, expected, actual⟩

def utf8 (s : String) : Bytes := s.toUTF8.data.toList

/-- The text with these bytes, if they are one. -/
def fromUtf8 (bytes : Bytes) : Wire String :=
  match String.fromUTF8? ⟨bytes.toArray⟩ with
  | some s => .ok s
  | none => .error .invalidUtf8

/-- The first `count` characters of a text. -/
def takeChars (count : Nat) (s : String) : String := String.ofList (s.toList.take count)

/-- The detail is cut to a number of characters and then held to the same number of bytes. -/
def encodeApplicationError (error : ApplicationError) : Wire Bytes := do
  let detail ← encodeBytes (utf8 (takeChars limits.maxErrorDetailSize error.detail)) limits.maxErrorDetailSize
  let conflict ← encodeOptional (encodeConflict limits) error.conflict
  pure (applicationErrorKindCode error.kind :: (detail ++ (mutationOutcomeCode error.mutationOutcome :: conflict)))

def decodeApplicationError : Read ApplicationError := do
  let kindCode ← readU8
  let kind ← Reader.ofExcept (applicationErrorKind kindCode)
  let bytes ← readBytes limits.maxErrorDetailSize
  let detail ← Reader.ofExcept (fromUtf8 bytes)
  let outcomeCode ← readU8
  let outcome ← Reader.ofExcept (mutationOutcome outcomeCode)
  let conflict ← readOptional (decodeConflict limits)
  pure ⟨kind, detail, outcome, conflict⟩

end Limited

/-! ### Frames -/

def magic : Bytes := [0x44, 0x4f, 0x44, 0x42]
def protocolVersion : Nat := 1
def requestMessageType : UInt8 := 1
def responseMessageType : UInt8 := 2

/-- What a frame says of itself before its payload. -/
structure FrameHeader where
  version : Nat
  messageType : UInt8
  payloadLength : Nat
  deriving DecidableEq, Repr

def decodeHeader (bytes : Bytes) : Wire FrameHeader := do
  ensure (headerSize ≤ bytes.length) .truncatedHeader
  ensure (bytes.take 4 = magic) .invalidMagic
  let version := ofBe (slice bytes 4 2)
  ensure (version = protocolVersion) (.unsupportedVersion version)
  let messageType := bytes.getD 6 0
  ensure (messageType = requestMessageType ∨ messageType = responseMessageType) (.unknownMessageType messageType)
  pure ⟨version, messageType, ofBe (slice bytes 7 4)⟩

/-- The header and the payload, if the frame may be that long. -/
def encodeFrame (messageType : UInt8) (payload : Bytes) (maximumFrameSize : Nat) : Wire Bytes := do
  let frameLength := headerSize + payload.length
  ensure (frameLength ≤ u64Max) .lengthOverflow
  ensure (frameLength ≤ maximumFrameSize) (.payloadTooLarge frameLength maximumFrameSize)
  ensure (payload.length ≤ u32Max) .lengthOverflow
  pure (magic ++ (be 2 protocolVersion ++ (messageType :: (be 4 payload.length ++ payload))))

/-- The payload is as long as the header says, and within the limit. -/
def validatePayloadLength (header : FrameHeader) (payload : Bytes) (maximumFrameSize : Nat) : Wire Unit := do
  let frameLength := headerSize + header.payloadLength
  ensure (frameLength ≤ u64Max) .lengthOverflow
  ensure (frameLength ≤ maximumFrameSize) (.payloadTooLarge frameLength maximumFrameSize)
  ensure (payload.length = header.payloadLength)
    (if payload.length < header.payloadLength then .truncatedPayload else .trailingBytes)

/-- The header of a frame and its payload, which is as long as the header says. -/
def splitFrame (frame : Bytes) : Wire (FrameHeader × Bytes) := do
  ensure (headerSize ≤ frame.length) .truncatedHeader
  let header ← decodeHeader (frame.take headerSize)
  ensure (frame.length = headerSize + header.payloadLength)
    (if frame.length < headerSize + header.payloadLength then .truncatedPayload else .trailingBytes)
  pure (header, frame.drop headerSize)

/-- The frame of a request for a tenant. -/
def encodeRequest (tenant : TenantId) (request : Request) (limits : ProtocolLimits) : Wire Bytes := do
  limits.validate
  let body ← encodeRequestPayload limits request
  encodeFrame requestMessageType (u64 tenant.toNat ++ body) limits.maxRequestFrameSize

def readRequest (limits : ProtocolLimits) : Read (TenantId × Request) := do
  let tenant ← readU64
  let request ← decodeRequestPayload limits
  pure (UInt64.ofNat tenant, request)

/-- The request of a frame that has arrived whole. -/
def decodeRequestParts (header : FrameHeader) (payload : Bytes) (limits : ProtocolLimits) :
    Wire (TenantId × Request) := do
  limits.validate
  validatePayloadLength header payload limits.maxRequestFrameSize
  ensure (header.messageType = requestMessageType) (.unknownMessageType header.messageType)
  (readRequest limits).whole .trailingBytes payload

def decodeRequestFrame (frame : Bytes) (limits : ProtocolLimits) : Wire (TenantId × Request) := do
  let (header, payload) ← splitFrame frame
  decodeRequestParts header payload limits

def encodeEnvelope (limits : ProtocolLimits) : ResponseEnvelope → Wire Bytes
  | .success response => do
    let body ← encodeResponsePayload limits response
    pure (0 :: responseOpcode response :: body)
  | .error error => do
    let body ← encodeApplicationError limits error
    pure (1 :: body)

/-- The frame of a response or of an error. -/
def encodeResponse (response : ResponseEnvelope) (limits : ProtocolLimits) : Wire Bytes := do
  limits.validate
  let payload ← encodeEnvelope limits response
  encodeFrame responseMessageType payload limits.maxResponseFrameSize

def readEnvelope (expectedResponseType : Option UInt8) (limits : ProtocolLimits) : Read ResponseEnvelope := do
  let status ← readU8
  if status = 0 then
    let actual ← readU8
    Reader.ofExcept (match expectedResponseType with
      | some expected => ensure (actual = expected) (.invalidResponseType expected actual)
      | none => .ok ())
    let response ← decodeResponsePayload limits actual
    pure (.success response)
  else if status = 1 then
    let error ← decodeApplicationError limits
    pure (.error error)
  else Reader.fail (.invalidStatus status)

/-- The response of a frame, which must answer the request that was sent. -/
def decodeResponseParts (header : FrameHeader) (payload : Bytes) (expectedResponseType : Option UInt8)
    (limits : ProtocolLimits) : Wire ResponseEnvelope := do
  limits.validate
  validatePayloadLength header payload limits.maxResponseFrameSize
  ensure (header.messageType = responseMessageType) (.unknownMessageType header.messageType)
  (readEnvelope expectedResponseType limits).whole .trailingBytes payload

def decodeResponseFrame (frame : Bytes) (expectedResponseType : Option UInt8) (limits : ProtocolLimits) :
    Wire ResponseEnvelope := do
  let (header, payload) ← splitFrame frame
  decodeResponseParts header payload expectedResponseType limits

end Dodb.Protocol
