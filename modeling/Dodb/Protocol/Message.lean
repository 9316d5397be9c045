import Dodb.Core.Transaction
import Dodb.Lib.Codec

/-! What client and server say to each other: requests and responses, the limits both enforce,
and the errors each side reports. -/
namespace Dodb.Protocol
open Lib

/-! ### Requests and responses -/

/-- What a client asks for. -/
inductive Request where
  | get (key : DocumentKey)
  | put (key : DocumentKey) (value : Bytes)
  | delete (key : DocumentKey)
  | query (pk : PrimaryKey) (exclusiveAfterSk : Option SortKey) (limit : Nat)
  | scan (exclusiveAfterKey : Option DocumentKey) (limit : Nat)
  | transact (request : TransactionRequest)
  deriving DecidableEq, Repr

def Request.isMutation : Request → Bool
  | .put _ _ => true
  | .delete _ => true
  | .transact request => !request.mutations.isEmpty
  | .get _ => false
  | .query _ _ _ => false
  | .scan _ _ => false

/-- The commit of a transaction, if it had mutations. -/
structure TransactionOutcome where
  commitLsn : Option Lsn
  deriving DecidableEq, Repr

/-- What the service answers, by the kind of the request. -/
inductive Response where
  | get (state : RevisionState)
  | put (revision : Revision)
  | delete (revision : Revision)
  | query (documents : List Document)
  | scan (documents : List Document)
  | transact (outcome : TransactionOutcome)
  deriving DecidableEq, Repr

def requestOpcode : Request → UInt8
  | .get _ => 1
  | .put _ _ => 2
  | .delete _ => 3
  | .query _ _ _ => 4
  | .scan _ _ => 5
  | .transact _ => 8

def responseOpcode : Response → UInt8
  | .get _ => 1
  | .put _ => 2
  | .delete _ => 3
  | .query _ => 4
  | .scan _ => 5
  | .transact _ => 8

/-! ### Protocol errors -/

/-- Why bytes are not a frame, or a value cannot be made one. -/
inductive ProtocolError where
  | invalidLimits
  | truncatedHeader
  | invalidMagic
  | unsupportedVersion (version : Nat)
  | unknownMessageType (messageType : UInt8)
  | truncatedPayload
  | trailingBytes
  | payloadTooLarge (length maximum : Nat)
  | keyTooLarge (length maximum : Nat)
  | lengthOverflow
  | invalidOpcode (opcode : UInt8)
  | invalidStatus (status : UInt8)
  | invalidFlag (flag : UInt8)
  | invalidResponseType (expected actual : UInt8)
  | invalidErrorKind (kind : UInt8)
  | invalidExpectation (expectation : UInt8)
  | invalidRevisionState (state : UInt8)
  | invalidUtf8
  deriving DecidableEq, Repr

namespace ProtocolError

def display : ProtocolError → String
  | invalidLimits => "protocol limits are invalid"
  | truncatedHeader => "truncated frame header"
  | invalidMagic => "invalid frame magic"
  | unsupportedVersion version => s!"unsupported protocol version {version}"
  | unknownMessageType messageType => s!"unknown message type {messageType}"
  | truncatedPayload => "truncated frame payload"
  | trailingBytes => "unexpected trailing bytes"
  | payloadTooLarge length maximum => s!"payload length {length} exceeds maximum {maximum}"
  | keyTooLarge length maximum => s!"encoded key length {length} exceeds maximum {maximum}"
  | lengthOverflow => "length conversion overflow"
  | invalidOpcode opcode => s!"invalid operation opcode {opcode}"
  | invalidStatus status => s!"invalid response status {status}"
  | invalidFlag flag => s!"invalid boolean flag {flag}"
  | invalidResponseType expected actual => s!"response type {actual} does not match expected type {expected}"
  | invalidErrorKind kind => s!"invalid application error kind {kind}"
  | invalidExpectation expectation => s!"invalid transaction expectation {expectation}"
  | invalidRevisionState state => s!"invalid revision state {state}"
  | invalidUtf8 => "invalid UTF-8 error detail"

end ProtocolError

/-! ### Limits -/

def headerSize : Nat := 11
def maxStorageValueSize : Nat := 64 * 1024 * 1024
def maxStorageKeyComponentSize : Nat := 3990
def maxStorageEncodedKeySize : Nat := 3992

/-- What both sides hold frames to. -/
structure ProtocolLimits where
  maxRequestFrameSize : Nat := 68 * 1024 * 1024
  maxResponseFrameSize : Nat := 68 * 1024 * 1024
  maxKeyComponentSize : Nat := maxStorageKeyComponentSize
  maxEncodedKeySize : Nat := maxStorageEncodedKeySize
  maxValueSize : Nat := maxStorageValueSize
  maxKeys : Nat := 4096
  maxConditions : Nat := 256
  maxMutations : Nat := 256
  maxQueryLimit : Nat := 4096
  maxScanLimit : Nat := 4096
  maxErrorDetailSize : Nat := 4096
  deriving DecidableEq, Repr

/-- Limits that a server can be started with. -/
def ProtocolLimits.validate (limits : ProtocolLimits) : Except ProtocolError Unit := do
  ensure (¬(limits.maxRequestFrameSize < headerSize ∨ limits.maxResponseFrameSize < headerSize ∨
    limits.maxKeyComponentSize = 0 ∨ limits.maxEncodedKeySize = 0 ∨ limits.maxValueSize = 0 ∨
    limits.maxKeys = 0 ∨ limits.maxConditions = 0 ∨ limits.maxMutations = 0 ∨ limits.maxQueryLimit = 0 ∨
    limits.maxScanLimit = 0 ∨ limits.maxErrorDetailSize = 0)) .invalidLimits
  ensure (¬(limits.maxKeyComponentSize > maxStorageKeyComponentSize ∨
    limits.maxEncodedKeySize > maxStorageEncodedKeySize ∨ limits.maxValueSize > maxStorageValueSize)) .invalidLimits

/-- The limits both sides start from pass their own check. -/
theorem validate_default : ({} : ProtocolLimits).validate = .ok () := by decide

/-! ### Application errors -/

/-- The errors a client can tell apart. -/
inductive ApplicationErrorKind where
  | invalidRequest
  | overloaded
  | conflict
  | responseTooLarge
  | storageFailure
  | corruption
  | durabilityFailure
  | internal
  | unsupportedProtocol
  deriving DecidableEq, Repr

/-- What the server says of a mutation it reports an error for. -/
inductive MutationOutcome where
  | notApplicable
  | notApplied
  | unknown
  deriving DecidableEq, Repr

/-- A conflict, as it is sent. -/
structure ConflictDetails where
  key : DocumentKey
  expected : ConditionExpectation
  actual : ObservedState
  deriving DecidableEq, Repr

/-- An error of the service, as it is sent. -/
structure ApplicationError where
  kind : ApplicationErrorKind
  detail : String
  mutationOutcome : MutationOutcome
  conflict : Option ConflictDetails
  deriving DecidableEq, Repr

namespace ApplicationError

/-- The kind of an error, and what it says of a mutation. -/
def fromCore : Error → ApplicationError
  | .invalidInput detail => ⟨.invalidRequest, detail, .notApplied, none⟩
  | .invalidRequest detail => ⟨.invalidRequest, detail, .notApplied, none⟩
  | .overloaded detail => ⟨.overloaded, detail, .notApplied, none⟩
  | .conflict conflict => ⟨.conflict, "transaction condition conflict", .notApplied,
      some ⟨conflict.key, conflict.expected, conflict.actual⟩⟩
  | .responseTooLarge detail => ⟨.responseTooLarge, detail, .notApplied, none⟩
  | .corruption detail => ⟨.corruption, detail, .unknown, none⟩
  | .io error => ⟨.storageFailure, error, .unknown, none⟩
  | .unsupportedFormat detail => ⟨.storageFailure, detail, .unknown, none⟩
  | .recoveryFailure detail => ⟨.storageFailure, detail, .unknown, none⟩
  | .checkpointFailure detail => ⟨.storageFailure, detail, .unknown, none⟩
  | .durabilityFailure detail => ⟨.durabilityFailure, detail, .unknown, none⟩
  | .internalInvariantViolation detail => ⟨.internal, detail, .unknown, none⟩

def fromCoreForRequest (error : Error) (isMutation : Bool) : ApplicationError :=
  if isMutation then fromCore error else {fromCore error with mutationOutcome := .notApplicable}

/-- A frame that was refused: nothing was applied. -/
def fromProtocol (error : ProtocolError) : ApplicationError :=
  let kind := match error with
    | .unsupportedVersion _ => ApplicationErrorKind.unsupportedProtocol
    | .unknownMessageType _ => .unsupportedProtocol
    | _ => .invalidRequest
  ⟨kind, error.display, .notApplied, none⟩

end ApplicationError

/-- A response or an error. -/
inductive ResponseEnvelope where
  | success (response : Response)
  | error (error : ApplicationError)
  deriving DecidableEq, Repr

end Dodb.Protocol
