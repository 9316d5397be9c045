import Dodb.Protocol.Sizes

/-! One request on one stream: what the server writes back, and what the client makes of it.

The stream itself is the transport's. A side that gets fewer bytes than it asks for gets the
transport's error, whose text is the parameter `transportError`. -/
namespace Dodb.Protocol
open Lib
variable {limits : ProtocolLimits} {transportError : String}

/-! ### The server -/

/-- The frame that is sent in place of what could not be; nothing if it cannot be sent either. -/
def sendProtocolError (error : ProtocolError) (limits : ProtocolLimits) : Option Bytes :=
  match encodeResponse (.error (ApplicationError.fromProtocol error)) limits with
  | .ok response => some response
  | .error _ => none

/-- What the server sends for a result of the service. -/
def envelopeOf (isMutation : Bool) : Result Response → ResponseEnvelope
  | .ok response => .success response
  | .error error => .error (ApplicationError.fromCoreForRequest error isMutation)

/-- The bytes sent for what the service answered. -/
def sendResult (isMutation : Bool) (result : Result Response) (limits : ProtocolLimits) : Option Bytes :=
  match encodeResponse (envelopeOf isMutation result) limits with
  | .ok encoded => some encoded
  | .error error => sendProtocolError error limits

/-- `received` is all the client sends; `execute` is the service, which is given the response budget. -/
def serveStream (execute : TenantId → Request → Nat → Result Response) (limits : ProtocolLimits)
    (received : Bytes) : Option Bytes :=
  if received.length < headerSize then none
  else match decodeHeader (received.take headerSize) with
    | .error error => sendProtocolError error limits
    | .ok header =>
      let frameLength := saturatingAdd headerSize header.payloadLength
      if frameLength > limits.maxRequestFrameSize then
        sendProtocolError (.payloadTooLarge frameLength limits.maxRequestFrameSize) limits
      -- too few bytes for the payload, or bytes after it: the stream is dropped
      else if received.length ≠ headerSize + header.payloadLength then none
      else match decodeRequestParts header (received.drop headerSize) limits with
        | .error error => sendProtocolError error limits
        | .ok (tenant, request) =>
          sendResult request.isMutation (execute tenant request limits.maxResponseFrameSize) limits

/-! ### The client -/

/-- What the caller of the client is told. -/
inductive ClientError where
  | transport (detail : String)
  | protocol (error : ProtocolError)
  | application (error : ApplicationError)
  | unknownMutationOutcome (detail : String) (cause : Option ApplicationError)
  deriving DecidableEq

/-- For a mutation, its outcome is unknown; a read has only failed. -/
def uncertainMutation (mutation : Bool) (detail : String) : ClientError :=
  if mutation then .unknownMutationOutcome detail none else .transport detail

def uncertainProtocol (mutation : Bool) (error : ProtocolError) : ClientError :=
  if mutation then .unknownMutationOutcome error.display none else .protocol error

/-- What a decoded response is to the caller. -/
def interpret (mutation : Bool) : ResponseEnvelope → Except ClientError Response
  | .success response => .ok response
  | .error error =>
    if mutation ∧ error.mutationOutcome = .unknown then
      .error (.unknownMutationOutcome error.detail (some error))
    else .error (.application error)

/-- `reply` is all the server sends, if it sends anything. -/
def executeOnConnection (limits : ProtocolLimits) (transportError : String) (mutation : Bool)
    (expectedResponseType : UInt8) (reply : Option Bytes) : Except ClientError Response :=
  let bytes := reply.getD []
  if bytes.length < headerSize then
    .error (uncertainMutation mutation s!"response header failed: {transportError}")
  else match decodeHeader (bytes.take headerSize) with
    | .error error => .error (uncertainProtocol mutation error)
    | .ok header =>
      let frameLength := saturatingAdd headerSize header.payloadLength
      if frameLength > limits.maxResponseFrameSize then
        .error (uncertainProtocol mutation (.payloadTooLarge frameLength limits.maxResponseFrameSize))
      else if bytes.length < headerSize + header.payloadLength then
        .error (uncertainMutation mutation s!"response payload failed: {transportError}")
      else if headerSize + header.payloadLength < bytes.length then
        .error (uncertainProtocol mutation .trailingBytes)
      else match decodeResponseParts header (bytes.drop headerSize) (some expectedResponseType) limits with
        | .error error => .error (uncertainProtocol mutation error)
        | .ok envelope => interpret mutation envelope

/-- A request on a connection to the server `serve`. -/
def execute (limits : ProtocolLimits) (transportError : String) (tenant : TenantId) (request : Request)
    (serve : Bytes → Option Bytes) : Except ClientError Response :=
  match encodeRequest tenant request limits with
  | .error error => .error (.protocol error)
  | .ok frame =>
    executeOnConnection limits transportError request.isMutation (requestOpcode request) (serve frame)

/-! ### What the client reads -/

/-- The caller is told that its mutation was not applied. -/
def ToldNotApplied (outcome : Except ClientError Response) : Prop :=
  ∃ error, outcome = .error (.application error) ∧ error.mutationOutcome = .notApplied

theorem splitFrame_of_header {bytes : Bytes} {header : FrameHeader} (hlong : ¬bytes.length < headerSize)
    (hheader : decodeHeader (bytes.take headerSize) = .ok header)
    (hlength : bytes.length = headerSize + header.payloadLength) :
    splitFrame bytes = .ok (header, bytes.drop headerSize) := by
  rw [splitFrame, ensure_pos (not_lt.mp hlong), except_ok_bind, hheader, except_ok_bind, ensure_pos hlength]
  rfl

/-- A mutation is told to be not applied only by a frame that decodes to an error saying so. -/
theorem decoded_of_told {expected : UInt8} {reply : Option Bytes}
    (h : ToldNotApplied (executeOnConnection limits transportError true expected reply)) :
    ∃ error, decodeResponseFrame (reply.getD []) (some expected) limits = .ok (.error error) ∧
      error.mutationOutcome = .notApplied := by
  obtain ⟨error, heq, houtcome⟩ := h
  unfold executeOnConnection at heq
  generalize reply.getD [] = bytes at heq ⊢
  dsimp only at heq
  split at heq
  · cases heq
  rename_i hlong
  split at heq
  · cases heq
  rename_i header hheader
  split at heq
  · cases heq
  split at heq
  · cases heq
  split at heq
  · cases heq
  rename_i hge hle
  split at heq
  · cases heq
  rename_i envelope hparts
  have hsplit := splitFrame_of_header hlong hheader (by omega)
  cases envelope with
  | success response => cases heq
  | error error' =>
    by_cases hunknown : error'.mutationOutcome = .unknown
    · rw [interpret, if_pos ⟨rfl, hunknown⟩] at heq
      cases heq
    · rw [interpret, if_neg fun h => hunknown h.2] at heq
      cases heq
      refine ⟨error, ?_, houtcome⟩
      rw [decodeResponseFrame, hsplit, except_ok_bind]
      exact hparts

theorem executeOnConnection_of_decoded {mutation : Bool} {expected : UInt8} {frame : Bytes}
    {envelope : ResponseEnvelope} (h : decodeResponseFrame frame (some expected) limits = .ok envelope) :
    executeOnConnection limits transportError mutation expected (some frame) = interpret mutation envelope := by
  simp only [decodeResponseFrame, splitFrame, except_bind_eq_ok, ensure_eq_ok, except_pure_eq_ok] at h
  obtain ⟨⟨header, payload⟩, ⟨_, hlong, header', hheader, _, hlength, hpair⟩, hparts⟩ := h
  cases hpair
  have hvalid : headerSize + header.payloadLength ≤ u64Max ∧
      headerSize + header.payloadLength ≤ limits.maxResponseFrameSize := by
    simp only [decodeResponseParts, validatePayloadLength, except_bind_eq_ok, ensure_eq_ok] at hparts
    obtain ⟨_, -, _, ⟨_, hu64, _, hmax, -⟩, -⟩ := hparts
    exact ⟨hu64, hmax⟩
  have hframe : ¬saturatingAdd headerSize header.payloadLength > limits.maxResponseFrameSize := by
    rw [saturatingAdd, Nat.min_eq_left hvalid.1]
    exact hvalid.2.not_gt
  unfold executeOnConnection
  dsimp only [Option.getD_some]
  rw [if_neg hlong.not_gt, hheader]
  dsimp only
  rw [if_neg hframe, if_neg hlength.ge.not_gt, if_neg hlength.le.not_gt, hparts]

/-! ### What the client is told -/

/-- The error a decoder finds in the frame of `error`: the detail is the part that was sent. -/
def ApplicationError.sent (limits : ProtocolLimits) (error : ApplicationError) : ApplicationError :=
  {error with detail := takeChars limits.maxErrorDetailSize error.detail}

theorem takeChars_takeChars (count : Nat) (s : String) : takeChars count (takeChars count s) = takeChars count s := by
  simp [takeChars, List.take_take]

theorem decodeResponseFrame_error (hlimits : limits.validate = .ok ())
    {error : ApplicationError} (hfits : ∀ conflict ∈ error.conflict, conflict.Fits) {frame : Bytes}
    (hencode : encodeResponse (.error error) limits = .ok frame) (expected : Option UInt8) :
    decodeResponseFrame frame expected limits = .ok (.error (error.sent limits)) := by
  have hsame : encodeEnvelope limits (.error (error.sent limits)) = encodeEnvelope limits (.error error) := by
    simp only [encodeEnvelope, encodeApplicationError, ApplicationError.sent, takeChars_takeChars]
  obtain ⟨⟨hwithin, -⟩, -⟩ := (sized_response hlimits).admits hencode
  have hdetail : (utf8 (error.sent limits).detail).length ≤ limits.maxErrorDetailSize :=
    ErrorWithin.detail hwithin
  refine (decodeResponseFrame_eq_ok hlimits).mpr ⟨⟨⟨hdetail, hfits⟩, True.intro⟩, ?_⟩
  rw [← hencode, encodeResponse, encodeResponse, hsame]

/-- A success never decodes to an error. -/
theorem decodeResponseFrame_success (hlimits : limits.validate = .ok ()) {response : Response} {frame : Bytes}
    (hencode : encodeResponse (.success response) limits = .ok frame) {expected : Option UInt8}
    {error : ApplicationError} : decodeResponseFrame frame expected limits ≠ .ok (.error error) := by
  intro hdecode
  obtain ⟨-, herror⟩ := (decodeResponseFrame_eq_ok hlimits).mp hdecode
  simp only [encodeResponse, encodeEnvelope, except_bind_eq_ok, except_pure_eq_ok] at hencode herror
  obtain ⟨_, -, _, ⟨body, -, rfl⟩, hframe⟩ := hencode
  obtain ⟨_, -, _, ⟨body', -, rfl⟩, hframe'⟩ := herror
  obtain ⟨header, hsplit, -⟩ := (frame_canonical (.inr rfl)).mp hframe
  obtain ⟨header', hsplit', -⟩ := (frame_canonical (.inr rfl)).mp hframe'
  rw [hsplit] at hsplit'
  cases hsplit'

theorem fromCore_conflict_none {error : Error} (h : (ApplicationError.fromCore error).mutationOutcome ≠ .notApplied) :
    (ApplicationError.fromCore error).conflict = none := by
  cases error <;> first | rfl | exact absurd rfl h

/-- The result of the service was a failure that left no trace. -/
def ResultNotApplied (result : Result Response) : Prop :=
  ∃ error, result = .error error ∧ (ApplicationError.fromCore error).mutationOutcome = .notApplied

/-- The envelope of the result does not encode, and the error sent in its place does. -/
def Replaced (limits : ProtocolLimits) (result : Result Response) : Prop :=
  ∃ error frame, encodeResponse (envelopeOf true result) limits = .error error ∧
    encodeResponse (.error (ApplicationError.fromProtocol error)) limits = .ok frame

/-- The server answers a request that was encoded for it with the bytes of the service's result. -/
theorem serveStream_encodeRequest (hlimits : limits.validate = .ok ()) {tenant : TenantId} {request : Request}
    (hfits : request.Fits) {frame : Bytes} (hencode : encodeRequest tenant request limits = .ok frame)
    (service : TenantId → Request → Nat → Result Response) :
    serveStream service limits frame =
      sendResult request.isMutation (service tenant request limits.maxResponseFrameSize) limits := by
  have hdecode := (decodeRequestFrame_eq_ok hlimits).mpr ⟨hfits, hencode⟩
  simp only [decodeRequestFrame, splitFrame, except_bind_eq_ok, ensure_eq_ok, except_pure_eq_ok] at hdecode
  obtain ⟨⟨header, payload⟩, ⟨_, hlong, header', hheader, _, hlength, hpair⟩, hparts⟩ := hdecode
  cases hpair
  have hvalid : headerSize + header.payloadLength ≤ u64Max ∧
      headerSize + header.payloadLength ≤ limits.maxRequestFrameSize := by
    simp only [decodeRequestParts, validatePayloadLength, except_bind_eq_ok, ensure_eq_ok] at hparts
    obtain ⟨_, -, _, ⟨_, hu64, _, hmax, -⟩, -⟩ := hparts
    exact ⟨hu64, hmax⟩
  have hframe : ¬saturatingAdd headerSize header.payloadLength > limits.maxRequestFrameSize := by
    rw [saturatingAdd, Nat.min_eq_left hvalid.1]
    exact hvalid.2.not_gt
  unfold serveStream
  rw [if_neg hlong.not_gt, hheader]
  dsimp only
  rw [if_neg hframe, if_neg (not_not.mpr hlength), hparts]

theorem told_of_replaced (hlimits : limits.validate = .ok ()) {result : Result Response}
    (h : Replaced limits result) (transportError : String) (expected : UInt8) :
    ToldNotApplied (executeOnConnection limits transportError true expected (sendResult true result limits)) := by
  obtain ⟨error, frame, hfail, hencode⟩ := h
  have hsent : sendResult true result limits = some frame := by
    rw [sendResult, hfail]
    dsimp only
    rw [sendProtocolError, hencode]
  have hfits : ∀ conflict ∈ (ApplicationError.fromProtocol error).conflict, conflict.Fits := by
    intro conflict hconflict
    cases hconflict
  rw [hsent, executeOnConnection_of_decoded (decodeResponseFrame_error hlimits hfits hencode (some expected))]
  exact ⟨_, rfl, rfl⟩

/-- A result that was applied, or may have been, is told as not applied only when its envelope was
replaced. -/
theorem replaced_of_told (hlimits : limits.validate = .ok ()) {result : Result Response}
    (hresult : ¬ResultNotApplied result) {expected : UInt8}
    (h : ToldNotApplied (executeOnConnection limits transportError true expected (sendResult true result limits))) :
    Replaced limits result := by
  obtain ⟨told, hdecode, houtcome⟩ := decoded_of_told h
  cases hencode : encodeResponse (envelopeOf true result) limits with
  | ok frame =>
    have hsent : sendResult true result limits = some frame := by rw [sendResult, hencode]
    rw [hsent, Option.getD_some] at hdecode
    cases result with
    | ok response => exact absurd hdecode (decodeResponseFrame_success hlimits hencode)
    | error error =>
      have hclass : (ApplicationError.fromCore error).mutationOutcome ≠ .notApplied := fun hc =>
        hresult ⟨error, rfl, hc⟩
      have hfits : ∀ conflict ∈ (ApplicationError.fromCore error).conflict, conflict.Fits := by
        intro conflict hconflict
        rw [fromCore_conflict_none hclass] at hconflict
        cases hconflict
      rw [decodeResponseFrame_error hlimits hfits hencode] at hdecode
      cases hdecode
      exact absurd houtcome hclass
  | error error =>
    cases hfallback : encodeResponse (.error (ApplicationError.fromProtocol error)) limits with
    | ok frame => exact ⟨error, frame, hencode, hfallback⟩
    | error error' =>
      have hsent : sendResult true result limits = none := by
        rw [sendResult, hencode]
        dsimp only
        rw [sendProtocolError, hfallback]
      rw [hsent] at hdecode
      cases hdecode

/-- A response is replaced when it does not fit the limits, and the error that it cannot be encoded with does. -/
theorem replaced_iff (hlimits : limits.validate = .ok ()) {result : Result Response} :
    Replaced limits result ↔ ¬(envelopeOf true result).Sendable limits ∧
      ∀ error, encodeResponse (envelopeOf true result) limits = .error error →
        ResponseEnvelope.Sendable limits (.error (ApplicationError.fromProtocol error)) := by
  have hresponse := sized_response hlimits
  constructor
  · rintro ⟨error, frame, hfail, hencode⟩
    refine ⟨fun hsendable => ?_, fun other hother => ?_⟩
    · obtain ⟨bytes, hbytes⟩ := hresponse.accepts hsendable
      cases hbytes.symm.trans hfail
    · cases hother.symm.trans hfail
      exact (hresponse.admits hencode).1
  · rintro ⟨hnot, hfallback⟩
    cases hencode : encodeResponse (envelopeOf true result) limits with
    | ok frame => exact absurd (hresponse.admits hencode).1 hnot
    | error error =>
      obtain ⟨frame, hframe⟩ := hresponse.accepts (hfallback error hencode)
      exact ⟨error, frame, hencode, hframe⟩

/-- A caller is told that its mutation was not applied only when the service said so, exactly when
the response the service gave is not replaced by an error of the server's own: when it fits the limits, or that
error does not fit them either. -/
theorem notApplied_honest_iff {limits : ProtocolLimits} (hlimits : limits.validate = .ok ()) {tenant : TenantId}
    {request : Request} (hfits : request.Fits) (hmutation : request.isMutation = true) {frame : Bytes}
    (hencode : encodeRequest tenant request limits = .ok frame)
    (service : TenantId → Request → Nat → Result Response) (transportError : String) :
    ((ToldNotApplied (execute limits transportError tenant request (serveStream service limits)) →
      ResultNotApplied (service tenant request limits.maxResponseFrameSize)) ↔
    (Replaced limits (service tenant request limits.maxResponseFrameSize) →
      ResultNotApplied (service tenant request limits.maxResponseFrameSize))) ∧
    (Replaced limits (service tenant request limits.maxResponseFrameSize) ↔
      ¬(envelopeOf true (service tenant request limits.maxResponseFrameSize)).Sendable limits ∧
      ∀ error, encodeResponse (envelopeOf true (service tenant request limits.maxResponseFrameSize)) limits =
        .error error → ResponseEnvelope.Sendable limits (.error (ApplicationError.fromProtocol error))) := by
  refine ⟨?_, replaced_iff hlimits⟩
  have hexecute : execute limits transportError tenant request (serveStream service limits) =
      executeOnConnection limits transportError true (requestOpcode request)
        (sendResult true (service tenant request limits.maxResponseFrameSize) limits) := by
    rw [execute, hencode]
    dsimp only
    rw [serveStream_encodeRequest hlimits hfits hencode, hmutation]
  rw [hexecute]
  constructor
  · intro h hreplaced
    exact h (told_of_replaced hlimits hreplaced transportError _)
  · intro h htold
    by_contra hnot
    exact hnot (h (replaced_of_told hlimits hnot htold))

def samplePut : Request := .put ⟨[1], [2]⟩ [3]

/-- Limits under which a put's response is one byte too long and the error that replaces it is not. -/
def tightLimits : ProtocolLimits := {maxResponseFrameSize := 20, maxErrorDetailSize := 1}

/-- As many characters as a detail may have, of two bytes each. -/
def longDetail : String := String.ofList (List.replicate 4096 'é')

theorem length_utf8_replicate (n : Nat) :
    (utf8 (takeChars n (String.ofList (List.replicate n 'é')))).length = n * 2 := by
  rw [takeChars, String.toList_ofList, List.take_replicate, length_utf8_ofList, List.map_replicate,
    List.sum_replicate, Nat.min_self]
  rfl

theorem longDetail_replaced : Replaced {} (.error (.durabilityFailure longDetail)) := by
  have hlen : (utf8 (takeChars 4096 longDetail)).length = 8192 := length_utf8_replicate 4096
  refine ⟨.payloadTooLarge 8192 4096, _, ?_, rfl⟩
  have hdetail : encodeBytes (utf8 (takeChars 4096 longDetail)) 4096 = .error (.payloadTooLarge 8192 4096) := by
    rw [encodeBytes, hlen, ensure_neg (by decide)]
    rfl
  rw [encodeResponse, validate_default, except_ok_bind]
  show (encodeEnvelope {} (.error ⟨.durabilityFailure, longDetail, .unknown, none⟩) >>= _) = _
  rw [encodeEnvelope, encodeApplicationError]
  dsimp only
  rw [hdetail]
  rfl

/-- A put that succeeded, and under the default limits a put whose durability is uncertain, are both
told as not applied. -/
theorem applied_put_told_notApplied :
    (tightLimits.validate = .ok () ∧
      execute tightLimits "" 7 samplePut (serveStream (fun _ _ _ => .ok (.put 5)) tightLimits) =
        .error (.application ⟨.invalidRequest, "p", .notApplied, none⟩)) ∧
    (ApplicationError.fromCore (.durabilityFailure longDetail)).mutationOutcome = .unknown ∧
      ToldNotApplied (execute {} "" 7 samplePut
        (serveStream (fun _ _ _ => .error (.durabilityFailure longDetail)) {})) := by
  refine ⟨⟨by decide, by decide +kernel⟩, rfl, ?_⟩
  obtain ⟨frame, hencode⟩ : ∃ frame, encodeRequest 7 samplePut {} = .ok frame := ⟨_, rfl⟩
  rw [execute, hencode]
  dsimp only
  have hfits : samplePut.Fits := True.intro
  rw [serveStream_encodeRequest validate_default hfits hencode]
  exact told_of_replaced validate_default longDetail_replaced "" _

theorem notApplied_honest_sample :
    ¬ResultNotApplied (.error (.durabilityFailure "disk")) ∧
    ¬ToldNotApplied (execute {} "" 7 samplePut (serveStream (fun _ _ _ => .error (.durabilityFailure "disk")) {})) := by
  have hresult : ¬ResultNotApplied (.error (.durabilityFailure "disk")) := by
    rintro ⟨error, herror, hclass⟩
    cases herror
    cases hclass
  have hfits : samplePut.Fits := True.intro
  obtain ⟨frame, hencode⟩ : ∃ frame, encodeRequest 7 samplePut {} = .ok frame := ⟨_, rfl⟩
  obtain ⟨hhonest, hreplaced⟩ := notApplied_honest_iff validate_default hfits rfl hencode
    (fun _ _ _ => .error (.durabilityFailure "disk")) ""
  refine ⟨hresult, fun htold => hresult (hhonest.mpr (fun h => ?_) htold)⟩
  obtain ⟨reply, hreply⟩ : ∃ reply,
      encodeResponse (envelopeOf true (.error (.durabilityFailure "disk"))) {} = .ok reply := ⟨_, rfl⟩
  exact absurd ((sized_response validate_default).admits hreply).1 (hreplaced.mp h).1

end Dodb.Protocol
