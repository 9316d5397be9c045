import Dodb.Protocol.CodecProofs

/-! What fits on the wire, and how many bytes it takes there.

For every writer, the values it accepts under given limits and the length of what it writes. Under limits
that pass their own check, no length of a key or a value comes near the 32 bits it is written in; the number of
rows, the detail of an error and the payload as a whole can. -/
namespace Dodb.Protocol
open Lib

/-! ### Limits -/

theorem validate_le {limits : ProtocolLimits} (h : limits.validate = .ok ()) :
    limits.maxKeyComponentSize ≤ maxStorageKeyComponentSize ∧
      limits.maxEncodedKeySize ≤ maxStorageEncodedKeySize ∧ limits.maxValueSize ≤ maxStorageValueSize := by
  simp only [ProtocolLimits.validate, except_bind_eq_ok, ensure_eq_ok] at h
  obtain ⟨_, -, hle⟩ := h
  push Not at hle
  exact hle

/-! ### Numbers and byte strings -/

theorem sized_count (maximum : Nat) :
    Sized (fun count => count ≤ maximum ∧ count ≤ u32Max) (encodeCount · maximum) (fun _ => 4) where
  accepts {count} h := ⟨_, by rw [encodeCount, ensure_pos h.1, except_ok_bind, ensure_pos h.2]; rfl⟩
  admits {count bs} hw := by
    simp only [encodeCount, except_bind_eq_ok, ensure_eq_ok, except_pure_eq_ok] at hw
    obtain ⟨_, hmax, _, hu32, rfl⟩ := hw
    exact ⟨⟨hmax, hu32⟩, length_be ..⟩

theorem sized_bytes (maximum : Nat) :
    Sized (fun bytes => bytes.length ≤ maximum ∧ bytes.length ≤ u32Max) (encodeBytes · maximum)
      (fun bytes => 4 + bytes.length) where
  accepts {bytes} h := ⟨_, by rw [encodeBytes, ensure_pos h.1, except_ok_bind, ensure_pos h.2]; rfl⟩
  admits {bytes bs} hw := by
    simp only [encodeBytes, except_bind_eq_ok, ensure_eq_ok, except_pure_eq_ok] at hw
    obtain ⟨_, hmax, _, hu32, rfl⟩ := hw
    exact ⟨⟨hmax, hu32⟩, by rw [List.length_append, u32, length_be]⟩

theorem sized_optional {α : Type} {fits : α → Prop} {encode : α → Wire Bytes} {size : α → Nat}
    (h : Sized fits encode size) :
    Sized (fun o => ∀ a ∈ o, fits a) (encodeOptional encode) (fun o => 1 + o.elim 0 size) where
  accepts {o} ho := by
    cases o with
    | none => exact ⟨[0], rfl⟩
    | some a =>
      obtain ⟨bytes, hbytes⟩ := h.accepts (ho a rfl)
      exact ⟨1 :: bytes, by rw [encodeOptional, hbytes]; rfl⟩
  admits {o bs} hw := by
    cases o with
    | none =>
      cases hw
      exact ⟨by simp, rfl⟩
    | some a =>
      simp only [encodeOptional, except_bind_eq_ok, except_pure_eq_ok] at hw
      obtain ⟨bytes, hbytes, rfl⟩ := hw
      obtain ⟨ha, hlen⟩ := h.admits hbytes
      refine ⟨by simpa using ha, ?_⟩
      rw [List.length_cons, hlen, Nat.add_comm]
      rfl

theorem sized_list {α : Type} {fits : α → Prop} {encode : α → Wire Bytes} {size : α → Nat}
    (h : Sized fits encode size) (maximum : Nat) :
    Sized (fun l => (l.length ≤ maximum ∧ l.length ≤ u32Max) ∧ ∀ a ∈ l, fits a) (encodeList encode maximum)
      (fun l => 4 + (l.map size).sum) where
  accepts {l} hl := by
    obtain ⟨count, hcount⟩ := (sized_count maximum).accepts hl.1
    obtain ⟨elements, helements⟩ := h.many.accepts hl.2
    exact ⟨count ++ elements, by rw [encodeList, hcount, except_ok_bind, helements]; rfl⟩
  admits {l bs} hw := by
    simp only [encodeList, except_bind_eq_ok, except_pure_eq_ok] at hw
    obtain ⟨count, hcount, elements, helements, rfl⟩ := hw
    obtain ⟨hlength, hlen⟩ := (sized_count maximum).admits hcount
    obtain ⟨hall, hlens⟩ := h.many.admits helements
    exact ⟨⟨hlength, hall⟩, by rw [List.length_append, hlen, hlens]⟩

/-! ### Keys and values -/

section Limited
variable (limits : ProtocolLimits)

/-- A key the limits allow. -/
structure KeyWithin (key : DocumentKey) : Prop where
  encoded : key.encodedLen ≤ limits.maxEncodedKeySize
  pk : key.pk.length ≤ limits.maxKeyComponentSize
  sk : key.sk.length ≤ limits.maxKeyComponentSize

def ValueWithin (value : Bytes) : Prop := value.length ≤ limits.maxValueSize

variable {limits} (hlimits : limits.validate = .ok ())
include hlimits

theorem component_le_u32Max {component : Bytes} (h : component.length ≤ limits.maxKeyComponentSize) :
    component.length ≤ u32Max :=
  (h.trans (validate_le hlimits).1).trans (by decide)

theorem value_le_u32Max {value : Bytes} (h : ValueWithin limits value) : value.length ≤ u32Max :=
  (h.trans (validate_le hlimits).2.2).trans (by decide)

theorem sized_value : Sized (ValueWithin limits) (encodeBytes · limits.maxValueSize) (fun value => 4 + value.length) where
  accepts h := (sized_bytes _).accepts ⟨h, value_le_u32Max hlimits h⟩
  admits hw := ((sized_bytes _).admits hw).imp_left And.left

theorem sized_key : Sized (KeyWithin limits) (encodeKey limits) (fun key => 8 + key.pk.length + key.sk.length) where
  accepts {key} h := by
    have hvalid : validateKeyParts limits key.pk key.sk = .ok () := ensure_pos h.encoded _
    obtain ⟨pk, hpk⟩ := (sized_bytes limits.maxKeyComponentSize).accepts ⟨h.pk, component_le_u32Max hlimits h.pk⟩
    obtain ⟨sk, hsk⟩ := (sized_bytes limits.maxKeyComponentSize).accepts ⟨h.sk, component_le_u32Max hlimits h.sk⟩
    exact ⟨pk ++ sk, by rw [encodeKey, hvalid, except_ok_bind, hpk, except_ok_bind, hsk]; rfl⟩
  admits {key bs} hw := by
    simp only [encodeKey, validateKeyParts, except_bind_eq_ok, ensure_eq_ok, except_pure_eq_ok] at hw
    obtain ⟨_, hencoded, pk, hpk, sk, hsk, rfl⟩ := hw
    obtain ⟨⟨hpkLe, -⟩, hpkLen⟩ := (sized_bytes _).admits hpk
    obtain ⟨⟨hskLe, -⟩, hskLen⟩ := (sized_bytes _).admits hsk
    refine ⟨⟨hencoded, hpkLe, hskLe⟩, ?_⟩
    rw [List.length_append, hpkLen, hskLen]
    omega

/-! ### Responses -/

/-- The length of a state on the wire. -/
def stateSize : RevisionState → Nat
  | .present value _ => 13 + value.length
  | .missing _ => 9

/-- The length of a row on the wire. -/
def documentSize (document : Document) : Nat :=
  20 + document.key.pk.length + document.key.sk.length + document.value.length

def StateWithin (limits : ProtocolLimits) : RevisionState → Prop
  | .present value _ => ValueWithin limits value
  | .missing _ => True

/-- A row that the encoder takes. -/
structure DocumentWithin (limits : ProtocolLimits) (document : Document) : Prop where
  key : KeyWithin limits document.key
  value : ValueWithin limits document.value

/-- Rows that are held to the scan limit. -/
structure DocumentsWithin (limits : ProtocolLimits) (documents : List Document) : Prop where
  count : documents.length ≤ limits.maxScanLimit
  count32 : documents.length ≤ u32Max
  each : ∀ document ∈ documents, DocumentWithin limits document

/-- A response that the encoder takes. -/
def Response.Within (limits : ProtocolLimits) : Response → Prop
  | .get state => StateWithin limits state
  | .query documents => DocumentsWithin limits documents
  | .scan documents => DocumentsWithin limits documents
  | _ => True

/-- The bytes of the response's payload. -/
def Response.size : Response → Nat
  | .get state => stateSize state
  | .put _ => 8
  | .delete _ => 8
  | .query documents => 4 + (documents.map documentSize).sum
  | .scan documents => 4 + (documents.map documentSize).sum
  | .transact outcome => 1 + outcome.commitLsn.elim 0 fun _ => 8

theorem sized_revisionState : Sized (StateWithin limits) (encodeRevisionState limits) stateSize where
  accepts {state} h := by
    cases state with
    | present value revision =>
      obtain ⟨bytes, hbytes⟩ := (sized_value hlimits).accepts h
      exact ⟨_, by rw [encodeRevisionState, hbytes]; rfl⟩
    | missing revision => exact ⟨_, rfl⟩
  admits {state bs} hw := by
    cases state with
    | present value revision =>
      simp only [encodeRevisionState, except_bind_eq_ok, except_pure_eq_ok] at hw
      obtain ⟨bytes, hbytes, rfl⟩ := hw
      obtain ⟨hvalue, hlen⟩ := (sized_value hlimits).admits hbytes
      refine ⟨hvalue, ?_⟩
      rw [List.length_cons, List.length_append, hlen, u64, length_be, stateSize]
      omega
    | missing revision =>
      cases hw
      exact ⟨True.intro, by rw [List.length_cons, u64, length_be]; rfl⟩

theorem sized_document : Sized (DocumentWithin limits) (encodeDocument limits) documentSize where
  accepts {document} h := by
    obtain ⟨key, hkey⟩ := (sized_key hlimits).accepts h.key
    obtain ⟨value, hvalue⟩ := (sized_value hlimits).accepts h.value
    exact ⟨_, by rw [encodeDocument, hkey, except_ok_bind, hvalue]; rfl⟩
  admits {document bs} hw := by
    simp only [encodeDocument, except_bind_eq_ok, except_pure_eq_ok] at hw
    obtain ⟨key, hkey, value, hvalue, rfl⟩ := hw
    obtain ⟨hkeyWithin, hkeyLen⟩ := (sized_key hlimits).admits hkey
    obtain ⟨hvalueWithin, hvalueLen⟩ := (sized_value hlimits).admits hvalue
    refine ⟨⟨hkeyWithin, hvalueWithin⟩, ?_⟩
    rw [List.length_append, List.length_append, hkeyLen, hvalueLen, u64, length_be, documentSize]
    omega

theorem sized_documents : Sized (DocumentsWithin limits) (encodeList (encodeDocument limits) limits.maxScanLimit)
    (fun documents => 4 + (documents.map documentSize).sum) where
  accepts h := (sized_list (sized_document hlimits) _).accepts ⟨⟨h.count, h.count32⟩, h.each⟩
  admits hw := ((sized_list (sized_document hlimits) _).admits hw).imp_left fun h => ⟨h.1.1, h.1.2, h.2⟩

theorem sized_responsePayload : Sized (Response.Within limits) (encodeResponsePayload limits) Response.size where
  accepts {response} h := by
    cases response with
    | get state => exact (sized_revisionState hlimits).accepts h
    | query | scan => exact (sized_documents hlimits).accepts h
    | put | delete | transact => exact ⟨_, rfl⟩
  admits {response bs} hw := by
    cases response with
    | get state => exact (sized_revisionState hlimits).admits hw
    | query | scan => exact (sized_documents hlimits).admits hw
    | put | delete =>
      cases hw
      exact ⟨True.intro, length_be ..⟩
    | transact outcome =>
      cases hw
      obtain ⟨_ | lsn⟩ := outcome
      · exact ⟨True.intro, rfl⟩
      · exact ⟨True.intro, by simp [encodeTransactionOutcome, Response.size, u64]⟩

/-! ### Errors -/

/-- The part of an error's detail that is sent. -/
def sentDetail (limits : ProtocolLimits) (error : ApplicationError) : Bytes :=
  utf8 (takeChars limits.maxErrorDetailSize error.detail)

/-- An error that the encoder takes. -/
structure ErrorWithin (limits : ProtocolLimits) (error : ApplicationError) : Prop where
  detail : (sentDetail limits error).length ≤ limits.maxErrorDetailSize
  detail32 : (sentDetail limits error).length ≤ u32Max
  conflict : ∀ conflict ∈ error.conflict, KeyWithin limits conflict.key

def expectationSize : ConditionExpectation → Nat
  | .revisionEquals _ => 9
  | .exists => 1
  | .notExists => 1

def conflictSize (conflict : ConflictDetails) : Nat :=
  8 + conflict.key.pk.length + conflict.key.sk.length + expectationSize conflict.expected + 9

/-- The bytes of the error's payload. -/
def errorSize (limits : ProtocolLimits) (error : ApplicationError) : Nat :=
  7 + (sentDetail limits error).length + error.conflict.elim 0 conflictSize

theorem sized_conflict :
    Sized (fun conflict => KeyWithin limits conflict.key) (encodeConflict limits) conflictSize where
  accepts {conflict} h := by
    obtain ⟨key, hkey⟩ := (sized_key hlimits).accepts h
    exact ⟨_, by rw [encodeConflict, hkey]; rfl⟩
  admits {conflict bs} hw := by
    simp only [encodeConflict, except_bind_eq_ok, except_pure_eq_ok] at hw
    obtain ⟨key, hkey, rfl⟩ := hw
    obtain ⟨hwithin, hlen⟩ := (sized_key hlimits).admits hkey
    have hexpected : (encodeExpectation conflict.expected).length = expectationSize conflict.expected := by
      cases conflict.expected <;> simp [encodeExpectation, expectationSize, u64]
    have hactual : (encodeObservedState conflict.actual).length = 9 := by
      cases conflict.actual <;> simp [encodeObservedState, u64]
    refine ⟨hwithin, ?_⟩
    rw [List.length_append, List.length_append, hlen, hexpected, hactual, conflictSize]
    omega

theorem sized_applicationError :
    Sized (ErrorWithin limits) (encodeApplicationError limits) (errorSize limits) where
  accepts {error} h := by
    obtain ⟨detail, hdetail⟩ := (sized_bytes limits.maxErrorDetailSize).accepts ⟨h.detail, h.detail32⟩
    obtain ⟨conflict, hconflict⟩ := (sized_optional (sized_conflict hlimits)).accepts h.conflict
    unfold sentDetail at hdetail
    exact ⟨_, by rw [encodeApplicationError, hdetail, except_ok_bind, hconflict]; rfl⟩
  admits {error bs} hw := by
    simp only [encodeApplicationError, except_bind_eq_ok, except_pure_eq_ok] at hw
    obtain ⟨detail, hdetail, conflict, hconflict, rfl⟩ := hw
    obtain ⟨⟨hmax, hu32⟩, hlen⟩ := (sized_bytes _).admits hdetail
    obtain ⟨hkeys, hconflictLen⟩ := (sized_optional (sized_conflict hlimits)).admits hconflict
    refine ⟨⟨hmax, hu32, hkeys⟩, ?_⟩
    rw [List.length_cons, List.length_append, List.length_cons, hlen, hconflictLen, errorSize, sentDetail]
    omega

/-! ### Frames -/

/-- What the encoder takes. -/
def ResponseEnvelope.Within (limits : ProtocolLimits) : ResponseEnvelope → Prop
  | .success response => response.Within limits
  | .error e => ErrorWithin limits e

/-- The length of the payload of a response. -/
def ResponseEnvelope.size (limits : ProtocolLimits) : ResponseEnvelope → Nat
  | .success response => 2 + response.size
  | .error e => 1 + errorSize limits e

theorem sized_envelope :
    Sized (ResponseEnvelope.Within limits) (encodeEnvelope limits) (ResponseEnvelope.size limits) where
  accepts {envelope} h := by
    cases envelope with
    | success response =>
      obtain ⟨body, hbody⟩ := (sized_responsePayload hlimits).accepts h
      exact ⟨_, by rw [encodeEnvelope, hbody]; rfl⟩
    | error error =>
      obtain ⟨body, hbody⟩ := (sized_applicationError hlimits).accepts h
      exact ⟨_, by rw [encodeEnvelope, hbody]; rfl⟩
  admits {envelope bs} hw := by
    cases envelope with
    | success response =>
      simp only [encodeEnvelope, except_bind_eq_ok, except_pure_eq_ok] at hw
      obtain ⟨body, hbody, rfl⟩ := hw
      obtain ⟨hwithin, hlen⟩ := (sized_responsePayload hlimits).admits hbody
      refine ⟨hwithin, ?_⟩
      rw [List.length_cons, List.length_cons, hlen, ResponseEnvelope.size]
      omega
    | error error =>
      simp only [encodeEnvelope, except_bind_eq_ok, except_pure_eq_ok] at hw
      obtain ⟨body, hbody, rfl⟩ := hw
      obtain ⟨hwithin, hlen⟩ := (sized_applicationError hlimits).admits hbody
      refine ⟨hwithin, ?_⟩
      rw [List.length_cons, hlen, ResponseEnvelope.size]
      omega

/-- A response can be sent when its parts are within the limits, its frame is not too long and the length of its
payload has 32 bits. -/
structure ResponseEnvelope.Sendable (limits : ProtocolLimits) (envelope : ResponseEnvelope) : Prop where
  within : envelope.Within limits
  frame : headerSize + envelope.size limits ≤ limits.maxResponseFrameSize
  payload : envelope.size limits ≤ u32Max

theorem sized_response : Sized (ResponseEnvelope.Sendable limits) (encodeResponse · limits)
    (fun envelope => headerSize + envelope.size limits) where
  accepts {envelope} h := by
    obtain ⟨hwithin, hmax, hu32⟩ := h
    obtain ⟨payload, hpayload⟩ := (sized_envelope hlimits).accepts hwithin
    have hlen := ((sized_envelope hlimits).admits hpayload).2
    have hu64 : headerSize + payload.length ≤ u64Max :=
      (Nat.add_le_add_left (hlen ▸ hu32) headerSize).trans (by decide)
    refine ⟨headerBytes responseMessageType payload.length ++ payload, ?_⟩
    rw [encodeResponse, hlimits, except_ok_bind, hpayload, except_ok_bind]
    exact encodeFrame_eq_ok.mpr ⟨⟨hu64, hlen ▸ hmax, hlen ▸ hu32⟩, rfl⟩
  admits {envelope frame} hw := by
    simp only [encodeResponse, except_bind_eq_ok] at hw
    obtain ⟨_, -, payload, hpayload, hframe⟩ := hw
    obtain ⟨⟨-, hmax, hu32⟩, rfl⟩ := encodeFrame_eq_ok.mp hframe
    obtain ⟨hwithin, hlen⟩ := (sized_envelope hlimits).admits hpayload
    rw [hlen] at hmax hu32
    exact ⟨⟨hwithin, hmax, hu32⟩, by rw [List.length_append, length_headerBytes, hlen]⟩

end Limited

end Dodb.Protocol
