import Dodb.Protocol.Exchange

/-! Which errors and which rows reach a client.

An error's detail is cut to as many characters as the limits allow bytes, and is then refused if it has more
bytes than that. -/
namespace Dodb.Protocol
open Lib

/-! ### Errors -/

/-- The limits leave room for a detail of the largest size, for a conflict with the largest key they allow, and for
the fields of fixed size. -/
def RoomForErrors (limits : ProtocolLimits) : Prop :=
  headerSize + 8 + limits.maxErrorDetailSize +
    (26 + min (2 * limits.maxKeyComponentSize) (limits.maxEncodedKeySize - 4)) ≤ limits.maxResponseFrameSize

/-- A client that reads the frame of `error` learns its kind, its outcome, its conflict, and how its detail begins. -/
def ErrorArrives (limits : ProtocolLimits) (error : ApplicationError) : Prop :=
  ∃ frame, encodeResponse (.error error) limits = .ok frame ∧ ∀ expected, ∃ received,
    decodeResponseFrame frame expected limits = .ok (.error received) ∧ received.kind = error.kind ∧
      received.mutationOutcome = error.mutationOutcome ∧ received.conflict = error.conflict ∧
      received.detail.toList <+: error.detail.toList

theorem conflictSize_le {limits : ProtocolLimits} {conflict : ConflictDetails} (h : KeyWithin limits conflict.key) :
    conflictSize conflict ≤ 26 + min (2 * limits.maxKeyComponentSize) (limits.maxEncodedKeySize - 4) := by
  have hexpected : expectationSize conflict.expected ≤ 9 := by
    cases conflict.expected <;> simp [expectationSize]
  have hencoded := h.encoded
  have hpk := h.pk
  have hsk := h.sk
  unfold DocumentKey.encodedLen encodedComponentLen at hencoded
  unfold conflictSize
  omega

theorem errorSize_le {limits : ProtocolLimits} {error : ApplicationError}
    (hdetail : (sentDetail limits error).length ≤ limits.maxErrorDetailSize)
    (hkeys : ∀ conflict ∈ error.conflict, KeyWithin limits conflict.key) :
    errorSize limits error ≤ 7 + limits.maxErrorDetailSize +
      (26 + min (2 * limits.maxKeyComponentSize) (limits.maxEncodedKeySize - 4)) := by
  unfold errorSize
  cases hconflict : error.conflict with
  | none =>
    simp only [Option.elim_none]
    omega
  | some conflict =>
    have hle := conflictSize_le (hkeys conflict hconflict)
    simp only [Option.elim_some]
    omega

/-- With room for it, an error arrives exactly when the characters that are kept of its detail have no more bytes
than characters are allowed, and the payload's length has 32 bits. -/
theorem error_arrives_iff {limits : ProtocolLimits} (hlimits : limits.validate = .ok ())
    (hroom : RoomForErrors limits) {error : ApplicationError}
    (hkeys : ∀ conflict ∈ error.conflict, KeyWithin limits conflict.key)
    (hfits : ∀ conflict ∈ error.conflict, conflict.Fits) :
    ErrorArrives limits error ↔ (sentDetail limits error).length ≤ limits.maxErrorDetailSize ∧
      1 + errorSize limits error ≤ u32Max := by
  constructor
  · intro harrives
    obtain ⟨frame, hencode, -⟩ := harrives
    obtain ⟨⟨hwithin, -, hu32⟩, -⟩ := (sized_response hlimits).admits hencode
    exact ⟨ErrorWithin.detail hwithin, hu32⟩
  · intro hcond
    obtain ⟨hdetail, hu32⟩ := hcond
    have hdetail32 : (sentDetail limits error).length ≤ u32Max := by
      unfold errorSize at hu32
      omega
    have hframe : headerSize + (1 + errorSize limits error) ≤ limits.maxResponseFrameSize := by
      have hle := errorSize_le hdetail hkeys
      unfold RoomForErrors at hroom
      omega
    have hwithin : ErrorWithin limits error := ⟨hdetail, hdetail32, hkeys⟩
    obtain ⟨frame, hencode⟩ := (sized_response hlimits).accepts (a := .error error) ⟨hwithin, hframe, hu32⟩
    refine ⟨frame, hencode, fun expected => ⟨_, decodeResponseFrame_error hlimits hfits hencode expected, rfl, rfl,
      rfl, ?_⟩⟩
    show (takeChars _ error.detail).toList <+: _
    rw [takeChars, String.toList_ofList]
    exact List.take_prefix ..

theorem error_arrives_sample : RoomForErrors {} ∧ ErrorArrives {} sampleError := by
  have hroom : RoomForErrors {} := by unfold RoomForErrors; decide
  have hkey : KeyWithin {} ⟨[1], [2]⟩ := ⟨by decide, by decide, by decide⟩
  have hfits : ConflictDetails.Fits ⟨⟨[1], [2]⟩, .revisionEquals 8, .missing 9⟩ :=
    ⟨by show 8 ≤ u64Max; decide, by show 9 ≤ u64Max; decide⟩
  refine ⟨hroom, (error_arrives_iff validate_default hroom ?_ ?_).mpr ⟨by decide, by decide⟩⟩
  · intro conflict hconflict
    cases hconflict
    exact hkey
  · intro conflict hconflict
    cases hconflict
    exact hfits

/-- Under the default limits, an error whose detail is 4096 characters of two bytes each is not sent. -/
theorem long_detail_not_sent :
    ({} : ProtocolLimits).validate = .ok () ∧ RoomForErrors {} ∧
      encodeResponse (.error ⟨.internal, longDetail, .unknown, none⟩) {} = .error (.payloadTooLarge 8192 4096) ∧
      ¬ErrorArrives {} ⟨.internal, longDetail, .unknown, none⟩ := by
  have hlen : (utf8 (takeChars 4096 longDetail)).length = 8192 := length_utf8_replicate 4096
  have hrefused : encodeResponse (.error ⟨.internal, longDetail, .unknown, none⟩) {} =
      .error (.payloadTooLarge 8192 4096) := by
    rw [encodeResponse, validate_default, except_ok_bind, encodeEnvelope, encodeApplicationError]
    dsimp only
    rw [encodeBytes, hlen, ensure_neg (by decide)]
    rfl
  refine ⟨by decide, by unfold RoomForErrors; decide, hrefused, ?_⟩
  intro harrives
  obtain ⟨frame, hencode, -⟩ := harrives
  rw [hrefused] at hencode
  cases hencode

end Dodb.Protocol
