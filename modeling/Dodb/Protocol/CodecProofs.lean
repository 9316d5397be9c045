import Dodb.Protocol.Codec

/-! Every reader of the wire format is canonical for its writer: it reads back what was written
and accepts nothing the writer would not have written.

The revisions and LSNs of the source are 64-bit numbers; `Fits` says so of the numbers here. -/
namespace Dodb.Protocol
open Lib

/-! ### Numbers and byte strings -/

theorem lt_of_le_u32Max {n : Nat} (h : n ≤ u32Max) : n < 256 ^ 4 := lt_of_le_of_lt h (by decide)

theorem le_u32Max_of_lt {n : Nat} (h : n < 256 ^ 4) : n ≤ u32Max := Nat.le_pred_of_lt h

theorem le_u64Max_of_lt {n : Nat} (h : n < 256 ^ 8) : n ≤ u64Max := Nat.le_pred_of_lt h

theorem reads_u64 {n : Nat} (h : n ≤ u64Max) : readU64.Reads (u64 n) n :=
  Reader.Reads.number _ (lt_of_le_u64Max h)

theorem yields_u64 : readU64.Yields fun n bs => bs = u64 n ∧ n ≤ u64Max :=
  (Reader.Yields.number _ 8).mono fun _ _ h => ⟨h.1, le_u64Max_of_lt h.2⟩

theorem canonical_count (maximum : Nat) :
    Canonical (fun _ => True) (encodeCount · maximum) (readCount maximum) where
  reads {count bs} _ hw := by
    simp only [encodeCount, except_bind_eq_ok, ensure_eq_ok, except_pure_eq_ok] at hw
    obtain ⟨_, hmax, _, hu32, rfl⟩ := hw
    refine (Reader.Reads.number _ (lt_of_le_u32Max hu32)).bind_nil ?_
    exact .ofExcept_bind (ensure_pos hmax _) (.pure count)
  yields := by
    refine (Reader.Yields.number _ 4).bind ?_
    rintro count bs ⟨rfl, hlt⟩
    refine .ofExcept_bind fun _ hmax => .pure ⟨True.intro, ?_⟩
    rw [encodeCount, hmax, except_ok_bind, ensure_pos (le_u32Max_of_lt hlt), except_ok_bind, List.append_nil]
    rfl

theorem canonical_bytes (maximum : Nat) :
    Canonical (fun _ => True) (encodeBytes · maximum) (readBytes maximum) where
  reads {bytes bs} _ hw := by
    simp only [encodeBytes, except_bind_eq_ok, ensure_eq_ok, except_pure_eq_ok] at hw
    obtain ⟨_, hmax, _, hu32, rfl⟩ := hw
    refine (Reader.Reads.number _ (lt_of_le_u32Max hu32)).bind ?_
    exact .ofExcept_bind (ensure_pos hmax _) (Reader.Reads.take _ bytes)
  yields := by
    refine (Reader.Yields.number _ 4).bind ?_
    rintro length bs ⟨rfl, hlt⟩
    refine .ofExcept_bind fun _ hmax => (Reader.Yields.take _ length).mono ?_
    rintro bytes _ ⟨rfl, rfl⟩
    refine ⟨True.intro, ?_⟩
    rw [encodeBytes, hmax, except_ok_bind, ensure_pos (le_u32Max_of_lt hlt), except_ok_bind]
    rfl

theorem canonical_optional {α : Type} {fits : α → Prop} {encode : α → Wire Bytes} {read : Read α}
    (h : Canonical fits encode read) :
    Canonical (fun o => ∀ a ∈ o, fits a) (encodeOptional encode) (readOptional read) where
  reads {o bs} ho hw := by
    cases o with
    | none =>
      cases hw
      exact fun _ => rfl
    | some a =>
      simp only [encodeOptional, except_bind_eq_ok, except_pure_eq_ok] at hw
      obtain ⟨bytes, hbytes, rfl⟩ := hw
      show (read >>= fun a => pure (some a)).Reads bytes (some a)
      exact (h.reads (ho a rfl) hbytes).bind_nil (.pure _)
  yields := by
    have hflag : readFlag.Yields fun flag bs => bs = [if flag then 1 else 0] := by
      refine .tag fun t => ?_
      refine .ite (fun ht => .pure (by simp [ht])) fun _ => ?_
      exact .ite (fun ht => .pure (by simp [ht])) fun _ => .fail _
    refine hflag.bind ?_
    rintro flag _ rfl
    cases flag with
    | false => exact .pure ⟨by simp, rfl⟩
    | true =>
      refine h.yields.bind ?_
      rintro a bs ⟨ha, hw⟩
      refine .pure ⟨by simpa using ha, ?_⟩
      rw [encodeOptional, hw, except_ok_bind, List.append_nil]
      rfl

theorem canonical_list {α : Type} {fits : α → Prop} {encode : α → Wire Bytes} {read : Read α}
    (h : Canonical fits encode read) (maximum : Nat) :
    Canonical (fun l => ∀ a ∈ l, fits a) (encodeList encode maximum) (readList read maximum) where
  reads {l bs} hl hw := by
    simp only [encodeList, except_bind_eq_ok, except_pure_eq_ok] at hw
    obtain ⟨count, hcount, elements, helements, rfl⟩ := hw
    refine ((canonical_count maximum).reads True.intro hcount).bind ?_
    exact (h.many l.length).reads ⟨hl, rfl⟩ helements
  yields := by
    refine (canonical_count maximum).yields.bind ?_
    rintro count bs ⟨-, hcount⟩
    refine (h.many count).yields.mono ?_
    rintro l cs ⟨⟨hl, rfl⟩, helements⟩
    refine ⟨hl, ?_⟩
    rw [encodeList, hcount, except_ok_bind, helements, except_ok_bind]
    rfl

section Limited
variable (limits : ProtocolLimits)

theorem canonical_key : Canonical (fun _ => True) (encodeKey limits) (decodeKey limits) where
  reads {key bs} _ hw := by
    simp only [encodeKey, except_bind_eq_ok, except_pure_eq_ok] at hw
    obtain ⟨_, hvalid, pk, hpk, sk, hsk, rfl⟩ := hw
    refine ((canonical_bytes _).reads True.intro hpk).bind ?_
    refine ((canonical_bytes _).reads True.intro hsk).bind_nil ?_
    exact .ofExcept_bind hvalid (.pure key)
  yields := by
    refine (canonical_bytes _).yields.bind ?_
    rintro pk bs ⟨-, hpk⟩
    refine (canonical_bytes _).yields.bind ?_
    rintro sk cs ⟨-, hsk⟩
    refine .ofExcept_bind fun _ hvalid => .pure ⟨True.intro, ?_⟩
    rw [encodeKey, hvalid, except_ok_bind, hpk, except_ok_bind, hsk, except_ok_bind, List.append_nil]
    rfl

/-! ### Requests -/

def FitsCondition : TransactionCondition → Prop
  | .revisionEquals _ expectedRevision => expectedRevision ≤ u64Max
  | .exists _ => True
  | .notExists _ => True

theorem canonical_condition : Canonical FitsCondition (encodeCondition limits) (decodeCondition limits) where
  reads {c bs} hc hw := by
    cases c with
    | revisionEquals key revision =>
      simp only [encodeCondition, except_bind_eq_ok, except_pure_eq_ok] at hw
      obtain ⟨bytes, hkey, rfl⟩ := hw
      refine .tag (((canonical_key limits).reads True.intro hkey).bind ?_)
      exact (reads_u64 hc).bind_nil (.pure _)
    | «exists» | notExists =>
      simp only [encodeCondition, except_bind_eq_ok, except_pure_eq_ok] at hw
      obtain ⟨bytes, hkey, rfl⟩ := hw
      exact .tag (((canonical_key limits).reads True.intro hkey).bind_nil (.pure _))
  yields := by
    refine .tag fun kind => (canonical_key limits).yields.bind ?_
    rintro key bs ⟨-, hkey⟩
    refine .ite ?_ fun _ => .ite ?_ fun _ => .ite ?_ fun _ => .fail _
    · rintro rfl
      refine yields_u64.bind_pure fun revision _ h => ⟨h.2, ?_⟩
      rw [encodeCondition, hkey, except_ok_bind, h.1]
      rfl
    · rintro rfl
      refine .pure ⟨True.intro, ?_⟩
      rw [encodeCondition, hkey, except_ok_bind, List.append_nil]
      rfl
    · rintro rfl
      refine .pure ⟨True.intro, ?_⟩
      rw [encodeCondition, hkey, except_ok_bind, List.append_nil]
      rfl

theorem canonical_mutation : Canonical (fun _ => True) (encodeMutation limits) (decodeMutation limits) where
  reads {m bs} _ hw := by
    cases m with
    | put key value =>
      simp only [encodeMutation, except_bind_eq_ok, except_pure_eq_ok] at hw
      obtain ⟨bytes, hkey, valueBytes, hvalue, rfl⟩ := hw
      refine .tag (((canonical_key limits).reads True.intro hkey).bind ?_)
      exact ((canonical_bytes _).reads True.intro hvalue).bind_nil (.pure _)
    | delete key =>
      simp only [encodeMutation, except_bind_eq_ok, except_pure_eq_ok] at hw
      obtain ⟨bytes, hkey, rfl⟩ := hw
      exact .tag (((canonical_key limits).reads True.intro hkey).bind_nil (.pure _))
  yields := by
    refine .tag fun kind => (canonical_key limits).yields.bind ?_
    rintro key bs ⟨-, hkey⟩
    refine .ite ?_ fun _ => .ite ?_ fun _ => .fail _
    · rintro rfl
      refine (canonical_bytes _).yields.bind ?_
      rintro value cs ⟨-, hvalue⟩
      refine .pure ⟨True.intro, ?_⟩
      rw [encodeMutation, hkey, except_ok_bind, hvalue, except_ok_bind, List.append_nil]
      rfl
    · rintro rfl
      refine .pure ⟨True.intro, ?_⟩
      rw [encodeMutation, hkey, except_ok_bind, List.append_nil]
      rfl

/-- The revisions a request names are 64-bit numbers. -/
def Request.Fits : Request → Prop
  | .transact request => ∀ condition ∈ request.conditions, FitsCondition condition
  | _ => True

theorem canonical_requestPayload :
    Canonical Request.Fits (encodeRequestPayload limits) (decodeRequestPayload limits) where
  reads {request bs} hfits hw := by
    simp only [encodeRequestPayload, except_bind_eq_ok, except_pure_eq_ok] at hw
    obtain ⟨body, hbody, rfl⟩ := hw
    refine .tag ?_
    cases request with
    | put key value =>
      simp only [encodeRequestBody, except_bind_eq_ok, except_pure_eq_ok] at hbody
      obtain ⟨keyBytes, hkey, valueBytes, hvalue, rfl⟩ := hbody
      refine ((canonical_key limits).reads True.intro hkey).bind ?_
      exact ((canonical_bytes _).reads True.intro hvalue).bind_nil (.pure _)
    | get | delete => exact ((canonical_key limits).reads True.intro hbody).bind_nil (.pure _)
    | query pk sk limit =>
      simp only [encodeRequestBody, except_bind_eq_ok, except_pure_eq_ok] at hbody
      obtain ⟨_, hvalid, pkBytes, hpk, skBytes, hsk, limitBytes, hlimit, rfl⟩ := hbody
      refine ((canonical_bytes _).reads True.intro hpk).bind ?_
      refine ((canonical_optional (canonical_bytes _)).reads (fun _ _ => True.intro) hsk).bind ?_
      refine .ofExcept_bind hvalid ?_
      exact ((canonical_count _).reads True.intro hlimit).bind_nil (.pure _)
    | scan key limit =>
      simp only [encodeRequestBody, except_bind_eq_ok, except_pure_eq_ok] at hbody
      obtain ⟨keyBytes, hkey, limitBytes, hlimit, rfl⟩ := hbody
      refine ((canonical_optional (canonical_key limits)).reads (fun _ _ => True.intro) hkey).bind ?_
      exact ((canonical_count _).reads True.intro hlimit).bind_nil (.pure _)
    | transact request =>
      simp only [encodeRequestBody, except_bind_eq_ok, except_pure_eq_ok] at hbody
      obtain ⟨conditions, hconditions, mutations, hmutations, rfl⟩ := hbody
      refine ((canonical_list (canonical_condition limits) _).reads hfits hconditions).bind ?_
      exact ((canonical_list (canonical_mutation limits) _).reads (fun _ _ => True.intro) hmutations).bind_nil
        (.pure _)
  yields := by
    -- one case for each opcode, and none for any other
    refine .tag fun opcode => ?_
    refine .ite ?_ fun _ => .ite ?_ fun _ => .ite ?_ fun _ =>
      .ite ?_ fun _ => .ite ?_ fun _ => .ite ?_ fun _ => .fail _
    · rintro rfl
      refine (canonical_key limits).yields.bind_pure fun key bs h => ⟨True.intro, ?_⟩
      rw [encodeRequestPayload, encodeRequestBody, h.2, except_ok_bind]
      rfl
    · rintro rfl
      refine (canonical_key limits).yields.bind ?_
      rintro key bs ⟨-, hkey⟩
      refine (canonical_bytes _).yields.bind ?_
      rintro value cs ⟨-, hvalue⟩
      refine .pure ⟨True.intro, ?_⟩
      simp only [encodeRequestPayload, encodeRequestBody, hkey, except_ok_bind, hvalue, List.append_nil]
      rfl
    · rintro rfl
      refine (canonical_key limits).yields.bind_pure fun key bs h => ⟨True.intro, ?_⟩
      rw [encodeRequestPayload, encodeRequestBody, h.2, except_ok_bind]
      rfl
    · rintro rfl
      refine (canonical_bytes _).yields.bind ?_
      rintro pk bs ⟨-, hpk⟩
      refine (canonical_optional (canonical_bytes _)).yields.bind ?_
      rintro sk cs ⟨-, hsk⟩
      refine .ofExcept_bind fun _ hvalid => (canonical_count _).yields.bind ?_
      rintro limit ds ⟨-, hlimit⟩
      refine .pure ⟨True.intro, ?_⟩
      simp only [encodeRequestPayload, encodeRequestBody, hvalid, hpk, except_ok_bind, hsk, hlimit, List.append_nil]
      rfl
    · rintro rfl
      refine (canonical_optional (canonical_key limits)).yields.bind ?_
      rintro key bs ⟨-, hkey⟩
      refine (canonical_count _).yields.bind ?_
      rintro limit cs ⟨-, hlimit⟩
      refine .pure ⟨True.intro, ?_⟩
      simp only [encodeRequestPayload, encodeRequestBody, hkey, except_ok_bind, hlimit, List.append_nil]
      rfl
    · rintro rfl
      refine (canonical_list (canonical_condition limits) _).yields.bind ?_
      rintro conditions bs ⟨hfits, hconditions⟩
      refine (canonical_list (canonical_mutation limits) _).yields.bind ?_
      rintro mutations cs ⟨-, hmutations⟩
      refine .pure ⟨hfits, ?_⟩
      simp only [encodeRequestPayload, encodeRequestBody, hconditions, except_ok_bind, hmutations, List.append_nil]
      rfl

end Limited

/-! ### Frames -/

def headerBytes (messageType : UInt8) (length : Nat) : Bytes :=
  magic ++ (be 2 protocolVersion ++ (messageType :: be 4 length))

theorem length_headerBytes (messageType : UInt8) (length : Nat) :
    (headerBytes messageType length).length = headerSize := by
  simp [headerBytes, magic, headerSize]

theorem encodeFrame_eq_ok {messageType : UInt8} {payload frame : Bytes} {maximum : Nat} :
    encodeFrame messageType payload maximum = .ok frame ↔
      (headerSize + payload.length ≤ u64Max ∧ headerSize + payload.length ≤ maximum ∧ payload.length ≤ u32Max) ∧
      headerBytes messageType payload.length ++ payload = frame := by
  simp only [encodeFrame, except_bind_eq_ok, ensure_eq_ok, except_pure_eq_ok, headerBytes, List.append_assoc,
    List.cons_append]
  tauto

theorem decodeHeader_headerBytes {messageType : UInt8}
    (htype : messageType = requestMessageType ∨ messageType = responseMessageType) {length : Nat}
    (hlength : length ≤ u32Max) :
    decodeHeader (headerBytes messageType length) = .ok ⟨protocolVersion, messageType, length⟩ := by
  have hversion : slice (headerBytes messageType length) 4 2 = be 2 protocolVersion :=
    slice_field _ _ _ _ _ rfl (length_be ..)
  have hlen : slice (headerBytes messageType length) 7 4 = be 4 length := by
    have : headerBytes messageType length = (magic ++ (be 2 protocolVersion ++ [messageType])) ++ (be 4 length ++ []) := by
      simp [headerBytes]
    rw [this]
    exact slice_field _ _ _ _ _ (by simp [magic]) (length_be ..)
  have htypeAt : (headerBytes messageType length).getD 6 0 = messageType := rfl
  simp only [decodeHeader, except_bind_eq_ok, ensure_eq_ok, hversion, hlen, htypeAt,
    ofBe_be 2 protocolVersion (by decide), ofBe_be 4 length (lt_of_le_u32Max hlength)]
  exact ⟨(), (length_headerBytes ..).ge, (), rfl, (), True.intro, (), htype, rfl⟩

theorem decodeHeader_eq_ok {bytes : Bytes} (hlen : bytes.length = headerSize) {header : FrameHeader}
    (h : decodeHeader bytes = .ok header) :
    bytes = headerBytes header.messageType header.payloadLength ∧ header.version = protocolVersion ∧
      header.payloadLength ≤ u32Max := by
  simp only [decodeHeader, except_bind_eq_ok, ensure_eq_ok, except_pure_eq_ok] at h
  obtain ⟨_, -, _, hmagic, _, hversion, _, -, rfl⟩ := h
  have hfields : bytes = bytes.take 4 ++ (slice bytes 4 2 ++ (bytes.getD 6 0 :: slice bytes 7 4)) := by
    rcases bytes with _ | ⟨b0, _ | ⟨b1, _ | ⟨b2, _ | ⟨b3, _ | ⟨b4, _ | ⟨b5, _ | ⟨b6, _ | ⟨b7, _ | ⟨b8, _ | ⟨b9,
      _ | ⟨b10, _ | ⟨b11, rest⟩⟩⟩⟩⟩⟩⟩⟩⟩⟩⟩⟩ <;> simp [headerSize] at hlen
    rfl
  have htwo : (slice bytes 4 2).length = 2 := length_slice _ _ _ (by rw [hlen]; decide)
  have hfour : (slice bytes 7 4).length = 4 := length_slice _ _ _ (by rw [hlen]; decide)
  have hv := be_ofBe (slice bytes 4 2)
  have hl := be_ofBe (slice bytes 7 4)
  have hlt := ofBe_lt (slice bytes 7 4)
  rw [htwo, hversion] at hv
  rw [hfour] at hl hlt
  refine ⟨?_, hversion, le_u32Max_of_lt hlt⟩
  dsimp only
  rw [headerBytes, hl, hv, ← hmagic]
  exact hfields

/-- A frame splits into what it was made of. -/
theorem splitFrame_headerBytes {messageType : UInt8}
    (htype : messageType = requestMessageType ∨ messageType = responseMessageType) {payload : Bytes}
    (hu32 : payload.length ≤ u32Max) :
    splitFrame (headerBytes messageType payload.length ++ payload) =
      .ok (⟨protocolVersion, messageType, payload.length⟩, payload) := by
  have hlen := length_headerBytes messageType payload.length
  simp only [splitFrame, except_bind_eq_ok, ensure_eq_ok]
  refine ⟨(), by simp [hlen], ⟨protocolVersion, messageType, payload.length⟩, ?_, (), by simp [hlen], ?_⟩
  · rw [List.take_left' hlen]
    exact decodeHeader_headerBytes htype hu32
  · rw [List.drop_left' hlen]
    rfl

theorem splitFrame_eq_ok {frame payload : Bytes} {header : FrameHeader} (h : splitFrame frame = .ok (header, payload)) :
    frame = headerBytes header.messageType payload.length ++ payload ∧
      header = ⟨protocolVersion, header.messageType, payload.length⟩ ∧ payload.length ≤ u32Max := by
  simp only [splitFrame, except_bind_eq_ok, ensure_eq_ok, except_pure_eq_ok, Prod.mk.injEq] at h
  obtain ⟨_, hlong, header', hheader, _, hlen, rfl, rfl⟩ := h
  have htake : (frame.take headerSize).length = headerSize := List.length_take_of_le hlong
  obtain ⟨hbytes, hversion, hu32⟩ := decodeHeader_eq_ok htake hheader
  have hpayload : (frame.drop headerSize).length = header'.payloadLength := by
    rw [List.length_drop, hlen, Nat.add_sub_cancel_left]
  refine ⟨?_, ?_, hpayload ▸ hu32⟩
  · rw [hpayload, ← hbytes, List.take_append_drop]
  · rw [hpayload, ← hversion]

/-- Framing is canonical: a frame decodes to a payload exactly when the payload is framed so. -/
theorem frame_canonical {messageType : UInt8}
    (htype : messageType = requestMessageType ∨ messageType = responseMessageType) {frame payload : Bytes}
    {maximum : Nat} :
    encodeFrame messageType payload maximum = .ok frame ↔ ∃ header, splitFrame frame = .ok (header, payload) ∧
      validatePayloadLength header payload maximum = .ok () ∧ header.messageType = messageType := by
  have hvalidate : ∀ header : FrameHeader, validatePayloadLength header payload maximum = .ok () ↔
      headerSize + header.payloadLength ≤ u64Max ∧ headerSize + header.payloadLength ≤ maximum ∧
        payload.length = header.payloadLength := by
    intro header
    simp only [validatePayloadLength, except_bind_eq_ok, ensure_eq_ok]
    tauto
  simp only [hvalidate]
  rw [encodeFrame_eq_ok]
  constructor
  · rintro ⟨⟨hu64, hmax, hu32⟩, rfl⟩
    exact ⟨_, splitFrame_headerBytes htype hu32, ⟨hu64, hmax, rfl⟩, rfl⟩
  · rintro ⟨header, hsplit, ⟨hu64, hmax, hlen⟩, rfl⟩
    obtain ⟨hframe, -, hu32⟩ := splitFrame_eq_ok hsplit
    rw [← hlen] at hu64 hmax
    exact ⟨⟨hu64, hmax, hu32⟩, hframe.symm⟩

/-! ### Request frames -/

theorem canonical_request (limits : ProtocolLimits) :
    Canonical (fun p : TenantId × Request => p.2.Fits)
      (fun p => do
        let body ← encodeRequestPayload limits p.2
        pure (u64 p.1.toNat ++ body)) (readRequest limits) where
  reads {p bs} hfits hw := by
    obtain ⟨tenant, request⟩ := p
    simp only [except_bind_eq_ok, except_pure_eq_ok] at hw
    obtain ⟨body, hbody, rfl⟩ := hw
    have htenant : tenant.toNat ≤ u64Max := Nat.le_pred_of_lt (UInt64.toNat_lt tenant)
    refine (reads_u64 htenant).bind (((canonical_requestPayload limits).reads hfits hbody).bind_nil ?_)
    rw [UInt64.ofNat_toNat]
    exact .pure _
  yields := by
    refine yields_u64.bind ?_
    rintro tenant _ ⟨rfl, htenant⟩
    refine (canonical_requestPayload limits).yields.bind ?_
    rintro request bs ⟨hfits, hbody⟩
    refine .pure ⟨hfits, ?_⟩
    have htoNat : (UInt64.ofNat tenant).toNat = tenant :=
      UInt64.toNat_ofNat_of_lt' (lt_of_le_u64Max htenant)
    dsimp only
    rw [hbody, except_ok_bind, htoNat, List.append_nil]
    rfl

theorem decodeRequestFrame_eq_ok {limits : ProtocolLimits} (hlimits : limits.validate = .ok ()) {frame : Bytes}
    {tenant : TenantId} {request : Request} :
    decodeRequestFrame frame limits = .ok (tenant, request) ↔
      request.Fits ∧ encodeRequest tenant request limits = .ok frame := by
  constructor
  · intro hdecode
    simp only [decodeRequestFrame, decodeRequestParts, except_bind_eq_ok, ensure_eq_ok] at hdecode
    obtain ⟨⟨header, payload⟩, hsplit, _, -, _, hvalid, _, htype, hread⟩ := hdecode
    obtain ⟨hfits, hwrite⟩ := (canonical_request limits).whole.mp hread
    simp only [except_bind_eq_ok, except_pure_eq_ok] at hwrite
    obtain ⟨body, hbody, rfl⟩ := hwrite
    refine ⟨hfits, ?_⟩
    rw [encodeRequest, hlimits, except_ok_bind, hbody, except_ok_bind]
    exact (frame_canonical (.inl rfl)).mpr ⟨header, hsplit, hvalid, htype⟩
  · rintro ⟨hfits, hencode⟩
    simp only [encodeRequest, except_bind_eq_ok] at hencode
    obtain ⟨_, -, body, hbody, hframe⟩ := hencode
    obtain ⟨header, hsplit, hvalid, htype⟩ := (frame_canonical (.inl rfl)).mp hframe
    have hread : (readRequest limits).whole .trailingBytes (u64 tenant.toNat ++ body) = .ok (tenant, request) := by
      refine (canonical_request limits).whole.mpr ⟨hfits, ?_⟩
      dsimp only
      rw [hbody]
      rfl
    rw [decodeRequestFrame, hsplit, except_ok_bind]
    show decodeRequestParts header (u64 tenant.toNat ++ body) limits = _
    rw [decodeRequestParts, hlimits, except_ok_bind, hvalid, except_ok_bind, ensure_pos htype, except_ok_bind, hread]

/-- Encoder and decoder of request frames accept the same frames, for the same requests. -/
theorem request_frames_canonical (limits : ProtocolLimits) (hlimits : limits.validate = .ok ()) :
    (∀ tenant request frame, request.Fits → encodeRequest tenant request limits = .ok frame →
      decodeRequestFrame frame limits = .ok (tenant, request)) ∧
    (∀ frame tenant request, decodeRequestFrame frame limits = .ok (tenant, request) →
      request.Fits ∧ encodeRequest tenant request limits = .ok frame) :=
  ⟨fun _ _ _ hfits hencode => (decodeRequestFrame_eq_ok hlimits).mpr ⟨hfits, hencode⟩,
    fun _ _ _ hdecode => (decodeRequestFrame_eq_ok hlimits).mp hdecode⟩

/-- A request with a revision of its own, a put, under the default limits. -/
def sampleRequest : Request :=
  .transact ⟨[.revisionEquals ⟨[0, 1], [255]⟩ 7], [.put ⟨[0], [1, 2]⟩ [0, 255, 9]]⟩

theorem request_frames_canonical_sample : ∃ frame, encodeRequest 99 sampleRequest {} = .ok frame ∧
    decodeRequestFrame frame {} = .ok (99, sampleRequest) := by
  have hfits : sampleRequest.Fits := by
    intro condition hcondition
    rw [List.mem_singleton.mp hcondition]
    show 7 ≤ u64Max
    decide
  exact ⟨_, rfl, (request_frames_canonical {} validate_default).1 99 sampleRequest _ hfits rfl⟩

/-! ### Texts -/

theorem fromUtf8_utf8 (s : String) : fromUtf8 (utf8 s) = .ok s := by
  have hvalid := s.isValidUTF8
  have harray : (⟨(utf8 s).toArray⟩ : ByteArray) = s.toByteArray := by simp [utf8, String.toUTF8]
  rw [fromUtf8, harray, String.fromUTF8?, dif_pos hvalid]
  rfl

theorem fromUtf8_eq_ok {bytes : Bytes} {s : String} (h : fromUtf8 bytes = .ok s) : utf8 s = bytes := by
  unfold fromUtf8 String.fromUTF8? at h
  split at h
  · rename_i t ht
    split at ht
    · cases ht
      cases h
      simp [utf8, String.toUTF8, String.fromUTF8]
    · cases ht
  · cases h

theorem length_utf8_ofList (l : List Char) : (utf8 (String.ofList l)).length = (l.map Char.utf8Size).sum := by
  rw [utf8, String.toUTF8, String.toByteArray_ofList, List.utf8Encode, Array.length_toList]
  refine (List.size_toByteArray).trans ?_
  rw [List.length_flatMap]
  congr 2
  funext c
  exact String.length_utf8EncodeChar c

/-- A text has no more characters than bytes. -/
theorem length_toList_le (s : String) : s.toList.length ≤ (utf8 s).length := by
  rw [← String.ofList_toList (s := s), length_utf8_ofList, String.toList_ofList]
  calc s.toList.length = (s.toList.map fun _ => 1).sum := by simp
    _ ≤ _ := List.sum_le_sum fun c _ => c.utf8Size_pos

theorem takeChars_of_le {count : Nat} {s : String} (h : (utf8 s).length ≤ count) : takeChars count s = s := by
  rw [takeChars, List.take_of_length_le ((length_toList_le s).trans h), String.ofList_toList]

/-! ### Responses -/

section Limited
variable (limits : ProtocolLimits)

theorem canonical_revisionState :
    Canonical (fun s => s.revision ≤ u64Max) (encodeRevisionState limits) (decodeRevisionState limits) where
  reads {state bs} hfits hw := by
    cases state with
    | present value revision =>
      simp only [encodeRevisionState, except_bind_eq_ok, except_pure_eq_ok] at hw
      obtain ⟨bytes, hvalue, rfl⟩ := hw
      refine .tag (((canonical_bytes _).reads True.intro hvalue).bind ?_)
      exact (reads_u64 hfits).bind_nil (.pure _)
    | missing revision =>
      cases hw
      exact .tag ((reads_u64 hfits).bind_nil (.pure _))
  yields := by
    refine .tag fun state => .ite ?_ fun _ => .ite ?_ fun _ => .fail _
    · rintro rfl
      refine (canonical_bytes _).yields.bind ?_
      rintro value bs ⟨-, hvalue⟩
      refine yields_u64.bind_pure fun revision _ h => ⟨h.2, ?_⟩
      rw [encodeRevisionState, hvalue, except_ok_bind, h.1]
      rfl
    · rintro rfl
      exact yields_u64.bind_pure fun _ _ h => ⟨h.2, by rw [h.1]; rfl⟩

theorem canonical_document :
    Canonical (fun d => d.revision ≤ u64Max) (encodeDocument limits) (decodeDocument limits) where
  reads {document bs} hfits hw := by
    simp only [encodeDocument, except_bind_eq_ok, except_pure_eq_ok] at hw
    obtain ⟨key, hkey, value, hvalue, rfl⟩ := hw
    refine ((canonical_key limits).reads True.intro hkey).bind ?_
    refine ((canonical_bytes _).reads True.intro hvalue).bind ?_
    exact (reads_u64 hfits).bind_nil (.pure _)
  yields := by
    refine (canonical_key limits).yields.bind ?_
    rintro key bs ⟨-, hkey⟩
    refine (canonical_bytes _).yields.bind ?_
    rintro value cs ⟨-, hvalue⟩
    refine yields_u64.bind_pure fun revision _ h => ⟨h.2, ?_⟩
    rw [encodeDocument, hkey, except_ok_bind, hvalue, except_ok_bind, h.1]
    rfl

theorem canonical_transactionOutcome :
    Canonical (fun o : TransactionOutcome => ∀ lsn ∈ o.commitLsn, lsn ≤ u64Max)
      (fun o => (.ok (encodeTransactionOutcome o) : Wire Bytes)) decodeTransactionOutcome where
  reads {outcome bs} hfits hw := by
    obtain ⟨_ | lsn⟩ := outcome
    · cases hw
      exact .tag (.pure _)
    · cases hw
      exact .tag ((reads_u64 (hfits lsn rfl)).bind_nil (.pure _))
  yields := by
    refine .tag fun flag => .ite ?_ fun _ => .ite ?_ fun _ => .fail _
    · rintro rfl
      exact .pure ⟨by simp, rfl⟩
    · rintro rfl
      exact yields_u64.bind_pure fun _ _ h => ⟨by simpa using h.2, by rw [h.1]; rfl⟩

/-- The revisions and LSNs of a response are 64-bit numbers. -/
def Response.Fits : Response → Prop
  | .get state => state.revision ≤ u64Max
  | .put revision => revision ≤ u64Max
  | .delete revision => revision ≤ u64Max
  | .query documents => ∀ d ∈ documents, d.revision ≤ u64Max
  | .scan documents => ∀ d ∈ documents, d.revision ≤ u64Max
  | .transact outcome => ∀ lsn ∈ outcome.commitLsn, lsn ≤ u64Max

theorem canonical_responsePayload (opcode : UInt8) :
    Canonical (fun r : Response => r.Fits ∧ responseOpcode r = opcode) (encodeResponsePayload limits)
      (decodeResponsePayload limits opcode) where
  reads {response bs} hfits hw := by
    obtain ⟨hfits, rfl⟩ := hfits
    cases response with
    | get state => exact ((canonical_revisionState limits).reads hfits hw).bind_nil (.pure _)
    | put | delete =>
      cases hw
      exact (reads_u64 hfits).bind_nil (.pure _)
    | query | scan =>
      exact ((canonical_list (canonical_document limits) _).reads hfits hw).bind_nil (.pure _)
    | transact outcome => exact (canonical_transactionOutcome.reads hfits hw).bind_nil (.pure _)
  yields := by
    refine .ite ?_ fun _ => .ite ?_ fun _ => .ite ?_ fun _ =>
      .ite ?_ fun _ => .ite ?_ fun _ => .ite ?_ fun _ => .fail _
    · rintro rfl
      exact (canonical_revisionState limits).yields.bind_pure fun _ _ h => ⟨⟨h.1, rfl⟩, h.2⟩
    · rintro rfl
      exact yields_u64.bind_pure fun _ _ h => ⟨⟨h.2, rfl⟩, by rw [h.1]; rfl⟩
    · rintro rfl
      exact yields_u64.bind_pure fun _ _ h => ⟨⟨h.2, rfl⟩, by rw [h.1]; rfl⟩
    · rintro rfl
      exact (canonical_list (canonical_document limits) _).yields.bind_pure fun _ _ h => ⟨⟨h.1, rfl⟩, h.2⟩
    · rintro rfl
      exact (canonical_list (canonical_document limits) _).yields.bind_pure fun _ _ h => ⟨⟨h.1, rfl⟩, h.2⟩
    · rintro rfl
      exact canonical_transactionOutcome.yields.bind_pure fun _ _ h => ⟨⟨h.1, rfl⟩, h.2⟩

/-! ### Errors -/

/-- Its revision is one of 64 bits. -/
def FitsExpectation : ConditionExpectation → Prop
  | .revisionEquals revision => revision ≤ u64Max
  | .exists => True
  | .notExists => True

theorem canonical_observedState :
    Canonical (fun s => s.revision ≤ u64Max) (fun s => (.ok (encodeObservedState s) : Wire Bytes)) decodeObservedState where
  reads {state bs} hfits hw := by
    cases state with
    | present | missing =>
      cases hw
      exact .tag ((reads_u64 hfits).bind_nil (.pure _))
  yields := by
    refine .tag fun state => .ite ?_ fun _ => .ite ?_ fun _ => .fail _
    · rintro rfl
      exact yields_u64.bind_pure fun _ _ h => ⟨h.2, by rw [h.1]; rfl⟩
    · rintro rfl
      exact yields_u64.bind_pure fun _ _ h => ⟨h.2, by rw [h.1]; rfl⟩

theorem canonical_expectation :
    Canonical FitsExpectation (fun e => (.ok (encodeExpectation e) : Wire Bytes)) decodeExpectation where
  reads {e bs} hfits hw := by
    cases e with
    | revisionEquals revision =>
      cases hw
      exact .tag ((reads_u64 hfits).bind_nil (.pure _))
    | «exists» | notExists =>
      cases hw
      exact .tag (.pure _)
  yields := by
    refine .tag fun kind => .ite ?_ fun _ => .ite ?_ fun _ =>
      .ite ?_ fun _ => .fail _
    · rintro rfl
      exact yields_u64.bind_pure fun _ _ h => ⟨h.2, by rw [h.1]; rfl⟩
    · rintro rfl
      exact .pure ⟨True.intro, rfl⟩
    · rintro rfl
      exact .pure ⟨True.intro, rfl⟩

/-- Its revisions are of 64 bits. -/
structure ConflictDetails.Fits (c : ConflictDetails) : Prop where
  expected : FitsExpectation c.expected
  actual : c.actual.revision ≤ u64Max

theorem canonical_conflict :
    Canonical ConflictDetails.Fits (encodeConflict limits) (decodeConflict limits) where
  reads {conflict bs} hfits hw := by
    simp only [encodeConflict, except_bind_eq_ok, except_pure_eq_ok] at hw
    obtain ⟨key, hkey, rfl⟩ := hw
    refine ((canonical_key limits).reads True.intro hkey).bind ?_
    refine (canonical_expectation.reads hfits.expected rfl).bind ?_
    exact (canonical_observedState.reads hfits.actual rfl).bind_nil (.pure _)
  yields := by
    refine (canonical_key limits).yields.bind ?_
    rintro key bs ⟨-, hkey⟩
    refine canonical_expectation.yields.bind ?_
    rintro expected cs ⟨hexpected, hcs⟩
    cases hcs
    refine canonical_observedState.yields.bind ?_
    rintro actual ds ⟨hactual, hds⟩
    cases hds
    refine .pure ⟨⟨hexpected, hactual⟩, ?_⟩
    rw [encodeConflict, hkey, except_ok_bind, List.append_nil]
    rfl

theorem applicationErrorKind_code (kind : ApplicationErrorKind) :
    applicationErrorKind (applicationErrorKindCode kind) = .ok kind := by
  cases kind <;> rfl

theorem applicationErrorKind_eq_ok {code : UInt8} {kind : ApplicationErrorKind}
    (h : applicationErrorKind code = .ok kind) : applicationErrorKindCode kind = code := by
  unfold applicationErrorKind at h
  repeat' split at h
  all_goals cases h
  all_goals simp_all [applicationErrorKindCode]

theorem mutationOutcome_code (outcome : MutationOutcome) :
    mutationOutcome (mutationOutcomeCode outcome) = .ok outcome := by
  cases outcome <;> rfl

theorem mutationOutcome_eq_ok {code : UInt8} {outcome : MutationOutcome}
    (h : mutationOutcome code = .ok outcome) : mutationOutcomeCode outcome = code := by
  unfold mutationOutcome at h
  repeat' split at h
  all_goals cases h
  all_goals simp_all [mutationOutcomeCode]

/-- The detail keeps to the limit, in bytes, and the numbers of a conflict are 64-bit numbers. -/
structure ApplicationError.Fits (e : ApplicationError) : Prop where
  detail : (utf8 e.detail).length ≤ limits.maxErrorDetailSize
  conflict : ∀ c ∈ e.conflict, c.Fits

theorem canonical_applicationError :
    Canonical (ApplicationError.Fits limits) (encodeApplicationError limits) (decodeApplicationError limits) where
  reads {error bs} hfits hw := by
    simp only [encodeApplicationError, except_bind_eq_ok, except_pure_eq_ok, takeChars_of_le hfits.detail] at hw
    obtain ⟨detail, hdetail, conflict, hconflict, rfl⟩ := hw
    refine .tag (.ofExcept_bind (applicationErrorKind_code _) ?_)
    refine ((canonical_bytes _).reads True.intro hdetail).bind (.ofExcept_bind (fromUtf8_utf8 _) ?_)
    refine .tag (.ofExcept_bind (mutationOutcome_code _) ?_)
    exact ((canonical_optional (canonical_conflict limits)).reads hfits.conflict hconflict).bind_nil (.pure _)
  yields := by
    refine .tag fun kindCode => .ofExcept_bind fun kind hkind => ?_
    refine (canonical_bytes _).yields.bind ?_
    rintro bytes bs ⟨-, hbytes⟩
    refine .ofExcept_bind fun detail hdetail => ?_
    refine .tag fun outcomeCode => .ofExcept_bind fun outcome houtcome => ?_
    refine (canonical_optional (canonical_conflict limits)).yields.bind ?_
    rintro conflict cs ⟨hfits, hconflict⟩
    have hutf8 := fromUtf8_eq_ok hdetail
    have hshort : (utf8 detail).length ≤ limits.maxErrorDetailSize := by
      simp only [encodeBytes, except_bind_eq_ok, ensure_eq_ok] at hbytes
      obtain ⟨_, hmax, -⟩ := hbytes
      rwa [hutf8]
    refine .pure ⟨⟨hshort, hfits⟩, ?_⟩
    rw [encodeApplicationError, takeChars_of_le hshort, hutf8, hbytes, except_ok_bind, hconflict, except_ok_bind,
      applicationErrorKind_eq_ok hkind, mutationOutcome_eq_ok houtcome, List.append_nil]
    rfl

end Limited

/-! ### Response frames -/

def ResponseEnvelope.Fits (limits : ProtocolLimits) : ResponseEnvelope → Prop
  | .success response => response.Fits
  | .error e => e.Fits limits

/-- A response that a request of opcode `expected` may be answered with. -/
def ResponseEnvelope.Expected (expected : Option UInt8) : ResponseEnvelope → Prop
  | .success response => ∀ opcode ∈ expected, responseOpcode response = opcode
  | .error _ => True

theorem canonical_envelope (limits : ProtocolLimits) (expected : Option UInt8) :
    Canonical (fun e => e.Fits limits ∧ e.Expected expected) (encodeEnvelope limits) (readEnvelope expected limits) where
  reads {envelope bs} hfits hw := by
    obtain ⟨hfits, hexpected⟩ := hfits
    cases envelope with
    | success response =>
      simp only [encodeEnvelope, except_bind_eq_ok, except_pure_eq_ok] at hw
      obtain ⟨body, hbody, rfl⟩ := hw
      refine .tag (.tag (.ofExcept_bind (a := ()) ?_ ?_))
      · cases expected with
        | none => rfl
        | some opcode => exact ensure_pos (hexpected opcode rfl) _
      · exact ((canonical_responsePayload limits _).reads ⟨hfits, rfl⟩ hbody).bind_nil (.pure _)
    | error error =>
      simp only [encodeEnvelope, except_bind_eq_ok, except_pure_eq_ok] at hw
      obtain ⟨body, hbody, rfl⟩ := hw
      exact .tag (((canonical_applicationError limits).reads hfits hbody).bind_nil (.pure _))
  yields := by
    refine .tag fun status => .ite ?_ fun _ => .ite ?_ fun _ => .fail _
    · rintro rfl
      refine .tag fun actual => .ofExcept_bind fun _ hexpected => ?_
      refine (canonical_responsePayload limits actual).yields.bind ?_
      rintro response bs ⟨⟨hfits, rfl⟩, hbody⟩
      refine .pure ⟨⟨hfits, ?_⟩, ?_⟩
      · rintro opcode rfl
        exact ensure_eq_ok.mp hexpected
      · rw [encodeEnvelope, hbody, except_ok_bind, List.append_nil]
        rfl
    · rintro rfl
      refine (canonical_applicationError limits).yields.bind ?_
      rintro error bs ⟨hfits, hbody⟩
      refine .pure ⟨⟨hfits, True.intro⟩, ?_⟩
      rw [encodeEnvelope, hbody, except_ok_bind, List.append_nil]
      rfl

/-- A frame decodes to a response exactly when the response, of the expected kind, encodes to it. -/
theorem decodeResponseFrame_eq_ok {limits : ProtocolLimits} (hlimits : limits.validate = .ok ())
    {expected : Option UInt8} {frame : Bytes} {envelope : ResponseEnvelope} :
    decodeResponseFrame frame expected limits = .ok envelope ↔
      (envelope.Fits limits ∧ envelope.Expected expected) ∧ encodeResponse envelope limits = .ok frame := by
  constructor
  · intro hdecode
    simp only [decodeResponseFrame, decodeResponseParts, except_bind_eq_ok, ensure_eq_ok] at hdecode
    obtain ⟨⟨header, payload⟩, hsplit, _, -, _, hvalid, _, htype, hread⟩ := hdecode
    obtain ⟨hfits, hwrite⟩ := (canonical_envelope limits expected).whole.mp hread
    refine ⟨hfits, ?_⟩
    rw [encodeResponse, hlimits, except_ok_bind, hwrite, except_ok_bind]
    exact (frame_canonical (.inr rfl)).mpr ⟨header, hsplit, hvalid, htype⟩
  · rintro ⟨hfits, hencode⟩
    simp only [encodeResponse, except_bind_eq_ok] at hencode
    obtain ⟨_, -, payload, hpayload, hframe⟩ := hencode
    obtain ⟨header, hsplit, hvalid, htype⟩ := (frame_canonical (.inr rfl)).mp hframe
    rw [decodeResponseFrame, hsplit, except_ok_bind]
    show decodeResponseParts header payload expected limits = _
    rw [decodeResponseParts, hlimits, except_ok_bind, hvalid, except_ok_bind, ensure_pos htype, except_ok_bind]
    exact (canonical_envelope limits expected).whole.mpr ⟨hfits, hpayload⟩

/-- Encoder and decoder of response frames accept the same frames, for the same responses; told which
kind to expect, the decoder refuses exactly the successes of another kind. -/
theorem response_frames_canonical (limits : ProtocolLimits) (hlimits : limits.validate = .ok ()) :
    (∀ envelope frame, envelope.Fits limits → encodeResponse envelope limits = .ok frame →
      decodeResponseFrame frame none limits = .ok envelope ∧
      ∀ expected, decodeResponseFrame frame (some expected) limits = .ok envelope ↔
        (∃ error, envelope = .error error) ∨ ∃ response, envelope = .success response ∧ responseOpcode response = expected) ∧
    (∀ frame envelope, decodeResponseFrame frame none limits = .ok envelope →
      envelope.Fits limits ∧ encodeResponse envelope limits = .ok frame) := by
  refine ⟨fun envelope frame hfits hencode => ⟨?_, fun expected => ?_⟩, fun frame envelope hdecode => ?_⟩
  · refine (decodeResponseFrame_eq_ok hlimits).mpr ⟨⟨hfits, ?_⟩, hencode⟩
    cases envelope with
    | success response => exact fun opcode hopcode => by cases hopcode
    | error error => exact True.intro
  · rw [decodeResponseFrame_eq_ok hlimits]
    cases envelope with
    | success | error => simp [hfits, hencode, ResponseEnvelope.Expected]
  · obtain ⟨⟨hfits, -⟩, hencode⟩ := (decodeResponseFrame_eq_ok hlimits).mp hdecode
    exact ⟨hfits, hencode⟩

def sampleError : ApplicationError :=
  ⟨.conflict, "conflict", .notApplied, some ⟨⟨[1], [2]⟩, .revisionEquals 8, .missing 9⟩⟩

theorem response_frames_canonical_sample : ∃ frame, encodeResponse (.error sampleError) {} = .ok frame ∧
    decodeResponseFrame frame none {} = .ok (.error sampleError) := by
  have hfits : (ResponseEnvelope.error sampleError).Fits {} := by
    refine ⟨by decide, ?_⟩
    intro c hc
    cases hc
    exact ⟨by show 8 ≤ u64Max; decide, by show 9 ≤ u64Max; decide⟩
  obtain ⟨frame, hencode⟩ : ∃ frame, encodeResponse (.error sampleError) {} = .ok frame := ⟨_, rfl⟩
  exact ⟨frame, hencode, ((response_frames_canonical {} validate_default).1 _ frame hfits hencode).1⟩

end Dodb.Protocol
