import Dodb.Storage.WalFile

/-! What it takes for arbitrary bytes to be accepted as a log.

The frames a scan finds are the frames whose bytes the log begins with
(`scanFrames_eq_ok`), and they fall into runs (`Run`): the page images of one batch, in
a row, and the COMMIT frame right behind them if there is one. The scanner's state after
some frames is what their runs say (`Scanned`), frame by frame (`Scanned.step`); a
COMMIT frame is only ever accepted behind exactly its own images. -/
namespace Dodb
open Lib

variable [Crc32c]

/-! ### Frames in arbitrary bytes -/

omit [Crc32c] in
theorem WalRecordType.toByte_of_decode {b : UInt8} {t : WalRecordType} (h : WalRecordType.decode b = .ok t) :
    t.toByte = b := by
  unfold WalRecordType.decode at h
  split at h
  · cases h
    exact (‹b = 1›).symm
  · split at h
    · cases h
      exact (‹b = 2›).symm
    · split at h
      · cases h
        exact (‹b = 3›).symm
      · cases h

/-- Bytes that decode as a header are the header of a frame with the payload they were written for. -/
theorem frameHeader_of_decodeHeader {bytes payload : Bytes} {header : DecodedHeader}
    (h : decodeHeader bytes = .ok header) (hpayload : payload.length = header.payloadLength)
    (hlength : header.frameLength = walHeaderSize + header.payloadLength + walTrailerSize)
    (hcrc : ofLe (slice bytes 44 4) = (Crc32c.crc32c payload).toNat) {frame : Frame}
    (hframe : frame = ⟨header.version, header.recordType, header.recordLsn, header.batchId, header.recordIndex, payload⟩) :
    bytes = frameHeader frame (headerChecksum (frameHeader frame 0)) := by
  simp only [decodeHeader, except_bind_eq_ok, ensure_eq_ok] at h
  obtain ⟨_, hlen, _, hmagic, _, _, _, ⟨hzero, hreserved⟩, _, hchecksum, recordType, htype, heq⟩ := h
  cases heq
  rw [walHeaderSize] at hlen
  have hfield : ∀ offset width, offset + width ≤ 48 → slice bytes offset width = le width (ofLe (slice bytes offset width)) :=
    fun offset width hle => (le_ofLe_slice (by rw [hlen]; exact hle)).symm
  have hreserved' : slice bytes 36 4 = zeros 4 := by
    have := eq_zeros_of_all hreserved
    rwa [length_slice _ _ _ (by omega)] at this
  have htype' : slice bytes 6 2 = [recordType.toByte, 0] := by
    rw [slice_two (by omega), hzero, WalRecordType.toByte_of_decode htype]
  have hfields : Fields bytes 0 [walMagic, le 2 (ofLe (slice bytes 4 2)), [recordType.toByte, 0],
      le 4 (ofLe (slice bytes 8 4)), le 4 (ofLe (slice bytes 12 4)), le 8 (ofLe (slice bytes 16 8)),
      le 8 (ofLe (slice bytes 24 8)), le 4 (ofLe (slice bytes 32 4)), zeros 4, le 4 (ofLe (slice bytes 40 4)),
      le 4 (ofLe (slice bytes 44 4))] := by
    simp only [Fields, Nat.reduceAdd, length_walMagic, length_le, length_zeros, List.length_cons, List.length_nil]
    exact ⟨hmagic, hfield 4 2 (by omega), htype', hfield 8 4 (by omega), hfield 12 4 (by omega),
      hfield 16 8 (by omega), hfield 24 8 (by omega), hfield 32 4 (by omega), hreserved', hfield 40 4 (by omega),
      hfield 44 4 (by omega), trivial⟩
  have hparts : bytes = frameHeader frame (ofLe (slice bytes headerChecksumOffset 4)) := by
    refine (hfields.drop_eq (by simp [hlen])).trans ?_
    subst hframe
    dsimp only at hpayload hlength
    simp only [List.foldr, List.append_nil, frameHeader, headerChecksumOffset, hpayload, ← hlength, hcrc]
  have hsum : ofLe (slice bytes headerChecksumOffset 4) = headerChecksum (frameHeader frame 0) := by
    rw [hchecksum]
    conv_lhs => rw [hparts]
    exact headerChecksum_frameHeader frame _
  rwa [hsum] at hparts

/-- A frame found at the front of some bytes is what they begin with. -/
theorem nextFrame_eq_some {bytes : Bytes} {offset : Nat} {version : Option Nat} {previous : Option Lsn} {frame : Frame}
    {length : Nat} (h : nextFrame bytes offset version previous = .ok (some (frame, length))) :
    length = frame.length ∧ length ≤ bytes.length ∧ bytes.take length = frameBytes frame ∧ frame.Encodable ∧
      (∀ v ∈ version, v = frame.formatVersion) ∧ ∀ p ∈ previous, p < frame.recordLsn := by
  unfold nextFrame at h
  split at h
  · cases h
  rename_i hshort
  simp only [except_bind_eq_ok, ensure_eq_ok] at h
  obtain ⟨header, hheader, _, hversion, _, ⟨hmin, hlength, hmax⟩, h⟩ := h
  split at h
  · cases h
  rename_i hfits
  simp only [except_bind_eq_ok, ensure_eq_ok] at h
  obtain ⟨_, htrailer, _, hprevious, _, hcrc, heq⟩ := h
  cases heq
  have hpayload : (slice bytes walHeaderSize header.payloadLength).length = header.payloadLength :=
    length_slice _ _ _ (by omega)
  generalize hframe : (⟨header.version, header.recordType, header.recordLsn, header.batchId, header.recordIndex,
    slice bytes walHeaderSize header.payloadLength⟩ : Frame) = frame
  have hhead := frameHeader_of_decodeHeader hheader hpayload hlength hcrc hframe.symm
  have hflen : frame.length = header.frameLength := by
    rw [← hframe, Frame.length, hpayload, hlength]
  have htail : slice bytes (walHeaderSize + header.payloadLength) walTrailerSize = le 4 frame.length := by
    rw [hflen, ← htrailer]
    exact (le_ofLe_slice (by omega)).symm
  refine ⟨hflen.symm, by omega, ?_, ?_, fun v hv => ?_, fun p hp => ?_⟩
  · rw [frameBytes, ← hhead, ← htail, hlength, Nat.add_assoc, ← hframe]
    unfold slice
    rw [List.drop_zero, ← List.drop_drop, ← List.take_add, ← List.take_add]
  · simp only [decodeHeader, except_bind_eq_ok, ensure_eq_ok] at hheader
    obtain ⟨_, hlen, _, _, _, hv, _, _, _, _, _, _, heq⟩ := hheader
    have hfield : ∀ o w, o + w ≤ walHeaderSize → ofLe (slice (slice bytes 0 walHeaderSize) o w) < 256 ^ w := by
      intro o w hle
      have := ofLe_lt (slice (slice bytes 0 walHeaderSize) o w)
      rwa [length_slice _ _ _ (by rw [hlen]; exact hle)] at this
    cases heq
    rw [← hframe]
    exact ⟨hv, Nat.le_sub_one_of_lt (hfield 16 8 (by decide)), Nat.le_sub_one_of_lt (hfield 24 8 (by decide)),
      Nat.le_sub_one_of_lt (hfield 32 4 (by decide)), by dsimp only at hpayload hmax ⊢; rw [hpayload]; exact hmax⟩
  · rw [Option.mem_def.mp hv, Option.all_some, decide_eq_true_eq] at hversion
    rw [← hframe, hversion]
  · rw [Option.mem_def.mp hp, Option.all_some, decide_eq_true_eq] at hprevious
    rw [← hframe]
    exact hprevious

/-- What a scan finds: the frames whose bytes the log begins with. -/
theorem scanFrames_eq_ok {bound : Nat} {bytes : Bytes} {offset : Nat} {version : Option Nat} {previous : Option Lsn}
    {frames : List Frame} {validLength : Nat}
    (h : scanFrames bound bytes offset version previous = .ok (frames, validLength)) :
    validLength = offset + framesLength frames ∧ framesLength frames ≤ bytes.length ∧
      bytes.take (framesLength frames) = framesBytes frames ∧ Increasing previous frames ∧
      ∃ v, (∀ w ∈ version, w = v) ∧ ∀ f ∈ frames, f.Encodable ∧ f.formatVersion = v := by
  induction bound generalizing bytes offset version previous frames validLength with
  | zero =>
    cases h
    exact ⟨rfl, Nat.zero_le _, rfl, True.intro, version.getD 0, fun w hw => by rw [hw]; rfl, fun f hf => nomatch hf⟩
  | succ bound ih =>
    simp only [scanFrames, except_bind_eq_ok] at h
    obtain ⟨found, hfound, h⟩ := h
    cases found with
    | none =>
      cases h
      exact ⟨rfl, Nat.zero_le _, rfl, True.intro, version.getD 0, fun w hw => by rw [hw]; rfl, fun f hf => nomatch hf⟩
    | some found =>
      obtain ⟨frame, length⟩ := found
      simp only [except_bind_eq_ok] at h
      obtain ⟨⟨rest, valid⟩, hrest, heq⟩ := h
      cases heq
      obtain ⟨hlength, hle, htake, hencodable, hversion, hprevious⟩ := nextFrame_eq_some hfound
      obtain ⟨hvalid, hle', htake', hinc, v, hv, hall⟩ := ih hrest
      rw [List.length_drop] at hle'
      have hsum : framesLength (frame :: rest) = length + framesLength rest := by
        rw [hlength]
        rfl
      have hv' : frame.formatVersion = v := by
        cases version with
        | none => exact hv _ rfl
        | some w => exact (hversion w rfl).symm.trans (hv _ rfl)
      refine ⟨by rw [hvalid, hsum, Nat.add_assoc], by dsimp only; omega, ?_, ⟨hprevious, hinc⟩, v, fun w hw => ?_, fun f hf => ?_⟩
      · rw [hsum, List.take_add, htake, htake']
        rfl
      · exact (hversion w hw).trans hv'
      · rcases List.mem_cons.mp hf with rfl | hf
        · exact ⟨hencodable, hv'⟩
        · exact hall f hf

/-! ### Runs of frames -/

/-- The page images of one batch, in a row, and the COMMIT frame right behind them if there is one. -/
structure Run where
  batchId : Nat
  images : List Frame
  commit : Option Frame

namespace Run

def frames (r : Run) : List Frame := r.images ++ r.commit.toList

def firstLsn (r : Run) : Lsn := (r.images.head?.map Frame.recordLsn).getD 0

/-- The page an image frame holds. -/
def pageOf (frame : Frame) : WalPageImage := ⟨ofLe (slice frame.payload 0 8), frame.payload.drop 8⟩

def pages (r : Run) : List WalPageImage := r.images.map pageOf

def digestInput (r : Run) : Bytes := r.images.flatMap Frame.payload

/-- The commit a run adds to the log. -/
def committed (r : Run) : Option WalCommit := r.commit.map fun c => ⟨r.batchId, c.recordLsn, r.pages⟩

/-- What the scanner keeps of a run that is not committed. -/
def pending (r : Run) : Option PendingBatch :=
  if r.commit.isSome then none else some ⟨r.batchId, r.firstLsn, r.pages, r.digestInput⟩

/-- `c` is the COMMIT frame of exactly the images of `r`. -/
structure Closes (r : Run) (c : Frame) : Prop where
  recordType : c.recordType = .commit
  batchId : c.batchId = r.batchId
  index : c.recordIndex = r.images.length
  imageIndex : ∀ (j : Nat) (f : Frame), r.images[j]? = some f → f.recordIndex = j
  payload : decodeCommitPayload c.payload = .ok (r.firstLsn, r.images.length, digest r.digestInput)
  lsn : ∀ page ∈ r.pages, validatePageImageLsn page c.recordLsn = .ok ()

/-- Images of one batch, numbered in order, and a COMMIT that closes them if there is one. -/
structure Sound (r : Run) : Prop where
  images_ne : r.images ≠ []
  image : ∀ f ∈ r.images, f.recordType = .pageImage ∧ f.batchId = r.batchId ∧
    decodePageImage f.payload = .ok (pageOf f) ∧ validatePageImage (pageOf f) = .ok ()
  index : ∀ j f, r.images[j]? = some f → f.recordIndex = j % 2 ^ 32
  commit : ∀ c ∈ r.commit, r.Closes c

omit [Crc32c] in
theorem length_pages (r : Run) : r.pages.length = r.images.length := List.length_map ..

/-- A run with one more image. -/
def addImage (r : Run) (f : Frame) : Run := {r with images := r.images ++ [f]}

theorem Sound.addImage {r : Run} (h : r.Sound) (hopen : r.commit = none) {f : Frame}
    (hf : f.recordType = .pageImage ∧ f.batchId = r.batchId ∧ decodePageImage f.payload = .ok (pageOf f) ∧
      validatePageImage (pageOf f) = .ok ()) (hindex : f.recordIndex = r.images.length % 2 ^ 32) :
    (r.addImage f).Sound where
  images_ne := by simp [Run.addImage]
  image g hg := by
    rcases List.mem_append.mp hg with hg | hg
    · exact h.image g hg
    · rw [List.mem_singleton.mp hg]
      exact hf
  index j g hg := by
    rw [Run.addImage, List.getElem?_append] at hg
    split at hg
    · exact h.index j g hg
    · rename_i hj
      obtain ⟨hlt, rfl⟩ := List.getElem?_eq_some_iff.mp hg
      rw [List.length_singleton] at hlt
      have hj' : j = r.images.length := by omega
      subst hj'
      simpa using hindex
  commit c hc := by
    rw [show (r.addImage f).commit = none from hopen] at hc
    cases hc

theorem pending_addImage {r : Run} (h : r.Sound) (hopen : r.commit = none) (f : Frame) :
    (r.addImage f).pending = some ⟨r.batchId, r.firstLsn, r.pages ++ [pageOf f], r.digestInput ++ f.payload⟩ := by
  obtain ⟨first, rest, himages⟩ := List.exists_cons_of_ne_nil h.images_ne
  simp [pending, addImage, hopen, firstLsn, pages, digestInput, himages]

end Run

/-! ### What the scanner makes of frames -/

/-- The scanner's state `s` after the frames of `runs`. -/
structure Scanned (runs : List Run) (s : ScanState) : Prop where
  sound : ∀ r ∈ runs, r.Sound
  batchIds : (runs.map Run.batchId).Pairwise (· < ·)
  positive : ∀ r ∈ runs, 0 < r.batchId
  committed : s.committed = runs.filterMap Run.committed
  pending : s.pending = runs.getLast?.bind Run.pending
  highest : s.highestBatchIdSeen = (runs.getLast?.map Run.batchId).getD 0
  maxBatchId : s.maxBatchId = s.highestBatchIdSeen

namespace Scanned
variable {runs : List Run} {s s' : ScanState} {frame : Frame}

theorem batchId_le (h : Scanned runs s) {r : Run} (hr : r ∈ runs) : r.batchId ≤ s.highestBatchIdSeen := by
  rw [h.highest]
  rcases List.eq_nil_or_concat runs with rfl | ⟨rs, last, rfl⟩
  · cases hr
  rw [List.concat_eq_append] at *
  rw [List.getLast?_append, List.getLast?_singleton, Option.some_or, Option.map_some, Option.getD_some]
  have hids := h.batchIds
  rw [List.map_append, List.pairwise_append] at hids
  rcases List.mem_append.mp hr with hr | hr
  · exact (hids.2.2 _ (List.mem_map_of_mem hr) _ (List.mem_singleton.mpr rfl)).le
  · rw [List.mem_singleton.mp hr]

/-- The run the scanner is in. -/
theorem exists_open (h : Scanned runs s) {p : PendingBatch} (hp : s.pending = some p) :
    ∃ rs r, runs = rs ++ [r] ∧ r.commit = none ∧ p = ⟨r.batchId, r.firstLsn, r.pages, r.digestInput⟩ ∧
      s.highestBatchIdSeen = r.batchId := by
  have hpending := h.pending
  have hhighest := h.highest
  rcases List.eq_nil_or_concat runs with rfl | ⟨rs, r, rfl⟩
  · rw [hp] at hpending
    cases hpending
  rw [List.concat_eq_append, List.getLast?_append, List.getLast?_singleton, Option.some_or] at hpending hhighest
  rw [hp, Option.bind_some, Run.pending] at hpending
  split at hpending
  · cases hpending
  · rename_i hopen
    exact ⟨rs, r, List.concat_eq_append .., by simpa using hopen, Option.some.inj hpending, hhighest⟩

/-- Replacing the last run. -/
theorem replace {rs : List Run} {r r' : Run} (h : Scanned (rs ++ [r]) s) (hid : r'.batchId = r.batchId) (hr' : r'.Sound)
    (hcommitted : s'.committed = rs.filterMap Run.committed ++ r'.committed.toList) (hpending : s'.pending = r'.pending)
    (hhighest : s'.highestBatchIdSeen = r.batchId) (hmax : s'.maxBatchId = s'.highestBatchIdSeen) :
    Scanned (rs ++ [r']) s' where
  sound q hq := by
    rcases List.mem_append.mp hq with hq | hq
    · exact h.sound q (List.mem_append_left _ hq)
    · rw [List.mem_singleton.mp hq]
      exact hr'
  batchIds := by
    have := h.batchIds
    rwa [List.map_append, List.map_singleton, ← hid, ← List.map_singleton, ← List.map_append] at this
  positive q hq := by
    rcases List.mem_append.mp hq with hq | hq
    · exact h.positive q (List.mem_append_left _ hq)
    · rw [List.mem_singleton.mp hq, hid]
      exact h.positive r (List.mem_append_right _ (List.mem_singleton.mpr rfl))
  committed := by
    rw [hcommitted, List.filterMap_append]
    cases hc : r'.committed <;> simp [hc]
  pending := by simpa using hpending
  highest := by simpa [hid] using hhighest
  maxBatchId := hmax

/-- Beginning a run. -/
theorem begin_run {r : Run} (h : Scanned runs s) (hid : s.highestBatchIdSeen < r.batchId) (hr : r.Sound)
    (hopen : r.commit = none) (hcommitted : s'.committed = s.committed) (hpending : s'.pending = r.pending)
    (hhighest : s'.highestBatchIdSeen = r.batchId) (hmax : s'.maxBatchId = s'.highestBatchIdSeen) :
    Scanned (runs ++ [r]) s' where
  sound q hq := by
    rcases List.mem_append.mp hq with hq | hq
    · exact h.sound q hq
    · rw [List.mem_singleton.mp hq]
      exact hr
  batchIds := by
    rw [List.map_append, List.pairwise_append]
    refine ⟨h.batchIds, List.pairwise_singleton .., fun a ha b hb => ?_⟩
    obtain ⟨q, hq, rfl⟩ := List.mem_map.mp ha
    rw [List.mem_singleton.mp hb]
    exact lt_of_le_of_lt (h.batchId_le hq) hid
  positive q hq := by
    rcases List.mem_append.mp hq with hq | hq
    · exact h.positive q hq
    · rw [List.mem_singleton.mp hq]
      exact Nat.zero_lt_of_lt hid
  committed := by
    rw [hcommitted, h.committed, List.filterMap_append]
    simp [Run.committed, hopen]
  pending := by simpa using hpending
  highest := by simpa using hhighest
  maxBatchId := hmax

omit [Crc32c] in
theorem pageOf_of_decode {page : WalPageImage} (h : decodePageImage frame.payload = .ok page) :
    decodePageImage frame.payload = .ok (Run.pageOf frame) ∧ page = Run.pageOf frame := by
  have hpage := h
  simp only [decodePageImage, except_bind_eq_ok] at hpage
  obtain ⟨_, _, heq⟩ := hpage
  have heq' : page = Run.pageOf frame := (Except.ok.inj heq).symm
  exact ⟨heq' ▸ h, heq'⟩

/-- An image goes on with the run it belongs to, or begins one. -/
theorem image (h : Scanned runs s) (htype : frame.recordType = .pageImage)
    (hs : scanPageImage {s with maxBatchId := max s.maxBatchId frame.batchId} frame = .ok s') :
    ∃ runs', Scanned runs' s' ∧ runs'.flatMap Run.frames = runs.flatMap Run.frames ++ [frame] := by
  simp only [scanPageImage, except_bind_eq_ok] at hs
  obtain ⟨page, hpage, _, hvalid, hs⟩ := hs
  obtain ⟨hdecode, rfl⟩ := pageOf_of_decode hpage
  have hmax := h.maxBatchId
  cases hfilter : s.pending.filter fun pending => decide (pending.batchId = frame.batchId) with
  | some p =>
    rw [hfilter] at hs
    simp only [except_bind_eq_ok, ensure_eq_ok] at hs
    obtain ⟨_, heq, _, hindex, heq'⟩ := hs
    cases heq
    cases heq'
    obtain ⟨hp, hid⟩ := Option.filter_eq_some_iff.mp hfilter
    rw [decide_eq_true_eq] at hid
    obtain ⟨rs, r, rfl, hopen, rfl, hhighest⟩ := h.exists_open hp
    have hr := h.sound r (List.mem_append_right _ (List.mem_singleton.mpr rfl))
    have hid' : r.batchId = frame.batchId := hid
    rw [Run.length_pages] at hindex
    refine ⟨rs ++ [r.addImage frame], h.replace rfl (hr.addImage hopen ⟨htype, hid'.symm, hdecode, hvalid⟩ hindex) ?_ ?_
      hhighest ?_, ?_⟩
    · show s.committed = _
      rw [h.committed, List.filterMap_append]
      simp [Run.committed, Run.addImage, hopen]
    · exact (Run.pending_addImage hr hopen frame).symm
    · show max s.maxBatchId frame.batchId = s.highestBatchIdSeen
      rw [hmax, hhighest, hid', max_self]
    · simp [Run.frames, Run.addImage, hopen]
  | none =>
    rw [hfilter] at hs
    simp only [except_bind_eq_ok, ensure_eq_ok] at hs
    obtain ⟨_, hnew, _, heq, _, hindex, heq'⟩ := hs
    cases heq
    cases heq'
    have hr : Run.Sound ⟨frame.batchId, [frame], none⟩ := by
      refine ⟨List.cons_ne_nil _ _, fun f hf => ?_, fun j f hf => ?_, fun c hc => by cases hc⟩
      · rw [List.mem_singleton.mp hf]
        exact ⟨htype, rfl, hdecode, hvalid⟩
      · obtain ⟨hj, rfl⟩ := List.getElem?_eq_some_iff.mp hf
        rw [List.length_singleton] at hj
        obtain rfl : j = 0 := by omega
        exact hindex
    refine ⟨runs ++ [⟨frame.batchId, [frame], none⟩], h.begin_run hnew hr rfl rfl ?_ rfl ?_, by simp [Run.frames]⟩
    · simp [Run.pending, Run.firstLsn, Run.pages, Run.digestInput]
    · show max s.maxBatchId frame.batchId = frame.batchId
      rw [hmax]
      exact max_eq_right hnew.le

omit [Crc32c] in
theorem validatePageImageLsns_eq_ok {commitLsn : Lsn} {pages : List WalPageImage}
    (h : validatePageImageLsns commitLsn pages = .ok ()) : ∀ p ∈ pages, validatePageImageLsn p commitLsn = .ok () := by
  induction pages with
  | nil => exact fun p hp => nomatch hp
  | cons q rest ih =>
    rw [validatePageImageLsns, except_bind_eq_ok] at h
    obtain ⟨_, hq, hrest⟩ := h
    intro p hp
    rcases List.mem_cons.mp hp with rfl | hp
    · exact hq
    · exact ih hrest p hp

/-- A COMMIT frame closes the run before it, and nothing else. -/
theorem close (h : Scanned runs s) (htype : frame.recordType = .commit)
    (hs : scanCommit {s with maxBatchId := max s.maxBatchId frame.batchId} frame = .ok s') :
    ∃ runs', Scanned runs' s' ∧ runs'.flatMap Run.frames = runs.flatMap Run.frames ++ [frame] := by
  unfold scanCommit at hs
  cases hp : s.pending with
  | none =>
    simp only [hp] at hs
    cases hs
  | some p =>
    simp only [hp, except_bind_eq_ok, ensure_eq_ok] at hs
    obtain ⟨_, ⟨hid, hindex⟩, ⟨firstLsn, count, sum⟩, hpayload, _, ⟨hfirst, hcount, hsum⟩, _, hlsns, heq⟩ := hs
    cases heq
    obtain ⟨rs, r, rfl, hopen, rfl, hhighest⟩ := h.exists_open hp
    have hr := h.sound r (List.mem_append_right _ (List.mem_singleton.mpr rfl))
    have hid' : r.batchId = frame.batchId := hid
    dsimp only at hfirst hcount hsum hindex
    rw [Run.length_pages] at hcount hindex
    -- the count is read from four bytes, so the index has not wrapped
    have hsmall : r.images.length % 2 ^ 32 = r.images.length := by
      refine Nat.mod_eq_of_lt ?_
      simp only [decodeCommitPayload, except_bind_eq_ok, ensure_eq_ok] at hpayload
      obtain ⟨_, hlen, heq⟩ := hpayload
      have hlt := ofLe_lt (slice frame.payload 8 4)
      rw [length_slice _ _ _ (by rw [hlen]; decide)] at hlt
      cases heq
      rw [← hcount]
      exact hlt
    have hcloses : r.Closes frame := by
      refine ⟨htype, hid'.symm, hindex.trans hsmall, fun j f hj => ?_, ?_, validatePageImageLsns_eq_ok hlsns⟩
      · obtain ⟨hlt, _⟩ := List.getElem?_eq_some_iff.mp hj
        rw [hr.index j f hj]
        exact Nat.mod_eq_of_lt (lt_trans hlt (by rw [← hsmall]; exact Nat.mod_lt _ (by decide)))
      · rw [hpayload, hfirst, hcount, ← hsum]
    refine ⟨rs ++ [{r with commit := some frame}], h.replace rfl ⟨hr.images_ne, hr.image, hr.index, fun c hc => ?_⟩ ?_ ?_
      hhighest ?_, ?_⟩
    · cases hc
      exact ⟨hcloses.recordType, hcloses.batchId, hcloses.index, hcloses.imageIndex, hcloses.payload, hcloses.lsn⟩
    · show s.committed ++ _ = _
      rw [h.committed, List.filterMap_append, ← hid']
      simp [Run.committed, hopen, Run.pages]
    · simp [Run.pending]
    · show max s.maxBatchId frame.batchId = s.highestBatchIdSeen
      rw [h.maxBatchId, hhighest, hid', max_self]
    · simp [Run.frames, hopen]

theorem step (h : Scanned runs s) {historyStartLsn : Lsn} (hs : scanFrame historyStartLsn s frame = .ok s') :
    historyStartLsn < frame.recordLsn ∧
      ∃ runs', Scanned runs' s' ∧ runs'.flatMap Run.frames = runs.flatMap Run.frames ++ [frame] := by
  simp only [scanFrame, except_bind_eq_ok, ensure_eq_ok] at hs
  obtain ⟨_, hlsn, hs⟩ := hs
  refine ⟨hlsn, ?_⟩
  cases htype : frame.recordType with
  | init =>
    rw [htype] at hs
    cases hs
  | pageImage =>
    rw [htype] at hs
    exact h.image htype hs
  | commit =>
    rw [htype] at hs
    exact h.close htype hs

/-- The runs of an accepted sequence of frames. -/
theorem run (h : Scanned runs s) {historyStartLsn : Lsn} {frames : List Frame}
    (hs : scanRecords historyStartLsn s frames = .ok s') :
    (∀ f ∈ frames, historyStartLsn < f.recordLsn) ∧
      ∃ runs', Scanned runs' s' ∧ runs'.flatMap Run.frames = runs.flatMap Run.frames ++ frames := by
  induction frames generalizing runs s with
  | nil =>
    cases hs
    exact ⟨fun f hf => (nomatch hf), runs, h, (List.append_nil _).symm⟩
  | cons frame rest ih =>
    rw [scanRecords, except_bind_eq_ok] at hs
    obtain ⟨s₁, hs₁, hrest⟩ := hs
    obtain ⟨hlsn, runs₁, h₁, hframes₁⟩ := h.step hs₁
    obtain ⟨hall, runs', h', hframes'⟩ := ih h₁ hrest
    refine ⟨fun f hf => ?_, runs', h', ?_⟩
    · rcases List.mem_cons.mp hf with rfl | hf
      · exact hlsn
      · exact hall f hf
    · rw [hframes', hframes₁, List.append_assoc]
      rfl

theorem empty : Scanned [] {} :=
  ⟨fun _ hr => (nomatch hr), .nil, fun _ hr => (nomatch hr), rfl, rfl, rfl, rfl⟩

end Scanned

/-! ### Accepted logs -/

section Accepted
variable {runs : List Run}

omit [Crc32c] in
theorem Increasing.pairwise {previous : Option Lsn} {frames : List Frame} (h : Increasing previous frames) :
    (frames.Pairwise fun a b => a.recordLsn < b.recordLsn) ∧ ∀ p ∈ previous, ∀ f ∈ frames, p < f.recordLsn := by
  induction frames generalizing previous with
  | nil => exact ⟨.nil, fun p _ f hf => nomatch hf⟩
  | cons frame rest ih =>
    obtain ⟨hfirst, hrest⟩ := h
    obtain ⟨hpairwise, habove⟩ := ih hrest
    refine ⟨List.pairwise_cons.mpr ⟨habove _ rfl, hpairwise⟩, fun p hp f hf => ?_⟩
    rcases List.mem_cons.mp hf with rfl | hf
    · exact hfirst p hp
    · exact lt_trans (hfirst p hp) (habove _ rfl f hf)

omit [Crc32c] in
theorem commits_sublist (runs : List Run) :
    (runs.filterMap Run.commit).Sublist (runs.flatMap Run.frames) ∧
      ((runs.filterMap Run.committed).map WalCommit.batchId).Sublist (runs.map Run.batchId) ∧
      (runs.filterMap Run.committed).map WalCommit.commitLsn = (runs.filterMap Run.commit).map Frame.recordLsn := by
  induction runs with
  | nil => exact ⟨.slnil, .slnil, rfl⟩
  | cons r rest ih =>
    obtain ⟨hframes, hids, hlsns⟩ := ih
    rw [List.flatMap_cons, Run.frames, List.append_assoc]
    cases hc : r.commit with
    | none =>
      rw [List.filterMap_cons_none hc, List.filterMap_cons_none (by rw [Run.committed, hc]; rfl), List.map_cons]
      exact ⟨hframes.trans (List.sublist_append_right ..), hids.cons _, hlsns⟩
    | some c =>
      rw [List.filterMap_cons_some hc, List.filterMap_cons_some (by rw [Run.committed, hc]; rfl), List.map_cons, List.map_cons,
        List.map_cons, List.map_cons, hlsns]
      exact ⟨(hframes.cons_cons c).trans (List.sublist_append_right ..), hids.cons_cons _, rfl⟩

/-- The frames of an accepted log, as runs. -/
theorem scanWal_eq_ok {identity : WalIdentity} {bytes : Bytes} {wal : WalLog} {validLength : Nat}
    (h : scanWal identity bytes = .ok (wal, validLength)) :
    ∃ (init : Frame) (runs : List Run) (s : ScanState), validLength ≤ bytes.length ∧
      bytes.take validLength = framesBytes (init :: runs.flatMap Run.frames) ∧
      validLength = framesLength (init :: runs.flatMap Run.frames) ∧
      (∀ f ∈ init :: runs.flatMap Run.frames, f.Encodable ∧ f.formatVersion = wal.formatVersion) ∧
      Increasing none (init :: runs.flatMap Run.frames) ∧
      (init.recordType = .init ∧ init.recordLsn = 0 ∧ init.batchId = 0 ∧ init.recordIndex = 0) ∧
      verifyIdentity init.formatVersion init.payload identity = .ok wal.historyStartLsn ∧
      scanRecords wal.historyStartLsn {} (runs.flatMap Run.frames) = .ok s ∧ Scanned runs s ∧
      (∀ f ∈ runs.flatMap Run.frames, wal.historyStartLsn < f.recordLsn) ∧ wal.committed = s.committed ∧
      wal.nextBatchId = s.maxBatchId + 1 ∧
      wal.nextLsn = ((runs.flatMap Run.frames).getLast?.getD init).recordLsn + 1 ∧ wal.identity = identity := by
  simp only [scanWal, except_bind_eq_ok] at h
  obtain ⟨⟨frames, valid⟩, hframes, h⟩ := h
  cases frames with
  | nil => cases h
  | cons init rest =>
    simp only [except_bind_eq_ok, ensure_eq_ok] at h
    obtain ⟨_, hinit, historyStartLsn, hverify, s, hs, nextLsn, hnext, nextBatchId, hbatch, heq⟩ := h
    cases heq
    obtain ⟨hvalid, hle, htake, hinc, v, _, hall⟩ := scanFrames_eq_ok hframes
    obtain ⟨hlsn, runs, hscanned, hruns⟩ := Scanned.empty.run hs
    rw [List.flatMap_nil, List.nil_append] at hruns
    subst hruns
    obtain ⟨rfl, _⟩ := addOr_eq_ok hnext
    obtain ⟨rfl, _⟩ := addOr_eq_ok hbatch
    rw [Nat.zero_add] at hvalid
    subst hvalid
    refine ⟨init, runs, s, hle, htake, rfl, fun f hf => ⟨(hall f hf).1, ?_⟩, hinc, hinit, hverify, hs, hscanned, hlsn, rfl,
      max_eq_left (Nat.succ_pos _), rfl, rfl⟩
    exact ((hall f hf).2).trans (hall init List.mem_cons_self).2.symm

/-- The commits of an accepted log are in the order of their LSNs, and each holds whole pages stamped with its own. -/
theorem scanWal_commits {identity : WalIdentity} {bytes : Bytes} {wal : WalLog} {validLength : Nat}
    (h : scanWal identity bytes = .ok (wal, validLength)) :
    (wal.committed.map WalCommit.commitLsn).Pairwise (· < ·) ∧
      ∀ c ∈ wal.committed, ∀ page ∈ c.pages, page.image.length = pageSize ∧ validatePageImage page = .ok () ∧
        validatePageImageLsn page c.commitLsn = .ok () := by
  obtain ⟨init, runs, s, _, _, _, _, hinc, _, _, _, hscanned, _, hcommitted, _⟩ := scanWal_eq_ok h
  obtain ⟨hframes, _, hlsns⟩ := commits_sublist runs
  have heq : wal.committed = runs.filterMap Run.committed := hcommitted.trans hscanned.committed
  constructor
  · rw [heq, hlsns, List.pairwise_map]
    exact (List.pairwise_cons.mp hinc.pairwise.1).2.sublist hframes
  · intro c hc page hpage
    rw [heq, List.mem_filterMap] at hc
    obtain ⟨r, hr, hrc⟩ := hc
    obtain ⟨frame, hframe, rfl⟩ := Option.map_eq_some_iff.mp hrc
    have hlsn := ((hscanned.sound r hr).commit frame hframe).lsn page hpage
    obtain ⟨f, hf, rfl⟩ := List.mem_map.mp hpage
    obtain ⟨_, _, hdecode, hvalid⟩ := (hscanned.sound r hr).image f hf
    refine ⟨?_, hvalid, hlsn⟩
    obtain ⟨_, hlength, _⟩ := except_bind_eq_ok.mp hdecode
    show (f.payload.drop 8).length = pageSize
    rw [List.length_drop, ensure_eq_ok.mp hlength, pageImagePayloadSize, Nat.add_sub_cancel_left]

end Accepted

/-- The log of one commit is accepted. -/
theorem scanWal_first_commit (identity : WalIdentity) {startLsn : Lsn} (hstart : startLsn ≤ u64Max) {c : WalCommit}
    (h : Accepted (startLsn + 1) 1 [c]) :
    ∃ bytes wal validLength, scanWal identity bytes = .ok (wal, validLength) ∧ wal.committed = [c] ∧
      bytes.length ≤ initFrameSize + framesLength (commitFrames walFormatVersion c) := by
  refine ⟨_, _, _, scanWal_take identity hstart h.itemsSound
    (Nat.le_add_right initFrameSize (framesLength (commitFrames walFormatVersion c))), ?_, List.length_take_le ..⟩
  rw [logOf, Nat.add_sub_cancel_left]
  dsimp only
  rw [committedItems_cut [c] initFrameSize, commitEnds, commitEnds,
    List.filter_cons_of_pos (by exact decide_eq_true (Nat.le_refl _))]
  rfl

end Dodb
