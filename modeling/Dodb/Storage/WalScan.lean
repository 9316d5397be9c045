import Dodb.Storage.Wal

/-! What the bytes of a log say, and what they still say when they are cut anywhere.

A frame that was written reads back (`nextFrame_frameBytes`), and a proper beginning of
one is told from a corrupt one (`nextFrame_torn`), so scanning the first `t` bytes of a
sequence of frames finds the frames that end by then (`scanFrames_take`).

A log is a sequence of `WalItem`s: a commit of which all frames are there, or only the
first few, left by an append that did not get to its end. Cutting a log leaves a log
(`cutItems`), and the scanner reads from it the commits that are whole (`scanWal_take`). -/
namespace Dodb
open Lib

variable [Crc32c] {v batchId : Nat}

/-! ### One frame -/

def Frame.length (frame : Frame) : Nat := walHeaderSize + frame.payload.length + walTrailerSize

/-- The numbers of a frame fit their fields. -/
structure Frame.Encodable (frame : Frame) : Prop where
  version : frame.formatVersion = walFormatVersion ∨ frame.formatVersion = legacyWalFormatVersion
  lsn : frame.recordLsn ≤ u64Max
  batchId : frame.batchId ≤ u64Max
  index : frame.recordIndex ≤ u32Max
  payload : frame.payload.length ≤ walMaxPayloadSize

/-- The bytes of a frame, with its checksums. -/
def frameBytes (frame : Frame) : Bytes :=
  frameHeader frame (headerChecksum (frameHeader frame 0)) ++ (frame.payload ++ le 4 frame.length)

omit [Crc32c] in
@[simp] theorem length_walMagic : walMagic.length = 4 := by decide

@[simp] theorem length_frameHeader (frame : Frame) (checksum : Nat) :
    (frameHeader frame checksum).length = walHeaderSize := by
  simp [frameHeader, walHeaderSize]

@[simp] theorem length_frameBytes (frame : Frame) : (frameBytes frame).length = frame.length := by
  simp only [frameBytes, List.length_append, length_frameHeader, length_le, Frame.length, walTrailerSize]
  omega

/-- The part of a header before its checksum. -/
def headerFront (frame : Frame) : Bytes :=
  walMagic ++ (le 2 frame.formatVersion ++ ([frame.recordType.toByte, 0] ++
    (le 4 (walHeaderSize + frame.payload.length + walTrailerSize) ++ (le 4 frame.payload.length ++
      (le 8 frame.recordLsn ++ (le 8 frame.batchId ++ (le 4 frame.recordIndex ++ zeros 4)))))))

theorem frameHeader_eq (frame : Frame) (checksum : Nat) : frameHeader frame checksum =
    headerFront frame ++ (le 4 checksum ++ le 4 (Crc32c.crc32c frame.payload).toNat) := by
  simp [frameHeader, headerFront]

theorem splice_frameHeader (frame : Frame) (checksum : Nat) {x : Bytes} (hx : x.length = 4) :
    splice (frameHeader frame checksum) headerChecksumOffset x =
      headerFront frame ++ (x ++ le 4 (Crc32c.crc32c frame.payload).toNat) := by
  rw [frameHeader_eq]
  exact splice_field _ _ _ _ _ (by simp [headerFront, headerChecksumOffset]) (by simp [hx])

theorem headerChecksum_frameHeader (frame : Frame) (checksum : Nat) :
    headerChecksum (frameHeader frame checksum) = headerChecksum (frameHeader frame 0) := by
  unfold headerChecksum
  rw [splice_frameHeader _ _ (by simp), splice_frameHeader _ _ (by simp)]

theorem headerChecksum_lt (header : Bytes) : headerChecksum header < 256 ^ 4 := UInt32.toNat_lt _

theorem encodeFrame_eq {frame : Frame} (h : frame.payload.length ≤ walMaxPayloadSize) :
    encodeFrame frame = .ok (frameBytes frame) := by
  simp only [encodeFrame, except_bind_eq_ok, ensure_eq_ok]
  refine ⟨(), h, ?_⟩
  rw [splice_frameHeader _ _ (length_le ..), ← frameHeader_eq]
  rfl

/-- The header of a frame reads as the frame's numbers. -/
theorem decodeHeader_frameHeader {frame : Frame} (h : frame.Encodable) :
    decodeHeader (frameHeader frame (headerChecksum (frameHeader frame 0))) =
      .ok ⟨frame.formatVersion, frame.recordType, frame.length, frame.payload.length, frame.recordLsn,
        frame.batchId, frame.recordIndex⟩ := by
  have hsum := headerChecksum_frameHeader frame (headerChecksum (frameHeader frame 0))
  have hcrc := headerChecksum_lt (frameHeader frame 0)
  generalize headerChecksum (frameHeader frame 0) = checksum at *
  have hpayload : walHeaderSize + frame.payload.length + walTrailerSize < 256 ^ 4 := by
    have := h.payload
    unfold walMaxPayloadSize at this
    unfold walHeaderSize walTrailerSize
    omega
  have hpayload' : frame.payload.length < 256 ^ 4 := by omega
  have hversion : frame.formatVersion < 256 ^ 2 := by
    rcases h.version with hv | hv <;> rw [hv] <;> decide
  have hindex : frame.recordIndex < 256 ^ 4 := by
    have := h.index
    unfold u32Max at this
    omega
  have hfields : Fields (frameHeader frame checksum) 0 [walMagic, le 2 frame.formatVersion,
      [frame.recordType.toByte, 0], le 4 (walHeaderSize + frame.payload.length + walTrailerSize),
      le 4 frame.payload.length, le 8 frame.recordLsn, le 8 frame.batchId, le 4 frame.recordIndex, zeros 4,
      le 4 checksum] := .of_eq rfl
  simp only [Fields, Nat.reduceAdd, length_walMagic, length_le, length_zeros, List.length_cons,
    List.length_nil] at hfields
  obtain ⟨h0, h4, -, h8, h12, h16, h24, h32, h36, h40, -⟩ := hfields
  have hbyte : (frameHeader frame checksum).getD 6 0 = frame.recordType.toByte ∧
      (frameHeader frame checksum).getD 7 0 = 0 := by
    constructor <;>
    · simp (disch := simp) only [frameHeader, List.getD_append_right, List.getD_append, length_walMagic, length_le]
      rfl
  simp only [decodeHeader, except_bind_eq_ok, ensure_eq_ok, headerChecksumOffset, h0, h4, h8, h12, h16, h24, h32,
    h36, h40, hbyte.1, hbyte.2, ofLe_le _ _ hversion, ofLe_le _ _ hpayload, ofLe_le _ _ hpayload', ofLe_le _ _ hindex,
    ofLe_le _ _ (lt_of_le_u64Max h.lsn), ofLe_le _ _ (lt_of_le_u64Max h.batchId), ofLe_le _ _ hcrc]
  exact ⟨(), length_frameHeader .., (), trivial, (), h.version, (), ⟨trivial, by decide⟩, (), hsum.symm,
    frame.recordType, WalRecordType.decode_toByte _, rfl⟩

theorem slice_frameBytes_header (frame : Frame) (rest : Bytes) :
    slice (frameBytes frame ++ rest) 0 walHeaderSize =
      frameHeader frame (headerChecksum (frameHeader frame 0)) := by
  rw [frameBytes, List.append_assoc]
  exact slice_append_left _ _ _ _ (by simp) |>.trans (slice_self _ _ (by simp))

/-- A frame at the front is read, whatever follows it. -/
theorem nextFrame_frameBytes {frame : Frame} (h : frame.Encodable) (rest : Bytes) (offset : Nat)
    {version : Option Nat} (hversion : ∀ v ∈ version, v = frame.formatVersion) {previous : Option Lsn}
    (hprevious : ∀ p ∈ previous, p < frame.recordLsn) :
    nextFrame (frameBytes frame ++ rest) offset version previous = .ok (some (frame, frame.length)) := by
  have hlen : ¬(frameBytes frame ++ rest).length < walHeaderSize := by
    simp only [List.length_append, length_frameBytes, Frame.length]
    omega
  have hlen' : ¬frame.length > (frameBytes frame ++ rest).length := by
    simp only [List.length_append, length_frameBytes]
    omega
  have hpayload : slice (frameBytes frame ++ rest) walHeaderSize frame.payload.length = frame.payload := by
    rw [frameBytes, List.append_assoc, List.append_assoc]
    exact slice_field _ _ _ _ _ (by simp) rfl
  have htrailer : slice (frameBytes frame ++ rest) (walHeaderSize + frame.payload.length) walTrailerSize =
      le 4 frame.length := by
    rw [frameBytes, ← List.append_assoc, List.append_assoc]
    exact slice_field _ _ _ _ _ (by simp) (by simp [walTrailerSize])
  have hcrc : slice (frameHeader frame (headerChecksum (frameHeader frame 0))) 44 4 =
      le 4 (Crc32c.crc32c frame.payload).toNat := by
    simp (disch := simp) only [frameHeader, slice_append_right]
    simp [slice_self]
  have hbound : frame.length < 256 ^ 4 := by
    have := h.payload
    unfold walMaxPayloadSize at this
    unfold Frame.length walHeaderSize walTrailerSize
    omega
  have hcrc' : (Crc32c.crc32c frame.payload).toNat < 256 ^ 4 := UInt32.toNat_lt _
  rw [nextFrame, if_neg hlen]
  simp only [slice_frameBytes_header, except_bind_eq_ok, decodeHeader_frameHeader h, ensure_eq_ok,
    Except.ok.injEq, exists_eq_left', if_neg hlen', hpayload, htrailer, hcrc, ofLe_le _ _ hbound,
    ofLe_le _ _ hcrc', exists_const]
  refine ⟨?_, ⟨?_, rfl, h.payload⟩, trivial, ?_, trivial, rfl⟩
  · cases version <;> simp_all
  · unfold walMinFrameSize Frame.length
    omega
  · cases previous <;> simp_all

/-- A proper beginning of a frame is no frame, and no error. -/
theorem nextFrame_torn {frame : Frame} (h : frame.Encodable) {t : Nat} (ht : t < frame.length) (offset : Nat)
    {version : Option Nat} (hversion : ∀ v ∈ version, v = frame.formatVersion) (previous : Option Lsn) :
    nextFrame ((frameBytes frame).take t) offset version previous = .ok none := by
  have hlen : ((frameBytes frame).take t).length = t := by
    rw [List.length_take, length_frameBytes]
    omega
  by_cases hshort : t < walHeaderSize
  · rw [nextFrame, if_pos (by omega)]
  · have hheader : slice ((frameBytes frame).take t) 0 walHeaderSize =
        frameHeader frame (headerChecksum (frameHeader frame 0)) := by
      have := slice_frameBytes_header frame []
      rw [List.append_nil] at this
      rw [← this]
      simp only [slice, List.drop_zero, List.take_take]
      congr 1
      omega
    rw [nextFrame, if_neg (by omega)]
    simp only [hheader, except_bind_eq_ok, decodeHeader_frameHeader h, ensure_eq_ok, Except.ok.injEq,
      exists_eq_left', hlen, if_pos ht, exists_const, and_true]
    refine ⟨?_, ?_, rfl, h.payload⟩
    · cases version <;> simp_all
    · unfold walMinFrameSize Frame.length
      omega

/-! ### Sequences of frames -/

def framesBytes (frames : List Frame) : Bytes := frames.flatMap frameBytes

def framesLength (frames : List Frame) : Nat := (frames.map Frame.length).sum

/-- The frames that end within the first `t` bytes. -/
def completeFrames : Nat → List Frame → List Frame
  | _, [] => []
  | t, frame :: rest => if frame.length ≤ t then frame :: completeFrames (t - frame.length) rest else []

/-- The LSNs of frames increase, from above `previous` on. -/
def Increasing : Option Lsn → List Frame → Prop
  | _, [] => True
  | previous, frame :: rest =>
    (∀ p ∈ previous, p < frame.recordLsn) ∧ Increasing (some frame.recordLsn) rest

@[simp] theorem length_framesBytes (frames : List Frame) : (framesBytes frames).length = framesLength frames := by
  simp [framesBytes, framesLength, List.length_flatMap]

theorem framesBytes_append (a b : List Frame) : framesBytes (a ++ b) = framesBytes a ++ framesBytes b :=
  List.flatMap_append

omit [Crc32c] in
theorem framesLength_append (a b : List Frame) : framesLength (a ++ b) = framesLength a + framesLength b := by
  simp [framesLength]

omit [Crc32c] in
theorem Frame.length_pos (frame : Frame) : walMinFrameSize ≤ frame.length := by
  unfold walMinFrameSize Frame.length
  omega

/-- Scanning the first bytes of a sequence of frames finds the frames they hold whole. -/
theorem scanFrames_take {frames : List Frame} (hframes : ∀ f ∈ frames, f.Encodable ∧ f.formatVersion = v)
    {previous : Option Lsn} (hinc : Increasing previous frames) {version : Option Nat}
    (hversion : ∀ w ∈ version, w = v) (t offset : Nat) {bound : Nat}
    (hbound : (completeFrames t frames).length < bound) :
    scanFrames bound ((framesBytes frames).take t) offset version previous =
      .ok (completeFrames t frames, offset + framesLength (completeFrames t frames)) := by
  induction frames generalizing previous version t offset bound with
  | nil =>
    obtain ⟨bound, rfl⟩ : ∃ n, bound = n + 1 := ⟨bound - 1, by omega⟩
    simp [scanFrames, framesBytes, nextFrame, completeFrames, framesLength, walHeaderSize, bind, Except.bind,
      pure, Except.pure]
  | cons f rest ih =>
    obtain ⟨bound, rfl⟩ : ∃ n, bound = n + 1 := ⟨bound - 1, by omega⟩
    obtain ⟨henc, hv⟩ := hframes f List.mem_cons_self
    have hversion' : ∀ w ∈ version, w = f.formatVersion := fun w hw => (hversion w hw).trans hv.symm
    by_cases hfits : f.length ≤ t
    · have htake : (framesBytes (f :: rest)).take t = frameBytes f ++ (framesBytes rest).take (t - f.length) := by
        show (frameBytes f ++ framesBytes rest).take t = _
        rw [List.take_append, length_frameBytes, List.take_of_length_le (by rw [length_frameBytes]; exact hfits)]
      have hnext : ∀ w ∈ (some (version.getD f.formatVersion) : Option Nat), w = v := by
        intro w hw
        cases hw
        cases version with
        | none => exact hv
        | some w => exact hversion w rfl
      rw [completeFrames, if_pos hfits] at hbound ⊢
      have hrest := ih (fun g hg => hframes g (List.mem_cons_of_mem _ hg)) hinc.2 hnext (t - f.length)
        (offset + f.length) (by simpa using hbound)
      rw [scanFrames, htake, nextFrame_frameBytes henc _ _ hversion' hinc.1]
      have hdrop : (frameBytes f ++ (framesBytes rest).take (t - f.length)).drop f.length =
          (framesBytes rest).take (t - f.length) := List.drop_left' (length_frameBytes f)
      simp only [bind, Except.bind, hdrop, hrest, pure, Except.pure, framesLength, List.map_cons, List.sum_cons]
      simp [Nat.add_assoc]
    · have htake : (framesBytes (f :: rest)).take t = (frameBytes f).take t := by
        show (frameBytes f ++ framesBytes rest).take t = _
        rw [List.take_append_of_le_length (by rw [length_frameBytes]; omega)]
      rw [completeFrames, if_neg hfits, scanFrames, htake, nextFrame_torn henc (by omega) _ hversion']
      simp [bind, Except.bind, pure, Except.pure, framesLength]

omit [Crc32c] in
theorem completeFrames_append (t : Nat) (a b : List Frame) : completeFrames t (a ++ b) =
    if framesLength a ≤ t then a ++ completeFrames (t - framesLength a) b else completeFrames t a := by
  induction a generalizing t with
  | nil => simp [framesLength]
  | cons f a ih =>
    simp only [List.cons_append, completeFrames, ih, framesLength, List.map_cons, List.sum_cons]
    by_cases hf : f.length ≤ t
    · by_cases ha : (a.map Frame.length).sum ≤ t - f.length
      · have : f.length + (a.map Frame.length).sum ≤ t := by omega
        simp only [hf, ha, this, if_true]
        rw [Nat.sub_sub]
      · have : ¬f.length + (a.map Frame.length).sum ≤ t := by omega
        simp only [hf, ha, this, if_true, if_false]
    · have : ¬f.length + (a.map Frame.length).sum ≤ t := by omega
      simp only [hf, this, if_false]

omit [Crc32c] in
theorem completeFrames_eq_take (t : Nat) (frames : List Frame) :
    completeFrames t frames = frames.take (completeFrames t frames).length := by
  induction frames generalizing t with
  | nil => rfl
  | cons f rest ih =>
    by_cases hf : f.length ≤ t
    · rw [completeFrames, if_pos hf, List.length_cons, List.take_succ_cons, ← ih]
    · rw [completeFrames, if_neg hf]
      rfl

omit [Crc32c] in
theorem framesLength_completeFrames_le (t : Nat) (frames : List Frame) :
    framesLength (completeFrames t frames) ≤ t := by
  induction frames generalizing t with
  | nil => simp [completeFrames, framesLength]
  | cons f rest ih =>
    by_cases hf : f.length ≤ t
    · have := ih (t - f.length)
      simp only [completeFrames, if_pos hf, framesLength, List.map_cons, List.sum_cons] at this ⊢
      omega
    · simp [completeFrames, hf, framesLength]

omit [Crc32c] in
theorem length_le_framesLength (frames : List Frame) : frames.length ≤ framesLength frames := by
  induction frames with
  | nil => simp
  | cons f rest ih =>
    have := f.length_pos
    unfold walMinFrameSize walHeaderSize walTrailerSize at this
    simp only [framesLength, List.map_cons, List.sum_cons, List.length_cons] at ih ⊢
    omega

/-! ### The frames of a commit -/

/-- The LSN of the first image; the others follow, and COMMIT is last. -/
def WalCommit.firstLsn (c : WalCommit) : Lsn := c.commitLsn - c.pages.length

def imageFrames (v batchId : Nat) (firstLsn : Lsn) : Nat → List WalPageImage → List Frame
  | _, [] => []
  | index, page :: rest => ⟨v, .pageImage, firstLsn + index, batchId, index, encodePageImage page⟩ ::
      imageFrames v batchId firstLsn (index + 1) rest

def commitFrame (v : Nat) (c : WalCommit) : Frame :=
  ⟨v, .commit, c.commitLsn, c.batchId, c.pages.length,
    commitPayload c.firstLsn c.pages.length (digest (c.pages.flatMap encodePageImage))⟩

/-- The frames of a commit: its images and COMMIT. -/
def commitFrames (v : Nat) (c : WalCommit) : List Frame :=
  imageFrames v c.batchId c.firstLsn 0 c.pages ++ [commitFrame v c]

/-- What a commit whose images can be appended is like. -/
structure WalCommit.Begun (c : WalCommit) : Prop where
  pages_ne : c.pages ≠ []
  image : ∀ p ∈ c.pages, validatePageImage p = .ok ()
  imageLsn : ∀ p ∈ c.pages, validatePageImageLsn p c.commitLsn = .ok ()
  lsn : c.pages.length ≤ c.commitLsn
  lsn_lt : c.commitLsn < u64Max
  batchId_lt : c.batchId < u64Max

/-- What a commit that was appended is like. -/
structure WalCommit.Sound (c : WalCommit) : Prop extends c.Begun where
  count : c.pages.length ≤ u32Max

omit [Crc32c] in
theorem length_imageFrames (v batchId : Nat) (firstLsn : Lsn) (index : Nat) (pages : List WalPageImage) :
    (imageFrames v batchId firstLsn index pages).length = pages.length := by
  induction pages generalizing index with
  | nil => rfl
  | cons p rest ih => simp [imageFrames, ih]

theorem length_commitFrames (v : Nat) (c : WalCommit) : (commitFrames v c).length = c.pages.length + 1 := by
  simp [commitFrames, length_imageFrames]

omit [Crc32c] in
theorem imageFrames_take (v batchId : Nat) (firstLsn : Lsn) (index n : Nat) (pages : List WalPageImage) :
    (imageFrames v batchId firstLsn index pages).take n = imageFrames v batchId firstLsn index (pages.take n) := by
  induction pages generalizing index n with
  | nil => simp [imageFrames]
  | cons p rest ih =>
    cases n with
    | zero => simp [imageFrames]
    | succ n => simp [imageFrames, ih]

omit [Crc32c] in
/-- Each frame of a commit has the LSN after the one before. -/
theorem getElem?_imageFrames (v batchId : Nat) (firstLsn : Lsn) (index i : Nat) (pages : List WalPageImage) :
    (imageFrames v batchId firstLsn index pages)[i]? = (pages[i]?).map fun page =>
      ⟨v, .pageImage, firstLsn + (index + i), batchId, index + i, encodePageImage page⟩ := by
  induction pages generalizing index i with
  | nil => simp [imageFrames]
  | cons p rest ih =>
    cases i with
    | zero => simp [imageFrames]
    | succ i =>
      simp only [imageFrames, List.getElem?_cons_succ, ih]
      have : index + 1 + i = index + (i + 1) := by omega
      rw [this]

/-- An image that is accepted is a page long and has a 64-bit page number. -/
theorem validatePageImage_ok {page : WalPageImage} (h : validatePageImage page = .ok ()) :
    page.image.length = pageSize ∧ page.pageId ≤ u64Max := by
  unfold validatePageImage at h
  split at h
  · rename_i hsuper
    simp only [except_bind_eq_ok, decodeSuperblock, ensure_eq_ok] at h
    obtain ⟨_, ⟨_, hlen, _⟩, _⟩ := h
    refine ⟨hlen, ?_⟩
    simp only [WalPageImage.isSuperblock, Bool.or_eq_true, decide_eq_true_eq] at hsuper
    unfold u64Max
    lia
  · simp only [except_bind_eq_ok, decodePageAt, ensure_eq_ok] at h
    obtain ⟨_, ⟨_, hlen, _, _, _, _, _, _, _, _, _, hid, _⟩, _⟩ := h
    refine ⟨hlen, ?_⟩
    have hlt := ofLe_lt (slice page.image 8 8)
    rw [length_slice _ _ _ (by rw [hlen]; decide)] at hlt
    simp only [Option.all_some, decide_eq_true_eq] at hid
    rw [← hid]
    exact Nat.le_pred_of_lt hlt

omit [Crc32c] in
theorem length_encodePageImage (page : WalPageImage) : (encodePageImage page).length = 8 + page.image.length := by
  simp [encodePageImage]

theorem length_encodePageImage_le {page : WalPageImage} (h : validatePageImage page = .ok ()) :
    (encodePageImage page).length ≤ walMaxPayloadSize := by
  rw [length_encodePageImage, (validatePageImage_ok h).1]
  decide

theorem decodePageImage_encodePageImage {page : WalPageImage} (h : validatePageImage page = .ok ()) :
    decodePageImage (encodePageImage page) = .ok page := by
  obtain ⟨hlen, hid⟩ := validatePageImage_ok h
  simp only [decodePageImage, except_bind_eq_ok, ensure_eq_ok]
  refine ⟨(), by rw [length_encodePageImage, hlen]; rfl, ?_⟩
  have hslice : slice (encodePageImage page) 0 8 = le 8 page.pageId := by
    rw [encodePageImage, slice_append_left _ _ _ _ (by simp), slice_self _ _ (by simp)]
  have hdrop : (encodePageImage page).drop 8 = page.image := List.drop_left' (by simp)
  rw [hslice, hdrop, ofLe_le _ _ (lt_of_le_u64Max hid)]
  rfl

theorem framesLength_imageFrames (v batchId : Nat) (firstLsn : Lsn) (index : Nat) {pages : List WalPageImage}
    (h : ∀ p ∈ pages, validatePageImage p = .ok ()) : framesLength (imageFrames v batchId firstLsn index pages) =
      pages.length * (walHeaderSize + (8 + pageSize) + walTrailerSize) := by
  induction pages generalizing index with
  | nil => rw [List.length_nil, Nat.zero_mul]; rfl
  | cons p rest ih =>
    have hrest := ih (index + 1) fun q hq => h q (List.mem_cons_of_mem _ hq)
    have hp := (validatePageImage_ok (h p List.mem_cons_self)).1
    rw [imageFrames, framesLength, List.map_cons, List.sum_cons, ← framesLength, hrest, Frame.length, length_encodePageImage,
      hp, List.length_cons, Nat.succ_mul, Nat.add_comm]

theorem WalCommit.Begun.framesLength_commitFrames {c : WalCommit} (h : c.Begun) (v : Nat) :
    framesLength (commitFrames v c) = c.pages.length * (walHeaderSize + (8 + pageSize) + walTrailerSize) +
      (walHeaderSize + commitPayloadSize + walTrailerSize) := by
  rw [commitFrames, framesLength_append, framesLength_imageFrames _ _ _ _ h.image]
  rfl

theorem WalCommit.Begun.images_encodable {c : WalCommit} (h : c.Begun) {n : Nat}
    (hv : v = walFormatVersion ∨ v = legacyWalFormatVersion) (hcount : (c.pages.take n).length ≤ u32Max + 1) {frame : Frame}
    (hf : frame ∈ imageFrames v c.batchId c.firstLsn 0 (c.pages.take n)) : frame.Encodable ∧ frame.formatVersion = v := by
  have hlsn := h.lsn_lt
  have hle := h.lsn
  obtain ⟨i, hi⟩ := List.mem_iff_getElem?.mp hf
  rw [getElem?_imageFrames, Option.map_eq_some_iff] at hi
  obtain ⟨page, hpage, rfl⟩ := hi
  obtain ⟨hi, _⟩ := List.getElem?_eq_some_iff.mp hpage
  have hpages := List.length_take_le n c.pages
  refine ⟨⟨hv, ?_, h.batchId_lt.le, ?_, ?_⟩, rfl⟩
  · show c.commitLsn - c.pages.length + (0 + i) ≤ u64Max
    rw [List.length_take] at hi
    lia
  · show 0 + i ≤ u32Max
    lia
  · exact length_encodePageImage_le (h.image page (List.mem_of_mem_take (List.mem_of_getElem? hpage)))

theorem WalCommit.Sound.commitFrame_encodable {c : WalCommit} (h : c.Sound)
    (hv : v = walFormatVersion ∨ v = legacyWalFormatVersion) :
    (commitFrame v c).Encodable ∧ (commitFrame v c).formatVersion = v := by
  refine ⟨⟨hv, h.lsn_lt.le, h.batchId_lt.le, h.count, ?_⟩, rfl⟩
  show (commitPayload _ _ _).length ≤ _
  simp [commitPayload, walMaxPayloadSize]

theorem WalCommit.Sound.frames_encodable {c : WalCommit} (h : c.Sound)
    (hv : v = walFormatVersion ∨ v = legacyWalFormatVersion) {frame : Frame} (hf : frame ∈ commitFrames v c) : frame.Encodable ∧ frame.formatVersion = v := by
  rcases List.mem_append.mp hf with hf | hf
  · rw [← List.take_length (l := c.pages)] at hf
    refine h.images_encodable hv ?_ hf
    rw [List.take_length]
    exact Nat.le_succ_of_le h.count
  · obtain rfl := List.mem_singleton.mp hf
    exact h.commitFrame_encodable hv

/-! ### Feeding a commit to the scanner -/

section Records
variable {historyStartLsn : Lsn} {c : WalCommit} {v : Nat} {cs : List WalCommit} {highest : Nat}

/-- The scanner's state with commits `cs` when the images `pages` of the batch after them are there:
before the first of these, `pending` and `highest` are left from the batches before. -/
def imagesSeen (cs : List WalCommit) (pending : Option PendingBatch) (highest : Nat) (c : WalCommit)
    (pages : List WalPageImage) : ScanState :=
  if pages = [] then ⟨cs, pending, highest, highest⟩
  else ⟨cs, some ⟨c.batchId, c.firstLsn, pages, pages.flatMap encodePageImage⟩, c.batchId, c.batchId⟩

theorem scanFrame_image {pending : Option PendingBatch}
    (hhighest : highest < c.batchId) (hpending : ∀ p ∈ pending, p.batchId ≠ c.batchId)
    (hstart : historyStartLsn < c.firstLsn) {pages : List WalPageImage} {page : WalPageImage}
    (hpage : validatePageImage page = .ok ()) (hcount : pages.length ≤ u32Max) :
    scanFrame historyStartLsn (imagesSeen cs pending highest c pages)
        ⟨v, .pageImage, c.firstLsn + pages.length, c.batchId, pages.length, encodePageImage page⟩ =
      .ok (imagesSeen cs pending highest c (pages ++ [page])) := by
  have hmod : pages.length % 2 ^ 32 = pages.length := Nat.mod_eq_of_lt (by unfold u32Max at hcount; omega)
  have hlsn : historyStartLsn < c.firstLsn + pages.length := lt_of_lt_of_le hstart (Nat.le_add_right _ _)
  simp only [scanFrame, scanPageImage, ensure_pos hlsn, decodePageImage_encodePageImage hpage, hpage, except_ok_bind]
  by_cases hnil : pages = []
  · subst hnil
    have hfilter : pending.filter (fun p => decide (p.batchId = c.batchId)) = none := by
      cases pending with
      | none => rfl
      | some p => simp [Option.filter, hpending p rfl]
    simp only [imagesSeen, hfilter, if_true, List.nil_append, ensure_pos hhighest, except_ok_bind]
    simp [max_eq_right hhighest.le, pure, Except.pure, ensure, bind, Except.bind]
  · simp only [imagesSeen, if_neg hnil, Option.filter, decide_true, if_true, pure, Except.pure, except_ok_bind,
      ensure_pos hmod.symm]
    simp

theorem scanRecords_imageFrames {pending : Option PendingBatch} (hhighest : highest < c.batchId)
    (hpending : ∀ p ∈ pending, p.batchId ≠ c.batchId) (hstart : historyStartLsn < c.firstLsn)
    {pages rest : List WalPageImage} (hpages : ∀ p ∈ rest, validatePageImage p = .ok ())
    (hcount : pages.length + rest.length ≤ u32Max + 1) (more : List Frame) :
    scanRecords historyStartLsn (imagesSeen cs pending highest c pages)
        (imageFrames v c.batchId c.firstLsn pages.length rest ++ more) =
      scanRecords historyStartLsn (imagesSeen cs pending highest c (pages ++ rest)) more := by
  induction rest generalizing pages with
  | nil => simp [imageFrames]
  | cons p rest ih =>
    rw [List.length_cons] at hcount
    have hcount' : (pages ++ [p]).length + rest.length ≤ u32Max + 1 := by
      rw [List.length_append, List.length_singleton]
      omega
    have hrest := ih (fun q hq => hpages q (List.mem_cons_of_mem _ hq)) hcount'
    rw [List.length_append, List.length_singleton, List.append_assoc] at hrest
    rw [imageFrames, List.cons_append, scanRecords,
      scanFrame_image hhighest hpending hstart (hpages p List.mem_cons_self) (by omega)]
    exact hrest

omit [Crc32c] in
theorem validatePageImageLsns_ok {commitLsn : Lsn} {pages : List WalPageImage}
    (h : ∀ p ∈ pages, validatePageImageLsn p commitLsn = .ok ()) : validatePageImageLsns commitLsn pages = .ok () := by
  induction pages with
  | nil => rfl
  | cons p rest ih =>
    rw [validatePageImageLsns, h p List.mem_cons_self]
    exact ih fun q hq => h q (List.mem_cons_of_mem _ hq)

omit [Crc32c] in
theorem decodeCommitPayload_commitPayload {firstLsn : Lsn} {count sum : Nat} (hfirst : firstLsn ≤ u64Max)
    (hcount : count ≤ u32Max) (hsum : sum < 256 ^ 4) :
    decodeCommitPayload (commitPayload firstLsn count sum) = .ok (firstLsn, count, sum) := by
  have hcount' : count < 256 ^ 4 := by
    unfold u32Max at hcount
    omega
  have hfields : Fields (commitPayload firstLsn count sum) 0 [le 8 firstLsn, le 4 count, le 4 sum] :=
    .of_eq (b := []) (by simp [commitPayload])
  simp only [Fields, Nat.reduceAdd, length_le] at hfields
  obtain ⟨h0, h8, h12, -⟩ := hfields
  simp only [decodeCommitPayload, except_bind_eq_ok, ensure_eq_ok, h0, h8, h12,
    ofLe_le _ _ (lt_of_le_u64Max hfirst), ofLe_le _ _ hcount', ofLe_le _ _ hsum]
  exact ⟨(), by simp [commitPayload, commitPayloadSize], rfl⟩

theorem scanFrame_commit (h : c.Sound) {pending : Option PendingBatch} (hstart : historyStartLsn < c.firstLsn) :
    scanFrame historyStartLsn (imagesSeen cs pending highest c c.pages) (commitFrame v c) =
      .ok ⟨cs ++ [c], none, c.batchId, c.batchId⟩ := by
  have hmod : c.pages.length % 2 ^ 32 = c.pages.length :=
    Nat.mod_eq_of_lt (by have := h.count; unfold u32Max at this; omega)
  have hlsn : historyStartLsn < c.commitLsn := lt_of_lt_of_le hstart (Nat.sub_le _ _)
  have hfirst : c.firstLsn ≤ u64Max := (Nat.sub_le _ _).trans h.lsn_lt.le
  have hdigest : digest (c.pages.flatMap encodePageImage) < 256 ^ 4 := UInt32.toNat_lt _
  have hcheck : c.batchId = c.batchId ∧ c.pages.length = c.pages.length % 2 ^ 32 := ⟨rfl, hmod.symm⟩
  have hmeta : c.firstLsn = c.firstLsn ∧ c.pages.length = c.pages.length ∧
      digest (c.pages.flatMap encodePageImage) = digest (c.pages.flatMap encodePageImage) := ⟨rfl, rfl, rfl⟩
  rw [commitFrame, imagesSeen, if_neg h.pages_ne, scanFrame, ensure_pos hlsn, except_ok_bind]
  show scanCommit _ _ = _
  rw [scanCommit]
  dsimp only
  rw [ensure_pos hcheck, except_ok_bind, decodeCommitPayload_commitPayload hfirst h.count hdigest, except_ok_bind]
  dsimp only
  rw [ensure_pos hmeta, except_ok_bind, validatePageImageLsns_ok h.imageLsn, except_ok_bind, max_self]
  rfl

end Records

/-! ### Logs -/

/-- The first `count` frames of a commit: all of them, or what an append that stopped left. -/
structure WalItem where
  commit : WalCommit
  count : Nat

namespace WalItem

def frames (i : WalItem) : List Frame := (commitFrames walFormatVersion i.commit).take i.count

/-- All frames of the commit are there. -/
def whole (i : WalItem) : Prop := i.count = i.commit.pages.length + 1

omit [Crc32c] in
instance (i : WalItem) : Decidable i.whole := inferInstanceAs (Decidable (_ = _))

def lastLsn (i : WalItem) : Lsn := i.commit.firstLsn + i.count - 1

/-- What the scanner has of the item when it is not whole. -/
def pending (i : WalItem) : Option PendingBatch :=
  if i.whole then none
  else some ⟨i.commit.batchId, i.commit.firstLsn, i.commit.pages.take i.count,
    (i.commit.pages.take i.count).flatMap encodePageImage⟩

/-- A commit, or a beginning of one, that the scanner accepts. -/
structure Sound (i : WalItem) : Prop where
  commit : i.commit.Begun
  pos : 0 < i.count
  le : i.count ≤ i.commit.pages.length + 1
  images : (i.commit.pages.take i.count).length ≤ u32Max + 1
  count : i.whole → i.commit.pages.length ≤ u32Max

end WalItem

def itemsFrames (items : List WalItem) : List Frame := items.flatMap WalItem.frames

/-- The commits of a log. -/
def committedItems (items : List WalItem) : List WalCommit :=
  (items.filter fun i => decide i.whole).map WalItem.commit

/-- Items of which the LSNs and batch ids increase, from `lsn` and `batchId` on. -/
def ItemsSound : Lsn → Nat → List WalItem → Prop
  | _, _, [] => True
  | lsn, batchId, i :: rest => i.Sound ∧ lsn ≤ i.commit.firstLsn ∧ batchId ≤ i.commit.batchId ∧
      ItemsSound (i.lastLsn + 1) (i.commit.batchId + 1) rest

def nextBatchIdOf (items : List WalItem) : Nat :=
  (items.getLast?.map fun i => i.commit.batchId + 1).getD 1

def nextLsnOf (items : List WalItem) : Lsn := (items.getLast?.map fun i => i.lastLsn + 1).getD 1

theorem ItemsSound.mono {lsn lsn' : Lsn} {batchId' : Nat} {items : List WalItem} (h : ItemsSound lsn batchId items)
    (hl : lsn' ≤ lsn) (hb : batchId' ≤ batchId) : ItemsSound lsn' batchId' items := by
  cases items with
  | nil => exact h
  | cons i rest => exact ⟨h.1, hl.trans h.2.1, hb.trans h.2.2.1, h.2.2.2⟩

theorem WalItem.Sound.frames_split {i : WalItem} (h : i.Sound) : i.frames =
    imageFrames walFormatVersion i.commit.batchId i.commit.firstLsn 0 (i.commit.pages.take i.count) ++
      if i.whole then [commitFrame walFormatVersion i.commit] else [] := by
  unfold WalItem.frames commitFrames
  rw [List.take_append, length_imageFrames, imageFrames_take]
  congr 1
  by_cases hw : i.whole
  · rw [if_pos hw]
    unfold WalItem.whole at hw
    rw [hw, Nat.add_sub_cancel_left]
    rfl
  · rw [if_neg hw]
    have := h.le
    unfold WalItem.whole at hw
    have hzero : i.count - i.commit.pages.length = 0 := by omega
    rw [hzero, List.take_zero]

/-- An item, fed to the scanner, adds its commit if it is whole and is pending if it is not. -/
theorem scanRecords_item {i : WalItem} (h : i.Sound) {historyStartLsn : Lsn}
    (hstart : historyStartLsn < i.commit.firstLsn) {cs : List WalCommit} {pending : Option PendingBatch}
    {highest : Nat} (hhighest : highest < i.commit.batchId)
    (hpending : ∀ p ∈ pending, p.batchId ≠ i.commit.batchId) (more : List Frame) :
    scanRecords historyStartLsn ⟨cs, pending, highest, highest⟩ (i.frames ++ more) =
      scanRecords historyStartLsn
        ⟨cs ++ committedItems [i], i.pending, i.commit.batchId, i.commit.batchId⟩ more := by
  have hcount : ([] : List WalPageImage).length + (i.commit.pages.take i.count).length ≤ u32Max + 1 := by
    rw [List.length_nil, Nat.zero_add]
    exact h.images
  rw [h.frames_split, List.append_assoc]
  have hseen : (⟨cs, pending, highest, highest⟩ : ScanState) = imagesSeen cs pending highest i.commit [] := by
    rw [imagesSeen, if_pos rfl]
  rw [hseen]
  refine (scanRecords_imageFrames hhighest hpending hstart
    (fun p hp => h.commit.image p (List.mem_of_mem_take hp)) hcount _).trans ?_
  rw [List.nil_append]
  by_cases hw : i.whole
  · have htake : i.commit.pages.take i.count = i.commit.pages :=
      List.take_of_length_le (by unfold WalItem.whole at hw; omega)
    rw [if_pos hw, htake, List.singleton_append, scanRecords, scanFrame_commit ⟨h.commit, h.count hw⟩ hstart]
    simp [committedItems, WalItem.pending, hw, bind, Except.bind]
  · have hne : i.commit.pages.take i.count ≠ [] := by
      have := h.pos
      have := List.length_pos_iff.mpr h.commit.pages_ne
      rw [← List.length_pos_iff, List.length_take]
      omega
    rw [if_neg hw, List.nil_append, imagesSeen, if_neg hne]
    simp [committedItems, WalItem.pending, hw]

/-- The scanner reads the commits of a log that are whole. -/
theorem scanRecords_items {historyStartLsn : Lsn} {items : List WalItem} {lsn : Lsn}
    (h : ItemsSound lsn batchId items) (hstart : historyStartLsn < lsn) {cs : List WalCommit}
    {pending : Option PendingBatch} {highest : Nat} (hhighest : highest < batchId)
    (hpending : ∀ p ∈ pending, p.batchId < batchId) :
    ∃ s, scanRecords historyStartLsn ⟨cs, pending, highest, highest⟩ (itemsFrames items) = .ok s ∧
      s.committed = cs ++ committedItems items ∧
      s.maxBatchId = (items.getLast?.map fun i => i.commit.batchId).getD highest := by
  induction items generalizing lsn batchId cs pending highest with
  | nil => exact ⟨_, rfl, by simp [committedItems], rfl⟩
  | cons i rest ih =>
    obtain ⟨hi, hlsn, hbatch, hrest⟩ := h
    have hpending' : ∀ p ∈ i.pending, p.batchId < i.commit.batchId + 1 := by
      intro p hp
      unfold WalItem.pending at hp
      split at hp
      · cases hp
      · cases hp
        exact Nat.lt_succ_self _
    have hstart' : historyStartLsn < i.lastLsn + 1 := by
      have := hi.pos
      unfold WalItem.lastLsn
      lia
    obtain ⟨s, hs, hcommitted, hmax⟩ := ih hrest hstart' (Nat.lt_succ_self _) hpending'
    refine ⟨s, ?_, ?_, ?_⟩
    · rw [itemsFrames, List.flatMap_cons, scanRecords_item hi (lt_of_lt_of_le hstart hlsn)
        (lt_of_lt_of_le hhighest hbatch) fun p hp => (lt_of_lt_of_le (hpending p hp) hbatch).ne]
      exact hs
    · rw [hcommitted, List.append_assoc]
      congr 1
      unfold committedItems
      by_cases hw : i.whole <;> simp [hw]
    · rw [hmax]
      obtain _ | ⟨j, js⟩ := rest <;> simp [List.getLast?_cons]

/-! ### Cutting a log -/

/-- The items, and the part of one, that the first `t` bytes hold. -/
def cutItems : Nat → List WalItem → List WalItem
  | _, [] => []
  | t, i :: rest =>
    if framesLength i.frames ≤ t then i :: cutItems (t - framesLength i.frames) rest
    else if (completeFrames t i.frames).length = 0 then []
    else [⟨i.commit, (completeFrames t i.frames).length⟩]

omit [Crc32c] in
theorem length_completeFrames_le (t : Nat) (frames : List Frame) :
    (completeFrames t frames).length ≤ frames.length := by
  have := congrArg List.length (completeFrames_eq_take t frames)
  rw [List.length_take] at this
  omega

theorem WalItem.length_frames (i : WalItem) : i.frames.length = min i.count (i.commit.pages.length + 1) := by
  rw [WalItem.frames, List.length_take, length_commitFrames]

theorem completeFrames_items (t : Nat) (items : List WalItem) :
    completeFrames t (itemsFrames items) = itemsFrames (cutItems t items) := by
  induction items generalizing t with
  | nil => rfl
  | cons i rest ih =>
    have hcons : ∀ js, itemsFrames (i :: js) = i.frames ++ itemsFrames js := fun js => rfl
    rw [hcons, completeFrames_append, cutItems]
    by_cases hfits : framesLength i.frames ≤ t
    · rw [if_pos hfits, if_pos hfits, hcons, ih]
    · rw [if_neg hfits, if_neg hfits]
      by_cases hzero : (completeFrames t i.frames).length = 0
      · rw [if_pos hzero, List.length_eq_zero_iff.mp hzero]
        rfl
      · rw [if_neg hzero]
        show _ = (commitFrames walFormatVersion i.commit).take (completeFrames t i.frames).length ++ []
        have hle := (length_completeFrames_le t i.frames).trans (i.length_frames.le.trans (min_le_left _ _))
        have htake : ∀ n ≤ i.count, i.frames.take n = (commitFrames walFormatVersion i.commit).take n := by
          intro n hn
          rw [WalItem.frames, List.take_take, Nat.min_eq_left hn]
        rw [List.append_nil, ← htake _ hle]
        exact completeFrames_eq_take t i.frames

theorem ItemsSound.cut {lsn : Lsn} {items : List WalItem} (h : ItemsSound lsn batchId items)
    (t : Nat) : ItemsSound lsn batchId (cutItems t items) := by
  induction items generalizing lsn batchId t with
  | nil => exact True.intro
  | cons i rest ih =>
    obtain ⟨hi, hlsn, hbatch, hrest⟩ := h
    rw [cutItems]
    split
    · exact ⟨hi, hlsn, hbatch, ih hrest _⟩
    · split
      · exact True.intro
      · rename_i hzero
        have hframes := length_completeFrames_le t i.frames
        rw [i.length_frames] at hframes
        refine ⟨⟨hi.commit, Nat.pos_of_ne_zero hzero, hframes.trans (min_le_right _ _), ?_, fun hwhole => ?_⟩, hlsn, hbatch,
          True.intro⟩
        · have himages := hi.images
          show (i.commit.pages.take (completeFrames t i.frames).length).length ≤ _
          rw [List.length_take] at himages ⊢
          omega
        · refine hi.count (le_antisymm hi.le ?_)
          have hall : (completeFrames t i.frames).length = i.commit.pages.length + 1 := hwhole
          omega

/-! ### The order of the frames of a log -/

theorem WalCommit.Begun.frame_lsn {c : WalCommit} (h : c.Begun) {j : Nat} {frame : Frame}
    (hf : (commitFrames v c)[j]? = some frame) : frame.recordLsn = c.firstLsn + j := by
  have hlsn := h.lsn
  rw [commitFrames, List.getElem?_append] at hf
  split at hf
  · rw [getElem?_imageFrames, Option.map_eq_some_iff] at hf
    obtain ⟨page, _, rfl⟩ := hf
    rw [Nat.zero_add]
  · rename_i hj
    rw [length_imageFrames] at hj hf
    obtain ⟨hlen, _⟩ := List.getElem?_eq_some_iff.mp hf
    rw [List.length_singleton] at hlen
    have hzero : j - c.pages.length = 0 := by omega
    rw [hzero] at hf
    cases hf
    show c.commitLsn = c.commitLsn - c.pages.length + j
    lia

omit [Crc32c] in
/-- Frames whose LSNs count up from `first`, and more frames after them. -/
theorem increasing_append {frames more : List Frame} {first : Lsn}
    (hlsn : ∀ j f, frames[j]? = some f → f.recordLsn = first + j) (hne : frames ≠ [])
    {previous : Option Lsn} (hprevious : ∀ p ∈ previous, p < first)
    (hmore : Increasing (some (first + frames.length - 1)) more) : Increasing previous (frames ++ more) := by
  induction frames generalizing first previous with
  | nil => exact absurd rfl hne
  | cons f rest ih =>
    have hf : f.recordLsn = first := hlsn 0 f rfl
    refine ⟨fun p hp => by rw [hf]; exact hprevious p hp, ?_⟩
    rw [hf]
    obtain _ | ⟨g, gs⟩ := rest
    · simpa using hmore
    · have hlsn' : ∀ j x, (g :: gs)[j]? = some x → x.recordLsn = first + 1 + j := by
        intro j x hx
        rw [hlsn (j + 1) x hx]
        lia
      have hnext : first + 1 + (g :: gs).length - 1 = first + (f :: g :: gs).length - 1 := by
        simp only [List.length_cons]
        lia
      refine ih hlsn' (by simp) (fun p hp => ?_) (by rw [hnext]; exact hmore)
      cases hp
      exact Nat.lt_succ_self _

theorem ItemsSound.increasing {lsn : Lsn} {items : List WalItem} (h : ItemsSound lsn batchId items)
    {previous : Option Lsn} (hprevious : ∀ p ∈ previous, p < lsn) : Increasing previous (itemsFrames items) := by
  induction items generalizing lsn batchId previous with
  | nil => exact True.intro
  | cons i rest ih =>
    obtain ⟨hi, hlsn, _, hrest⟩ := h
    have hlen : i.frames.length = i.count := by
      rw [i.length_frames]
      exact Nat.min_eq_left hi.le
    have hframes : ∀ j f, i.frames[j]? = some f → f.recordLsn = i.commit.firstLsn + j := by
      intro j f hf
      refine hi.commit.frame_lsn (v := walFormatVersion) ?_
      rw [WalItem.frames, List.getElem?_take] at hf
      split at hf
      · exact hf
      · cases hf
    have hne : i.frames ≠ [] := by
      rw [← List.length_pos_iff, hlen]
      exact hi.pos
    refine increasing_append hframes hne (fun p hp => lt_of_lt_of_le (hprevious p hp) hlsn) ?_
    rw [hlen]
    exact ih hrest fun p hp => by cases hp; exact Nat.lt_succ_self _

theorem getLast?_itemsFrames {lsn : Lsn} {items : List WalItem} (h : ItemsSound lsn batchId items) :
    (itemsFrames items).getLast?.map Frame.recordLsn = items.getLast?.map WalItem.lastLsn := by
  induction items generalizing lsn batchId with
  | nil => rfl
  | cons i rest ih =>
    obtain ⟨hi, _, _, hrest⟩ := h
    have hlen : i.frames.length = i.count := by
      rw [i.length_frames]
      exact Nat.min_eq_left hi.le
    show (i.frames ++ itemsFrames rest).getLast?.map Frame.recordLsn = _
    rw [List.getLast?_append, List.getLast?_cons]
    have hrest' := ih hrest
    obtain _ | ⟨j, js⟩ := rest
    · have hlast : ∃ f, i.frames.getLast? = some f := by
        cases hf : i.frames.getLast? with
        | some f => exact ⟨f, rfl⟩
        | none =>
          have := hi.pos
          rw [List.getLast?_eq_none_iff.mp hf, List.length_nil] at hlen
          omega
      obtain ⟨f, hf⟩ := hlast
      have hget := hf
      rw [List.getLast?_eq_getElem?, hlen, WalItem.frames, List.getElem?_take,
        if_pos (Nat.sub_lt hi.pos Nat.one_pos)] at hget
      have := hi.commit.frame_lsn hget
      have := hi.pos
      simp only [itemsFrames, List.flatMap_nil, List.getLast?_nil, Option.none_or, hf, Option.map_some]
      simp only [Option.getD_none, Option.some.injEq, WalItem.lastLsn]
      lia
    · rw [List.getLast?_cons] at hrest' ⊢
      cases hx : (itemsFrames (j :: js)).getLast? with
      | none =>
        rw [hx] at hrest'
        cases hrest'
      | some f =>
        rw [hx] at hrest'
        simpa using hrest'

/-! ### Whole logs -/

def logFrames (identity : WalIdentity) (startLsn : Lsn) (items : List WalItem) : List Frame :=
  initFrame walFormatVersion identity startLsn :: itemsFrames items

/-- The bytes of a log whose history starts after `startLsn`. -/
def logBytes (identity : WalIdentity) (startLsn : Lsn) (items : List WalItem) : Bytes :=
  framesBytes (logFrames identity startLsn items)

/-- What an open log knows of its items. -/
def logOf (identity : WalIdentity) (startLsn : Lsn) (items : List WalItem) : WalLog :=
  ⟨identity, walFormatVersion, nextLsnOf items, nextBatchIdOf items, startLsn, committedItems items⟩

omit [Crc32c] in
theorem length_identityPayload (identity : WalIdentity) (startLsn : Lsn) :
    (identityPayload identity startLsn).length = initPayloadSize := by
  simp [identityPayload, identity.databaseUuid.property, initPayloadSize]

omit [Crc32c] in
theorem verifyIdentity_identityPayload (identity : WalIdentity) {startLsn : Lsn} (h : startLsn ≤ u64Max) :
    verifyIdentity walFormatVersion (identityPayload identity startLsn) identity = .ok startLsn := by
  have huuid := identity.databaseUuid.property
  have hpage : pageSize < 256 ^ 4 := by decide
  have hfields : Fields (identityPayload identity startLsn) 0 [identity.databaseUuid.val,
      le 8 identity.tenantId.toNat, le 8 identity.shardId.toNat, le 8 identity.shardEpoch.toNat, le 4 pageSize,
      le 8 startLsn] := .of_eq (b := []) (by simp [identityPayload])
  simp only [Fields, Nat.reduceAdd, huuid, length_le] at hfields
  obtain ⟨h0, h16, h24, h32, h40, h44, -⟩ := hfields
  simp only [verifyIdentity, except_bind_eq_ok, ensure_eq_ok, h0, h16, h24, h32, h40, h44,
    ofLe_le 8 _ (UInt64.toNat_lt _), UInt64.ofNat_toNat, Uuid.ofBytes_val, ofLe_le _ _ hpage,
    ofLe_le _ _ (lt_of_le_u64Max h), length_identityPayload]
  exact ⟨(), rfl, (), trivial, (), trivial, rfl⟩

omit [Crc32c] in
theorem initFrame_encodable (identity : WalIdentity) (startLsn : Lsn) :
    (initFrame walFormatVersion identity startLsn).Encodable where
  version := .inl rfl
  lsn := Nat.zero_le _
  batchId := Nat.zero_le _
  index := Nat.zero_le _
  payload := by
    show (identityPayload identity startLsn).length ≤ _
    rw [length_identityPayload]
    decide

omit [Crc32c] in
theorem length_initFrame (identity : WalIdentity) (startLsn : Lsn) :
    (initFrame walFormatVersion identity startLsn).length = initFrameSize := by
  show walHeaderSize + (identityPayload identity startLsn).length + walTrailerSize = _
  rw [length_identityPayload]
  rfl

theorem length_logBytes (identity : WalIdentity) (startLsn : Lsn) (items : List WalItem) :
    (logBytes identity startLsn items).length = initFrameSize + framesLength (itemsFrames items) := by
  rw [logBytes, length_framesBytes, logFrames, framesLength, List.map_cons, List.sum_cons, length_initFrame]
  rfl

theorem ItemsSound.mem {lsn : Lsn} {items : List WalItem} (h : ItemsSound lsn batchId items)
    {i : WalItem} (hi : i ∈ items) : i.Sound := by
  induction items generalizing lsn batchId with
  | nil => cases hi
  | cons j rest ih =>
    rcases List.mem_cons.mp hi with rfl | hi
    · exact h.1
    · exact ih h.2.2.2 hi

theorem ItemsSound.frames_encodable {lsn : Lsn} {items : List WalItem} (h : ItemsSound lsn batchId items)
    {frame : Frame} (hf : frame ∈ itemsFrames items) : frame.Encodable ∧ frame.formatVersion = walFormatVersion := by
  obtain ⟨i, hi, hf⟩ := List.mem_flatMap.mp hf
  have hsound := h.mem hi
  rw [hsound.frames_split] at hf
  obtain hf | hf := List.mem_append.mp hf
  · exact hsound.commit.images_encodable (.inl rfl) hsound.images hf
  · split at hf
    · rename_i hwhole
      rw [List.mem_singleton.mp hf]
      exact WalCommit.Sound.commitFrame_encodable ⟨hsound.commit, hsound.count hwhole⟩ (.inl rfl)
    · cases hf

/-- Every item's last LSN and batch id leave room for the next. -/
theorem WalItem.Sound.bounds {i : WalItem} (h : i.Sound) : i.lastLsn < u64Max ∧ i.commit.batchId < u64Max := by
  refine ⟨?_, h.commit.batchId_lt⟩
  have := h.commit.lsn_lt
  have := h.commit.lsn
  have := h.le
  unfold WalItem.lastLsn WalCommit.firstLsn
  lia

theorem ItemsSound.nextLsn {lsn : Lsn} {items : List WalItem} (h : ItemsSound lsn 1 items) {first : Frame}
    (hfirst : first.recordLsn = 0) (error : Error) :
    addOr error ((itemsFrames items).getLast?.getD first).recordLsn 1 = .ok (nextLsnOf items) := by
  have hlast := getLast?_itemsFrames h
  unfold nextLsnOf
  cases hi : items.getLast? with
  | none =>
    rw [hi, Option.map_none, Option.map_eq_none_iff] at hlast
    rw [hlast, Option.getD_none, hfirst]
    rfl
  | some i =>
    rw [hi, Option.map_some, Option.map_eq_some_iff] at hlast
    obtain ⟨f, hf, hlsn⟩ := hlast
    rw [hf, Option.getD_some, hlsn]
    exact addOr_of_le _ (h.mem (List.mem_of_getLast? hi)).bounds.1

theorem ItemsSound.nextBatchId {lsn : Lsn} {items : List WalItem} (h : ItemsSound lsn 1 items) (error : Error) :
    addOr error ((items.getLast?.map fun i => i.commit.batchId).getD 0) 1 = .ok (nextBatchIdOf items) := by
  unfold nextBatchIdOf
  cases hi : items.getLast? with
  | none => rfl
  | some i => exact addOr_of_le _ (h.mem (List.mem_of_getLast? hi)).bounds.2

omit [Crc32c] in
theorem one_le_nextBatchIdOf (items : List WalItem) : 1 ≤ nextBatchIdOf items := by
  unfold nextBatchIdOf
  cases items.getLast? with
  | none => exact le_rfl
  | some i => exact Nat.succ_pos _

theorem length_completeFrames_take (t : Nat) (frames : List Frame) :
    (completeFrames t frames).length ≤ ((framesBytes frames).take t).length := by
  have h₁ := length_le_framesLength (completeFrames t frames)
  have h₂ := framesLength_completeFrames_le t frames
  have h₃ : framesLength (completeFrames t frames) ≤ framesLength frames := by
    rw [completeFrames_eq_take]
    unfold framesLength
    exact List.Sublist.sum_le_sum ((List.take_sublist _ _).map _) (by simp)
  rw [List.length_take, length_framesBytes]
  omega

/-- Scanning the beginning of a log finds the log it has been cut to. -/
theorem scanWal_take (identity : WalIdentity) {startLsn : Lsn} (hstart : startLsn ≤ u64Max) {items : List WalItem}
    (h : ItemsSound (startLsn + 1) 1 items) {t : Nat} (ht : initFrameSize ≤ t) :
    scanWal identity ((logBytes identity startLsn items).take t) =
      .ok (logOf identity startLsn (cutItems (t - initFrameSize) items),
        (logBytes identity startLsn (cutItems (t - initFrameSize) items)).length) := by
  have hcut := h.cut (t - initFrameSize)
  have hframes : ∀ f ∈ logFrames identity startLsn items, f.Encodable ∧ f.formatVersion = walFormatVersion := by
    intro f hf
    rcases List.mem_cons.mp hf with rfl | hf
    · exact ⟨initFrame_encodable .., rfl⟩
    · exact h.frames_encodable hf
  have hinc : Increasing none (logFrames identity startLsn items) :=
    ⟨by simp, h.increasing fun p hp => by cases hp; exact Nat.succ_pos _⟩
  have hcomplete : completeFrames t (logFrames identity startLsn items) =
      logFrames identity startLsn (cutItems (t - initFrameSize) items) := by
    rw [logFrames, completeFrames, length_initFrame, if_pos ht, completeFrames_items, logFrames]
  have hscan := scanFrames_take hframes hinc (by simp : ∀ w ∈ (none : Option Nat), w = walFormatVersion) t 0
    (Nat.lt_succ_of_le (length_completeFrames_take t _))
  rw [Nat.zero_add, hcomplete] at hscan
  have hrecords : ∃ s, scanRecords startLsn {} (itemsFrames (cutItems (t - initFrameSize) items)) = .ok s ∧
      s.committed = [] ++ committedItems (cutItems (t - initFrameSize) items) ∧
      s.maxBatchId = ((cutItems (t - initFrameSize) items).getLast?.map fun i => i.commit.batchId).getD 0 :=
    scanRecords_items hcut (Nat.lt_succ_self _) Nat.one_pos (by simp)
  obtain ⟨s, hs, hcommitted, hmax⟩ := hrecords
  rw [scanWal, logBytes, hscan, except_ok_bind]
  dsimp only [logFrames]
  have hverify : verifyIdentity (initFrame walFormatVersion identity startLsn).formatVersion
      (initFrame walFormatVersion identity startLsn).payload identity = .ok startLsn :=
    verifyIdentity_identityPayload identity hstart
  rw [ensure_pos ⟨rfl, rfl, rfl, rfl⟩, except_ok_bind, hverify, except_ok_bind, hs, except_ok_bind,
    hcut.nextLsn rfl, except_ok_bind, hmax, hcut.nextBatchId, except_ok_bind, hcommitted,
    max_eq_left (one_le_nextBatchIdOf _), logBytes, length_framesBytes]
  rfl

end Dodb
