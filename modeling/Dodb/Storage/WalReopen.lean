import Dodb.Storage.WalAccepted

/-! Opening a log, appending to it and opening it again.

The writer continues a log from the LSN and the batch id the scanner found, and the scanner asks of the
records it reads that they go on from the records before them and come after the history start of the INIT
frame. The first follows from what the scanner found. The second does not: the LSN to continue from is
the one after the last record, and where a log has no records the history start is not looked at. -/
namespace Dodb

open Lib

section Reopen
variable [Crc32c] {μ : Type} {startAfterLsn : Lsn}

/-! ### A log that was opened -/

/-- A log in memory and the frames of the file it was read from. -/
structure Opened (wal : WalLog) (init : Frame) (rest : List Frame) (s : ScanState) : Prop where
  frames : ∀ f ∈ init :: rest, f.Encodable ∧ f.formatVersion = wal.formatVersion
  increasing : Increasing none (init :: rest)
  first : init.recordType = .init ∧ init.recordLsn = 0 ∧ init.batchId = 0 ∧ init.recordIndex = 0
  verify : verifyIdentity init.formatVersion init.payload wal.identity = .ok wal.historyStartLsn
  scan : scanRecords wal.historyStartLsn {} rest = .ok s
  committed : wal.committed = s.committed
  maxBatchId : s.maxBatchId = s.highestBatchIdSeen
  highest : s.highestBatchIdSeen < wal.nextBatchId
  pending : ∀ p ∈ s.pending, p.batchId ≤ s.highestBatchIdSeen
  nextLsn : ∀ f ∈ init :: rest, f.recordLsn < wal.nextLsn
  history : ∀ f ∈ rest, wal.historyStartLsn < f.recordLsn

omit [Crc32c] in
theorem Increasing.le_last {init : Frame} {rest : List Frame} (h : Increasing none (init :: rest)) :
    ∀ f ∈ init :: rest, f.recordLsn ≤ (rest.getLast?.getD init).recordLsn := by
  intro f hf
  have hpairwise := h.pairwise.1
  rcases List.eq_nil_or_concat rest with rfl | ⟨before, last, rfl⟩
  · rw [List.mem_singleton.mp hf]
    rfl
  rw [List.concat_eq_append] at hf hpairwise ⊢
  rw [List.getLast?_append, List.getLast?_singleton, Option.some_or, Option.getD_some]
  rw [← List.cons_append] at hf hpairwise
  rcases List.mem_append.mp hf with hf | hf
  · exact ((List.pairwise_append.mp hpairwise).2.2 f hf last (List.mem_singleton.mpr rfl)).le
  · rw [List.mem_singleton.mp hf]

theorem Opened.of_scanWal {identity : WalIdentity} {bytes : Bytes} {wal : WalLog} {validLength : Nat}
    (h : scanWal identity bytes = .ok (wal, validLength)) :
    ∃ init rest s, bytes.take validLength = framesBytes (init :: rest) ∧ wal.identity = identity ∧
      Opened wal init rest s := by
  obtain ⟨init, runs, s, -, htake, -, hframes, hinc, hinit, hverify, hscan, hscanned, hlsn, hcommitted, hbatch, hnext,
    hidentity⟩ := scanWal_eq_ok h
  refine ⟨init, runs.flatMap Run.frames, s, htake, hidentity, hframes, hinc, hinit, ?_, hscan, hcommitted,
    hscanned.maxBatchId, ?_, ?_, ?_, hlsn⟩
  · rw [hidentity]
    exact hverify
  · rw [hbatch, hscanned.maxBatchId]
    exact Nat.lt_succ_self _
  · intro p hp
    obtain ⟨rs, r, -, -, rfl, hhighest⟩ := hscanned.exists_open hp
    exact hhighest.ge
  · intro f hf
    rw [hnext]
    exact Nat.lt_succ_of_le (hinc.le_last f hf)

theorem Opened.of_filled {identity : WalIdentity} (hstart : startAfterLsn ≤ u64Max) :
    Opened ⟨identity, walFormatVersion, startAfterLsn + 1, 1, startAfterLsn, []⟩
      (initFrame walFormatVersion identity startAfterLsn) [] {} where
  frames f hf := by
    rw [List.mem_singleton.mp hf]
    exact ⟨initFrame_encodable .., rfl⟩
  increasing := ⟨fun p hp => (nomatch hp), True.intro⟩
  first := ⟨rfl, rfl, rfl, rfl⟩
  verify := verifyIdentity_identityPayload identity hstart
  scan := rfl
  committed := rfl
  maxBatchId := rfl
  highest := Nat.one_pos
  pending p hp := nomatch hp
  nextLsn f hf := by
    rw [List.mem_singleton.mp hf]
    exact Nat.succ_pos _
  history f hf := nomatch hf

/-- Opening either starts a log or finds the one the file holds. -/
theorem openWal_ok {identity : WalIdentity} {wal : WalLog} {m m' : Machine FileId μ}
    (hbounded : (m.files .wal).Bounded) (h : openWal identity startAfterLsn m = .ok wal m') :
    (m'.files .wal).Bounded ∧
      ((m.files .wal).volatile.length < initFrameSize ∧ startAfterLsn < u64Max ∧
          (m'.files .wal).volatile = framesBytes [initFrame walFormatVersion identity startAfterLsn] ∧
          wal = ⟨identity, walFormatVersion, startAfterLsn + 1, 1, startAfterLsn, []⟩ ∨
        ∃ validLength, scanWal identity (m.files .wal).volatile = .ok (wal, validLength) ∧
          (m'.files .wal).volatile = (m.files .wal).volatile.take validLength) := by
  have hstarted : ∀ {n : Machine FileId μ}, (n.files .wal).Bounded → (n.files .wal).volatile = [] →
      initializeEmpty identity startAfterLsn n = .ok wal m' →
        (m'.files .wal).Bounded ∧ startAfterLsn < u64Max ∧
          (m'.files .wal).volatile = framesBytes [initFrame walFormatVersion identity startAfterLsn] ∧
          wal = ⟨identity, walFormatVersion, startAfterLsn + 1, 1, startAfterLsn, []⟩ := by
    intro n hn hempty hinit
    obtain ⟨hmax, hfilled, hwal⟩ := initializeEmpty_ok hn hempty hinit
    exact ⟨hfilled.bounded, hmax, hfilled.bytes, hwal⟩
  simp only [openWal, Io.bind_eq_ok] at h
  obtain ⟨length, m₁, hlength, h⟩ := h
  obtain ⟨rfl, hfiles, -, -⟩ := fileLength_spec.of_ok ⟨rfl, rfl, rfl⟩ hlength
  rw [← hfiles] at hbounded
  by_cases hzero : (m.files .wal).volatile.length = 0
  · rw [if_pos hzero] at h
    obtain ⟨hbounded', hmax, hbytes, hwal⟩ :=
      hstarted hbounded (by rw [hfiles]; exact List.length_eq_zero_iff.mp hzero) h
    exact ⟨hbounded', .inl ⟨by rw [hzero]; decide, hmax, hbytes, hwal⟩⟩
  rw [if_neg hzero, Io.ite_bind] at h
  simp only [Io.bind_eq_ok] at h
  obtain ⟨torn, m₂, htorn, h⟩ := h
  have hfiles₂ : m₂.files = m.files ∧ (torn = true → (m.files .wal).volatile.length < initFrameSize) := by
    by_cases hshort : (m.files .wal).volatile.length < initFrameSize
    · rw [if_pos hshort] at htorn
      refine ⟨?_, fun _ => hshort⟩
      simp only [isTornInitializationPrefix, Io.bind_eq_ok, Io.ofExcept_eq_ok] at htorn
      obtain ⟨expected, m₃, ⟨-, rfl⟩, htorn⟩ := htorn
      split at htorn
      · cases htorn
        exact hfiles
      · simp only [Io.bind_eq_ok] at htorn
        obtain ⟨bytes, m₄, hread, hpure⟩ := htorn
        obtain ⟨-, -, hfiles', -, -⟩ := readAt_spec.of_ok ⟨rfl, rfl, rfl⟩ hread
        cases hpure
        exact hfiles'.trans hfiles
    · rw [if_neg hshort] at htorn
      cases htorn
      exact ⟨hfiles, fun hfalse => by cases hfalse⟩
  obtain ⟨hfiles₂, hshort⟩ := hfiles₂
  cases htorn' : torn with
  | true =>
    rw [htorn', if_pos rfl] at h
    simp only [Io.bind_eq_ok, Io.mapError_eq_ok] at h
    obtain ⟨_, m₃, hset, _, m₄, hsync, h⟩ := h
    obtain ⟨-, hfiles₃, -, -⟩ := setLength_spec.of_ok ⟨rfl, rfl, rfl⟩ hset
    obtain ⟨hfiles₄, -, -⟩ := syncFile_spec.of_ok ⟨rfl, rfl, rfl⟩ hsync
    have hwal : m₄.files .wal = File.ofDurable [] := by
      rw [hfiles₄, Function.update_self, hfiles₃, Function.update_self]
      simp [File.sync, File.setLength, resize, zeros]
    obtain ⟨hbounded', hmax, hbytes, hwal⟩ :=
      hstarted (by rw [hwal]; exact ⟨Nat.le_refl 0, Nat.zero_le _⟩) (by rw [hwal]; rfl) h
    exact ⟨hbounded', .inl ⟨hshort htorn', hmax, hbytes, hwal⟩⟩
  | false =>
    rw [htorn', if_neg (by decide)] at h
    simp only [Io.bind_eq_ok, Io.ofExcept_eq_ok] at h
    obtain ⟨_, m₃, hlength, bytes, m₄, hread, ⟨wal₁, validLength⟩, m₅, ⟨hscan, rfl⟩, h⟩ := h
    obtain ⟨rfl, hfiles₃, -, -⟩ := fileLength_spec.of_ok ⟨rfl, rfl, rfl⟩ hlength
    obtain ⟨rfl, -, hfiles₄, -, -⟩ := readAt_spec.of_ok ⟨rfl, rfl, rfl⟩ hread
    have hall : m₅.files = m.files := hfiles₄.trans (hfiles₃.trans hfiles₂)
    rw [hfiles₃, hfiles₂, slice_self _ _ rfl] at hscan
    rw [hfiles] at hbounded
    obtain ⟨-, -, -, hvalid, -⟩ := scanWal_eq_ok hscan
    by_cases htail : validLength < (m₂.files .wal).volatile.length
    · rw [if_pos htail] at h
      simp only [Io.bind_eq_ok, Io.mapError_eq_ok] at h
      obtain ⟨_, m₆, hset, _, m₇, hsync, h⟩ := h
      cases h
      obtain ⟨-, hfiles₆, -, -⟩ := setLength_spec.of_ok ⟨rfl, rfl, rfl⟩ hset
      obtain ⟨hfiles₇, -, -⟩ := syncFile_spec.of_ok ⟨rfl, rfl, rfl⟩ hsync
      have hwal : m'.files .wal = File.ofDurable ((m.files .wal).volatile.take validLength) := by
        rw [hfiles₇, Function.update_self, hfiles₆, Function.update_self, hall]
        simp [File.sync, File.setLength, resize, zeros, Nat.sub_eq_zero_of_le hvalid]
      rw [hwal]
      refine ⟨⟨Nat.le_refl _, ?_⟩, .inr ⟨validLength, hscan, rfl⟩⟩
      exact (List.length_take_le' _ _).trans hbounded.length
    · rw [if_neg htail] at h
      cases h
      rw [hfiles₂] at htail
      rw [hall]
      exact ⟨hbounded, .inr ⟨validLength, hscan, (List.take_of_length_le (not_lt.mp htail)).symm⟩⟩

/-- A log that was opened and the frames of its file. -/
theorem Opened.of_openWal {identity : WalIdentity} {wal : WalLog} {m m' : Machine FileId μ}
    (hbounded : (m.files .wal).Bounded) (h : openWal identity startAfterLsn m = .ok wal m') :
    ∃ init rest s, (m'.files .wal).volatile = framesBytes (init :: rest) ∧ wal.identity = identity ∧
      Opened wal init rest s := by
  obtain ⟨-, ⟨-, hmax, hbytes, rfl⟩ | ⟨validLength, hscan, hbytes⟩⟩ := openWal_ok hbounded h
  · exact ⟨_, [], {}, hbytes, rfl, .of_filled hmax.le⟩
  · rw [hbytes]
    exact Opened.of_scanWal hscan

/-! ### Scanning the frames of a log -/

omit [Crc32c] in
theorem completeFrames_framesLength (frames : List Frame) : completeFrames (framesLength frames) frames = frames := by
  have h := completeFrames_append (framesLength frames) frames []
  rwa [List.append_nil, if_pos (Nat.le_refl _), completeFrames, List.append_nil] at h

/-- What the scanner does with the bytes of frames that go on from each other. -/
theorem scanWal_framesBytes {identity : WalIdentity} {v : Nat} {init : Frame} {rest : List Frame}
    (hframes : ∀ f ∈ init :: rest, f.Encodable ∧ f.formatVersion = v) (hinc : Increasing none (init :: rest))
    (hinit : init.recordType = .init ∧ init.recordLsn = 0 ∧ init.batchId = 0 ∧ init.recordIndex = 0) :
    scanWal identity (framesBytes (init :: rest)) = (do
      let historyStartLsn ← verifyIdentity init.formatVersion init.payload identity
      let s ← scanRecords historyStartLsn {} rest
      let nextLsn ← addOr (.internalInvariantViolation "WAL LSN exhausted") ((rest.getLast?.getD init).recordLsn) 1
      let nextBatchId ← addOr (.internalInvariantViolation "WAL batch ID exhausted") s.maxBatchId 1
      pure (⟨identity, init.formatVersion, nextLsn, max nextBatchId 1, historyStartLsn, s.committed⟩,
        framesLength (init :: rest))) := by
  have hscan := scanFrames_take hframes hinc (by simp : ∀ w ∈ (none : Option Nat), w = v) (framesLength (init :: rest)) 0
    (Nat.lt_succ_of_le (length_completeFrames_take _ _))
  rw [List.take_of_length_le (length_framesBytes _).le, completeFrames_framesLength, Nat.zero_add] at hscan
  rw [scanWal, hscan, except_ok_bind]
  dsimp only
  rw [ensure_pos hinit, except_ok_bind]

omit [Crc32c] in
theorem Increasing.append {previous : Option Lsn} {a b : List Frame} (ha : Increasing previous a)
    (hb : Increasing none b) (hprevious : ∀ p ∈ previous, ∀ g ∈ b, p < g.recordLsn)
    (hab : ∀ f ∈ a, ∀ g ∈ b, f.recordLsn < g.recordLsn) : Increasing previous (a ++ b) := by
  induction a generalizing previous with
  | nil =>
    cases b with
    | nil => trivial
    | cons g rest => exact ⟨fun p hp => hprevious p hp g List.mem_cons_self, hb.2⟩
  | cons f rest ih =>
    refine ⟨ha.1, ih ha.2 ?_ fun x hx => hab x (List.mem_cons_of_mem _ hx)⟩
    intro p hp
    cases hp
    exact hab f List.mem_cons_self

theorem WalCommit.Sound.increasing {c : WalCommit} (h : c.Sound) (v : Nat) : Increasing none (commitFrames v c) := by
  have hnil : Increasing (some (c.firstLsn + (commitFrames v c).length - 1)) [] := True.intro
  have := increasing_append (fun j f => h.frame_lsn) (by simp [commitFrames]) (fun p (hp : p ∈ none) => nomatch hp) hnil
  rwa [List.append_nil] at this

theorem scanRecords_append {historyStartLsn : Lsn} {s : ScanState} {a b : List Frame} :
    scanRecords historyStartLsn s (a ++ b) = scanRecords historyStartLsn s a >>= fun s => scanRecords historyStartLsn s b := by
  induction a generalizing s with
  | nil => rfl
  | cons f rest ih =>
    rw [List.cons_append, scanRecords, scanRecords]
    cases scanFrame historyStartLsn s f with
    | error e => rfl
    | ok s => exact ih

/-- A commit is longer than an INIT frame, since it holds a page. -/
theorem WalCommit.Sound.initFrameSize_le {c : WalCommit} (h : c.Sound) (v : Nat) :
    initFrameSize ≤ framesLength (commitFrames v c) := by
  have hpages := List.length_pos_iff.mpr h.pages_ne
  have hsize : initFrameSize ≤ 1 * (walHeaderSize + (8 + pageSize) + walTrailerSize) := by decide
  rw [h.framesLength_commitFrames]
  exact Nat.le_add_right_of_le (hsize.trans (Nat.mul_le_mul_right _ hpages))

/-- A commit that goes on from what the scanner has seen. -/
theorem scanRecords_commit {historyStartLsn : Lsn} {s : ScanState} {c : WalCommit} (hc : c.Sound) (v : Nat)
    (hmax : s.maxBatchId = s.highestBatchIdSeen) (hhighest : s.highestBatchIdSeen < c.batchId)
    (hpending : ∀ p ∈ s.pending, p.batchId ≤ s.highestBatchIdSeen) (hstart : historyStartLsn < c.firstLsn) :
    scanRecords historyStartLsn s (commitFrames v c) = .ok ⟨s.committed ++ [c], none, c.batchId, c.batchId⟩ := by
  have hs : s = imagesSeen s.committed s.pending s.highestBatchIdSeen c [] := by
    obtain ⟨committed, pending, highest, maxBatchId⟩ := s
    rw [imagesSeen, if_pos rfl]
    rw [ScanState.mk.injEq]
    exact ⟨rfl, rfl, rfl, hmax⟩
  have hne : ∀ p ∈ s.pending, p.batchId ≠ c.batchId := fun p hp => ((hpending p hp).trans_lt hhighest).ne
  have hcount : ([] : List WalPageImage).length + c.pages.length ≤ u32Max + 1 := by
    rw [List.length_nil, Nat.zero_add]
    exact Nat.le_succ_of_le hc.count
  rw [hs, commitFrames]
  refine (scanRecords_imageFrames hhighest hne hstart hc.image hcount _).trans ?_
  rw [List.nil_append, scanRecords, scanFrame_commit hc hstart]
  rfl

/-! ### The commit that was appended -/

section Append
variable {wal : WalLog} {init : Frame} {rest : List Frame} {s : ScanState} {c : WalCommit}

theorem Opened.version (h : Opened wal init rest s) :
    wal.formatVersion = walFormatVersion ∨ wal.formatVersion = legacyWalFormatVersion := by
  obtain ⟨hencodable, hversion⟩ := h.frames init List.mem_cons_self
  rw [← hversion]
  exact hencodable.version

theorem Opened.frames_append (h : Opened wal init rest s) (hc : c.Sound) (hlsn : c.firstLsn = wal.nextLsn) :
    (∀ f ∈ init :: (rest ++ commitFrames wal.formatVersion c), f.Encodable ∧ f.formatVersion = wal.formatVersion) ∧
      Increasing none (init :: (rest ++ commitFrames wal.formatVersion c)) := by
  rw [← List.cons_append]
  refine ⟨fun f hf => ?_, h.increasing.append (hc.increasing _) (fun p hp => nomatch hp) fun f hf g hg => ?_⟩
  · rcases List.mem_append.mp hf with hf | hf
    · exact h.frames f hf
    · exact hc.frames_encodable h.version hf
  · obtain ⟨j, hj⟩ := List.mem_iff_getElem?.mp hg
    rw [hc.frame_lsn hj, hlsn]
    exact lt_of_lt_of_le (h.nextLsn f hf) (Nat.le_add_right _ _)

theorem Opened.scanWal_append (h : Opened wal init rest s) (hc : c.Sound) (hlsn : c.firstLsn = wal.nextLsn)
    (hbatch : c.batchId = wal.nextBatchId) (hstart : wal.historyStartLsn < wal.nextLsn) :
    ∃ reopened, scanWal wal.identity (framesBytes (init :: (rest ++ commitFrames wal.formatVersion c))) =
        .ok (reopened, framesLength (init :: (rest ++ commitFrames wal.formatVersion c))) ∧
      reopened.committed = wal.committed ++ [c] := by
  obtain ⟨hframes, hinc⟩ := h.frames_append hc hlsn
  have hrecords : scanRecords wal.historyStartLsn {} (rest ++ commitFrames wal.formatVersion c) =
      .ok ⟨s.committed ++ [c], none, c.batchId, c.batchId⟩ := by
    rw [scanRecords_append, h.scan, except_ok_bind]
    exact scanRecords_commit hc _ h.maxBatchId (by rw [hbatch]; exact h.highest) h.pending (by rw [hlsn]; exact hstart)
  have hlast : ((rest ++ commitFrames wal.formatVersion c).getLast?.getD init).recordLsn = c.commitLsn := by
    rw [commitFrames, ← List.append_assoc, List.getLast?_append, List.getLast?_singleton, Option.some_or]
    rfl
  rw [scanWal_framesBytes hframes hinc h.first, h.verify, except_ok_bind, hrecords, except_ok_bind, hlast,
    addOr_of_le _ hc.lsn_lt, except_ok_bind, addOr_of_le _ hc.batchId_lt, except_ok_bind]
  refine ⟨_, rfl, ?_⟩
  rw [h.committed]

/-- Where the log has no record and its history starts later, the scanner refuses the commit's first image. -/
theorem Opened.scanWal_append_refused (h : Opened wal init rest s) (hc : c.Sound) (hlsn : c.firstLsn = wal.nextLsn)
    (hstart : wal.nextLsn ≤ wal.historyStartLsn) (x : WalLog × Nat) :
    scanWal wal.identity (framesBytes (init :: (rest ++ commitFrames wal.formatVersion c))) ≠ .ok x := by
  intro hscan
  obtain ⟨hframes, hinc⟩ := h.frames_append hc hlsn
  rw [scanWal_framesBytes hframes hinc h.first, h.verify, except_ok_bind, except_bind_eq_ok] at hscan
  obtain ⟨s', hs', -⟩ := hscan
  rw [scanRecords_append, h.scan, except_ok_bind] at hs'
  obtain ⟨f, more, hfirst⟩ := List.exists_cons_of_ne_nil (by simp [commitFrames] : commitFrames wal.formatVersion c ≠ [])
  have hf : f.recordLsn = c.firstLsn := hc.frame_lsn (j := 0) (by rw [hfirst]; rfl)
  rw [hfirst, scanRecords, except_bind_eq_ok] at hs'
  obtain ⟨s₁, hs₁, -⟩ := hs'
  simp only [scanFrame, except_bind_eq_ok, ensure_eq_ok] at hs₁
  obtain ⟨_, hafter, -⟩ := hs₁
  rw [hf, hlsn] at hafter
  exact absurd hstart (not_le.mpr hafter)

end Append

/-- The file of a log that opened and then took a commit. -/
theorem openWal_append {identity : WalIdentity} {wal wal' : WalLog} {c : WalCommit}
    {m m₁ m₂ : Machine FileId μ} (hbounded : (m.files .wal).Bounded)
    (hopen : openWal identity startAfterLsn m = .ok wal m₁) (happend : appendGroup wal [c] m₁ = .ok wal' m₂) :
    ∃ init rest s, Opened wal init rest s ∧ wal.identity = identity ∧
      (c.Sound ∧ c.firstLsn = wal.nextLsn ∧ c.batchId = wal.nextBatchId) ∧
      (m₂.files .wal).volatile = framesBytes (init :: (rest ++ commitFrames wal.formatVersion c)) ∧
      initFrameSize ≤ (m₂.files .wal).volatile.length ∧ (m₂.files .wal).Bounded := by
  obtain ⟨init, rest, s, hbytes, hidentity, hopened⟩ := Opened.of_openWal hbounded hopen
  obtain ⟨haccepted, hbounded₂, hbytes₂, -⟩ := appendGroup_ok (openWal_ok hbounded hopen).1 happend
  obtain ⟨hc, hlsn, hbatch, -⟩ := haccepted
  have hfull : (m₂.files .wal).volatile = framesBytes (init :: (rest ++ commitFrames wal.formatVersion c)) := by
    rw [hbytes₂, hbytes, ← framesBytes_append]
    simp [commitsFrames]
  refine ⟨init, rest, s, hopened, hidentity, ⟨hc, hlsn, hbatch⟩, hfull, ?_, hbounded₂⟩
  rw [hfull, length_framesBytes, ← List.cons_append, framesLength_append]
  exact Nat.le_add_left_of_le (hc.initFrameSize_le _)

/-- It does not open again where it was continued from an LSN that is not after its history start. -/
theorem not_openWal_append {ν : Type} {identity : WalIdentity} {startAfterLsn' : Lsn} {wal wal' : WalLog}
    {c : WalCommit} {m m₁ m₂ : Machine FileId μ} {n : Machine FileId ν} (hbounded : (m.files .wal).Bounded)
    (hopen : openWal identity startAfterLsn m = .ok wal m₁) (happend : appendGroup wal [c] m₁ = .ok wal' m₂)
    (hfile : n.files .wal = m₂.files .wal) (hstart : wal.nextLsn ≤ wal.historyStartLsn) :
    ¬∃ reopened n', openWal identity startAfterLsn' n = .ok reopened n' := by
  intro ⟨reopened, n', hreopen⟩
  obtain ⟨init, rest, s, hopened, rfl, ⟨hc, hlsn, -⟩, hfull, hlength, hbounded₂⟩ := openWal_append hbounded hopen happend
  rw [← hfile] at hfull hlength hbounded₂
  obtain ⟨-, ⟨hshort, -⟩ | ⟨validLength, hscan, -⟩⟩ := openWal_ok hbounded₂ hreopen
  · exact absurd hlength (not_le.mpr hshort)
  · rw [hfull] at hscan
    exact hopened.scanWal_append_refused hc hlsn hstart _ hscan

/-- A log that opened and then took a commit opens again, with its commits and the new one, just when the
LSN it was continued from is after its history start. -/
theorem openWal_after_append {ν : Type} {identity : WalIdentity} {startAfterLsn startAfterLsn' : Lsn}
    {wal wal' : WalLog} {commit : WalCommit} {m m₁ m₂ : Machine FileId μ} {n : Machine FileId ν}
    (hbounded : (m.files .wal).Bounded) (hopen : openWal identity startAfterLsn m = .ok wal m₁)
    (happend : appendGroup wal [commit] m₁ = .ok wal' m₂) (hquiet : n.schedule = [])
    (hfile : n.files .wal = m₂.files .wal) :
    (∃ reopened n', openWal identity startAfterLsn' n = .ok reopened n' ∧
        reopened.committed = wal.committed ++ [commit]) ↔ wal.historyStartLsn < wal.nextLsn := by
  constructor
  · intro ⟨reopened, n', hreopen, _⟩
    by_contra hstart
    exact not_openWal_append hbounded hopen happend hfile (not_lt.mp hstart) ⟨reopened, n', hreopen⟩
  · intro hstart
    obtain ⟨init, rest, s, hopened, rfl, ⟨hc, hlsn, hbatch⟩, hfull, hlength, hbounded₂⟩ :=
      openWal_append hbounded hopen happend
    rw [← hfile] at hfull hlength hbounded₂
    obtain ⟨reopened, hscan, hcommitted⟩ := hopened.scanWal_append hc hlsn hbatch hstart
    rw [← hfull] at hscan
    obtain ⟨f, hreopen, -⟩ := openWal_scan_quiet hquiet (not_tornInit_of_length hlength) hscan (by rw [hfull, length_framesBytes])
      hbounded₂.length
    exact ⟨reopened, _, hreopen, hcommitted⟩

omit [Crc32c] in
theorem openWal_after_first_commit :
    ∃ wal m₁ wal' m₂, @openWal castagnoli Unit sampleIdentity 4 emptyFiles = .ok wal m₁ ∧
      @appendGroup castagnoli Unit wal [sampleCommit] m₁ = .ok wal' m₂ ∧
      ∃ reopened n', @openWal castagnoli Unit sampleIdentity 4 ⟨m₂.files, (), [], false⟩ = .ok reopened n' ∧
        reopened.committed = wal.committed ++ [sampleCommit] := by
  obtain ⟨wal, m₁, wal', m₂, hopen, happend, rfl⟩ := @openWal_append_quiet castagnoli Unit emptyFiles sampleIdentity 4
    sampleCommit rfl rfl (by decide) sampleCommit_sound rfl rfl sampleCommit_fits
  exact ⟨_, m₁, wal', m₂, hopen, happend, (@openWal_after_append castagnoli Unit Unit sampleIdentity 4 4 _ _ _ _ _ _
    ⟨m₂.files, (), [], false⟩ ⟨Nat.le_refl 0, Nat.zero_le _⟩ hopen happend rfl rfl).mpr (by decide)⟩

/-! ### A log that was reset -/

theorem resetWal_quiet {checkpointLsn : Lsn} {m : Machine FileId WalLog} (h : m.schedule = [])
    (hstart : m.memory.historyStartLsn ≤ checkpointLsn) (hmax : checkpointLsn < u64Max) :
    ∃ m', resetWal checkpointLsn m = .ok ⟨⟩ m' ∧ m'.schedule = [] ∧
      m'.files .wal = File.ofDurable (frameBytes (initFrame walFormatVersion m.memory.identity checkpointLsn)) := by
  unfold resetWal
  rw [Io.bind_apply]
  show ∃ m', (Io.ofExcept (ensure (m.memory.historyStartLsn ≤ checkpointLsn) _) >>= _) m = Outcome.ok PUnit.unit m' ∧ _
  rw [ensure_pos hstart, Io.ofExcept_ok, pure_bind, Io.bind_apply, Io.mapError, walSetLength,
    setLength_quiet h (Nat.zero_le _)]
  dsimp only
  rw [Io.bind_apply, Io.mapError, walSync, syncFile_quiet (by exact h), Machine.setFile_setFile, addOr_of_le _ hmax]
  dsimp only
  set empty := ((m.setFile .wal ((m.files .wal).setLength 0)).files .wal).sync with hempty
  have hnil : empty.volatile = [] := by simp [hempty, File.sync, File.ofDurable, File.setLength, resize, zeros]
  set started : Machine FileId WalLog := (m.setFile .wal empty).setMemory
    {m.memory with historyStartLsn := checkpointLsn, formatVersion := walFormatVersion, nextLsn := checkpointLsn + 1,
                   nextBatchId := 1, committed := []} with hstarted
  show ∃ m', (appendFrame _ >>= _) started = Outcome.ok PUnit.unit m' ∧ _
  obtain ⟨f, happend, hf⟩ := @appendFrame_quiet _ _ started (initFrame walFormatVersion m.memory.identity checkpointLsn)
    (by exact h) (by rw [length_initFrame]; simp [hstarted, hnil]; decide) (initFrame_encodable ..).payload
  rw [Io.bind_apply, happend]
  dsimp only
  rw [Io.mapError, syncFile_quiet (by exact h)]
  refine ⟨_, rfl, h, ?_⟩
  rw [Machine.files_setFile_same, Machine.files_setFile_same, File.sync, hf]
  simp [hstarted, hnil]

/-- The log that opening a file with nothing but an INIT frame finds continues after LSN 0. -/
theorem scanWal_initFrame (identity : WalIdentity) (h : startAfterLsn ≤ u64Max) :
    scanWal identity (frameBytes (initFrame walFormatVersion identity startAfterLsn)) =
      .ok (⟨identity, walFormatVersion, 1, 1, startAfterLsn, []⟩, initFrameSize) := by
  have hopened : Opened _ (initFrame walFormatVersion identity startAfterLsn) [] {} := .of_filled h
  have hbytes : frameBytes (initFrame walFormatVersion identity startAfterLsn) =
      framesBytes [initFrame walFormatVersion identity startAfterLsn] := by
    rw [framesBytes, List.flatMap_singleton]
  rw [hbytes, scanWal_framesBytes hopened.frames hopened.increasing hopened.first, hopened.verify]
  rw [framesLength, List.map_singleton, List.sum_singleton, length_initFrame]
  rfl

/-- A log that was reset to an LSN other than 0 opens, takes a commit and does not open again. -/
theorem resetWal_append_refused {checkpointLsn startAfterLsn : Lsn} {m : Machine FileId WalLog} {c : WalCommit}
    (h : m.schedule = []) (hstart : m.memory.historyStartLsn ≤ checkpointLsn) (hmax : checkpointLsn < u64Max)
    (hpos : 1 ≤ checkpointLsn) (hc : c.Sound) (hlsn : c.firstLsn = 1) (hbatch : c.batchId = 1)
    (hfits : initFrameSize + framesLength (commitFrames walFormatVersion c) ≤ maxFileLength) :
    ∃ m₁ wal m₂ wal' m₃, resetWal checkpointLsn m = .ok ⟨⟩ m₁ ∧
      openWal m.memory.identity startAfterLsn m₁ = .ok wal m₂ ∧ appendGroup wal [c] m₂ = .ok wal' m₃ ∧
      ¬∃ reopened m₄, openWal m.memory.identity startAfterLsn m₃ = .ok reopened m₄ := by
  obtain ⟨m₁, hreset, hquiet, hfile⟩ := resetWal_quiet h hstart hmax
  have hbytes : (m₁.files .wal).volatile = frameBytes (initFrame walFormatVersion m.memory.identity checkpointLsn) := by
    rw [hfile]
    rfl
  have hlength : (m₁.files .wal).volatile.length = initFrameSize := by
    rw [hbytes, length_frameBytes, length_initFrame]
  have hbounded : (m₁.files .wal).Bounded := by
    refine ⟨?_, by rw [hlength]; decide⟩
    rw [hfile]
    exact Nat.le_refl _
  have hscan := scanWal_initFrame m.memory.identity hmax.le
  rw [← hbytes] at hscan
  obtain ⟨f, hopen, hf⟩ := openWal_scan_quiet hquiet (not_tornInit_of_length hlength.ge) hscan hlength.ge
    hbounded.length
  have hroom : ((m₁.setFile .wal f).files .wal).volatile.length + framesLength (commitFrames walFormatVersion c) ≤
      maxFileLength := by
    rw [Machine.files_setFile_same, hf, List.length_take, hlength, Nat.min_self]
    exact hfits
  obtain ⟨g, happend, -⟩ := @appendGroup_one_quiet _ _ (m₁.setFile .wal f)
    ⟨m.memory.identity, walFormatVersion, 1, 1, checkpointLsn, []⟩ c hc hlsn hbatch hquiet hroom
  exact ⟨m₁, _, _, _, _, hreset, hopen, happend, not_openWal_append hbounded hopen happend rfl hpos⟩

end Reopen

/-- A superblock commit that continues a log after LSN 0. -/
def resetCommit : WalCommit := ⟨1, 2, [⟨0, @superblockPage castagnoli (Superblock.new 1 .zero 1 1 1)⟩]⟩

def freshLog : WalLog := ⟨sampleIdentity, walFormatVersion, 1, 1, 0, []⟩

/-- A log is created and reset to LSN 100. It opens, takes a commit, and does not open again. -/
theorem reset_log_does_not_reopen :
    ∃ wal₀ m₀ m₁ wal m₂ wal' m₃,
      @openWal castagnoli WalLog sampleIdentity 0 ⟨fun _ => {}, freshLog, [], false⟩ = .ok wal₀ m₀ ∧
      @resetWal castagnoli 100 (m₀.setMemory wal₀) = .ok ⟨⟩ m₁ ∧
      @openWal castagnoli WalLog sampleIdentity 0 m₁ = .ok wal m₂ ∧
      @appendGroup castagnoli WalLog wal [resetCommit] m₂ = .ok wal' m₃ ∧
      ¬∃ reopened m₄, @openWal castagnoli WalLog sampleIdentity 0 m₃ = .ok reopened m₄ := by
  obtain ⟨f, hcreate, -⟩ := @openWal_torn_quiet castagnoli WalLog ⟨fun _ => {}, freshLog, [], false⟩ sampleIdentity 0 rfl
    (by decide) 0 (by decide) rfl
  have hsound : @WalCommit.Sound castagnoli resetCommit :=
    @WalCommit.sound_superblock castagnoli _ (.new (by decide) ..) _ _ (by decide) (by decide) (by decide)
  have hfits : initFrameSize + framesLength (@commitFrames castagnoli walFormatVersion resetCommit) ≤ maxFileLength := by
    rw [@WalCommit.Begun.framesLength_commitFrames castagnoli _ (@WalCommit.Sound.toBegun castagnoli _ hsound)]
    decide
  obtain ⟨m₁, wal, m₂, wal', m₃, hreset, hrest⟩ := @resetWal_append_refused castagnoli 100 0
    ((Machine.setFile ⟨fun _ => {}, freshLog, [], false⟩ .wal f).setMemory freshLog) resetCommit rfl (Nat.zero_le _) (by decide)
    (by decide) hsound rfl rfl hfits
  exact ⟨_, _, m₁, wal, m₂, wal', m₃, hcreate, hreset, hrest⟩

end Dodb
