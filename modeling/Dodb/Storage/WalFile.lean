import Dodb.Storage.WalScan

/-! The log as a file: appending commits writes their frames one after another, and opening
what is left of the file reads back the commits that are whole.

`appendCommits_appends` says what an append has written wherever it ends. From it
`openWal_truncated` follows: a log that was created empty and filled by groups, cut at any byte,
opens with exactly the commits whose last frame is before the cut. -/
namespace Dodb
open Lib

variable [Crc32c] {μ : Type} {v : Nat} {m m' : Machine FileId μ} {startAfterLsn : Lsn}

/-! ### Appending -/

/-- The commits that the next append to a log takes, one after another. -/
def Accepted : Lsn → Nat → List WalCommit → Prop
  | _, _, [] => True
  | nextLsn, nextBatchId, c :: rest => c.Sound ∧ c.firstLsn = nextLsn ∧ c.batchId = nextBatchId ∧
      Accepted (c.commitLsn + 1) (c.batchId + 1) rest

def commitsFrames (v : Nat) (commits : List WalCommit) : List Frame := commits.flatMap (commitFrames v)

/-- The three writes of a frame are its header, its payload and its trailer. -/
theorem frameBytes_parts (frame : Frame) :
    (frameBytes frame).take walHeaderSize = frameHeader frame (headerChecksum (frameHeader frame 0)) ∧
    slice (frameBytes frame) walHeaderSize frame.payload.length = frame.payload ∧
    (frameBytes frame).drop (walHeaderSize + frame.payload.length) = le 4 frame.length := by
  refine ⟨List.take_left' (length_frameHeader ..), ?_, ?_⟩
  · rw [frameBytes]
    exact slice_field _ _ _ _ _ (length_frameHeader ..) rfl
  · rw [frameBytes, ← List.append_assoc]
    exact List.drop_left' (by simp)

theorem appendFrame_appends {frame : Frame} (h : frame.payload.length ≤ walMaxPayloadSize) :
    Appends ioFailure .wal (appendFrame frame : Wal μ PUnit) ⟨⟩ (frameBytes frame) := by
  obtain ⟨hhead, hbody, htail⟩ := frameBytes_parts frame
  unfold appendFrame
  rw [encodeFrame_eq h, Io.ofExcept_ok, pure_bind]
  dsimp only
  rw [hhead, hbody, htail]
  refine Appends.of_end fun files x b before => ?_
  refine Io.Spec.bind ((writeAt_part_spec before [] _ (frame.payload ++ le 4 frame.length) rfl).pre ?_) fun _ => ?_
  · intro m hm
    rwa [List.append_nil]
  refine Io.Spec.bind (writeAt_part_spec before _ frame.payload (le 4 frame.length) (by simp)) fun _ => ?_
  refine (writeAt_part_spec before _ (le 4 frame.length) [] (by simp)).conseq (fun _ h => h) ?_ ?_ ?_
  · rintro _ m hm
    refine ⟨rfl, ?_⟩
    rwa [List.append_assoc _ frame.payload] at hm
  · rintro e m hm
    rwa [List.append_assoc _ frame.payload, List.append_nil] at hm
  · rintro m hm
    rwa [List.append_assoc _ frame.payload, List.append_nil] at hm

theorem appendImages_appends {c : WalCommit} {firstLsn : Lsn} {index : Nat} {pages : List WalPageImage}
    (himage : ∀ p ∈ pages, validatePageImage p = .ok ()) (hlsn : ∀ p ∈ pages, validatePageImageLsn p c.commitLsn = .ok ())
    (hlast : firstLsn + (index + pages.length) ≤ u64Max) (hindex : index + pages.length ≤ u32Max) :
    Appends ioFailure .wal (appendImages v c firstLsn index pages : Wal μ Bytes) (pages.flatMap encodePageImage)
      (framesBytes (imageFrames v c.batchId firstLsn index pages)) := by
  induction pages generalizing index with
  | nil => exact Appends.pure []
  | cons p rest ih =>
    rw [List.length_cons] at hlast hindex
    have hpayload := length_encodePageImage_le (himage p List.mem_cons_self)
    have hrest := @ih (index + 1) (fun q hq => himage q (List.mem_cons_of_mem _ hq))
      (fun q hq => hlsn q (List.mem_cons_of_mem _ hq)) (by lia) (by omega)
    unfold appendImages
    rw [hlsn p List.mem_cons_self, himage p List.mem_cons_self, addOr_of_le _ (by lia),
      ensure_pos (by omega)]
    simp only [Io.ofExcept_ok, pure_bind]
    rw [imageFrames, framesBytes, List.flatMap_cons]
    refine (appendFrame_appends hpayload).bind ?_
    exact hrest.bind_pure fun payloads => encodePageImage p ++ payloads

theorem appendGroupCommit_appends {c : WalCommit} (h : c.Sound) {nextLsn : Lsn} {nextBatchId : Nat}
    (hlsn : c.firstLsn = nextLsn) (hbatch : c.batchId = nextBatchId) :
    Appends ioFailure .wal (appendGroupCommit v c nextLsn nextBatchId : Wal μ PUnit) ⟨⟩
      (framesBytes (commitFrames v c)) := by
  have hcommit : nextLsn + c.pages.length = c.commitLsn := by
    have := h.lsn
    rw [← hlsn, WalCommit.firstLsn]
    lia
  have hmax : nextLsn + c.pages.length ≤ u64Max := by
    rw [hcommit]
    exact h.lsn_lt.le
  unfold appendGroupCommit
  rw [ensure_pos h.pages_ne, ensure_pos hbatch, addOr_of_le _ hmax, ensure_pos h.count]
  simp only [Io.ofExcept_ok, pure_bind]
  rw [ensure_pos hcommit.symm, Io.ofExcept_ok, pure_bind, commitFrames, framesBytes_append, hlsn]
  refine (appendImages_appends h.image h.imageLsn (by simpa using hmax) (by simpa using h.count)).bind ?_
  have hpayload : (commitPayload nextLsn c.pages.length (digest (c.pages.flatMap encodePageImage))).length ≤
      walMaxPayloadSize := by
    simp [commitPayload, walMaxPayloadSize]
  rw [commitFrame, framesBytes, List.flatMap_singleton, hlsn]
  exact appendFrame_appends hpayload

/-- The LSN and batch id that come after some commits. -/
def nextAfter (next : Lsn × Nat) (commits : List WalCommit) : Lsn × Nat :=
  commits.foldl (fun _ c => (c.commitLsn + 1, c.batchId + 1)) next

theorem appendCommits_appends {commits : List WalCommit} {nextLsn : Lsn} {nextBatchId : Nat}
    (h : Accepted nextLsn nextBatchId commits) :
    Appends ioFailure .wal (appendCommits v commits nextLsn nextBatchId : Wal μ (Lsn × Nat))
      (nextAfter (nextLsn, nextBatchId) commits) (framesBytes (commitsFrames v commits)) := by
  induction commits generalizing nextLsn nextBatchId with
  | nil => exact Appends.pure _
  | cons c rest ih =>
    obtain ⟨hc, hlsn, hbatch, hrest⟩ := h
    unfold appendCommits
    rw [commitsFrames, List.flatMap_cons, framesBytes_append]
    refine (appendGroupCommit_appends hc hlsn hbatch).bind ?_
    rw [addOr_of_le _ hc.lsn_lt, ← hbatch, addOr_of_le _ hc.batchId_lt]
    simp only [Io.ofExcept_ok, pure_bind]
    exact ih hrest

/-! ### What an append that succeeded has checked -/

theorem appendImages_ok {c : WalCommit} {firstLsn : Lsn} {index : Nat} {pages : List WalPageImage}
    {payloads : Bytes} (h : appendImages v c firstLsn index pages m = .ok payloads m') :
    ∀ p ∈ pages, validatePageImage p = .ok () ∧ validatePageImageLsn p c.commitLsn = .ok () := by
  induction pages generalizing index m m' payloads with
  | nil => simp
  | cons p rest ih =>
    simp only [appendImages, Io.bind_eq_ok, Io.ofExcept_eq_ok] at h
    obtain ⟨_, _, ⟨hlsn, _⟩, _, _, ⟨himage, _⟩, _, _, _, _, _, _, _, _, _, _, _, hrest, _⟩ := h
    intro q hq
    rcases List.mem_cons.mp hq with rfl | hq
    · exact ⟨himage, hlsn⟩
    · exact ih hrest q hq

theorem appendCommits_ok {commits : List WalCommit} {nextLsn : Lsn} {nextBatchId : Nat} {next : Lsn × Nat}
    (h : appendCommits v commits nextLsn nextBatchId m = .ok next m') : Accepted nextLsn nextBatchId commits := by
  induction commits generalizing nextLsn nextBatchId m with
  | nil => exact True.intro
  | cons c rest ih =>
    simp only [appendCommits, appendGroupCommit, Io.bind_eq_ok, Io.ofExcept_eq_ok, ensure_eq_ok] at h
    obtain ⟨_, _, ⟨_, _, ⟨hne, _⟩, _, _, ⟨hbatch, _⟩, last, _, ⟨hlast, _⟩, _, _, ⟨hcommit, _⟩, _, _, himages, _, _,
      ⟨hcount, _⟩, _⟩, lsn, _, ⟨hlsn, _⟩, batchId, _, ⟨hbatchId, _⟩, hrest⟩ := h
    obtain ⟨rfl, hlastMax⟩ := addOr_eq_ok hlast
    obtain ⟨rfl, hlsnMax⟩ := addOr_eq_ok hlsn
    obtain ⟨rfl, hbatchMax⟩ := addOr_eq_ok hbatchId
    have hvalid := appendImages_ok himages
    refine ⟨⟨⟨hne, fun p hp => (hvalid p hp).1, fun p hp => (hvalid p hp).2, ?_, hlsnMax, ?_⟩, hcount⟩, ?_, hbatch, ?_⟩
    · lia
    · rw [hbatch]
      exact hbatchMax
    · unfold WalCommit.firstLsn
      lia
    · rw [hbatch]
      exact ih hrest

/-! ### Logs that were created empty -/

/-- One group after the other. -/
def appendGroups (wal : WalLog) : List (List WalCommit) → Wal μ WalLog
  | [] => pure wal
  | group :: rest => do
    let wal ← appendGroup wal group
    appendGroups wal rest

/-- Creates a log and appends groups of commits to it. -/
def fillWal (identity : WalIdentity) (startAfterLsn : Lsn) (groups : List (List WalCommit)) : Wal μ WalLog := do
  let wal ← openWal identity startAfterLsn
  appendGroups wal groups

/-- The frames of a log to which `commits` have been appended. -/
def filledFrames (identity : WalIdentity) (startAfterLsn : Lsn) (commits : List WalCommit) : List Frame :=
  initFrame walFormatVersion identity startAfterLsn :: commitsFrames walFormatVersion commits

/-- The commits, each with the offset at which its COMMIT frame ends. -/
def commitEnds : Nat → List WalCommit → List (WalCommit × Nat)
  | _, [] => []
  | offset, c :: rest =>
    let frameEnd := offset + framesLength (commitFrames walFormatVersion c)
    (c, frameEnd) :: commitEnds frameEnd rest

omit [Crc32c] in
theorem nextAfter_append (next : Lsn × Nat) (a b : List WalCommit) :
    nextAfter next (a ++ b) = nextAfter (nextAfter next a) b := List.foldl_append

theorem Accepted.append {a b : List WalCommit} {nextLsn : Lsn} {nextBatchId : Nat}
    (ha : Accepted nextLsn nextBatchId a)
    (hb : Accepted (nextAfter (nextLsn, nextBatchId) a).1 (nextAfter (nextLsn, nextBatchId) a).2 b) :
    Accepted nextLsn nextBatchId (a ++ b) := by
  induction a generalizing nextLsn nextBatchId with
  | nil => exact hb
  | cons c rest ih => exact ⟨ha.1, ha.2.1, ha.2.2.1, ih ha.2.2.2 hb⟩

/-- The log `wal` is what was appended to the empty log, and the file holds the frames. -/
structure Filled (identity : WalIdentity) (startAfterLsn : Lsn) (commits : List WalCommit) (wal : WalLog)
    (m : Machine FileId μ) : Prop where
  accepted : Accepted (startAfterLsn + 1) 1 commits
  version : wal.formatVersion = walFormatVersion
  next : (wal.nextLsn, wal.nextBatchId) = nextAfter (startAfterLsn + 1, 1) commits
  bounded : (m.files .wal).Bounded
  bytes : (m.files .wal).volatile = framesBytes (filledFrames identity startAfterLsn commits)

/-- What appending a group does to the file and to the log in memory. -/
theorem appendGroup_ok {group : List WalCommit} {wal wal' : WalLog}
    (hbounded : (m.files .wal).Bounded) (h : appendGroup wal group m = .ok wal' m') :
    Accepted wal.nextLsn wal.nextBatchId group ∧ (m'.files .wal).Bounded ∧
      (m'.files .wal).volatile =
        (m.files .wal).volatile ++ framesBytes (commitsFrames wal.formatVersion group) ∧
      wal' = {wal with
        nextLsn := (nextAfter (wal.nextLsn, wal.nextBatchId) group).1
        nextBatchId := (nextAfter (wal.nextLsn, wal.nextBatchId) group).2
        committed := wal.committed ++ group} := by
  unfold appendGroup at h
  cases hlast : group.getLast? with
  | none =>
    rw [hlast] at h
    cases h
  | some last =>
    rw [hlast] at h
    simp only [Io.bind_eq_ok, Io.mapError_eq_ok] at h
    obtain ⟨⟨nextLsn, nextBatchId⟩, m₁, happend, _, m₂, hsync, hpure⟩ := h
    cases hpure
    have haccepted := appendCommits_ok happend
    obtain ⟨hnext, hgrown, hfiles, -, -⟩ :=
      (appendCommits_appends haccepted m.files m.memory m.faulted []).of_ok
        (Machine.At.grown ⟨rfl, rfl, rfl⟩ hbounded) happend
    obtain ⟨hfiles', -, -⟩ := syncFile_spec.of_ok ⟨rfl, rfl, rfl⟩ hsync
    have hwal : m'.files .wal = ((m.files .wal).append (framesBytes (commitsFrames wal.formatVersion group))).sync := by
      rw [hfiles', Function.update_self, hfiles, Function.update_self]
      rfl
    refine ⟨haccepted, ?_, ?_, ?_⟩
    · rw [hwal]
      exact ⟨Nat.le_refl _, hgrown.length⟩
    · rw [hwal]
      rfl
    · rw [← hnext]

theorem Filled.appendGroup {identity : WalIdentity} {startAfterLsn : Lsn} {commits group : List WalCommit}
    {wal wal' : WalLog} {m m' : Machine FileId μ} (hf : Filled identity startAfterLsn commits wal m)
    (h : appendGroup wal group m = .ok wal' m') : Filled identity startAfterLsn (commits ++ group) wal' m' := by
  obtain ⟨haccepted, hbounded, hbytes, rfl⟩ := appendGroup_ok hf.bounded h
  refine ⟨hf.accepted.append ?_, hf.version, ?_, hbounded, ?_⟩
  · rw [← hf.next]
    exact haccepted
  · rw [nextAfter_append, ← hf.next]
  · rw [hbytes, hf.bytes, hf.version, ← framesBytes_append]
    simp [filledFrames, commitsFrames]

theorem Filled.appendGroups {identity : WalIdentity} {commits : List WalCommit}
    {groups : List (List WalCommit)} {wal wal' : WalLog}
    (hf : Filled identity startAfterLsn commits wal m) (h : appendGroups wal groups m = .ok wal' m') :
    Filled identity startAfterLsn (commits ++ groups.flatten) wal' m' := by
  induction groups generalizing commits wal m with
  | nil =>
    cases h
    simpa using hf
  | cons group rest ih =>
    simp only [Dodb.appendGroups, Io.bind_eq_ok] at h
    obtain ⟨wal₁, m₁, hgroup, hrest⟩ := h
    have := ih (hf.appendGroup hgroup) hrest
    rwa [List.append_assoc] at this

theorem initializeEmpty_ok {identity : WalIdentity} {wal : WalLog} (hbounded : (m.files .wal).Bounded)
    (hempty : (m.files .wal).volatile = []) (h : initializeEmpty identity startAfterLsn m = .ok wal m') :
    startAfterLsn < u64Max ∧ Filled identity startAfterLsn [] wal m' ∧
      wal = ⟨identity, walFormatVersion, startAfterLsn + 1, 1, startAfterLsn, []⟩ := by
  simp only [initializeEmpty, Io.bind_eq_ok, Io.ofExcept_eq_ok, Io.mapError_eq_ok] at h
  obtain ⟨nextLsn, m₀, ⟨hnext, hm₀⟩, _, m₁, happend, _, m₂, hsync, hpure⟩ := h
  cases hpure
  rw [hm₀] at happend
  obtain ⟨rfl, hmax⟩ := addOr_eq_ok hnext
  have hinit := @appendFrame_appends _ μ _ (initFrame_encodable identity startAfterLsn).payload
  obtain ⟨-, hbounded, hfiles, -, -⟩ :=
    (hinit m.files m.memory m.faulted []).of_ok (Machine.At.grown ⟨rfl, rfl, rfl⟩ hbounded) happend
  obtain ⟨hfiles', -, -⟩ := syncFile_spec.of_ok ⟨rfl, rfl, rfl⟩ hsync
  have hwal : m'.files .wal = ((m.files .wal).append
      (frameBytes (initFrame walFormatVersion identity startAfterLsn))).sync := by
    rw [hfiles', Function.update_self, hfiles, Function.update_self]
    rfl
  refine ⟨hmax, ⟨True.intro, rfl, rfl, ?_, ?_⟩, rfl⟩
  · rw [hwal]
    exact ⟨Nat.le_refl _, hbounded.length⟩
  · rw [hwal]
    show (m.files .wal).volatile ++ _ = _
    rw [hempty]
    simp [filledFrames, commitsFrames, framesBytes]

theorem fillWal_ok {identity : WalIdentity} {groups : List (List WalCommit)} {wal : WalLog}
    (hempty : m.files .wal = {}) (h : fillWal identity startAfterLsn groups m = .ok wal m') :
    startAfterLsn < u64Max ∧ Filled identity startAfterLsn groups.flatten wal m' := by
  simp only [fillWal, openWal, Io.bind_eq_ok] at h
  obtain ⟨wal₀, m₀, ⟨length, m₁, hlength, hopen⟩, hgroups⟩ := h
  obtain ⟨rfl, hfiles, -, -⟩ := fileLength_spec.of_ok ⟨rfl, rfl, rfl⟩ hlength
  rw [if_pos (by rw [hempty]; rfl)] at hopen
  have hbounded : (m₁.files .wal).Bounded := by
    rw [hfiles, hempty]
    exact ⟨Nat.le_refl 0, Nat.zero_le _⟩
  obtain ⟨hmax, hfilled, -⟩ := initializeEmpty_ok hbounded (by rw [hfiles, hempty]) hopen
  have := hfilled.appendGroups hgroups
  exact ⟨hmax, by rwa [List.nil_append] at this⟩

/-! ### Opening a log that was cut -/

def WalItem.ofCommit (c : WalCommit) : WalItem := ⟨c, c.pages.length + 1⟩

theorem WalItem.frames_ofCommit (c : WalCommit) : (WalItem.ofCommit c).frames = commitFrames walFormatVersion c :=
  List.take_of_length_le (length_commitFrames _ c).le

theorem itemsFrames_ofCommit (commits : List WalCommit) :
    itemsFrames (commits.map WalItem.ofCommit) = commitsFrames walFormatVersion commits := by
  rw [itemsFrames, List.flatMap_map, commitsFrames]
  congr 1
  funext c
  exact WalItem.frames_ofCommit c

theorem WalCommit.Sound.item {c : WalCommit} (h : c.Sound) : (WalItem.ofCommit c).Sound where
  commit := h.toBegun
  pos := Nat.succ_pos _
  le := le_rfl
  images := (List.length_take_le' _ _).trans (Nat.le_succ_of_le h.count)
  count _ := h.count

theorem Accepted.itemsSound {commits : List WalCommit} {nextLsn : Lsn} {nextBatchId : Nat}
    (h : Accepted nextLsn nextBatchId commits) : ItemsSound nextLsn nextBatchId (commits.map WalItem.ofCommit) := by
  induction commits generalizing nextLsn nextBatchId with
  | nil => exact True.intro
  | cons c rest ih =>
    obtain ⟨hc, hlsn, hbatch, hrest⟩ := h
    refine ⟨hc.item, hlsn.ge, hbatch.ge, (ih hrest).mono ?_ le_rfl⟩
    have := hc.lsn
    show c.commitLsn - c.pages.length + (c.pages.length + 1) - 1 + 1 ≤ c.commitLsn + 1
    lia

theorem commitEnds_gt (commits : List WalCommit) (offset : Nat) : ∀ p ∈ commitEnds offset commits, offset ≤ p.2 := by
  induction commits generalizing offset with
  | nil => simp [commitEnds]
  | cons c rest ih =>
    intro p hp
    rcases List.mem_cons.mp hp with rfl | hp
    · exact Nat.le_add_right ..
    · exact (Nat.le_add_right ..).trans (ih _ p hp)

/-- A cut leaves whole the commits whose COMMIT frame ends before it. -/
theorem committedItems_cut (commits : List WalCommit) (offset t : Nat) :
    committedItems (cutItems t (commits.map WalItem.ofCommit)) =
      ((commitEnds offset commits).filter fun p => decide (p.2 ≤ offset + t)).map Prod.fst := by
  induction commits generalizing offset t with
  | nil => rfl
  | cons c rest ih =>
    rw [List.map_cons, cutItems, WalItem.frames_ofCommit, commitEnds]
    by_cases hfits : framesLength (commitFrames walFormatVersion c) ≤ t
    · have hrest := ih (offset + framesLength (commitFrames walFormatVersion c))
        (t - framesLength (commitFrames walFormatVersion c))
      rw [Nat.add_assoc, Nat.add_sub_cancel' hfits] at hrest
      rw [if_pos hfits, List.filter_cons_of_pos (by simpa using hfits), List.map_cons, ← hrest]
      simp [committedItems, WalItem.ofCommit, WalItem.whole]
    · have hnone : ((c, offset + framesLength (commitFrames walFormatVersion c)) ::
          commitEnds (offset + framesLength (commitFrames walFormatVersion c)) rest).filter
            (fun p => decide (p.2 ≤ offset + t)) = [] := by
        rw [List.filter_eq_nil_iff]
        intro p hp
        have : offset + framesLength (commitFrames walFormatVersion c) ≤ p.2 := by
          rcases List.mem_cons.mp hp with rfl | hp
          · exact le_rfl
          · exact commitEnds_gt _ _ p hp
        simp only [decide_eq_true_eq]
        omega
      have hpart : (completeFrames t (commitFrames walFormatVersion c)).length ≠ c.pages.length + 1 := by
        intro heq
        have htake := completeFrames_eq_take t (commitFrames walFormatVersion c)
        rw [heq, List.take_of_length_le (length_commitFrames _ c).le] at htake
        have := framesLength_completeFrames_le t (commitFrames walFormatVersion c)
        rw [htake] at this
        exact hfits this
      rw [if_neg hfits, hnone]
      split
      · rfl
      · simp [committedItems, WalItem.whole, WalItem.ofCommit, hpart]

theorem ItemsSound.lt_next {lsn : Lsn} {batchId : Nat} {items : List WalItem} (h : ItemsSound lsn batchId items)
    (hne : items ≠ []) : lsn < nextLsnOf items ∧ batchId < nextBatchIdOf items := by
  induction items generalizing lsn batchId with
  | nil => exact absurd rfl hne
  | cons i rest ih =>
    obtain ⟨hi, hlsn, hbatch, hrest⟩ := h
    have hlast : i.commit.firstLsn ≤ i.lastLsn := by
      have := hi.pos
      unfold WalItem.lastLsn
      lia
    obtain _ | ⟨j, js⟩ := rest
    · exact ⟨Nat.lt_succ_of_le (hlsn.trans hlast), Nat.lt_succ_of_le hbatch⟩
    · obtain ⟨h₁, h₂⟩ := ih hrest (by simp)
      rw [nextLsnOf, nextBatchIdOf, List.getLast?_cons_cons]
      exact ⟨(Nat.lt_succ_of_le (hlsn.trans hlast)).trans h₁, (Nat.lt_succ_of_le hbatch).trans h₂⟩

theorem batchId_of_mem_commitFrames {c : WalCommit} {frame : Frame} (h : frame ∈ commitFrames v c) :
    frame.batchId = c.batchId := by
  rcases List.mem_append.mp h with h | h
  · obtain ⟨j, hj⟩ := List.mem_iff_getElem?.mp h
    rw [getElem?_imageFrames, Option.map_eq_some_iff] at hj
    obtain ⟨page, _, rfl⟩ := hj
    rfl
  · rw [List.mem_singleton.mp h]
    rfl

theorem WalItem.Sound.frame_le {i : WalItem} (h : i.Sound) {frame : Frame} (hf : frame ∈ i.frames) :
    frame.recordLsn ≤ i.lastLsn ∧ frame.batchId = i.commit.batchId := by
  obtain ⟨j, hj⟩ := List.mem_iff_getElem?.mp hf
  rw [WalItem.frames, List.getElem?_take] at hj
  split at hj
  · refine ⟨?_, batchId_of_mem_commitFrames (List.mem_of_getElem? hj)⟩
    rw [h.commit.frame_lsn hj, WalItem.lastLsn]
    lia
  · cases hj

/-- What comes next in a log is after every frame of it. -/
theorem ItemsSound.frames_lt_next {lsn : Lsn} {batchId : Nat} {items : List WalItem}
    (h : ItemsSound lsn batchId items) :
    ∀ frame ∈ itemsFrames items, frame.recordLsn < nextLsnOf items ∧ frame.batchId < nextBatchIdOf items := by
  induction items generalizing lsn batchId with
  | nil => simp [itemsFrames]
  | cons i rest ih =>
    obtain ⟨hi, -, -, hrest⟩ := h
    intro frame hf
    obtain _ | ⟨j, js⟩ := rest
    · obtain ⟨hlsn, hbatch⟩ := hi.frame_le (by simpa [itemsFrames] using hf)
      exact ⟨Nat.lt_succ_of_le hlsn, hbatch ▸ Nat.lt_succ_self _⟩
    · rw [nextLsnOf, nextBatchIdOf, List.getLast?_cons_cons]
      rcases List.mem_append.mp hf with hf | hf
      · obtain ⟨hlsn, hbatch⟩ := hi.frame_le hf
        obtain ⟨hnext, hnext'⟩ := hrest.lt_next (by simp)
        exact ⟨(Nat.lt_succ_of_le hlsn).trans hnext, (hbatch ▸ Nat.lt_succ_self _ : _ < _).trans hnext'⟩
      · exact ih hrest frame hf

omit [Crc32c] in
theorem one_le_nextLsnOf (items : List WalItem) : 1 ≤ nextLsnOf items := by
  unfold nextLsnOf
  cases items.getLast? with
  | none => exact le_rfl
  | some i => exact Nat.succ_pos _

theorem framesBytes_completeFrames (t : Nat) (frames : List Frame) :
    ((framesBytes frames).take t).take (framesBytes (completeFrames t frames)).length =
      framesBytes (completeFrames t frames) := by
  have hle : (framesBytes (completeFrames t frames)).length ≤ t := by
    rw [length_framesBytes]
    exact framesLength_completeFrames_le t frames
  have hsplit : framesBytes frames =
      framesBytes (completeFrames t frames) ++ framesBytes (frames.drop (completeFrames t frames).length) := by
    have htake := completeFrames_eq_take t frames
    generalize completeFrames t frames = complete at htake
    have hsplit : frames = complete ++ frames.drop complete.length :=
      calc frames = frames.take complete.length ++ frames.drop complete.length := (List.take_append_drop _ _).symm
        _ = complete ++ frames.drop complete.length := by rw [← htake]
    rw [← framesBytes_append, ← hsplit]
  rw [List.take_take, Nat.min_eq_left hle]
  nth_rewrite 1 [hsplit]
  exact List.take_left

section Quiet
variable {m : Machine FileId μ}

theorem appendFrame_quiet (frame : Frame) (h : m.schedule = [])
    (hfits : (m.files .wal).volatile.length + frame.length ≤ maxFileLength)
    (hpayload : frame.payload.length ≤ walMaxPayloadSize) :
    ∃ f, appendFrame frame m = .ok ⟨⟩ (m.setFile .wal f) ∧ f.volatile = (m.files .wal).volatile ++ frameBytes frame := by
  rw [Frame.length, walTrailerSize] at hfits
  unfold appendFrame
  rw [encodeFrame_eq hpayload, Io.ofExcept_ok, pure_bind]
  obtain ⟨head, body, tail⟩ := frameBytes_parts frame
  rw [head, body, tail, Io.bind_apply, walLength, fileLength_quiet h]
  dsimp only
  rw [Io.bind_apply, walWrite, writeAt_quiet (by exact h) (by rw [length_frameHeader]; omega)]
  dsimp only
  rw [Io.bind_apply, walWrite, writeAt_quiet (by exact h) (by omega)]
  dsimp only
  rw [walWrite, writeAt_quiet (by exact h) (by rw [length_le]; omega), Machine.setFile_setFile, Machine.setFile_setFile]
  refine ⟨_, rfl, ?_⟩
  simp only [Machine.files_setFile_same, File.write]
  have hsplice : ∀ (a b : Bytes) (o : Nat), o = a.length → splice a o b = a ++ b := by
    intro a b o ho
    rw [ho]
    exact splice_end a b
  rw [hsplice _ (frameHeader _ _) _ rfl, hsplice _ frame.payload _ (by rw [List.length_append, length_frameHeader]),
    hsplice _ (le 4 _) _ (by simp only [List.length_append, length_frameHeader]; omega), List.append_assoc,
    List.append_assoc]
  rfl

theorem appendImages_quiet {v : Nat} {c : WalCommit} (firstLsn : Lsn) (index : Nat) {pages : List WalPageImage}
    (h : m.schedule = []) (himage : ∀ p ∈ pages, validatePageImage p = .ok ())
    (hlsn : ∀ p ∈ pages, validatePageImageLsn p c.commitLsn = .ok ())
    (hlast : firstLsn + (index + pages.length) ≤ u64Max) (hindex : index + pages.length ≤ u32Max)
    (hfits : (m.files .wal).volatile.length + framesLength (imageFrames v c.batchId firstLsn index pages) ≤
      maxFileLength) :
    ∃ f, appendImages v c firstLsn index pages m = .ok (pages.flatMap encodePageImage) (m.setFile .wal f) ∧
      f.volatile = (m.files .wal).volatile ++ framesBytes (imageFrames v c.batchId firstLsn index pages) := by
  induction pages generalizing index m with
  | nil =>
    refine ⟨m.files .wal, by rw [Machine.setFile_self]; rfl, ?_⟩
    exact (List.append_nil _).symm
  | cons p rest ih =>
    rw [List.length_cons] at hlast hindex
    have hpayload := length_encodePageImage_le (himage p List.mem_cons_self)
    have hsum : framesLength (imageFrames v c.batchId firstLsn index (p :: rest)) =
        Frame.length ⟨v, .pageImage, firstLsn + index, c.batchId, index, encodePageImage p⟩ +
          framesLength (imageFrames v c.batchId firstLsn (index + 1) rest) := rfl
    obtain ⟨f, hf, hbytes⟩ := appendFrame_quiet ⟨v, .pageImage, firstLsn + index, c.batchId, index, encodePageImage p⟩ h
      (by omega) hpayload
    obtain ⟨g, hg, hrest⟩ := ih (m := m.setFile .wal f) (index + 1) (by exact h)
      (fun q hq => himage q (List.mem_cons_of_mem _ hq)) (fun q hq => hlsn q (List.mem_cons_of_mem _ hq)) (by lia) (by omega)
      (by rw [Machine.files_setFile_same, hbytes, List.length_append, length_frameBytes]; omega)
    refine ⟨g, ?_, ?_⟩
    · rw [appendImages, hlsn p List.mem_cons_self, himage p List.mem_cons_self, addOr_of_le _ (by lia),
        ensure_pos (by omega)]
      show (appendFrame _ >>= _) m = _
      rw [Io.bind_apply, hf]
      dsimp only
      rw [Io.bind_apply, hg, Machine.setFile_setFile]
      rfl
    · rw [hrest, Machine.files_setFile_same, hbytes, List.append_assoc]
      rfl

theorem appendGroupCommit_quiet {v : Nat} {c : WalCommit} (hc : c.Sound) {nextLsn : Lsn} {nextBatchId : Nat}
    (hlsn : c.firstLsn = nextLsn) (hbatch : c.batchId = nextBatchId) (h : m.schedule = [])
    (hfits : (m.files .wal).volatile.length + framesLength (commitFrames v c) ≤ maxFileLength) :
    ∃ f, appendGroupCommit v c nextLsn nextBatchId m = .ok ⟨⟩ (m.setFile .wal f) ∧
      f.volatile = (m.files .wal).volatile ++ framesBytes (commitFrames v c) := by
  have hcommit : nextLsn + c.pages.length = c.commitLsn := by
    have := hc.lsn
    rw [← hlsn, WalCommit.firstLsn]
    lia
  have hmax : nextLsn + c.pages.length ≤ u64Max := by
    rw [hcommit]
    exact hc.lsn_lt.le
  rw [commitFrames, framesLength_append, hlsn] at hfits
  have hlast : framesLength [commitFrame v c] = (commitFrame v c).length := Nat.add_zero _
  obtain ⟨f, hf, hbytes⟩ := appendImages_quiet (v := v) nextLsn 0 h hc.image hc.imageLsn (by rwa [Nat.zero_add])
    (by rw [Nat.zero_add]; exact hc.count) (by omega)
  obtain ⟨g, hg, hbytes'⟩ := appendFrame_quiet (m := m.setFile .wal f) (commitFrame v c) (by exact h)
    (by rw [Machine.files_setFile_same, hbytes, List.length_append, length_framesBytes]; omega)
    (by simp [commitFrame, commitPayload, walMaxPayloadSize])
  refine ⟨g, ?_, ?_⟩
  · rw [appendGroupCommit, ensure_pos hc.pages_ne, ensure_pos hbatch, addOr_of_le _ hmax]
    show (Io.ofExcept (ensure (c.commitLsn = nextLsn + c.pages.length) _) >>= _) m = _
    rw [ensure_pos hcommit.symm]
    show (appendImages v c nextLsn 0 c.pages >>= _) m = _
    rw [Io.bind_apply, hf]
    dsimp only
    rw [ensure_pos hc.count]
    rw [commitFrame, hlsn, Machine.setFile_setFile] at hg
    exact hg
  · rw [hbytes', Machine.files_setFile_same, hbytes, List.append_assoc, commitFrames, framesBytes_append, hlsn]
    simp [framesBytes]

/-- A commit that continues a log is appended where nothing goes wrong and the file does not get too long. -/
theorem appendGroup_one_quiet {wal : WalLog} {c : WalCommit} (hc : c.Sound) (hlsn : c.firstLsn = wal.nextLsn)
    (hbatch : c.batchId = wal.nextBatchId) (h : m.schedule = [])
    (hfits : (m.files .wal).volatile.length + framesLength (commitFrames wal.formatVersion c) ≤ maxFileLength) :
    ∃ f, appendGroup wal [c] m = .ok {wal with
        nextLsn := c.commitLsn + 1, nextBatchId := wal.nextBatchId + 1, committed := wal.committed ++ [c]}
      (m.setFile .wal f) ∧ f = File.ofDurable ((m.files .wal).volatile ++
        framesBytes (commitFrames wal.formatVersion c)) := by
  obtain ⟨f, hf, hbytes⟩ := appendGroupCommit_quiet (v := wal.formatVersion) hc hlsn hbatch h hfits
  refine ⟨f.sync, ?_, by rw [File.sync, hbytes]⟩
  unfold appendGroup appendCommits
  rw [List.getLast?_singleton]
  dsimp only
  rw [Io.bind_apply, Io.bind_apply, hf]
  dsimp only
  rw [addOr_of_le _ hc.lsn_lt, addOr_of_le _ (by rw [← hbatch]; exact hc.batchId_lt)]
  show (Io.mapError _ walSync >>= _) (m.setFile .wal f) = _
  rw [Io.bind_apply, Io.mapError, walSync, syncFile_quiet (by exact h), Machine.setFile_setFile, Machine.files_setFile_same]
  rfl

theorem initializeEmpty_quiet {identity : WalIdentity} {startAfterLsn : Lsn} (h : m.schedule = [])
    (hempty : (m.files .wal).volatile = []) (hstart : startAfterLsn < u64Max) :
    ∃ f, initializeEmpty identity startAfterLsn m =
        .ok ⟨identity, walFormatVersion, startAfterLsn + 1, 1, startAfterLsn, []⟩ (m.setFile .wal f) ∧
      f.volatile = frameBytes (initFrame walFormatVersion identity startAfterLsn) := by
  have hfits : (m.files .wal).volatile.length + (initFrame walFormatVersion identity startAfterLsn).length ≤
      maxFileLength := by
    rw [hempty, length_initFrame]
    decide
  obtain ⟨f, happend, hbytes⟩ := appendFrame_quiet (initFrame walFormatVersion identity startAfterLsn) h hfits
    (initFrame_encodable identity startAfterLsn).payload
  refine ⟨f.sync, ?_, ?_⟩
  · unfold initializeEmpty
    rw [addOr_of_le _ hstart, Io.ofExcept_ok, pure_bind, Io.bind_apply, happend]
    dsimp only
    rw [Io.bind_apply, Io.mapError, walSync, syncFile_quiet (by exact h), Machine.setFile_setFile, Machine.files_setFile_same]
    rfl
  · rw [File.sync, File.ofDurable, hbytes, hempty, List.nil_append]

/-- A log that is the beginning of the INIT frame it would be created with. -/
def TornInit (identity : WalIdentity) (startAfterLsn : Lsn) (log : Bytes) : Prop :=
  ∃ t < initFrameSize, log = (frameBytes (initFrame walFormatVersion identity startAfterLsn)).take t

theorem not_tornInit_of_length {identity : WalIdentity} {startAfterLsn : Lsn} {log : Bytes}
    (h : initFrameSize ≤ log.length) : ¬TornInit identity startAfterLsn log := by
  intro htorn
  obtain ⟨t, ht, rfl⟩ := htorn
  rw [List.length_take] at h
  omega

theorem openWal_torn_quiet {identity : WalIdentity} {startAfterLsn : Lsn} (h : m.schedule = [])
    (hstart : startAfterLsn < u64Max) {t : Nat} (ht : t < initFrameSize)
    (hbytes : (m.files .wal).volatile = (frameBytes (initFrame walFormatVersion identity startAfterLsn)).take t) :
    ∃ f, openWal identity startAfterLsn m =
        .ok ⟨identity, walFormatVersion, startAfterLsn + 1, 1, startAfterLsn, []⟩ (m.setFile .wal f) ∧
      f.volatile = frameBytes (initFrame walFormatVersion identity startAfterLsn) := by
  have hlength : (m.files .wal).volatile.length = t := by
    rw [hbytes, List.length_take, length_frameBytes, length_initFrame]
    omega
  unfold openWal
  rw [Io.bind_apply, walLength, fileLength_quiet h, hlength]
  dsimp only
  by_cases hzero : t = 0
  · rw [if_pos hzero]
    exact initializeEmpty_quiet h (List.length_eq_zero_iff.mp (hlength.trans hzero)) hstart
  have htorn : isTornInitializationPrefix identity startAfterLsn t m = .ok true m := by
    unfold isTornInitializationPrefix
    rw [encodeFrame_eq (initFrame_encodable identity startAfterLsn).payload, Io.ofExcept_ok, pure_bind,
      length_frameBytes, length_initFrame, if_neg (by omega), Io.bind_apply, walRead,
      readAt_quiet h (by rw [hlength, Nat.zero_add])]
    dsimp only
    rw [hbytes, slice_self _ _ (by rw [← hbytes, hlength]), decide_eq_true rfl]
    rfl
  rw [if_neg hzero, if_pos ht, Io.bind_apply, htorn]
  dsimp only
  rw [if_pos rfl, Io.bind_apply, Io.mapError, walSetLength, setLength_quiet h (by decide)]
  dsimp only
  rw [Io.bind_apply, Io.mapError, walSync, syncFile_quiet (by exact h)]
  dsimp only
  rw [Machine.setFile_setFile]
  obtain ⟨f, hinit, hf⟩ := @initializeEmpty_quiet _ μ
    (m.setFile .wal (((m.setFile .wal ((m.files .wal).setLength 0)).files .wal).sync)) identity startAfterLsn h
    (by simp [File.sync, File.ofDurable, File.setLength, resize, zeros]) hstart
  refine ⟨f, ?_, hf⟩
  rw [hinit, Machine.setFile_setFile]

/-- A log that is not the beginning of its INIT frame is scanned. -/
theorem openWal_eq_scan {identity : WalIdentity} {startAfterLsn : Lsn} (h : m.schedule = [])
    (hnot : ¬TornInit identity startAfterLsn (m.files .wal).volatile) :
    openWal identity startAfterLsn m = (do
      let (wal, validLength) ← Io.ofExcept (scanWal identity (m.files .wal).volatile)
      if validLength < (m.files .wal).volatile.length then
        walSetLength validLength
        Io.mapError (wrapError .durabilityFailure "WAL torn-tail truncation sync failed") walSync
        pure wal
      else pure wal : Wal μ WalLog) m := by
  have hpos : (m.files .wal).volatile.length ≠ 0 := fun hzero =>
    hnot ⟨0, by decide, List.length_eq_zero_iff.mp hzero⟩
  unfold openWal
  rw [Io.bind_apply, walLength, fileLength_quiet h]
  dsimp only
  rw [if_neg hpos, Io.ite_bind, Io.bind_apply]
  have hscanned : (if (m.files .wal).volatile.length < initFrameSize then
      isTornInitializationPrefix identity startAfterLsn (m.files .wal).volatile.length else pure false : Wal μ Bool) m =
        .ok false m := by
    by_cases hshort : (m.files .wal).volatile.length < initFrameSize
    · rw [if_pos hshort]
      unfold isTornInitializationPrefix
      rw [encodeFrame_eq (initFrame_encodable identity startAfterLsn).payload, Io.ofExcept_ok, pure_bind,
        length_frameBytes, length_initFrame, if_neg hshort.not_ge, Io.bind_apply, walRead,
        readAt_quiet h (Nat.zero_add _).le]
      dsimp only
      rw [slice_self _ _ rfl, decide_eq_false fun heq => hnot ⟨_, hshort, heq⟩]
      rfl
    · rw [if_neg hshort]
      rfl
  rw [hscanned]
  dsimp only
  rw [if_neg Bool.false_ne_true, Io.bind_apply, fileLength_quiet h]
  dsimp only
  rw [Io.bind_apply, walRead, readAt_quiet h (Nat.zero_add _).le]
  dsimp only
  rw [slice_self _ _ rfl]

theorem openWal_scan_quiet {identity : WalIdentity} {startAfterLsn : Lsn} (h : m.schedule = []) {wal : WalLog}
    {validLength : Nat} (hnot : ¬TornInit identity startAfterLsn (m.files .wal).volatile)
    (hscan : scanWal identity (m.files .wal).volatile = .ok (wal, validLength))
    (hvalid : validLength ≤ (m.files .wal).volatile.length) (hmax : (m.files .wal).volatile.length ≤ maxFileLength) :
    ∃ f, openWal identity startAfterLsn m = .ok wal (m.setFile .wal f) ∧
      f.volatile = (m.files .wal).volatile.take validLength := by
  rw [openWal_eq_scan h hnot, hscan, Io.ofExcept_ok, pure_bind]
  dsimp only
  by_cases hshort : validLength < (m.files .wal).volatile.length
  · rw [if_pos hshort, Io.bind_apply, walSetLength, setLength_quiet h (hvalid.trans hmax)]
    dsimp only
    rw [Io.bind_apply, Io.mapError, walSync, syncFile_quiet (by exact h), Machine.setFile_setFile]
    refine ⟨_, rfl, ?_⟩
    simp [File.sync, File.ofDurable, File.setLength, resize, zeros, Nat.sub_eq_zero_of_le hvalid]
  · rw [if_neg hshort]
    refine ⟨m.files .wal, by rw [Machine.setFile_self]; rfl, ?_⟩
    rw [List.take_of_length_le (by omega)]

/-- A first commit, where nothing goes wrong. -/
theorem openWal_append_quiet {identity : WalIdentity} {startAfterLsn : Lsn} {c : WalCommit} (h : m.schedule = [])
    (hempty : (m.files .wal).volatile = []) (hstart : startAfterLsn < u64Max) (hc : c.Sound)
    (hlsn : c.firstLsn = startAfterLsn + 1) (hbatch : c.batchId = 1)
    (hfits : initFrameSize + framesLength (commitFrames walFormatVersion c) ≤ maxFileLength) :
    ∃ wal m₁ wal' m₂, openWal identity startAfterLsn m = .ok wal m₁ ∧ appendGroup wal [c] m₁ = .ok wal' m₂ ∧
      wal = ⟨identity, walFormatVersion, startAfterLsn + 1, 1, startAfterLsn, []⟩ := by
  obtain ⟨f, hopen, hf⟩ := openWal_torn_quiet h hstart (by decide : 0 < initFrameSize) hempty
  obtain ⟨g, happend, -⟩ := @appendGroup_one_quiet _ μ (m.setFile .wal f)
    ⟨identity, walFormatVersion, startAfterLsn + 1, 1, startAfterLsn, []⟩ c hc hlsn hbatch h (by
      rw [Machine.files_setFile_same, hf, length_frameBytes, length_initFrame]
      exact hfits)
  exact ⟨_, _, _, _, hopen, happend, rfl⟩

end Quiet

/-- A log that was created empty and filled by groups, cut at any byte, opens with exactly the commits
whose COMMIT frame ends by then. What is left of the file is its complete frames, or a fresh INIT
frame where not even that one was complete, and what comes next is after every one of them. -/
theorem openWal_truncated {ν : Type} {identity : WalIdentity} {startAfterLsn : Lsn} {groups : List (List WalCommit)}
    {m m' : Machine FileId μ} {wal : WalLog} (hempty : m.files .wal = {})
    (hfill : fillWal identity startAfterLsn groups m = .ok wal m') {t : Nat}
    (ht : t ≤ (m'.files .wal).volatile.length) {n : Machine FileId ν} (hquiet : n.schedule = [])
    (hcut : (n.files .wal).volatile = (m'.files .wal).volatile.take t) :
    (m'.files .wal).volatile = framesBytes (filledFrames identity startAfterLsn groups.flatten) ∧
    ∃ wal' n' frames, openWal identity startAfterLsn n = .ok wal' n' ∧
      wal'.committed =
        ((commitEnds initFrameSize groups.flatten).filter fun p => decide (p.2 ≤ t)).map Prod.fst ∧
      (n'.files .wal).volatile = framesBytes frames ∧
      frames = (if t < initFrameSize then [initFrame walFormatVersion identity startAfterLsn]
        else completeFrames t (filledFrames identity startAfterLsn groups.flatten)) ∧
      ∀ frame ∈ frames, frame.recordLsn < wal'.nextLsn ∧ frame.batchId < wal'.nextBatchId := by
  obtain ⟨hstart, hfilled⟩ := fillWal_ok hempty hfill
  refine ⟨hfilled.bytes, ?_⟩
  have hframes : framesBytes (filledFrames identity startAfterLsn groups.flatten) =
      logBytes identity startAfterLsn (groups.flatten.map WalItem.ofCommit) := by
    rw [logBytes, logFrames, itemsFrames_ofCommit, filledFrames]
  by_cases hshort : t < initFrameSize
  · have hinit : (n.files .wal).volatile =
        (frameBytes (initFrame walFormatVersion identity startAfterLsn)).take t := by
      rw [hcut, hfilled.bytes, filledFrames, framesBytes, List.flatMap_cons,
        List.take_append_of_le_length (by rw [length_frameBytes, length_initFrame]; omega)]
    obtain ⟨f, hopen, hbytes⟩ := openWal_torn_quiet hquiet hstart hshort hinit
    refine ⟨_, _, _, hopen, ?_, ?_, rfl, ?_⟩
    · symm
      rw [List.map_eq_nil_iff, List.filter_eq_nil_iff]
      intro p hp
      have := commitEnds_gt _ _ p hp
      simp only [decide_eq_true_eq]
      omega
    · rw [Machine.files_setFile_same, hbytes, if_pos hshort, framesBytes, List.flatMap_singleton]
    · rw [if_pos hshort]
      intro frame hf
      rw [List.mem_singleton.mp hf]
      exact ⟨Nat.succ_pos _, Nat.one_pos⟩
  · rw [not_lt] at hshort
    have hlength : (n.files .wal).volatile.length = t := by
      rw [hcut, List.length_take]
      omega
    have hsound := hfilled.accepted.itemsSound
    have hscan := scanWal_take identity hstart.le hsound hshort
    rw [← hframes, ← hfilled.bytes, ← hcut] at hscan
    have hcutSound := hsound.cut (t - initFrameSize)
    have hcomplete : completeFrames t (filledFrames identity startAfterLsn groups.flatten) =
        logFrames identity startAfterLsn (cutItems (t - initFrameSize) (groups.flatten.map WalItem.ofCommit)) := by
      rw [filledFrames, completeFrames, length_initFrame, if_pos hshort, ← itemsFrames_ofCommit, completeFrames_items,
        logFrames]
    have hvalid : (logBytes identity startAfterLsn
        (cutItems (t - initFrameSize) (groups.flatten.map WalItem.ofCommit))).length ≤ t := by
      rw [logBytes, ← hcomplete, length_framesBytes]
      exact framesLength_completeFrames_le t _
    obtain ⟨f, hopen, hbytes⟩ := openWal_scan_quiet hquiet
      (not_tornInit_of_length (by rw [hlength]; exact hshort)) hscan
      (by rw [hlength]; exact hvalid) (by rw [hlength]; exact ht.trans hfilled.bounded.length)
    refine ⟨_, _, _, hopen, ?_, ?_, rfl, ?_⟩
    · have := committedItems_cut groups.flatten initFrameSize (t - initFrameSize)
      rwa [Nat.add_sub_cancel' hshort] at this
    · rw [Machine.files_setFile_same, if_neg hshort.not_gt, hbytes, hcut, hfilled.bytes, logBytes, ← hcomplete]
      exact framesBytes_completeFrames t _
    · rw [if_neg hshort.not_gt, hcomplete]
      intro frame hf
      rcases List.mem_cons.mp hf with rfl | hf
      · exact ⟨lt_of_lt_of_le Nat.one_pos (one_le_nextLsnOf _), one_le_nextBatchIdOf _⟩
      · exact hcutSound.frames_lt_next frame hf

/-- A commit of a superblock alone. -/
theorem WalCommit.sound_superblock {sb : Superblock} (h : sb.Encodable) {batchId : Nat} {commitLsn : Lsn}
    (hlsn : 1 ≤ commitLsn) (hmax : commitLsn < u64Max) (hbatch : batchId < u64Max) :
    WalCommit.Sound ⟨batchId, commitLsn, [⟨0, superblockPage sb⟩]⟩ where
  pages_ne := List.cons_ne_nil _ _
  image p hp := by
    rw [List.mem_singleton.mp hp, validatePageImage, if_pos (by rfl), decodeSuperblock_superblockPage h]
    rfl
  imageLsn p hp := by
    rw [List.mem_singleton.mp hp]
    rfl
  count := (by decide : 1 ≤ u32Max)
  lsn := hlsn
  lsn_lt := hmax
  batchId_lt := hbatch

def sampleIdentity : WalIdentity := ⟨.zero, 1, 1, 1⟩

/-- A commit of one superblock image, the first after LSN 4. -/
def sampleCommit : WalCommit :=
  ⟨1, 6, [⟨0, (@encodeSuperblock castagnoli (Superblock.new 1 .zero 1 1 1)).toOption.getD []⟩]⟩

def emptyFiles : Machine FileId Unit := ⟨fun _ => {}, (), [], false⟩

omit [Crc32c] in
theorem sampleCommit_sound : @WalCommit.Sound castagnoli sampleCommit := by
  have hnew : (Superblock.new 1 .zero 1 1 1).Encodable := .new (by decide) ..
  rw [sampleCommit, @encodeSuperblock_eq castagnoli _ hnew]
  exact @WalCommit.sound_superblock castagnoli _ hnew _ _ (by decide) (by decide) (by decide)

omit [Crc32c] in
theorem sampleCommit_fits :
    initFrameSize + framesLength (@commitFrames castagnoli walFormatVersion sampleCommit) ≤ maxFileLength := by
  rw [@WalCommit.Begun.framesLength_commitFrames castagnoli _ (@WalCommit.Sound.toBegun castagnoli _ sampleCommit_sound)]
  decide

omit [Crc32c] in
theorem openWal_truncated_last_byte :
    ∃ wal m', @fillWal castagnoli Unit sampleIdentity 4 [[sampleCommit]] emptyFiles = .ok wal m' ∧
      ∃ wal' n', @openWal castagnoli Unit sampleIdentity 4
          ⟨fun _ => File.ofDurable ((m'.files .wal).volatile.take ((m'.files .wal).volatile.length - 1)), (), [], false⟩ =
            .ok wal' n' ∧
        wal'.committed = ((@commitEnds castagnoli initFrameSize [[sampleCommit]].flatten).filter fun p =>
          decide (p.2 ≤ (m'.files .wal).volatile.length - 1)).map Prod.fst := by
  obtain ⟨wal, m', hfill⟩ : ∃ wal m',
      @fillWal castagnoli Unit sampleIdentity 4 [[sampleCommit]] emptyFiles = .ok wal m' := by
    obtain ⟨wal, m₁, wal', m₂, hopen, happend, -⟩ := @openWal_append_quiet castagnoli Unit emptyFiles sampleIdentity 4
      sampleCommit rfl rfl (by decide) sampleCommit_sound rfl rfl sampleCommit_fits
    refine ⟨wal', m₂, ?_⟩
    simp only [fillWal, appendGroups, Io.bind_eq_ok]
    exact ⟨wal, m₁, hopen, wal', m₂, happend, rfl⟩
  obtain ⟨-, wal', n', frames, hopen, hcommitted, -⟩ :=
    @openWal_truncated castagnoli Unit Unit _ _ _ _ _ _ rfl hfill _ (Nat.sub_le _ 1)
      ⟨fun _ => File.ofDurable ((m'.files .wal).volatile.take ((m'.files .wal).volatile.length - 1)), (), [], false⟩
      rfl rfl
  exact ⟨wal, m', hfill, wal', n', hopen, hcommitted⟩

end Dodb
