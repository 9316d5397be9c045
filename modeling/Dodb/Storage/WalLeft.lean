import Dodb.Storage.WalAppend
import Dodb.Lib.OneFile

/-!
# What is left of a log

A power loss leaves a beginning of the frames that were written. When it comes while the log is reset, or started, it may
leave less than an INIT frame, and that is of the frame the log is to start with. Opening the log takes away what is not a
whole frame, and it may be cut short itself; the commits that are found stay the same.
-/

namespace Dodb
open Lib

variable [Crc32c] {μ : Type} {x : μ}

/-- Batch ids do not outrun LSNs. -/
def Numbered (items : List WalItem) : Prop := ∀ i ∈ items, i.commit.batchId ≤ i.commit.firstLsn

/-- What a power loss leaves of a log with the given commits, where the checkpoint is at `checkpointLsn`. -/
inductive LogLeft (identity : WalIdentity) (checkpointLsn : Lsn) (commits : List WalCommit) (w : Bytes) : Prop where
  | log (start : Lsn) (items : List WalItem) (t : Nat) (hstart : start ≤ checkpointLsn) (ht : initFrameSize ≤ t)
      (hitems : ItemsSound (start + 1) 1 items) (hids : Numbered items)
      (hw : w = (logBytes identity start items).take t)
      (hcommits : committedItems (cutItems (t - initFrameSize) items) = commits)
  | torn (t : Nat) (ht : t < initFrameSize)
      (hw : w = (frameBytes (initFrame walFormatVersion identity checkpointLsn)).take t) (hcommits : commits = [])

/-- A file that a power loss leaves such a log of. -/
structure LogFile (identity : WalIdentity) (checkpointLsn : Lsn) (commits : List WalCommit) (f : File) : Prop where
  length : f.volatile.length ≤ maxFileLength
  durable : f.durable.length ≤ maxFileLength
  left : ∀ w, f.TailLoss w → LogLeft identity checkpointLsn commits w

variable {identity : WalIdentity} {checkpointLsn start : Lsn} {commits : List WalCommit} {items : List WalItem} {w : Bytes}

theorem LogLeft.file (h : LogLeft identity checkpointLsn commits w) (hw : w.length ≤ maxFileLength) :
    LogFile identity checkpointLsn commits (.ofDurable w) := by
  refine ⟨hw, hw, fun left hleft => ?_⟩
  rw [File.tailLoss_ofDurable hleft]
  exact h

theorem LogFile.length_left {f : File} (h : LogFile identity checkpointLsn commits f) (hw : f.TailLoss w) :
    w.length ≤ maxFileLength := by
  obtain rfl | ⟨n, -, rfl⟩ := hw
  · exact h.durable
  · exact (List.length_take_le' _ _).trans h.length

omit [Crc32c] in
theorem Numbered.nil : Numbered [] := fun _ hi => absurd hi List.not_mem_nil

theorem cutItems_framesLength (items : List WalItem) : cutItems (framesLength (itemsFrames items)) items = items := by
  have h := cutItems_append items [] 0
  simpa [cutItems] using h

theorem Numbered.cut (h : Numbered items) (t : Nat) : Numbered (cutItems t items) := by
  induction items generalizing t with
  | nil => exact h
  | cons i rest ih =>
    have hi := h i List.mem_cons_self
    have hrest := ih fun j hj => h j (List.mem_cons_of_mem _ hj)
    intro j hj
    unfold cutItems at hj
    split at hj
    · obtain rfl | hj := List.mem_cons.mp hj
      · exact hi
      · exact hrest _ j hj
    · split at hj
      · cases hj
      · rw [List.mem_singleton.mp hj]
        exact hi

/-- The batch id after the items is not above the LSN after them. -/
theorem Numbered.next (h : Numbered items) {lsn : Lsn} {batchId : Nat} (hsound : ItemsSound lsn batchId items) :
    nextBatchIdOf items ≤ nextLsnOf items := by
  unfold nextBatchIdOf nextLsnOf
  cases hlast : items.getLast? with
  | none => exact le_rfl
  | some i =>
    have hi := List.mem_of_getLast? hlast
    have hpos := (hsound.mem hi).pos
    have hid := h i hi
    show i.commit.batchId + 1 ≤ i.commit.firstLsn + i.count - 1 + 1
    lia

theorem Continues.numbered {nextLsn : Lsn} {nextBatchId : Nat} (h : Continues nextLsn nextBatchId commits)
    (hle : nextBatchId ≤ nextLsn) : Numbered (writtenItems commits) := by
  induction commits generalizing nextLsn nextBatchId with
  | nil => exact Numbered.nil
  | cons c rest ih =>
    obtain ⟨hc, hlsn, hbatch, hrest⟩ := h
    have hid : c.batchId ≤ c.firstLsn := by rwa [hlsn, hbatch]
    have hfirst : c.firstLsn ≤ c.commitLsn := Nat.sub_le _ _
    have hothers := ih hrest (Nat.succ_le_succ (hid.trans hfirst))
    unfold writtenItems
    intro i hi
    split at hi
    · obtain rfl | hi := List.mem_cons.mp hi
      · exact hid
      · exact hothers i hi
    · rw [List.mem_singleton.mp hi]
      exact hid

theorem ItemsSound.commit_lt_next {lsn : Lsn} {batchId : Nat} (h : ItemsSound lsn batchId items) {commit : WalCommit}
    (hcommit : commit ∈ committedItems items) : commit.commitLsn < nextLsnOf items := by
  obtain ⟨i, hi, rfl⟩ := List.mem_map.mp hcommit
  obtain ⟨hi, hwhole⟩ := List.mem_filter.mp hi
  have hcount : i.count = i.commit.pages.length + 1 := of_decide_eq_true hwhole
  have hlast : i.lastLsn = i.commit.commitLsn := by
    have hle := (h.mem hi).commit.lsn
    unfold WalItem.lastLsn WalCommit.firstLsn
    lia
  obtain ⟨before, after, rfl⟩ := List.append_of_mem hi
  cases after with
  | nil =>
    unfold nextLsnOf
    rw [List.getLast?_concat, ← hlast]
    exact Nat.lt_succ_self _
  | cons j rest =>
    have hrest : ∀ {lsn : Lsn} {batchId : Nat} {before : List WalItem}, ItemsSound lsn batchId (before ++ i :: j :: rest) →
        ItemsSound (i.lastLsn + 1) (i.commit.batchId + 1) (j :: rest) := by
      intro lsn batchId before hsound
      induction before generalizing lsn batchId with
      | nil => exact hsound.2.2.2
      | cons k before ih => exact ih hsound.2.2.2
    have hlt := ((hrest h).lt_next (List.cons_ne_nil _ _)).1
    have hsame : nextLsnOf (before ++ i :: j :: rest) = nextLsnOf (j :: rest) := by
      unfold nextLsnOf
      rw [List.getLast?_append_cons, List.getLast?_cons_cons]
    rw [hsame, ← hlast]
    exact (Nat.lt_succ_self _).trans hlt

/-- The bytes of the page images of commits. -/
def imageBytes (commits : List WalCommit) : Nat := (commits.map fun commit => commit.pages.length * pageSize).sum

omit [Crc32c] in
theorem imageBytes_append (commits more : List WalCommit) :
    imageBytes (commits ++ more) = imageBytes commits + imageBytes more := by
  simp [imageBytes]

theorem imageBytes_le {lsn : Lsn} {batchId : Nat} (h : ItemsSound lsn batchId items) :
    imageBytes (committedItems items) ≤ framesLength (itemsFrames items) := by
  induction items generalizing lsn batchId with
  | nil => exact Nat.zero_le _
  | cons i rest ih =>
    obtain ⟨hi, -, -, hrest⟩ := h
    have hrest := ih hrest
    have hlength : framesLength (itemsFrames (i :: rest)) = framesLength i.frames + framesLength (itemsFrames rest) := by
      simp [itemsFrames, framesLength]
    rw [committedItems_cons, imageBytes_append, hlength]
    refine Nat.add_le_add ?_ hrest
    by_cases hwhole : i.whole
    · have hcount : i.count = i.commit.pages.length + 1 := hwhole
      have hall : i.frames = commitFrames walFormatVersion i.commit := by
        unfold WalItem.frames
        rw [hcount, List.take_of_length_le]
        rw [commitFrames, List.length_append, length_imageFrames, List.length_singleton]
      have hone : imageBytes [i.commit] = i.commit.pages.length * pageSize := by simp [imageBytes]
      have hpage : pageSize ≤ walHeaderSize + (8 + pageSize) + walTrailerSize := by decide
      rw [if_pos hwhole, hall, hone, commitFrames, framesLength_append, framesLength_imageFrames _ _ _ _ hi.commit.image]
      exact (Nat.mul_le_mul_left _ hpage).trans (Nat.le_add_right _ _)
    · rw [if_neg hwhole]
      exact Nat.zero_le _

/-- A log that nothing is missing of. -/
theorem LogLeft.whole (hstart : start ≤ checkpointLsn) (hitems : ItemsSound (start + 1) 1 items) (hids : Numbered items) :
    LogLeft identity checkpointLsn (committedItems items) (logBytes identity start items) := by
  have hlength := length_logBytes identity start items
  refine .log start items (logBytes identity start items).length hstart (by omega) hitems hids List.take_length.symm ?_
  rw [hlength, Nat.add_sub_cancel_left, cutItems_framesLength]

/-- The whole frames of what is left. -/
theorem logBytes_cut (identity : WalIdentity) (start : Lsn) (items : List WalItem) {t : Nat} (ht : initFrameSize ≤ t) :
    ((logBytes identity start items).take t).take
        (logBytes identity start (cutItems (t - initFrameSize) items)).length =
      logBytes identity start (cutItems (t - initFrameSize) items) := by
  have hcomplete : completeFrames t (logFrames identity start items) =
      logFrames identity start (cutItems (t - initFrameSize) items) := by
    rw [logFrames, completeFrames, length_initFrame, if_pos ht, completeFrames_items, logFrames]
  unfold logBytes
  rw [← hcomplete]
  exact framesBytes_completeFrames t _

/-- Opening leaves a log in its file that has the commits, and no more than the log. -/
structure OpenedLog (identity : WalIdentity) (checkpointLsn : Lsn) (commits : List WalCommit) (wal : WalLog)
    (start : Lsn) (items : List WalItem) : Prop where
  holds : wal.Holds identity start items
  start_le : start ≤ checkpointLsn
  commits : committedItems items = commits
  ids : Numbered items
  length : (logBytes identity start items).length ≤ maxFileLength

/-- The images of the log fit the medium. -/
theorem OpenedLog.imageBytes_le {wal : WalLog} (h : OpenedLog identity checkpointLsn commits wal start items) :
    imageBytes commits ≤ maxFileLength := by
  have hlength := h.length
  have himages := Dodb.imageBytes_le h.holds.sound
  rw [length_logBytes] at hlength
  rw [h.commits] at himages
  omega

/-- The log after commits that were appended to it. -/
theorem OpenedLog.append {wal : WalLog} {more : List WalCommit} (h : OpenedLog identity checkpointLsn commits wal start items)
    (hstart : start < wal.nextLsn) (hne : more ≠ []) (hmore : Continues wal.nextLsn wal.nextBatchId more)
    (hcount : ∀ c ∈ more, c.pages.length ≤ u32Max) (hids : wal.nextBatchId ≤ wal.nextLsn)
    (hlength : (logBytes identity start (items ++ more.map .ofCommit)).length ≤ maxFileLength) :
    OpenedLog identity checkpointLsn (commits ++ more) {wal with
      nextLsn := (nextAfter (wal.nextLsn, wal.nextBatchId) more).1
      nextBatchId := (nextAfter (wal.nextLsn, wal.nextBatchId) more).2
      committed := wal.committed ++ more} start (items ++ more.map .ofCommit) := by
  refine ⟨h.holds.append hstart hne hmore hcount, h.start_le, ?_, fun i hi => ?_, hlength⟩
  · rw [committedItems_append, committedItems_ofCommit, h.commits]
  · obtain hi | hi := List.mem_append.mp hi
    · exact h.ids i hi
    · rw [← writtenItems_of_le hcount] at hi
      exact hmore.numbered hids i hi

theorem framesBytes_init (identity : WalIdentity) (start : Lsn) :
    frameBytes (initFrame walFormatVersion identity start) = logBytes identity start [] := by
  simp [logBytes, logFrames, itemsFrames, framesBytes]

/-- A log with nothing in it but where it starts, as far as it is written. -/
theorem LogLeft.started (identity : WalIdentity) (checkpointLsn : Lsn) (n : Nat) :
    LogLeft identity checkpointLsn [] ((logBytes identity checkpointLsn []).take n) := by
  by_cases hn : initFrameSize ≤ n
  · exact .log checkpointLsn [] n le_rfl hn True.intro Numbered.nil rfl rfl
  · exact .torn n (Nat.not_le.mp hn) (by rw [framesBytes_init]) rfl

/-- Starting a log in an empty file. -/
theorem startLog_turns (wrap : Error → Error) :
    Turns x .wal (fun g => g = .ofDurable []) (do
        appendFrame (initFrame walFormatVersion identity checkpointLsn)
        Io.mapError wrap walSync)
      (fun _ f => f = .ofDurable (logBytes identity checkpointLsn []) ∧
        (logBytes identity checkpointLsn []).length ≤ maxFileLength)
      (LogFile identity checkpointLsn []) := by
  have hbounded : (File.ofDurable []).Bounded := ⟨le_rfl, Nat.zero_le _⟩
  have hcut : ∀ n, ((File.ofDurable []).append ((logBytes identity checkpointLsn []).take n)).Bounded →
      LogFile identity checkpointLsn [] ((File.ofDurable []).append ((logBytes identity checkpointLsn []).take n)) := by
    intro n hn
    refine ⟨hn.length, Nat.zero_le _, fun left hleft => ?_⟩
    obtain rfl | ⟨m, -, rfl⟩ := hleft
    · have hnone := LogLeft.started identity checkpointLsn 0
      rwa [List.take_zero] at hnone
    · show LogLeft identity checkpointLsn [] ((([] : Bytes) ++ (logBytes identity checkpointLsn []).take n).take m)
      rw [List.nil_append, List.take_take]
      exact .started identity checkpointLsn _
  have happend : Appends ioFailure .wal (appendFrame (initFrame walFormatVersion identity checkpointLsn) : Wal μ PUnit) ⟨⟩ _ :=
    appendFrame_appends (initFrame_encodable identity checkpointLsn).payload
  rw [framesBytes_init] at happend
  refine Turns.bind (.of_appends happend hbounded hcut) fun _ => .of_file fun f hf => ?_
  obtain ⟨-, rfl, hfits⟩ := hf
  have hwhole : (logBytes identity checkpointLsn []).take (logBytes identity checkpointLsn []).length =
      logBytes identity checkpointLsn [] := List.take_length
  have hleft := hcut (logBytes identity checkpointLsn []).length
  rw [hwhole] at hleft
  have hsynced : ((File.ofDurable []).append (logBytes identity checkpointLsn [])).sync =
      .ofDurable (logBytes identity checkpointLsn []) := rfl
  have hlength : (logBytes identity checkpointLsn []).length ≤ maxFileLength := hfits.length
  refine (Turns.mapError (Turns.syncFile (hleft hfits) ?_)).conseq (fun _ h => h) fun _ f hf => ⟨hf.trans hsynced, hlength⟩
  rw [hsynced, ← hwhole]
  exact (LogLeft.started identity checkpointLsn _).file (by rw [hwhole]; exact hlength)

/-- The log in memory that goes with a log that has just been started. -/
theorem OpenedLog.started {wal : WalLog} (hidentity : wal.identity = identity) (hversion : wal.formatVersion = walFormatVersion)
    (hhistory : wal.historyStartLsn = checkpointLsn) (hcommitted : wal.committed = []) (hbatch : wal.nextBatchId = 1)
    (hlsn : wal.nextLsn = checkpointLsn + 1) (hlength : (logBytes identity checkpointLsn []).length ≤ maxFileLength) :
    OpenedLog identity checkpointLsn [] wal checkpointLsn [] :=
  ⟨⟨hidentity, hversion, hhistory, hcommitted, hbatch, hlsn ▸ Nat.succ_le_succ (Nat.zero_le _), True.intro⟩, le_rfl, rfl,
    Numbered.nil, hlength⟩

theorem initializeEmpty_turns (hlt : checkpointLsn < u64Max) :
    Turns x .wal (fun g => g = .ofDurable []) (initializeEmpty identity checkpointLsn)
      (fun wal f => ∃ start items, OpenedLog identity checkpointLsn [] wal start items ∧
        f = .ofDurable (logBytes identity start items))
      (LogFile identity checkpointLsn []) := by
  unfold initializeEmpty
  rw [addOr_of_le _ hlt, Io.ofExcept_ok, pure_bind, ← bind_assoc]
  refine Turns.bind (startLog_turns _) fun _ => .pure fun f hf => ?_
  exact ⟨checkpointLsn, [], .started rfl rfl rfl rfl rfl rfl hf.2, hf.1⟩

/-- The file of what is left of a log may be cut down to anything else that may be left of it. -/
theorem LogLeft.cut (h : LogLeft identity checkpointLsn commits w) (hlength : w.length ≤ maxFileLength) {u : Bytes}
    (hu : LogLeft identity checkpointLsn commits u) (hcut : w.take u.length = u) :
    ((File.ofDurable w).setLength u.length).sync = .ofDurable u ∧
      LogFile identity checkpointLsn commits ((File.ofDurable w).setLength u.length) := by
  have hle : u.length ≤ w.length := by
    rw [← hcut]
    exact List.length_take_le' _ _
  have hset : ((File.ofDurable w).setLength u.length).volatile = u := by
    show resize w _ = _
    rw [resize, hcut, Nat.sub_eq_zero_of_le hle]
    simp [zeros]
  refine ⟨by rw [File.sync, hset], by rw [hset]; exact hle.trans hlength, hlength, fun left hleft => ?_⟩
  obtain rfl | ⟨m, hm, rfl⟩ := hleft
  · exact h
  · rw [hset, List.take_of_length_le ((min_eq_right hle).ge.trans hm)]
    exact hu

/-- Opening what is left of a log finds its commits, and it fails only where the medium does. However it ends, a power loss
leaves as much. The checkpoint that is given must be right where the log may not have one. -/
theorem openWal_turns (h : LogLeft identity checkpointLsn commits w) (hlength : w.length ≤ maxFileLength)
    (hlt : checkpointLsn < u64Max) {hint : Lsn} (hhint : commits = [] → hint = checkpointLsn) :
    Turns x .wal (fun g => g = .ofDurable w) (openWal identity hint)
      (fun wal f => ∃ start items, OpenedLog identity checkpointLsn commits wal start items ∧
        f = .ofDurable (logBytes identity start items))
      (LogFile identity checkpointLsn commits) := by
  have hfile := h.file hlength
  unfold openWal
  refine Turns.bind_eq (.fileLength hfile) ?_
  have hvolatile : (File.ofDurable w).volatile = w := rfl
  rw [hvolatile]
  cases h with
  | torn t ht hw hcommits =>
    obtain rfl := hhint hcommits
    subst hcommits
    have hn : w.length = t := by
      rw [hw, List.length_take, length_frameBytes, length_initFrame]
      omega
    refine Turns.ite (fun hzero => ?_) fun hzero => ?_
    · rw [List.length_eq_zero_iff.mp hzero]
      exact initializeEmpty_turns hlt
    rw [if_pos (hn ▸ ht)]
    unfold isTornInitializationPrefix
    rw [encodeFrame_eq (initFrame_encodable identity hint).payload, Io.ofExcept_ok, pure_bind, length_frameBytes,
      length_initFrame, if_neg (by omega), bind_assoc]
    refine Turns.bind_eq (.readAt hfile (Nat.zero_add _).le) ?_
    have hexpected : decide (slice (File.ofDurable w).volatile 0 w.length =
        (frameBytes (initFrame walFormatVersion identity hint)).take w.length) = true := by
      rw [hvolatile, slice_self _ _ rfl, hn, ← hw]
      exact decide_eq_true rfl
    rw [hexpected, pure_bind]
    dsimp only
    rw [if_pos rfl]
    -- The file is emptied, and then started.
    have hnone : LogLeft identity hint [] [] := .torn 0 (by decide) List.take_zero.symm rfl
    obtain ⟨hsynced, hempty⟩ : ((File.ofDurable w).setLength 0).sync = .ofDurable [] ∧
        LogFile identity hint [] ((File.ofDurable w).setLength 0) :=
      LogLeft.cut (.torn t ht hw rfl) hlength hnone List.take_zero
    refine Turns.bind (.mapError (.setLength hfile fun _ => hempty)) fun _ => .of_file fun g hg => ?_
    obtain ⟨rfl, -⟩ := hg
    refine Turns.bind (.mapError (.syncFile hempty ?_)) fun _ => ?_
    · rw [hsynced]
      exact hnone.file (Nat.zero_le _)
    · rw [hsynced]
      exact initializeEmpty_turns hlt
  | log start items t hstart ht hitems hids hw hcommits =>
    have hcut := logBytes_cut identity start items ht
    rw [← hw] at hcut
    have hle : (logBytes identity start (cutItems (t - initFrameSize) items)).length ≤ w.length := by
      conv_lhs => rw [← hcut]
      exact List.length_take_le' _ _
    have hsize : initFrameSize ≤ w.length := by
      rw [length_logBytes] at hle
      omega
    have hopened : OpenedLog identity checkpointLsn commits
        (logOf identity start (cutItems (t - initFrameSize) items)) start (cutItems (t - initFrameSize) items) :=
      ⟨⟨rfl, rfl, rfl, rfl, rfl, le_rfl, hitems.cut _⟩, hstart, hcommits, hids.cut _, hle.trans hlength⟩
    have hscan := scanWal_take identity (hstart.trans hlt.le) hitems ht
    rw [← hw] at hscan
    have hpos : w.length ≠ 0 := by
      have : 0 < initFrameSize := by decide
      omega
    rw [if_neg hpos, if_neg (Nat.not_lt.mpr hsize), pure_bind]
    dsimp only
    rw [if_neg Bool.false_ne_true]
    refine Turns.bind_eq (.fileLength hfile) ?_
    refine Turns.bind_eq (.readAt hfile (Nat.zero_add _).le) ?_
    rw [hvolatile, slice_self _ _ rfl, hscan, Io.ofExcept_ok, pure_bind]
    dsimp only
    have hwhole : LogLeft identity checkpointLsn commits
        (logBytes identity start (cutItems (t - initFrameSize) items)) := by
      rw [← hcommits]
      exact LogLeft.whole hstart (hitems.cut _) (hids.cut _)
    refine Turns.ite (fun _ => ?_) fun hnot => .pure fun f hf => ⟨start, _, hopened, ?_⟩
    · obtain ⟨hsynced, hleft⟩ :=
        LogLeft.cut (.log start items t hstart ht hitems hids hw hcommits) hlength hwhole hcut
      refine Turns.bind (.setLength hfile fun _ => hleft) fun _ => .of_file fun g hg => ?_
      obtain ⟨rfl, -⟩ := hg
      refine Turns.bind (.mapError (.syncFile hleft ?_)) fun _ => .pure fun f hf => ?_
      · rw [hsynced]
        exact hwhole.file hopened.length
      · exact ⟨start, _, hopened, hf.trans hsynced⟩
    · rw [List.take_of_length_le (Nat.not_lt.mp hnot)] at hcut
      rw [hf, ← hcut]

end Dodb
