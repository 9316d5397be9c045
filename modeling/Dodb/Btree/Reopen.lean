import Dodb.Btree.Running

/-! Opening what a power loss has left.

What is left of the two files is a beginning of the log and, block by block, a data file that holds the contents as far as
that beginning does not (`Left`). Opening takes the log's whole frames, redoes them, and checks what it gets; it fails only
where the medium does, and when it fails or is cut short itself, a power loss leaves the same database. When it succeeds
the store is steady and has the documents it had. -/
namespace Dodb
open Lib File

variable [Crc32c] {μ : Type} {x : μ}

/-! ### Redo -/

section Redo
variable {commits : List WalCommit} {c : Contents} {sb : Superblock} {slot : SuperblockSlot}

theorem pageVersion_of_ok {p : PageId} {bytes : Bytes} {decoded : DecodedPage} (hp : ¬p < firstDataPage)
    (h : decodePageAt bytes (some p) = .ok decoded) : pageVersion p bytes = some decoded.header.pageLsn := by
  rw [pageVersion, if_neg hp, h]

theorem pageVersion_of_error {p : PageId} {bytes : Bytes} {e : Error} (hp : ¬p < firstDataPage)
    (h : decodePageAt bytes (some p) = .error e) : pageVersion p bytes = none := by
  rw [pageVersion, if_neg hp, h]

theorem shouldWrite_turns {R : File → Prop} {f : File} (hR : R f) {commitLsn : Lsn} {page : WalPageImage} {n : Nat}
    (hpage : (page.pageId + 1) * pageSize ≤ n) (hn : f.volatile.length = n) :
    Turns x .data (fun g => g = f) (shouldWrite n commitLsn page)
      (fun answer g => g = f ∧ (answer = true ↔
        Behind (pageVersion page.pageId) commitLsn (block pageSize f.volatile page.pageId))) R := by
  unfold shouldWrite
  refine Turns.ite (fun hsuper => ?_) fun hsuper => ?_
  · refine Turns.pure fun g hg => ⟨hg, iff_of_true rfl (.of_unreadable ?_ _)⟩
    rw [pageVersion, if_pos (isSuperblock_iff.mp hsuper)]
  have hdata : ¬page.pageId < firstDataPage := fun hlt => hsuper (isSuperblock_iff.mpr hlt)
  have hread : page.pageId * pageSize + pageSize ≤ f.volatile.length := by
    rw [← Nat.succ_mul]
    exact hpage.trans hn.ge
  rw [if_pos hpage]
  refine Turns.bind_eq (.readAt hR hread) ?_
  unfold block Behind
  cases hdecode : decodePageAt (slice f.volatile (page.pageId * pageSize) pageSize) (some page.pageId) with
  | ok current =>
    rw [pageVersion_of_ok hdata hdecode]
    exact Turns.pure fun _ hg => ⟨hg, by simp⟩
  | error e =>
    rw [pageVersion_of_error hdata hdecode]
    exact Turns.pure fun _ hg => ⟨hg, by simp⟩

/-- A block that may stand where it is written is written, or what is left of it may stand there too. -/
theorem writeBlock_turns (hsb : sb.Encodable) {f : File} (hf : DiskFile f commits c sb slot) {i : Nat} {b : Bytes}
    (hb : b.length = pageSize) (hi : (i + 1) * pageSize ≤ f.volatile.length) (hholds : BlockHolds commits c sb slot i b) :
    Turns x .data (fun g => g = f) (writeBlock i b) (fun _ g => g = f.write (i * pageSize) b)
      (fun g => DiskFile g commits c sb slot) := by
  refine Turns.writeAt fun g hcut => ⟨?_, ?_, hf.stable.writeCut (blockHolds_mixes hsb) hb hi hholds hcut⟩
  · obtain rfl | rfl | ⟨left, -, rfl⟩ := hcut <;> exact hf.whole
  · obtain rfl | rfl | ⟨left, hleft, rfl⟩ := hcut
    · exact hf.fits
    · exact (length_splice_block hb hi).trans_le hf.fits
    · rw [Bool.and_eq_true, decide_eq_true_eq] at hleft
      exact (length_splice_block (hleft.1.1.trans hb) hi).trans_le hf.fits

/-- The data file while it is redone. -/
structure Redoing (commits : List WalCommit) (c : Contents) (sb : Superblock) (slot : SuperblockSlot) (f : File) :
    Prop where
  disk : DiskFile f commits c sb slot
  length : f.volatile.length = (c.highWaterPageId + 1) * pageSize

theorem recoverPages_turns (h : History commits c sb slot) (hbusy : ¬Idle commits sb) {commit : WalCommit}
    (hcommit : commit ∈ commits) {pages : List WalPageImage} (hpages : ∀ page ∈ pages, page ∈ commit.pages)
    (hmax : (c.highWaterPageId + 1) * pageSize ≤ u64Max) (changed : Bool) :
    Turns x .data (Redoing commits c sb slot)
      (recoverPages ((c.highWaterPageId + 1) * pageSize) commit.commitLsn pages changed)
      (fun _ => Redoing commits c sb slot) (fun f => DiskFile f commits c sb slot) := by
  induction pages generalizing changed with
  | nil => exact Turns.pure fun f hf => hf
  | cons page pages ih =>
    have hpage := hpages page List.mem_cons_self
    have hrest := ih fun other hother => hpages other (List.mem_cons_of_mem _ hother)
    have hin : (page.pageId + 1) * pageSize ≤ (c.highWaterPageId + 1) * pageSize :=
      Nat.mul_le_mul_right _ (Nat.succ_le_succ (h.range commit hcommit page hpage))
    have hoffset : page.pageId * pageSize ≤ u64Max :=
      (Nat.mul_le_mul_right _ (Nat.le_succ _)).trans (hin.trans hmax)
    unfold recoverPages
    rw [mulOr_of_le _ hoffset, Io.ofExcept_ok, pure_bind]
    refine Turns.of_file fun f hf => .bind (shouldWrite_turns hf.disk hin hf.length) fun answer => ?_
    refine Turns.of_file fun g hg => ?_
    obtain ⟨rfl, hanswer⟩ := hg
    have hlength := (h.redoable.page commit hcommit page hpage).1
    have hfits : (page.pageId + 1) * pageSize ≤ g.volatile.length := by
      rw [hf.length]
      exact hin
    refine Turns.ite (fun htrue => ?_) fun _ => (hrest changed).conseq (fun g' hg' => hg' ▸ hf) fun _ _ h => h
    have himage := BlockHolds.image h hbusy hcommit hpage (hf.disk.stable.volatile.at_ hfits) (hanswer.mp htrue)
    refine Turns.bind (writeBlock_turns h.records.encodable hf.disk hlength hfits himage) fun _ => ?_
    refine (hrest true).conseq (fun g' hg' => ?_) fun _ _ h => h
    subst hg'
    exact ⟨hf.disk.write hlength hfits himage, (length_splice_block hlength hfits).trans hf.length⟩

theorem recoverBatches_turns (h : History commits c sb slot) (hbusy : ¬Idle commits sb) {batches : List WalCommit}
    (hbatches : ∀ batch ∈ batches, batch ∈ commits) (hmax : (c.highWaterPageId + 1) * pageSize ≤ u64Max)
    (changed : Bool) :
    Turns x .data (Redoing commits c sb slot) (recoverBatches ((c.highWaterPageId + 1) * pageSize) batches changed)
      (fun _ => Redoing commits c sb slot) (fun f => DiskFile f commits c sb slot) := by
  induction batches generalizing changed with
  | nil => exact Turns.pure fun f hf => hf
  | cons batch rest ih =>
    unfold recoverBatches
    refine Turns.bind (recoverPages_turns h hbusy (hbatches batch List.mem_cons_self) (fun _ hpage => hpage) hmax
      changed) fun changed' => ?_
    exact ih (fun other hother => hbatches other (List.mem_cons_of_mem _ hother)) changed'

/-- Redo, however it ends, leaves a data file that holds the contents, and it fails only where the medium does. -/
theorem recoverDataFile_turns {d : Bytes} {db : ReferenceDb} (h : History commits c sb slot)
    (hd : Disk d commits c sb slot) (hvalid : c.Valid db) {hint : Lsn} (hhint : hint ≤ sb.checkpointLsn)
    (hidle : Idle commits sb → hint = sb.checkpointLsn) (hmax : (c.highWaterPageId + 1) * pageSize ≤ u64Max) :
    Turns x .data (fun g => g = .ofDurable d) (recoverDataFile commits hint)
      (fun _ f => DiskFile f commits c sb slot) (fun f => DiskFile f commits c sb slot) := by
  have hlength := hd.length_recovered h hvalid hhint
  have hmem : ∀ commit ∈ batchesAfter hint commits, commit ∈ commits := fun commit hcommit => (List.mem_filter.mp hcommit).1
  have htarget := (Nat.mul_le_mul_right pageSize (Nat.succ_le_succ (h.highest_le hvalid hint))).trans hmax
  have hfold : commits.filter (fun batch => decide (hint < batch.commitLsn)) = batchesAfter hint commits := rfl
  unfold recoverDataFile
  dsimp only
  rw [hfold]
  refine Turns.ite (fun _ => .pure fun g hg => hg ▸ hd.file) fun hne => ?_
  have hbusy : ¬Idle commits sb := by
    intro hnone
    obtain ⟨commit, rest, hcons⟩ := List.exists_cons_of_ne_nil hne
    have hcommit : commit ∈ batchesAfter hint commits := by
      rw [hcons]
      exact List.mem_cons_self
    have hafter := of_decide_eq_true (List.mem_filter.mp hcommit).2
    rw [hidle hnone] at hafter
    exact absurd (hnone commit (hmem commit hcommit)) (Nat.not_le.mpr hafter)
  unfold recoveredLength at hlength
  rw [if_neg hne] at hlength
  rw [lengthFor_of_le _ _ htarget, Io.ofExcept_ok, pure_bind]
  refine Turns.bind_eq (.fileLength hd.file) ?_
  rw [Io.ite_bind]
  refine Turns.bind (Q := fun _ => Redoing commits c sb slot) ?_ fun _ => ?_
  · refine Turns.ite (fun hlt => ?_) fun hge => ?_
    · have hn : (highestDataPage (batchesAfter hint commits) + 1) * pageSize = (c.highWaterPageId + 1) * pageSize :=
        (max_eq_right (Nat.le_of_lt hlt)).symm.trans hlength
      have hset : (highestDataPage (batchesAfter hint commits) + 1) * pageSize ≤ maxFileLength →
          Redoing commits c sb slot ((File.ofDurable d).setLength
            ((highestDataPage (batchesAfter hint commits) + 1) * pageSize)) := fun hfits =>
        ⟨⟨hd.whole.1, (length_resize _ _).trans_le hfits, hd.file.stable.setLength (Dvd.intro_left _ rfl) (Nat.le_of_lt hlt) hn.le⟩,
          (length_resize _ _).trans hn⟩
      refine (Turns.setLength hd.file fun hfits => (hset hfits).disk).conseq (fun _ h => h) fun _ g hg => ?_
      rw [hg.1]
      exact hset hg.2
    · have haligned : pageSize ∣ (File.ofDurable d).volatile.length := hd.whole.2
      rw [ensure_pos haligned]
      refine Turns.pure fun g hg => ?_
      rw [hg]
      exact ⟨hd.file, (max_eq_left (Nat.not_lt.mp hge)).symm.trans hlength⟩
  · refine Turns.of_file fun g hg => Turns.bind (Turns.fileLength hg.disk) fun readable => Turns.of_file fun g' hg' => ?_
    obtain ⟨rfl, rfl⟩ := hg'
    rw [hg.length]
    refine Turns.bind ((recoverBatches_turns h hbusy hmem hmax _).conseq (fun g'' hg'' => hg'' ▸ hg) fun _ _ h => h)
      fun changed => ?_
    refine Turns.ite (fun _ => ?_) fun _ => .pure fun _ hg'' => hg''.disk
    refine Turns.mapError (.of_file fun g'' hg'' => ?_)
    exact (Turns.syncFile hg''.disk hg''.disk.sync).conseq (fun _ h => h) fun _ _ hsync => hsync ▸ hg''.disk.sync

/-- Redo that succeeds settles the data file. -/
theorem recoverDataFile_settles {d : Bytes} {db : ReferenceDb} (h : History commits c sb slot)
    (hd : Disk d commits c sb slot) (hvalid : c.Valid db) {hint : Lsn} (hhint : hint ≤ sb.checkpointLsn)
    (hidle : Idle commits sb → hint = sb.checkpointLsn) (hmax : (c.highWaterPageId + 1) * pageSize ≤ u64Max)
    {files : FileId → File} {b : Bool} (hfile : files .data = .ofDurable d) :
    Io.Spec (Machine.At files x b) (recoverDataFile commits hint)
      (fun _ m => m.With files x b .data fun f => ∃ settled, f = .ofDurable settled ∧ Settled settled c sb slot)
      (fun _ m => m.With files x true .data fun f => DiskFile f commits c sb slot)
      (fun m => m.With files x b .data fun f => DiskFile f commits c sb slot) := by
  have hbatches : Redoable (batchesAfter hint commits) := h.redoable.of_mem List.filter_sublist
  refine ((recoverDataFile_turns h hd hvalid hhint hidle hmax).spec hfile).and
    (recoverDataFile_spec hbatches hfile hd.whole.2) |>.conseq (fun _ hm => ⟨hm, hm⟩) (fun _ m hm => ?_)
    (fun _ _ hm => hm.1) fun _ hm => hm.1
  obtain ⟨⟨f, hf, hm⟩, -, hrecovered⟩ := hm
  rw [hm.files, Function.update_self] at hrecovered
  have hfits : (c.highWaterPageId + 1) * pageSize ≤ maxFileLength := by
    have hlength := hf.fits
    rw [hrecovered] at hlength
    rw [← hd.length_recovered h hvalid hhint, ← (recovered_spec hbatches d).1]
    exact hlength
  exact ⟨f, ⟨_, hrecovered, hd.settled h hvalid hhint hidle hfits⟩, hm⟩

end Redo

/-! ### Opening -/

section Sealed
variable {commits : List WalCommit} {c : Contents} {db : ReferenceDb} {sb : Superblock} {slot s : SuperblockSlot}
  {b d : Bytes} {identity : WalIdentity}

theorem SlotHolds.seal (h : SlotHolds sb slot s b) : SlotHolds sb.sealed slot s b := by
  cases h with
  | current h hs => exact .current h hs
  | before old h hold => exact .before old h ⟨hold.encodable, hold.identity, hold.generation, hold.checkpointLsn⟩
  | torn hheaded hrefused => exact .torn hheaded hrefused

theorem Settled.seal (h : Settled d c sb slot) : Settled d c sb.sealed slot :=
  ⟨h.length, h.fits, h.page, fun s => (h.slots s).seal, h.current⟩

theorem Superblock.Records.seal (h : sb.Records c) : sb.sealed.Records c :=
  ⟨h.encodable.sealed, h.rootPageId, h.freeListHead, h.highWaterPageId⟩

/-- The checksum of a superblock is nothing to the ledger. -/
theorem Ledger.seal (h : Ledger identity commits c db sb slot) : Ledger identity commits c db sb.sealed slot where
  valid := h.valid
  history :=
    { redoable := h.history.redoable
      nodup := h.history.nodup
      range := h.history.range
      last := h.history.last
      slots := fun commit hcommit page hpage s hs => (h.history.slots commit hcommit page hpage s hs).seal
      records := h.history.records.seal
      newest := h.history.newest }
  identity := h.identity
  top := h.top
  checkpoint := h.checkpoint
  lsn := h.lsn
  generation := h.generation
  renewed := h.renewed
  water := h.water
  room := h.room

end Sealed

/-- What a power loss leaves of a database. -/
structure Left (identity : WalIdentity) (d w : Bytes) (commits : List WalCommit) (c : Contents) (db : ReferenceDb)
    (sb : Superblock) (slot : SuperblockSlot) : Prop where
  ledger : Ledger identity commits c db sb slot
  disk : Disk d commits c sb slot
  log : LogLeft identity sb.checkpointLsn commits w
  length : w.length ≤ maxFileLength

section Open
variable {config : DatabaseConfig} {commits : List WalCommit} {c : Contents} {db : ReferenceDb} {sb : Superblock}
  {slot : SuperblockSlot} {d w : Bytes} {wal : WalLog} {start : Lsn} {items : List WalItem}
variable {files : FileId → File}

theorem validateExisting_turns {identity : WalIdentity} {walLength : Nat} {hint : Option Lsn} (hwhole : wholePages d.length)
    (h : existingHint identity walLength d = .ok hint) :
    Turns x .data (fun g => g = .ofDurable d) (validateExistingIdentityBeforeWal identity walLength)
      (fun found g => g = .ofDurable d ∧ found = hint) (fun g => g = .ofDurable d) := by
  have hpos : ¬d.length = 0 := by
    have hle := hwhole.1
    have : 0 < firstDataPage * pageSize := by decide
    omega
  have hslot : ∀ s : SuperblockSlot, (s.pageId + 1) * pageSize ≤ (File.ofDurable d).volatile.length := fun s =>
    (Nat.mul_le_mul_right pageSize (Nat.succ_le_of_lt s.pageId_lt)).trans hwhole.1
  have hvolatile : (File.ofDurable d).volatile = d := rfl
  unfold existingHint at h
  rw [if_neg hpos, if_neg (not_not.mpr hwhole)] at h
  unfold validateExistingIdentityBeforeWal
  refine Turns.bind_eq (.fileLength rfl) ?_
  rw [hvolatile, if_neg hpos, if_neg (not_not.mpr hwhole)]
  refine Turns.bind_eq (readBlock_turns (R := fun g => g = .ofDurable d) rfl (hslot .A)) ?_
  refine Turns.bind_eq (readBlock_turns (R := fun g => g = .ofDurable d) rfl (hslot .B)) ?_
  unfold selectedIn at h
  rw [hvolatile]
  cases hchoose : chooseSuperblock (block pageSize d 0) (block pageSize d 1) with
  | error e =>
    rw [hchoose] at h
    dsimp only at h ⊢
    by_cases hlog : 0 < walLength
    · rw [if_pos hlog] at h ⊢
      cases h
      exact Turns.pure fun _ hg => ⟨hg, rfl⟩
    · rw [if_neg hlog] at h
      cases h
  | ok selected =>
    rw [hchoose] at h
    dsimp only at h ⊢
    obtain ⟨u, hidentity, hfound⟩ := except_bind_eq_ok.mp h
    cases hfound
    rw [hidentity, Io.ofExcept_ok, pure_bind]
    exact Turns.pure fun _ hg => ⟨hg, rfl⟩

/-- The store on a settled data file. -/
def openedStore (config : DatabaseConfig) (wal : WalLog) (c : Contents) (sb : Superblock) (slot : SuperblockSlot) : Store :=
  {Store.atSuperblock config (some wal) ⟨slot, sb.sealed⟩ (c.rootPageId, c.freeListHead, c.highWaterPageId) 0 with
    nextRevision := c.top + 1
    nextLsn := wal.nextLsn
    nextBatchId := wal.nextBatchId}

/-- The log that is opened goes on after the checkpoint. -/
theorem OpenedLog.resumeAfter (h : OpenedLog config.identity sb.checkpointLsn commits wal start items)
    (hledger : Ledger config.identity commits c db sb slot) :
    ∃ resumed, wal.resumeAfter sb.checkpointLsn = .ok resumed ∧
      OpenedLog config.identity sb.checkpointLsn commits resumed start items ∧ c.top < resumed.nextLsn ∧
      resumed.committed = wal.committed := by
  have hnext : c.top < nextLsnOf items ∨ c.top = sb.checkpointLsn := by
    rw [hledger.top, lastLsn]
    cases hlast : commits.getLast? with
    | none => exact .inr rfl
    | some commit =>
      refine .inl (h.holds.sound.commit_lt_next ?_)
      rw [h.commits]
      exact List.mem_of_getLast? hlast
  unfold WalLog.resumeAfter
  rw [addOr_of_le _ (hledger.checkpoint.trans_lt hledger.lsn), except_ok_bind]
  by_cases hlt : wal.nextLsn < sb.checkpointLsn + 1
  · rw [if_pos hlt]
    refine ⟨_, rfl, ⟨⟨h.holds.identity, h.holds.version, h.holds.history, h.holds.committed, h.holds.nextBatchId,
      h.holds.nextLsn.trans hlt.le, h.holds.sound⟩, h.start_le, h.commits, h.ids, h.length⟩, ?_, rfl⟩
    obtain hnext | hnext := hnext
    · exact hnext.trans_le (h.holds.nextLsn.trans hlt.le)
    · rw [hnext]
      exact Nat.lt_succ_self _
  · rw [if_neg hlt]
    refine ⟨wal, rfl, h, ?_, rfl⟩
    obtain hnext | hnext := hnext
    · exact hnext.trans_le h.holds.nextLsn
    · rw [hnext]
      exact Nat.not_lt.mp hlt

theorem openRecovered_turns (hledger : Ledger config.identity commits c db sb slot) (hsettled : Settled d c sb slot)
    (hwal : OpenedLog config.identity sb.checkpointLsn commits wal start items) :
    Turns x .data (fun g => g = .ofDurable d) (openRecovered config wal)
      (fun s g => g = .ofDurable d ∧ ∃ resumed, OpenedLog config.identity sb.checkpointLsn commits resumed start items ∧
        c.top < resumed.nextLsn ∧ s = openedStore config resumed c sb slot)
      (fun g => g = .ofDurable d) := by
  have hvalid := hledger.valid
  have hrecords := hledger.history.records
  have hvolatile : (File.ofDurable d).volatile = d := rfl
  have hslot : ∀ s : SuperblockSlot, (s.pageId + 1) * pageSize ≤ (File.ofDurable d).volatile.length := fun s =>
    (Nat.mul_le_mul_right pageSize (Nat.succ_le_of_lt s.pageId_lt)).trans (hsettled.whole hvalid).1
  obtain ⟨resumed, hresume, hopened, hnext, hcommitted⟩ := hwal.resumeAfter hledger
  unfold openRecovered
  refine Turns.bind_eq (.fileLength rfl) ?_
  rw [hvolatile, ensure_pos (hsettled.whole hvalid), Io.ofExcept_ok, pure_bind]
  refine Turns.bind_eq (readSuperblock_turns hsettled hvalid hrecords) ?_
  have hcheckpoint : sb.sealed.checkpointLsn = sb.checkpointLsn := rfl
  have hidentity : sb.sealed.identity = config.identity := hledger.identity
  rw [validateSuperblockIdentity_eq_ok.mpr hidentity, Io.ofExcept_ok, pure_bind, hsettled.metadata hvalid hrecords,
    Io.ofExcept_ok, pure_bind, hcheckpoint, hresume, Io.ofExcept_ok, pure_bind]
  have hknown : ∀ s : Store, s.currentSuperblock = sb.sealed → s.currentSuperblock.checkpointLsn ≤ s.latestKnownLsn resumed := by
    intro s hs
    have hcommits : resumed.committed = commits := hopened.holds.committed.trans hopened.commits
    unfold Store.latestKnownLsn
    rw [hs, hcommits]
    exact hledger.checkpoint.trans hledger.top.le
  have hclean : (Store.atSuperblock config (some resumed) ⟨slot, sb.sealed⟩
      (c.rootPageId, c.freeListHead, c.highWaterPageId) 0).Clean c slot := ⟨rfl, rfl, rfl, rfl, rfl, rfl⟩
  have hcheck := Store.checkInvariants_turns hclean rfl rfl hsettled hvalid hrecords (hknown _ rfl)
  refine Turns.bind (.runOn hcheck) fun answer => .of_file fun g hg => ?_
  obtain ⟨report, store⟩ := answer
  obtain ⟨hstore, rfl, -, hmax⟩ := hg
  dsimp only at hstore hmax ⊢
  have hrevision : max report.maxRevision ((resumed.committed.getLast?.map WalCommit.commitLsn).getD 0) = c.top := by
    rw [hmax, hopened.holds.committed, hopened.commits]
    refine max_eq_left ?_
    rw [hledger.top, lastLsn]
    cases commits.getLast? with
    | none => exact Nat.zero_le _
    | some commit => exact le_rfl
  rw [hrevision, addOr_of_le _ hledger.lsn, Io.ofExcept_ok, pure_bind, hstore]
  exact Turns.pure fun g hg => ⟨hg, resumed, hopened, hnext, rfl⟩

/-- A store with nothing left to write, on a settled data file. -/
theorem Settled.steady {s : Store} (hsettled : Settled d c s.currentSuperblock s.activeSlot)
    (hledger : Ledger config.identity commits c db s.currentSuperblock s.activeSlot) (hremembers : s.Remembers c)
    (hpages : s.dirtyPages = .empty) (hsuperblock : s.dirtySuperblock = none) (hwal : s.wal = some wal)
    (hopened : OpenedLog config.identity s.currentSuperblock.checkpointLsn commits wal start items)
    (hnext : s.nextLsn = wal.nextLsn ∧ s.nextBatchId = wal.nextBatchId) (hlsn : c.top < wal.nextLsn)
    (hconfig : s.config = config) (hserving : s.broken = none)
    (hdata : files .data = .ofDurable d) (hlog : files .wal = .ofDurable (logBytes config.identity start items)) :
    s.Steady config files commits c db where
  ledger := hledger
  serves :=
    { valid := hledger.valid
      remembers := hremembers
      kept :=
        { dirty := fun p bytes hp => by
            rw [hpages] at hp
            cases hp
          clean := fun p hp hle _ => by
            rw [hdata]
            exact hsettled.page p hp hle
          length := by
            rw [hdata]
            exact hsettled.length.le }
      lsn := fun _ => hnext.1 ▸ hlsn }
  configured := hconfig
  serving := hserving
  log := ⟨wal, start, items, hwal, hopened, hlog, hnext⟩
  data := ⟨d, hdata, hsettled.disk hledger.valid commits⟩
  slot := by
    refine .inr ⟨hsuperblock, ?_⟩
    rw [hdata]
    exact hsettled.current

theorem openedStore_steady (hledger : Ledger config.identity commits c db sb slot) (hsettled : Settled d c sb slot)
    (hwal : OpenedLog config.identity sb.checkpointLsn commits wal start items) (hnext : c.top < wal.nextLsn)
    (hdata : files .data = .ofDurable d)
    (hlog : files .wal = .ofDurable (logBytes config.identity start items)) :
    (openedStore config wal c sb slot).Steady config files commits c db :=
  hsettled.seal.steady (s := openedStore config wal c sb slot) hledger.seal
    ⟨PageCache.coherent_new .., rfl, rfl, rfl, rfl, hledger.history.records.seal⟩ rfl rfl rfl hwal ⟨rfl, rfl⟩ hnext rfl rfl
    hdata hlog

/-- Whatever is yet to reach the medium, a power loss leaves the database. -/
structure Rests (identity : WalIdentity) (files : FileId → File) (commits : List WalCommit) (c : Contents)
    (sb : Superblock) (slot : SuperblockSlot) : Prop where
  data : DiskFile (files .data) commits c sb slot
  log : LogFile identity sb.checkpointLsn commits (files .wal)

theorem Rests.loss {identity : WalIdentity} (h : Rests identity files commits c sb slot)
    (hledger : Ledger identity commits c db sb slot)
    (hd : (files .data).BlockLoss pageSize (fun i b => refusedBlock i b = true) d) (hw : (files .wal).TailLoss w) :
    Left identity d w commits c db sb slot :=
  ⟨hledger, h.data.loss hledger.history.records.encodable hd, h.log.left w hw, h.log.length_left hw⟩

section Stages
variable {identity : WalIdentity} {α β : Type} {k : FileId} {p : Data μ α} {g : α → Data μ β} {Q : α → File → Prop}
  {P R : File → Prop} {S : β → Machine FileId μ → Prop} {b : Bool}

theorem Rests.at {m : Machine FileId μ} (h : Rests identity files commits c sb slot) (hm : m.At files x b) :
    m.faulted = b ∧ m.memory = x ∧ Rests identity m.files commits c sb slot := by
  rw [← hm.files] at h
  exact ⟨hm.faulted, hm.memory, h⟩

/-- A stage that leaves the database in the files when it does not end well. -/
theorem Rests.bind (h : Turns x k P p Q R) (hP : P (files k))
    (hR : ∀ f, R f → Rests identity (Function.update files k f) commits c sb slot)
    (hg : ∀ a f, Q a f → Io.Spec (Machine.At (Function.update files k f) x b) (g a) S
      (fun _ m => m.faulted = true ∧ m.memory = x ∧ Rests identity m.files commits c sb slot)
      (fun m => Rests identity m.files commits c sb slot)) :
    Io.Spec (Machine.At files x b) (p >>= g) S
      (fun _ m => m.faulted = true ∧ m.memory = x ∧ Rests identity m.files commits c sb slot)
      (fun m => Rests identity m.files commits c sb slot) :=
  h.bind_spec hP hg (fun _ f _ hf hm => (hR f hf).at hm) fun f _ hf hm => ((hR f hf).at hm).2.2

/-- A stage that changes nothing. -/
theorem Rests.bind_same (hrests : Rests identity files commits c sb slot) {v : α} {f : File}
    (h : Turns x k (fun g => g = f) p (fun a g => g = f ∧ a = v) fun g => g = f) (hf : files k = f)
    (hg : Io.Spec (Machine.At files x b) (g v) S
      (fun _ m => m.faulted = true ∧ m.memory = x ∧ Rests identity m.files commits c sb slot)
      (fun m => Rests identity m.files commits c sb slot)) :
    Io.Spec (Machine.At files x b) (p >>= g) S
      (fun _ m => m.faulted = true ∧ m.memory = x ∧ Rests identity m.files commits c sb slot)
      (fun m => Rests identity m.files commits c sb slot) := by
  subst hf
  refine Rests.bind h rfl (fun f hf => ?_) fun a f hf => ?_
  · rw [hf, Function.update_eq_self]
    exact hrests
  · rw [hf.1, hf.2, Function.update_eq_self]
    exact hg

end Stages

theorem LogLeft.length_pos {identity : WalIdentity} {checkpointLsn : Lsn}
    (h : LogLeft identity checkpointLsn commits w) (hne : commits ≠ []) : 0 < w.length := by
  cases h with
  | torn t ht hw hcommits => exact absurd hcommits hne
  | log start items t hstart ht hitems hids hw hcommits =>
    have hpos : 0 < initFrameSize := by decide
    rw [hw, List.length_take, length_logBytes]
    omega

/-- Redo and the check, once the log is open. -/
theorem recoverOpened_spec (hledger : Ledger config.identity commits c db sb slot) (hdisk : Disk d commits c sb slot)
    (hopened : OpenedLog config.identity sb.checkpointLsn commits wal start items) {hint : Lsn}
    (hle : hint ≤ sb.checkpointLsn) (hidle : Idle commits sb → hint = sb.checkpointLsn) {b : Bool}
    (hdata : files .data = .ofDurable d)
    (hlog : files .wal = .ofDurable (logBytes config.identity start items))
    (hlogged : LogFile config.identity sb.checkpointLsn commits (files .wal)) :
    Io.Spec (Machine.At files x b) (recoverDataFile commits hint >>= fun _ => openRecovered config wal)
      (fun s m => s.Steady config m.files commits c db ∧ s.currentSuperblock = sb.sealed ∧ s.Clean c slot ∧
        m.memory = x ∧ m.faulted = b)
      (fun _ m => m.faulted = true ∧ m.memory = x ∧ Rests config.identity m.files commits c sb slot)
      (fun m => Rests config.identity m.files commits c sb slot) := by
  have hrests : ∀ {f : File}, DiskFile f commits c sb slot →
      Rests config.identity (Function.update files .data f) commits c sb slot := by
    intro f hf
    refine ⟨by rwa [Function.update_self], ?_⟩
    rwa [Function.update_of_ne (by decide)]
  have hsettles := recoverDataFile_settles (x := x) (b := b) hledger.history hdisk hledger.valid hle hidle
    (hledger.length_le hopened.imageBytes_le) hdata
  refine Io.Spec.bind (hsettles.conseq (fun _ hm => hm) (fun _ _ hm => hm) (fun e m hm => ?_) fun m hm => ?_) fun _ => ?_
  · obtain ⟨f, hf, hm⟩ := hm
    exact (hrests hf).at hm
  · obtain ⟨f, hf, hm⟩ := hm
    exact ((hrests hf).at hm).2.2
  refine Io.Spec.of_start fun m₀ hm₀ => ?_
  obtain ⟨f, ⟨settled, rfl, hsettled⟩, hm₀⟩ := hm₀
  refine Io.Spec.pre ?_ fun m hm => hm ▸ hm₀
  have hfile := (hsettled.disk hledger.valid commits).file
  refine ((openRecovered_turns hledger hsettled hopened).spec (Function.update_self ..)).conseq (fun _ hm => hm)
    (fun s m hm => ?_) (fun e m hm => ?_) fun m hm => ?_
  · obtain ⟨f, ⟨rfl, resumed, hresumed, hnext, rfl⟩, hm⟩ := hm
    rw [Function.update_idem] at hm
    refine ⟨openedStore_steady hledger hsettled hresumed hnext ?_ ?_, rfl, ⟨rfl, rfl, rfl, rfl, rfl, rfl⟩, hm.memory,
      hm.faulted⟩
    · rw [hm.files, Function.update_self]
    · rw [hm.files, Function.update_of_ne (by decide), hlog]
  · obtain ⟨f, rfl, hm⟩ := hm
    rw [Function.update_idem] at hm
    exact (hrests hfile).at hm
  · obtain ⟨f, rfl, hm⟩ := hm
    rw [Function.update_idem] at hm
    exact ((hrests hfile).at hm).2.2

/-- Opening what is left of a database gives a steady store with its documents, and it fails only where the medium
does. -/
theorem openWithWal_spec (h : Left config.identity d w commits c db sb slot) {b : Bool}
    (hdata : files .data = .ofDurable d) (hlog : files .wal = .ofDurable w) :
    Io.Spec (Machine.At files x b) (openWithWal config)
      (fun s m => s.Steady config m.files commits c db ∧ s.currentSuperblock = sb.sealed ∧ s.Clean c slot ∧
        m.memory = x ∧ m.faulted = b)
      (fun _ m => m.faulted = true ∧ m.memory = x ∧ Rests config.identity m.files commits c sb slot)
      (fun m => Rests config.identity m.files commits c sb slot) := by
  have hledger := h.ledger
  obtain ⟨hint, hexisting, hle, hidle⟩ := h.disk.existingHint hledger.history h.log.length_pos
  rw [hledger.identity] at hexisting
  have hhint : commits = [] → hint.getD 0 = sb.checkpointLsn := by
    intro hnone
    refine hidle fun commit hcommit => ?_
    rw [hnone] at hcommit
    exact absurd hcommit List.not_mem_nil
  have hrests : ∀ {f : File}, LogFile config.identity sb.checkpointLsn commits f →
      Rests config.identity (Function.update files .wal f) commits c sb slot := by
    intro f hf
    refine ⟨?_, by rwa [Function.update_self]⟩
    rw [Function.update_of_ne (by decide), hdata]
    exact h.disk.file
  have hstart : Rests config.identity files commits c sb slot := by
    rw [← Function.update_eq_self .wal files, hlog]
    exact hrests (h.log.file h.length)
  unfold openWithWal
  refine hstart.bind_same (.fileLength rfl) hlog ?_
  refine hstart.bind_same (validateExisting_turns h.disk.whole hexisting) hdata ?_
  refine Rests.bind (openWal_turns h.log h.length (hledger.checkpoint.trans_lt hledger.lsn) hhint) hlog
    (fun f hf => hrests hf) fun wal f hf => ?_
  obtain ⟨start, items, hopened, rfl⟩ := hf
  have hlogged : LogFile config.identity sb.checkpointLsn commits
      (.ofDurable (logBytes config.identity start items)) := by
    rw [← hopened.commits]
    exact (LogLeft.whole hopened.start_le hopened.holds.sound hopened.ids).file hopened.length
  rw [hopened.holds.committed.trans hopened.commits]
  have hdata' : Function.update files .wal (.ofDurable (logBytes config.identity start items)) .data = .ofDurable d := by
    rw [Function.update_of_ne (by decide), hdata]
  refine (hrests hlogged).bind_same (.fileLength rfl) hdata' ?_
  have hpos : ¬((File.ofDurable d).volatile.length = 0 ∧ commits = []) := by
    intro hempty
    have hzero : d.length = 0 := hempty.1
    have hle : firstDataPage * pageSize ≤ d.length := h.disk.whole.1
    have : 0 < firstDataPage * pageSize := by decide
    omega
  rw [if_neg hpos]
  exact recoverOpened_spec hledger h.disk hopened hle hidle hdata' (Function.update_self ..)
    (by rwa [Function.update_self])

end Open

end Dodb
