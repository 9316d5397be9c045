import Dodb.Btree.Recovery

/-! What opening a database looks at before it changes anything.

The data file is asked for its identity and its checkpoint first, and the log is opened after that. Both are read as
they are; the log is only initialised, cut or redone once the two have passed. -/
namespace Dodb
open Lib File

variable [Crc32c] {μ : Type} {files : FileId → File} {m : Machine FileId μ}

/-! ### The data file -/

def Superblock.identity (sb : Superblock) : WalIdentity := ⟨sb.databaseUuid, sb.tenantId, sb.shardId, sb.shardEpoch⟩

/-- The superblock an existing data file is opened with. -/
def selectedIn (data : Bytes) : Result SelectedSuperblock :=
  chooseSuperblock (block pageSize data 0) (block pageSize data 1)

/-- What the data file `data` says of its checkpoint, as `validateExistingIdentityBeforeWal` finds it. -/
def existingHint (identity : WalIdentity) (walLength : Nat) (data : Bytes) : Result (Option Lsn) :=
  if data.length = 0 then .ok none
  else if ¬wholePages data.length then
    if walLength = 0 then .error (.corruption "database file is not a complete existing database") else .ok none
  else match selectedIn data with
    | .error error => if 0 < walLength then .ok none else .error error
    | .ok selected => do
      validateSuperblockIdentity selected.superblock identity
      pure (some selected.superblock.checkpointLsn)

omit [Crc32c] in
theorem validateSuperblockIdentity_eq_ok {sb : Superblock} {identity : WalIdentity} :
    validateSuperblockIdentity sb identity = .ok () ↔ sb.identity = identity := by
  obtain ⟨uuid, tenant, shard, epoch⟩ := identity
  simp [validateSuperblockIdentity, Superblock.identity]

omit [Crc32c] in
theorem readBlock_reads (pageId : PageId) :
    Io.Spec (fun m : Machine FileId μ => m.files = files) (readBlock pageId)
      (fun bs m => bs = block pageSize (files .data).volatile pageId ∧ m.files = files) (fun _ m => m.files = files)
      fun m => m.files = files :=
  readAt_reads

omit [Crc32c] in
theorem readBlock_within (h : m.schedule = []) {pageId : PageId}
    (hpage : (pageId + 1) * pageSize ≤ (m.files .data).volatile.length) :
    readBlock pageId m = .ok (block pageSize (m.files .data).volatile pageId) m := by
  rw [Nat.add_mul, Nat.one_mul] at hpage
  exact readAt_quiet h hpage

theorem validateExisting_reads (identity : WalIdentity) (walLength : Nat) :
    Io.Spec (fun m : Machine FileId μ => m.files = files) (validateExistingIdentityBeforeWal identity walLength)
      (fun hint m => existingHint identity walLength (files .data).volatile = .ok hint ∧ m.files = files)
      (fun _ m => m.files = files) fun m => m.files = files := by
  unfold validateExistingIdentityBeforeWal existingHint
  refine Io.Spec.bind fileLength_reads fun length => .assume fun hlength => ?_
  subst hlength
  by_cases hempty : (files .data).volatile.length = 0
  · rw [if_pos hempty, if_pos hempty]
    exact .pure fun m hm => ⟨rfl, hm⟩
  · rw [if_neg hempty, if_neg hempty]
    by_cases hwhole : wholePages (files .data).volatile.length
    · rw [if_neg (not_not.mpr hwhole), if_neg (not_not.mpr hwhole)]
      refine Io.Spec.bind (readBlock_reads 0) fun slotA => .assume fun hA => ?_
      refine Io.Spec.bind (readBlock_reads 1) fun slotB => .assume fun hB => ?_
      subst hA hB
      unfold selectedIn
      cases chooseSuperblock (block pageSize (files .data).volatile 0) (block pageSize (files .data).volatile 1) with
      | error e => exact .ite (fun hlog => .pure fun m hm => ⟨if_pos hlog, hm⟩) fun _ => .raise fun m hm => hm
      | ok selected =>
        dsimp only
        refine Io.Spec.bind (Q := fun _ m => validateSuperblockIdentity selected.superblock identity = .ok () ∧
          m.files = files) (.ofExcept (fun _ m hok hm => ⟨hok, hm⟩) fun _ m _ hm => hm) fun _ => ?_
        refine Io.Spec.assume fun hok => .pure fun m hm => ⟨?_, hm⟩
        rw [hok]
        rfl
    · rw [if_pos hwhole, if_pos hwhole]
      exact .ite (fun _ => .raise fun m hm => hm) fun hlog => .pure fun m hm => ⟨if_neg hlog, hm⟩

theorem validateExisting_quiet (h : m.schedule = []) (identity : WalIdentity) (walLength : Nat) :
    validateExistingIdentityBeforeWal identity walLength m =
      Io.ofExcept (existingHint identity walLength (m.files .data).volatile) m := by
  unfold validateExistingIdentityBeforeWal existingHint
  rw [Io.bind_apply, dataLength, fileLength_quiet h]
  dsimp only
  by_cases hempty : (m.files .data).volatile.length = 0
  · rw [if_pos hempty, if_pos hempty]
    rfl
  · rw [if_neg hempty, if_neg hempty]
    by_cases hwhole : wholePages (m.files .data).volatile.length
    · have hlength := hwhole.1
      unfold firstDataPage at hlength
      rw [if_neg (not_not.mpr hwhole), if_neg (not_not.mpr hwhole), Io.bind_apply, readBlock_within h (by lia)]
      dsimp only
      rw [Io.bind_apply, readBlock_within h hlength]
      dsimp only
      unfold selectedIn
      cases chooseSuperblock (block pageSize (m.files .data).volatile 0) (block pageSize (m.files .data).volatile 1) with
      | error e =>
        by_cases hlog : 0 < walLength
        · simp only [if_pos hlog]
          rfl
        · simp only [if_neg hlog]
          rfl
      | ok selected =>
        dsimp only
        cases validateSuperblockIdentity selected.superblock identity <;> rfl
    · rw [if_pos hwhole, if_pos hwhole]
      by_cases hlog : walLength = 0
      · rw [if_pos hlog, if_pos hlog]
        rfl
      · rw [if_neg hlog, if_neg hlog]
        rfl

/-! ### Foreign files -/

/-- A data file of another database. -/
structure ForeignData (identity : WalIdentity) (data : Bytes) : Prop where
  whole : wholePages data.length
  selected : ∃ selected, selectedIn data = .ok selected ∧ selected.superblock.identity ≠ identity

/-- A log that begins with a complete INIT frame of `owner`, in either version of the format. -/
def InitOf (owner : WalIdentity) (log : Bytes) : Prop :=
  ∃ frame length startAfterLsn, nextFrame log 0 none none = .ok (some (frame, length)) ∧
    (frame.recordType = .init ∧ frame.recordLsn = 0 ∧ frame.batchId = 0 ∧ frame.recordIndex = 0) ∧
    verifyIdentity frame.formatVersion frame.payload owner = .ok startAfterLsn

/-- A log whose first frame names another database. -/
def ForeignLog (identity : WalIdentity) (log : Bytes) : Prop := ∃ owner, owner ≠ identity ∧ InitOf owner log

theorem existingHint_foreign {identity : WalIdentity} {data : Bytes} (h : ForeignData identity data)
    (walLength : Nat) : ∃ e, existingHint identity walLength data = .error e := by
  obtain ⟨selected, hselected, hforeign⟩ := h.selected
  have hlength := h.whole.1
  unfold existingHint
  rw [if_neg (by unfold firstDataPage pageSize at hlength; omega), if_neg (not_not.mpr h.whole), hselected]
  dsimp only
  cases hvalid : validateSuperblockIdentity selected.superblock identity with
  | ok u => exact (hforeign (validateSuperblockIdentity_eq_ok.mp hvalid)).elim
  | error e => exact ⟨e, rfl⟩

omit [Crc32c] in
/-- The payload of an INIT frame is of one database only. -/
theorem verifyIdentity_unique {version : Nat} {payload : Bytes} {a b : WalIdentity} {x y : Lsn}
    (ha : verifyIdentity version payload a = .ok x) (hb : verifyIdentity version payload b = .ok y) : a = b := by
  simp only [verifyIdentity, except_bind_eq_ok, ensure_eq_ok] at ha hb
  obtain ⟨_, -, _, -, _, ha, -⟩ := ha
  obtain ⟨_, -, _, -, _, hb, -⟩ := hb
  exact ha.symm.trans hb

theorem ForeignLog.scan {identity : WalIdentity} {log : Bytes} (h : ForeignLog identity log) :
    ∃ e, scanWal identity log = .error e := by
  obtain ⟨owner, howner, frame, length, start, hnext, -, hverify⟩ := h
  cases hscan : scanWal identity log with
  | error e => exact ⟨e, rfl⟩
  | ok scanned =>
    exfalso
    simp only [scanWal, scanFrames, hnext, except_bind_eq_ok, except_ok_bind, except_pure_eq_ok] at hscan
    obtain ⟨frames, ⟨rest, -, hframes⟩, hscan⟩ := hscan
    subst hframes
    simp only [except_bind_eq_ok] at hscan
    obtain ⟨_, -, historyStartLsn, hmine, -⟩ := hscan
    exact howner (verifyIdentity_unique hverify hmine)

theorem InitOf.not_torn {owner : WalIdentity} {log : Bytes} (h : InitOf owner log) (identity : WalIdentity)
    (startAfterLsn : Lsn) : ¬TornInit identity startAfterLsn log := by
  intro htorn
  obtain ⟨t, ht, rfl⟩ := htorn
  obtain ⟨frame, length, _, hnext, -⟩ := h
  have hnone : nextFrame ((frameBytes (initFrame walFormatVersion identity startAfterLsn)).take t) 0 none none =
      .ok none :=
    nextFrame_torn (initFrame_encodable identity startAfterLsn) (by rwa [length_initFrame]) 0 (by simp) none
  rw [hnone] at hnext
  cases hnext

theorem initOf_initFrame {owner : WalIdentity} {startAfterLsn : Lsn} (h : startAfterLsn ≤ u64Max) (rest : Bytes) :
    InitOf owner (frameBytes (initFrame walFormatVersion owner startAfterLsn) ++ rest) := by
  have hnext : nextFrame (frameBytes (initFrame walFormatVersion owner startAfterLsn) ++ rest) 0 none none =
      .ok (some (initFrame walFormatVersion owner startAfterLsn, _)) :=
    nextFrame_frameBytes (initFrame_encodable owner startAfterLsn) rest 0 (by simp) (by simp)
  exact ⟨_, _, _, hnext, ⟨rfl, rfl, rfl, rfl⟩, verifyIdentity_identityPayload owner h⟩

/-- A program that never succeeds on these files, and leaves them as they are however it ends. -/
def Refuses {α : Type} (files : FileId → File) (p : Data μ α) : Prop :=
  Io.Spec (fun m => m.files = files) p (fun _ _ => False) (fun _ m => m.files = files) fun m => m.files = files

theorem openWal_foreign {identity : WalIdentity} (h : ForeignLog identity (files .wal).volatile)
    (startAfterLsn : Lsn) : Refuses files (openWal identity startAfterLsn : Data μ WalLog) := by
  obtain ⟨e, hscan⟩ := h.scan
  obtain ⟨owner, howner, hinit⟩ := h
  have hnot := hinit.not_torn identity startAfterLsn
  unfold Refuses openWal
  refine Io.Spec.bind fileLength_reads fun length => .assume fun hlength => ?_
  subst hlength
  have hempty : (files .wal).volatile.length ≠ 0 := fun hzero => hnot ⟨0, by decide, List.length_eq_zero_iff.mp hzero⟩
  rw [if_neg hempty]
  dsimp only
  rw [Io.ite_bind]
  have htorn : Io.Spec (fun m : Machine FileId μ => m.files = files)
      (if (files .wal).volatile.length < initFrameSize then
        isTornInitializationPrefix identity startAfterLsn (files .wal).volatile.length else pure false)
      (fun torn m => torn = false ∧ m.files = files) (fun _ m => m.files = files) fun m => m.files = files := by
    refine .ite (fun hshort => ?_) fun _ => .pure fun m hm => ⟨rfl, hm⟩
    unfold isTornInitializationPrefix
    rw [encodeFrame_eq (initFrame_encodable identity startAfterLsn).payload, Io.ofExcept_ok, pure_bind]
    refine .ite (fun _ => .pure fun m hm => ⟨rfl, hm⟩) fun _ => ?_
    refine Io.Spec.bind readAt_reads fun bytes => .assume fun hbytes => .pure fun m hm => ⟨?_, hm⟩
    rw [slice_self _ _ rfl] at hbytes
    exact decide_eq_false fun heq => hnot ⟨_, hshort, hbytes ▸ heq⟩
  refine Io.Spec.bind htorn fun torn => .assume fun hfalse => ?_
  subst hfalse
  rw [if_neg Bool.false_ne_true]
  refine Io.Spec.bind fileLength_reads fun length => .assume fun hlength => ?_
  refine Io.Spec.bind readAt_reads fun bytes => .assume fun hbytes => ?_
  rw [hlength, slice_self _ _ rfl] at hbytes
  rw [hbytes, hscan]
  exact Io.Spec.bind (Q := fun _ _ => False) (.raise fun m hm => hm) fun _ m hm => hm.elim

theorem openWithWal_refuses {config : DatabaseConfig}
    (h : ForeignData config.identity (files .data).volatile ∨ ForeignLog config.identity (files .wal).volatile) :
    Refuses files (openWithWal config : Data μ Store) := by
  unfold Refuses openWithWal
  refine Io.Spec.bind fileLength_reads fun length => .assume fun hlength => ?_
  refine Io.Spec.bind (validateExisting_reads config.identity length) fun hint => .assume fun hhint => ?_
  cases h with
  | inl hdata =>
    obtain ⟨e, herror⟩ := existingHint_foreign hdata length
    rw [herror] at hhint
    cases hhint
  | inr hlog => exact Io.Spec.bind (openWal_foreign hlog _) fun wal m hm => hm.elim

/-- A foreign database or log is refused untouched: whatever happens to its reads, opening does not succeed and
leaves both files as they are, and without an I/O error it returns an error. -/
theorem openWithWal_foreign {config : DatabaseConfig} {m : Machine FileId μ}
    (h : ForeignData config.identity (m.files .data).volatile ∨ ForeignLog config.identity (m.files .wal).volatile) :
    (∀ store m', openWithWal config m ≠ .ok store m') ∧ (openWithWal config m).state.files = m.files ∧
      (m.schedule = [] → ∃ e, openWithWal config m = .err e m) := by
  have hspec := openWithWal_refuses h m rfl
  refine ⟨fun store m' hok => ?_, ?_, fun hquiet => ?_⟩
  · rw [hok] at hspec
    exact hspec
  · cases hrun : openWithWal config m with
    | ok store m' =>
      rw [hrun] at hspec
      exact hspec.elim
    | err | halt =>
      rw [hrun] at hspec
      exact hspec
  · unfold openWithWal
    rw [Io.bind_apply, walLength, fileLength_quiet hquiet]
    dsimp only
    rw [Io.bind_apply, validateExisting_quiet hquiet]
    cases hhint : existingHint config.identity (m.files .wal).volatile.length (m.files .data).volatile with
    | error e => exact ⟨e, rfl⟩
    | ok hint =>
      cases h with
      | inl hdata =>
        obtain ⟨e, herror⟩ := existingHint_foreign hdata (m.files .wal).volatile.length
        rw [herror] at hhint
        cases hhint
      | inr hlog =>
        obtain ⟨e, hscan⟩ := hlog.scan
        obtain ⟨owner, -, hinit⟩ := hlog
        refine ⟨e, ?_⟩
        dsimp only [Io.ofExcept_ok, Io.pure_apply]
        rw [Io.bind_apply, openWal_eq_scan hquiet (hinit.not_torn _ _), hscan]
        rfl

theorem foreignData_superblocks {sb : Superblock} (hsb : sb.Encodable) {identity : WalIdentity}
    (hne : sb.identity ≠ identity) : ForeignData identity [superblockPage sb, superblockPage sb].flatten := by
  have hlength : ∀ b ∈ [superblockPage sb, superblockPage sb], b.length = pageSize := by simp
  refine ⟨?_, ⟨.A, {sb with checksum := superblockChecksum (superblockLayout sb 0)}⟩, ?_, hne⟩
  · rw [List.flatten_cons, List.length_append, length_superblockPage, List.flatten_singleton, length_superblockPage]
    decide
  · rw [selectedIn, block_flatten hlength rfl, block_flatten hlength rfl, chooseSuperblock,
      decodeSuperblock_superblockPage hsb]
    exact if_pos le_rfl

/-- Files that are as the medium has them. -/
def filesOf (data log : Bytes) : Machine FileId Unit where
  files
    | .data => .ofDurable data
    | .wal => .ofDurable log
  memory := ()
  schedule := []

omit [Crc32c] in
/-- The log of tenant 1 beside an empty data file, and its data file beside an empty log, opened for tenant 2. -/
theorem openWithWal_foreign_files : ∃ data log : Bytes,
    (@ForeignLog castagnoli ⟨.zero, 2, 1, 1⟩ log ∧ ∃ e,
      @openWithWal castagnoli Unit ⟨.zero, 2, 1, 1, 128, {}⟩ (filesOf [] log) = .err e (filesOf [] log)) ∧
    @ForeignData castagnoli ⟨.zero, 2, 1, 1⟩ data ∧ ∃ e,
      @openWithWal castagnoli Unit ⟨.zero, 2, 1, 1, 128, {}⟩ (filesOf data []) = .err e (filesOf data []) := by
  have hlog : @ForeignLog castagnoli ⟨.zero, 2, 1, 1⟩
      (@frameBytes castagnoli (initFrame walFormatVersion sampleIdentity 0) ++ []) :=
    ⟨sampleIdentity, by decide, @initOf_initFrame castagnoli sampleIdentity 0 (by decide) []⟩
  have hdata := @foreignData_superblocks castagnoli (Superblock.new 1 .zero 1 1 1) (.new (by decide) ..)
    ⟨.zero, 2, 1, 1⟩ (by decide)
  exact ⟨_, _, ⟨hlog, (@openWithWal_foreign castagnoli Unit ⟨.zero, 2, 1, 1, 128, {}⟩ (filesOf [] _) (.inr hlog)).2.2 rfl⟩,
    hdata, (@openWithWal_foreign castagnoli Unit ⟨.zero, 2, 1, 1, 128, {}⟩ (filesOf _ []) (.inl hdata)).2.2 rfl⟩

/-! ### Unsupported formats -/

/-- A superblock slot of a format that is not supported: of another version, or whole and of another page size. -/
def UnsupportedSlot (slot : Bytes) : Prop :=
  slice slot 0 4 = superblockMagic ∧ (ofLe (slice slot 4 2) ≠ superblockFormatVersion ∨
    ofLe (slice slot superblockChecksumOffset 4) = superblockChecksum slot ∧ ofLe (slice slot 54 4) ≠ pageSize)

/-- A data file with a superblock slot of a format that is not supported. -/
structure UnsupportedData (data : Bytes) : Prop where
  whole : wholePages data.length
  slot : UnsupportedSlot (block pageSize data 0) ∨ UnsupportedSlot (block pageSize data 1)

theorem decodeSuperblock_unsupported {slot : Bytes} (hlength : slot.length = pageSize) (h : UnsupportedSlot slot) :
    ∃ text, decodeSuperblock slot = .error (.unsupportedFormat text) := by
  obtain ⟨hmagic, hformat⟩ := h
  unfold decodeSuperblock
  rw [ensure_pos hlength, except_ok_bind, ensure_pos hmagic, except_ok_bind]
  dsimp only
  by_cases hversion : ofLe (slice slot 4 2) = superblockFormatVersion
  · obtain ⟨hsum, hsize⟩ := hformat.resolve_left (not_not.mpr hversion)
    rw [ensure_pos hversion, except_ok_bind, ensure_pos hsum, except_ok_bind, ensure_neg hsize]
    exact ⟨_, rfl⟩
  · rw [ensure_neg hversion]
    exact ⟨_, rfl⟩

omit [Crc32c] in
theorem wholePages.length_block {data : Bytes} (h : wholePages data.length) {i : Nat} (hi : i < 2) :
    (block pageSize data i).length = pageSize := by
  apply File.length_block
  calc (i + 1) * pageSize ≤ firstDataPage * pageSize := Nat.mul_le_mul_right _ hi
    _ ≤ data.length := h.1

theorem UnsupportedData.selected {data : Bytes} (h : UnsupportedData data) :
    ∃ text, selectedIn data = .error (.unsupportedFormat text) := by
  unfold selectedIn chooseSuperblock
  cases h.slot with
  | inl hA =>
    obtain ⟨text, hdecode⟩ := decodeSuperblock_unsupported (h.whole.length_block (by decide)) hA
    rw [hdecode]
    exact ⟨text, rfl⟩
  | inr hB =>
    obtain ⟨text, hdecode⟩ := decodeSuperblock_unsupported (h.whole.length_block (by decide)) hB
    rw [hdecode]
    cases decodeSuperblock (block pageSize data 0) with
    | ok a => exact ⟨text, rfl⟩
    | error e => cases e <;> exact ⟨_, rfl⟩

theorem scanWal_torn {identity : WalIdentity} {startAfterLsn : Lsn} {log : Bytes}
    (h : TornInit identity startAfterLsn log) (wanted : WalIdentity) : ∃ e, scanWal wanted log = .error e := by
  obtain ⟨t, ht, rfl⟩ := h
  have hnone : nextFrame ((frameBytes (initFrame walFormatVersion identity startAfterLsn)).take t) 0 none none =
      .ok none :=
    nextFrame_torn (initFrame_encodable identity startAfterLsn) (by rwa [length_initFrame]) 0 (by simp) none
  unfold scanWal scanFrames
  rw [hnone]
  exact ⟨_, rfl⟩

/-- Opening the log, where nothing goes wrong: the log is refused as it is, or it is open with the commits that were
found in it. -/
theorem openWal_quiet (h : m.schedule = []) (identity : WalIdentity) {startAfterLsn : Lsn}
    (hstart : startAfterLsn < u64Max) (hmax : (m.files .wal).volatile.length ≤ maxFileLength) :
    (∃ e, scanWal identity (m.files .wal).volatile = .error e) ∧
        ((∃ e, openWal identity startAfterLsn m = .err e m) ∨
          ∃ wal f, openWal identity startAfterLsn m = .ok wal (m.setFile .wal f) ∧ wal.committed = []) ∨
      ∃ wal validLength f, scanWal identity (m.files .wal).volatile = .ok (wal, validLength) ∧
        openWal identity startAfterLsn m = .ok wal (m.setFile .wal f) := by
  by_cases htorn : TornInit identity startAfterLsn (m.files .wal).volatile
  · refine .inl ⟨scanWal_torn htorn identity, .inr ?_⟩
    obtain ⟨t, ht, hbytes⟩ := htorn
    obtain ⟨f, hopen, -⟩ := openWal_torn_quiet h hstart ht hbytes
    exact ⟨_, f, hopen, rfl⟩
  · cases hscan : scanWal identity (m.files .wal).volatile with
    | error e =>
      refine .inl ⟨⟨e, rfl⟩, .inl ⟨e, ?_⟩⟩
      rw [openWal_eq_scan h htorn, hscan]
      rfl
    | ok scanned =>
      obtain ⟨wal, validLength⟩ := scanned
      obtain ⟨_, _, _, hvalid, -⟩ := scanWal_eq_ok hscan
      obtain ⟨f, hopen, -⟩ := openWal_scan_quiet h htorn hscan hvalid hmax
      exact .inr ⟨wal, validLength, f, rfl, hopen⟩

/-- Redo of the commits in the log changes the data file: they are found, the file that holds their pages is not too
long for the medium, and the one there is is not as redo leaves it. -/
def Rewrites (identity : WalIdentity) (log data : Bytes) : Prop :=
  ∃ wal validLength, scanWal identity log = .ok (wal, validLength) ∧
    recoveredLength (batchesAfter 0 wal.committed) data.length ≤ maxFileLength ∧
    Outdates (batchesAfter 0 wal.committed) data

/-- The store that opening checks has nothing to write. -/
theorem checkInvariants_clean_keeps {s : Store} (hdirty : s.dirtyPages = .empty) (hsuper : s.dirtySuperblock = none)
    (hwal : s.wal.isSome) {F : (FileId → File) → Prop} :
    Io.Keeps (fun m => F m.files ∧ m.memory = s) Store.checkInvariants := by
  have hblock : ∀ p, Io.Keeps (fun m : Machine FileId Store => F m.files ∧ m.memory = s) (readBlock p) := fun p =>
    readAt_keeps (J := fun files x => F files ∧ x = s) _ _ _ _
  have hflush : Io.Keeps (fun m => F m.files ∧ m.memory = s) Store.flushDirtyPages := by
    intro m hm
    have hrun : Store.flushDirtyPages m = .ok ⟨⟩ m := by
      unfold Store.flushDirtyPages
      rw [Io.bind_apply]
      show (if m.memory.wal.isNone then _ else _ : Store.Op PUnit) m = _
      rw [hm.2, if_neg (by rw [Option.isNone_iff_eq_none, ← Option.not_isSome_iff_eq_none]; exact not_not.mpr hwal), if_pos ⟨by rw [hdirty]; rfl, by rw [hsuper]; rfl⟩]
      rfl
    rw [hrun]
    exact hm
  have hcheck : ∀ root freeHead highWater,
      Io.Keeps (fun m : Machine FileId Store => F m.files ∧ m.memory = s) (checkFile root freeHead highWater) := by
    intro root freeHead highWater m hm
    have hput : ∀ x, Io.Keeps (fun n : Machine FileId TreeCheckState => F n.files) (fileHandler.put x) :=
      fun x n hn => hn
    have hrun := PageProg.run_keeps fileHandler
      (fun p => (readAt_keeps (J := fun files _ => F files) _ _ _ _).bind fun _ => .ofExcept _)
      (fun _ _ => .raise _) memory_keeps hput (checkTree root freeHead highWater) ⟨m.files, {}, m.schedule, m.faulted⟩ hm.1
    unfold checkFile
    rw [Io.bind_apply]
    unfold runOn
    cases hp : (checkTree root freeHead highWater).run fileHandler ⟨m.files, {}, m.schedule, m.faulted⟩ <;>
      rw [hp] at hrun <;> exact ⟨hrun, hm.2⟩
  have hflushed : ∀ {c : Prop} [Decidable c] {p : Store.Op InvariantReport},
      Io.Keeps (fun m => F m.files ∧ m.memory = s) p →
      Io.Keeps (fun m => F m.files ∧ m.memory = s) (if c then Store.flushDirtyPages >>= fun _ => p else p) :=
    fun hp => .ite (hflush.bind fun _ => hp) hp
  unfold Store.checkInvariants readSuperblock
  refine memory_keeps.bind fun s₁ => hflushed ?_
  refine Io.Keeps.bind (fileLength_keeps (J := fun files x => F files ∧ x = s) _) fun length => ?_
  refine Io.Keeps.bind (.ofExcept _) fun _ => .bind ?_ fun selected => ?_
  · exact (hblock 0).bind fun _ => (hblock 1).bind fun _ => .ofExcept _
  · refine memory_keeps.bind fun s₂ => .bind (.ofExcept _) fun _ => .bind (.ofExcept _) fun _ => ?_
    refine Io.Keeps.bind (.ofExcept _) fun _ => ?_
    cases s₂.wal with
    | some wal => exact Io.Keeps.bind (.ofExcept _) fun _ => hcheck _ _ _
    | none => exact hcheck _ _ _

theorem openRecovered_keeps (config : DatabaseConfig) (wal : WalLog) {F : (FileId → File) → Prop} :
    Io.Keeps (fun m : Machine FileId μ => F m.files) (openRecovered config wal) := by
  have hblock : ∀ p, Io.Keeps (fun m : Machine FileId μ => F m.files) (readBlock p) := fun p =>
    readAt_keeps (J := fun files _ => F files) _ _ _ _
  unfold openRecovered readSuperblock
  refine Io.Keeps.bind (fileLength_keeps (J := fun files _ => F files) _) fun length => ?_
  refine Io.Keeps.bind (.ofExcept _) fun _ => .bind ?_ fun selected => ?_
  · exact (hblock 0).bind fun _ => (hblock 1).bind fun _ => .ofExcept _
  · refine Io.Keeps.bind (.ofExcept _) fun _ => .bind (.ofExcept _) fun metadata => ?_
    refine Io.Keeps.bind (.ofExcept _) fun wal => .bind ?_ fun checked => ?_
    · intro m hm
      obtain ⟨s, hs⟩ : ∃ s, s = Store.atSuperblock config (some wal) selected metadata 0 := ⟨_, rfl⟩
      have hkept : Io.Keeps (fun m => F m.files ∧ m.memory = s) Store.checkInvariants :=
        checkInvariants_clean_keeps (by rw [hs]; rfl) (by rw [hs]; rfl) (by rw [hs]; rfl)
      rw [← hs]
      have hrun := hkept ⟨m.files, s, m.schedule, m.faulted⟩ ⟨hm, rfl⟩
      unfold runOn
      cases hp : Store.checkInvariants ⟨m.files, s, m.schedule, m.faulted⟩ <;> rw [hp] at hrun <;> exact hrun.1
    · exact Io.Keeps.bind (.ofExcept _) fun _ => .pure _

theorem openRecovered_unsupported (h : m.schedule = []) (hdata : UnsupportedData (m.files .data).volatile)
    (config : DatabaseConfig) (wal : WalLog) : ∃ e, openRecovered config wal m = .err e m := by
  obtain ⟨text, hselected⟩ := hdata.selected
  have hlength := hdata.whole.1
  unfold firstDataPage at hlength
  refine ⟨.unsupportedFormat text, ?_⟩
  unfold openRecovered readSuperblock
  rw [Io.bind_apply, dataLength, fileLength_quiet h]
  dsimp only
  rw [ensure_pos hdata.whole, Io.ofExcept_ok, pure_bind, Io.bind_apply, Io.bind_apply, readBlock_within h (by lia)]
  dsimp only
  rw [Io.bind_apply, readBlock_within h hlength]
  dsimp only
  unfold selectedIn at hselected
  rw [hselected]
  rfl

/-- Redo that would make the file longer than the medium allows stops before it begins. -/
theorem recoverDataFile_too_long (h : m.schedule = []) {committed : List WalCommit}
    {checkpointLsn : Lsn} (hmedium : (m.files .data).volatile.length ≤ maxFileLength)
    (hlong : maxFileLength < recoveredLength (batchesAfter checkpointLsn committed) (m.files .data).volatile.length) :
    ∃ e m', recoverDataFile committed checkpointLsn m = .err e m' ∧ m'.files = m.files := by
  unfold recoveredLength at hlong
  unfold recoverDataFile
  dsimp only
  by_cases hempty : batchesAfter checkpointLsn committed = []
  · rw [if_pos hempty] at hlong
    omega
  · rw [if_neg hempty] at hlong
    have htarget : maxFileLength < (highestDataPage (batchesAfter checkpointLsn committed) + 1) * pageSize := by
      omega
    unfold batchesAfter at hempty htarget
    rw [if_neg hempty]
    cases hlength : lengthFor (highestDataPage (committed.filter fun batch => decide (checkpointLsn < batch.commitLsn)))
        (.recoveryFailure "recovery page range overflows") (.recoveryFailure "recovery file length overflows") with
    | error e => exact ⟨e, m, rfl, rfl⟩
    | ok targetLength =>
      rw [← lengthFor_eq_ok hlength] at htarget
      rw [Io.ofExcept_ok, pure_bind, Io.bind_apply, dataLength, fileLength_quiet h]
      dsimp only
      rw [if_pos (by omega), Io.bind_apply, dataSetLength, Lib.setLength, if_pos htarget]
      exact ⟨_, _, rfl, rfl⟩

theorem UnsupportedData.length_ne_zero {data : Bytes} (h : UnsupportedData data) : data.length ≠ 0 := by
  have := h.whole.1
  unfold firstDataPage pageSize at this
  omega

theorem existingHint_unsupported {data : Bytes} (h : UnsupportedData data) (identity : WalIdentity) {walLength : Nat}
    (hlog : 0 < walLength) : existingHint identity walLength data = .ok none := by
  obtain ⟨text, hselected⟩ := h.selected
  unfold existingHint
  rw [if_neg h.length_ne_zero, if_neg (not_not.mpr h.whole), hselected]
  exact if_pos hlog

section Unsupported
variable {config : DatabaseConfig} {m : Machine FileId μ} {data : Bytes} (h : m.schedule = [])
  (hfile : m.files .data = .ofDurable data) (hdata : UnsupportedData data)
include h hfile hdata

/-- With a log, opening goes on to it as if the data file said nothing. -/
theorem openWithWal_eq_openWal (hpos : 0 < (m.files .wal).volatile.length) :
    openWithWal config m = (openWal config.identity 0 >>= fun wal => dataLength >>= fun length =>
      if length = 0 ∧ wal.committed = [] then do
        let store ← initializeStore config
        pure {store with wal := some wal, nextLsn := wal.nextLsn, nextBatchId := wal.nextBatchId}
      else do
        recoverDataFile wal.committed 0
        openRecovered config wal) m := by
  have hvolatile : (m.files .data).volatile = data := congrArg File.volatile hfile
  unfold openWithWal
  rw [Io.bind_apply, walLength, fileLength_quiet h]
  dsimp only
  rw [Io.bind_apply, validateExisting_quiet h, hvolatile, existingHint_unsupported hdata _ hpos]
  rfl

/-- Without a log the format error is passed on. -/
theorem openWithWal_unlogged (hempty : (m.files .wal).volatile.length = 0) :
    ∃ e, openWithWal config m = .err e m := by
  obtain ⟨text, hselected⟩ := hdata.selected
  have hvolatile : (m.files .data).volatile = data := congrArg File.volatile hfile
  refine ⟨.unsupportedFormat text, ?_⟩
  unfold openWithWal
  rw [Io.bind_apply, walLength, fileLength_quiet h]
  dsimp only
  rw [Io.bind_apply, validateExisting_quiet h, hvolatile, hempty, existingHint, if_neg hdata.length_ne_zero,
    if_neg (not_not.mpr hdata.whole), hselected]
  rfl

omit [Crc32c] h hdata in
theorem data_setFile_wal (f : File) : (m.setFile .wal f).files .data = .ofDurable data :=
  (Machine.files_setFile_ne m .wal .data f (by decide)).trans hfile

/-- Once the log is open, the data file is redone and then looked at. -/
theorem openWithWal_logOpened (hpos : 0 < (m.files .wal).volatile.length) {wal : WalLog} {f : File}
    (hopen : openWal config.identity 0 m = .ok wal (m.setFile .wal f)) :
    openWithWal config m = (recoverDataFile wal.committed 0 >>= fun _ => openRecovered config wal) (m.setFile .wal f) := by
  rw [openWithWal_eq_openWal h hfile hdata hpos, Io.bind_apply, hopen]
  dsimp only
  rw [Io.bind_apply, dataLength, fileLength_quiet (by exact h), data_setFile_wal hfile]
  dsimp only [ofDurable]
  rw [if_neg fun hnew => hdata.length_ne_zero hnew.1]

/-- Where no commits are found nothing is redone, and the error comes from the log or from the second look. -/
theorem openWithWal_uncommitted (hpos : 0 < (m.files .wal).volatile.length)
    (hopened : (∃ e, openWal config.identity 0 m = .err e m) ∨
      ∃ wal f, openWal config.identity 0 m = .ok wal (m.setFile .wal f) ∧ wal.committed = []) :
    ∃ e m', openWithWal config m = .err e m' ∧ m'.files .data = .ofDurable data := by
  obtain ⟨e, hopen⟩ | ⟨wal, f, hopen, hcommitted⟩ := hopened
  · refine ⟨e, m, ?_, hfile⟩
    rw [openWithWal_eq_openWal h hfile hdata hpos, Io.bind_apply, hopen]
  · obtain ⟨e, herror⟩ := openRecovered_unsupported (m := m.setFile .wal f) h
      (by rw [data_setFile_wal hfile]; exact hdata) config wal
    refine ⟨e, m.setFile .wal f, ?_, data_setFile_wal hfile f⟩
    rw [openWithWal_logOpened h hfile hdata hpos hopen, hcommitted]
    exact herror

/-- Redo makes of the data file what it makes of it, and if that is the file there was, its format is refused. -/
theorem openWithWal_redone (hpos : 0 < (m.files .wal).volatile.length) {wal : WalLog} {f : File}
    (hopen : openWal config.identity 0 m = .ok wal (m.setFile .wal f))
    (hbatches : Redoable (batchesAfter 0 wal.committed))
    (hmax : recoveredLength (batchesAfter 0 wal.committed) data.length ≤ maxFileLength) :
    (openWithWal config m).state.files .data = .ofDurable (recovered (batchesAfter 0 wal.committed) data) ∧
      (recovered (batchesAfter 0 wal.committed) data = data → ∃ e m', openWithWal config m = .err e m') := by
  have hsame := data_setFile_wal hfile f
  obtain ⟨g, hrun⟩ := recoverDataFile_quiet (m := m.setFile .wal f) h hbatches hsame hdata.whole.2 hmax
  have hrecovered := (recoversTo_recovered hbatches hdata.whole.2 hmax _ hsame).1 _ hrun
  rw [openWithWal_logOpened h hfile hdata hpos hopen, Io.bind_apply, hrun]
  refine ⟨?_, fun hunchanged => ?_⟩
  · exact openRecovered_keeps config wal
      (F := fun files => files .data = .ofDurable (recovered (batchesAfter 0 wal.committed) data)) _ hrecovered
  · rw [hunchanged] at hrecovered
    obtain ⟨e, herror⟩ := openRecovered_unsupported (m := (m.setFile .wal f).setFile .data g) h
      (by rw [hrecovered]; exact hdata) config wal
    exact ⟨e, _, herror⟩

/-- Where the file would get too long, redo does not begin. -/
theorem openWithWal_tooLong (hmedium : data.length ≤ maxFileLength) (hpos : 0 < (m.files .wal).volatile.length)
    {wal : WalLog} {f : File} (hopen : openWal config.identity 0 m = .ok wal (m.setFile .wal f))
    (hlong : maxFileLength < recoveredLength (batchesAfter 0 wal.committed) data.length) :
    ∃ e m', openWithWal config m = .err e m' ∧ m'.files .data = .ofDurable data := by
  have hsame := data_setFile_wal hfile f
  obtain ⟨e, m', herror, hfiles⟩ := recoverDataFile_too_long (m := m.setFile .wal f) h
    (by rw [hsame]; exact hmedium) (by rw [hsame]; exact hlong)
  refine ⟨e, m', ?_, by rw [hfiles]; exact hsame⟩
  rw [openWithWal_logOpened h hfile hdata hpos hopen, Io.bind_apply, herror]

/-- How opening ends on a data file of an unsupported format: with an error and the file as it was, or with the file
that redo makes of it. -/
theorem openWithWal_unsupported (hmedium : data.length ≤ maxFileLength)
    (hlog : (m.files .wal).volatile.length ≤ maxFileLength) :
    (¬Rewrites config.identity (m.files .wal).volatile data ∧
        ∃ e m', openWithWal config m = .err e m' ∧ m'.files .data = .ofDurable data) ∨
      ∃ wal validLength, scanWal config.identity (m.files .wal).volatile = .ok (wal, validLength) ∧
        recoveredLength (batchesAfter 0 wal.committed) data.length ≤ maxFileLength ∧
        Outdates (batchesAfter 0 wal.committed) data ∧
        (openWithWal config m).state.files .data = .ofDurable (recovered (batchesAfter 0 wal.committed) data) := by
  have hrefused : ∀ {e : Error}, scanWal config.identity (m.files .wal).volatile = .error e →
      ¬Rewrites config.identity (m.files .wal).volatile data := by
    intro e hscan hrewrites
    obtain ⟨wal, validLength, hok, -⟩ := hrewrites
    cases hscan.symm.trans hok
  by_cases hempty : (m.files .wal).volatile.length = 0
  · have htorn : TornInit config.identity 0 (m.files .wal).volatile :=
      ⟨0, by decide, List.length_eq_zero_iff.mp hempty⟩
    obtain ⟨e, hscan⟩ := scanWal_torn htorn config.identity
    obtain ⟨e', herror⟩ := openWithWal_unlogged h hfile hdata hempty
    exact .inl ⟨hrefused hscan, e', m, herror, hfile⟩
  have hpos := Nat.pos_of_ne_zero hempty
  obtain ⟨⟨e, hscan⟩, hopened⟩ | ⟨wal, validLength, f, hscan, hopen⟩ :=
    openWal_quiet h config.identity (show (0 : Lsn) < u64Max by decide) hlog
  · exact .inl ⟨hrefused hscan, openWithWal_uncommitted h hfile hdata hpos hopened⟩
  have hbatches := Redoable.of_scanWal hscan 0
  -- a log has one scan
  have hone : Rewrites config.identity (m.files .wal).volatile data →
      recoveredLength (batchesAfter 0 wal.committed) data.length ≤ maxFileLength ∧
        Outdates (batchesAfter 0 wal.committed) data := by
    intro hrewrites
    obtain ⟨wal', validLength', hscan', hrest⟩ := hrewrites
    cases hscan.symm.trans hscan'
    exact hrest
  by_cases hmax : recoveredLength (batchesAfter 0 wal.committed) data.length ≤ maxFileLength
  · obtain ⟨hstate, hunchanged⟩ := openWithWal_redone h hfile hdata hpos hopen hbatches hmax
    have hne := recovered_ne_iff hbatches hdata.whole.2
    by_cases houtdates : Outdates (batchesAfter 0 wal.committed) data
    · exact .inr ⟨wal, validLength, hscan, hmax, houtdates, hstate⟩
    · have hsame := not_not.mp (mt hne.mp houtdates)
      obtain ⟨e, m', herror⟩ := hunchanged hsame
      rw [herror, hsame] at hstate
      exact .inl ⟨fun hrewrites => houtdates (hone hrewrites).2, e, m', herror, hstate⟩
  · exact .inl ⟨fun hrewrites => hmax (hone hrewrites).1,
      openWithWal_tooLong h hfile hdata hmedium hpos hopen (not_le.mp hmax)⟩

end Unsupported

/-- A superblock slot of version 9. -/
def newerSlot : Bytes := superblockMagic ++ (le 2 9 ++ zeros (pageSize - 6))

def newerData : Bytes := newerSlot ++ newerSlot

omit [Crc32c] in
theorem length_newerSlot : newerSlot.length = pageSize := by
  rw [newerSlot, List.length_append, List.length_append, length_superblockMagic, length_le, length_zeros]
  rfl

omit [Crc32c] in
theorem length_newerData : newerData.length = 2 * pageSize := by
  rw [newerData, List.length_append, length_newerSlot]
  rfl

omit [Crc32c] in
theorem block_newerData : block pageSize newerData 0 = newerSlot := by
  rw [block, Nat.zero_mul, newerData, slice_append_left _ _ _ _ (by rw [length_newerSlot, Nat.zero_add]),
    slice_self _ _ length_newerSlot]

theorem newerSlot_unsupported : UnsupportedSlot newerSlot := by
  have hmagic : slice newerSlot 0 4 = superblockMagic := by
    rw [newerSlot, slice_append_left _ _ _ _ (by rw [length_superblockMagic]), slice_self _ _ length_superblockMagic]
  have hversion : slice newerSlot 4 2 = le 2 9 := slice_field _ _ _ _ _ length_superblockMagic (length_le ..)
  refine ⟨hmagic, .inl ?_⟩
  rw [hversion]
  decide

theorem newerData_unsupported : UnsupportedData newerData := by
  refine ⟨by rw [length_newerData]; decide, .inl ?_⟩
  rw [block_newerData]
  exact newerSlot_unsupported

def sampleConfig : DatabaseConfig := ⟨.zero, 1, 1, 1, 128, {}⟩

/-- A data file of an unsupported format is refused untouched unless the log has commits that the file is behind. -/
theorem unsupported_untouched_iff {config : DatabaseConfig} {m : Machine FileId μ} {data : Bytes} (h : m.schedule = [])
    (hfile : m.files .data = .ofDurable data) (hdata : UnsupportedData data) (hmedium : data.length ≤ maxFileLength)
    (hlog : (m.files .wal).volatile.length ≤ maxFileLength) :
    (∃ e m', openWithWal config m = .err e m' ∧ (m'.files .data).volatile = data) ↔
      ¬Rewrites config.identity (m.files .wal).volatile data := by
  cases openWithWal_unsupported h hfile hdata hmedium hlog with
  | inl huntouched =>
    obtain ⟨hnot, e, m', herror, hsame⟩ := huntouched
    exact ⟨fun _ => hnot, fun _ => ⟨e, m', herror, by rw [hsame]; rfl⟩⟩
  | inr hrewritten =>
    obtain ⟨wal, validLength, hscan, hmax, houtdates, hstate⟩ := hrewritten
    constructor
    · intro huntouched
      obtain ⟨e, m', herror, hsame⟩ := huntouched
      rw [herror] at hstate
      have hchanged := (recovered_ne_iff (Redoable.of_scanWal hscan 0) hdata.whole.2).mpr houtdates
      exact (hchanged ((congrArg File.volatile hstate).symm.trans hsame)).elim
    · exact fun hnot => (hnot ⟨wal, validLength, hscan, hmax, houtdates⟩).elim

/-- The image of the sample commit in the first slot, a newer superblock in the second, and one page. -/
def placedData : Bytes := [@superblockPage castagnoli (Superblock.new 1 .zero 1 1 1), newerSlot, zeros pageSize].flatten

omit [Crc32c] in
theorem block_placedData {i : Nat} {b : Bytes} (h : [@superblockPage castagnoli (Superblock.new 1 .zero 1 1 1), newerSlot,
    zeros pageSize][i]? = some b) : block pageSize placedData i = b := by
  refine block_flatten (fun slot hslot => ?_) h
  simp only [List.mem_cons, List.not_mem_nil, or_false] at hslot
  rcases hslot with rfl | rfl | rfl
  · exact @length_superblockPage castagnoli _
  · exact length_newerSlot
  · exact length_zeros _

omit [Crc32c] in
theorem length_placedData : placedData.length = 3 * pageSize := by
  rw [placedData, List.flatten_cons, List.length_append, @length_superblockPage castagnoli, List.flatten_cons,
    List.length_append, length_newerSlot, List.flatten_singleton, length_zeros]
  rfl

omit [Crc32c] in
theorem placedData_unsupported : @UnsupportedData castagnoli placedData := by
  refine @UnsupportedData.mk castagnoli _ (by rw [length_placedData]; decide) (.inr ?_)
  rw [block_placedData rfl]
  exact @newerSlot_unsupported castagnoli

omit [Crc32c] in
/-- Redo has nothing to do where the image is in place. -/
theorem not_outdates_placedData : ¬@Outdates castagnoli [sampleCommit] placedData := by
  have himage : sampleCommit.pages = [⟨0, @superblockPage castagnoli (Superblock.new 1 .zero 1 1 1)⟩] := by
    rw [sampleCommit, @encodeSuperblock_eq castagnoli _ (.new (by decide) ..)]
    rfl
  intro houtdates
  cases houtdates with
  | short hne hshort =>
    rw [length_placedData] at hshort
    exact absurd hshort (by decide)
  | page hbatch hpage hdata hbehind =>
    rw [List.mem_singleton.mp hbatch, himage, List.mem_singleton] at hpage
    rw [hpage] at hdata
    cases hdata
  | @slot slot hslot image hlast hdiffers =>
    rw [imagesIn, List.flatMap_singleton, himage] at hlast
    by_cases hzero : slot = 0
    · subst hzero
      cases hlast
      exact hdiffers (block_placedData rfl)
    · rw [List.filter_cons_of_neg (by exact mt of_decide_eq_true (Ne.symm hzero))] at hlast
      cases hlast

omit [Crc32c] in
/-- With an empty log the newer file stays as it is, and so does one that has the log's only commit in place. -/
theorem unsupported_untouched_sample :
    (∃ e m', @openWithWal castagnoli Unit sampleConfig (filesOf newerData []) = .err e m' ∧
      (m'.files .data).volatile = newerData) ∧
    ∃ log wal validLength, @scanWal castagnoli sampleConfig.identity log = .ok (wal, validLength) ∧
      wal.committed = [sampleCommit] ∧ ∃ e m', @openWithWal castagnoli Unit sampleConfig (filesOf placedData log) = .err e m' ∧
        (m'.files .data).volatile = placedData := by
  refine ⟨(@unsupported_untouched_iff castagnoli Unit sampleConfig (filesOf newerData []) newerData rfl rfl
    (@newerData_unsupported castagnoli) (by rw [length_newerData]; decide) (Nat.zero_le _)).mpr ?_, ?_⟩
  · intro hrewrites
    obtain ⟨wal, validLength, hscan, -⟩ := hrewrites
    have htorn : @TornInit castagnoli sampleConfig.identity 0 [] := ⟨0, by decide, rfl⟩
    obtain ⟨e, herror⟩ := @scanWal_torn castagnoli _ _ _ htorn sampleConfig.identity
    cases herror.symm.trans hscan
  · obtain ⟨log, wal, validLength, hscan, hcommitted, hlength⟩ := @scanWal_first_commit castagnoli sampleIdentity 4
      (by decide) sampleCommit ⟨sampleCommit_sound, rfl, rfl, True.intro⟩
    refine ⟨log, wal, validLength, hscan, hcommitted, (@unsupported_untouched_iff castagnoli Unit sampleConfig
      (filesOf placedData log) placedData rfl rfl placedData_unsupported (by rw [length_placedData]; decide)
      (hlength.trans sampleCommit_fits)).mpr ?_⟩
    intro hrewrites
    obtain ⟨wal', validLength', hscan', -, houtdates⟩ := hrewrites
    cases hscan.symm.trans hscan'
    rw [hcommitted] at houtdates
    exact not_outdates_placedData houtdates

/-- A commit of an image of the first slot is redone onto it. -/
theorem newer_slot_redone {config : DatabaseConfig} {log : Bytes} {wal : WalLog} {validLength batchId : Nat}
    {commitLsn : Lsn} {image : Bytes} (hscan : scanWal config.identity log = .ok (wal, validLength))
    (hcommitted : wal.committed = [⟨batchId, commitLsn, [⟨0, image⟩]⟩]) (hlsn : 0 < commitLsn)
    (hlog : log.length ≤ maxFileLength) :
    ((openWithWal config (filesOf newerData log)).state.files .data).volatile ≠ newerData ∧
      block pageSize ((openWithWal config (filesOf newerData log)).state.files .data).volatile 0 = image := by
  have hbatches := Redoable.of_scanWal hscan 0
  have hafter : batchesAfter 0 wal.committed = [⟨batchId, commitLsn, [⟨0, image⟩]⟩] := by
    rw [hcommitted, batchesAfter, List.filter_cons_of_pos (by exact decide_eq_true hlsn), List.filter_nil]
  have hlength : recoveredLength (batchesAfter 0 wal.committed) newerData.length = 3 * pageSize := by
    rw [hafter, length_newerData, recoveredLength, if_neg (List.cons_ne_nil _ _)]
    show max (2 * pageSize) (3 * pageSize) = 3 * pageSize
    decide
  have hmedium : newerData.length ≤ maxFileLength := by
    rw [length_newerData]
    decide
  have houtdates : Outdates (batchesAfter 0 wal.committed) newerData := by
    rw [hafter]
    refine .short (List.cons_ne_nil _ _) ?_
    rw [length_newerData]
    show 2 * pageSize < 3 * pageSize
    decide
  have hends := @openWithWal_unsupported _ Unit config (filesOf newerData log) newerData rfl rfl newerData_unsupported hmedium hlog
  cases hends with
  | inl huntouched => exact (huntouched.1 ⟨wal, validLength, hscan, hlength.trans_le (by decide), houtdates⟩).elim
  | inr hrewritten =>
    obtain ⟨wal', validLength', hscan', -, -, hstate⟩ := hrewritten
    cases hscan.symm.trans hscan'
    rw [hstate]
    refine ⟨(recovered_ne_iff hbatches newerData_unsupported.whole.2).mpr houtdates, ?_⟩
    show block pageSize (recovered _ _) 0 = image
    rw [recovered_slot hbatches newerData (by decide) (by rw [hlength]; decide), hafter]
    rfl

omit [Crc32c] in
/-- The log holds a commit of one superblock image; opening puts it in the place of the newer superblock. -/
theorem unsupported_overwritten : @UnsupportedData castagnoli newerData ∧
    ∃ log, ((@openWithWal castagnoli Unit sampleConfig (filesOf newerData log)).state.files .data).volatile ≠ newerData ∧
      [⟨0, block pageSize ((@openWithWal castagnoli Unit sampleConfig (filesOf newerData log)).state.files .data).volatile 0⟩] =
        sampleCommit.pages := by
  refine ⟨@newerData_unsupported castagnoli, ?_⟩
  obtain ⟨log, wal, validLength, hscan, hcommitted, hlength⟩ := @scanWal_first_commit castagnoli sampleIdentity 4
    (by decide) sampleCommit ⟨sampleCommit_sound, rfl, rfl, True.intro⟩
  obtain ⟨hchanged, hredone⟩ := @newer_slot_redone castagnoli sampleConfig log wal validLength _ _ _ hscan hcommitted
    (by decide) (hlength.trans sampleCommit_fits)
  refine ⟨log, hchanged, ?_⟩
  rw [hredone]
  rfl

end Dodb
