import Dodb.Btree.Disk
import Dodb.Btree.Publish
import Dodb.Btree.CheckedReads
import Dodb.Storage.WalLeft
import Dodb.Lib.OneFile

/-! A store that is running on its two files.

`Ledger` is what a database is apart from its files: the contents, the commits the log has, and the superblock that goes
with them. A store is `Steady` when its log is on the medium, its data file holds the contents as far as the log does
not, and its memory holds the rest. Checking reads a data file that has nothing left to redo and fails only where the
medium does. -/
namespace Dodb
open Lib File PageProg

variable [Crc32c] {μ : Type} {x : μ}

/-! ### Checking a settled file -/

omit [Crc32c] in
theorem readBlock_turns {R : File → Prop} {f : File} (hR : R f) {p : PageId}
    (hp : (p + 1) * pageSize ≤ f.volatile.length) :
    Turns x .data (fun g => g = f) (readBlock p) (fun bytes g => g = f ∧ bytes = block pageSize f.volatile p) R := by
  rw [Nat.succ_mul] at hp
  exact Turns.readAt hR hp

theorem checkFile_turns {f : File} {root : PageId} {freeHead : Option PageId} {highWater : PageId}
    {report : InvariantReport} {s' : CheckStage}
    (h : exec (checkTree root freeHead highWater) ⟨fileView f, .empty, {}⟩ = .ok report s') (hclean : s'.dirty = .empty) :
    Turns x .data (fun g => g = f) (checkFile root freeHead highWater) (fun r g => g = f ∧ r = report)
      (fun g => g = f) := by
  refine Turns.of_spec fun files b hk => ?_
  have hread : ∀ (p : PageId) (page : PageData) (s : CheckStage), s.view p = .ok page →
      Io.Spec (fun t : Machine FileId TreeCheckState => s.view = fileView f ∧ t.At files s.state b) (fileHandler.read p)
        (fun q t => q = page ∧ s.view = fileView f ∧ t.At files s.state b) (fun _ t => t.files = files ∧ t.faulted = true)
        fun t => t.files = files ∧ t.faulted = b := by
    intro p page s hpage
    refine Io.Spec.assume fun hview => ?_
    rw [hview, ← hk] at hpage
    refine Io.Spec.bind ((readBlock_spec p).conseq (fun _ h => h) (fun _ _ h => h) (fun e t ht => ?_) fun t ht => ?_)
      fun bytes => .assume fun hbytes => .assume fun _ => ?_
    · obtain ⟨herror, -⟩ | ⟨-, ht⟩ := ht
      · rw [hpage] at herror
        cases herror
      · exact ⟨ht.files, ht.faulted⟩
    · exact ⟨ht.files, ht.faulted⟩
    · rw [← hbytes, hpage]
      exact Io.Spec.pure fun t ht => ⟨rfl, hview, ht⟩
  have hrun := run_spec_clean (R := fun s (t : Machine FileId TreeCheckState) => s.view = fileView f ∧ t.At files s.state b)
    (F := fun t => t.files = files ∧ t.faulted = true) (H := fun t => t.files = files ∧ t.faulted = b) fileHandler hread
    (fun s t ht => ⟨ht.2.memory, ht⟩) (fun y s t ht => ⟨ht.1, ht.2.files, rfl, ht.2.faulted⟩) _ h hclean
  intro m hm
  have hstart := hrun ⟨m.files, {}, m.schedule, m.faulted⟩ ⟨rfl, hm.files, rfl, hm.faulted⟩
  unfold checkFile
  rw [Io.bind_apply]
  unfold runOn
  cases hcheck : (checkTree root freeHead highWater).run fileHandler ⟨m.files, {}, m.schedule, m.faulted⟩ with
  | ok found t =>
    rw [hcheck] at hstart
    obtain ⟨rfl, -, ht⟩ := hstart
    exact Turns.with_same hk ⟨rfl, rfl⟩ ⟨ht.files, hm.memory, ht.faulted⟩
  | err | halt =>
    rw [hcheck] at hstart
    exact Turns.with_same hk rfl ⟨hstart.1, hm.memory, hstart.2⟩

namespace Settled
variable {d : Bytes} {c : Contents} {db : ReferenceDb} {sb : Superblock} {slot : SuperblockSlot}

theorem whole (h : Settled d c sb slot) (hvalid : c.Valid db) : wholePages d.length := by
  refine ⟨?_, ?_⟩
  · have hwater := hvalid.firstDataPage_le.1.trans hvalid.firstDataPage_le.2
    rw [h.length]
    exact Nat.mul_le_mul_right _ (hwater.trans (Nat.le_succ _))
  · rw [h.length]
    exact Dvd.intro_left _ rfl

theorem view (h : Settled d c sb slot) (hvalid : c.Valid db) {p : PageId} (hp : firstDataPage ≤ p)
    (hle : p ≤ c.highWaterPageId) : fileView (.ofDurable d) p = c.view p := by
  obtain ⟨page, himage, -⟩ := hvalid.image p hp hle
  rw [Contents.view, if_pos ⟨hp, hle⟩, himage.reads]
  exact fileView_of_block (h.page p hp hle) himage.length himage.reads

theorem selected (h : Settled d c sb slot) (hsb : sb.Encodable) : selectedIn d = .ok ⟨slot, sb.sealed⟩ := by
  have hcurrent := chooseSuperblock_current hsb h.slots h.current
  exact hcurrent

theorem metadata (h : Settled d c sb slot) (hvalid : c.Valid db) (hrecords : sb.Records c) :
    metadataFromSuperblock sb.sealed d.length = .ok (c.rootPageId, c.freeListHead, c.highWaterPageId) := by
  obtain ⟨t, free, hhealthy, -⟩ := hvalid.tree
  have hroot := hvalid.firstDataPage_le
  have hsize : sb.sealed.pageSize = pageSize := hrecords.encodable.pageSize
  have hrootPage : sb.sealed.rootPageId = some c.rootPageId := hrecords.rootPageId
  have hfreeHead : sb.sealed.freeListHead = c.freeListHead := hrecords.freeListHead
  have hhighWater : sb.sealed.highWaterPageId = some c.highWaterPageId := hrecords.highWaterPageId
  have hcount : c.highWaterPageId + 1 = d.length / pageSize := by
    rw [h.length, Nat.mul_div_cancel _ (by decide)]
  have hfree : (c.freeListHead.all fun free => decide (firstDataPage ≤ free ∧ free ≤ c.highWaterPageId)) = true := by
    have hhead : c.freeListHead = free.head? := hhealthy.pages.freeHead
    cases hfree : c.freeListHead with
    | none => rfl
    | some p =>
      rw [hfree] at hhead
      have hmem : p ∈ free := List.mem_of_mem_head? hhead.symm
      exact decide_eq_true (hhealthy.pages.mem_range (.inr (.inl hmem)))
  unfold metadataFromSuperblock
  rw [ensure_pos hsize, except_ok_bind, hrootPage, hhighWater, hfreeHead]
  dsimp only [pure, Except.pure]
  rw [except_ok_bind, except_ok_bind, addOr_of_le _ hvalid.water, except_ok_bind,
    ensure_pos ⟨hroot.1.trans hroot.2, hcount⟩, except_ok_bind, ensure_pos hroot, except_ok_bind, ensure_pos hfree]
  rfl

/-- The checker accepts the file, and finds the revision of the last commit. -/
theorem exec_checkTree (h : Settled d c sb slot) (hvalid : c.Valid db) :
    ∃ report s', exec (checkTree c.rootPageId c.freeListHead c.highWaterPageId) ⟨fileView (.ofDurable d), .empty, {}⟩ =
      .ok report s' ∧ s'.dirty = .empty ∧ report.leakedPages = [] ∧ report.maxRevision = c.top := by
  obtain ⟨t, free, hhealthy, hholds⟩ := hvalid.tree
  have hfile : Healthy c.top ⟨fileView (.ofDurable d), .empty, c.stage.state⟩ t free [] :=
    hhealthy.congr rfl rfl rfl rfl fun p hp hle => h.view hvalid hp hle
  obtain ⟨s', hclean, hexec⟩ := hfile.exec_checkTree
  refine ⟨reportOf t free, s', hexec, hclean, rfl, ?_⟩
  have hfold : ∀ (items : List Item) (most : Revision), most ≤ c.top → (∀ i ∈ items, i.revision ≤ c.top) →
      (most = c.top ∨ ∃ i ∈ items, i.revision = c.top) →
        items.foldl (fun most i => max most i.revision) most = c.top := by
    intro items
    induction items with
    | nil =>
      intro most _ _ hattained
      obtain hmost | ⟨i, hi, -⟩ := hattained
      · exact hmost
      · exact absurd hi List.not_mem_nil
    | cons i rest ih =>
      intro most hmost hle hattained
      have hi := hle i List.mem_cons_self
      refine ih _ (max_le hmost hi) (fun j hj => hle j (List.mem_cons_of_mem _ hj)) ?_
      obtain hmost' | ⟨j, hj, hrevision⟩ := hattained
      · exact .inl ((max_eq_left (hi.trans hmost'.ge)).trans hmost')
      · obtain rfl | hj := List.mem_cons.mp hj
        · exact .inl ((max_eq_right (hmost.trans hrevision.ge)).trans hrevision)
        · exact .inr ⟨j, hj, hrevision⟩
  refine hfold t.items 0 (Nat.zero_le _) (fun i hi => hhealthy.item_revision_le hi) ?_
  by_cases hzero : c.top = 0
  · exact .inl hzero.symm
  · obtain ⟨binding, hbinding, hrevision⟩ := hvalid.attained hzero
    obtain ⟨i, hi, heq⟩ := hholds.mem_revision hbinding
    exact .inr ⟨i, hi, heq.trans hrevision⟩

/-- A settled file holds the contents whatever the log has. -/
theorem disk (h : Settled d c sb slot) (hvalid : c.Valid db) (commits : List WalCommit) : Disk d commits c sb slot := by
  refine ⟨h.whole hvalid, h.fits, .of_blocks (h.whole hvalid).2 h.length.le (fun i hi => ?_) fun i hi hout => ?_⟩
  · by_cases hdata : firstDataPage ≤ i
    · refine .of_page hdata (.inl (h.page i hdata ?_))
      rw [h.length] at hi
      exact Nat.le_of_succ_le_succ (Nat.le_of_mul_le_mul_right hi (by decide))
    · obtain ⟨s, rfl⟩ := SuperblockSlot.exists_pageId (Nat.not_le.mp hdata)
      refine .of_slot (h.slots s) fun hs _ => ?_
      rw [hs]
      exact h.current
  · rw [h.length] at hout
    exact absurd hi hout

end Settled

theorem readSuperblock_turns {d : Bytes} {c : Contents} {db : ReferenceDb} {sb : Superblock} {slot : SuperblockSlot}
    (h : Settled d c sb slot) (hvalid : c.Valid db) (hrecords : sb.Records c) :
    Turns x .data (fun g => g = .ofDurable d) (readSuperblock : Data μ SelectedSuperblock)
      (fun selected g => g = .ofDurable d ∧ selected = ⟨slot, sb.sealed⟩) (fun g => g = .ofDurable d) := by
  have hslot : ∀ slot : SuperblockSlot, (slot.pageId + 1) * pageSize ≤ (File.ofDurable d).volatile.length := fun slot =>
    (Nat.mul_le_mul_right pageSize (Nat.succ_le_of_lt slot.pageId_lt)).trans (h.whole hvalid).1
  have hvolatile : (File.ofDurable d).volatile = d := rfl
  have hselected := h.selected hrecords.encodable
  unfold selectedIn at hselected
  unfold readSuperblock
  refine Turns.bind_eq (readBlock_turns (R := fun g => g = .ofDurable d) rfl (hslot .A)) ?_
  refine Turns.bind_eq (readBlock_turns (R := fun g => g = .ofDurable d) rfl (hslot .B)) ?_
  rw [hvolatile, hselected, Io.ofExcept_ok]
  exact Turns.pure fun _ hg => ⟨hg, rfl⟩

/-! ### The ledger -/

/-- The LSN of the last commit, or of the checkpoint where there is none after it. -/
def lastLsn (checkpointLsn : Lsn) (commits : List WalCommit) : Lsn :=
  (commits.getLast?.map WalCommit.commitLsn).getD checkpointLsn

/-- A database with the contents `c`, which are the documents of `db`: what the commits in its log and its superblock
are to them. -/
structure Ledger (identity : WalIdentity) (commits : List WalCommit) (c : Contents) (db : ReferenceDb) (sb : Superblock)
    (slot : SuperblockSlot) : Prop where
  valid : c.Valid db
  history : History commits c sb slot
  identity : sb.identity = identity
  top : c.top = lastLsn sb.checkpointLsn commits
  checkpoint : sb.checkpointLsn ≤ c.top
  lsn : c.top < u64Max
  generation : sb.generation ≤ c.top + 1
  renewed : sb.checkpointLsn < c.top → sb.generation ≤ c.top
  water : c.highWaterPageId ≤ c.top + 2
  room : (c.highWaterPageId + 1) * pageSize ≤ maxFileLength + imageBytes commits

/-- The data file of the contents is as long as a file can be counted, if the log fits the medium. -/
theorem Ledger.length_le {identity : WalIdentity} {commits : List WalCommit} {c : Contents} {db : ReferenceDb}
    {sb : Superblock} {slot : SuperblockSlot} (h : Ledger identity commits c db sb slot)
    (himages : imageBytes commits ≤ maxFileLength) : (c.highWaterPageId + 1) * pageSize ≤ u64Max := by
  refine h.room.trans ((Nat.add_le_add_left himages _).trans ?_)
  decide

/-- A running store and its data file: what the file does not hold of the contents is in the store's memory, and in the
log. -/
structure Store.Holding (config : DatabaseConfig) (files : FileId → File) (s : Store) (commits : List WalCommit)
    (c : Contents) (db : ReferenceDb) : Prop where
  ledger : Ledger config.identity commits c db s.currentSuperblock s.activeSlot
  serves : s.Serves files c db
  configured : s.config = config
  serving : s.broken = none
  data : ∃ d, files .data = .ofDurable d ∧ Disk d commits c s.currentSuperblock s.activeSlot
  slot : s.dirtySuperblock = some (superblockPage s.currentSuperblock) ∨ s.dirtySuperblock = none ∧
    block pageSize (files .data).volatile s.activeSlot.pageId = superblockPage s.currentSuperblock

/-- A running store that can be relied on: its log is on the medium. -/
structure Store.Steady (config : DatabaseConfig) (files : FileId → File) (s : Store) (commits : List WalCommit)
    (c : Contents) (db : ReferenceDb) : Prop extends Store.Holding config files s commits c db where
  log : ∃ wal start items, s.wal = some wal ∧
    OpenedLog config.identity s.currentSuperblock.checkpointLsn commits wal start items ∧
    files .wal = .ofDurable (logBytes config.identity start items) ∧ s.nextLsn = wal.nextLsn ∧
    s.nextBatchId = wal.nextBatchId

/-- The store has nothing left to write, and its memory is the settled data file's. -/
structure Store.Clean (s : Store) (c : Contents) (slot : SuperblockSlot) : Prop where
  dirtyPages : s.dirtyPages = .empty
  dirtySuperblock : s.dirtySuperblock = none
  activeSlot : s.activeSlot = slot
  rootPageId : s.rootPageId = c.rootPageId
  freeListHead : s.freeListHead = c.freeListHead
  highWaterPageId : s.highWaterPageId = c.highWaterPageId

/-- What checking does once everything is written. -/
def Store.checkFlushed : Store.Op InvariantReport := do
  let length ← dataLength
  Io.ofExcept (ensure (wholePages length) (.corruption "database file length is not page aligned"))
  let selected ← readSuperblock
  let s ← memory
  Io.ofExcept (ensure (selected.slot = s.activeSlot ∧ selected.superblock = s.currentSuperblock)
    (.corruption "in-memory superblock is not the selected file copy"))
  let (root, freeHead, highWater) ← Io.ofExcept (metadataFromSuperblock selected.superblock length)
  Io.ofExcept (ensure (root = s.rootPageId ∧ freeHead = s.freeListHead ∧ highWater = s.highWaterPageId)
    (.corruption "in-memory allocator metadata does not match superblock"))
  match s.wal with
  | some wal => Io.ofExcept (ensure (s.currentSuperblock.checkpointLsn ≤ s.latestKnownLsn wal)
      (.corruption "checkpoint LSN is newer than the known durable WAL state"))
  | none => pure ()
  checkFile root freeHead highWater

theorem Store.checkInvariants_eq : Store.checkInvariants = (do
    let s ← memory
    if s.wal.isSome then Store.flushDirtyPages else pure ⟨⟩
    Store.checkFlushed) := rfl

section Check
variable {s : Store} {d : Bytes} {c : Contents} {db : ReferenceDb} {slot : SuperblockSlot} {wal : WalLog}

/-- Checking a store whose data file is settled and whose superblock in memory is as it is in the file. -/
theorem Store.checkFlushed_turns {sb : Superblock} (hs : s.Clean c slot) (hwal : s.wal = some wal)
    (hsealed : s.currentSuperblock = sb.sealed) (hsettled : Settled d c sb slot) (hvalid : c.Valid db)
    (hrecords : sb.Records c) (hknown : s.currentSuperblock.checkpointLsn ≤ s.latestKnownLsn wal) :
    Turns s .data (fun g => g = .ofDurable d) checkFlushed
      (fun report g => g = .ofDurable d ∧ report.leakedPages = [] ∧ report.maxRevision = c.top)
      (fun g => g = .ofDurable d) := by
  obtain ⟨report, s', hexec, hclean, hleaked, hmax⟩ := hsettled.exec_checkTree hvalid
  unfold checkFlushed
  refine Turns.bind_eq (.fileLength rfl) ?_
  have hvolatile : (File.ofDurable d).volatile = d := rfl
  rw [hvolatile, ensure_pos (hsettled.whole hvalid), Io.ofExcept_ok, pure_bind]
  refine Turns.bind_eq (readSuperblock_turns hsettled hvalid hrecords) ?_
  refine Turns.bind_eq Turns.memory ?_
  rw [ensure_pos ⟨hs.activeSlot.symm, hsealed.symm⟩, Io.ofExcept_ok, pure_bind, hsettled.metadata hvalid hrecords,
    Io.ofExcept_ok, pure_bind]
  dsimp only
  rw [ensure_pos ⟨hs.rootPageId.symm, hs.freeListHead.symm, hs.highWaterPageId.symm⟩, Io.ofExcept_ok, pure_bind, hwal]
  dsimp only
  rw [ensure_pos hknown, Io.ofExcept_ok, pure_bind]
  refine (checkFile_turns hexec hclean).conseq (fun _ h => h) fun r g hg => ⟨hg.1, ?_⟩
  rw [hg.2]
  exact ⟨hleaked, hmax⟩

/-- Checking a store that has nothing left to write. -/
theorem Store.checkInvariants_turns {sb : Superblock} (hs : s.Clean c slot) (hwal : s.wal = some wal)
    (hsealed : s.currentSuperblock = sb.sealed) (hsettled : Settled d c sb slot) (hvalid : c.Valid db)
    (hrecords : sb.Records c) (hknown : s.currentSuperblock.checkpointLsn ≤ s.latestKnownLsn wal) :
    Turns s .data (fun g => g = .ofDurable d) checkInvariants
      (fun report g => g = .ofDurable d ∧ report.leakedPages = [] ∧ report.maxRevision = c.top)
      (fun g => g = .ofDurable d) := by
  rw [checkInvariants_eq]
  refine Turns.bind_eq Turns.memory ?_
  rw [if_pos (by rw [hwal]; rfl)]
  have hflush : Turns s .data (fun g => g = .ofDurable d) flushDirtyPages (fun _ g => g = .ofDurable d)
      (fun g => g = .ofDurable d) := by
    unfold flushDirtyPages
    refine Turns.bind_eq Turns.memory ?_
    rw [if_neg (by rw [hwal]; simp), if_pos ⟨by rw [hs.dirtyPages]; rfl, by rw [hs.dirtySuperblock]; rfl⟩]
    exact Turns.pure fun _ h => h
  exact Turns.bind hflush fun _ => checkFlushed_turns hs hwal hsealed hsettled hvalid hrecords hknown

end Check

end Dodb
