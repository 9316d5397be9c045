import Dodb.Btree.Advance
import Dodb.Btree.Reopen

/-! Publishing batches on a running store.

A group of batches, each prepared on the one before (`Chain`), goes to the log as one append and then to the memory of the
store, batch by batch. When the append does not succeed, a power loss leaves some of the commits, and they are the first
of the group: the database is then what it was after one of the batches (`Chain.left`). -/
namespace Dodb
open Lib File

variable [Crc32c]

/-- Each page of the contents is dirty or in the data file, and so is the current superblock. -/
structure Store.Unwritten (s : Store) (commits : List WalCommit) (c : Contents) (f : File) : Prop where
  disk : DiskFile f commits c s.currentSuperblock s.activeSlot
  kept : c.Kept f s.dirtyPages
  slot : s.dirtySuperblock = some (superblockPage s.currentSuperblock) ∨ s.dirtySuperblock = none ∧
    block pageSize f.volatile s.activeSlot.pageId = superblockPage s.currentSuperblock

omit [Crc32c] in
/-- A program that breaks the store when it fails. -/
theorem Store.orBreak_spec {α : Type} {wrap : Error → Error} {p : Op α} {P : Machine FileId Store → Prop}
    {Q : α → Machine FileId Store → Prop} {E : Error → Machine FileId Store → Prop} {H : Machine FileId Store → Prop}
    (h : Io.Spec P p Q E H) :
    Io.Spec P (orBreak wrap p) Q
      (fun _ m => ∃ e m', E e m' ∧ m = m'.setMemory {m'.memory with broken := some e.display}) H := by
  intro m hm
  have hp := h m hm
  unfold orBreak
  rw [Io.bind_apply]
  unfold Io.attempt
  cases hrun : p m with
  | err e m' =>
    rw [hrun] at hp
    exact ⟨e, m', hp, rfl⟩
  | ok | halt =>
    rw [hrun] at hp
    exact hp

/-! ### A batch in memory -/

/-- The store with a batch in its memory. -/
def Store.published (s : Store) (prepared : PreparedBatch) : Store := {s with
  currentSuperblock := prepared.newSuperblock
  activeSlot := prepared.newSlot
  rootPageId := prepared.rootPageId
  freeListHead := prepared.freeListHead
  highWaterPageId := prepared.highWaterPageId
  nextRevision := prepared.nextRevision
  nextLsn := prepared.nextRevision
  nextBatchId := prepared.batchId + 1
  dirtyPages := s.dirtyPages.insertMany prepared.changedPages.entries
  dirtySuperblock := some (superblockPage prepared.newSuperblock)
  cache := (s.cache.insertMany prepared.readPages).insertMany prepared.changedDecoded
  publishedPageUpdates := if s.trackPublishedPages then
    s.publishedPageUpdates.insertMany prepared.changedDecoded.entries else s.publishedPageUpdates}

section Batch
variable {b : Base} {c : Contents} {committed : Lsn} {prepared : PreparedBatch} {commits : List WalCommit}
  {db db' : ReferenceDb} {sb : Superblock} {slot : SuperblockSlot} {config : DatabaseConfig} {files : FileId → File}
  {s : Store}

theorem Commits.decode (h : Commits b c committed prepared) :
    decodeSuperblock (superblockPage prepared.newSuperblock) = .ok prepared.newSuperblock := by
  rw [decodeSuperblock_superblockPage h.records.encodable, h.superblock]
  rfl

theorem Commits.publishCandidate (h : Commits b c committed prepared) (hbase : b.Continues c sb slot)
    (m : Machine FileId Store) :
    Store.publishCandidate prepared (superblockPage prepared.newSuperblock) m =
      .ok ⟨⟩ (m.setMemory (m.memory.published prepared)) := by
  have hbatch : prepared.batchId + 1 ≤ u64Max := (h.begun hbase).batchId_lt
  unfold Store.publishCandidate
  rw [h.decode, Io.ofExcept_ok, pure_bind, h.commitLsn]
  dsimp only
  rw [addOr_of_le _ h.lsn, Io.ofExcept_ok, pure_bind, addOr_of_le _ hbatch, Io.ofExcept_ok, pure_bind]
  have hnext : committed + 1 = prepared.nextRevision := h.nextRevision.symm
  rw [hnext]
  unfold Store.published
  cases htrack : m.memory.trackPublishedPages <;>
    simp only [Io.bind_apply, modifyMemory, htrack, Bool.false_eq_true, if_false, if_true] <;> rfl

/-- The pages a batch does not change are those of before. -/
theorem Contents.view_after {p : PageId} (hp : firstDataPage ≤ p ∧ p ≤ c.highWaterPageId)
    (hle : c.highWaterPageId ≤ prepared.highWaterPageId) (hget : prepared.changedPages.get? p = none) :
    (c.after prepared).view p = c.view p := by
  have himage : (c.after prepared).image p = c.image p := by
    show (prepared.changedPages.get? p).getD (c.image p) = c.image p
    rw [hget]
    rfl
  have hrange : firstDataPage ≤ p ∧ p ≤ (c.after prepared).highWaterPageId := ⟨hp.1, hp.2.trans hle⟩
  rw [Contents.view, Contents.view, if_pos hp, if_pos hrange, himage]

theorem Commits.changed_of_decoded (h : Commits b c committed prepared) {p : PageId} {page : PageData}
    (hp : prepared.changedDecoded.get? p = some page) :
    ∃ bytes, prepared.changedPages.get? p = some bytes ∧ Image p page bytes := by
  cases hget : prepared.changedPages.get? p with
  | none =>
    rw [h.complete p hget] at hp
    cases hp
  | some bytes =>
    obtain ⟨-, page', hdecoded, himage, -⟩ := h.image p bytes hget
    cases hdecoded.symm.trans hp
    exact ⟨bytes, rfl, himage⟩

theorem Commits.coherent (h : Commits b c committed prepared) {cache : PageCache} (hcache : cache.Coherent c.view) :
    ((cache.insertMany prepared.readPages).insertMany prepared.changedDecoded).Coherent (c.after prepared).view := by
  refine (hcache.insertMany h.reads).insertMany_changed (fun p page hp => ?_) fun p page hp hnone hview => ?_
  · obtain ⟨bytes, hget, himage⟩ := h.changed_of_decoded hp
    have hrange : firstDataPage ≤ p ∧ p ≤ (c.after prepared).highWaterPageId := h.data_of_changed hget
    have hbytes : (c.after prepared).image p = bytes := by
      show (prepared.changedPages.get? p).getD (c.image p) = bytes
      rw [hget]
      rfl
    refine ⟨hrange.1, ?_⟩
    rw [Contents.view, if_pos hrange, hbytes]
    exact himage.reads
  · have hget : prepared.changedPages.get? p = none := by
      cases hget : prepared.changedPages.get? p with
      | none => rfl
      | some bytes =>
        obtain ⟨-, page', hdecoded, -⟩ := h.image p bytes hget
        rw [hnone] at hdecoded
        cases hdecoded
    rw [Contents.view_after (Contents.data_of_view hview) h.rises hget]
    exact hview

theorem Commits.kept (h : Commits b c committed prepared) {f : File} {unwritten : SortedMap PageId Bytes}
    (hkept : c.Kept f unwritten) :
    (c.after prepared).Kept f (unwritten.insertMany prepared.changedPages.entries) where
  dirty p bytes hp := by
    rw [SortedMap.get?_insertMany_entries] at hp
    show _ ∧ bytes = (prepared.changedPages.get? p).getD (c.image p)
    cases hget : prepared.changedPages.get? p with
    | some new =>
      rw [hget] at hp
      cases hp
      exact ⟨h.data_of_changed hget, rfl⟩
    | none =>
      rw [hget] at hp
      obtain ⟨hrange, hbytes⟩ := hkept.dirty p bytes hp
      exact ⟨⟨hrange.1, hrange.2.trans h.rises⟩, hbytes⟩
  clean p hp hle hclean := by
    rw [SortedMap.get?_insertMany_entries] at hclean
    show _ = (prepared.changedPages.get? p).getD (c.image p)
    cases hget : prepared.changedPages.get? p with
    | some new =>
      rw [hget] at hclean
      cases hclean
    | none =>
      rw [hget] at hclean
      refine hkept.clean p hp ?_ hclean
      by_contra hnew
      exact h.fresh p (Nat.not_le.mp hnew) hle hget
  length := hkept.length.trans (Nat.mul_le_mul_right _ (Nat.succ_le_succ h.rises))

/-- A batch that commits takes a store that holds the contents of before to one that holds those of after it. -/
theorem Store.Holding.published (hs : s.Holding config files commits c db) (h : Commits s.base c committed prepared)
    (hbase : s.base.Continues c s.currentSuperblock s.activeSlot) (hvalid : (c.after prepared).Valid db') :
    (s.published prepared).Holding config files (commits ++ [prepared.walCommit]) (c.after prepared) db' where
  ledger := hs.ledger.commit h hbase hvalid
  serves :=
    { valid := hvalid
      remembers := ⟨h.coherent hs.serves.remembers.cache, rfl, rfl, rfl, by
        rw [h.top]
        exact h.nextRevision, h.records⟩
      kept := h.kept hs.serves.kept
      lsn := fun _ => by
        rw [h.top]
        show committed < prepared.nextRevision
        rw [h.nextRevision]
        exact Nat.lt_succ_self _ }
  configured := hs.configured
  serving := hs.serving
  data := by
    obtain ⟨d, hd, hdisk⟩ := hs.data
    exact ⟨d, hd, hdisk.commit hs.ledger h hbase⟩
  slot := .inl rfl

/-- The log does not matter to the data file. -/
theorem Store.Holding.setLog (hs : s.Holding config files commits c db) (hlogged : s.wal.isSome = true) (f : File)
    (log : WalLog) : Store.Holding config (Function.update files .wal f) {s with wal := some log} commits c db := by
  have hother : Function.update files .wal f .data = files .data := Function.update_of_ne (by decide) ..
  have hremembers : Store.Remembers {s with wal := some log} c :=
    ⟨hs.serves.remembers.cache, hs.serves.remembers.rootPageId, hs.serves.remembers.freeListHead,
      hs.serves.remembers.highWaterPageId, hs.serves.remembers.nextRevision, hs.serves.remembers.superblock⟩
  refine ⟨hs.ledger, ⟨hs.serves.valid, hremembers, ?_, fun _ => hs.serves.lsn hlogged⟩, hs.configured, hs.serving, ?_, ?_⟩ <;>
    rw [hother]
  · exact hs.serves.kept
  · exact hs.data
  · exact hs.slot

theorem Commits.base_published (h : Commits s.base c committed prepared) :
    (s.published prepared).base = s.base.after prepared := by
  have hbatch : prepared.batchId = s.nextBatchId := h.batchId
  unfold Store.published Store.base Base.after
  rw [hbatch]

end Batch

/-! ### Chains of batches -/

/-- Batches that commit, each prepared on the contents the one before makes, with the documents of each. -/
inductive Chain : Base → Contents → List (PreparedBatch × ReferenceDb) → Prop where
  | nil (b : Base) (c : Contents) : Chain b c []
  | cons {b : Base} {c : Contents} {committed : Lsn} {prepared : PreparedBatch} {db : ReferenceDb}
      {rest : List (PreparedBatch × ReferenceDb)} (hcommits : Commits b c committed prepared)
      (hvalid : (c.after prepared).Valid db) (hrest : Chain (b.after prepared) (c.after prepared) rest) :
      Chain b c ((prepared, db) :: rest)

/-- The commits of a chain. -/
def chainCommits (chain : List (PreparedBatch × ReferenceDb)) : List WalCommit := chain.map fun e => e.1.walCommit

/-- The contents after a chain. -/
def Contents.afterAll (c : Contents) (chain : List (PreparedBatch × ReferenceDb)) : Contents :=
  chain.foldl (fun c e => c.after e.1) c

/-- The documents after a chain. -/
def documentsAfter (db : ReferenceDb) (chain : List (PreparedBatch × ReferenceDb)) : ReferenceDb :=
  chain.foldl (fun _ e => e.2) db

/-- The store after the batches of a group, one after the other. -/
def Store.publishedAll (s : Store) (chain : List (PreparedBatch × ReferenceDb)) : Store :=
  chain.foldl (fun s e => s.published e.1) s

section Chains
variable {b : Base} {c : Contents} {commits : List WalCommit} {db : ReferenceDb} {sb : Superblock}
  {slot : SuperblockSlot} {config : DatabaseConfig} {identity : WalIdentity} {files : FileId → File} {s : Store}
  {chain : List (PreparedBatch × ReferenceDb)}

namespace Chain

/-- The log goes on by the commits of a chain. -/
theorem continues (h : Chain b c chain) (hbase : b.Continues c sb slot) :
    Continues b.nextLsn b.nextBatchId (chainCommits chain) := by
  induction h generalizing sb slot with
  | nil b c => exact True.intro
  | @cons b c committed prepared db rest hcommits hvalid hrest ih =>
    have hnext : prepared.walCommit.commitLsn + 1 = (b.after prepared).nextLsn := by
      rw [hcommits.walCommit_lsn]
      exact hcommits.nextRevision.symm
    have hbatch : prepared.walCommit.batchId = b.nextBatchId := hcommits.batchId
    refine ⟨hcommits.begun hbase, hcommits.firstLsn hbase.logged, hbatch, ?_⟩
    rw [hnext, hbatch]
    exact ih (hcommits.after_continues hbase)

theorem checkGenerations (h : Chain b c chain) :
    Store.checkGenerations b.superblock.generation (chain.map Prod.fst) = .ok () := by
  induction h with
  | nil b c => rfl
  | cons hcommits hvalid hrest ih =>
    rw [List.map_cons, Store.checkGenerations, ensure_pos hcommits.baseGeneration, except_ok_bind]
    exact ih

theorem encodeGroup (h : Chain b c chain) :
    Store.encodeGroup true (chain.map Prod.fst) =
      .ok (chain.map fun e => superblockPage e.1.newSuperblock, chainCommits chain) := by
  induction h with
  | nil b c => rfl
  | cons hcommits hvalid hrest ih =>
    rw [List.map_cons, Store.encodeGroup, encodeSuperblock_eq hcommits.records.encodable, except_ok_bind,
      hcommits.commitLsn, ih]
    simp only [if_true, pure, Except.pure, except_ok_bind, chainCommits, List.map_cons, PreparedBatch.walCommit,
      hcommits.commitLsn, Option.getD_some]
    rfl

theorem publishCandidates (h : Chain b c chain) (hbase : b.Continues c sb slot) (m : Machine FileId Store) :
    Store.publishCandidates ((chain.map Prod.fst).zip (chain.map fun e => superblockPage e.1.newSuperblock)) m =
      .ok ⟨⟩ (m.setMemory (m.memory.publishedAll chain)) := by
  induction h generalizing sb slot m with
  | nil b c => rfl
  | cons hcommits hvalid hrest ih =>
    rw [List.map_cons, List.map_cons, List.zip_cons_cons, Store.publishCandidates, Io.bind_apply,
      hcommits.publishCandidate hbase]
    exact ih (hcommits.after_continues hbase) _

/-- A chain that is published takes a store that holds the contents of before to one that holds those of after it. -/
theorem holding (h : Chain b c chain) (hs : s.Holding config files commits c db) (hb : s.base = b)
    (hbase : s.base.Continues c s.currentSuperblock s.activeSlot) :
    (s.publishedAll chain).Holding config files (commits ++ chainCommits chain) (c.afterAll chain)
        (documentsAfter db chain) ∧
      nextAfter (b.nextLsn, b.nextBatchId) (chainCommits chain) =
        ((s.publishedAll chain).nextLsn, (s.publishedAll chain).nextBatchId) ∧
      (s.publishedAll chain).currentSuperblock.checkpointLsn = s.currentSuperblock.checkpointLsn := by
  induction h generalizing s commits db with
  | nil b c =>
    subst hb
    rw [chainCommits, List.map_nil, List.append_nil]
    exact ⟨hs, rfl, rfl⟩
  | @cons b c committed prepared db' rest hcommits hvalid hrest ih =>
    subst hb
    have hpublished := hs.published hcommits hbase hvalid
    have hnext := hcommits.after_continues hbase
    rw [← hcommits.base_published] at hnext
    obtain ⟨hholding, hcounters, hcheckpoint⟩ := ih hpublished hcommits.base_published hnext
    rw [List.append_assoc] at hholding
    refine ⟨hholding, ?_, hcheckpoint.trans (hcommits.checkpointLsn hbase)⟩
    have hlsn : prepared.walCommit.commitLsn + 1 = prepared.nextRevision := by
      rw [hcommits.walCommit_lsn]
      exact hcommits.nextRevision.symm
    have hbatch : prepared.walCommit.batchId + 1 = s.nextBatchId + 1 := congrArg (· + 1) hcommits.batchId
    show nextAfter (prepared.walCommit.commitLsn + 1, prepared.walCommit.batchId + 1) (chainCommits rest) = _
    rw [hlsn, hbatch]
    exact hcounters

theorem wal_publishedAll (s : Store) (chain : List (PreparedBatch × ReferenceDb)) :
    (s.publishedAll chain).wal = s.wal := by
  induction chain generalizing s with
  | nil => rfl
  | cons e rest ih => exact ih (s.published e.1)

theorem sealed (h : Chain b c chain) (hne : chain ≠ []) :
    (s.publishedAll chain).currentSuperblock.sealed = (s.publishedAll chain).currentSuperblock := by
  induction h generalizing s with
  | nil b c => exact absurd rfl hne
  | @cons b c committed prepared db rest hcommits hvalid hrest ih =>
    by_cases hlast : rest = []
    · subst hlast
      show prepared.newSuperblock.sealed = prepared.newSuperblock
      rw [hcommits.superblock]
      rfl
    · exact ih hlast

/-- What a power loss leaves when the log has the first commits of a chain is the database after them. -/
theorem left (h : Chain b c chain) (hledger : Ledger identity commits c db sb slot) (hbase : b.Continues c sb slot)
    {d w : Bytes} (hdisk : Disk d commits c sb slot) {n : Nat}
    (hlog : LogLeft identity sb.checkpointLsn (commits ++ (chainCommits chain).take n) w)
    (hlength : w.length ≤ maxFileLength) :
    ∃ k ≤ chain.length, ∃ commits' sb' slot',
      Left identity d w commits' (c.afterAll (chain.take k)) (documentsAfter db (chain.take k)) sb' slot' := by
  induction h generalizing commits db sb slot n with
  | nil b c =>
    rw [chainCommits, List.map_nil, List.take_nil, List.append_nil] at hlog
    exact ⟨0, le_rfl, commits, sb, slot, hledger, hdisk, hlog, hlength⟩
  | @cons b c committed prepared db' rest hcommits hvalid hrest ih =>
    cases n with
    | zero =>
      rw [List.take_zero, List.append_nil] at hlog
      exact ⟨0, Nat.zero_le _, commits, sb, slot, hledger, hdisk, hlog, hlength⟩
    | succ n =>
      have hcons : (chainCommits ((prepared, db') :: rest)).take (n + 1) =
          [prepared.walCommit] ++ (chainCommits rest).take n := rfl
      rw [hcons, ← List.append_assoc, ← hcommits.checkpointLsn hbase] at hlog
      obtain ⟨k, hk, commits', sb', slot', hleft⟩ := ih (hledger.commit hcommits hbase hvalid)
        (hcommits.after_continues hbase) (hdisk.commit hledger hcommits hbase) hlog
      exact ⟨k + 1, Nat.succ_le_succ hk, commits', sb', slot', hleft⟩

end Chain

/-! ### What a power loss leaves -/

/-- Whatever a power loss leaves of the files is a database, with documents and a last commit that are `allowed`. -/
structure Survives (identity : WalIdentity) (files : FileId → File) (allowed : Lsn → ReferenceDb → Prop) : Prop where
  lossy : ∃ d, (files .data).BlockLoss pageSize (fun i b => refusedBlock i b = true) d
  left : ∀ d w, (files .data).BlockLoss pageSize (fun i b => refusedBlock i b = true) d → (files .wal).TailLoss w →
    ∃ commits c db sb slot, Left identity d w commits c db sb slot ∧ allowed c.top db

theorem Survives.mono {allowed allowed' : Lsn → ReferenceDb → Prop} (h : Survives identity files allowed)
    (himp : ∀ top db, allowed top db → allowed' top db) : Survives identity files allowed' := by
  refine ⟨h.lossy, fun d w hd hw => ?_⟩
  obtain ⟨commits, c, db, sb, slot, hleft, hallowed⟩ := h.left d w hd hw
  exact ⟨commits, c, db, sb, slot, hleft, himp _ _ hallowed⟩

/-- The database is as before a chain of batches or as after one of them. -/
def AfterSome (c : Contents) (db : ReferenceDb) (chain : List (PreparedBatch × ReferenceDb)) (top : Lsn)
    (documents : ReferenceDb) : Prop :=
  ∃ k ≤ chain.length, top = (c.afterAll (chain.take k)).top ∧ documents = documentsAfter db (chain.take k)

omit [Crc32c] in
theorem AfterSome.nil {top : Lsn} {documents : ReferenceDb} (h : AfterSome c db [] top documents) :
    top = c.top ∧ documents = db := by
  obtain ⟨k, -, htop, hdocuments⟩ := h
  rw [List.take_nil] at htop hdocuments
  exact ⟨htop, hdocuments⟩

/-- A store whose log may have the first commits of a chain that its memory does not have. What its data file does not
hold of the contents it still has in memory. -/
structure Store.Interrupted (config : DatabaseConfig) (files : FileId → File) (s : Store) (commits : List WalCommit)
    (c : Contents) (db : ReferenceDb) (chain : List (PreparedBatch × ReferenceDb)) : Prop where
  ledger : Ledger config.identity commits c db s.currentSuperblock s.activeSlot
  logged : s.wal.isSome = true
  water : s.highWaterPageId = c.highWaterPageId
  images : imageBytes commits ≤ maxFileLength
  unwritten : s.Unwritten commits c (files .data)
  chained : Chain s.base c chain
  base : s.base.Continues c s.currentSuperblock s.activeSlot
  log : ∀ w, (files .wal).TailLoss w → w.length ≤ maxFileLength ∧ ∃ n,
    LogLeft config.identity s.currentSuperblock.checkpointLsn (commits ++ (chainCommits chain).take n) w

theorem Store.Interrupted.survives (h : s.Interrupted config files commits c db chain) :
    Survives config.identity files (AfterSome c db chain) := by
  refine ⟨⟨_, h.unwritten.disk.stable.loses⟩, fun d w hd hw => ?_⟩
  obtain ⟨hlength, n, hlog⟩ := h.log w hw
  have hdisk := h.unwritten.disk.loss h.ledger.history.records.encodable hd
  obtain ⟨k, hk, commits', sb', slot', hleft⟩ := h.chained.left h.ledger h.base hdisk hlog hlength
  exact ⟨commits', _, _, sb', slot', hleft, k, hk, rfl, rfl⟩

theorem Store.Interrupted.setBroken (h : s.Interrupted config files commits c db chain) (broken : Option String) :
    Store.Interrupted config files {s with broken} commits c db chain :=
  ⟨h.ledger, h.logged, h.water, h.images, ⟨h.unwritten.disk, h.unwritten.kept, h.unwritten.slot⟩, h.chained, h.base, h.log⟩

namespace Store.Steady

theorem continues (h : s.Steady config files commits c db) : s.base.Continues c s.currentSuperblock s.activeSlot := by
  obtain ⟨wal, start, items, hwal, hopened, -, hlsn, hbatch⟩ := h.log
  have hlogged : s.wal.isSome = true := by
    rw [hwal]
    rfl
  refine ⟨hlogged, rfl, rfl, h.serves.lsn hlogged, ?_⟩
  show s.nextBatchId ≤ s.nextLsn
  rw [hlsn, hbatch, hopened.holds.nextBatchId]
  exact (hopened.ids.next hopened.holds.sound).trans hopened.holds.nextLsn

theorem unwritten (h : s.Steady config files commits c db) : s.Unwritten commits c (files .data) := by
  obtain ⟨d, hd, hdisk⟩ := h.data
  refine ⟨?_, h.serves.kept, h.slot⟩
  rw [hd]
  exact hdisk.file

/-- A store with nothing that its memory does not have. -/
theorem interrupted (h : s.Steady config files commits c db) : s.Interrupted config files commits c db [] := by
  obtain ⟨wal, start, items, hwal, hopened, hfile, -, -⟩ := h.log
  refine ⟨h.ledger, by rw [hwal]; rfl, h.serves.remembers.highWaterPageId, hopened.imageBytes_le, h.unwritten,
    .nil _ _, h.continues, fun w hw => ?_⟩
  rw [hfile] at hw
  rw [tailLoss_ofDurable hw]
  refine ⟨hopened.length, 0, ?_⟩
  rw [List.take_zero, List.append_nil, ← hopened.commits]
  exact .whole hopened.start_le hopened.holds.sound hopened.ids

theorem survives (h : s.Steady config files commits c db) :
    Survives config.identity files fun top documents => top = c.top ∧ documents = db :=
  h.interrupted.survives.mono fun _ _ hafter => hafter.nil

theorem recached (h : s.Steady config files commits c db) {m : Machine FileId Store} (hm : s.Recached files c m) :
    m.memory.Steady config m.files commits c db ∧ m.memory.base = s.base := by
  obtain ⟨hserves, hbase⟩ := h.serves.recached hm
  obtain ⟨hfiles, cache, -, hmemory⟩ := hm
  rw [hmemory, hfiles] at hserves ⊢
  exact ⟨⟨⟨h.ledger, hserves, h.configured, h.serving, h.data, h.slot⟩, h.log⟩, rfl⟩

end Store.Steady

/-! ### Publication -/

/-- What is left of a log by an append that did not succeed has the first commits of the chain. -/
theorem Chain.appending (h : Chain b c chain) (hbase : b.Continues c sb slot) {wal : WalLog} {start : Lsn}
    {items : List WalItem} (hopened : OpenedLog identity sb.checkpointLsn commits wal start items) (hstart : start < wal.nextLsn)
    (hnext : b.nextLsn = wal.nextLsn) (hbatch : b.nextBatchId = wal.nextBatchId) {f : File}
    (hf : Appending identity start items (chainCommits chain) f) :
    ∀ w, f.TailLoss w → w.length ≤ maxFileLength ∧ ∃ n,
      LogLeft identity sb.checkpointLsn (commits ++ (chainCommits chain).take n) w := by
  intro w hw
  have hcontinues := h.continues hbase
  rw [hnext, hbatch] at hcontinues
  have hsound := hopened.holds.written hstart hcontinues
  have hids : Numbered (items ++ writtenItems (chainCommits chain)) := by
    intro i hi
    obtain hi | hi := List.mem_append.mp hi
    · exact hopened.ids i hi
    · exact hcontinues.numbered (hnext ▸ hbatch ▸ hbase.batchId) i hi
  refine ⟨?_, ?_⟩
  · obtain rfl | ⟨n, -, rfl⟩ := hw
    · exact hf.durable
    · exact (List.length_take_le' _ _).trans hf.length
  · obtain ⟨t, ht, rfl⟩ := hf.left w hw
    have hlength := length_logBytes identity start items
    obtain ⟨extra, rfl⟩ : ∃ extra, t = initFrameSize + (framesLength (itemsFrames items) + extra) :=
      ⟨t - (logBytes identity start items).length, by omega⟩
    have hprefix := (committedItems_cutItems_isPrefix (writtenItems (chainCommits chain)) extra).trans
      (committedItems_written_isPrefix (chainCommits chain))
    refine ⟨(committedItems (cutItems extra (writtenItems (chainCommits chain)))).length,
      .log start _ _ hopened.start_le (Nat.le_add_right _ _) hsound hids rfl ?_⟩
    rw [Nat.add_sub_cancel_left, cutItems_append, committedItems_append, hopened.commits,
      ← List.prefix_iff_eq_take.mp hprefix]

/-- Publishing a chain on a steady store: it is in the log and in memory; or the append has failed and the store no longer
serves; or the process has stopped in it. -/
theorem Store.publishPreparedGroup_spec (hs : s.Steady config files commits c db) (hchain : Chain s.base c chain)
    (hne : chain ≠ []) {faulted : Bool} :
    Io.Spec (Machine.At files s faulted) (publishPreparedGroup (chain.map Prod.fst))
      (fun _ m => m.memory.Steady config m.files (commits ++ chainCommits chain) (c.afterAll chain)
        (documentsAfter db chain) ∧ m.memory.currentSuperblock.sealed = m.memory.currentSuperblock ∧ m.faulted = faulted)
      (fun _ m => m.memory.broken.isSome = true ∧ m.memory.Interrupted config m.files commits c db chain)
      (fun m => s.Interrupted config m.files commits c db chain) := by
  obtain ⟨wal, start, items, hwal, hopened, hfile, hnext, hbatch⟩ := hs.log
  have hbase := hs.continues
  have hlogged : s.wal.isSome = true := hbase.logged
  have hcontinues := hchain.continues hbase
  have hbaseLsn : s.base.nextLsn = wal.nextLsn := hnext
  have hbaseBatch : s.base.nextBatchId = wal.nextBatchId := hbatch
  rw [hbaseLsn, hbaseBatch] at hcontinues
  have hstart : start < wal.nextLsn :=
    (hopened.start_le.trans hs.ledger.checkpoint).trans_lt (hbaseLsn ▸ hbase.lsn)
  have hcommits : chainCommits chain ≠ [] := by
    rw [chainCommits]
    exact mt List.map_eq_nil_iff.mp hne
  have hchanged : ¬((chain.map Prod.fst).all fun candidate => candidate.changedPages.isEmpty) = true := by
    cases hchain with
    | nil => exact absurd rfl hne
    | cons hfirst hvalid hrest =>
      rw [List.map_cons, List.all_cons, hfirst.changes]
      exact Bool.false_ne_true
  have hinterrupted : ∀ {f : File} {x : Store}, Appending config.identity start items (chainCommits chain) f →
      (∃ broken, x = {s with broken}) → x.Interrupted config (Function.update files .wal f) commits c db chain := by
    intro f x hf hx
    obtain ⟨broken, rfl⟩ := hx
    have hsteady := (hs.interrupted).setBroken broken
    refine ⟨hsteady.ledger, hsteady.logged, hsteady.water, hsteady.images, ?_, hchain, hbase, ?_⟩
    · rw [Function.update_of_ne (by decide)]
      exact hsteady.unwritten
    · rw [Function.update_self]
      exact hchain.appending hbase hopened hstart hbaseLsn hbaseBatch hf
  have hsame : ∀ {log : WalLog}, Store.base {s with wal := some log} = s.base := by
    intro log
    unfold Store.base
    rw [hlogged]
    rfl
  unfold publishPreparedGroup requireServing
  rw [bind_assoc]
  refine memory_bind_spec ?_
  rw [hs.serving]
  simp only [pure_bind]
  refine memory_bind_spec ?_
  have hgenerations : checkGenerations s.currentSuperblock.generation (chain.map Prod.fst) = .ok () :=
    hchain.checkGenerations
  rw [hgenerations, Io.ofExcept_ok, pure_bind, if_neg hchanged, hlogged, hchain.encodeGroup, Io.ofExcept_ok, pure_bind, hwal]
  dsimp only
  have happend := appendGroup_spec (x := s) (b := faulted) hopened.holds hcommits hcontinues hfile hopened.length
  refine Io.Spec.bind ((Store.orBreak_spec happend).conseq (fun _ hm => hm) (fun _ _ hm => hm) (fun e m hm => ?_)
    fun m hm => ?_) fun wal' => ?_
  · obtain ⟨error, m', ⟨f, b', -, hf, hm'⟩, rfl⟩ := hm
    refine ⟨rfl, ?_⟩
    rw [Machine.memory_setMemory, Machine.files_setMemory, hm'.files, hm'.memory]
    exact hinterrupted hf ⟨_, rfl⟩
  · obtain ⟨f, hf, hm⟩ := hm
    rw [hm.files]
    exact hinterrupted hf ⟨_, rfl⟩
  · refine Io.Spec.of_start fun m₀ hm₀ => ?_
    obtain ⟨rfl, hcount, hlength, hm₀⟩ := hm₀
    refine Io.Spec.pre ?_ fun m hm => hm ▸ hm₀
    refine modifyMemory_bind_spec fun m hm => ?_
    rw [hchain.publishCandidates hbase]
    show Store.Steady config m.files (m.memory.publishedAll chain) _ _ _ ∧ _ ∧ m.faulted = faulted
    rw [hm.files, hm.memory]
    refine ⟨?_, hchain.sealed hne, hm.faulted⟩
    obtain ⟨hpublished, hcounters, hcheckpoint⟩ := hchain.holding (hs.toHolding.setLog hlogged _ _) hsame (hsame ▸ hbase)
    refine ⟨hpublished, _, start, items ++ (chainCommits chain).map .ofCommit, Chain.wal_publishedAll _ _, ?_,
      Function.update_self .., ?_, ?_⟩
    · rw [hcheckpoint]
      exact hopened.append hstart hcommits hcontinues hcount (hbaseLsn ▸ hbaseBatch ▸ hbase.batchId) hlength
    · rw [hbaseLsn, hbaseBatch] at hcounters
      exact (congrArg Prod.fst hcounters).symm
    · rw [hbaseLsn, hbaseBatch] at hcounters
      exact (congrArg Prod.snd hcounters).symm

end Chains

end Dodb
