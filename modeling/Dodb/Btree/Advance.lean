import Dodb.Btree.Running

/-! One commit more.

A batch that commits is in the log as the images of its pages and of its superblock. Where the log has them, a data file
that holds the contents of before holds those of after the commit: each page the batch changes is behind its last image,
and the superblock is one of before. So a ledger and its data file go on by a commit without a write to the data file, and
by a chain of them, each prepared on the one before (`Chain`). -/
namespace Dodb
open Lib File

variable [Crc32c]

/-! ### The commit in the log -/

/-- The commit that the log gets for a batch. -/
def PreparedBatch.walCommit (prepared : PreparedBatch) : WalCommit where
  batchId := prepared.batchId
  commitLsn := prepared.commitLsn.getD 0
  pages := prepared.changedPages.entries.map (fun entry => ⟨entry.1, entry.2⟩) ++
    [⟨prepared.newSlot.pageId, superblockPage prepared.newSuperblock⟩]

theorem PreparedBatch.mem_pages {prepared : PreparedBatch} {p : PageId} {bytes : Bytes} :
    ⟨p, bytes⟩ ∈ prepared.walCommit.pages ↔ prepared.changedPages.get? p = some bytes ∨
      p = prepared.newSlot.pageId ∧ bytes = superblockPage prepared.newSuperblock := by
  rw [PreparedBatch.walCommit, List.mem_append, List.mem_map, List.mem_singleton, SortedMap.get?_eq_some_iff]
  refine or_congr ⟨fun h => ?_, fun h => ⟨_, h, rfl⟩⟩ (by rw [WalPageImage.mk.injEq])
  obtain ⟨entry, hentry, heq⟩ := h
  cases heq
  exact hentry

theorem PreparedBatch.mem_pages_data {prepared : PreparedBatch} {p : PageId} (hp : firstDataPage ≤ p) {bytes : Bytes} :
    ⟨p, bytes⟩ ∈ prepared.walCommit.pages ↔ prepared.changedPages.get? p = some bytes := by
  rw [PreparedBatch.mem_pages]
  refine or_iff_left fun hslot => ?_
  exact absurd (hslot.1 ▸ hp) prepared.newSlot.not_data

theorem PreparedBatch.length_pages (prepared : PreparedBatch) :
    prepared.walCommit.pages.length = prepared.changedPages.size + 1 := by
  simp [PreparedBatch.walCommit, SortedMap.size]

/-- What the batches after this one are numbered by. -/
def Base.after (b : Base) (prepared : PreparedBatch) : Base :=
  ⟨b.logged, prepared.nextRevision, b.nextBatchId + 1, prepared.newSuperblock, prepared.newSlot⟩

/-- The numbers of a base go on from a ledger. -/
structure Base.Continues (b : Base) (c : Contents) (sb : Superblock) (slot : SuperblockSlot) : Prop where
  logged : b.logged = true
  superblock : b.superblock = sb
  slot : b.slot = slot
  lsn : c.top < b.nextLsn
  batchId : b.nextBatchId ≤ b.nextLsn

section Commit
variable {b : Base} {c : Contents} {committed : Lsn} {prepared : PreparedBatch} {identity : WalIdentity}
  {commits : List WalCommit} {db db' : ReferenceDb} {sb : Superblock} {slot : SuperblockSlot}

namespace Commits

theorem top (h : Commits b c committed prepared) : (c.after prepared).top = committed := by
  show prepared.nextRevision - 1 = committed
  rw [h.nextRevision, Nat.add_sub_cancel]

theorem walCommit_lsn (h : Commits b c committed prepared) : prepared.walCommit.commitLsn = committed := by
  show prepared.commitLsn.getD 0 = committed
  rw [h.commitLsn]
  rfl

theorem data_of_changed (h : Commits b c committed prepared) {p : PageId} {bytes : Bytes}
    (hp : prepared.changedPages.get? p = some bytes) : firstDataPage ≤ p ∧ p ≤ prepared.highWaterPageId :=
  (h.image p bytes hp).1

theorem mem_pages_slot (h : Commits b c committed prepared) {s : SuperblockSlot} {bytes : Bytes} :
    ⟨s.pageId, bytes⟩ ∈ prepared.walCommit.pages ↔
      s = prepared.newSlot ∧ bytes = superblockPage prepared.newSuperblock := by
  rw [PreparedBatch.mem_pages]
  constructor
  · intro hmem
    obtain hdata | ⟨hslot, hbytes⟩ := hmem
    · exact absurd (h.data_of_changed hdata).1 s.not_data
    · exact ⟨SuperblockSlot.pageId_injective hslot, hbytes⟩
  · intro hslot
    exact .inr ⟨congrArg _ hslot.1, hslot.2⟩

theorem nodup (h : Commits b c committed prepared) : (prepared.walCommit.pages.map WalPageImage.pageId).Nodup := by
  have hkeys : prepared.walCommit.pages.map WalPageImage.pageId =
      prepared.changedPages.keys ++ [prepared.newSlot.pageId] := by
    simp [PreparedBatch.walCommit, SortedMap.keys, Function.comp_def]
  rw [hkeys, List.nodup_append]
  refine ⟨prepared.changedPages.keys_nodup, List.nodup_singleton _, fun p hp q hq => ?_⟩
  obtain ⟨bytes, hbytes⟩ := Option.isSome_iff_exists.mp ((prepared.changedPages.mem_keys_iff p).mp hp)
  rw [List.mem_singleton.mp hq]
  rintro rfl
  exact prepared.newSlot.not_data (h.data_of_changed hbytes).1

/-- The log accepts the images of the batch. -/
theorem page (h : Commits b c committed prepared) : ∀ page ∈ prepared.walCommit.pages,
    page.image.length = pageSize ∧ validatePageImage page = .ok () ∧
      validatePageImageLsn page prepared.walCommit.commitLsn = .ok () := by
  intro page hpage
  obtain hdata | ⟨hslot, hbytes⟩ := PreparedBatch.mem_pages.mp hpage
  · obtain ⟨hrange, decoded, -, himage, hlsn⟩ := h.image _ _ hdata
    have haccepted := himage.accepted hrange.1
    rw [hlsn, ← h.walCommit_lsn] at haccepted
    exact ⟨himage.length, haccepted⟩
  · have hsuper : page.isSuperblock = true := by
      rw [isSuperblock_iff, hslot]
      exact prepared.newSlot.pageId_lt
    unfold validatePageImage validatePageImageLsn
    rw [if_pos hsuper, if_pos hsuper, hbytes, decodeSuperblock_superblockPage h.records.encodable]
    exact ⟨length_superblockPage _, rfl, rfl⟩

theorem begun (h : Commits b c committed prepared) (hbase : b.Continues c sb slot) : prepared.walCommit.Begun where
  pages_ne := by simp [PreparedBatch.walCommit]
  image page hpage := (h.page page hpage).2.1
  imageLsn page hpage := (h.page page hpage).2.2
  lsn := by
    rw [prepared.length_pages, h.walCommit_lsn, h.numbered hbase.logged]
    lia
  lsn_lt := by
    rw [h.walCommit_lsn]
    exact h.lsn
  batchId_lt := by
    have hlsn := h.lsn
    have hbatchId := hbase.batchId
    rw [h.numbered hbase.logged] at hlsn
    show prepared.batchId < u64Max
    rw [h.batchId]
    lia

theorem firstLsn (h : Commits b c committed prepared) (hlogged : b.logged = true) :
    prepared.walCommit.firstLsn = b.nextLsn := by
  unfold WalCommit.firstLsn
  rw [prepared.length_pages, h.walCommit_lsn, h.numbered hlogged]
  lia

theorem after_continues (h : Commits b c committed prepared) (hbase : b.Continues c sb slot) :
    (b.after prepared).Continues (c.after prepared) prepared.newSuperblock prepared.newSlot where
  logged := hbase.logged
  superblock := rfl
  slot := rfl
  lsn := by
    rw [h.top]
    show committed < prepared.nextRevision
    rw [h.nextRevision]
    exact Nat.lt_succ_self _
  batchId := by
    show b.nextBatchId + 1 ≤ prepared.nextRevision
    have hbatchId := hbase.batchId
    rw [h.nextRevision, h.numbered hbase.logged]
    lia

end Commits

/-! ### The last image of a page -/

omit [Crc32c] in
theorem redoImages_append (commits more : List WalCommit) :
    redoImages (commits ++ more) = redoImages commits ++ redoImages more := List.flatMap_append

omit [Crc32c] in
theorem lastImage_concat_of_mem {commit : WalCommit} {p : PageId} {bytes : Bytes} (hmem : ⟨p, bytes⟩ ∈ commit.pages)
    (hunique : ∀ other, ⟨p, other⟩ ∈ commit.pages → other = bytes) :
    lastImage (commits ++ [commit]) p = some (commit.commitLsn, bytes) := by
  have himages : (commit.commitLsn, bytes) ∈ imagesOf p (redoImages [commit]) :=
    mem_images.mpr ⟨commit, List.mem_singleton_self _, rfl, hmem⟩
  obtain ⟨last, hlast⟩ := Option.ne_none_iff_exists'.mp (mt List.getLast?_eq_none_iff.mp (List.ne_nil_of_mem himages))
  obtain ⟨found, hfound, hlsn, hpage⟩ := mem_images.mp (List.mem_of_getLast? hlast)
  rw [List.mem_singleton.mp hfound] at hlsn hpage
  rw [lastImage, redoImages_append, imagesOf_append, List.getLast?_append, hlast]
  show some last = _
  rw [hlsn, ← hunique last.2 hpage]

omit [Crc32c] in
theorem lastImage_concat_of_not_mem {commit : WalCommit} {p : PageId} (hnone : ∀ bytes, ⟨p, bytes⟩ ∉ commit.pages) :
    lastImage (commits ++ [commit]) p = lastImage commits p := by
  have himages : imagesOf p (redoImages [commit]) = [] := by
    refine List.eq_nil_iff_forall_not_mem.mpr fun image himage => ?_
    obtain ⟨found, hfound, -, hpage⟩ := mem_images.mp himage
    rw [List.mem_singleton.mp hfound] at hpage
    exact hnone _ hpage
  rw [lastImage, redoImages_append, imagesOf_append, himages, List.append_nil]
  rfl

theorem Commits.lastImage_changed (h : Commits b c committed prepared) {p : PageId} {bytes : Bytes}
    (hp : prepared.changedPages.get? p = some bytes) :
    lastImage (commits ++ [prepared.walCommit]) p = some (committed, bytes) := by
  have hdata := (h.data_of_changed hp).1
  rw [lastImage_concat_of_mem ((PreparedBatch.mem_pages_data hdata).mpr hp), h.walCommit_lsn]
  intro other hother
  rw [PreparedBatch.mem_pages_data hdata, hp] at hother
  exact (Option.some.inj hother).symm

theorem PreparedBatch.lastImage_unchanged {p : PageId} (hdata : firstDataPage ≤ p)
    (hp : prepared.changedPages.get? p = none) :
    lastImage (commits ++ [prepared.walCommit]) p = lastImage commits p := by
  refine lastImage_concat_of_not_mem fun bytes hmem => ?_
  rw [PreparedBatch.mem_pages_data hdata, hp] at hmem
  cases hmem

/-! ### The ledger and the data file -/

namespace Ledger

theorem commit_le (h : Ledger identity commits c db sb slot) {commit : WalCommit} (hcommit : commit ∈ commits) :
    commit.commitLsn ≤ c.top := by
  obtain ⟨last, hlast⟩ := Option.ne_none_iff_exists'.mp (mt List.getLast?_eq_none_iff.mp (List.ne_nil_of_mem hcommit))
  rw [h.top, lastLsn, hlast]
  exact le_of_sorted_getLast? h.history.redoable.sorted hlast hcommit

theorem lastImage_le (h : Ledger identity commits c db sb slot) {p : PageId} {lsn : Lsn} {bytes : Bytes}
    (hlast : lastImage commits p = some (lsn, bytes)) : lsn ≤ c.top := by
  obtain ⟨commit, hcommit, rfl, -⟩ := mem_images.mp (List.mem_of_getLast? hlast)
  exact h.commit_le hcommit

end Ledger

theorem Commits.before (h : Commits b c committed prepared) (hbase : b.Continues c sb slot) (hsb : sb.Encodable) :
    sb.Before prepared.newSuperblock := by
  rw [h.superblock, hbase.superblock]
  exact ⟨hsb, rfl, Nat.lt_succ_self _, le_rfl⟩

omit [Crc32c] in
theorem Superblock.Before.trans {old mid new : Superblock} (h : old.Before mid) (h' : mid.Before new) : old.Before new :=
  ⟨h.encodable, h.identity.trans h'.identity, h.generation.trans h'.generation, h.checkpointLsn.trans h'.checkpointLsn⟩

/-- What a slot holds is of before, once there is a superblock after it. -/
theorem SlotHolds.before_of {sb' : Superblock} {slot' s : SuperblockSlot} {bytes : Bytes} (h : SlotHolds sb slot s bytes)
    (hsb : sb.Before sb') : SlotHolds sb' slot' s bytes := by
  cases h with
  | current h _ => exact .before sb h hsb
  | before old h hold => exact .before old h (hold.trans hsb)
  | torn hheaded hrefused => exact .torn hheaded hrefused

theorem pageVersion_zeros (p : PageId) : pageVersion p (zeros pageSize) = none := by
  obtain ⟨e, he⟩ := decodePageAt_zeros (some p)
  unfold pageVersion
  rw [he]
  split <;> rfl

theorem Image.version {p : PageId} {page : PageData} {bytes : Bytes} (h : Image p page bytes) (hp : firstDataPage ≤ p) :
    pageVersion p bytes = some page.lsn := by
  obtain ⟨decoded, hdecoded, hlsn⟩ := h.header
  unfold pageVersion
  rw [if_neg (Nat.not_lt.mpr hp), hdecoded, ← hlsn]

/-- What may stand in the place of a page may stand there after the commit. -/
theorem PageHolds.commit {p : PageId} {bytes : Bytes} (h : PageHolds commits c sb.checkpointLsn p bytes)
    (hledger : Ledger identity commits c db sb slot) (hcommits : Commits b c committed prepared)
    (hp : firstDataPage ≤ p) (hle : p ≤ c.highWaterPageId) :
    PageHolds (commits ++ [prepared.walCommit]) (c.after prepared) sb.checkpointLsn p bytes := by
  cases hget : prepared.changedPages.get? p with
  | none =>
    have himage : (c.after prepared).image p = c.image p := by
      show (prepared.changedPages.get? p).getD (c.image p) = c.image p
      rw [hget]
      rfl
    unfold PageHolds
    rw [PreparedBatch.lastImage_unchanged hp hget, himage]
    exact h
  | some new =>
    have himage : (c.after prepared).image p = new := by
      show (prepared.changedPages.get? p).getD (c.image p) = new
      rw [hget]
      rfl
    refine .inr ⟨committed, ?_, hledger.checkpoint.trans_lt hcommits.newer, fun v hv => ?_⟩
    · rw [himage]
      exact hcommits.lastImage_changed hget
    -- Whatever is there is of an earlier commit.
    obtain rfl | ⟨lsn, hlast, -, hbehind⟩ := h
    · obtain ⟨page, hpage, hlsn⟩ := hledger.valid.image p hp hle
      rw [hpage.version hp] at hv
      cases hv
      exact hlsn.trans_lt hcommits.newer
    · exact (hbehind v hv).trans_le ((hledger.lastImage_le hlast).trans hcommits.newer.le)

/-- A page the commit adds to the file is behind its image. -/
theorem Commits.page_fresh (h : Commits b c committed prepared) (hledger : Ledger identity commits c db sb slot)
    {p : PageId} (hnew : c.highWaterPageId < p) (hle : p ≤ prepared.highWaterPageId) :
    PageHolds (commits ++ [prepared.walCommit]) (c.after prepared) sb.checkpointLsn p (zeros pageSize) := by
  obtain ⟨bytes, hget⟩ := Option.ne_none_iff_exists'.mp (h.fresh p hnew hle)
  have himage : (c.after prepared).image p = bytes := by
    show (prepared.changedPages.get? p).getD (c.image p) = bytes
    rw [hget]
    rfl
  refine .inr ⟨committed, ?_, hledger.checkpoint.trans_lt h.newer, Behind.of_unreadable (pageVersion_zeros p) _⟩
  rw [himage]
  exact h.lastImage_changed hget

theorem Commits.checkpointLsn (h : Commits b c committed prepared) (hbase : b.Continues c sb slot) :
    prepared.newSuperblock.checkpointLsn = sb.checkpointLsn := by
  rw [h.superblock, hbase.superblock]
  rfl

theorem Commits.busy (h : Commits b c committed prepared) (hbase : b.Continues c sb slot)
    (hledger : Ledger identity commits c db sb slot) :
    ¬Idle (commits ++ [prepared.walCommit]) prepared.newSuperblock := by
  intro hidle
  have hle := hidle prepared.walCommit (List.mem_append_right _ (List.mem_singleton_self _))
  rw [h.walCommit_lsn, h.checkpointLsn hbase] at hle
  exact absurd (hledger.checkpoint.trans_lt h.newer) (Nat.not_lt.mpr hle)

theorem BlockHolds.commit {i : Nat} {bytes : Bytes} (h : BlockHolds commits c sb slot i bytes)
    (hledger : Ledger identity commits c db sb slot) (hcommits : Commits b c committed prepared)
    (hbase : b.Continues c sb slot) (hle : i ≤ c.highWaterPageId) :
    BlockHolds (commits ++ [prepared.walCommit]) (c.after prepared) prepared.newSuperblock prepared.newSlot i bytes where
  slots s hs := (h.slots s hs).before_of (hcommits.before hbase hledger.history.records.encodable)
  current _ hidle := absurd hidle (hcommits.busy hbase hledger)
  page hp := by
    rw [hcommits.checkpointLsn hbase]
    exact (h.page hp).commit hledger hcommits hp hle

/-- A data file that holds the contents holds those after the commit, once the log has it. -/
theorem Commits.blocks (hcommits : Commits b c committed prepared) {d : Bytes}
    (h : Blocks pageSize (BlockHolds commits c sb slot) ((c.highWaterPageId + 1) * pageSize) d)
    (hledger : Ledger identity commits c db sb slot) (hbase : b.Continues c sb slot) :
    Blocks pageSize (BlockHolds (commits ++ [prepared.walCommit]) (c.after prepared) prepared.newSuperblock
      prepared.newSlot) ((prepared.highWaterPageId + 1) * pageSize) d := by
  have hwithin : ∀ {i n : Nat}, (i + 1) * pageSize ≤ (n + 1) * pageSize → i ≤ n := fun hle =>
    Nat.le_of_succ_le_succ (Nat.le_of_mul_le_mul_right hle (by decide))
  have hrises : (c.highWaterPageId + 1) * pageSize ≤ (prepared.highWaterPageId + 1) * pageSize :=
    Nat.mul_le_mul_right _ (Nat.succ_le_succ hcommits.rises)
  refine .of_blocks h.aligned (h.le.trans hrises) (fun i hi => ?_) fun i hi hout => ?_
  · exact (h.at_ hi).commit hledger hcommits hbase (hwithin (hi.trans h.le))
  · by_cases hold : i ≤ c.highWaterPageId
    · exact (h.zeros (Nat.mul_le_mul_right _ (Nat.succ_le_succ hold)) hout).commit hledger hcommits hbase hold
    · have hdata := hledger.valid.firstDataPage_le
      refine .of_page ((hdata.1.trans hdata.2).trans (Nat.not_le.mp hold).le) ?_
      rw [hcommits.checkpointLsn hbase]
      exact hcommits.page_fresh hledger (Nat.not_le.mp hold) (hwithin hi)

theorem Disk.commit {d : Bytes} (h : Disk d commits c sb slot) (hledger : Ledger identity commits c db sb slot)
    (hcommits : Commits b c committed prepared) (hbase : b.Continues c sb slot) :
    Disk d (commits ++ [prepared.walCommit]) (c.after prepared) prepared.newSuperblock prepared.newSlot :=
  ⟨h.whole, h.fits, hcommits.blocks h.blocks hledger hbase⟩

theorem History.commit (h : Ledger identity commits c db sb slot) (hcommits : Commits b c committed prepared)
    (hbase : b.Continues c sb slot) :
    History (commits ++ [prepared.walCommit]) (c.after prepared) prepared.newSuperblock prepared.newSlot where
  redoable := by
    refine ⟨?_, fun batch hbatch => ?_⟩
    · rw [List.map_append, List.pairwise_append]
      refine ⟨h.history.redoable.sorted, List.pairwise_singleton _ _, fun lsn hlsn last hlast => ?_⟩
      obtain ⟨commit, hcommit, rfl⟩ := List.mem_map.mp hlsn
      rw [List.map_singleton, List.mem_singleton] at hlast
      rw [hlast, hcommits.walCommit_lsn]
      exact (h.commit_le hcommit).trans_lt hcommits.newer
    · obtain hbatch | hbatch := List.mem_append.mp hbatch
      · exact h.history.redoable.page batch hbatch
      · rw [List.mem_singleton.mp hbatch]
        exact hcommits.page
  nodup commit hcommit := by
    obtain hcommit | hcommit := List.mem_append.mp hcommit
    · exact h.history.nodup commit hcommit
    · rw [List.mem_singleton.mp hcommit]
      exact hcommits.nodup
  range commit hcommit page hpage := by
    obtain hcommit | hcommit := List.mem_append.mp hcommit
    · exact (h.history.range commit hcommit page hpage).trans hcommits.rises
    · rw [List.mem_singleton.mp hcommit] at hpage
      obtain hdata | ⟨hslot, -⟩ := PreparedBatch.mem_pages.mp hpage
      · exact (hcommits.data_of_changed hdata).2
      · have hdata := h.valid.firstDataPage_le
        rw [hslot]
        exact (prepared.newSlot.pageId_lt.le.trans (hdata.1.trans hdata.2)).trans hcommits.rises
  last p hp lsn bytes hlast := by
    show bytes = (prepared.changedPages.get? p).getD (c.image p)
    cases hget : prepared.changedPages.get? p with
    | none =>
      rw [PreparedBatch.lastImage_unchanged hp hget] at hlast
      exact h.history.last p hp lsn bytes hlast
    | some new =>
      rw [hcommits.lastImage_changed hget] at hlast
      cases hlast
      rfl
  slots commit hcommit page hpage s hs := by
    obtain hcommit | hcommit := List.mem_append.mp hcommit
    · exact (h.history.slots commit hcommit page hpage s hs).before_of
        (hcommits.before hbase h.history.records.encodable)
    · rw [List.mem_singleton.mp hcommit] at hpage
      have hpage' : ⟨s.pageId, page.image⟩ ∈ prepared.walCommit.pages := by
        rw [← hs]
        exact hpage
      obtain ⟨hslot, hbytes⟩ := hcommits.mem_pages_slot.mp hpage'
      exact .current hbytes (.inl hslot)
  records := hcommits.records
  newest commit hlast _ := by
    rw [List.getLast?_concat] at hlast
    cases hlast
    exact hcommits.mem_pages_slot.mpr ⟨rfl, rfl⟩

/-- A ledger goes on by a commit. -/
theorem Ledger.commit (h : Ledger identity commits c db sb slot) (hcommits : Commits b c committed prepared)
    (hbase : b.Continues c sb slot) (hvalid : (c.after prepared).Valid db') :
    Ledger identity (commits ++ [prepared.walCommit]) (c.after prepared) db' prepared.newSuperblock prepared.newSlot where
  valid := hvalid
  history := History.commit h hcommits hbase
  identity := by
    rw [hcommits.superblock, hbase.superblock]
    exact h.identity
  top := by
    rw [hcommits.top, lastLsn, List.getLast?_concat]
    exact hcommits.walCommit_lsn.symm
  checkpoint := by
    rw [hcommits.top, hcommits.checkpointLsn hbase]
    exact h.checkpoint.trans hcommits.newer.le
  lsn := by
    rw [hcommits.top]
    exact hcommits.lsn
  generation := by
    have hgeneration := h.generation
    have hnewer := hcommits.newer
    rw [hcommits.top, hcommits.superblock, hbase.superblock]
    show sb.generation + 1 ≤ committed + 1
    lia
  renewed _ := by
    have hgeneration := h.generation
    have hnumbered := hcommits.numbered hbase.logged
    have hlsn := hbase.lsn
    rw [hcommits.top, hcommits.superblock, hbase.superblock]
    show sb.generation + 1 ≤ committed
    lia
  water := by
    have hwater := h.water
    have hgrows := hcommits.grows
    have hnumbered := hcommits.numbered hbase.logged
    have hlsn := hbase.lsn
    rw [hcommits.top]
    show prepared.highWaterPageId ≤ committed + 2
    lia
  room := by
    have hroom := h.room
    have hgrows := hcommits.grows
    have hone : imageBytes [prepared.walCommit] = (prepared.changedPages.size + 1) * pageSize := by
      simp [imageBytes, prepared.length_pages]
    rw [imageBytes_append, hone]
    calc (prepared.highWaterPageId + 1) * pageSize
        ≤ (c.highWaterPageId + 1 + (prepared.changedPages.size + 1)) * pageSize := Nat.mul_le_mul_right _ (by lia)
      _ = (c.highWaterPageId + 1) * pageSize + (prepared.changedPages.size + 1) * pageSize := Nat.add_mul ..
      _ ≤ maxFileLength + imageBytes commits + (prepared.changedPages.size + 1) * pageSize := Nat.add_le_add_right hroom _
      _ = maxFileLength + (imageBytes commits + (prepared.changedPages.size + 1) * pageSize) := Nat.add_assoc ..

end Commit

end Dodb
