import Dodb.Btree.Batch
import Dodb.Btree.Commit

/-! The committed contents of a store.

`Contents` is what a database holds between two commits: the block of every data page and
the allocator state that goes with them. A store serves contents when each data page of
theirs is dirty in its memory or in its data file (`Store.Serves`). A batch is prepared on
the contents and on the counters it is numbered by (`Base`); it reads only, or it commits
(`Commits`) the contents `Contents.after`, which hold the map the batch makes. -/
namespace Dodb
open Lib PageProg SearchTree

/-! ### Trees on pages that read alike -/

/-- A tree is where its pages are. -/
theorem Healthy.congr {top : Lsn} {s s' : TreeStage} {t : Shape} {free : List PageId} (h : Healthy top s t free [])
    (hroot : s'.state.rootPageId = s.state.rootPageId) (hfree : s'.state.freeListHead = s.state.freeListHead)
    (hwater : s'.state.highWaterPageId = s.state.highWaterPageId) (hdirty : s'.dirty = .empty)
    (hview : ∀ p, firstDataPage ≤ p → p ≤ s.state.highWaterPageId → s'.view p = s.view p) :
    Healthy top s' t free [] where
  pages :=
    { cellsAt := fun c hc => (h.pages.cellsAt c hc).congr fun p hp =>
        hview p (h.pages.cell_range hc hp).1 (h.pages.cell_range hc hp).2
      valid := h.pages.valid
      freeHead := hfree.trans h.pages.freeHead
      freeAt := h.pages.freeAt.congr fun p hp =>
        hview p (h.pages.mem_range (.inr (.inl hp))).1 (h.pages.mem_range (.inr (.inl hp))).2
      space := by
        rw [hwater]
        exact h.pages.space
      highWater := by
        rw [hwater]
        exact h.pages.highWater
      dirty := fun p hp => by
        rw [hdirty] at hp
        cases hp }
  root := hroot.trans h.root
  low := h.low
  order := h.order
  linked := h.linked

theorem Item.state_restamp (provisional committed : Revision) (i : Item) :
    (i.restamp provisional committed).state = Overlay.restampState provisional committed i.state := by
  unfold Item.state Item.restamp
  cases i.value <;> rfl

theorem Item.revision_state (i : Item) : i.state.revision = i.revision := by
  unfold Item.state
  cases i.value <;> rfl

theorem Holds.restamp {db : ReferenceDb} {items : List Item} (h : Holds db items) (provisional committed : Revision) :
    Holds (db.restamp provisional committed) (items.map (Item.restamp provisional committed)) := by
  show List.map _ db.states.entries = _
  rw [h, List.map_map, List.map_map]
  refine List.map_congr_left fun i _ => ?_
  show (i.key, Overlay.restampState provisional committed i.state) = (i.key, (i.restamp provisional committed).state)
  rw [Item.state_restamp]

theorem Holds.mem_revision {db : ReferenceDb} {items : List Item} (h : Holds db items)
    {b : DocumentKey × RevisionState} (hb : b ∈ db.states.entries) : ∃ i ∈ items, i.revision = b.2.revision := by
  rw [h] at hb
  obtain ⟨i, hi, rfl⟩ := List.mem_map.mp hb
  exact ⟨i, hi, i.revision_state.symm⟩

theorem Healthy.item_revision_le {top : Lsn} {s : TreeStage} {t : Shape} {free : List PageId}
    (h : Healthy top s t free []) {i : Item} (hi : i ∈ t.items) : i.revision ≤ top := by
  obtain ⟨l, hl, hil⟩ := List.mem_flatMap.mp hi
  exact ((h.pages.valid _ (Shape.leaf_mem_cells hl)).2 i hil).1.2

theorem Healthy.root_range {top : Lsn} {s : TreeStage} {t : Shape} {free : List PageId}
    (h : Healthy top s t free []) : firstDataPage ≤ t.id ∧ t.id ≤ s.state.highWaterPageId := by
  cases t with
  | leaf l =>
    rw [Shape.id_leaf]
    exact h.leaf_range (by simp)
  | node i kids =>
    rw [Shape.id_node]
    refine h.pages.cell_range (c := .node i (kids.map Shape.ref)) ?_ (List.mem_singleton_self i)
    rw [Shape.cells_node]
    exact List.mem_cons_self

theorem Healthy.page_readable {top : Lsn} {s : TreeStage} {t : Shape} {free : List PageId} (h : Healthy top s t free [])
    {p : PageId} (hp : firstDataPage ≤ p ∧ p ≤ s.state.highWaterPageId) : ∃ page, s.view p = .ok page := by
  cases h.role hp with
  | leaf l hl hid =>
    obtain ⟨⟨lsn, _, hv⟩, _⟩ := h.pages.cellsAt _ (Shape.leaf_mem_cells hl)
    exact ⟨_, hid ▸ hv⟩
  | node refs hc =>
    obtain ⟨lsn, _, hv⟩ := h.pages.cellsAt _ hc
    exact ⟨_, hv⟩
  | chunk l i chunks hl hi hiv hpc =>
    have hchain : ChainAt top s.view (chunks.flatMap Prod.snd).length chunks :=
      (h.pages.cellsAt _ (Shape.leaf_mem_cells hl)).2 i hi _ hiv
    obtain ⟨_, _, _, ⟨_, _, hv⟩, _⟩ := hchain.page hpc
    exact ⟨_, hv⟩
  | free hfree =>
    obtain ⟨_, ⟨_, _, hv⟩, _⟩ := h.pages.freeAt.page hfree
    exact ⟨_, hv⟩

/-! ### Contents -/

/-- The blocks of the data pages, the allocator state, and the LSN of the last commit. -/
structure Contents where
  image : PageId → Bytes
  rootPageId : PageId
  freeListHead : Option PageId
  highWaterPageId : PageId
  top : Lsn

variable [Crc32c]

namespace Contents

def view (c : Contents) (p : PageId) : Result PageData :=
  if firstDataPage ≤ p ∧ p ≤ c.highWaterPageId then PageData.decodeAt p (c.image p)
  else .error (.corruption "unexpected end of database file")

def stage (c : Contents) : TreeStage :=
  ⟨c.view, .empty, ⟨c.rootPageId, c.freeListHead, c.highWaterPageId, c.top + 1, none⟩⟩

/-- The contents are those of a tree with the documents of `db`. -/
structure Valid (c : Contents) (db : ReferenceDb) : Prop where
  tree : ∃ t free, Healthy c.top c.stage t free [] ∧ Holds db t.items
  image : ∀ p, firstDataPage ≤ p → p ≤ c.highWaterPageId → ∃ page, Image p page (c.image p) ∧ page.lsn ≤ c.top
  attained : c.top ≠ 0 → db.Attains c.top
  water : c.highWaterPageId < nullPageId

theorem data_of_view {c : Contents} {p : PageId} {page : PageData} (h : c.view p = .ok page) :
    firstDataPage ≤ p ∧ p ≤ c.highWaterPageId := by
  by_contra hp
  rw [view, if_neg hp] at h
  cases h

theorem Valid.revision_le {c : Contents} {db : ReferenceDb} (h : c.Valid db) {b : DocumentKey × RevisionState}
    (hb : b ∈ db.states.entries) : b.2.revision ≤ c.top := by
  obtain ⟨t, free, hhealthy, hholds⟩ := h.tree
  obtain ⟨i, hi, hrevision⟩ := hholds.mem_revision hb
  rw [← hrevision]
  exact hhealthy.item_revision_le hi

theorem Valid.firstDataPage_le {c : Contents} {db : ReferenceDb} (h : c.Valid db) :
    firstDataPage ≤ c.rootPageId ∧ c.rootPageId ≤ c.highWaterPageId := by
  obtain ⟨t, free, hhealthy, _⟩ := h.tree
  have hroot : c.rootPageId = t.id := hhealthy.root
  rw [hroot]
  exact hhealthy.root_range

/-- The contents a prepared batch makes of these. -/
def after (c : Contents) (prepared : PreparedBatch) : Contents where
  image p := (prepared.changedPages.get? p).getD (c.image p)
  rootPageId := prepared.rootPageId
  freeListHead := prepared.freeListHead
  highWaterPageId := prepared.highWaterPageId
  top := prepared.nextRevision - 1

end Contents

/-! ### Stores that serve contents -/

/-- The superblock records the allocator state of the contents. -/
structure Superblock.Records (sb : Superblock) (c : Contents) : Prop where
  encodable : sb.Encodable
  rootPageId : sb.rootPageId = some c.rootPageId
  freeListHead : sb.freeListHead = c.freeListHead
  highWaterPageId : sb.highWaterPageId = some c.highWaterPageId

/-- Each data page of the contents is among the dirty pages or in the data file. -/
structure Contents.Kept (c : Contents) (file : File) (unwritten : SortedMap PageId Bytes) : Prop where
  dirty : ∀ p bytes, unwritten.get? p = some bytes → (firstDataPage ≤ p ∧ p ≤ c.highWaterPageId) ∧ bytes = c.image p
  clean : ∀ p, firstDataPage ≤ p → p ≤ c.highWaterPageId → unwritten.get? p = none →
    File.block pageSize file.volatile p = c.image p
  length : file.volatile.length ≤ (c.highWaterPageId + 1) * pageSize

namespace Store

/-- What the store keeps in memory of the contents. -/
structure Remembers (s : Store) (c : Contents) : Prop where
  cache : s.cache.Coherent c.view
  rootPageId : s.rootPageId = c.rootPageId
  freeListHead : s.freeListHead = c.freeListHead
  highWaterPageId : s.highWaterPageId = c.highWaterPageId
  nextRevision : s.nextRevision = c.top + 1
  superblock : s.currentSuperblock.Records c

/-- The store on these files holds the documents of `db`. -/
structure Serves (files : FileId → File) (s : Store) (c : Contents) (db : ReferenceDb) : Prop where
  valid : c.Valid db
  remembers : s.Remembers c
  kept : c.Kept (files .data) s.dirtyPages
  lsn : s.wal.isSome = true → c.top < s.nextLsn

section Serves
variable {files : FileId → File} {s : Store} {c : Contents} {db : ReferenceDb}

theorem Serves.view_of_data (h : Serves files s c db) {p : PageId} (hp : firstDataPage ≤ p ∧ p ≤ c.highWaterPageId) :
    s.view files p = c.view p := by
  rw [Contents.view, if_pos hp, Store.view]
  cases hdirty : s.dirtyPages.get? p with
  | some bytes =>
    dsimp only
    rw [(h.kept.dirty p bytes hdirty).2]
  | none =>
    obtain ⟨page, himage, _⟩ := h.valid.image p hp.1 hp.2
    rw [himage.reads]
    exact fileView_of_block (h.kept.clean p hp.1 hp.2 hdirty) himage.length himage.reads

theorem Serves.view_beyond (h : Serves files s c db) {p : PageId} (hp : c.highWaterPageId < p) :
    ∃ e, s.view files p = .error e := by
  have hdirty : s.dirtyPages.get? p = none := by
    cases hget : s.dirtyPages.get? p with
    | none => rfl
    | some bytes => exact absurd (h.kept.dirty p bytes hget).1.2 (Nat.not_le.mpr hp)
  have hend : ¬(slice (files .data).volatile (p * pageSize) pageSize).length = pageSize := by
    have hle : (c.highWaterPageId + 1) * pageSize ≤ p * pageSize := Nat.mul_le_mul_right _ hp
    have hpos : 0 < pageSize := by decide
    have hlength := h.kept.length
    rw [slice, List.length_take, List.length_drop]
    lia
  rw [Store.view, hdirty]
  exact ⟨_, if_neg hend⟩

theorem Serves.coherent (h : Serves files s c db) {cache : PageCache} (hcache : cache.Coherent c.view) :
    cache.Coherent (s.view files) := by
  refine hcache.congr fun p page _ hview => ?_
  rw [h.view_of_data (Contents.data_of_view hview)]
  exact hview

theorem Serves.healthy (h : Serves files s c db) :
    ∃ t free, Healthy c.top (s.stage files) t free [] ∧ Holds db t.items := by
  obtain ⟨t, free, hhealthy, hholds⟩ := h.valid.tree
  exact ⟨t, free, hhealthy.congr h.remembers.rootPageId h.remembers.freeListHead h.remembers.highWaterPageId rfl
    fun p hp hle => h.view_of_data ⟨hp, hle⟩, hholds⟩

/-- Only the contents of the cache may differ. -/
theorem Serves.setCache (h : Serves files s c db) {cache : PageCache} (hcache : cache.Coherent c.view) :
    Serves files {s with cache} c db :=
  ⟨h.valid, ⟨hcache, h.remembers.rootPageId, h.remembers.freeListHead, h.remembers.highWaterPageId,
    h.remembers.nextRevision, h.remembers.superblock⟩, h.kept, h.lsn⟩

end Serves

end Store

/-! ### What a batch commits -/

/-- What the batches of a store are numbered by. -/
structure Base where
  logged : Bool
  nextLsn : Lsn
  nextBatchId : Nat
  superblock : Superblock
  slot : SuperblockSlot

def Store.base (s : Store) : Base := ⟨s.wal.isSome, s.nextLsn, s.nextBatchId, s.currentSuperblock, s.activeSlot⟩

def PreparedBatch.alloc (prepared : PreparedBatch) : Alloc :=
  ⟨prepared.rootPageId, prepared.freeListHead, prepared.highWaterPageId, prepared.nextRevision, none⟩

/-- A prepared batch that takes the contents `c` to `c.after prepared` with the LSN `committed`. -/
structure Commits (b : Base) (c : Contents) (committed : Lsn) (prepared : PreparedBatch) : Prop where
  image : ∀ p bytes, prepared.changedPages.get? p = some bytes → (firstDataPage ≤ p ∧ p ≤ prepared.highWaterPageId) ∧
    ∃ page, prepared.changedDecoded.get? p = some page ∧ Image p page bytes ∧ page.lsn = committed
  complete : ∀ p, prepared.changedPages.get? p = none → prepared.changedDecoded.get? p = none
  reads : ∀ p page, prepared.readPages.get? p = some page → firstDataPage ≤ p ∧ c.view p = .ok page
  superblock : prepared.newSuperblock = (b.superblock.advance prepared.alloc).sealed
  records : prepared.newSuperblock.Records (c.after prepared)
  newSlot : prepared.newSlot = b.slot.other
  baseGeneration : prepared.baseGeneration = b.superblock.generation
  batchId : prepared.batchId = b.nextBatchId
  commitLsn : prepared.commitLsn = some committed
  nextRevision : prepared.nextRevision = committed + 1
  lsn : committed + 1 ≤ u64Max
  newer : c.top < committed
  numbered : b.logged = true → committed = b.nextLsn + prepared.changedPages.size + 1
  rises : c.highWaterPageId ≤ prepared.highWaterPageId
  grows : prepared.highWaterPageId ≤ c.highWaterPageId + prepared.changedPages.size
  fresh : ∀ p, c.highWaterPageId < p → p ≤ prepared.highWaterPageId → prepared.changedPages.get? p ≠ none
  changes : prepared.changedPages.isEmpty = false

/-- The stage shows the contents. -/
structure Contents.Shown (c : Contents) (st : TreeStage) : Prop where
  state : st.state = c.stage.state
  dirty : st.dirty = .empty
  data : ∀ p, firstDataPage ≤ p → p ≤ c.highWaterPageId → st.view p = c.view p
  beyond : ∀ p, c.highWaterPageId < p → ∃ e, st.view p = .error e

theorem Store.Serves.shown {files : FileId → File} {s : Store} {c : Contents} {db : ReferenceDb}
    (h : s.Serves files c db) : c.Shown (s.stage files) where
  state := by
    show Alloc.mk s.rootPageId s.freeListHead s.highWaterPageId s.nextRevision none = _
    rw [h.remembers.rootPageId, h.remembers.freeListHead, h.remembers.highWaterPageId, h.remembers.nextRevision]
    rfl
  dirty := rfl
  data p hp hle := h.view_of_data ⟨hp, hle⟩
  beyond p hp := h.view_beyond hp

section Finish
variable {c : Contents} {db db' : ReferenceDb} {st st' : TreeStage} {t' : Shape} {free' : List PageId}
  {committed : Lsn} {prepared : PreparedBatch}

theorem Contents.Shown.healthy (h : c.Shown st) (hvalid : c.Valid db) :
    ∃ t free, Healthy c.top st t free [] ∧ Holds db t.items := by
  obtain ⟨t, free, hhealthy, hholds⟩ := hvalid.tree
  refine ⟨t, free, hhealthy.congr ?_ ?_ ?_ h.dirty fun p hp hle => h.data p hp hle, hholds⟩ <;> rw [h.state]

/-- The tree of a batch that worked with the revision after the last commit, once it is renumbered. -/
theorem Staged.restamp (h : Staged (c.top + 1) (c.top + 1) db' st' t' free') (hvalid : c.Valid db) (hshown : c.Shown st)
    (hclean : ∀ p, p ∉ st'.dirty.keys → st'.view p = st.view p) (hle : c.top + 1 ≤ committed) :
    Healthy committed (restamped (c.top + 1) committed st') (t'.map (Item.restamp (c.top + 1) committed)) free' [] ∧
      Holds (db'.restamp (c.top + 1) committed) (t'.map (Item.restamp (c.top + 1) committed)).items := by
  obtain ⟨t, free, hhealthy, _⟩ := hshown.healthy hvalid
  refine ⟨h.healthy.restamp hle (Nat.ne_of_gt (Nat.lt_of_lt_of_le (Nat.succ_pos _) hle)) fun l hl hid i hi => ?_, ?_⟩
  · have hold := hhealthy.revision_le (fun p hp => hshown.beyond p (by rwa [hshown.state] at hp)) h.healthy hclean hl hid hi
    exact Nat.ne_of_lt (Nat.lt_succ_of_le hold)
  · rw [Shape.items_map]
    exact h.holds.restamp _ _

/-- A batch that leaves its revision in the map has written a page. -/
theorem Staged.dirty_ne_empty (h : Staged (c.top + 1) (c.top + 1) db' st' t' free') (hvalid : c.Valid db)
    (hshown : c.Shown st) (hclean : ∀ p, p ∉ st'.dirty.keys → st'.view p = st.view p)
    (hattains : db'.Attains (c.top + 1)) : ∃ p, p ∈ st'.dirty.keys := by
  obtain ⟨t, free, hhealthy, _⟩ := hshown.healthy hvalid
  obtain ⟨b, hb, hrevision⟩ := hattains
  obtain ⟨i, hi, heq⟩ := h.holds.mem_revision hb
  obtain ⟨l, hl, hil⟩ := List.mem_flatMap.mp hi
  refine ⟨l.id, by_contra fun hid => ?_⟩
  have hold := hhealthy.revision_le (fun p hp => hshown.beyond p (by rwa [hshown.state] at hp)) h.healthy hclean hl hid hil
  exact absurd (heq.trans hrevision) (Nat.ne_of_lt (Nat.lt_succ_of_le hold))

/-- The pages above the old high-water mark have all been written. -/
theorem Staged.grows (h : Staged (c.top + 1) (c.top + 1) db' st' t' free') (hvalid : c.Valid db) (hshown : c.Shown st)
    (hclean : ∀ p, p ∉ st'.dirty.keys → st'.view p = st.view p) :
    st'.state.highWaterPageId ≤ c.highWaterPageId + st'.dirty.size := by
  have hdirty : ∀ p ∈ List.range' (c.highWaterPageId + 1) (st'.state.highWaterPageId - c.highWaterPageId),
      p ∈ st'.dirty.keys := by
    intro p hp
    rw [List.mem_range'_1] at hp
    by_contra hnot
    obtain ⟨e, he⟩ := hshown.beyond p (by lia)
    have hfirst := hvalid.firstDataPage_le
    obtain ⟨page, hview⟩ := h.healthy.page_readable (p := p) ⟨by lia, by lia⟩
    rw [hclean p hnot, he] at hview
    cases hview
  have hle := (List.subperm_of_subset List.nodup_range' hdirty).length_le
  rw [List.length_range', SortedMap.length_keys] at hle
  lia

end Finish

section Committed
variable {b : Base} {c : Contents} {db db' : ReferenceDb} {st st' : TreeStage} {t' : Shape} {free' : List PageId}
  {under : View} {frame : Lsn × Nat × Superblock × SuperblockSlot} {o : Overlay} {committed : Lsn}
  {prepared : PreparedBatch}

theorem Overlay.Finished.newSuperblock_eq (h : o.Finished b.superblock b.slot b.nextBatchId (c.top + 1) committed prepared)
    (hencodable : (b.superblock.advance prepared.alloc).Encodable) :
    prepared.newSuperblock = (b.superblock.advance prepared.alloc).sealed := by
  have hadvance : b.superblock.advance o.alloc = b.superblock.advance prepared.alloc := by
    unfold Superblock.advance PreparedBatch.alloc
    rw [h.rootPageId, h.freeListHead, h.highWaterPageId]
  have hsuper := h.superblock
  rw [nextSuperblock_eq (hadvance ▸ hencodable), hadvance] at hsuper
  exact (Except.ok.inj hsuper).symm

/-- What an overlay that showed the contents when its batch began hands to publication. -/
theorem Overlay.Finished.commits (h : o.Finished b.superblock b.slot b.nextBatchId (c.top + 1) committed prepared)
    (hstaged : Staged (c.top + 1) (c.top + 1) db' st' t' free') (hvalid : c.Valid db) (hshown : c.Shown st)
    (hreflects : o.Reflects under st.view frame st') (hattains : db'.Attains (c.top + 1))
    (hle : c.top + 1 ≤ committed) (hnumbered : b.logged = true → committed = b.nextLsn + (o.dirty.size + 1))
    (hrises : c.highWaterPageId ≤ st'.state.highWaterPageId)
    (hrecords : b.superblock.Encodable) (hwater : st'.state.highWaterPageId < nullPageId) :
    Commits b c committed prepared ∧ (c.after prepared).Valid (db'.restamp (c.top + 1) committed) ∧
      (c.after prepared).Shown (restamped (c.top + 1) committed st') := by
  obtain ⟨hhealthy, hholds⟩ := hstaged.restamp hvalid hshown hreflects.clean hle
  have hpublishes := h.publishes hreflects hhealthy hwater fun p hp => hstaged.healthy.pages.dirty p hp
  have hsize : prepared.changedPages.size = st'.dirty.size := h.size_changedPages.trans (congrArg _ hreflects.dirty)
  have hmark : prepared.highWaterPageId = st'.state.highWaterPageId := by rw [h.highWaterPageId, hreflects.alloc]
  have hroot : prepared.rootPageId = st'.state.rootPageId := by rw [h.rootPageId, hreflects.alloc]
  have hfree : prepared.freeListHead = st'.state.freeListHead := by rw [h.freeListHead, hreflects.alloc]
  have htop : (c.after prepared).top = committed := by
    show prepared.nextRevision - 1 = committed
    rw [h.nextRevision, Nat.add_sub_cancel]
  -- a page in range was there before or has been written
  have hunchanged : ∀ p, firstDataPage ≤ p → p ≤ prepared.highWaterPageId → prepared.changedPages.get? p = none →
      (restamped (c.top + 1) committed st').view p = st.view p ∧ p ≤ c.highWaterPageId := by
    intro p hp hpw hget
    have hother := hpublishes.other p (hpublishes.complete p hget)
    obtain ⟨page, hpage⟩ := hhealthy.page_readable (p := p) ⟨hp, hmark ▸ hpw⟩
    refine ⟨hother, ?_⟩
    by_contra hbeyond
    obtain ⟨e, he⟩ := hshown.beyond p (not_le.mp hbeyond)
    rw [hother, he] at hpage
    cases hpage
  have hview : ∀ p, firstDataPage ≤ p → p ≤ prepared.highWaterPageId →
      (restamped (c.top + 1) committed st').view p = (c.after prepared).view p ∧
        ∃ page, Image p page ((c.after prepared).image p) ∧ page.lsn ≤ committed := by
    intro p hp hpw
    rw [Contents.view, if_pos ⟨hp, hpw⟩]
    show _ = PageData.decodeAt p ((prepared.changedPages.get? p).getD (c.image p)) ∧
      ∃ page, Image p page ((prepared.changedPages.get? p).getD (c.image p)) ∧ _
    cases hget : prepared.changedPages.get? p with
    | some bytes =>
      obtain ⟨_, page, hdecoded, himage, hpagelsn⟩ := hpublishes.image p bytes hget
      rw [hpublishes.decoded p page hdecoded]
      exact ⟨himage.reads.symm, page, himage, hpagelsn.le⟩
    | none =>
      obtain ⟨hother, hold⟩ := hunchanged p hp hpw hget
      rw [hother, hshown.data p hp hold, Contents.view, if_pos ⟨hp, hold⟩]
      obtain ⟨page, himage, hpagelsn⟩ := hvalid.image p hp hold
      exact ⟨rfl, page, himage, hpagelsn.trans ((Nat.le_succ _).trans hle)⟩
  have hstate : (restamped (c.top + 1) committed st').state = (c.after prepared).stage.state := by
    show Alloc.mk _ _ _ _ _ = Alloc.mk prepared.rootPageId prepared.freeListHead prepared.highWaterPageId _ none
    rw [hroot, hfree, hmark, htop]
  have hshown' : (c.after prepared).Shown (restamped (c.top + 1) committed st') := by
    refine ⟨hstate, rfl, fun p hp hpw => (hview p hp hpw).1, fun p hp => ?_⟩
    have hclean : p ∉ st'.dirty.keys := fun hmem =>
      absurd (hstaged.healthy.pages.dirty p hmem).2 (not_le.mpr (hmark ▸ hp))
    obtain ⟨e, he⟩ := hshown.beyond p (hrises.trans_lt (hmark ▸ hp))
    refine ⟨e, ?_⟩
    show (if p ∈ st'.dirty.keys then _ else _) = _
    rw [if_neg hclean, hreflects.clean p hclean, he]
  have hvalid' : (c.after prepared).Valid (db'.restamp (c.top + 1) committed) := by
    refine ⟨⟨_, free', ?_, hholds⟩, fun p hp hpw => ?_, fun _ => ?_, hmark.trans_lt hwater⟩
    · rw [htop]
      exact hhealthy.congr hroot hfree hmark rfl fun p hp hpw => ((hview p hp (hmark ▸ hpw)).1).symm
    · rw [htop]
      exact (hview p hp hpw).2
    · rw [htop]
      exact ReferenceDb.Attains.restamp hattains
  have hencodable : (b.superblock.advance prepared.alloc).Encodable := by
    refine hrecords.advance (nextSuperblock_generation h.superblock) ?_ (fun p hp => ?_) (hmark.trans_lt hwater)
    · exact hvalid'.firstDataPage_le.2.trans_lt (hmark.trans_lt hwater)
    · have hmem : p ∈ free' := by
        have hhead := hstaged.healthy.pages.freeHead
        rw [← hfree, show prepared.freeListHead = some p from hp] at hhead
        exact List.mem_of_mem_head? hhead.symm
      exact (hstaged.healthy.pages.mem_range (.inr (.inl hmem))).2.trans_lt hwater
  have hnew := h.newSuperblock_eq hencodable
  obtain ⟨p, hp⟩ := hstaged.dirty_ne_empty hvalid hshown hreflects.clean hattains
  refine ⟨⟨hpublishes.image, hpublishes.complete, fun p page hpage => ?_, hnew, ?_, h.newSlot, h.baseGeneration, h.batchId,
    h.commitLsn, h.nextRevision, h.lsn, hle, fun hlogged => ?_, hmark ▸ hrises, ?_, fun p hnew hpw hget => ?_, ?_⟩, hvalid',
    hshown'⟩
  · obtain ⟨hdata, hbase⟩ := hpublishes.reads p page hpage
    refine ⟨hdata, ?_⟩
    by_cases hold : p ≤ c.highWaterPageId
    · rw [← hshown.data p hdata hold]
      exact hbase
    · obtain ⟨e, he⟩ := hshown.beyond p (not_le.mp hold)
      rw [he] at hbase
      cases hbase
  · rw [hnew]
    exact ⟨hencodable.sealed, rfl, rfl, rfl⟩
  · rw [hnumbered hlogged, hsize, ← hreflects.dirty]
    rfl
  · rw [hmark, hsize]
    exact hstaged.grows hvalid hshown hreflects.clean
  · have hdata := hvalid.firstDataPage_le
    exact absurd (hunchanged p ((hdata.1.trans hdata.2).trans hnew.le) hpw hget).2 (not_le.mpr hnew)
  · have hpos : 0 < st'.dirty.keys.length := List.length_pos_of_mem hp
    rw [SortedMap.length_keys, ← hsize] at hpos
    exact List.isEmpty_eq_false_iff.mpr (List.length_pos_iff.mp hpos)

end Committed

end Dodb
