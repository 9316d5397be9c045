import Dodb.Btree.Search
import Dodb.Btree.Simulation

/-! What a batch leaves to be published.

Every page of a healthy tree can be written and read back (`Healthy.storable`). A batch
works with a provisional revision; when it ends, the pages it wrote get the LSN it
commits with, and so do the documents on them that have the provisional revision. These
are exactly the documents the batch bound (`Healthy.restamp`), since every other one was
in the tree before and is older. -/
namespace Dodb
open Lib PageProg SearchTree

/-! ### The pages of a tree -/

section Pages
variable {top : Lsn} {s : TreeStage} {t : Shape} {free : List PageId} {v : View}

theorem ChainAt.page {total : Nat} {chunks : List (PageId × Bytes)} (h : ChainAt top v total chunks) {p : PageId}
    (hp : p ∈ chunks.map Prod.fst) :
    ∃ next chunk, (p, chunk) ∈ chunks ∧ PageAt top v p (.overflow · next total chunk) ∧
      ∀ q ∈ next, q ∈ chunks.map Prod.fst := by
  induction chunks with
  | nil => cases hp
  | cons c rest ih =>
    obtain ⟨hc, hrest⟩ := h
    rw [List.map_cons, List.mem_cons] at hp
    by_cases hpc : p = c.1
    · refine ⟨_, c.2, by rw [hpc]; exact List.mem_cons_self, hpc ▸ hc, fun q hq => ?_⟩
      obtain ⟨r, hr, rfl⟩ := Option.map_eq_some_iff.mp hq
      exact List.mem_cons_of_mem _ (List.mem_map_of_mem (List.mem_of_mem_head? hr))
    · obtain ⟨next, chunk, hmem, hat, hnext⟩ := ih hrest (hp.resolve_left hpc)
      exact ⟨next, chunk, List.mem_cons_of_mem _ hmem, hat, fun q hq => List.mem_cons_of_mem _ (hnext q hq)⟩

theorem FreeAt.page (h : FreeAt top v free) {p : PageId} (hp : p ∈ free) :
    ∃ next, PageAt top v p (.free · next) ∧ ∀ q ∈ next, q ∈ free := by
  induction free with
  | nil => cases hp
  | cons q rest ih =>
    obtain ⟨hq, hrest⟩ := h
    by_cases hpq : p = q
    · exact ⟨_, hpq ▸ hq, fun r hr => List.mem_cons_of_mem _ (List.mem_of_mem_head? hr)⟩
    · obtain ⟨next, hat, hnext⟩ := ih hrest ((List.mem_cons.mp hp).resolve_left hpq)
      exact ⟨next, hat, fun r hr => List.mem_cons_of_mem _ (hnext r hr)⟩

/-- What a data page of a tree is for. -/
inductive Role (t : Shape) (free : List PageId) (p : PageId) : Prop where
  | leaf (l : Leaf) (h : l ∈ t.leaves) (hp : l.id = p)
  | node (refs : List Ref) (h : .node p refs ∈ t.cells)
  | chunk (l : Leaf) (i : Item) (chunks : List (PageId × Bytes)) (hl : l ∈ t.leaves) (hi : i ∈ l.items)
      (hv : i.value = some (.chain chunks)) (hp : p ∈ chunks.map Prod.fst)
  | free (h : p ∈ free)

theorem Healthy.role (h : Healthy top s t free []) {p : PageId}
    (hp : firstDataPage ≤ p ∧ p ≤ s.state.highWaterPageId) : Role t free p := by
  have hmem := (h.pages.space.mem_iff p).mpr hp
  rw [List.append_nil] at hmem
  rcases List.mem_append.mp hmem with hcell | hfree
  · obtain ⟨c, hc, hpc⟩ := List.mem_flatMap.mp hcell
    cases c with
    | node id refs => exact .node refs (List.mem_singleton.mp hpc ▸ hc)
    | leaf l =>
      have hl := Shape.mem_leaves_of_cell hc
      rcases List.mem_cons.mp hpc with hid | hitem
      · exact .leaf l hl hid.symm
      · obtain ⟨i, hi, hpi⟩ := List.mem_flatMap.mp hitem
        unfold Item.pages at hpi
        cases hv : i.value with
        | none => simp [hv] at hpi
        | some v =>
          rw [hv] at hpi
          cases v with
          | inline bytes => cases hpi
          | chain chunks => exact .chunk l i chunks hl hi hv hpi
  · exact .free hfree

theorem Healthy.leaf_range (h : Healthy top s t free []) {l : Leaf} (hl : l ∈ t.leaves) :
    firstDataPage ≤ l.id ∧ l.id ≤ s.state.highWaterPageId :=
  h.pages.cell_range (Shape.leaf_mem_cells hl) List.mem_cons_self

theorem Healthy.chunk_range (h : Healthy top s t free []) {l : Leaf} {i : Item} {chunks : List (PageId × Bytes)}
    (hl : l ∈ t.leaves) (hi : i ∈ l.items) (hv : i.value = some (.chain chunks)) {p : PageId}
    (hp : p ∈ chunks.map Prod.fst) : firstDataPage ≤ p ∧ p ≤ s.state.highWaterPageId := by
  refine h.pages.cell_range (Shape.leaf_mem_cells hl) (List.mem_cons_of_mem _ (List.mem_flatMap.mpr ⟨i, hi, ?_⟩))
  rw [Item.pages, hv]
  exact hp

/-- The leaf after a leaf is one of the tree. -/
theorem linked_next_mem {ls : List Leaf} (h : Linked none ls) {l : Leaf} (hl : l ∈ ls) :
    ∀ q ∈ l.next, ∃ r ∈ ls, r.id = q := by
  induction ls with
  | nil => cases hl
  | cons a rest ih =>
    obtain ⟨hnext, hrest⟩ := h
    rcases List.mem_cons.mp hl with rfl | hl
    · intro q hq
      rw [hnext, Option.or_none] at hq
      obtain ⟨r, hr, rfl⟩ := Option.map_eq_some_iff.mp hq
      exact ⟨r, List.mem_cons_of_mem _ (List.mem_of_mem_head? hr), rfl⟩
    · intro q hq
      obtain ⟨r, hr, hid⟩ := ih hrest hl q hq
      exact ⟨r, List.mem_cons_of_mem _ hr, hid⟩

theorem Healthy.ref_range (h : Healthy top s t free []) {i : PageId} {refs : List Ref} (hc : .node i refs ∈ t.cells)
    {r : Ref} (hr : r ∈ refs) : firstDataPage ≤ r.id ∧ r.id ≤ s.state.highWaterPageId := by
  rcases Shape.exists_cell_of_ref hc hr with ⟨l, hl, hid⟩ | ⟨refs', hnode⟩
  · exact hid ▸ h.pages.cell_range hl List.mem_cons_self
  · exact h.pages.cell_range hnode List.mem_cons_self

theorem Item.Valid.sound {i : Item} (h : i.Valid top) (htop : top ≤ u64Max)
    (hpages : ∀ p ∈ i.pages, p < nullPageId) : i.entry.Sound := by
  refine ⟨h.1.2.trans htop, ?_⟩
  unfold Item.entry
  cases hv : i.value with
  | none => exact True.intro
  | some v =>
    have hvalid := h.2 v hv
    cases v with
    | inline bytes => exact hvalid.trans (by decide)
    | chain chunks =>
      obtain _ | ⟨c, rest⟩ := chunks
      · exact absurd rfl hvalid.1
      · have hlen := List.length_pos_iff.mpr (hvalid.2.2.2 c List.mem_cons_self).1
        refine ⟨hpages c.1 ?_, ?_, hvalid.2.2.1⟩
        · rw [Item.pages, hv]
          exact List.mem_cons_self
        · rw [List.flatMap_cons, List.length_append]
          omega

/-- Every page of a tree can be written and read back. -/
theorem Healthy.storable (h : Healthy top s t free []) (htop : top ≤ u64Max)
    (hwater : s.state.highWaterPageId < nullPageId) {p : PageId}
    (hp : firstDataPage ≤ p ∧ p ≤ s.state.highWaterPageId) : ∃ page, s.view p = .ok page ∧ page.Storable := by
  cases h.role hp with
  | leaf l hl hid =>
    have hcell := Shape.leaf_mem_cells hl
    obtain ⟨hat, _⟩ := h.pages.cellsAt _ hcell
    obtain ⟨lsn, hlsn, hv⟩ := hat
    obtain ⟨hfits, hitems⟩ := h.pages.valid _ hcell
    refine ⟨.leaf lsn l.next (Leaf.entries l), hid ▸ hv, hlsn.trans htop, fun q hq => ?_, hfits, fun e he => ?_⟩
    · obtain ⟨r, hr, rfl⟩ := linked_next_mem h.linked hl q hq
      exact lt_of_le_of_lt (h.leaf_range hr).2 hwater
    · obtain ⟨i, hi, rfl⟩ := List.mem_map.mp he
      refine (hitems i hi).sound htop fun q hq => lt_of_le_of_lt (h.pages.cell_range hcell ?_).2 hwater
      exact List.mem_cons_of_mem _ (List.mem_flatMap.mpr ⟨i, hi, hq⟩)
  | node refs hc =>
    obtain ⟨lsn, hlsn, hv⟩ := h.pages.cellsAt _ hc
    obtain ⟨hlen, hfits⟩ := h.pages.valid _ hc
    obtain _ | ⟨r, rest⟩ := refs
    · simp at hlen
    have hle : ∀ q ∈ r :: rest, q.id ≤ u64Max := fun q hq => (h.ref_range hc hq).2.trans hwater.le
    refine ⟨_, hv, hlsn.trans htop, hle r List.mem_cons_self, hfits, fun e he => ?_⟩
    obtain ⟨q, hq, rfl⟩ := List.mem_map.mp he
    exact hle q (List.mem_cons_of_mem _ hq)
  | chunk l i chunks hl hi hiv hpc =>
    have hcell := Shape.leaf_mem_cells hl
    have hchain : ChainAt top s.view (chunks.flatMap Prod.snd).length chunks :=
      (h.pages.cellsAt _ hcell).2 i hi _ hiv
    have hvalid : (Stored.chain chunks).Valid := ((h.pages.valid _ hcell).2 i hi).2 _ hiv
    obtain ⟨next, chunk, hmem, ⟨lsn, hlsn, hv⟩, hnext⟩ := hchain.page hpc
    have hlen : chunk.length ≤ (chunks.flatMap Prod.snd).length := by
      rw [List.length_flatMap]
      exact List.single_le_sum (by simp) _ (List.mem_map_of_mem hmem)
    have hchunk := hvalid.2.2.2 _ hmem
    have hpos := List.length_pos_iff.mpr hchunk.1
    refine ⟨_, hv, hlsn.trans htop, fun q hq => ?_, ⟨?_, hvalid.2.2.1⟩, hchunk.1, hchunk.2⟩
    · exact lt_of_le_of_lt (h.chunk_range hl hi hiv (hnext q hq)).2 hwater
    · dsimp only at hpos hlen
      omega
  | free hfree =>
    obtain ⟨next, ⟨lsn, hlsn, hv⟩, hnext⟩ := h.pages.freeAt.page hfree
    exact ⟨_, hv, hlsn.trans htop, fun q hq =>
      lt_of_le_of_lt (h.pages.mem_range (.inr (.inl (hnext q hq)))).2 hwater⟩

/-- A page that reads as a leaf is a leaf of the tree. -/
theorem Healthy.leaf_of_view (h : Healthy top s t free []) {p : PageId}
    (hp : firstDataPage ≤ p ∧ p ≤ s.state.highWaterPageId) {lsn : Lsn} {next : Option PageId} {entries : List LeafEntry}
    (hv : s.view p = .ok (.leaf lsn next entries)) : ∃ l ∈ t.leaves, entries = Leaf.entries l := by
  cases h.role hp with
  | leaf l hl hid =>
    obtain ⟨⟨lsn', _, hv'⟩, _⟩ := h.pages.cellsAt _ (Shape.leaf_mem_cells hl)
    rw [hid, hv] at hv'
    cases hv'
    exact ⟨l, hl, rfl⟩
  | node refs hc =>
    obtain ⟨lsn', _, hv'⟩ := h.pages.cellsAt _ hc
    rw [hv] at hv'
    cases hv'
  | chunk l i chunks hl hi hiv hpc =>
    have hchain : ChainAt top s.view (chunks.flatMap Prod.snd).length chunks :=
      (h.pages.cellsAt _ (Shape.leaf_mem_cells hl)).2 i hi _ hiv
    obtain ⟨_, _, _, ⟨_, _, hv'⟩, _⟩ := hchain.page hpc
    rw [hv] at hv'
    cases hv'
  | free hfree =>
    obtain ⟨_, ⟨_, _, hv'⟩, _⟩ := h.pages.freeAt.page hfree
    rw [hv] at hv'
    cases hv'

end Pages

/-! ### Restamping -/

def Item.restamp (provisional : Revision) (committed : Lsn) (i : Item) : Item :=
  {i with revision := if i.revision = provisional then committed else i.revision}

/-- A stage whose batch is committed: what it wrote is restamped, and it is the base of the next one. -/
def restamped (provisional : Revision) (committed : Lsn) (s : TreeStage) : TreeStage where
  view p := if p ∈ s.dirty.keys then (s.view p).map (PageData.restamp provisional committed) else s.view p
  dirty := .empty
  state := {s.state with nextRevision := committed + 1, lastLsn := none}

section Restamp
variable {provisional : Revision} {committed : Lsn} {s : TreeStage} {t : Shape} {free : List PageId}

theorem Item.restamp_of_ne {i : Item} (h : i.revision ≠ provisional) : i.restamp provisional committed = i := by
  rw [Item.restamp, if_neg h]

theorem Item.entry_restamp (i : Item) : (i.restamp provisional committed).entry =
    if i.entry.revision = provisional then {i.entry with revision := committed} else i.entry := by
  unfold Item.restamp Item.entry
  dsimp only
  split <;> rfl

theorem entries_restamp (l : Leaf) : Leaf.entries (l.map (Item.restamp provisional committed)) =
    (Leaf.entries l).map fun entry =>
      if entry.revision = provisional then {entry with revision := committed} else entry := by
  simp [Leaf.entries, Leaf.map, Item.entry_restamp, Function.comp_def]

/-- Whether a leaf fits does not depend on revisions. -/
theorem leafFits_restamp {l : Leaf} (h : leafFits (Leaf.entries l) = true) :
    leafFits (Leaf.entries (l.map (Item.restamp provisional committed))) = true := by
  obtain ⟨hcanonical, hordered, hused⟩ := (leafFits_iff _).mp h
  have hkeys : (Leaf.entries (l.map (Item.restamp provisional committed))).map LeafEntry.key =
      (Leaf.entries l).map LeafEntry.key := by
    simp only [Leaf.entries, Leaf.map, List.map_map, Function.comp_def]
    rfl
  refine (leafFits_iff _).mpr ⟨fun e he => ?_, hkeys ▸ hordered, ?_⟩
  · obtain ⟨i, _, rfl⟩ := List.mem_map.mp he
    exact canonical_encode i.key
  · have hsize : leafUsed (Leaf.entries (l.map (Item.restamp provisional committed))) = leafUsed (Leaf.entries l) := by
      simp only [leafUsed, RecordCodec.used, Leaf.entries, Leaf.map, List.map_map, Function.comp_def]
      rfl
    rw [hsize]
    exact hused

theorem PageAt.restamp {p : PageId} {f g : Lsn → PageData} (h : PageAt provisional s.view p f)
    (hle : provisional ≤ committed) (hdirty : ∀ lsn, (f lsn).restamp provisional committed = g committed)
    (hclean : p ∉ s.dirty.keys → f = g) : PageAt committed (restamped provisional committed s).view p g := by
  obtain ⟨lsn, hlsn, hv⟩ := h
  show ∃ lsn ≤ committed, (if p ∈ s.dirty.keys then _ else _) = _
  by_cases hp : p ∈ s.dirty.keys
  · refine ⟨committed, le_rfl, ?_⟩
    rw [if_pos hp, hv, ← hdirty lsn]
    rfl
  · refine ⟨lsn, hlsn.trans hle, ?_⟩
    rw [if_neg hp, hv, hclean hp]

theorem ChainAt.restamp {total : Nat} {chunks : List (PageId × Bytes)} (h : ChainAt provisional s.view total chunks)
    (hle : provisional ≤ committed) : ChainAt committed (restamped provisional committed s).view total chunks := by
  induction chunks with
  | nil => exact h
  | cons c rest ih => exact ⟨h.1.restamp hle (fun _ => rfl) fun _ => rfl, ih h.2⟩

theorem FreeAt.restamp (h : FreeAt provisional s.view free) (hle : provisional ≤ committed) :
    FreeAt committed (restamped provisional committed s).view free := by
  induction free with
  | nil => exact h
  | cons p rest ih => exact ⟨h.1.restamp hle (fun _ => rfl) fun _ => rfl, ih h.2⟩

/-- The tree of a batch that is committed. -/
theorem Healthy.restamp (h : Healthy provisional s t free []) (hle : provisional ≤ committed) (hpos : committed ≠ 0)
    (hclean : ∀ l ∈ t.leaves, l.id ∉ s.dirty.keys → ∀ i ∈ l.items, i.revision ≠ provisional) :
    Healthy committed (restamped provisional committed s) (t.map (Item.restamp provisional committed)) free [] := by
  have hcells : ∀ c ∈ (t.map (Item.restamp provisional committed)).cells, ∃ d ∈ t.cells,
      c = d.map (Item.restamp provisional committed) := by
    intro c hc
    rw [Shape.cells_map] at hc
    obtain ⟨d, hd, rfl⟩ := List.mem_map.mp hc
    exact ⟨d, hd, rfl⟩
  have hpages : ∀ d : Cell, Cell.pages (d.map (Item.restamp provisional committed)) = Cell.pages d := by
    intro d
    cases d with
    | node id refs => rfl
    | leaf l =>
      simp only [SearchTree.Cell.map, Cell.pages, Leaf.map, List.flatMap_map]
      rfl
  refine ⟨⟨fun c hc => ?_, fun c hc => ?_, h.pages.freeHead, h.pages.freeAt.restamp hle, ?_, h.pages.highWater, ?_⟩,
    ?_, ?_, ?_, ?_⟩
  · obtain ⟨d, hd, rfl⟩ := hcells c hc
    have hat := h.pages.cellsAt d hd
    cases d with
    | node id refs => exact PageAt.restamp hat hle (fun _ => rfl) fun _ => rfl
    | leaf l =>
      refine ⟨PageAt.restamp hat.1 hle (fun lsn => ?_) fun hp => ?_, fun i hi => ?_⟩
      · show PageData.leaf committed l.next _ = PageData.leaf committed l.next _
        rw [entries_restamp]
      · have hitems : (l.map (Item.restamp provisional committed)).items = l.items := by
          have hne := hclean l (Shape.mem_leaves_of_cell hd) hp
          exact (List.map_congr_left fun i hi => Item.restamp_of_ne (hne i hi)).trans (List.map_id _)
        funext lsn
        rw [Leaf.entries, Leaf.entries, hitems]
        rfl
      · obtain ⟨j, hj, rfl⟩ := List.mem_map.mp hi
        intro v hv
        have := hat.2 j hj v hv
        cases v with
        | inline bytes => exact True.intro
        | chain chunks => exact ChainAt.restamp this hle
  · obtain ⟨d, hd, rfl⟩ := hcells c hc
    have hvalid := h.pages.valid d hd
    cases d with
    | node id refs => exact hvalid
    | leaf l =>
      refine ⟨leafFits_restamp hvalid.1, fun i hi => ?_⟩
      obtain ⟨j, hj, rfl⟩ := List.mem_map.mp hi
      obtain ⟨⟨hne, hrev⟩, hstored⟩ := hvalid.2 j hj
      refine ⟨?_, hstored⟩
      by_cases hj : j.revision = provisional
      · simp [Item.restamp, hj, hpos]
      · simp only [Item.restamp, if_neg hj]
        exact ⟨hne, hrev.trans hle⟩
  · show Space s.state.highWaterPageId _
    rw [Shape.cells_map, List.flatMap_map]
    simp only [hpages]
    exact h.pages.space
  · intro p hp
    cases hp
  · rw [Shape.id_map]
    exact h.root
  · rw [Shape.low_map]
    exact h.low
  · rw [Shape.leaves_map]
    exact h.order.map fun i => rfl
  · rw [Shape.leaves_map]
    exact h.linked.map _

/-- What a batch did not write is older than the batch. -/
theorem Healthy.revision_le {top : Lsn} {s₀ : TreeStage} {t₀ : Shape} {free₀ : List PageId}
    (h₀ : Healthy top s₀ t₀ free₀ []) (hbeyond : ∀ p, s₀.state.highWaterPageId < p → ∃ e, s₀.view p = .error e)
    (h : Healthy provisional s t free []) (hframe : ∀ p, p ∉ s.dirty.keys → s.view p = s₀.view p) {l : Leaf}
    (hl : l ∈ t.leaves) (hclean : l.id ∉ s.dirty.keys) {i : Item} (hi : i ∈ l.items) : i.revision ≤ top := by
  obtain ⟨⟨lsn, _, hv⟩, _⟩ := h.pages.cellsAt _ (Shape.leaf_mem_cells hl)
  rw [hframe _ hclean] at hv
  have hrange : firstDataPage ≤ l.id ∧ l.id ≤ s₀.state.highWaterPageId := by
    refine ⟨(h.leaf_range hl).1, not_lt.mp fun hlt => ?_⟩
    obtain ⟨e, he⟩ := hbeyond _ hlt
    rw [hv] at he
    cases he
  obtain ⟨l₀, hl₀, hentries⟩ := h₀.leaf_of_view hrange hv
  have hentry : i.entry ∈ Leaf.entries l₀ := hentries ▸ List.mem_map_of_mem hi
  obtain ⟨j, hj, hji⟩ := List.mem_map.mp hentry
  have hrevision : i.revision = j.revision := congrArg LeafEntry.revision hji.symm
  rw [hrevision]
  exact ((h₀.pages.valid _ (Shape.leaf_mem_cells hl₀)).2 j hj).1.2

end Restamp

/-! ### Images of pages -/

variable [Crc32c]

/-- `bytes` are the block of the page `p`. -/
structure Image (p : PageId) (page : PageData) (bytes : Bytes) : Prop where
  length : bytes.length = pageSize
  reads : PageData.decodeAt p bytes = .ok page
  header : ∃ decoded, decodePageAt bytes (some p) = .ok decoded ∧ decoded.header.pageLsn = page.lsn

theorem PageData.Storable.image {page : PageData} (h : page.Storable) {p : PageId} (hp : p ≤ u64Max) {bytes : Bytes}
    (hbytes : page.encode p = .ok bytes) : Image p page bytes := by
  obtain ⟨bytes', hencode, hlen, decoded, hdecoded, hlsn, _⟩ := h.encode_reads hp
  cases hencode.symm.trans hbytes
  exact ⟨hlen, h.decodeAt_encode hp hbytes, decoded, hdecoded, hlsn⟩

/-- A page image is what a log accepts. -/
theorem Image.accepted {p : PageId} {page : PageData} {bytes : Bytes} (h : Image p page bytes)
    (hp : firstDataPage ≤ p) :
    validatePageImage ⟨p, bytes⟩ = .ok () ∧ validatePageImageLsn ⟨p, bytes⟩ page.lsn = .ok () := by
  obtain ⟨decoded, hdecoded, hlsn⟩ := h.header
  have hsuper : (⟨p, bytes⟩ : WalPageImage).isSuperblock = false := by
    unfold firstDataPage at hp
    simp only [WalPageImage.isSuperblock, Bool.or_eq_false_iff, decide_eq_false_iff_not]
    lia
  unfold validatePageImage validatePageImageLsn
  rw [hsuper, if_neg (by simp), if_neg (by simp)]
  constructor
  · simp only [hdecoded, except_ok_bind]
    rfl
  · rw [← hlsn, decodePageAt_lsn hdecoded]
    exact ensure_pos rfl _

/-! ### Superblocks -/

/-- A superblock as it reads back, with its checksum. -/
def Superblock.sealed (sb : Superblock) : Superblock :=
  {sb with checksum := superblockChecksum (superblockLayout sb 0)}

/-- The superblock that commits an allocator state. -/
def Superblock.advance (sb : Superblock) (alloc : Alloc) : Superblock := {sb with
  generation := sb.generation + 1
  rootPageId := some alloc.rootPageId
  freeListHead := alloc.freeListHead
  highWaterPageId := some alloc.highWaterPageId}

theorem Superblock.Encodable.sealed {sb : Superblock} (h : sb.Encodable) : sb.sealed.Encodable :=
  ⟨h.formatVersion, h.pageSize, h.generation, h.rootPageId, h.freeListHead, h.highWaterPageId, h.checkpointLsn⟩

omit [Crc32c] in
theorem Superblock.Encodable.advance {sb : Superblock} (h : sb.Encodable) {alloc : Alloc}
    (hgeneration : sb.generation + 1 ≤ u64Max) (hroot : alloc.rootPageId < nullPageId)
    (hfree : ∀ p ∈ alloc.freeListHead, p < nullPageId) (hwater : alloc.highWaterPageId < nullPageId) :
    (sb.advance alloc).Encodable :=
  ⟨h.formatVersion, h.pageSize, hgeneration, fun _ hp => Option.some.inj hp ▸ hroot, hfree,
    fun _ hp => Option.some.inj hp ▸ hwater, h.checkpointLsn⟩

theorem nextSuperblock_eq {sb : Superblock} {alloc : Alloc} (h : (sb.advance alloc).Encodable) :
    Overlay.nextSuperblock sb alloc = .ok (sb.advance alloc).sealed := by
  unfold Overlay.nextSuperblock
  rw [addOr_of_le _ h.generation, except_ok_bind]
  show encodeSuperblock (sb.advance alloc) >>= _ = _
  rw [encodeSuperblock_eq h, except_ok_bind, decodeSuperblock_superblockPage h]
  rfl

theorem nextSuperblock_generation {sb sb' : Superblock} {alloc : Alloc}
    (h : Overlay.nextSuperblock sb alloc = .ok sb') : sb.generation + 1 ≤ u64Max := by
  unfold Overlay.nextSuperblock at h
  obtain ⟨generation, hadd, _⟩ := except_bind_eq_ok.mp h
  exact (addOr_eq_ok hadd).2

/-! ### Finishing -/

namespace Overlay

omit [Crc32c] in
theorem restampPages_eq {provisional : Revision} {committed : Lsn} {ids : List PageId} (hids : ids.Nodup)
    {pages : SortedMap PageId PageData} (h : ∀ p ∈ ids, (pages.get? p).isSome = true) :
    ∃ pages', restampPages provisional committed ids pages = .ok pages' ∧ ∀ p, pages'.get? p =
      if p ∈ ids then (pages.get? p).map (PageData.restamp provisional committed) else pages.get? p := by
  induction ids generalizing pages with
  | nil => exact ⟨pages, rfl, fun p => by simp⟩
  | cons q rest ih =>
    obtain ⟨hq, hrest⟩ := List.nodup_cons.mp hids
    obtain ⟨page, hpage⟩ := Option.isSome_iff_exists.mp (h q List.mem_cons_self)
    have hsome : ∀ p ∈ rest, ((pages.insert q (page.restamp provisional committed)).get? p).isSome = true := by
      intro p hp
      rw [SortedMap.get?_insert]
      split
      · rfl
      · exact h p (List.mem_cons_of_mem _ hp)
    obtain ⟨pages', hok, hget⟩ := ih hrest hsome
    refine ⟨pages', by rw [restampPages, hpage]; exact hok, fun p => ?_⟩
    rw [hget, SortedMap.get?_insert]
    by_cases hpq : p = q
    · rw [hpq, if_neg hq, if_pos rfl, if_pos List.mem_cons_self, hpage]
      rfl
    · have hmem : p ∈ q :: rest ↔ p ∈ rest := by simp [hpq]
      simp only [if_neg hpq, hmem]

theorem encodeChanged_keys {pages : SortedMap PageId PageData} {ids : List PageId} {changedPages : SortedMap PageId Bytes}
    {changedDecoded : SortedMap PageId PageData} (h : encodeChanged pages ids = .ok (changedPages, changedDecoded)) :
    (∀ p, changedDecoded.get? p = if p ∈ ids then pages.get? p else none) ∧
      ∀ p, (∀ bytes, changedPages.get? p = some bytes ↔ p ∈ ids ∧ ∃ page, pages.get? p = some page ∧ page.encode p = .ok bytes) := by
  induction ids generalizing changedPages changedDecoded with
  | nil =>
    cases h
    exact ⟨fun p => by simp, fun p bytes => by simp⟩
  | cons q rest ih =>
    unfold encodeChanged at h
    cases hq : pages.get? q with
    | none =>
      rw [hq] at h
      cases h
    | some page =>
      rw [hq] at h
      simp only [except_bind_eq_ok] at h
      obtain ⟨bytes, hbytes, ⟨changedPages', changedDecoded'⟩, hrest, heq⟩ := h
      cases heq
      obtain ⟨hdecoded, hpages⟩ := ih hrest
      refine ⟨fun p => ?_, fun p bytes' => ?_⟩
      · rw [SortedMap.get?_insert, hdecoded]
        by_cases hpq : p = q
        · rw [if_pos hpq, if_pos (by rw [hpq]; exact List.mem_cons_self), hpq, hq]
        · have hmem : p ∈ q :: rest ↔ p ∈ rest := by simp [hpq]
          simp only [if_neg hpq, hmem]
      · rw [SortedMap.get?_insert]
        by_cases hpq : p = q
        · rw [if_pos hpq, hpq, hq]
          simp only [Option.some.injEq, List.mem_cons, true_or, true_and, exists_eq_left', hbytes, Except.ok.injEq]
        · have hmem : p ∈ q :: rest ↔ p ∈ rest := by simp [hpq]
          rw [if_neg hpq, hpages, hmem]

theorem encodeChanged_mem {pages : SortedMap PageId PageData} {ids : List PageId} {changedPages : SortedMap PageId Bytes}
    {changedDecoded : SortedMap PageId PageData} (h : encodeChanged pages ids = .ok (changedPages, changedDecoded))
    (p : PageId) : p ∈ changedPages.keys ↔ p ∈ ids := by
  induction ids generalizing changedPages changedDecoded with
  | nil =>
    cases h
    simp [SortedMap.keys, SortedMap.empty]
  | cons q rest ih =>
    unfold encodeChanged at h
    cases hq : pages.get? q with
    | none =>
      rw [hq] at h
      cases h
    | some page =>
      rw [hq] at h
      simp only [except_bind_eq_ok] at h
      obtain ⟨bytes, hbytes, ⟨changedPages', changedDecoded'⟩, hrest, heq⟩ := h
      cases heq
      rw [SortedMap.mem_keys_insert, List.mem_cons, ih hrest]

/-- What a batch that ends on `o` hands to publication. -/
structure Finished (o : Overlay) (sb : Superblock) (slot : SuperblockSlot) (batchId : Nat) (provisional : Revision)
    (committed : Lsn) (prepared : PreparedBatch) : Prop where
  changed : ∃ pages, restampPages provisional committed o.dirty.keys o.pages = .ok pages ∧
    encodeChanged pages o.dirty.keys = .ok (prepared.changedPages, prepared.changedDecoded)
  superblock : nextSuperblock sb o.alloc = .ok prepared.newSuperblock
  lsn : committed + 1 ≤ u64Max
  readPages : prepared.readPages = o.readPages
  newSlot : prepared.newSlot = slot.other
  baseGeneration : prepared.baseGeneration = sb.generation
  nextRevision : prepared.nextRevision = committed + 1
  rootPageId : prepared.rootPageId = o.alloc.rootPageId
  freeListHead : prepared.freeListHead = o.alloc.freeListHead
  highWaterPageId : prepared.highWaterPageId = o.alloc.highWaterPageId
  commitLsn : prepared.commitLsn = some committed
  batchId : prepared.batchId = batchId

/-- A batch that wrote something. -/
theorem finish_eq_ok {o : Overlay} {responses : List BatchResponse} {prepared : PreparedBatch} {provisional : Revision}
    (hlast : o.alloc.lastLsn = some provisional) (h : o.finish responses = .ok prepared) :
    ∃ committed, commitLsnOf o.store.wal o.store.nextLsn o.dirty provisional = .ok committed ∧
      prepared.responses = responses.map (restampResponse provisional committed) ∧
      Finished o o.store.currentSuperblock o.store.activeSlot o.store.nextBatchId provisional committed prepared := by
  unfold finish at h
  rw [hlast] at h
  simp only [except_bind_eq_ok] at h
  obtain ⟨committed, hcommitted, pages, hpages, sb, hsb, ⟨changedPages, changedDecoded⟩, hchanged, nextRevision, hnext,
    heq⟩ := h
  obtain ⟨rfl, hmax⟩ := addOr_eq_ok hnext
  cases heq
  exact ⟨committed, hcommitted, rfl, ⟨pages, hpages, hchanged⟩, hsb, hmax, rfl, rfl, rfl, rfl, rfl, rfl, rfl, rfl, rfl⟩

end Overlay

/-! ### What is to be published -/

/-- Publishing `prepared` takes the pages `base` to those of `st`. -/
structure Publishes (base : View) (st : TreeStage) (committed : Lsn) (prepared : PreparedBatch) : Prop where
  decoded : ∀ p page, prepared.changedDecoded.get? p = some page → st.view p = .ok page
  other : ∀ p, prepared.changedDecoded.get? p = none → st.view p = base p
  image : ∀ p bytes, prepared.changedPages.get? p = some bytes → (firstDataPage ≤ p ∧ p ≤ prepared.highWaterPageId) ∧
    ∃ page, prepared.changedDecoded.get? p = some page ∧ Image p page bytes ∧ page.lsn = committed
  complete : ∀ p, prepared.changedPages.get? p = none → prepared.changedDecoded.get? p = none
  reads : ∀ p page, prepared.readPages.get? p = some page → firstDataPage ≤ p ∧ base p = .ok page
  state : st.state =
    ⟨prepared.rootPageId, prepared.freeListHead, prepared.highWaterPageId, prepared.nextRevision, none⟩
  commitLsn : prepared.commitLsn = some committed
  lsn : committed + 1 ≤ u64Max

omit [Crc32c] in
theorem PageData.lsn_restamp (page : PageData) (provisional : Revision) (committed : Lsn) :
    (page.restamp provisional committed).lsn = committed := by
  cases page <;> rfl

section Publishes
variable {under base : View} {frame : Lsn × Nat × Superblock × SuperblockSlot} {o : Overlay} {st : TreeStage}
  {provisional : Revision} {committed : Lsn} {prepared : PreparedBatch} {sb : Superblock} {slot : SuperblockSlot}
  {batchId : Nat} {t : Shape} {free : List PageId}

omit [Crc32c] in
/-- The pages of an overlay whose transaction is committed. -/
theorem Overlay.Reflects.restamp (h : o.Reflects under base frame st) {pages : SortedMap PageId PageData}
    (hpages : Overlay.restampPages provisional committed o.dirty.keys o.pages = .ok pages) :
    (∀ p, pages.get? p = none → (restamped provisional committed st).view p = under p) ∧
      ∀ p page, pages.get? p = some page → (restamped provisional committed st).view p = .ok page := by
  have hwritten : ∀ p ∈ o.dirty.keys, (o.pages.get? p).isSome = true := fun p hp => h.written p (h.dirty ▸ hp)
  obtain ⟨pages', hok, hget⟩ := Overlay.restampPages_eq o.dirty.keys_nodup hwritten
  cases hok.symm.trans hpages
  unfold restamped
  simp only [← h.dirty]
  refine ⟨fun p hp => ?_, fun p page hp => ?_⟩
  · rw [hget] at hp
    by_cases hdirty : p ∈ o.dirty.keys
    · rw [if_pos hdirty, Option.map_eq_none_iff] at hp
      have := hwritten p hdirty
      rw [hp] at this
      cases this
    · rw [if_neg hdirty] at hp ⊢
      exact h.unread p hp
  · rw [hget] at hp
    by_cases hdirty : p ∈ o.dirty.keys
    · rw [if_pos hdirty] at hp ⊢
      obtain ⟨page', hpage', rfl⟩ := Option.map_eq_some_iff.mp hp
      rw [h.read p page' hpage']
      rfl
    · rw [if_neg hdirty] at hp ⊢
      exact h.read p page hp

theorem Overlay.Finished.publishes (h : o.Finished sb slot batchId provisional committed prepared)
    (hreflects : o.Reflects under base frame st)
    (hhealthy : Healthy committed (restamped provisional committed st) t free [])
    (hwater : st.state.highWaterPageId < nullPageId)
    (hdirty : ∀ p ∈ st.dirty.keys, firstDataPage ≤ p ∧ p ≤ st.state.highWaterPageId) :
    Publishes base (restamped provisional committed st) committed prepared := by
  obtain ⟨pages, hpages, hchanged⟩ := h.changed
  obtain ⟨hdecoded, himages⟩ := Overlay.encodeChanged_keys hchanged
  obtain ⟨_, hpage⟩ := hreflects.restamp hpages
  have hlsn : committed ≤ u64Max := (Nat.le_succ _).trans h.lsn
  have hwritten : ∀ p ∈ o.dirty.keys, (o.pages.get? p).isSome = true := fun p hp =>
    hreflects.written p (hreflects.dirty ▸ hp)
  obtain ⟨pages', hok, hget⟩ := Overlay.restampPages_eq o.dirty.keys_nodup hwritten
  cases hok.symm.trans hpages
  have hsome : ∀ p ∈ o.dirty.keys, ∃ page, pages.get? p = some page ∧ page.lsn = committed ∧ page.Storable ∧ p ≤ u64Max := by
    intro p hp
    obtain ⟨page, hpg⟩ := Option.isSome_iff_exists.mp (hwritten p hp)
    have hpg' : pages.get? p = some (page.restamp provisional committed) := by
      rw [hget, if_pos hp, hpg]
      rfl
    have hrange := hdirty p (hreflects.dirty ▸ hp)
    obtain ⟨page', hv, hstorable⟩ := hhealthy.storable hlsn hwater hrange
    rw [hpage p _ hpg'] at hv
    cases hv
    exact ⟨_, hpg', page.lsn_restamp .., hstorable, hrange.2.trans hwater.le⟩
  refine ⟨fun p page hp => ?_, fun p hp => ?_, fun p bytes hp => ?_, fun p hp => ?_, ?_, ?_, h.commitLsn, h.lsn⟩
  · rw [hdecoded] at hp
    split at hp
    · exact hpage p page hp
    · cases hp
  · rw [hdecoded] at hp
    by_cases hmem : p ∈ o.dirty.keys
    · obtain ⟨page, hpg, _⟩ := hsome p hmem
      rw [if_pos hmem, hpg] at hp
      cases hp
    · have hclean : p ∉ st.dirty.keys := hreflects.dirty ▸ hmem
      show (if p ∈ st.dirty.keys then _ else _) = _
      rw [if_neg hclean]
      exact hreflects.clean p hclean
  · obtain ⟨hmem, page, hpg, hbytes⟩ := (himages p bytes).mp hp
    obtain ⟨page', hpg', hpagelsn, hstorable, hmax⟩ := hsome p hmem
    cases hpg.symm.trans hpg'
    refine ⟨?_, page, ?_, hstorable.image hmax hbytes, hpagelsn⟩
    · rw [h.highWaterPageId, hreflects.alloc]
      exact hdirty p (hreflects.dirty ▸ hmem)
    · rw [hdecoded, if_pos hmem, hpg]
  · rw [hdecoded]
    by_cases hmem : p ∈ o.dirty.keys
    · obtain ⟨page, hpg, _, hstorable, hmax⟩ := hsome p hmem
      obtain ⟨bytes, hbytes, _⟩ := hstorable.encode_reads hmax
      rw [(himages p bytes).mpr ⟨hmem, page, hpg, hbytes⟩] at hp
      cases hp
    · rw [if_neg hmem]
  · intro p page hp
    rw [h.readPages] at hp
    exact hreflects.reads p page hp
  · rw [h.rootPageId, h.freeListHead, h.highWaterPageId, h.nextRevision, hreflects.alloc]
    rfl

/-- As many pages are to be published as the batch wrote. -/
theorem Overlay.Finished.size_changedPages (h : o.Finished sb slot batchId provisional committed prepared) :
    prepared.changedPages.size = o.dirty.size := by
  obtain ⟨pages, hpages, hchanged⟩ := h.changed
  rw [← SortedMap.length_keys, ← SortedMap.length_keys, SortedMap.keys_eq_of_mem (Overlay.encodeChanged_mem hchanged)]

end Publishes

end Dodb
