import Dodb.Btree.CheckerSound
import Dodb.Btree.Reads
import Dodb.Btree.Simulation
import Dodb.Lib.Redo

/-! Reading a data file the checker has accepted.

The leaves under the root hold one map from keys to entries, and a search, a scan and the
reading of a value compute it. Each is shown on a stage that has the pages of the tree and no
others, and then on an overlay of any store on the file; since the overlay has read only what
the stage has, it has read no page of the free list. -/
namespace Dodb
open Lib PageProg SearchTree

/-! ### Reading what was checked -/

namespace Checked
variable {v : View} {root : PageId} {freeHead : Option PageId} {highWater : PageId} {pages : List PageId}
  {leaves : List Leaf} {s : TreeStage}

theorem length_pages (h : Checked v root freeHead highWater pages leaves) : pages.length ≤ highWater + 1 := by
  have hsub : pages ⊆ List.range (highWater + 1) := fun p hp => List.mem_range.mpr (Nat.lt_succ_of_le (h.range p hp).2)
  simpa using (List.subperm_of_subset h.nodup hsub).length_le

variable (h : Checked v root freeHead highWater pages leaves) (hview : ∀ p ∈ pages, s.view p = v p)
  (hhigh : s.state.highWaterPageId = highWater)
include h hview hhigh

theorem readable {l : Leaf} (hl : l ∈ leaves) {i : Item} (hi : i ∈ l.items) : i.Readable s where
  value stored hstored := by
    obtain ⟨hat, hvalid, hsub⟩ := (h.tree.congr hview).leaf_cell hl
    have hpages : stored.pages = i.pages := by
      rw [Item.pages, Option.mem_def.mp hstored]
      rfl
    have hsub' : stored.pages.Sublist pages := by
      rw [hpages]
      exact ((List.sublist_flatten_of_mem (List.mem_map_of_mem hi)).trans (List.sublist_cons_self ..)).trans hsub
    refine exec_readValue ((hvalid.2 i hi).2 stored hstored) (hat.2 i hi stored hstored) (fun p hp => ?_)
      (h.nodup.sublist hsub')
    rw [hhigh]
    exact h.range p (hsub'.mem hp)

theorem chained : Chained s leaves where
  leaf l hl := by
    obtain ⟨⟨⟨lsn, _, hleaf⟩, _⟩, _, hsub⟩ := (h.tree.congr hview).leaf_cell hl
    refine exec_leaf ?_ hleaf
    rw [hhigh]
    exact h.range _ (hsub.mem List.mem_cons_self)
  linked := h.linked
  readable l hl i hi := h.readable hview hhigh hl hi
  nodup := h.nodup.sublist h.tree.ids_sublist

variable (hroot : s.state.rootPageId = root)
include hroot

theorem exec_findLeaf (key : Bytes) : ∃ l ∈ leaves, ∃ route, exec (findLeaf key) s = .ok (l.id, route) s ∧
    (key ∈ Leaf.keys leaves → key ∈ Leaf.keys [l]) := by
  rw [findLeaf, exec_bind_ok (exec_get s), hroot, hhigh]
  refine (h.tree.congr hview).exec_findLeafFrom key ?_ h.nodup h.length_pages (by simp)
  rw [hhigh]
  exact h.range

theorem exec_scan {limit : Nat} (hlimit : limit ≠ 0) (budget : ResponseBudget) :
    exec (scan none limit budget) s = outcomeOf s
      ((reserveRows budget ((rowsOf (scanVerdict none) (leaves.flatMap SearchTree.Leaf.items)).take limit)).map
        fun budget => ((rowsOf (scanVerdict none) (leaves.flatMap SearchTree.Leaf.items)).take limit, budget)) := by
  have hrange : ∀ p ∈ pages, firstDataPage ≤ p ∧ p ≤ s.state.highWaterPageId := by
    rw [hhigh]
    exact h.range
  obtain ⟨l, rest, hleaves, hexec⟩ := (h.tree.congr hview).exec_leftmostLeafFrom hrange h.nodup h.length_pages
    fun p (hp : p ∈ ([] : List PageId)) => absurd hp List.not_mem_nil
  have hchained := h.chained hview hhigh
  have hlen := h.tree.ids_sublist.length_le.trans h.length_pages
  rw [hleaves] at hchained hlen ⊢
  refine exec_scan_start ?_ hchained ?_ hlimit budget
  · rw [leftmostLeaf, exec_bind_ok (exec_get s), hroot, hhigh, hexec]
  · rw [hhigh]
    simpa using hlen

end Checked

/-! ### The entries under a root -/

/-- `q` is a child of the internal page `p`. -/
def Child (v : View) (p q : PageId) : Prop :=
  ∃ lsn child entries, v p = .ok (.internal lsn child entries) ∧ q ∈ child :: entries.map InternalEntry.rightChild

/-- A leaf page that the children lead to from `root`. -/
def LeafUnder (v : View) (root p : PageId) (entries : List LeafEntry) : Prop :=
  Relation.ReflTransGen (Child v) root p ∧ ∃ lsn next, v p = .ok (.leaf lsn next entries)

namespace Subtree
variable {v : View} {root p : PageId} {pages : List PageId} {leaves : List Leaf}

theorem reached (h : Subtree v root pages leaves) {l : Leaf} (hl : l ∈ leaves) :
    Relation.ReflTransGen (Child v) root l.id := by
  induction h with
  | leaf l' _ _ =>
    rw [List.mem_singleton.mp hl]
  | @node p lsn child entries kids hpage _ hids _ _ ih =>
    obtain ⟨kid, hkid, hl⟩ := List.mem_flatMap.mp hl
    refine (ih kid hkid hl).head ⟨lsn, child, entries, hpage, ?_⟩
    rw [← hids]
    exact List.mem_map_of_mem hkid

/-- Every page the children lead to has its part of the tree. -/
theorem under (h : Subtree v root pages leaves) (hp : Relation.ReflTransGen (Child v) root p) :
    ∃ pages' leaves', Subtree v p pages' leaves' ∧ leaves' ⊆ leaves := by
  induction hp with
  | refl => exact ⟨pages, leaves, h, fun _ hl => hl⟩
  | tail _ hchild ih =>
    obtain ⟨pages', leaves', htree, hsub⟩ := ih
    obtain ⟨lsn, child, entries, hpage, hmem⟩ := hchild
    cases htree with
    | leaf l hat _ =>
      obtain ⟨⟨lsn', _, hleaf⟩, _⟩ := hat
      rw [hpage] at hleaf
      cases hleaf
    | @node _ lsn' child' entries' kids hpage' _ hids _ hkids =>
      rw [hpage] at hpage'
      cases hpage'
      rw [← hids] at hmem
      obtain ⟨kid, hkid, rfl⟩ := List.mem_map.mp hmem
      exact ⟨kid.pages, kid.leaves, hkids kid hkid, fun l hl => hsub (List.mem_flatMap.mpr ⟨kid, hkid, hl⟩)⟩

theorem leafUnder_iff (h : Subtree v root pages leaves) {entries : List LeafEntry} :
    LeafUnder v root p entries ↔ ∃ l ∈ leaves, l.id = p ∧ Leaf.entries l = entries := by
  constructor
  · intro hp
    obtain ⟨hreach, lsn, next, hpage⟩ := hp
    obtain ⟨pages', leaves', htree, hsub⟩ := h.under hreach
    cases htree with
    | leaf l hat _ =>
      obtain ⟨⟨lsn', _, hleaf⟩, _⟩ := hat
      rw [hpage] at hleaf
      cases hleaf
      exact ⟨l, hsub List.mem_cons_self, rfl, rfl⟩
    | node hpage' _ _ _ _ =>
      rw [hpage] at hpage'
      cases hpage'
  · intro hl
    obtain ⟨l, hl, rfl, rfl⟩ := hl
    obtain ⟨⟨⟨lsn, _, hleaf⟩, _⟩, _, _⟩ := h.leaf_cell hl
    exact ⟨h.reached hl, lsn, l.next, hleaf⟩

end Subtree

/-! ### The checker on a data file -/

section File
variable [Crc32c]

theorem readable_fileView (f : File) : Readable (fileView f) := by
  intro p page h
  unfold fileView at h
  split at h
  · obtain ⟨decoded, hdecoded, hpage⟩ := except_bind_eq_ok.mp h
    exact (PageData.storable_of_decode hdecoded hpage).1
  · cases h

/-- The checker runs on the data file as on what the file holds, unless a read fails. -/
theorem fileHandler_sim {files : FileId → File} {α : Type} (p : CheckProg α) :
    Sim (fun (t : Machine FileId TreeCheckState) s =>
      t.files = files ∧ s.view = fileView (files .data) ∧ t.memory = s.state)
      (fun _ _ => True) (fun _ => True) (p.run fileHandler) (exec p) := by
  refine run_sim fileHandler (fun p _ t s hR => ?_) (fun p page t s _ => .inr True.intro) (fun t s hR => ?_)
    (fun x t s hR => ⟨{s with state := x}, rfl, hR.1, hR.2.1, rfl⟩) (readsOnly_true p)
  · obtain ⟨hfiles, hview, hmemory⟩ := hR
    have hspec := readBlock_spec (x := t.memory) (b := t.faulted) p t ⟨hfiles, rfl, rfl⟩
    have hhandler : fileHandler.read p t =
        (readBlock p >>= fun bytes => Io.ofExcept (PageData.decodeAt p bytes)) t := rfl
    rw [hhandler, Io.bind_apply]
    cases hread : readBlock p t with
    | ok bytes t' =>
      rw [hread] at hspec
      obtain ⟨hdecode, _, ht'⟩ := hspec
      dsimp only
      rw [← hdecode]
      cases hpage : fileView (files .data) p with
      | ok page =>
        refine ⟨s, ?_, ht'.files, hview, ht'.memory.trans hmemory⟩
        simp only [Stage.plain, hview, hpage]
      | error e => exact .inr True.intro
    | err e t' => exact .inr True.intro
    | halt t' => exact True.intro
  · refine ⟨s, ?_, hR⟩
    rw [hR.2.2]
    rfl

theorem checkFile_exec {μ : Type} {m m' : Machine FileId μ} {root : PageId} {freeHead : Option PageId}
    {highWater : PageId} {report : InvariantReport} (h : checkFile root freeHead highWater m = .ok report m') :
    ∃ s', exec (checkTree root freeHead highWater) ⟨fileView (m.files .data), .empty, {}⟩ = .ok report s' := by
  have hsim := fileHandler_sim (checkTree root freeHead highWater) ⟨m.files, {}, m.schedule, m.faulted⟩
    ⟨fileView (m.files .data), .empty, {}⟩ ⟨rfl, rfl, rfl⟩
  unfold checkFile at h
  rw [Io.bind_apply] at h
  unfold runOn at h
  cases hrun : (checkTree root freeHead highWater).run fileHandler ⟨m.files, {}, m.schedule, m.faulted⟩ with
  | ok found t =>
    rw [hrun] at h hsim
    cases h
    obtain ⟨s', hexec, _⟩ := hsim
    exact ⟨s', hexec⟩
  | err | halt =>
    rw [hrun] at h
    cases h

/-- A machine of the checker that no I/O failure disturbs, on a data file that has the pages of the stage. -/
structure Undisturbed {μ : Type} (m : Machine FileId μ) (t : Machine FileId TreeCheckState) (s : CheckStage) : Prop where
  machine : t = ⟨m.files, s.state, [], m.faulted⟩
  pages : ∀ p page, s.view p = .ok page → fileView (m.files .data) p = .ok page

/-- A check that succeeds on some pages succeeds on a data file that has them. -/
theorem checkFile_quiet {μ : Type} {m : Machine FileId μ} {root : PageId} {freeHead : Option PageId}
    {highWater : PageId} {report : InvariantReport} {v : View} {s' : CheckStage} (hquiet : m.schedule = [])
    (hpages : ∀ p page, v p = .ok page → fileView (m.files .data) p = .ok page)
    (h : exec (checkTree root freeHead highWater) ⟨v, .empty, {}⟩ = .ok report s')
    (hclean : s'.dirty = .empty) : checkFile root freeHead highWater m = .ok report m := by
  have hread : ∀ p, Follows (Undisturbed m) (fileHandler.read p) (Stage.plain.read p) := by
    intro p t s page s₁ hR hplain
    simp only [Stage.plain] at hplain
    cases hpage : s.view p with
    | error e =>
      rw [hpage] at hplain
      cases hplain
    | ok found =>
      rw [hpage] at hplain
      cases hplain
      have hschedule : t.schedule = [] := by rw [hR.machine]
      have hfile : fileView (t.files .data) p = .ok page := by rw [hR.machine, hR.pages p page hpage]
      obtain ⟨bytes, hblock, hdecode⟩ := readBlock_quiet hschedule hfile
      have hhandler : fileHandler.read p t =
          (readBlock p >>= fun bytes => Io.ofExcept (PageData.decodeAt p bytes)) t := rfl
      refine ⟨t, ?_, hR⟩
      rw [hhandler, Io.bind_apply, hblock]
      dsimp only
      rw [hdecode]
      rfl
  have hget : Follows (Undisturbed m) fileHandler.get Stage.plain.get := by
    intro t s a s₁ hR hplain
    cases hplain
    refine ⟨t, ?_, hR⟩
    rw [hR.machine]
    rfl
  have hput : ∀ x, Follows (Undisturbed m) (fileHandler.put x) (Stage.plain.put x) := by
    intro x t s u s₁ hR hplain
    cases hplain
    refine ⟨_, rfl, ?_, hR.pages⟩
    rw [hR.machine]
    rfl
  have hstart : Undisturbed m ⟨m.files, {}, [], m.faulted⟩ ⟨v, .empty, {}⟩ := ⟨rfl, hpages⟩
  obtain ⟨t, hrun, ht, _⟩ := run_follows_clean fileHandler hread hget hput _ hstart h hclean
  unfold checkFile
  rw [Io.bind_apply]
  unfold runOn
  rw [hquiet, hrun, ht]
  dsimp only
  rw [← hquiet]
  rfl

end File

/-! ### Stores on an accepted file -/

/-- A store on the data file `f` with the given metadata, nothing dirty, and no I/O failure to come. -/
structure OpenOn [Crc32c] (f : File) (root : PageId) (freeHead : Option PageId) (highWater : PageId)
    (n : Machine FileId Store) : Prop where
  data : n.files .data = f
  dirty : n.memory.dirtyPages = .empty
  cache : n.memory.cache.Coherent (fileView f)
  rootPageId : n.memory.rootPageId = root
  freeListHead : n.memory.freeListHead = freeHead
  highWaterPageId : n.memory.highWaterPageId = highWater
  quiet : n.schedule = []

/-- On an overlay of the store, `p` succeeds with an answer that has `Q`, and reads no page of the
free list. -/
def Answers [Crc32c] {α : Type} (n : Machine FileId Store) (p : Prog α) (Q : α → Prop) : Prop :=
  ∃ a m, Overlay.exec p ⟨n.files, Overlay.new n.memory, n.schedule, n.faulted⟩ = .ok a m ∧ Q a ∧
    ∀ q, OnFreeList (fileView (n.files .data)) n.memory.freeListHead q → m.memory.pages.get? q = none

section Open
variable [Crc32c]

/-- The pages of a tree, and no other page. -/
def onlyPages (pages : List PageId) (v : View) : View := fun p =>
  if p ∈ pages then v p else .error (.internalInvariantViolation "page is not in the tree")

theorem Checked.answers {f : File} {root : PageId} {freeHead : Option PageId} {highWater : PageId}
    {pages : List PageId} {leaves : List Leaf} (h : Checked (fileView f) root freeHead highWater pages leaves)
    {n : Machine FileId Store} (hn : OpenOn f root freeHead highWater n) {α : Type} {p : Prog α} {Q : α → Prop}
    (hp : ∀ s : TreeStage, (∀ p ∈ pages, s.view p = fileView f p) → s.state.highWaterPageId = highWater →
      s.state.rootPageId = root → ∃ a, exec p s = .ok a s ∧ Q a) : Answers n p Q := by
  obtain ⟨s, hs⟩ : ∃ s : TreeStage, s = ⟨onlyPages pages (fileView f), .empty, (Overlay.new n.memory).alloc⟩ := ⟨_, rfl⟩
  have hview : ∀ p ∈ pages, s.view p = fileView f p := fun p hp => by
    rw [hs]
    exact if_pos hp
  have hnone : n.memory.view n.files = fileView f := by
    funext p
    rw [Store.view, hn.dirty, hn.data]
    rfl
  obtain ⟨a, hexec, hQ⟩ := hp s hview (by rw [hs]; exact hn.highWaterPageId) (by rw [hs]; exact hn.rootPageId)
  have hcovers : Overlay.Covers n.files n.memory ⟨n.files, Overlay.new n.memory, n.schedule, n.faulted⟩ s := by
    refine ⟨⟨?_, ⟨n.memory.cache, rfl⟩, rfl⟩, hn.quiet, fun p page hp => (nomatch hp), fun p page _ hp => ?_, by rw [hs]⟩
    · rw [hnone]
      exact hn.cache
    · by_cases hmem : p ∈ pages
      · rw [hnone, ← hview p hmem, hp]
      · rw [hs] at hp
        dsimp only [onlyPages] at hp
        rw [if_neg hmem] at hp
        cases hp
  obtain ⟨m, hrun, hcover⟩ := Overlay.exec_covers p _ s a s hcovers hexec
  refine ⟨a, m, hrun, hQ, fun q hq => ?_⟩
  rw [hn.data, hn.freeListHead] at hq
  cases hpage : m.memory.pages.get? q with
  | none => rfl
  | some page =>
    have hread := hcover.read q page hpage
    rw [hs] at hread
    dsimp only [onlyPages] at hread
    rw [if_neg (h.free q hq)] at hread
    cases hread

/-- The leaves under the root hold one map, and every store on the file reads it. -/
structure ReadsAs (f : File) (root : PageId) (freeHead : Option PageId) (highWater : PageId) (items : List Item) :
    Prop where
  ordered : items.Pairwise fun a b => a.key < b.key
  entries : ∀ entry, (∃ p found, LeafUnder (fileView f) root p found ∧ entry ∈ found) ↔ ∃ i ∈ items, i.entry = entry
  /-- A search ends at a leaf under the root that has the key's entry, if any leaf there has. -/
  findLeaf : ∀ n, OpenOn f root freeHead highWater n → ∀ key, Answers n (findLeaf key) fun answer =>
    ∃ found, LeafUnder (fileView f) root answer.1 found ∧ ∀ i ∈ items, i.sortKey = key → i.entry ∈ found
  /-- A scan that the budget allows gives every row in order, up to the limit. -/
  scan : ∀ n, OpenOn f root freeHead highWater n → ∀ limit budget charged, limit ≠ 0 →
    reserveRows budget ((items.filterMap Item.row).take limit) = .ok charged →
      Answers n (scan none limit budget) fun answer => answer = ((items.filterMap Item.row).take limit, charged)
  /-- Every value is read with the length its entry records. -/
  readValue : ∀ n, OpenOn f root freeHead highWater n → ∀ i ∈ items, ∀ stored ∈ i.value,
    Answers n (readValue stored.ref) fun bytes => bytes = stored.bytes ∧ bytes.length = valueLength stored.ref

omit [Crc32c] in
theorem rowsOf_scan_none (items : List Item) : rowsOf (scanVerdict none) items = items.filterMap Item.row := by
  induction items with
  | nil => rfl
  | cons i rest ih =>
    rw [rowsOf, List.filterMap_cons, ← ih]
    cases i.row <;> rfl

theorem checkFile_reads {μ : Type} {m m' : Machine FileId μ} {root : PageId} {freeHead : Option PageId}
    {highWater : PageId} {report : InvariantReport} (h : checkFile root freeHead highWater m = .ok report m') :
    ∃ items, ReadsAs (m.files .data) root freeHead highWater items := by
  obtain ⟨s', hexec⟩ := checkFile_exec h
  obtain ⟨pages, leaves, hchecked⟩ := checkTree_sound (readable_fileView (m.files .data)) rfl hexec
  dsimp only at hchecked
  have hsorted := hchecked.tree.sorted
  have hunder : ∀ {p : PageId} {found : List LeafEntry}, LeafUnder (fileView (m.files .data)) root p found ↔
      ∃ l ∈ leaves, l.id = p ∧ Leaf.entries l = found := hchecked.tree.leafUnder_iff
  refine ⟨leaves.flatMap SearchTree.Leaf.items, ?_, fun entry => ⟨?_, ?_⟩, fun n hn key => ?_, ?_, ?_⟩
  · exact (List.pairwise_map.mp hsorted).imp fun hlt => (DocumentKey.encode_lt_encode ..).mp hlt
  · intro hentry
    obtain ⟨p, found, hleaf, hmem⟩ := hentry
    obtain ⟨l, hl, -, rfl⟩ := hunder.mp hleaf
    obtain ⟨i, hi, rfl⟩ := List.mem_map.mp hmem
    exact ⟨i, List.mem_flatMap.mpr ⟨l, hl, hi⟩, rfl⟩
  · intro hentry
    obtain ⟨i, hi, rfl⟩ := hentry
    obtain ⟨l, hl, hil⟩ := List.mem_flatMap.mp hi
    exact ⟨l.id, Leaf.entries l, hunder.mpr ⟨l, hl, rfl, rfl⟩, List.mem_map_of_mem hil⟩
  · refine hchecked.answers hn fun s hview hhigh hroot => ?_
    obtain ⟨l, hl, route, hfind, hkey⟩ := hchecked.exec_findLeaf hview hhigh hroot key
    refine ⟨_, hfind, Leaf.entries l, hunder.mpr ⟨l, hl, rfl, rfl⟩, fun i hi hik => ?_⟩
    -- the leaf has an item with the key of `i`, and no two items have one key
    have hmem : key ∈ Leaf.keys [l] := hkey (hik ▸ List.mem_map_of_mem hi)
    obtain ⟨j, hj, hjk⟩ := List.mem_map.mp hmem
    rw [List.flatMap_singleton] at hj
    have hall : j ∈ leaves.flatMap SearchTree.Leaf.items := List.mem_flatMap.mpr ⟨l, hl, hj⟩
    rw [List.inj_on_of_nodup_map (hsorted.imp ne_of_lt) hi hall (hik.trans hjk.symm)]
    exact List.mem_map_of_mem hj
  · intro n hn limit budget charged hlimit hcharged
    refine hchecked.answers hn fun s hview hhigh hroot => ⟨_, ?_, rfl⟩
    rw [hchecked.exec_scan hview hhigh hroot hlimit, rowsOf_scan_none, hcharged]
    rfl
  · intro n hn i hi stored hstored
    obtain ⟨l, hl, hil⟩ := List.mem_flatMap.mp hi
    refine hchecked.answers hn fun s hview hhigh _ => ?_
    refine ⟨_, (hchecked.readable hview hhigh hl hil).value stored hstored, rfl, ?_⟩
    rw [valueLength_ref]

end Open

/-! A data file with an internal page, two leaves, the page of a long value and a free page. -/

def sampleTree : List PageData :=
  [.internal 5 3 [⟨DocumentKey.encode ⟨[5], []⟩, 4⟩],
    .leaf 5 (some 4) [⟨DocumentKey.encode ⟨[1], [2]⟩, 5, some (.inline [7])⟩],
    .leaf 5 none [⟨DocumentKey.encode ⟨[5], []⟩, 4, some (.overflow 5 3)⟩],
    .overflow 4 none 3 [7, 8, 9], .free 5 none]

theorem sampleTree_storable : ∀ page ∈ sampleTree, page.Storable := by
  intro page hpage
  simp only [sampleTree, List.mem_cons, List.not_mem_nil, or_false] at hpage
  rcases hpage with rfl | rfl | rfl | rfl | rfl
  · exact ⟨by decide, by decide, by decide +kernel, by decide⟩
  · refine ⟨by decide, by decide, by decide +kernel, fun e he => ?_⟩
    rw [List.mem_singleton.mp he]
    exact ⟨by decide, show ([7] : Bytes).length ≤ maxValueSize by decide⟩
  · refine ⟨by decide, by decide, by decide +kernel, fun e he => ?_⟩
    rw [List.mem_singleton.mp he]
    exact ⟨by decide, show 5 < nullPageId ∧ 3 ≠ 0 ∧ 3 ≤ maxValueSize by decide⟩
  · exact ⟨by decide, by decide, by decide, by decide, by decide⟩
  · exact ⟨by decide, by decide⟩

/-- The pages of the tree, and no other. -/
def sampleView : View := fun p => match if 2 ≤ p then sampleTree[p - 2]? else none with
  | some page => .ok page
  | none => .error (.internalInvariantViolation "page is not in the tree")

theorem checkTree_sampleView : ∃ s', exec (checkTree 2 (some 6) 6) ⟨sampleView, .empty, {}⟩ = .ok ⟨4, 1, [], 5⟩ s' ∧
    s'.dirty = .empty := by
  have hcheck : (match exec (checkTree 2 (some 6) 6) ⟨sampleView, .empty, {}⟩ with
    | .ok report s => decide (report = ⟨4, 1, [], 5⟩ ∧ s.dirty = .empty)
    | _ => false) = true := by decide +kernel
  cases hexec : exec (checkTree 2 (some 6) 6) ⟨sampleView, .empty, {}⟩ with
  | ok report s' =>
    rw [hexec] at hcheck
    obtain ⟨rfl, hdirty⟩ := of_decide_eq_true hcheck
    exact ⟨s', rfl, hdirty⟩
  | err | halt =>
    rw [hexec] at hcheck
    cases hcheck

/-- The blocks of a file with the pages of the tree. -/
def sampleBlocks [Crc32c] : List Bytes :=
  List.replicate 2 (zeros pageSize) ++ sampleTree.mapIdx fun i page => (page.encode (i + 2)).toOption.getD []

theorem encode_sampleTree [Crc32c] {i : Nat} (hi : i < sampleTree.length) : ∃ bytes,
    sampleTree[i].encode (i + 2) = .ok bytes ∧ bytes.length = pageSize ∧
      PageData.decodeAt (i + 2) bytes = .ok sampleTree[i] := by
  have hid : i + 2 ≤ u64Max := (Nat.add_le_add_right hi.le 2).trans (by decide)
  have hstorable := sampleTree_storable _ (List.getElem_mem hi)
  obtain ⟨bytes, hencode, hlen, -⟩ := hstorable.encode_reads hid
  exact ⟨bytes, hencode, hlen, hstorable.decodeAt_encode hid hencode⟩

theorem length_of_mem_sampleBlocks [Crc32c] : ∀ b ∈ sampleBlocks, b.length = pageSize := by
  intro b hb
  obtain hpad | hpage := List.mem_append.mp hb
  · rw [(List.mem_replicate.mp hpad).2, length_zeros]
  · obtain ⟨i, hi, rfl⟩ := List.mem_mapIdx.mp hpage
    obtain ⟨bytes, hencode, hlen, -⟩ := encode_sampleTree hi
    rw [hencode]
    exact hlen

theorem fileView_sampleBlocks [Crc32c] (p : PageId) (page : PageData) (h : sampleView p = .ok page) :
    fileView (.ofDurable sampleBlocks.flatten) p = .ok page := by
  unfold sampleView at h
  split at h
  · rename_i found hfound
    cases h
    split at hfound
    · rename_i hp
      obtain ⟨hi, rfl⟩ := List.getElem?_eq_some_iff.mp hfound
      obtain ⟨i, rfl⟩ := Nat.exists_eq_add_of_le' hp
      rw [Nat.add_sub_cancel] at hi
      obtain ⟨bytes, hencode, hlen, hdecode⟩ := encode_sampleTree hi
      have hblock : sampleBlocks[i + 2]? = some bytes := by
        rw [sampleBlocks, List.getElem?_append_right (by simp), List.getElem?_mapIdx]
        simp [hi, hencode, Except.toOption]
      simp only [Nat.add_sub_cancel]
      exact fileView_of_block (File.block_flatten length_of_mem_sampleBlocks hblock) hlen hdecode
    · cases hfound
  · cases h

theorem checkFile_reads_sampleTree : ∃ f : File,
    @checkFile castagnoli Unit 2 (some 6) 6 ⟨fun _ => f, (), [], false⟩ = .ok ⟨4, 1, [], 5⟩ ⟨fun _ => f, (), [], false⟩ ∧
      ∃ items, @ReadsAs castagnoli f 2 (some 6) 6 items := by
  obtain ⟨s', hexec, hclean⟩ := checkTree_sampleView
  have hcheck := @checkFile_quiet castagnoli Unit ⟨fun _ => .ofDurable (@sampleBlocks castagnoli).flatten, (), [], false⟩
    2 (some 6) 6 _ _ s' rfl (@fileView_sampleBlocks castagnoli) hexec hclean
  exact ⟨_, hcheck, @checkFile_reads castagnoli _ _ _ _ _ _ _ hcheck⟩

end Dodb
