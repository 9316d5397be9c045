import Dodb.Btree.Store
import Dodb.Btree.Represents
import Dodb.Btree.DataPages

/-! The overlay as a stage.

What a store reads as is fixed by its dirty pages and the data file (`Store.view`); its
cache only has to agree with that (`PageCache.Coherent`). An overlay on the store models
a stage when each of its pages is the stage's and every other page of the stage is the
store's. Each operation of the overlay then does to the one what the plain operation does
to the other, or meets an I/O failure, so every tree program runs on an overlay as it runs
on the stage (`Overlay.exec_models`). -/
namespace Dodb
open Lib PageProg

/-! ### The page cache -/

namespace PageCache

/-- The pages in the cache are data pages, and those of `v`. -/
structure Coherent (v : View) (cache : PageCache) : Prop where
  page : ∀ p entry, cache.pages.get? p = some entry → v p = .ok entry.page
  data : ∀ p entry, cache.pages.get? p = some entry → firstDataPage ≤ p
  empty : cache.capacity = 0 → cache.pages = .empty

theorem coherent_new (v : View) (capacity : Nat) : (new capacity).Coherent v :=
  ⟨fun _ _ h => (nomatch h), fun _ _ h => (nomatch h), fun _ => rfl⟩

variable {v v' : View} {cache : PageCache}

theorem get_fst (cache : PageCache) (p : PageId) : (cache.get p).1 = (cache.pages.get? p).map CacheEntry.page := by
  unfold get tick
  dsimp only
  cases cache.pages.get? p <;> rfl

theorem Coherent.get (h : cache.Coherent v) (p : PageId) : (cache.get p).2.Coherent v := by
  unfold PageCache.get tick
  dsimp only
  cases hp : cache.pages.get? p with
  | none => exact ⟨h.page, h.data, h.empty⟩
  | some entry =>
    refine ⟨fun q e hq => ?_, fun q e hq => ?_, fun hzero => ?_⟩
    · obtain ⟨rfl, rfl⟩ | ⟨-, hq⟩ := SortedMap.get?_insert_eq_some.mp hq
      · exact h.page q entry hp
      · exact h.page q e hq
    · obtain ⟨rfl, -⟩ | ⟨-, hq⟩ := SortedMap.get?_insert_eq_some.mp hq
      · exact h.data q entry hp
      · exact h.data q e hq
    · rw [h.empty hzero] at hp
      cases hp

/-- Eviction only removes pages. -/
theorem get?_evict {capacity n : Nat} {pages : SortedMap PageId CacheEntry} {p : PageId} {entry : CacheEntry}
    (h : (evict capacity n pages).get? p = some entry) : pages.get? p = some entry := by
  induction n generalizing pages with
  | zero => exact h
  | succ n ih =>
    unfold evict at h
    split at h
    · exact h
    · split at h
      · exact h
      · have := ih h
        rw [SortedMap.get?_erase] at this
        split at this
        · cases this
        · exact this

/-- The cache with pages poured into it is coherent with a view that has them, and is otherwise the one
it was coherent with. -/
theorem Coherent.insert_list {pages : List (PageId × PageData)}
    (hpages : ∀ a ∈ pages, firstDataPage ≤ a.1 ∧ v' a.1 = .ok a.2)
    (hcache : ∀ p entry, cache.pages.get? p = some entry → v' p = .ok entry.page ∨ p ∈ pages.map Prod.fst)
    (hdata : ∀ p entry, cache.pages.get? p = some entry → firstDataPage ≤ p)
    (hempty : cache.capacity = 0 → cache.pages = .empty) :
    (pages.foldl (fun cache a => cache.insert a.1 a.2) cache).Coherent v' := by
  induction pages generalizing cache with
  | nil => exact ⟨fun p entry hp => (hcache p entry hp).resolve_right (by simp), hdata, hempty⟩
  | cons a rest ih =>
    rw [List.foldl_cons]
    have hrest : ∀ b ∈ rest, firstDataPage ≤ b.1 ∧ v' b.1 = .ok b.2 := fun b hb => hpages b (List.mem_cons_of_mem _ hb)
    unfold PageCache.insert
    by_cases hzero : cache.capacity = 0
    · rw [if_pos hzero]
      refine ih hrest (fun p entry hp => ?_) hdata hempty
      rw [hempty hzero] at hp
      cases hp
    · rw [if_neg hzero]
      have hfound : ∀ n p entry, (evict cache.capacity n (cache.tick.pages.insert a.1 ⟨a.2, cache.tick.clock⟩)).get? p =
          some entry → p = a.1 ∧ entry.page = a.2 ∨ p ≠ a.1 ∧ cache.pages.get? p = some entry := by
        intro n p entry hp
        obtain ⟨hpa, rfl⟩ | hp := SortedMap.get?_insert_eq_some.mp (get?_evict hp)
        · exact .inl ⟨hpa, rfl⟩
        · exact .inr hp
      refine ih hrest (fun p entry hp => ?_) (fun p entry hp => ?_) fun h => absurd h hzero
      · rcases hfound _ p entry hp with ⟨hpa, hpage⟩ | ⟨hpa, hp⟩
        · rw [hpa, hpage]
          exact .inl (hpages a List.mem_cons_self).2
        · refine (hcache p entry hp).imp_right fun hmem => ?_
          exact (List.mem_cons.mp hmem).resolve_left hpa
      · rcases hfound _ p entry hp with ⟨hpa, _⟩ | ⟨_, hp⟩
        · rw [hpa]
          exact (hpages a List.mem_cons_self).1
        · exact hdata p entry hp

/-- Pages the view already has. -/
theorem Coherent.insertMany (h : cache.Coherent v) {pages : SortedMap PageId PageData}
    (hpages : ∀ p page, pages.get? p = some page → firstDataPage ≤ p ∧ v p = .ok page) :
    (cache.insertMany pages).Coherent v :=
  Coherent.insert_list (fun a ha => hpages a.1 a.2 ((pages.get?_eq_some_iff ..).mpr ha))
    (fun p entry hp => .inl (h.page p entry hp)) h.data h.empty

/-- Pages the view has changed to. -/
theorem Coherent.insertMany_changed (h : cache.Coherent v) {pages : SortedMap PageId PageData}
    (hpages : ∀ p page, pages.get? p = some page → firstDataPage ≤ p ∧ v' p = .ok page)
    (hother : ∀ p page, firstDataPage ≤ p → pages.get? p = none → v p = .ok page → v' p = .ok page) :
    (cache.insertMany pages).Coherent v' := by
  refine Coherent.insert_list (fun a ha => hpages a.1 a.2 ((pages.get?_eq_some_iff ..).mpr ha))
    (fun p entry hp => ?_) h.data h.empty
  by_cases hnone : pages.get? p = none
  · exact .inl (hother p _ (h.data p entry hp) hnone (h.page p entry hp))
  · exact .inr (by_contra fun hmem => hnone ((pages.get?_eq_none_iff p).mpr hmem))

/-- Data pages that read as before. -/
theorem Coherent.congr (h : cache.Coherent v) (hview : ∀ p page, firstDataPage ≤ p → v p = .ok page → v' p = .ok page) :
    cache.Coherent v' :=
  ⟨fun p entry hp => hview p _ (h.data p entry hp) (h.page p entry hp), h.data, h.empty⟩

end PageCache

/-! ### What a store reads as -/

variable [Crc32c]

/-- What a data file holds of a page. -/
def fileView (f : File) (p : PageId) : Result PageData :=
  if (slice f.volatile (p * pageSize) pageSize).length = pageSize then
    PageData.decodeAt p (slice f.volatile (p * pageSize) pageSize)
  else .error (.corruption "unexpected end of database file")

theorem fileView_of_block {f : File} {p : PageId} {bytes : Bytes} {page : PageData}
    (hblock : slice f.volatile (p * pageSize) pageSize = bytes) (hlen : bytes.length = pageSize)
    (hpage : PageData.decodeAt p bytes = .ok page) : fileView f p = .ok page := by
  rw [fileView, hblock, if_pos hlen, hpage]

namespace Store

/-- The pages a store serves: the ones not yet written, and those of the file. -/
def view (files : FileId → File) (s : Store) (p : PageId) : Result PageData :=
  match s.dirtyPages.get? p with
  | some bytes => PageData.decodeAt p bytes
  | none => fileView (files .data) p

/-- The committed pages, with nothing written on them. -/
def stage (files : FileId → File) (s : Store) : TreeStage :=
  ⟨s.view files, .empty, ⟨s.rootPageId, s.freeListHead, s.highWaterPageId, s.nextRevision, none⟩⟩

end Store

section Read
variable {files : FileId → File} {b : Bool} {μ : Type} {x : μ}

theorem readBlock_spec (p : PageId) : Io.Spec (Machine.At files x b) (readBlock p)
    (fun bytes m => fileView (files .data) p = PageData.decodeAt p bytes ∧
      bytes = slice (files .data).volatile (p * pageSize) pageSize ∧ m.At files x b)
    (fun e m => fileView (files .data) p = .error e ∧ m.At files x b ∨ e = ioFailure ∧ m.At files x true)
    (fun m => m.At files x b) := by
  refine readAt_spec.conseq (fun _ h => h) ?_ ?_ fun _ h => h
  · intro bytes m h
    obtain ⟨hbytes, hlen, hm⟩ := h
    refine ⟨?_, hbytes, hm⟩
    rw [hbytes] at hlen
    rw [fileView, if_pos hlen, hbytes]
  · intro e m h
    rcases h with ⟨he, hlen, hm⟩ | hfault
    · exact .inl ⟨by rw [fileView, if_neg hlen, he], hm⟩
    · exact .inr hfault

theorem readPageFromFile_spec {s : Store} (p : PageId) : Io.Spec (Machine.At files s b) (readPageFromFile p)
    (fun page m => s.view files p = .ok page ∧ m.At files s b)
    (fun e m => s.view files p = .error e ∧ m.At files s b ∨ e = ioFailure ∧ m.At files s true)
    (fun m => m.At files s b) := by
  refine Io.Spec.of_start fun m₀ hm₀ => ?_
  have hmemory : Io.Spec (fun m => m = m₀) (memory : Io (Machine FileId Store) Error Store)
      (fun store m => store = s ∧ m.At files s b)
      (fun e m => s.view files p = .error e ∧ m.At files s b ∨ e = ioFailure ∧ m.At files s true) (fun m => m.At files s b) := fun m hm => by
    rw [hm]
    exact ⟨hm₀.memory, hm₀⟩
  refine Io.Spec.bind hmemory fun store => .assume fun hstore => ?_
  rw [hstore]
  unfold Store.view
  cases s.dirtyPages.get? p with
  | some bytes =>
    refine Io.Spec.ofExcept (fun page m hpage hm => ⟨hpage, hm⟩) fun e m he hm => .inl ⟨he, hm⟩
  | none =>
    refine Io.Spec.bind (readBlock_spec p) fun bytes => .assume fun hview => .assume fun _ => ?_
    rw [hview]
    exact Io.Spec.ofExcept (fun page m hpage hm => ⟨hpage, hm⟩) fun e m he hm => .inl ⟨he, hm⟩

theorem readBlock_quiet {m : Machine FileId μ} {p : PageId} {page : PageData} (hquiet : m.schedule = [])
    (hview : fileView (m.files .data) p = .ok page) :
    ∃ bytes, readBlock p m = .ok bytes m ∧ PageData.decodeAt p bytes = .ok page := by
  unfold fileView at hview
  by_cases hlen : (slice (m.files .data).volatile (p * pageSize) pageSize).length = pageSize
  · rw [if_pos hlen] at hview
    have hle : p * pageSize + pageSize ≤ (m.files .data).volatile.length := by
      have hpos : 0 < pageSize := by decide
      simp only [slice, List.length_take, List.length_drop, min_eq_left_iff] at hlen
      lia
    exact ⟨_, readAt_quiet hquiet hle, hview⟩
  · rw [if_neg hlen] at hview
    cases hview

theorem readPageFromFile_quiet {m : Machine FileId Store} {p : PageId} {page : PageData} (hquiet : m.schedule = [])
    (hview : m.memory.view m.files p = .ok page) : readPageFromFile p m = .ok page m := by
  unfold readPageFromFile
  unfold Store.view at hview
  rw [Io.bind_apply]
  simp only [memory]
  cases hdirty : m.memory.dirtyPages.get? p with
  | some bytes =>
    rw [hdirty] at hview
    dsimp only at hview ⊢
    rw [hview]
    rfl
  | none =>
    rw [hdirty] at hview
    obtain ⟨bytes, hread, hpage⟩ := readBlock_quiet hquiet hview
    dsimp only
    rw [Io.bind_apply, hread]
    dsimp only
    rw [hpage]
    rfl

end Read

/-! ### Overlays that model a stage -/

namespace Overlay

/-- What of an overlay the tree code does not touch. -/
def frame (o : Overlay) : Lsn × Nat × Superblock × SuperblockSlot :=
  (o.nextLsn, o.nextBatchId, o.currentSuperblock, o.activeSlot)

/-- The overlay reads as the stage: `under` is what is beneath its own pages, `base` what the stage was when
the transaction on it began. -/
structure Reflects (under base : View) (frame : Lsn × Nat × Superblock × SuperblockSlot) (o : Overlay)
    (st : TreeStage) : Prop where
  frame : o.frame = frame
  read : ∀ p page, o.pages.get? p = some page → st.view p = .ok page
  unread : ∀ p, o.pages.get? p = none → st.view p = under p
  dirty : o.dirty = st.dirty
  written : ∀ p ∈ st.dirty.keys, (o.pages.get? p).isSome = true
  alloc : o.alloc = st.state
  reads : ∀ p page, o.readPages.get? p = some page → firstDataPage ≤ p ∧ base p = .ok page
  clean : ∀ p, p ∉ st.dirty.keys → st.view p = base p

omit [Crc32c] in
/-- A page that was read is kept. -/
theorem Reflects.keep {under base : View} {frame : Lsn × Nat × Superblock × SuperblockSlot} {o : Overlay}
    {st : TreeStage} {p : PageId} {page : PageData} (h : Reflects under base frame o st)
    (hdata : firstDataPage ≤ p) (hnone : o.pages.get? p = none) (hview : st.view p = .ok page) (store : Store)
    {reads : SortedMap PageId PageData} (hreads : reads = o.readPages ∨ reads = o.readPages.insert p page) :
    Reflects under base frame {o with store, pages := o.pages.insert p page, readPages := reads} st where
  frame := h.frame
  read q page' hq := by
    obtain ⟨rfl, rfl⟩ | ⟨-, hq⟩ := SortedMap.get?_insert_eq_some.mp hq
    · exact hview
    · exact h.read q page' hq
  unread q hq := h.unread q (SortedMap.get?_insert_eq_none.mp hq).2
  dirty := h.dirty
  written q hq := by
    rw [← SortedMap.mem_keys_iff]
    exact SortedMap.mem_keys_insert.mpr (.inr ((SortedMap.mem_keys_iff ..).mpr (h.written q hq)))
  alloc := h.alloc
  reads q page' hq := by
    rcases hreads with rfl | rfl
    · exact h.reads q page' hq
    · obtain ⟨rfl, rfl⟩ | ⟨-, hq⟩ := SortedMap.get?_insert_eq_some.mp hq
      · have hclean : q ∉ st.dirty.keys := fun hq => by
          have := h.written q hq
          rw [hnone] at this
          cases this
        exact ⟨hdata, (h.clean q hclean).symm.trans hview⟩
      · exact h.reads q page' hq
  clean := h.clean

omit [Crc32c] in
theorem Reflects.write {under base : View} {frame : Lsn × Nat × Superblock × SuperblockSlot} {o : Overlay}
    {st : TreeStage} (h : Reflects under base frame o st) (p : PageId) (page : PageData) :
    Reflects under base frame {o with pages := o.pages.insert p page, dirty := o.dirty.insert p ()}
      (st.write p page) where
  frame := h.frame
  read q page' hq := by
    obtain ⟨rfl, rfl⟩ | ⟨hqp, hq⟩ := SortedMap.get?_insert_eq_some.mp hq
    · exact Stage.view_write_same ..
    · exact (Stage.view_write_ne _ _ hqp).trans (h.read q page' hq)
  unread q hq := by
    obtain ⟨hqp, hq⟩ := SortedMap.get?_insert_eq_none.mp hq
    exact (Stage.view_write_ne _ _ hqp).trans (h.unread q hq)
  dirty := by
    rw [Stage.dirty_write, ← h.dirty]
  written q hq := by
    dsimp only
    rw [Stage.dirty_write, SortedMap.mem_keys_insert] at hq
    rw [SortedMap.get?_insert]
    by_cases hqp : q = p
    · rw [if_pos hqp]
      rfl
    · rw [if_neg hqp]
      exact h.written q (hq.resolve_left hqp)
  alloc := h.alloc
  reads := h.reads
  clean q hq := by
    rw [Stage.dirty_write, SortedMap.mem_keys_insert, not_or] at hq
    exact (Stage.view_write_ne _ _ hq.1).trans (h.clean q hq.2)

/-- The machine of an overlay on `store`. -/
structure On (files : FileId → File) (store : Store) (m : Machine FileId Overlay) : Prop where
  coherent : m.memory.store.cache.Coherent (store.view files)
  same : ∃ cache, m.memory.store = {store with cache}
  files : m.files = files

/-- An overlay whose pages are those of the stage. -/
structure Models (files : FileId → File) (store : Store) (base : View) (frame : Lsn × Nat × Superblock × SuperblockSlot)
    (b : Bool) (m : Machine FileId Overlay) (st : TreeStage) : Prop where
  on : On files store m
  faulted : m.faulted = b
  reflects : Reflects (store.view files) base frame m.memory st

section Sim
variable {files : FileId → File} {store : Store} {base : View} {frame : Lsn × Nat × Superblock × SuperblockSlot} {b : Bool}

/-- An I/O failure leaves the store as it was. -/
def Failed (files : FileId → File) (store : Store) (e : Error) (m : Machine FileId Overlay) : Prop :=
  e = ioFailure ∧ On files store m ∧ m.faulted = true

abbrev Simulates {α : Type} (files : FileId → File) (store : Store) (base : View)
    (frame : Lsn × Nat × Superblock × SuperblockSlot) (b : Bool) (p : Io (Machine FileId Overlay) Error α)
    (q : Io TreeStage Error α) : Prop :=
  Sim (Models files store base frame b) (Failed files store) (On files store) p q

theorem readPage_sim (p : PageId) (hp : firstDataPage ≤ p) : Simulates files store base frame b (readPage p) (Stage.plain.read p) := by
  intro m st h
  obtain ⟨cache₀, hstore⟩ := h.on.same
  unfold readPage
  rw [Io.bind_apply]
  simp only [memory, Stage.plain]
  cases hpages : m.memory.pages.get? p with
  | some page =>
    rw [h.reflects.read p page hpages]
    exact ⟨st, rfl, h⟩
  | none =>
    have hview := h.reflects.unread p hpages
    have hfst := m.memory.store.cache.get_fst p
    have hcoherent := h.on.coherent.get p
    generalize m.memory.store.cache.get p = looked at hfst hcoherent ⊢
    obtain ⟨hit, cache⟩ := looked
    dsimp only at hfst hcoherent ⊢
    have hon : ∀ m' : Machine FileId Overlay, m'.files = files → m'.memory.store = {store with cache} →
        On files store m' := by
      intro m' hfiles hstore'
      refine ⟨?_, ⟨cache, hstore'⟩, hfiles⟩
      rw [hstore']
      exact hcoherent
    rw [Io.bind_apply]
    simp only [modifyMemory]
    have hmod : {m.memory.store with cache} = {store with cache} := by rw [hstore]
    cases hit with
    | some page =>
      cases hentry : m.memory.store.cache.pages.get? p with
      | none =>
        rw [hentry] at hfst
        cases hfst
      | some entry =>
        rw [hentry] at hfst
        cases hfst
        have hpage := h.on.coherent.page p entry hentry
        rw [hview, hpage]
        exact ⟨st, rfl, hon _ h.on.files hmod, h.faulted,
          h.reflects.keep hp hpages (hview.trans hpage) {m.memory.store with cache} (.inl rfl)⟩
    | none =>
      have hspec := @readPageFromFile_spec _ files b {store with cache} p
        ⟨m.files, {m.memory.store with cache}, m.schedule, m.faulted⟩ ⟨h.on.files, hmod, h.faulted⟩
      simp only [Io.bind_apply, onStore, zoom, Machine.setMemory]
      rw [hview]
      cases hread : readPageFromFile p ⟨m.files, {m.memory.store with cache}, m.schedule, m.faulted⟩ with
      | ok page m' =>
        rw [hread] at hspec
        obtain ⟨hpage, hm'⟩ := hspec
        rw [show store.view files p = .ok page from hpage]
        refine ⟨st, rfl, hon _ hm'.files hm'.memory, hm'.faulted, ?_⟩
        exact h.reflects.keep hp hpages (hview.trans hpage) m'.memory (.inr rfl)
      | err e m' =>
        rw [hread] at hspec
        rcases hspec with ⟨herr, hm'⟩ | ⟨he, hm'⟩
        · rw [show store.view files p = .error e from herr]
          refine .inl ⟨st, rfl, hon _ hm'.files hm'.memory, hm'.faulted, ?_⟩
          exact {h.reflects with}
        · exact .inr ⟨he, hon _ hm'.files hm'.memory, hm'.faulted⟩
      | halt m' =>
        rw [hread] at hspec
        exact hon _ hspec.files hspec.memory

/-- Every tree program does on the overlay what it does on the stage. -/
theorem exec_models {W : Prop} {α : Type} {p : Prog α} (hp : OnData W p) :
    Simulates files store base frame b (exec p) (PageProg.exec p) := by
  refine run_sim handler readPage_sim (fun i page m st h => ?_) (fun m st h => ?_) (fun alloc m st h => ?_) hp.reads
  · exact ⟨st.write i page, rfl, ⟨h.on.coherent, h.on.same, h.on.files⟩, h.faulted, h.reflects.write i page⟩
  · refine ⟨st, ?_, h⟩
    rw [h.reflects.alloc]
    rfl
  · exact ⟨{st with state := alloc}, rfl, ⟨h.on.coherent, h.on.same, h.on.files⟩, h.faulted,
      {h.reflects with alloc := rfl}⟩

/-- A new overlay is the store. -/
theorem models_new {m : Machine FileId Store} (hcoherent : m.memory.cache.Coherent (m.memory.view m.files)) :
    Models m.files m.memory (m.memory.view m.files) (Overlay.new m.memory).frame m.faulted
      ⟨m.files, Overlay.new m.memory, m.schedule, m.faulted⟩ (m.memory.stage m.files) where
  on := ⟨hcoherent, ⟨m.memory.cache, rfl⟩, rfl⟩
  faulted := rfl
  reflects :=
    { frame := rfl
      read := fun _ _ h => (nomatch h)
      unread := fun _ _ => rfl
      dirty := rfl
      written := fun _ h => (nomatch h)
      alloc := rfl
      reads := fun _ _ h => (nomatch h)
      clean := fun _ _ => rfl }

end Sim

/-! ### Overlays that need only some pages

A stage may leave pages out, as pages that cannot be read. What a program does on such a stage, an
overlay that no I/O failure disturbs does too, and it has not read the pages left out. -/

/-- The overlay has the pages of the stage, and has read no other. -/
structure Covers (files : FileId → File) (store : Store) (m : Machine FileId Overlay) (st : TreeStage) : Prop where
  on : On files store m
  quiet : m.schedule = []
  read : ∀ p page, m.memory.pages.get? p = some page → st.view p = .ok page
  unread : ∀ p page, m.memory.pages.get? p = none → st.view p = .ok page → store.view files p = .ok page
  alloc : m.memory.alloc = st.state

section Covers
variable {files : FileId → File} {store : Store}

theorem Covers.keep {m : Machine FileId Overlay} {st : TreeStage} {p : PageId} {page : PageData}
    (h : Covers files store m st) (hview : st.view p = .ok page) {m' : Machine FileId Overlay}
    (hon : On files store m') (hquiet : m'.schedule = []) (hpages : m'.memory.pages = m.memory.pages.insert p page)
    (halloc : m'.memory.alloc = m.memory.alloc) : Covers files store m' st where
  on := hon
  quiet := hquiet
  read q page' hq := by
    rw [hpages] at hq
    obtain ⟨rfl, rfl⟩ | ⟨-, hq⟩ := SortedMap.get?_insert_eq_some.mp hq
    · exact hview
    · exact h.read q page' hq
  unread q page' hq hv := by
    rw [hpages] at hq
    exact h.unread q page' (SortedMap.get?_insert_eq_none.mp hq).2 hv
  alloc := halloc.trans h.alloc

theorem Covers.write {m : Machine FileId Overlay} {st : TreeStage} (h : Covers files store m st) (p : PageId)
    (page : PageData) : Covers files store (m.setMemory {m.memory with
      pages := m.memory.pages.insert p page
      dirty := m.memory.dirty.insert p ()}) (st.write p page) where
  on := ⟨h.on.coherent, h.on.same, h.on.files⟩
  quiet := h.quiet
  read q page' hq := by
    rw [Machine.memory_setMemory] at hq
    obtain ⟨rfl, rfl⟩ | ⟨hqp, hq⟩ := SortedMap.get?_insert_eq_some.mp hq
    · exact Stage.view_write_same ..
    · exact (Stage.view_write_ne _ _ hqp).trans (h.read q page' hq)
  unread q page' hq hv := by
    rw [Machine.memory_setMemory] at hq
    obtain ⟨hqp, hq⟩ := SortedMap.get?_insert_eq_none.mp hq
    rw [Stage.view_write_ne _ _ hqp] at hv
    exact h.unread q page' hq hv
  alloc := h.alloc

theorem readPage_follows (p : PageId) : Follows (Covers files store) (readPage p) (Stage.plain.read p) := by
  intro m st page st' h hread
  have hview : st.view p = .ok page ∧ st' = st := by
    unfold Stage.plain at hread
    dsimp only at hread
    cases hv : st.view p with
    | ok q =>
      rw [hv] at hread
      cases hread
      exact ⟨rfl, rfl⟩
    | error e =>
      rw [hv] at hread
      cases hread
  obtain ⟨hview, rfl⟩ := hview
  obtain ⟨cache₀, hstore⟩ := h.on.same
  unfold readPage
  rw [Io.bind_apply]
  simp only [memory]
  cases hpages : m.memory.pages.get? p with
  | some kept =>
    have hkept := h.read p kept hpages
    rw [hview] at hkept
    cases hkept
    exact ⟨m, rfl, h⟩
  | none =>
    have hunder := h.unread p page hpages hview
    have hfst := m.memory.store.cache.get_fst p
    have hcoherent := h.on.coherent.get p
    generalize m.memory.store.cache.get p = looked at hfst hcoherent ⊢
    obtain ⟨hit, cache⟩ := looked
    dsimp only at hfst hcoherent ⊢
    have hmod : {m.memory.store with cache} = {store with cache} := by rw [hstore]
    rw [Io.bind_apply]
    simp only [modifyMemory]
    cases hit with
    | some found =>
      cases hentry : m.memory.store.cache.pages.get? p with
      | none =>
        rw [hentry] at hfst
        cases hfst
      | some entry =>
        rw [hentry] at hfst
        cases hfst
        have hpage := h.on.coherent.page p entry hentry
        rw [hunder] at hpage
        injection hpage with hpage
        rw [← hpage]
        exact ⟨_, rfl, h.keep hview ⟨hcoherent, ⟨cache, hmod⟩, h.on.files⟩ h.quiet rfl rfl⟩
    | none =>
      have hquiet := @readPageFromFile_quiet _ ⟨m.files, {m.memory.store with cache}, m.schedule, m.faulted⟩
        p page h.quiet (by
          dsimp only
          rw [hmod, h.on.files]
          exact hunder)
      simp only [Io.bind_apply, onStore, zoom, Machine.setMemory]
      rw [hquiet]
      exact ⟨_, rfl, h.keep hview ⟨hcoherent, ⟨cache, hmod⟩, h.on.files⟩ h.quiet rfl rfl⟩

/-- What a tree program does on the pages of a stage, it does on an overlay that has them. -/
theorem exec_covers {α : Type} (p : Prog α) : Follows (Covers files store) (exec p) (PageProg.exec p) := by
  refine run_follows handler (fun i _ => readPage_follows i) (fun i page m st u st' h heq => ?_) (fun m st a st' h heq => ?_)
    (fun alloc m st u st' h heq => ?_) (readsOnly_true p)
  · cases heq
    exact ⟨_, rfl, h.write i page⟩
  · cases heq
    refine ⟨m, ?_, h⟩
    rw [← h.alloc]
    rfl
  · cases heq
    exact ⟨_, rfl, ⟨h.on.coherent, h.on.same, h.on.files⟩, h.quiet, h.read, h.unread, rfl⟩

end Covers

end Overlay

end Dodb
