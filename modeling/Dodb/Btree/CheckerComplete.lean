import Dodb.Btree.Checker
import Dodb.Btree.Search

/-! The invariant checker accepts every healthy tree.

The walk meets the pages in the order of the tree's cells and the keys in the order of its
items, so that what it has seen after a subtree is what it had seen before, and the
subtree's own (`walked`). The bounds a page is visited with are the lows of the tree, which
its items keep. -/
namespace Dodb
open Lib PageProg SearchTree

abbrev CheckStage := Stage PageId PageData TreeCheckState Error

/-! ### What a walk has seen -/

/-- The stage after a walk over `pages` that met `items` and found `leaves`. -/
def walked (s : CheckStage) (pages : List PageId) (items : List Item) (leaves : List PageId) : CheckStage :=
  {s with state := {
    reachable := pages.reverse ++ s.state.reachable
    keys := (items.map Item.sortKey).reverse ++ s.state.keys
    leaves := s.state.leaves ++ leaves
    maxRevision := items.foldl (fun most i => max most i.revision) s.state.maxRevision}}

/-- The walk has met none of the pages and none of the items. -/
structure Fresh (s : CheckStage) (pages : List PageId) (items : List Item) : Prop where
  unreached : ∀ p ∈ pages, p ∉ s.state.reachable
  nodup : pages.Nodup
  unmet : ∀ i ∈ items, i.sortKey ∉ s.state.keys
  distinct : (items.map Item.sortKey).Nodup

section Walked
variable {s : CheckStage} {pages pages' : List PageId} {items items' : List Item} {leaves leaves' : List PageId}

@[simp] theorem walked_nil (s : CheckStage) : walked s [] [] [] = s := by simp [walked]

@[simp] theorem walked_walked : walked (walked s pages items leaves) pages' items' leaves' =
    walked s (pages ++ pages') (items ++ items') (leaves ++ leaves') := by
  simp [walked]

theorem Fresh.left (h : Fresh s (pages ++ pages') (items ++ items')) : Fresh s pages items := by
  have hdistinct := h.distinct
  rw [List.map_append] at hdistinct
  exact ⟨fun p hp => h.unreached p (List.mem_append_left _ hp), (List.nodup_append.mp h.nodup).1,
    fun i hi => h.unmet i (List.mem_append_left _ hi), (List.nodup_append.mp hdistinct).1⟩

theorem Fresh.right (h : Fresh s (pages ++ pages') (items ++ items')) (leaves : List PageId) :
    Fresh (walked s pages items leaves) pages' items' := by
  have hnodup := List.nodup_append.mp h.nodup
  have hdistinct := h.distinct
  rw [List.map_append, List.nodup_append] at hdistinct
  refine ⟨?_, hnodup.2.1, ?_, hdistinct.2.1⟩
  · intro p hp hmem
    rcases List.mem_append.mp hmem with hmem | hmem
    · exact hnodup.2.2 p (List.mem_reverse.mp hmem) p hp rfl
    · exact h.unreached p (List.mem_append_right _ hp) hmem
  · intro i hi hmem
    rcases List.mem_append.mp hmem with hmem | hmem
    · exact hdistinct.2.2 _ (List.mem_reverse.mp hmem) _ (List.mem_map_of_mem hi) rfl
    · exact h.unmet i (List.mem_append_right _ hi) hmem

end Walked

/-! ### Pages and values -/

section Values
variable {top : Lsn} {highWater : PageId} {s : CheckStage}

theorem Checker.exec_readPage {p : PageId} {page : PageData} (hrange : firstDataPage ≤ p ∧ p ≤ highWater)
    (hview : s.view p = .ok page) : exec (Checker.readPage highWater p) s = .ok page s := by
  rw [Checker.readPage, exec_bind_ok (exec_check_pos s hrange _), exec_readPage_ok s hview]

theorem Checker.exec_reach {p : PageId} (hfresh : p ∉ s.state.reachable) (message : String) :
    exec (Checker.reach p message) s = .ok ⟨⟩ (walked s [p] [] []) := by
  rw [Checker.reach, exec_bind_ok (exec_get s), exec_bind_ok (exec_check_pos s hfresh _), exec_set]
  simp [walked]

theorem Checker.exec_checkOverflowFrom {total : Nat} {chunks : List (PageId × Bytes)}
    (hat : ChainAt top s.view total chunks) (hrange : ∀ p ∈ chunks.map Prod.fst, firstDataPage ≤ p ∧ p ≤ highWater)
    (hfresh : Fresh s (chunks.map Prod.fst) []) {remaining : Nat} (hlen : chunks.length ≤ remaining)
    {visited : List PageId} (hvisited : ∀ p ∈ visited, p ∉ chunks.map Prod.fst) {sum : Nat}
    (hsum : sum + (chunks.flatMap Prod.snd).length ≤ u64Max) :
    exec (Checker.checkOverflowFrom highWater total remaining (chunks.head?.map Prod.fst) visited sum) s =
      .ok (sum + (chunks.flatMap Prod.snd).length) (walked s (chunks.map Prod.fst) [] []) := by
  induction chunks generalizing s remaining visited sum with
  | nil => cases remaining <;> simp [Checker.checkOverflowFrom]
  | cons c rest ih =>
    obtain ⟨p, chunk⟩ := c
    obtain ⟨remaining, rfl⟩ : ∃ n, remaining = n + 1 := ⟨remaining - 1, by simp at hlen; omega⟩
    obtain ⟨⟨lsn, _, hview⟩, hrest⟩ := hat
    have hp : p ∈ ((p, chunk) :: rest).map Prod.fst := List.mem_cons_self
    have hunvisited : p ∉ visited := fun hm => hvisited p hm hp
    have hfresh' : Fresh (walked s [p] [] []) (rest.map Prod.fst) [] := Fresh.right (by exact hfresh) []
    have hnodup := List.nodup_cons.mp hfresh.nodup
    rw [List.flatMap_cons, List.length_append] at hsum
    have hvisited' : ∀ q ∈ p :: visited, q ∉ rest.map Prod.fst := by
      intro q hq hmem
      rcases List.mem_cons.mp hq with rfl | hq
      · exact hnodup.1 hmem
      · exact hvisited q hq (List.mem_cons_of_mem _ hmem)
    have hadd : exec (ofExcept (addOr (.corruption "overflow content length overflows") sum chunk.length) : CheckProg Nat)
        (walked s [p] [] []) = .ok (sum + chunk.length) (walked s [p] [] []) := by
      rw [addOr_of_le _ (by dsimp only at hsum; omega)]
      rfl
    rw [List.head?_cons, Option.map_some, Checker.checkOverflowFrom, exec_bind_ok (exec_check_pos s hunvisited _),
      exec_bind_ok (Checker.exec_reach (hfresh.unreached p hp) _),
      exec_bind_ok (Checker.exec_readPage (hrange p hp) (by exact hview))]
    dsimp only
    rw [exec_bind_ok (exec_check_pos _ rfl _), exec_bind_ok hadd,
      ih (by exact hrest) (fun q hq => hrange q (List.mem_cons_of_mem _ hq)) hfresh' (by simpa using hlen) hvisited'
        (by dsimp only at hsum; omega)]
    simp [Nat.add_assoc]

theorem Checker.exec_checkValue {value : Option Stored} (hvalid : ∀ v ∈ value, v.Valid)
    (hat : ∀ v ∈ value, v.At top s.view)
    (hrange : ∀ p ∈ (value.map Stored.pages).getD [], firstDataPage ≤ p ∧ p ≤ highWater)
    (hfresh : Fresh s ((value.map Stored.pages).getD []) []) :
    exec (Checker.checkValue highWater (value.map Stored.ref)) s =
      .ok () (walked s ((value.map Stored.pages).getD []) [] []) := by
  obtain _ | stored := value
  · simp [Checker.checkValue]
  · have hvalid := hvalid stored rfl
    have hat := hat stored rfl
    cases stored with
    | inline bytes =>
      have hle : bytes.length ≤ inlineValueLimit := hvalid
      rw [Option.map_some, Stored.ref, Checker.checkValue, exec_check_pos s hle]
      simp [Stored.pages]
    | chain chunks =>
      obtain ⟨hhead, hpos⟩ := hvalid.head
      have hsum : 0 + (chunks.flatMap Prod.snd).length ≤ u64Max := by
        rw [Nat.zero_add]
        exact hvalid.2.2.1.trans (by decide)
      have hwalk := Checker.exec_checkOverflowFrom hat hrange hfresh hvalid.2.1
        (fun p (hp : p ∈ ([] : List PageId)) => absurd hp List.not_mem_nil) hsum
      rw [Nat.zero_add] at hwalk
      rw [Option.map_some, Stored.ref, Checker.checkValue, Checker.checkOverflow, hhead,
        exec_bind_ok (exec_check_pos s ⟨hpos, hvalid.2.2.1⟩ _), exec_bind_ok hwalk, exec_check_pos _ rfl]
      rfl

/-- The items keep the bounds. -/
def InBounds (lower upper : Option Bytes) (items : List Item) : Prop :=
  ∀ i ∈ items, (∀ b ∈ lower, b ≤ i.sortKey) ∧ ∀ b ∈ upper, i.sortKey < b

theorem Checker.exec_visitEntry {lower upper : Option Bytes} {item : Item} (hvalid : item.Valid top)
    (hat : item.At top s.view) (hwithin : InBounds lower upper [item])
    (hrange : ∀ p ∈ item.pages, firstDataPage ≤ p ∧ p ≤ highWater) (hfresh : Fresh s item.pages [item]) :
    exec (Checker.visitEntry highWater lower upper item.entry) s = .ok () (walked s item.pages [item] []) := by
  obtain ⟨hlower, hupper⟩ := hwithin item List.mem_cons_self
  have hbounds : lower.all (fun bound => decide (bound ≤ item.entry.key)) = true ∧
      upper.all (fun bound => decide (item.entry.key < bound)) = true := by
    constructor
    · rw [Option.all_eq_true]
      exact fun b hb => decide_eq_true (hlower b hb)
    · rw [Option.all_eq_true]
      exact fun b hb => decide_eq_true (hupper b hb)
  have hrevision : item.entry.revision ≠ 0 := hvalid.1.1
  have hseen : item.entry.key ∉ s.state.keys := hfresh.unmet item List.mem_cons_self
  have hvalue := @Checker.exec_checkValue top highWater (walked s [] [item] []) item.value hvalid.2 hat hrange
    ⟨hfresh.unreached, hfresh.nodup, by simp, by simp⟩
  have hmet : ({s with state := {s.state with
      keys := item.entry.key :: s.state.keys
      maxRevision := max s.state.maxRevision item.entry.revision}} : CheckStage) = walked s [] [item] [] := by
    simp [walked, Item.entry, Item.sortKey]
  rw [walked_walked, List.nil_append, List.append_nil, List.append_nil] at hvalue
  rw [Checker.visitEntry, exec_bind_ok (exec_check_pos s hbounds _),
    exec_bind_ok (exec_check_pos s hrevision _), exec_bind_ok (exec_get s), exec_bind_ok (exec_check_pos s hseen _),
    exec_bind_ok (exec_set s _), hmet]
  exact hvalue

theorem Checker.exec_visitEntries {lower upper : Option Bytes} {items : List Item}
    (hvalid : ∀ i ∈ items, i.Valid top) (hat : ∀ i ∈ items, i.At top s.view) (hwithin : InBounds lower upper items)
    (hrange : ∀ p ∈ items.flatMap Item.pages, firstDataPage ≤ p ∧ p ≤ highWater)
    (hfresh : Fresh s (items.flatMap Item.pages) items) :
    exec (Checker.visitEntries highWater lower upper (items.map Item.entry)) s =
      .ok () (walked s (items.flatMap Item.pages) items []) := by
  induction items generalizing s with
  | nil => simp [Checker.visitEntries]
  | cons item rest ih =>
    rw [List.flatMap_cons] at hrange hfresh
    have hhead : Fresh s item.pages [item] := Fresh.left hfresh
    have hrest : Fresh (walked s item.pages [item] []) (rest.flatMap Item.pages) rest := Fresh.right hfresh []
    have hvisit := Checker.exec_visitEntry (hvalid item List.mem_cons_self) (hat item List.mem_cons_self)
      (fun i hi => hwithin i (List.mem_singleton.mp hi ▸ List.mem_cons_self))
      (fun p hp => hrange p (List.mem_append_left _ hp)) hhead
    rw [List.map_cons, Checker.visitEntries, exec_bind_ok hvisit,
      ih (s := walked s item.pages [item] []) (fun i hi => hvalid i (List.mem_cons_of_mem _ hi)) (fun i hi => hat i (List.mem_cons_of_mem _ hi))
        (fun i hi => hwithin i (List.mem_cons_of_mem _ hi)) (fun p hp => hrange p (List.mem_append_right _ hp)) hrest,
      walked_walked]
    rfl

end Values

/-! ### The walk over a tree -/

section Visit
variable {top : Lsn} {highWater : PageId} {s : CheckStage} {lower upper : Option Bytes}

/-- The least and the greatest key of the items. -/
def keyBounds (items : List Item) : KeyBounds := (items.head?.map Item.sortKey, items.getLast?.map Item.sortKey)

/-- What the visit of a tree needs: its cells are on their pages, and its items keep the bounds. -/
structure Visitable (top : Lsn) (highWater : PageId) (v : View) (lower upper : Option Bytes) (trees : List Shape) :
    Prop where
  cellsAt : ∀ c ∈ trees.flatMap Shape.cells, Cell.At top v c
  valid : ∀ c ∈ trees.flatMap Shape.cells, Cell.Valid top c
  range : ∀ p ∈ (trees.flatMap Shape.cells).flatMap Cell.pages, firstDataPage ≤ p ∧ p ≤ highWater
  order : InOrder Item.sortKey (trees.flatMap Shape.leaves)
  bounds : InBounds lower upper (trees.flatMap Shape.items)

/-- The pages, the items and the leaves of trees, as a walk meets them. -/
def walkedTrees (s : CheckStage) (trees : List Shape) : CheckStage :=
  walked s ((trees.flatMap Shape.cells).flatMap Cell.pages) (trees.flatMap Shape.items)
    ((trees.flatMap Shape.leaves).map SearchTree.Leaf.id)

def FreshTrees (s : CheckStage) (trees : List Shape) : Prop :=
  Fresh s ((trees.flatMap Shape.cells).flatMap Cell.pages) (trees.flatMap Shape.items)

theorem items_node (i : PageId) (kids : List Shape) :
    (SearchTree.Shape.node i kids).items = kids.flatMap Shape.items := by
  rw [SearchTree.Shape.items, Shape.leaves_node, List.flatMap_assoc]
  rfl

theorem walkedTrees_cons (s : CheckStage) (t : Shape) (ts : List Shape) :
    walkedTrees s (t :: ts) = walkedTrees (walkedTrees s [t]) ts := by
  simp [walkedTrees]

theorem walkedTrees_node (s : CheckStage) (i : PageId) (kids : List Shape) :
    walkedTrees s [.node i kids] = walkedTrees (walked s [i] [] []) kids := by
  simp [walkedTrees, items_node, Cell.pages]

theorem keyBounds_flatMap (kids : List Shape) : keyBounds (kids.flatMap Shape.items) =
    ((kids.map fun t => keyBounds t.items).findSome? Prod.fst,
      (kids.map fun t => keyBounds t.items).reverse.findSome? Prod.snd) := by
  rw [keyBounds, List.head?_flatMap, List.getLast?_flatMap, List.map_findSome?, List.map_findSome?, ← List.map_reverse,
    List.findSome?_map, List.findSome?_map]
  rfl

theorem FreshTrees.head {t : Shape} {ts : List Shape} (h : FreshTrees s (t :: ts)) : FreshTrees s [t] := by
  unfold FreshTrees at h ⊢
  rw [List.flatMap_cons, List.flatMap_cons, List.flatMap_append] at h
  simpa using h.left

theorem FreshTrees.tail {t : Shape} {ts : List Shape} (h : FreshTrees s (t :: ts)) :
    FreshTrees (walkedTrees s [t]) ts := by
  unfold FreshTrees at h ⊢
  rw [List.flatMap_cons, List.flatMap_cons, List.flatMap_append] at h
  simpa [walkedTrees] using h.right (t.leaves.map SearchTree.Leaf.id)

namespace Visitable
variable {v : View} {lower upper : Option Bytes} {t : Shape} {ts : List Shape}

theorem sub (h : Visitable top highWater v lower upper ts) {ts' : List Shape} (hsub : ts'.Sublist ts)
    {lower' upper' : Option Bytes} (hbounds : InBounds lower' upper' (ts'.flatMap Shape.items)) :
    Visitable top highWater v lower' upper' ts' where
  cellsAt c hc := h.cellsAt c ((hsub.flatMap _).mem hc)
  valid c hc := h.valid c ((hsub.flatMap _).mem hc)
  range p hp := h.range p (((hsub.flatMap _).flatMap _).mem hp)
  order := ⟨h.order.1.sublist (hsub.flatMap _), fun l hl => h.order.2 l ((hsub.flatMap _).mem hl)⟩
  bounds := hbounds

theorem branching (h : Visitable top highWater v lower upper ts) : ∀ t ∈ ts, t.Branching := fun t ht c hc =>
  (h.valid c (List.mem_flatMap.mpr ⟨t, ht, hc⟩)).branching

/-- The children of a page, once the page itself is visited. -/
theorem kids {i : PageId} {kids : List Shape} (h : Visitable top highWater v lower upper [.node i kids]) :
    Visitable top highWater v lower upper kids where
  cellsAt c hc := h.cellsAt c (by simpa using .inr (List.mem_flatMap.mp hc))
  valid c hc := h.valid c (by simpa using .inr (List.mem_flatMap.mp hc))
  range p hp := h.range p (by
    simp only [List.flatMap_cons, List.flatMap_nil, List.append_nil, Shape.cells_node]
    exact List.mem_append_right _ hp)
  order := by simpa using h.order
  bounds := by
    have hbounds := h.bounds
    rw [List.flatMap_cons, List.flatMap_nil, List.append_nil, items_node] at hbounds
    exact hbounds

/-- The first child keeps the low of the second as its upper bound, and all after it as their lower. -/
theorem split {u : Shape} (h : Visitable top highWater v lower upper (t :: u :: ts)) :
    Visitable top highWater v lower (some u.low) [t] ∧ Visitable top highWater v (some u.low) upper (u :: ts) := by
  have horder := h.order
  rw [List.flatMap_cons] at horder
  obtain ⟨_, hright, hbetween⟩ := inOrder_append.mp horder
  obtain ⟨l, rest, hl, hlow⟩ := (h.branching u (by simp)).exists_first
  have hmemL : l ∈ (u :: ts).flatMap Shape.leaves := by simp [hl]
  have hitem : ∀ {t : Shape} {ts : List Shape} {i : Item}, t ∈ ts → i ∈ t.items → i ∈ ts.flatMap Shape.items :=
    fun ht hi => List.mem_flatMap.mpr ⟨_, ht, hi⟩
  refine ⟨h.sub (by simp) fun i hi => ?_, h.sub (List.sublist_cons_self ..) fun i hi => ?_⟩
  · have hit : i ∈ t.items := by simpa using hi
    refine ⟨(h.bounds i (hitem List.mem_cons_self hit)).1, fun b hb => ?_⟩
    cases hb
    obtain ⟨a, ha, hia⟩ := List.mem_flatMap.mp hit
    rw [← hlow]
    exact (hbetween a ha l hmemL).2 i hia
  · refine ⟨fun b hb => ?_, (h.bounds i (by rw [List.flatMap_cons]; exact List.mem_append_right _ hi)).2⟩
    cases hb
    obtain ⟨w, hw, hiw⟩ := List.mem_flatMap.mp hi
    obtain ⟨a, ha, hia⟩ := List.mem_flatMap.mp hiw
    have ham : a ∈ (u :: ts).flatMap Shape.leaves := List.mem_flatMap.mpr ⟨w, hw, ha⟩
    have hle : l.low ≤ a.low := by
      rw [List.flatMap_cons, hl, List.cons_append] at hright ham
      exact hright.low_le_of_mem ham
    rw [← hlow]
    exact hle.trans ((hright.2 a ham).2 i hia)

end Visitable

/-- The separators of a page whose children are `ks` after the first. -/
def entriesOf (ks : List Shape) : List InternalEntry := ks.map fun u => Ref.entry u.ref

theorem entriesOf_cons (u : Shape) (ks : List Shape) : entriesOf (u :: ks) = ⟨u.low, u.id⟩ :: entriesOf ks := rfl

theorem Checker.exec_visitAll {visit : PageId → Option Bytes → Option Bytes → CheckProg KeyBounds} {k : Shape}
    {ks : List Shape}
    (hvisit : ∀ t ∈ k :: ks, ∀ (s : CheckStage) lower upper, Visitable top highWater s.view lower upper [t] →
      FreshTrees s [t] → exec (visit t.id lower upper) s = .ok (keyBounds t.items) (walkedTrees s [t]))
    (h : Visitable top highWater s.view lower upper (k :: ks)) (hfresh : FreshTrees s (k :: ks)) :
    exec (Checker.visitAll visit (Checker.children lower upper k.id (entriesOf ks))) s =
      .ok ((k :: ks).map fun t => keyBounds t.items) (walkedTrees s (k :: ks)) := by
  induction ks generalizing s k lower with
  | nil =>
    show exec (Checker.visitAll visit [(k.id, lower, upper)]) s = _
    rw [Checker.visitAll, exec_bind_ok (hvisit k List.mem_cons_self s lower upper h hfresh)]
    rfl
  | cons u ks ih =>
    obtain ⟨hhead, htail⟩ := h.split
    have hrest := ih (s := walkedTrees s [k]) (fun t ht => hvisit t (List.mem_cons_of_mem _ ht)) htail hfresh.tail
    rw [entriesOf_cons, Checker.children, Checker.visitAll,
      exec_bind_ok (hvisit k List.mem_cons_self s lower (some u.low) hhead hfresh.head),
      exec_bind_ok hrest, exec_pure, ← walkedTrees_cons s k]
    rfl

theorem Checker.exec_checkSeparators {v : View} {k : Shape} {ks : List Shape}
    (h : Visitable top highWater v lower upper (k :: ks)) :
    exec (Checker.checkSeparators (entriesOf ks) ((k :: ks).map fun t => keyBounds t.items)) s = .ok () s := by
  induction ks generalizing k lower with
  | nil => rfl
  | cons u ks ih =>
    obtain ⟨hhead, htail⟩ := h.split
    have hleft : (keyBounds k.items).2.all (fun most => decide (most < u.low)) = true := by
      rw [Option.all_eq_true]
      intro most hmost
      obtain ⟨i, hi, rfl⟩ := Option.map_eq_some_iff.mp hmost
      exact decide_eq_true ((hhead.bounds i (by simpa using List.mem_of_getLast? hi)).2 u.low rfl)
    have hright : (keyBounds u.items).1.all (fun least => decide (u.low ≤ least)) = true := by
      rw [Option.all_eq_true]
      intro least hleast
      obtain ⟨i, hi, rfl⟩ := Option.map_eq_some_iff.mp hleast
      have hmem : i ∈ (u :: ks).flatMap Shape.items := by
        rw [List.flatMap_cons]
        exact List.mem_append_left _ (List.mem_of_head? hi)
      exact decide_eq_true ((htail.bounds i hmem).1 u.low rfl)
    rw [entriesOf_cons, List.map_cons, List.map_cons, Checker.checkSeparators,
      exec_bind_ok (exec_check_pos s hleft _), exec_bind_ok (exec_check_pos s hright _)]
    exact ih htail

theorem Checker.exec_visitTree {t : Shape} (h : Visitable top highWater s.view lower upper [t])
    (hfresh : FreshTrees s [t]) {bound : Nat} (hbound : t.cells.length ≤ bound) :
    exec (Checker.visitTree highWater bound t.id lower upper) s = .ok (keyBounds t.items) (walkedTrees s [t]) := by
  induction t using Shape.induct generalizing s lower upper bound with
  | leaf l =>
    obtain ⟨bound, rfl⟩ : ∃ n, bound = n + 1 := ⟨bound - 1, by simp at hbound; omega⟩
    have hcell : SearchTree.Cell.leaf l ∈ [SearchTree.Shape.leaf l].flatMap Shape.cells := by simp
    obtain ⟨⟨lsn, _, hview⟩, hitems⟩ := h.cellsAt _ hcell
    have hpages : ∀ p ∈ Cell.pages (.leaf l), firstDataPage ≤ p ∧ p ≤ highWater := fun p hp =>
      h.range p (List.mem_flatMap.mpr ⟨_, hcell, hp⟩)
    have hall : Fresh s ([l.id] ++ l.items.flatMap Item.pages) ([] ++ l.items) := by
      simpa [FreshTrees, Cell.pages, SearchTree.Shape.items] using hfresh
    have hbounds : InBounds lower upper l.items := by simpa [SearchTree.Shape.items] using h.bounds
    have hentries := Checker.exec_visitEntries (s := walked s [l.id] [] []) (h.valid _ hcell).2 hitems hbounds
      (fun p hp => hpages p (List.mem_cons_of_mem _ hp)) (hall.right [])
    rw [walked_walked] at hentries
    rw [Shape.id_leaf, Checker.visitTree,
      exec_bind_ok (Checker.exec_reach (hall.unreached l.id List.mem_cons_self) _),
      exec_bind_ok (Checker.exec_readPage (hpages l.id List.mem_cons_self) (by exact hview))]
    dsimp only
    rw [Leaf.entries, exec_bind_ok hentries, exec_bind_ok (exec_modify _ _), exec_pure]
    simp [walked, walkedTrees, keyBounds, Cell.pages, SearchTree.Shape.items, Function.comp_def]
  | node i kids ih =>
    obtain ⟨bound, rfl⟩ : ∃ n, bound = n + 1 := ⟨bound - 1, by simp at hbound; omega⟩
    have hcell : SearchTree.Cell.node i (kids.map Shape.ref) ∈ [SearchTree.Shape.node i kids].flatMap Shape.cells := by
      simp
    obtain ⟨lsn, _, hview⟩ := h.cellsAt _ hcell
    have hi : i ∈ ([SearchTree.Shape.node i kids].flatMap Shape.cells).flatMap Cell.pages :=
      List.mem_flatMap.mpr ⟨_, hcell, List.mem_cons_self⟩
    have hall : Fresh s ([i] ++ (kids.flatMap Shape.cells).flatMap Cell.pages) ([] ++ kids.flatMap Shape.items) := by
      simpa [FreshTrees, Cell.pages, items_node] using hfresh
    have htwo := (h.valid _ hcell).1
    obtain _ | ⟨k, _ | ⟨u, ks⟩⟩ := kids
    · simp at htwo
    · simp at htwo
    · have hkids : ∀ t ∈ k :: u :: ks, ∀ (s : CheckStage) lower upper, Visitable top highWater s.view lower upper [t] →
          FreshTrees s [t] → exec (Checker.visitTree highWater bound t.id lower upper) s =
            .ok (keyBounds t.items) (walkedTrees s [t]) := by
        intro t ht s lower upper hv hf
        refine ih t ht hv hf ?_
        rw [Shape.cells_node, List.length_cons] at hbound
        have := (List.sublist_flatten_of_mem (List.mem_map_of_mem (f := Shape.cells) ht)).length_le
        exact this.trans (by rw [← List.flatMap_def]; omega)
      have hvisitable : Visitable top highWater (walked s [i] [] []).view lower upper (k :: u :: ks) := h.kids
      have hvisit := Checker.exec_visitAll hkids hvisitable (hall.right [])
      have hseparators := Checker.exec_checkSeparators (s := walkedTrees (walked s [i] [] []) (k :: u :: ks)) hvisitable
      have hentries : separators ((k :: u :: ks).map Shape.ref) = entriesOf (u :: ks) := by
        simp [separators, entriesOf]
      rw [Shape.id_node, Checker.visitTree,
        exec_bind_ok (Checker.exec_reach (hall.unreached i List.mem_cons_self) _),
        exec_bind_ok (Checker.exec_readPage (h.range i hi) (by exact hview)), hentries]
      dsimp only
      rw [exec_bind_ok (exec_check_pos _ (by simp [entriesOf]) _)]
      show exec (Checker.visitAll _ (Checker.children lower upper k.id (entriesOf (u :: ks))) >>= _) _ = _
      rw [exec_bind_ok hvisit, exec_bind_ok hseparators, exec_pure, items_node, keyBounds_flatMap, walkedTrees_node]

theorem Checker.exec_leftmostLeaf {t : Shape}
    (h : Visitable top highWater s.view lower upper [t]) (hnodup : (t.cells.flatMap Cell.pages).Nodup) {bound : Nat}
    {visited : List PageId} (hbound : t.cells.length ≤ bound) (hvisited : ∀ p ∈ visited, p ∉ t.cells.flatMap Cell.pages) :
    ∃ l rest, t.leaves = l :: rest ∧ exec (Checker.leftmostLeaf highWater bound t.id visited) s = .ok l.id s := by
  induction t using Shape.induct generalizing lower upper bound visited with
  | leaf l =>
    obtain ⟨bound, rfl⟩ : ∃ n, bound = n + 1 := ⟨bound - 1, by simp at hbound; omega⟩
    have hcell : SearchTree.Cell.leaf l ∈ [SearchTree.Shape.leaf l].flatMap Shape.cells := by simp
    obtain ⟨⟨lsn, _, hview⟩, _⟩ := h.cellsAt _ hcell
    have hrange := h.range l.id (List.mem_flatMap.mpr ⟨_, hcell, List.mem_cons_self⟩)
    have hfresh : l.id ∉ visited := fun hp => hvisited _ hp (by simp [Cell.pages])
    refine ⟨l, [], by simp, ?_⟩
    rw [Shape.id_leaf, Checker.leftmostLeaf, exec_bind_ok (exec_check_pos s hfresh _),
      exec_bind_ok (Checker.exec_readPage hrange hview), exec_pure]
  | node i kids ih =>
    obtain ⟨bound, rfl⟩ : ∃ n, bound = n + 1 := ⟨bound - 1, by simp at hbound; omega⟩
    have hcell : SearchTree.Cell.node i (kids.map Shape.ref) ∈ [SearchTree.Shape.node i kids].flatMap Shape.cells := by
      simp
    obtain ⟨lsn, _, hview⟩ := h.cellsAt _ hcell
    have hrange := h.range i (List.mem_flatMap.mpr ⟨_, hcell, List.mem_cons_self⟩)
    have hfresh : i ∉ visited := fun hp => hvisited _ hp (by simp [Cell.pages])
    have htwo := (h.valid _ hcell).1
    obtain _ | ⟨k, ks⟩ := kids
    · simp at htwo
    · have hkids := h.kids
      have hk : Visitable top highWater s.view lower upper [k] := hkids.sub (by simp) fun j hj =>
        hkids.bounds j (List.mem_flatMap.mpr ⟨k, List.mem_cons_self, by simpa using hj⟩)
      have hpages : (SearchTree.Shape.node i (k :: ks)).cells.flatMap Cell.pages =
          i :: (k.cells.flatMap Cell.pages ++ (ks.flatMap Shape.cells).flatMap Cell.pages) := by
        simp [Cell.pages]
      rw [hpages] at hnodup hvisited
      have hsplit := List.nodup_cons.mp hnodup
      have hvisited' : ∀ p ∈ i :: visited, p ∉ k.cells.flatMap Cell.pages := by
        intro p hp hmem
        rcases List.mem_cons.mp hp with rfl | hp
        · exact hsplit.1 (List.mem_append_left _ hmem)
        · exact hvisited p hp (List.mem_cons_of_mem _ (List.mem_append_left _ hmem))
      have hlen : k.cells.length ≤ bound := by
        simp at hbound
        omega
      obtain ⟨l, rest, hleaves, hexec⟩ := ih k List.mem_cons_self hk (List.nodup_append.mp hsplit.2).1 hlen hvisited'
      refine ⟨l, rest ++ ks.flatMap Shape.leaves, by simp [hleaves], ?_⟩
      rw [Shape.id_node, Checker.leftmostLeaf, exec_bind_ok (exec_check_pos s hfresh _),
        exec_bind_ok (Checker.exec_readPage hrange hview)]
      exact hexec

end Visit

/-! ### The leaf chain and the free list -/

section Chain
variable {top : Lsn} {highWater : PageId} {s : CheckStage}

theorem Checker.exec_checkOrder {previous : Option Bytes} {items : List Item}
    (hsorted : items.Pairwise fun a b => a.sortKey < b.sortKey)
    (hprevious : ∀ b ∈ previous, ∀ i ∈ items, b < i.sortKey) :
    ∃ last, exec (Checker.checkOrder previous (items.map Item.entry)) s = .ok last s ∧
      ∀ b ∈ last, b ∈ previous ∨ ∃ i ∈ items, i.sortKey = b := by
  induction items generalizing previous with
  | nil => exact ⟨previous, rfl, fun b hb => .inl hb⟩
  | cons item rest ih =>
    obtain ⟨hfirst, hrest⟩ := List.pairwise_cons.mp hsorted
    have hless : ∀ b ∈ some item.sortKey, ∀ i ∈ rest, b < i.sortKey := by
      intro b hb
      cases hb
      exact hfirst
    obtain ⟨last, hexec, hlast⟩ := ih hrest hless
    have hcheck : previous.all (fun previous => decide (previous < item.entry.key)) = true := by
      rw [Option.all_eq_true]
      exact fun b hb => decide_eq_true (hprevious b hb item List.mem_cons_self)
    refine ⟨last, ?_, fun b hb => .inr ?_⟩
    · rw [List.map_cons, Checker.checkOrder, exec_bind_ok (exec_check_pos s hcheck _)]
      exact hexec
    · rcases hlast b hb with hb | ⟨i, hi, hkey⟩
      · cases hb
        exact ⟨item, List.mem_cons_self, rfl⟩
      · exact ⟨i, List.mem_cons_of_mem _ hi, hkey⟩

theorem Checker.exec_leafChain {leaves : List Leaf} {reachable visited : List PageId} {previous : Option Bytes}
    (hat : ∀ l ∈ leaves, Cell.At top s.view (.leaf l)) (hrange : ∀ l ∈ leaves, firstDataPage ≤ l.id ∧ l.id ≤ highWater)
    (hreach : ∀ l ∈ leaves, l.id ∈ reachable) (hlinked : Linked none leaves)
    (hnodup : (leaves.map SearchTree.Leaf.id).Nodup)
    (hsorted : (leaves.flatMap SearchTree.Leaf.items).Pairwise fun a b => a.sortKey < b.sortKey)
    (hprevious : ∀ b ∈ previous, ∀ i ∈ leaves.flatMap SearchTree.Leaf.items, b < i.sortKey)
    {bound : Nat} (hbound : leaves.length ≤ bound) (hvisited : ∀ l ∈ leaves, l.id ∉ visited) :
    exec (Checker.leafChain highWater reachable bound (leaves.head?.map SearchTree.Leaf.id) visited previous) s =
      .ok (leaves.map SearchTree.Leaf.id) s := by
  induction leaves generalizing bound visited previous with
  | nil => cases bound <;> simp [Checker.leafChain]
  | cons l rest ih =>
    obtain ⟨bound, rfl⟩ : ∃ n, bound = n + 1 := ⟨bound - 1, by simp at hbound; omega⟩
    have hl : l ∈ l :: rest := List.mem_cons_self
    obtain ⟨⟨lsn, _, hview⟩, _⟩ := hat l hl
    rw [List.flatMap_cons] at hsorted hprevious
    obtain ⟨hitems, hafter, hbetween⟩ := List.pairwise_append.mp hsorted
    obtain ⟨last, horder, hlast⟩ := Checker.exec_checkOrder (s := s) hitems
      fun b hb i hi => hprevious b hb i (List.mem_append_left _ hi)
    have hprevious' : ∀ b ∈ last, ∀ i ∈ rest.flatMap SearchTree.Leaf.items, b < i.sortKey := by
      intro b hb i hi
      rcases hlast b hb with hb | ⟨j, hj, rfl⟩
      · exact hprevious b hb i (List.mem_append_right _ hi)
      · exact hbetween j hj i hi
    have hvisited' : ∀ r ∈ rest, r.id ∉ l.id :: visited := by
      intro r hr hmem
      rcases List.mem_cons.mp hmem with heq | hmem
      · exact (List.nodup_cons.mp hnodup).1 (heq ▸ List.mem_map_of_mem hr)
      · exact hvisited r (List.mem_cons_of_mem _ hr) hmem
    have hnext : l.next = rest.head?.map SearchTree.Leaf.id := by simpa using hlinked.1
    have hrest := ih (fun r hr => hat r (List.mem_cons_of_mem _ hr)) (fun r hr => hrange r (List.mem_cons_of_mem _ hr))
      (fun r hr => hreach r (List.mem_cons_of_mem _ hr)) hlinked.2 (List.nodup_cons.mp hnodup).2 hafter hprevious'
      (by simpa using hbound) hvisited'
    rw [List.head?_cons, Option.map_some, Checker.leafChain, exec_bind_ok (exec_check_pos s (hvisited l hl) _),
      exec_bind_ok (exec_check_pos s (hreach l hl) _), exec_bind_ok (Checker.exec_readPage (hrange l hl) hview)]
    dsimp only
    rw [Leaf.entries, exec_bind_ok horder, hnext, exec_bind_ok hrest, exec_pure]
    rfl

theorem Checker.exec_freeList {free freePages reachable : List PageId} (hat : FreeAt top s.view free)
    (hrange : ∀ p ∈ free, firstDataPage ≤ p ∧ p ≤ highWater) (hnodup : free.Nodup)
    (hreach : ∀ p ∈ free, p ∉ reachable) (hfound : ∀ p ∈ free, p ∉ freePages) {bound : Nat}
    (hbound : free.length ≤ bound) :
    exec (Checker.freeList highWater reachable bound free.head? freePages) s = .ok (free.reverse ++ freePages) s := by
  induction free generalizing bound freePages with
  | nil => cases bound <;> simp [Checker.freeList]
  | cons p rest ih =>
    obtain ⟨bound, rfl⟩ : ∃ n, bound = n + 1 := ⟨bound - 1, by simp at hbound; omega⟩
    have hp : p ∈ p :: rest := List.mem_cons_self
    obtain ⟨⟨lsn, _, hview⟩, hrest⟩ := hat
    obtain ⟨hnot, hnodup⟩ := List.nodup_cons.mp hnodup
    have hfound' : ∀ q ∈ rest, q ∉ p :: freePages := by
      intro q hq hmem
      rcases List.mem_cons.mp hmem with rfl | hmem
      · exact hnot hq
      · exact hfound q (List.mem_cons_of_mem _ hq) hmem
    rw [List.head?_cons, Checker.freeList, exec_bind_ok (exec_check_pos s (hrange p hp) _),
      exec_bind_ok (exec_check_pos s (hfound p hp) _), exec_bind_ok (exec_check_pos s (hreach p hp) _),
      exec_bind_ok (Checker.exec_readPage (hrange p hp) hview)]
    dsimp only
    rw [ih hrest (fun q hq => hrange q (List.mem_cons_of_mem _ hq)) hnodup
      (fun q hq => hreach q (List.mem_cons_of_mem _ hq)) hfound' (by simpa using hbound)]
    simp

end Chain

/-! ### The whole check -/

/-- What the checker reports of a tree and a free list. -/
def reportOf (t : Shape) (free : List PageId) : InvariantReport where
  reachablePages := (t.cells.flatMap Cell.pages).length
  freePages := free.length
  leakedPages := []
  maxRevision := t.items.foldl (fun most i => max most i.revision) 0

section Check
variable {top : Lsn} {s : TreeStage} {t : Shape} {free : List PageId}

theorem Healthy.visitable (h : Healthy top s t free []) :
    Visitable top s.state.highWaterPageId s.view none none [t] where
  cellsAt c hc := h.pages.cellsAt c (by simpa using hc)
  valid c hc := h.pages.valid c (by simpa using hc)
  range p hp := h.pages.mem_range (.inl (by simpa using hp))
  order := by simpa using h.order
  bounds i _ := ⟨fun b hb => (nomatch hb), fun b hb => (nomatch hb)⟩

theorem leaf_mem_pages {l : Leaf} (hl : l ∈ t.leaves) : l.id ∈ t.cells.flatMap Cell.pages :=
  List.mem_flatMap.mpr ⟨_, Shape.leaf_mem_cells hl, List.mem_cons_self⟩

theorem Healthy.exec_leafChain (h : Healthy top s t free []) {c : CheckStage} (hview : c.view = s.view) :
    exec (Checker.leafChain s.state.highWaterPageId (t.cells.flatMap Cell.pages).reverse (s.state.highWaterPageId + 1)
      (t.leaves.head?.map SearchTree.Leaf.id) [] none) c = .ok (t.leaves.map SearchTree.Leaf.id) c := by
  have hsub : (t.leaves.map SearchTree.Leaf.id).Sublist (t.cells.map Cell.id) := by
    simpa [Function.comp_def, Cell.id] using t.leaves_sublist_cells.map Cell.id
  have hlen : t.leaves.length ≤ t.cells.length := by simpa using hsub.length_le
  have hat : ∀ l ∈ t.leaves, Cell.At top c.view (.leaf l) := by
    rw [hview]
    exact fun l hl => h.pages.cellsAt _ (Shape.leaf_mem_cells hl)
  exact Checker.exec_leafChain hat (fun l hl => h.pages.mem_range (.inl (leaf_mem_pages hl)))
    (fun l hl => List.mem_reverse.mpr (leaf_mem_pages hl)) h.linked (h.searchable.nodup.sublist hsub) h.order.items
    (by simp) (hlen.trans (h.pages.cells_length_le.trans (Nat.le_succ _))) (by simp)

theorem Healthy.exec_freeList (h : Healthy top s t free []) {c : CheckStage} (hview : c.view = s.view) :
    exec (Checker.freeList s.state.highWaterPageId (t.cells.flatMap Cell.pages).reverse (s.state.highWaterPageId + 1)
      free.head? []) c = .ok free.reverse c := by
  obtain ⟨_, hfree, hbetween⟩ := List.nodup_append.mp h.pages.space.nodup
  rw [List.append_nil] at hfree hbetween
  have hlen : free.length ≤ s.state.highWaterPageId + 1 := by
    have := h.pages.space.length_le
    rw [List.length_append, List.append_nil] at this
    omega
  have hat : FreeAt top c.view free := by
    rw [hview]
    exact h.pages.freeAt
  rw [Checker.exec_freeList hat (fun p hp => h.pages.mem_range (.inr (.inl hp))) hfree
    (fun p hp hm => hbetween p (List.mem_reverse.mp hm) p hp rfl) (by simp) hlen, List.append_nil]

theorem Healthy.exec_checkTree (h : Healthy top s t free []) : ∃ s', s'.dirty = .empty ∧
    exec (checkTree s.state.rootPageId s.state.freeListHead s.state.highWaterPageId) ⟨s.view, .empty, {}⟩ =
      .ok (reportOf t free) s' := by
  obtain ⟨c, hc⟩ : ∃ c : CheckStage, c = ⟨s.view, .empty, {}⟩ := ⟨_, rfl⟩
  have hview : c.view = s.view := by rw [hc]
  have hpages := (List.nodup_append.mp h.pages.space.nodup).1
  have hcells : t.cells.length ≤ s.state.highWaterPageId + 1 := h.pages.cells_length_le.trans (Nat.le_succ _)
  have hkeys : (t.items.map Item.sortKey).Nodup := (List.pairwise_map.mpr h.order.items).imp ne_of_lt
  have hfresh : FreshTrees c [t] := by
    rw [hc]
    refine ⟨by simp, ?_, by simp, ?_⟩
    · simpa using hpages
    · simpa using hkeys
  have hvisitable : Visitable top s.state.highWaterPageId c.view none none [t] := by
    rw [hview]
    exact h.visitable
  have hvisit := Checker.exec_visitTree hvisitable hfresh hcells
  obtain ⟨l, rest, hleaves, hleft⟩ := Checker.exec_leftmostLeaf (s := walkedTrees c [t]) hvisitable hpages hcells
    (fun p (hp : p ∈ ([] : List PageId)) => absurd hp List.not_mem_nil)
  have hreachable : (walkedTrees c [t]).state.reachable = (t.cells.flatMap Cell.pages).reverse := by
    simp [walkedTrees, walked, hc]
  have hfound : (walkedTrees c [t]).state.leaves = t.leaves.map SearchTree.Leaf.id := by
    simp [walkedTrees, walked, hc]
  have hhead : some l.id = t.leaves.head?.map SearchTree.Leaf.id := by simp [hleaves]
  have hchain := h.exec_leafChain (c := walkedTrees c [t]) hview
  rw [← hhead] at hchain
  have hleaked : (List.range' firstDataPage (s.state.highWaterPageId + 1 - firstDataPage)).filter
      (fun p => p ∉ (t.cells.flatMap Cell.pages).reverse ∧ p ∉ free.reverse) = [] := by
    rw [List.filter_eq_nil_iff]
    intro p hp
    have hmem := (List.Perm.mem_iff h.pages.space).mpr hp
    simpa [or_iff_not_imp_left] using hmem
  rw [← hc, checkTree, h.root, exec_bind_ok hvisit, exec_bind_ok hleft, exec_bind_ok (exec_get _), hreachable, hfound,
    Checker.checkLeafChain, bind_assoc, exec_bind_ok hchain, exec_bind_ok (exec_check_pos _ rfl _), h.pages.freeHead,
    exec_bind_ok (h.exec_freeList (c := walkedTrees c [t]) hview)]
  refine ⟨walkedTrees c [t], by rw [hc]; rfl, ?_⟩
  dsimp only
  rw [hleaked, exec_pure]
  simp [reportOf, walkedTrees, walked, hc]

end Check

end Dodb
