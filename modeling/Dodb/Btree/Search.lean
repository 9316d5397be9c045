import Dodb.Btree.Represents

/-! Searching a represented tree finds the leaf that the tree's order gives the key. -/
namespace Dodb
open Lib PageProg SearchTree

variable {top : Lsn} {s : TreeStage} {t : Shape}

/-! ### Reading pages -/

theorem exec_page {p : PageId} {pg : PageData} (hr : firstDataPage ≤ p ∧ p ≤ s.state.highWaterPageId)
    (hv : s.view p = .ok pg) : exec (page p) s = .ok pg s := by
  rw [page, exec_bind_ok (exec_get s), exec_bind_ok (exec_check_pos s hr _), exec_readPage_ok s hv]

theorem exec_leaf {p : PageId} {lsn : Lsn} {next : Option PageId} {entries : List LeafEntry}
    (hr : firstDataPage ≤ p ∧ p ≤ s.state.highWaterPageId) (hv : s.view p = .ok (.leaf lsn next entries)) :
    exec (leaf p) s = .ok ⟨next, entries⟩ s := by
  rw [leaf, exec_bind_ok (exec_page hr hv), exec_pure]

theorem exec_internal {p : PageId} {lsn : Lsn} {child : PageId} {entries : List InternalEntry}
    (hr : firstDataPage ≤ p ∧ p ≤ s.state.highWaterPageId) (hv : s.view p = .ok (.internal lsn child entries)) :
    exec (internal p) s = .ok ⟨child, entries⟩ s := by
  rw [internal, exec_bind_ok (exec_page hr hv), exec_pure]

/-! ### The cells of a tree that can be searched -/

/-- The page a cell is named by. -/
def Cell.id : Cell → PageId
  | .leaf l => l.id
  | .node id _ => id

theorem Cell.id_mem_pages (c : Cell) : Cell.id c ∈ Cell.pages c := by
  cases c <;> exact List.mem_cons_self

theorem Cell.ids_sublist (cells : List Cell) : (cells.map Cell.id).Sublist (cells.flatMap Cell.pages) := by
  induction cells with
  | nil => exact List.Sublist.refl _
  | cons c rest ih =>
    cases c with
    | leaf l => exact (ih.trans (List.sublist_append_right _ _)).cons_cons _
    | node id refs => exact ih.cons_cons _

/-- Every cell of a tree is on its page, and no two are on the same. -/
structure Searchable (top : Lsn) (s : TreeStage) (t : Shape) : Prop where
  cellsAt : ∀ c ∈ t.cells, Cell.At top s.view c
  range : ∀ c ∈ t.cells, firstDataPage ≤ Cell.id c ∧ Cell.id c ≤ s.state.highWaterPageId
  nodup : (t.cells.map Cell.id).Nodup

theorem Healthy.searchable {free extra : List PageId} (h : Healthy top s t free extra) : Searchable top s t where
  cellsAt := h.pages.cellsAt
  range c hc := h.pages.cell_range hc (Cell.id_mem_pages c)
  nodup := (List.nodup_append.mp h.pages.space.nodup).1.sublist (Cell.ids_sublist _)

theorem Searchable.kid {i : PageId} {kids : List Shape} (h : Searchable top s (.node i kids)) {k : Shape}
    (hk : k ∈ kids) : Searchable top s k ∧ i ∉ k.cells.map Cell.id := by
  have hmem : ∀ c ∈ k.cells, c ∈ (SearchTree.Shape.node i kids).cells := fun c hc => by
    rw [Shape.cells_node]
    exact List.mem_cons_of_mem _ (List.mem_flatMap.mpr ⟨k, hk, hc⟩)
  have hnodup := h.nodup
  rw [Shape.cells_node, List.map_cons, List.nodup_cons, List.map_flatMap] at hnodup
  refine ⟨⟨fun c hc => h.cellsAt c (hmem c hc), fun c hc => h.range c (hmem c hc), ?_⟩, fun hi => ?_⟩
  · have hsub : k.cells.map Cell.id ∈ kids.map fun a => a.cells.map Cell.id := List.mem_map_of_mem hk
    exact hnodup.2.sublist (List.sublist_flatten_of_mem hsub)
  · exact hnodup.1 (List.mem_flatMap.mpr ⟨k, hk, hi⟩)

theorem Searchable.node_page {i : PageId} {kids : List Shape} (h : Searchable top s (.node i kids)) :
    ∃ lsn, exec (page i) s =
      .ok (.internal lsn (leftmost (kids.map Shape.ref)) (separators (kids.map Shape.ref))) s := by
  have hmem : SearchTree.Cell.node i (kids.map Shape.ref) ∈ (SearchTree.Shape.node i kids).cells := by
    rw [Shape.cells_node]
    exact List.mem_cons_self
  obtain ⟨lsn, _, hv⟩ := h.cellsAt _ hmem
  exact ⟨lsn, exec_page (h.range _ hmem) hv⟩

theorem Searchable.leaf_page {l : Leaf} (h : Searchable top s t) (hl : l ∈ t.leaves) :
    ∃ lsn, exec (page l.id) s = .ok (.leaf lsn l.next (Leaf.entries l)) s := by
  have hmem := Shape.leaf_mem_cells hl
  obtain ⟨⟨lsn, _, hv⟩, _⟩ := h.cellsAt _ hmem
  exact ⟨lsn, exec_page (h.range _ hmem) hv⟩

theorem Searchable.exec_leaf {l : Leaf} (h : Searchable top s t) (hl : l ∈ t.leaves) :
    exec (leaf l.id) s = .ok ⟨l.next, Leaf.entries l⟩ s := by
  obtain ⟨lsn, hpage⟩ := h.leaf_page hl
  rw [leaf, exec_bind_ok hpage, exec_pure]

/-! ### Turning at an internal page -/

theorem partitionPoint_append {α : Type} {p : α → Bool} {a b : List α} (ha : ∀ x ∈ a, p x = true)
    (hb : ∀ x ∈ b.head?, p x = false) : partitionPoint p (a ++ b) = a.length := by
  unfold partitionPoint
  rw [List.takeWhile_append_of_pos ha]
  obtain _ | ⟨x, b⟩ := b
  · simp
  · simp [hb x (by simp)]

theorem childFor_turn {k : Bytes} {left right : List Shape} {t : Shape} (hleft : left = [] ∨ t.low ≤ k)
    (hlefts : ∀ u ∈ left.tail, u.low ≤ k) (hright : ∀ u ∈ right.head?, k < u.low) :
    childFor k (leftmost ((left ++ t :: right).map Shape.ref))
      (separators ((left ++ t :: right).map Shape.ref)) = t.id := by
  have hb : ∀ e ∈ (right.map fun u => Ref.entry u.ref).head?, decide (e.key ≤ k) = false := by
    intro e he
    obtain _ | ⟨u, us⟩ := right
    · cases he
    · cases he
      exact decide_eq_false (hright u rfl).not_ge
  obtain _ | ⟨u, us⟩ := left
  · have hsep : separators (([] ++ t :: right).map Shape.ref) = [] ++ right.map fun u => Ref.entry u.ref := by
      simp [separators]
    unfold childFor
    rw [hsep, partitionPoint_append (by simp) hb]
    simp [leftmost]
  · have ht : t.low ≤ k := hleft.resolve_left (by simp)
    have hsep : separators ((u :: us ++ t :: right).map Shape.ref) =
        (us ++ [t]).map (fun u => Ref.entry u.ref) ++ right.map fun u => Ref.entry u.ref := by
      simp [separators, Function.comp_def]
    have ha : ∀ e ∈ (us ++ [t]).map (fun u => Ref.entry u.ref), decide (e.key ≤ k) = true := by
      intro e he
      obtain ⟨x, hx, rfl⟩ := List.mem_map.mp he
      rcases List.mem_append.mp hx with hx | hx
      · exact decide_eq_true (hlefts x hx)
      · exact decide_eq_true (List.mem_singleton.mp hx ▸ ht)
    unfold childFor
    rw [hsep, partitionPoint_append ha hb]
    simp [Ref.entry]

/-! ### Finding a leaf -/

theorem exec_findLeafFrom {k : Bytes} {cs : List Crumb} {l : Leaf} (path : Path k t cs l)
    (h : Searchable top s t) {bound : Nat} {route : List PageId} (hbound : t.cells.length ≤ bound)
    (hroute : ∀ p ∈ route, p ∉ t.cells.map Cell.id) :
    exec (findLeafFrom k bound t.id route) s =
      .ok (l.id, route ++ ((cs.map SearchTree.Crumb.id).reverse ++ [l.id])) s := by
  induction path generalizing bound route with
  | leaf l =>
    obtain ⟨bound, rfl⟩ : ∃ n, bound = n + 1 := ⟨bound - 1, by simp at hbound; omega⟩
    obtain ⟨lsn, hpage⟩ := h.leaf_page (l := l) (by simp)
    have hfresh : l.id ∉ route := fun hp => hroute _ hp (by simp [Cell.id])
    rw [Shape.id_leaf, findLeafFrom, exec_bind_ok (exec_check_pos s hfresh _), exec_bind_ok hpage]
    simp
  | @node i left right t' cs l hleft hlefts hright path ih =>
    obtain ⟨bound, rfl⟩ : ∃ n, bound = n + 1 := ⟨bound - 1, by simp at hbound; omega⟩
    obtain ⟨lsn, hpage⟩ := h.node_page
    obtain ⟨hkid, hnot⟩ := h.kid (k := t') (by simp)
    have hfresh : i ∉ route := fun hp => hroute _ hp (by simp [Cell.id])
    rw [Shape.id_node, findLeafFrom, exec_bind_ok (exec_check_pos s hfresh _), exec_bind_ok hpage]
    simp only
    rw [childFor_turn hleft hlefts hright, ih hkid]
    · simp
    · simp at hbound
      omega
    · intro p hp hmem
      rcases List.mem_append.mp hp with hp | hp
      · refine hroute p hp ?_
        rw [Shape.cells_node, List.map_cons, List.map_flatMap]
        exact List.mem_cons_of_mem _ (List.mem_flatMap.mpr ⟨t', by simp, hmem⟩)
      · exact hnot (List.mem_singleton.mp hp ▸ hmem)

theorem Pages.cells_length_le {free extra : List PageId} {cells : List Cell} (h : Pages top s cells free extra) :
    cells.length ≤ s.state.highWaterPageId := by
  have hsub := (Cell.ids_sublist cells).length_le
  have hle := h.space.length_le
  simp only [List.length_map, List.length_append] at hsub hle
  omega

/-- The search for `k` ends in the leaf the tree has for `k`. -/
theorem Healthy.exec_findLeaf {free extra : List PageId} (h : Healthy top s t free extra) (k : Bytes) :
    ∃ cs l, plug cs (.leaf l) = t ∧
      exec (findLeaf k) s = .ok (l.id, (cs.map SearchTree.Crumb.id).reverse ++ [l.id]) s ∧
      l.low ≤ k ∧ ∀ b ∈ after cs, k < b.low := by
  obtain ⟨cs, l, path⟩ := exists_path k h.branching
  refine ⟨cs, l, path.plug_eq, ?_, path.low_le (h.low ▸ nil_le k), path.after_gt h.branching h.order⟩
  rw [findLeaf, exec_bind_ok (exec_get s), h.root,
    exec_findLeafFrom path h.searchable (h.pages.cells_length_le.trans (Nat.le_succ _)) (by simp)]
  simp

theorem exec_leftmostLeafFrom (h : Searchable top s t) (hb : t.Branching) {bound : Nat} {visited : List PageId}
    (hbound : t.cells.length ≤ bound) (hvisited : ∀ p ∈ visited, p ∉ t.cells.map Cell.id) :
    ∃ l rest, t.leaves = l :: rest ∧ exec (leftmostLeafFrom bound t.id visited) s = .ok l.id s := by
  induction t using Shape.induct generalizing bound visited with
  | leaf l =>
    obtain ⟨bound, rfl⟩ : ∃ n, bound = n + 1 := ⟨bound - 1, by simp at hbound; omega⟩
    obtain ⟨lsn, hpage⟩ := h.leaf_page (l := l) (by simp)
    have hfresh : l.id ∉ visited := fun hp => hvisited _ hp (by simp [Cell.id])
    refine ⟨l, [], by simp, ?_⟩
    rw [Shape.id_leaf, leftmostLeafFrom, exec_bind_ok (exec_check_pos s hfresh _), exec_bind_ok hpage]
    simp
  | node i kids ih =>
    obtain _ | ⟨k, ks⟩ := kids
    · exact absurd hb.two_le (by simp)
    · obtain ⟨bound, rfl⟩ : ∃ n, bound = n + 1 := ⟨bound - 1, by simp at hbound; omega⟩
      obtain ⟨lsn, hpage⟩ := h.node_page
      obtain ⟨hkid, hnot⟩ := h.kid (k := k) (by simp)
      have hfresh : i ∉ visited := fun hp => hvisited _ hp (by simp [Cell.id])
      have hnext : ∀ p ∈ i :: visited, p ∉ k.cells.map Cell.id := by
        intro p hp hmem
        rcases List.mem_cons.mp hp with rfl | hp
        · exact hnot hmem
        · refine hvisited p hp ?_
          rw [Shape.cells_node, List.map_cons, List.map_flatMap]
          exact List.mem_cons_of_mem _ (List.mem_flatMap.mpr ⟨k, by simp, hmem⟩)
      have hlen : k.cells.length ≤ bound := by
        simp at hbound
        omega
      obtain ⟨l, rest, hleaves, hexec⟩ := ih k (by simp) hkid (hb.kid (by simp)) hlen hnext
      refine ⟨l, rest ++ ks.flatMap Shape.leaves, by simp [hleaves], ?_⟩
      rw [Shape.id_node, leftmostLeafFrom, exec_bind_ok (exec_check_pos s hfresh _), exec_bind_ok hpage]
      simpa [leftmost] using hexec

theorem Healthy.exec_leftmostLeaf {free extra : List PageId} (h : Healthy top s t free extra) :
    ∃ l rest, t.leaves = l :: rest ∧ exec leftmostLeaf s = .ok l.id s := by
  have hvisited : ∀ p ∈ ([] : List PageId), p ∉ t.cells.map Cell.id := by simp
  obtain ⟨l, rest, hleaves, hexec⟩ := exec_leftmostLeafFrom h.searchable h.branching
    (h.pages.cells_length_le.trans (Nat.le_succ _)) hvisited
  refine ⟨l, rest, hleaves, ?_⟩
  rw [leftmostLeaf, exec_bind_ok (exec_get s), h.root, hexec]

end Dodb
