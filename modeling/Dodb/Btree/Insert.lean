import Dodb.Btree.Split
import Dodb.Btree.Values

/-! Inserting into the tree: leaf splits, separators, and the splits of the pages above.

A page that was split is, for the page above it, one child that has become two. The
subtrees `left` and `right` are complete; the cells around their place still refer to
`left` only, and the recursion on the pages above ends with a tree whose leaves, from
left to right, are the old ones with `right`'s put in. An insertion is refused only
when no page is left or when some key on the way is long. -/
namespace Dodb
open Lib PageProg SearchTree

variable {top : Lsn} {s : TreeStage} {cells : List Cell} {free extra : List PageId}

/-! ### Writing cells -/

theorem Pages.addNode {p : PageId} {refs : List Ref} {lsn : Lsn} (h : Pages top s cells free (p :: extra))
    (hlsn : lsn ≤ top) (hvalid : Cell.Valid top (.node p refs)) :
    Pages top (s.write p (.internal lsn (leftmost refs) (separators refs))) (.node p refs :: cells) free extra := by
  have hw := h.write List.mem_cons_self (.internal lsn (leftmost refs) (separators refs))
  exact Pages.adopt (c := .node p refs) hw ⟨lsn, hlsn, s.view_write_same p _⟩ hvalid

theorem Pages.addLeaf {l : Leaf} {lsn : Lsn} (h : Pages top s cells free (Cell.pages (.leaf l) ++ extra))
    (hlsn : lsn ≤ top) (hat : ∀ i ∈ l.items, i.At top s.view) (hvalid : Cell.Valid top (.leaf l)) :
    Pages top (s.write l.id (.leaf lsn l.next (Leaf.entries l))) (.leaf l :: cells) free extra := by
  have hw := h.write List.mem_cons_self (.leaf lsn l.next (Leaf.entries l))
  refine hw.adopt ⟨⟨lsn, hlsn, s.view_write_same _ _⟩, fun i hi => (hat i hi).congr fun q hq => ?_⟩ hvalid
  refine s.view_write_ne _ fun heq => ?_
  have hnodup := h.extra_nodup
  rw [Cell.pages, List.cons_append, List.nodup_cons] at hnodup
  exact hnodup.1 (List.mem_append_left _ (List.mem_flatMap.mpr ⟨i, hi, heq ▸ hq⟩))

/-- No page outside the cells names a cell. -/
theorem Pages.extra_ne (h : Pages top s cells free extra) {q : PageId} (hq : q ∈ extra) {c : Cell}
    (hc : c ∈ cells) : q ≠ Cell.id c := fun heq =>
  (h.extra_disjoint hq).1 (List.mem_flatMap.mpr ⟨c, hc, heq ▸ Cell.id_mem_pages c⟩)

/-- Two lists of cells that list the same ones. -/
theorem perm_of_coe {α : Type} {a b : List α} (h : (a : Multiset α) = b) : a.Perm b := Multiset.coe_eq_coe.mp h

/-! ### Short keys -/

def Cell.Short : Cell → Prop
  | .leaf l => ∀ i ∈ l.items, i.sortKey.length ≤ shortKeySize
  | .node _ refs => ∀ r ∈ refs, r.low.length ≤ shortKeySize

/-! ### A child that has become two -/

section Kids
variable {c : Crumb} {left right : Shape}

/-- The children of the node with `left` and `right` at the place below it. -/
def Crumb.kids (c : Crumb) (left right : Shape) : List Shape := c.left ++ left :: right :: c.right

theorem Crumb.map_ref_kids : (Crumb.kids c left right).map Shape.ref = c.refs [left.ref, right.ref] := by
  simp [Crumb.kids, Crumb.refs]

theorem leftmost_refs (l : Ref) (rs : List Ref) : leftmost (c.refs (l :: rs)) = leftmost (c.refs [l]) := by
  unfold leftmost Crumb.refs
  cases c.left <;> simp

theorem separators_refs (l : Ref) (rs : List Ref) :
    separators (c.refs (l :: rs)) =
      (c.left.map Shape.ref ++ [l]).tail.map Ref.entry ++ (rs ++ c.right.map Shape.ref).map Ref.entry := by
  unfold separators Crumb.refs
  cases c.left <;> simp

/-- The new separator goes right after the child that was split. -/
theorem insertAt_separators (hlow : (Crumb.kids c left right).Pairwise fun a b => a.low < b.low) :
    insertAt (partitionPoint (fun e => decide (e.key < right.low)) (separators (c.refs [left.ref])))
      ⟨right.low, right.id⟩ (separators (c.refs [left.ref])) = separators (c.refs [left.ref, right.ref]) := by
  unfold Crumb.kids at hlow
  have hlow' : ((c.left ++ [left]) ++ right :: c.right).Pairwise fun a b => a.low < b.low := by simpa using hlow
  obtain ⟨_, hright, hbetween⟩ := List.pairwise_append.mp hlow'
  have ha : ∀ e ∈ (c.left.map Shape.ref ++ [left.ref]).tail.map Ref.entry, decide (e.key < right.low) = true := by
    intro e he
    obtain ⟨r, hr, rfl⟩ := List.mem_map.mp he
    have hr' := List.mem_of_mem_tail hr
    rw [show c.left.map Shape.ref ++ [left.ref] = (c.left ++ [left]).map Shape.ref by simp] at hr'
    obtain ⟨u, hu, rfl⟩ := List.mem_map.mp hr'
    exact decide_eq_true (hbetween u hu right List.mem_cons_self)
  have hb : ∀ e ∈ (([] ++ c.right.map Shape.ref).map Ref.entry).head?, decide (e.key < right.low) = false := by
    intro e he
    cases hc : c.right with
    | nil => simp [hc] at he
    | cons u us =>
      simp only [hc, List.nil_append, List.map_cons, List.head?_cons, Option.mem_some_iff] at he
      subst he
      exact decide_eq_false ((List.pairwise_cons.mp hright).1 u (by simp [hc])).not_gt
  rw [separators_refs, separators_refs, partitionPoint_append ha hb]
  unfold insertAt
  rw [List.take_left, List.drop_left]
  rfl

end Kids

theorem exists_root_cell (t : Shape) : ∃ c ∈ t.cells, Cell.id c = t.id := by
  cases t with
  | leaf l => exact ⟨.leaf l, by simp, rfl⟩
  | node id kids => exact ⟨.node id (kids.map Shape.ref), by simp, rfl⟩

theorem Pages.id_range (h : Pages top s cells free extra) {t : Shape} (ht : ∀ c ∈ t.cells, c ∈ cells) :
    firstDataPage ≤ t.id ∧ t.id ≤ s.state.highWaterPageId := by
  obtain ⟨c, hc, hid⟩ := exists_root_cell t
  exact hid ▸ h.cell_range (ht c hc) (Cell.id_mem_pages c)

/-! ### Splitting a node -/

section Halves
variable {refs : List Ref} {n : Nat}

theorem separators_take : separators (refs.take (n + 1)) = (separators refs).take n := by
  unfold separators
  rw [← List.map_take]
  cases refs <;> simp

theorem separators_drop : separators (refs.drop (n + 1)) = (separators refs).drop (n + 1) := by
  unfold separators
  rw [← List.map_drop, List.tail_drop, List.drop_tail]

theorem leftmost_take : leftmost (refs.take (n + 1)) = leftmost refs := by
  unfold leftmost
  cases refs <;> simp

theorem separators_getD (h : n + 1 < refs.length) (e : InternalEntry) :
    ∃ r rest, refs.drop (n + 1) = r :: rest ∧ (separators refs).getD n e = Ref.entry r := by
  refine ⟨refs[n + 1], refs.drop (n + 2), List.drop_eq_getElem_cons h, ?_⟩
  unfold separators
  have hn : n < refs.tail.length := by
    rw [List.length_tail]
    omega
  simp [List.getD_eq_getElem?_getD, h]

end Halves

theorem internalFits_single_child {k : Bytes} {a b : PageId} (h : internalFits firstDataPage [⟨k, a⟩] = true)
    (hb : firstDataPage ≤ b) : internalFits firstDataPage [⟨k, b⟩] = true := by
  rw [internalFits_iff] at h ⊢
  obtain ⟨h2, hvalid, _, hused⟩ := h
  refine ⟨h2, fun e he => ?_, List.pairwise_singleton _ _, hused⟩
  rw [List.mem_singleton.mp he]
  exact ⟨hb, (hvalid _ (List.mem_singleton_self _)).2⟩

/-! ### Separators on the pages above -/

/-- What the insertion of a separator leaves as it was. -/
structure SameRevisions (a b : Alloc) : Prop where
  nextRevision : b.nextRevision = a.nextRevision
  lastLsn : b.lastLsn = a.lastLsn

theorem SameCounters.revisions {a b : Alloc} (h : SameCounters a b) : SameRevisions a b :=
  ⟨h.nextRevision, h.lastLsn⟩

theorem SameRevisions.trans {a b c : Alloc} (h : SameRevisions a b) (h' : SameRevisions b c) : SameRevisions a c :=
  ⟨h'.nextRevision.trans h.nextRevision, h'.lastLsn.trans h.lastLsn⟩

/-- The tree that comes out of putting `leaves` where there was a tree with the least key `low`. -/
structure Inserted (top : Lsn) (s : TreeStage) (leaves : List Leaf) (low : Bytes) (s' : TreeStage) (t : Shape)
    (free' extra : List PageId) : Prop where
  pages : Pages top s' t.cells free' extra
  root : s'.state.rootPageId = t.id
  leaves : t.leaves = leaves
  low : t.low = low
  revisions : SameRevisions s.state s'.state
  frame : ∀ q ∈ extra, s'.view q = s.view q

section Above
variable {c : Crumb} {cs : List Crumb} {left right : Shape}

/-- The cells there are, by the node above the place. -/
theorem cells_around_cons (c : Crumb) (cs : List Crumb) (left right : Shape) :
    (left.cells ++ (right.cells ++ around (c :: cs) left.ref)).Perm
      (.node c.id (c.refs [left.ref]) ::
        ((Crumb.kids c left right).flatMap Shape.cells ++ around cs (c.up left.ref))) := by
  refine perm_of_coe ?_
  simp only [around, Crumb.kids, Crumb.cells, List.flatMap_append, List.flatMap_cons, ← Multiset.coe_add,
    ← Multiset.cons_coe, ← Multiset.singleton_add]
  abel

theorem leaves_cons (c : Crumb) (cs : List Crumb) (left right : Shape) :
    before (c :: cs) ++ (left.leaves ++ right.leaves ++ after (c :: cs)) =
      before cs ++ ((Crumb.kids c left right).flatMap Shape.leaves ++ after cs) := by
  simp [before, after, Crumb.kids]

theorem mem_kids_cells {k : Shape} (hk : k ∈ Crumb.kids c left right) {x : Cell} (hx : x ∈ k.cells) :
    x ∈ left.cells ++ (right.cells ++ around (c :: cs) left.ref) := by
  rw [(cells_around_cons c cs left right).mem_iff]
  exact List.mem_cons_of_mem _ (List.mem_append_left _ (List.mem_flatMap.mpr ⟨k, hk, hx⟩))

theorem Pages.kids_pairwise (h : Pages top s (left.cells ++ (right.cells ++ around (c :: cs) left.ref)) free extra)
    (horder : InOrder Item.sortKey (before (c :: cs) ++ (left.leaves ++ right.leaves ++ after (c :: cs)))) :
    (Crumb.kids c left right).Pairwise fun a b => a.low < b.low := by
  rw [leaves_cons, inOrder_append, inOrder_append] at horder
  exact horder.2.1.1.pairwise_low fun k hk x hx => (h.valid x (mem_kids_cells hk hx)).branching

theorem Pages.exec_parent (h : Pages top s (left.cells ++ (right.cells ++ around (c :: cs) left.ref)) free extra) :
    Cell.Valid top (.node c.id (c.refs [left.ref])) ∧
      exec (internal c.id) s = .ok ⟨leftmost (c.refs [left.ref]), separators (c.refs [left.ref])⟩ s := by
  have hmem : SearchTree.Cell.node c.id (c.refs [left.ref]) ∈
      left.cells ++ (right.cells ++ around (c :: cs) left.ref) := by simp [around]
  obtain ⟨lsn, _, hv⟩ := h.cellsAt _ hmem
  exact ⟨h.valid _ hmem, exec_internal (h.cell_range hmem (Cell.id_mem_pages _)) hv⟩

/-- The separators with the new one are those there were, and the new one. -/
theorem separators_perm (c : Crumb) (left right : Shape) :
    (separators (c.refs [left.ref, right.ref])).Perm (Ref.entry right.ref :: separators (c.refs [left.ref])) := by
  rw [separators_refs, separators_refs]
  exact List.perm_middle

end Above

/-- What comes of adding the separator of `right` to the pages above the place of `left`. -/
def SeparatorAdded (top : Lsn) (s : TreeStage) (free extra : List PageId) (lsn : Revision) (cs : List Crumb)
    (left right : Shape) : Prop :=
  (∃ e s', exec (insertParentSeparator lsn (cs.map SearchTree.Crumb.id) right.low right.id) s = .err e s' ∧
    (room s free ≤ cs.length ∨ shortKeySize < right.low.length ∨ ∃ c ∈ around cs left.ref, ¬Cell.Short c)) ∨
  ∃ t s' free', exec (insertParentSeparator lsn (cs.map SearchTree.Crumb.id) right.low right.id) s = .ok ⟨⟩ s' ∧
    room s free ≤ room s' free' + (cs.length + 1) ∧
    (right.low.length ≤ shortKeySize →
      (∀ c ∈ left.cells ++ (right.cells ++ around cs left.ref), Cell.Short c) → ∀ c ∈ t.cells, Cell.Short c) ∧
    Inserted top s (before cs ++ (left.leaves ++ right.leaves ++ after cs)) (plug cs left).low s' t free' extra

/-- Above the root a new one grows. -/
theorem Pages.exec_growRoot {lsn : Revision} (hlsn : lsn ≤ top) {left right : Shape}
    (h : Pages top s (left.cells ++ (right.cells ++ [])) free extra) (hroot : s.state.rootPageId = left.id)
    (hsingle : internalFits firstDataPage [Ref.entry right.ref] = true) (hlow : left.low = []) :
    SeparatorAdded top s free extra lsn [] left right := by
  rcases h.exec_allocatePage with ⟨e, s', hexec, hroom⟩ | ⟨p, s₁, free₁, hexec, h₁, hc₁, hv₁, hroom₁⟩
  · refine .inl ⟨e, s', ?_, .inl (by simp [hroom])⟩
    rw [List.map_nil, insertParentSeparator, exec_bind_err hexec]
  have hleft : firstDataPage ≤ left.id := (h₁.id_range (t := left) (by simp +contextual)).1
  have hvalid : Cell.Valid top (.node p [left.ref, right.ref]) :=
    ⟨le_refl 2, internalFits_sublist hsingle (List.Sublist.refl _) hleft⟩
  have hroot₁ : s₁.state.rootPageId = left.id := hc₁.root.trans hroot
  have hcells : (SearchTree.Shape.node p [left, right]).cells =
      .node p [left.ref, right.ref] :: (left.cells ++ (right.cells ++ [])) := by simp
  refine .inr ⟨.node p [left, right], {s₁.write p (.internal lsn left.id [⟨right.low, right.id⟩]) with
    state := {s₁.state with rootPageId := p}}, free₁, ?_, ?_, ?_, ?_, rfl, ?_, ?_, ?_, ?_⟩
  · rw [List.map_nil, insertParentSeparator, exec_bind_ok hexec, exec_bind_ok (exec_get s₁), hroot₁]
    rfl
  · show room s free ≤ room s₁ free₁ + 1
    omega
  · intro hright hshort c hc
    rw [hcells] at hc
    rcases List.mem_cons.mp hc with rfl | hc
    · intro r hr
      rcases List.mem_pair.mp hr with rfl | rfl
      · rw [Shape.ref_low, hlow]
        exact Nat.zero_le _
      · exact hright
    · exact hshort c hc
  · rw [hcells]
    exact (h₁.addNode hlsn hvalid).setState rfl rfl
  · simp [before, after]
  · simp [plug]
  · exact ⟨hc₁.nextRevision, hc₁.lastLsn⟩
  · intro q hq
    have hne : q ≠ p := fun heq => (List.nodup_cons.mp h₁.extra_nodup).1 (heq ▸ hq)
    show (s₁.write p _).view q = s.view q
    rw [s₁.view_write_ne _ hne, hv₁]

section Above
variable {lsn : Revision} {c : Crumb} {cs : List Crumb} {left right : Shape}

theorem Crumb.ref_take_kids (c : Crumb) (left right : Shape) (n : Nat) :
    (SearchTree.Shape.node c.id ((Crumb.kids c left right).take (n + 1))).ref = c.up left.ref := by
  unfold Crumb.kids Crumb.up Shape.ref
  cases c.left <;> simp

/-- The page above has room for the separator. -/
theorem Pages.exec_separatorFits (hlsn : lsn ≤ top)
    (h : Pages top s (left.cells ++ (right.cells ++ around (c :: cs) left.ref)) free extra)
    (hroot : s.state.rootPageId = (plug (c :: cs) left).id)
    (hlow : (Crumb.kids c left right).Pairwise fun a b => a.low < b.low)
    (hfits : internalFits (leftmost (c.refs [left.ref])) (separators (c.refs [left.ref, right.ref])) = true) :
    SeparatorAdded top s free extra lsn (c :: cs) left right := by
  obtain ⟨hparent, hexec⟩ := h.exec_parent
  have href : (SearchTree.Shape.node c.id (Crumb.kids c left right)).ref =
      (SearchTree.Shape.node c.id (c.left ++ left :: c.right)).ref := by
    unfold Crumb.kids
    rw [c.ref_node, c.ref_node]
  have hcells : (plug cs (.node c.id (Crumb.kids c left right))).cells.Perm
      (.node c.id (c.refs [left.ref, right.ref]) ::
        ((Crumb.kids c left right).flatMap Shape.cells ++ around cs (c.up left.ref))) := by
    refine (cells_plug ..).trans ?_
    rw [href, c.ref_node, Shape.cells_node, Crumb.map_ref_kids]
    rfl
  have hvalid : Cell.Valid top (.node c.id (c.refs [left.ref, right.ref])) :=
    ⟨by simp [Crumb.refs]; omega, by rwa [leftmost_refs]⟩
  have h₁ := (h.perm (cells_around_cons c cs left right).symm (List.Perm.refl _)).release.addNode hlsn hvalid
  rw [leftmost_refs] at h₁
  refine .inr ⟨plug cs (.node c.id (Crumb.kids c left right)), _, free, ?_, ?_, ?_, h₁.perm hcells (List.Perm.refl _),
    ?_, ?_, ?_, ⟨rfl, rfl⟩, ?_⟩
  · rw [List.map_cons, insertParentSeparator, exec_bind_ok hexec]
    simp only
    rw [insertAt_separators hlow, if_pos hfits, exec_writePage]
  · show room s free ≤ room s free + _
    omega
  · intro hright hshort x hx
    rw [hcells.mem_iff] at hx
    have hall := (cells_around_cons c cs left right).mem_iff (a := x)
    rcases List.mem_cons.mp hx with rfl | hx
    · have hold : Cell.Short (.node c.id (c.refs [left.ref])) :=
        hshort _ ((cells_around_cons c cs left right).mem_iff.mpr List.mem_cons_self)
      intro r hr
      simp only [Crumb.refs, List.mem_append, List.mem_cons, List.not_mem_nil, or_false] at hr
      rcases hr with hr | (rfl | rfl) | hr
      · exact hold r (by simp [Crumb.refs, hr])
      · exact hold left.ref (by simp [Crumb.refs])
      · exact hright
      · exact hold r (by simp [Crumb.refs, hr])
    · exact hshort x (hall.mpr (List.mem_cons_of_mem _ hx))
  · exact hroot.trans (congrArg SearchTree.Ref.id (ref_plug cs href)).symm
  · rw [leaves_plug, Shape.leaves_node, leaves_cons]
  · exact congrArg SearchTree.Ref.low (ref_plug cs href)
  · intro q hq
    have hmem : SearchTree.Cell.node c.id (c.refs [left.ref]) ∈
        left.cells ++ (right.cells ++ around (c :: cs) left.ref) := by simp [around]
    exact s.view_write_ne _ (h.extra_ne hq hmem)

theorem separators_single (hparent : Cell.Valid top (.node c.id (c.refs [left.ref])))
    (hsingle : internalFits firstDataPage [Ref.entry right.ref] = true) :
    ∀ e ∈ separators (c.refs [left.ref, right.ref]), internalFits firstDataPage [e] = true := by
  intro e he
  rcases List.mem_cons.mp ((separators_perm c left right).mem_iff.mp he) with rfl | he
  · exact hsingle
  · exact internalFits_single hparent.2 he

/-- A full page above a place where all keys are short can be split. -/
theorem exists_internalSplit (hparent : Cell.Valid top (.node c.id (c.refs [left.ref])))
    (hsingle : internalFits firstDataPage [Ref.entry right.ref] = true)
    (hlow : (Crumb.kids c left right).Pairwise fun a b => a.low < b.low)
    (hfull : internalFits (leftmost (c.refs [left.ref])) (separators (c.refs [left.ref, right.ref])) = false)
    (hshort : Cell.Short (.node c.id (c.refs [left.ref]))) (hright : right.low.length ≤ shortKeySize) :
    ∃ n, chooseInternalSplit (leftmost (c.refs [left.ref])) (separators (c.refs [left.ref, right.ref])) = .ok n := by
  have hperm := separators_perm c left right
  obtain ⟨hleftmost, _, _, hused⟩ := (internalFits_iff _ _).mp hparent.2
  refine chooseInternalSplit_isOk hleftmost (fun e he => ?_) ?_ (fun e he => ?_) hfull ?_
  · exact ((internalFits_iff _ _).mp (separators_single hparent hsingle e he)).2.1 e (List.mem_singleton_self _)
  · rw [← Crumb.map_ref_kids, separators, ← List.map_tail, List.map_map, List.map_map, List.pairwise_map]
    exact hlow.sublist (List.tail_sublist _)
  · rcases List.mem_cons.mp (hperm.mem_iff.mp he) with rfl | he
    · exact hright
    · obtain ⟨r, hr, rfl⟩ := List.mem_map.mp he
      exact hshort r (List.mem_of_mem_tail hr)
  · have hsum := (hperm.map fun e => slotSize + internalRecordSize e).sum_eq
    have hold := (used_le_iff internalRecordSize _).mp hused
    have hnew := internalRecordSize_le (e := Ref.entry right.ref) hright
    rw [List.map_cons, List.sum_cons] at hsum
    omega

/-- The two pages that a page above the place is split into. -/
def Crumb.leftHalf (c : Crumb) (left right : Shape) (n : Nat) : Shape :=
  .node c.id ((Crumb.kids c left right).take (n + 1))

def Crumb.rightHalf (c : Crumb) (left right : Shape) (n : Nat) (p : PageId) : Shape :=
  .node p ((Crumb.kids c left right).drop (n + 1))

theorem Crumb.ref_leftHalf (c : Crumb) (left right : Shape) (n : Nat) :
    (Crumb.leftHalf c left right n).ref = (SearchTree.Shape.node c.id (c.left ++ left :: c.right)).ref := by
  rw [Crumb.leftHalf, Crumb.ref_take_kids, c.ref_node]

theorem Crumb.leaves_halves (c : Crumb) (left right : Shape) (n : Nat) (p : PageId) :
    (Crumb.leftHalf c left right n).leaves ++ (Crumb.rightHalf c left right n p).leaves =
      (Crumb.kids c left right).flatMap Shape.leaves := by
  rw [Crumb.leftHalf, Crumb.rightHalf, Shape.leaves_node, Shape.leaves_node, ← List.flatMap_append,
    List.take_append_drop]

theorem Crumb.cells_halves (c : Crumb) (left right : Shape) (n : Nat) (p : PageId) :
    ((Crumb.leftHalf c left right n).cells ++ ((Crumb.rightHalf c left right n p).cells ++
        around cs (Crumb.leftHalf c left right n).ref)).Perm
      (.node p ((c.refs [left.ref, right.ref]).drop (n + 1)) ::
        .node c.id ((c.refs [left.ref, right.ref]).take (n + 1)) ::
          ((Crumb.kids c left right).flatMap Shape.cells ++ around cs (c.up left.ref))) := by
  have hkids : ((Crumb.kids c left right).take (n + 1)).flatMap Shape.cells ++
      ((Crumb.kids c left right).drop (n + 1)).flatMap Shape.cells =
        (Crumb.kids c left right).flatMap Shape.cells := by
    rw [← List.flatMap_append, List.take_append_drop]
  rw [← hkids, Crumb.ref_leftHalf, c.ref_node, Crumb.leftHalf, Crumb.rightHalf, Shape.cells_node, Shape.cells_node,
    ← Crumb.map_ref_kids, List.map_take, List.map_drop]
  refine perm_of_coe ?_
  simp only [← Multiset.coe_add, ← Multiset.cons_coe, ← Multiset.singleton_add]
  abel

theorem Crumb.low_rightHalf {n : Nat} {p : PageId} {r : Ref} {rest : List Ref}
    (hdrop : (c.refs [left.ref, right.ref]).drop (n + 1) = r :: rest) :
    (Crumb.rightHalf c left right n p).low = r.low := by
  rw [← Crumb.map_ref_kids, ← List.map_drop] at hdrop
  obtain ⟨k, ks, hks, hk, _⟩ := List.map_eq_cons_iff.mp hdrop
  rw [Crumb.rightHalf, hks, Shape.low_node_cons, ← hk, Shape.ref_low]

/-- The pages after the split, with the separator of the right one still to be added above. -/
theorem Pages.halve {n : Nat} {p : PageId} (hlsn : lsn ≤ top)
    (h : Pages top s (left.cells ++ (right.cells ++ around (c :: cs) left.ref)) free (p :: extra))
    (hn : 1 ≤ n ∧ n + 1 < (separators (c.refs [left.ref, right.ref])).length)
    (hleft : internalFits (leftmost (c.refs [left.ref])) ((separators (c.refs [left.ref, right.ref])).take n) = true)
    (hright : internalFits ((separators (c.refs [left.ref, right.ref])).getD n ⟨[], 0⟩).rightChild
      ((separators (c.refs [left.ref, right.ref])).drop (n + 1)) = true) :
    Pages top ((s.write c.id (.internal lsn (leftmost (c.refs [left.ref]))
        ((separators (c.refs [left.ref, right.ref])).take n))).write p
          (.internal lsn ((separators (c.refs [left.ref, right.ref])).getD n ⟨[], 0⟩).rightChild
            ((separators (c.refs [left.ref, right.ref])).drop (n + 1))))
      ((Crumb.leftHalf c left right n).cells ++ ((Crumb.rightHalf c left right n p).cells ++
        around cs (Crumb.leftHalf c left right n).ref)) free extra := by
  have hlength : (separators (c.refs [left.ref, right.ref])).length + 1 = (c.refs [left.ref, right.ref]).length := by
    simp [separators, Crumb.refs]
    omega
  have hlt : n + 1 < (c.refs [left.ref, right.ref]).length := by omega
  obtain ⟨r, rest, hdrop, hget⟩ := separators_getD hlt ⟨[], 0⟩
  have hchild : ((separators (c.refs [left.ref, right.ref])).getD n ⟨[], 0⟩).rightChild =
      leftmost ((c.refs [left.ref, right.ref]).drop (n + 1)) := by
    rw [hget, hdrop]
    rfl
  have hlm : leftmost (c.refs [left.ref]) = leftmost ((c.refs [left.ref, right.ref]).take (n + 1)) :=
    (leftmost_take.trans (leftmost_refs ..)).symm
  rw [hchild] at hright ⊢
  rw [hlm] at hleft ⊢
  rw [← separators_take] at hleft ⊢
  rw [← separators_drop] at hright ⊢
  have hvalid₁ : Cell.Valid top (.node c.id ((c.refs [left.ref, right.ref]).take (n + 1))) :=
    ⟨by rw [List.length_take]; omega, hleft⟩
  have hvalid₂ : Cell.Valid top (.node p ((c.refs [left.ref, right.ref]).drop (n + 1))) :=
    ⟨by rw [List.length_drop]; omega, hright⟩
  have h₁ := (h.perm (cells_around_cons c cs left right).symm (List.Perm.refl _)).release.addNode hlsn hvalid₁
  exact (h₁.addNode hlsn hvalid₂).perm (Crumb.cells_halves ..) (List.Perm.refl _)

/-- The full page above the place is split, and what is left to do is to add the separator of its right half. -/
structure Halved (top : Revision) (s : TreeStage) (free extra : List PageId) (lsn : Revision) (c : Crumb)
    (cs : List Crumb) (left right : Shape) (n : Nat) (p : PageId) (s' : TreeStage) (free' : List PageId) : Prop where
  call : exec (insertParentSeparator lsn ((c :: cs).map SearchTree.Crumb.id) right.low right.id) s =
    exec (insertParentSeparator lsn (cs.map SearchTree.Crumb.id) (Crumb.rightHalf c left right n p).low p) s'
  pages : Pages top s' ((Crumb.leftHalf c left right n).cells ++ ((Crumb.rightHalf c left right n p).cells ++
    around cs (Crumb.leftHalf c left right n).ref)) free' extra
  counters : SameCounters s.state s'.state
  room : room s' free' + 1 = room s free
  single : internalFits firstDataPage [Ref.entry (Crumb.rightHalf c left right n p).ref] = true
  promoted : ∃ r ∈ c.refs [left.ref, right.ref], (Crumb.rightHalf c left right n p).low = r.low
  frame : ∀ q ∈ extra, s'.view q = s.view q

/-- A full page above the place is split, unless there is no page left or a key is long. -/
theorem Pages.exec_splitParent (hlsn : lsn ≤ top)
    (h : Pages top s (left.cells ++ (right.cells ++ around (c :: cs) left.ref)) free extra)
    (hkids : (Crumb.kids c left right).Pairwise fun a b => a.low < b.low)
    (hsingle : internalFits firstDataPage [Ref.entry right.ref] = true)
    (hfits : ¬internalFits (leftmost (c.refs [left.ref])) (separators (c.refs [left.ref, right.ref])) = true) :
    (∃ e s', exec (insertParentSeparator lsn ((c :: cs).map SearchTree.Crumb.id) right.low right.id) s = .err e s' ∧
      (room s free = 0 ∨ shortKeySize < right.low.length ∨ ¬Cell.Short (.node c.id (c.refs [left.ref])))) ∨
    ∃ n p s' free', Halved top s free extra lsn c cs left right n p s' free' := by
  obtain ⟨hparent, hexec⟩ := h.exec_parent
  rw [List.map_cons, insertParentSeparator, exec_bind_ok hexec]
  simp only
  rw [insertAt_separators hkids, if_neg hfits]
  cases hsplit : chooseInternalSplit (leftmost (c.refs [left.ref])) (separators (c.refs [left.ref, right.ref])) with
  | error e =>
    refine .inl ⟨e, s, rfl, .inr ?_⟩
    by_contra hnot
    push Not at hnot
    obtain ⟨n, hn⟩ := exists_internalSplit hparent hsingle hkids (Bool.eq_false_iff.mpr hfits) hnot.2 hnot.1
    rw [hsplit] at hn
    cases hn
  | ok n =>
    obtain ⟨hn, hleft, hright⟩ := chooseInternalSplit_eq_ok (separators_single hparent hsingle) hsplit
    have hstep : ∀ {β : Type} (f : Nat → Prog β), exec (ofExcept (.ok n) >>= f) s = exec (f n) s := fun f => rfl
    rw [hstep]
    rcases h.exec_allocatePage with ⟨e, s', halloc, hroom⟩ | ⟨p, s₁, free₁, halloc, h₁, hc₁, hv₁, hroom₁⟩
    · exact .inl ⟨e, s', exec_bind_err halloc _, .inl hroom⟩
    have hlength : n + 1 < (c.refs [left.ref, right.ref]).length := by
      have : (separators (c.refs [left.ref, right.ref])).length + 1 ≤ (c.refs [left.ref, right.ref]).length := by
        simp [separators, Crumb.refs]
      omega
    -- the separator that goes up is the key of the first page of the right half
    obtain ⟨r, rest, hdrop, hget⟩ := separators_getD hlength ⟨[], 0⟩
    have hrlow : (Crumb.rightHalf c left right n p).low = r.low := Crumb.low_rightHalf hdrop
    refine .inr ⟨n, p, _, free₁, ?_, h₁.halve hlsn hn hleft hright, hc₁, hroom₁, ?_, ⟨r, ?_, hrlow⟩, fun q hq => ?_⟩
    · rw [List.map_cons, insertParentSeparator, exec_bind_ok hexec]
      simp only
      rw [insertAt_separators hkids, if_neg hfits, hsplit, hstep, exec_bind_ok halloc,
        exec_bind_ok (exec_check_pos s₁ ⟨hleft, hright⟩ _), exec_bind_ok (exec_writePage ..),
        exec_bind_ok (exec_writePage ..), hrlow, show r.low = (Ref.entry r).key from rfl, ← hget]
    · have hmem : Ref.entry r ∈ separators (c.refs [left.ref, right.ref]) := by
        rw [← hget, List.getD_eq_getElem _ _ (by omega)]
        exact List.getElem_mem _
      have hp : firstDataPage ≤ p := (h₁.mem_range (.inr (.inr List.mem_cons_self))).1
      have := internalFits_single_child (b := p) (separators_single hparent hsingle _ hmem) hp
      rwa [← hrlow] at this
    · exact List.mem_of_mem_drop (by rw [hdrop]; exact List.mem_cons_self)
    · have hqp : q ≠ p := fun heq => (List.nodup_cons.mp h₁.extra_nodup).1 (heq ▸ hq)
      have hqc : q ≠ c.id := h.extra_ne (c := .node c.id (c.refs [left.ref])) hq (by simp [around])
      rw [Stage.view_write_ne _ _ hqp, Stage.view_write_ne _ _ hqc, hv₁]

/-- Once the right half's separator is added, the place's is. -/
theorem Halved.added {n : Nat} {p : PageId} {s' : TreeStage} {free' : List PageId}
    (hh : Halved top s free extra lsn c cs left right n p s' free')
    (h : SeparatorAdded top s' free' extra lsn cs (Crumb.leftHalf c left right n) (Crumb.rightHalf c left right n p)) :
    SeparatorAdded top s free extra lsn (c :: cs) left right := by
  obtain ⟨r, hr, hrlow⟩ := hh.promoted
  have hroom := hh.room
  have hmem : SearchTree.Cell.node c.id (c.refs [left.ref]) ∈ around (c :: cs) left.ref := by simp [around]
  have hrefs : ∀ r ∈ c.refs [left.ref, right.ref], r = right.ref ∨ r ∈ c.refs [left.ref] := by
    intro r hr
    simp only [Crumb.refs, List.mem_append, List.mem_cons, List.not_mem_nil, or_false] at hr ⊢
    tauto
  rcases h with ⟨e, s₁, herr, hwhy⟩ | ⟨t, s₁, free₁, hok, hroom', hshort', hins⟩
  · refine .inl ⟨e, s₁, hh.call.trans herr, ?_⟩
    rcases hwhy with hwhy | hwhy | ⟨x, hx, hxs⟩
    · left
      simp only [List.length_cons]
      omega
    · right
      rw [hrlow] at hwhy
      rcases hrefs r hr with rfl | hr
      · exact .inl hwhy
      · exact .inr ⟨_, hmem, fun hall => absurd (hall r hr) hwhy.not_ge⟩
    · right; right
      rw [Crumb.ref_leftHalf, c.ref_node] at hx
      exact ⟨x, by simp [around, hx], hxs⟩
  · refine .inr ⟨t, s₁, free₁, hh.call.trans hok, ?_, ?_, ?_⟩
    · simp only [List.length_cons]
      omega
    · intro hshort hall
      have hparentShort : Cell.Short (.node c.id (c.refs [left.ref])) :=
        hall _ (List.mem_append_right _ (List.mem_append_right _ hmem))
      have hallRefs : ∀ u ∈ c.refs [left.ref, right.ref], u.low.length ≤ shortKeySize := fun u hu =>
        (hrefs u hu).elim (fun heq => heq ▸ hshort) (hparentShort u)
      refine hshort' (hrlow ▸ hallRefs r hr) fun x hx => ?_
      rw [(Crumb.cells_halves c left right n p).mem_iff, List.mem_cons, List.mem_cons] at hx
      rcases hx with rfl | rfl | hx
      · exact fun u hu => hallRefs u (List.mem_of_mem_drop hu)
      · exact fun u hu => hallRefs u (List.mem_of_mem_take hu)
      · exact hall x ((cells_around_cons c cs left right).mem_iff.mpr (List.mem_cons_of_mem _ hx))
    · refine {hins with
        leaves := ?_
        low := hins.low.trans (congrArg SearchTree.Ref.low (ref_plug cs (Crumb.ref_leftHalf c left right n)))
        revisions := hh.counters.revisions.trans hins.revisions
        frame := fun q hq => (hins.frame q hq).trans (hh.frame q hq)}
      rw [hins.leaves, Crumb.leaves_halves, ← leaves_cons]

end Above

theorem Pages.exec_insertParentSeparator {lsn : Revision} (hlsn : lsn ≤ top) {cs : List Crumb} {left right : Shape}
    (h : Pages top s (left.cells ++ (right.cells ++ around cs left.ref)) free extra)
    (hroot : s.state.rootPageId = (plug cs left).id) (hlow : (plug cs left).low = [])
    (horder : InOrder Item.sortKey (before cs ++ (left.leaves ++ right.leaves ++ after cs)))
    (hsingle : internalFits firstDataPage [Ref.entry right.ref] = true) :
    SeparatorAdded top s free extra lsn cs left right := by
  induction cs generalizing s free left right with
  | nil => exact h.exec_growRoot hlsn hroot hsingle hlow
  | cons c cs ih =>
    have hkids := h.kids_pairwise horder
    by_cases hfits : internalFits (leftmost (c.refs [left.ref])) (separators (c.refs [left.ref, right.ref])) = true
    · exact h.exec_separatorFits hlsn hroot hkids hfits
    rcases h.exec_splitParent hlsn hkids hsingle hfits with ⟨e, s', hexec, hwhy⟩ | ⟨n, p, s', free', hh⟩
    · refine .inl ⟨e, s', hexec, ?_⟩
      rcases hwhy with hroom | hlong | hlong
      · exact .inl (by omega)
      · exact .inr (.inl hlong)
      · exact .inr (.inr ⟨_, by simp [around], hlong⟩)
    -- the left half stands where the place stood
    have href := ref_plug cs (Crumb.ref_leftHalf c left right n)
    refine hh.added (ih hh.pages ?_ ((congrArg SearchTree.Ref.low href).trans hlow) ?_ hh.single)
    · exact (hh.counters.root.trans hroot).trans (congrArg SearchTree.Ref.id href).symm
    · rwa [Crumb.leaves_halves, ← leaves_cons]

/-! ### Leaves -/

/-- A key from a leaf that fits is a separator that fits. -/
theorem internalFits_of_leafFits {entries : List LeafEntry} (h : leafFits entries = true) {e : LeafEntry}
    (he : e ∈ entries) {p : PageId} (hp : firstDataPage ≤ p) : internalFits firstDataPage [⟨e.key, p⟩] = true := by
  have h₁ := leafFits_sublist h (List.singleton_sublist.mpr he)
  rw [leafFits_iff] at h₁
  obtain ⟨hcanonical, _, hused⟩ := h₁
  refine (internalFits_iff _ _).mpr ⟨le_refl _, fun x hx => ?_, List.pairwise_singleton _ _, ?_⟩
  · rw [List.mem_singleton.mp hx]
    exact ⟨hp, hcanonical e (List.mem_singleton_self e)⟩
  · unfold leafUsed RecordCodec.used at hused
    unfold internalUsed RecordCodec.used
    simp only [List.map_cons, List.map_nil, List.sum_cons, List.sum_nil, leafRecordSize, internalRecordSize,
      leafRecordHeaderSize, internalRecordHeaderSize] at hused ⊢
    omega

theorem Item.entry_short {i : Item} (hvalid : i.Valid top) (hkey : i.sortKey.length ≤ shortKeySize) :
    i.entry.Short := by
  refine ⟨hkey, ?_⟩
  show inlineLength (i.value.map Stored.ref) ≤ inlineValueLimit
  cases hv : i.value with
  | none => exact Nat.zero_le _
  | some v =>
    cases v with
    | inline bytes => exact hvalid.2 _ (Option.mem_def.mpr hv)
    | chain chunks => exact Nat.zero_le _

/-- A leaf with the items it is to have, its page taken out of the tree. -/
structure Detached (top : Lsn) (s : TreeStage) (free extra : List PageId) (cs : List Crumb) (l : Leaf) : Prop where
  pages : Pages top s (around cs (SearchTree.Shape.leaf l).ref) free (Cell.pages (.leaf l) ++ extra)
  items : ∀ i ∈ l.items, i.At top s.view
  valid : ∀ i ∈ l.items, i.Valid top
  root : s.state.rootPageId = (plug cs (.leaf l)).id
  low : (plug cs (.leaf l)).low = []
  order : InOrder Item.sortKey (before cs ++ l :: after cs)
  linked : Linked none (before cs ++ l :: after cs)

/-- What comes of writing the items of a leaf whose page was taken out of the tree. -/
def LeafWritten (top : Lsn) (s : TreeStage) (free extra : List PageId) (lsn : Revision) (cs : List Crumb)
    (l : Leaf) : Prop :=
  let write := exec (insertLeafEntries l.id ((cs.map SearchTree.Crumb.id).reverse ++ [l.id])
    ⟨l.next, Leaf.entries l⟩ lsn) s
  (∃ e s', write = .err e s' ∧
    (room s free ≤ cs.length + 1 ∨
      ∃ c ∈ .leaf l :: around cs (SearchTree.Shape.leaf l).ref, ¬Cell.Short c)) ∨
  ∃ t s' free', write = .ok ⟨⟩ s' ∧ room s free ≤ room s' free' + (cs.length + 2) ∧
    ((∀ c ∈ .leaf l :: around cs (SearchTree.Shape.leaf l).ref, Cell.Short c) → ∀ c ∈ t.cells, Cell.Short c) ∧
    Healthy top s' t free' extra ∧ t.items = (before cs ++ l :: after cs).flatMap SearchTree.Leaf.items ∧
    SameRevisions s.state s'.state ∧ ∀ q ∈ extra, s'.view q = s.view q

section Leaf
variable {lsn : Revision} {cs : List Crumb} {l : Leaf}

theorem Detached.exec_leafFits (hlsn : lsn ≤ top) (h : Detached top s free extra cs l)
    (hfits : leafFits (Leaf.entries l) = true) : LeafWritten top s free extra lsn cs l := by
  obtain ⟨h, hat, hvalid, hroot, hlow, horder, hlinked⟩ := h
  have hcells : (plug cs (.leaf l)).cells.Perm (.leaf l :: around cs (SearchTree.Shape.leaf l).ref) := by
    refine (cells_plug ..).trans ?_
    rw [Shape.cells_leaf]
    rfl
  have hleaves : (plug cs (.leaf l)).leaves = before cs ++ l :: after cs := by
    rw [leaves_plug, Shape.leaves_leaf]
    rfl
  have h₁ := h.addLeaf hlsn hat ⟨hfits, hvalid⟩
  refine .inr ⟨plug cs (.leaf l), s.write l.id (.leaf lsn l.next (Leaf.entries l)), free, ?_, Nat.le_add_right _ _, ?_,
    ⟨h₁.perm hcells (List.Perm.refl _), hroot, hlow, hleaves ▸ horder, hleaves ▸ hlinked⟩, ?_, ⟨rfl, rfl⟩, ?_⟩
  · rw [insertLeafEntries, if_pos hfits, exec_writePage]
  · exact fun hshort c hc => hshort c (hcells.mem_iff.mp hc)
  · rw [SearchTree.Shape.items, hleaves]
  · intro q hq
    refine s.view_write_ne _ fun heq => ?_
    have := h.extra_nodup
    rw [Cell.pages, List.cons_append, List.nodup_cons] at this
    exact this.1 (List.mem_append_right _ (heq ▸ hq))

/-- The two leaves that a leaf is split into. -/
def Leaf.leftHalf (l : Leaf) (n : Nat) (p : PageId) : Leaf := {l with next := some p, items := l.items.take n}

def Leaf.rightHalf (l : Leaf) (n : Nat) (p : PageId) (first : Item) : Leaf :=
  ⟨first.sortKey, p, l.next, l.items.drop n⟩

section Halves
variable {n : Nat} {p : PageId} {first : Item}

theorem Leaf.entries_leftHalf : Leaf.entries (Leaf.leftHalf l n p) = (Leaf.entries l).take n := List.map_take

theorem Leaf.entries_rightHalf (first : Item) : Leaf.entries (Leaf.rightHalf l n p first) = (Leaf.entries l).drop n := List.map_drop

theorem Leaf.pages_halves (l : Leaf) (n : Nat) (p : PageId) (first : Item) : (Cell.pages (.leaf (Leaf.leftHalf l n p)) ++
    (Cell.pages (.leaf (Leaf.rightHalf l n p first)) ++ extra)).Perm (p :: (Cell.pages (.leaf l) ++ extra)) := by
  have hitems : (l.items.take n).flatMap Item.pages ++ (l.items.drop n).flatMap Item.pages =
      l.items.flatMap Item.pages := by rw [← List.flatMap_append, List.take_append_drop]
  refine perm_of_coe ?_
  simp only [Cell.pages, Leaf.leftHalf, Leaf.rightHalf, ← hitems, ← Multiset.coe_add, ← Multiset.cons_coe,
    ← Multiset.singleton_add]
  abel

theorem Leaf.linked_halves (hlinked : Linked none (before cs ++ l :: after cs)) :
    Linked none (before cs ++ Leaf.leftHalf l n p :: Leaf.rightHalf l n p first :: after cs) := by
  rw [linked_append] at hlinked ⊢
  obtain ⟨hbefore, hnext, hafter⟩ := hlinked
  exact ⟨hbefore, rfl, hnext, hafter⟩

theorem Leaf.inOrder_halves (horder : InOrder Item.sortKey (before cs ++ l :: after cs)) (hn : 1 ≤ n)
    (hfirst : l.items.drop n = first :: l.items.drop (n + 1)) :
    InOrder Item.sortKey (before cs ++ Leaf.leftHalf l n p :: Leaf.rightHalf l n p first :: after cs) := by
  obtain ⟨m, rfl⟩ : ∃ m, n = m + 1 := ⟨n - 1, by omega⟩
  cases hitems : l.items with
  | nil => simp [hitems] at hfirst
  | cons x xs =>
    have htake : l.items.take (m + 1) = x :: xs.take m := by simp [hitems]
    have hsplit : l.items = x :: xs.take m ++ first :: l.items.drop (m + 1 + 1) := by
      rw [← htake, ← hfirst, List.take_append_drop]
    exact horder.split hsplit rfl rfl htake hfirst

end Halves

/-- Writing the two halves of a leaf. -/
theorem Pages.addHalves {n : Nat} {p : PageId} (first : Item) (hlsn : lsn ≤ top)
    (h : Pages top s cells free (p :: (Cell.pages (.leaf l) ++ extra)))
    (hat : ∀ i ∈ l.items, i.At top s.view) (hvalid : ∀ i ∈ l.items, i.Valid top)
    (hleft : leafFits ((Leaf.entries l).take n) = true) (hright : leafFits ((Leaf.entries l).drop n) = true) :
    Pages top ((s.write l.id (.leaf lsn (some p) ((Leaf.entries l).take n))).write p
        (.leaf lsn l.next ((Leaf.entries l).drop n)))
      (.leaf (Leaf.rightHalf l n p first) :: .leaf (Leaf.leftHalf l n p) :: cells) free extra := by
  rw [← Leaf.entries_leftHalf (p := p)] at hleft ⊢
  rw [← Leaf.entries_rightHalf (p := p) first] at hright ⊢
  have h' := h.perm (List.Perm.refl _) (Leaf.pages_halves l n p first)
  have hatLeft : ∀ i ∈ (Leaf.leftHalf l n p).items, i.At top s.view := fun i hi => hat i (List.mem_of_mem_take hi)
  have h₁ := h'.addLeaf hlsn hatLeft ⟨hleft, fun i hi => hvalid i (List.mem_of_mem_take hi)⟩
  refine h₁.addLeaf hlsn (fun i hi => (hat i (List.mem_of_mem_drop hi)).congr fun q hq => ?_)
    ⟨hright, fun i hi => hvalid i (List.mem_of_mem_drop hi)⟩
  refine s.view_write_ne _ fun heq => ?_
  have hnodup := h'.extra_nodup
  rw [Cell.pages, List.cons_append, List.nodup_cons] at hnodup
  refine hnodup.1 (List.mem_append_right _ (List.mem_append_left _ (List.mem_cons_of_mem _ ?_)))
  exact List.mem_flatMap.mpr ⟨i, hi, heq ▸ hq⟩

theorem Detached.exec_leafSplits {n : Nat} (hlsn : lsn ≤ top) (h : Detached top s free extra cs l)
    (hfits : ¬leafFits (Leaf.entries l) = true) (hsplit : chooseLeafSplit (Leaf.entries l) = .ok n) :
    LeafWritten top s free extra lsn cs l := by
  obtain ⟨h, hat, hvalid, hroot, hlow, horder, hlinked⟩ := h
  obtain ⟨⟨hn, hlt⟩, hleft, hright⟩ := chooseLeafSplit_eq_ok hsplit
  have hlt' : n < l.items.length := by simpa [Leaf.entries] using hlt
  have hfirst : l.items.drop n = l.items[n] :: l.items.drop (n + 1) := List.drop_eq_getElem_cons hlt'
  have hhead : ((Leaf.entries l).drop n).head? = some l.items[n].entry := by
    rw [Leaf.entries, ← List.map_drop, hfirst]
    rfl
  have hstep : ∀ {β : Type} (f : Nat → Prog β), exec (ofExcept (.ok n) >>= f) s = exec (f n) s := fun f => rfl
  have hroute : ((cs.map SearchTree.Crumb.id).reverse ++ [l.id]).dropLast.reverse = cs.map SearchTree.Crumb.id := by
    simp
  rcases h.exec_allocatePage with ⟨e, s', halloc, hroom⟩ | ⟨p, s₁, free₁, halloc, h₁, hc₁, hv₁, hroom₁⟩
  · refine .inl ⟨e, s', ?_, .inl (by omega)⟩
    rw [insertLeafEntries, if_neg hfits]
    simp only
    rw [hsplit, hstep, exec_bind_err halloc]
  have hp : firstDataPage ≤ p := (h₁.mem_range (.inr (.inr List.mem_cons_self))).1
  have h₂ := h₁.addHalves (n := n) l.items[n] hlsn (hv₁ ▸ hat) hvalid hleft hright
  have hmem : l.items[n].entry ∈ (Leaf.entries l).drop n := List.mem_of_mem_head? hhead
  have hcells : ((SearchTree.Shape.leaf (Leaf.leftHalf l n p)).cells ++
      ((SearchTree.Shape.leaf (Leaf.rightHalf l n p l.items[n])).cells ++ around cs (SearchTree.Shape.leaf l).ref)).Perm
      (.leaf (Leaf.rightHalf l n p l.items[n]) :: .leaf (Leaf.leftHalf l n p) ::
        around cs (SearchTree.Shape.leaf l).ref) := by
    rw [Shape.cells_leaf, Shape.cells_leaf]
    exact List.Perm.swap ..
  have href : (SearchTree.Shape.leaf (Leaf.leftHalf l n p)).ref = (SearchTree.Shape.leaf l).ref := by
    simp [Shape.ref, Leaf.leftHalf]
  have hplug := ref_plug cs href
  have hleaves : before cs ++ ((SearchTree.Shape.leaf (Leaf.leftHalf l n p)).leaves ++
      (SearchTree.Shape.leaf (Leaf.rightHalf l n p l.items[n])).leaves ++ after cs) =
        before cs ++ Leaf.leftHalf l n p :: Leaf.rightHalf l n p l.items[n] :: after cs := by
    rw [Shape.leaves_leaf, Shape.leaves_leaf]
    rfl
  have horder' := Leaf.inOrder_halves (p := p) horder hn hfirst
  have h₃ := h₂.perm (href.symm ▸ hcells) (List.Perm.refl _)
  have hcall : exec (insertLeafEntries l.id ((cs.map SearchTree.Crumb.id).reverse ++ [l.id])
      ⟨l.next, Leaf.entries l⟩ lsn) s = exec (insertParentSeparator lsn (cs.map SearchTree.Crumb.id)
        l.items[n].sortKey p) ((s₁.write l.id (.leaf lsn (some p) ((Leaf.entries l).take n))).write p
          (.leaf lsn l.next ((Leaf.entries l).drop n))) := by
    rw [insertLeafEntries, if_neg hfits]
    simp only
    rw [hsplit, hstep, exec_bind_ok halloc, hhead]
    simp only
    rw [exec_bind_ok (exec_writePage ..), exec_bind_ok (exec_writePage ..), hroute]
    rfl
  rcases h₃.exec_insertParentSeparator hlsn ((hc₁.root.trans hroot).trans (congrArg SearchTree.Ref.id hplug).symm)
    ((congrArg SearchTree.Ref.low hplug).trans hlow) (hleaves ▸ horder') (internalFits_of_leafFits hright hmem hp) with
    ⟨e, s', herr, hwhy⟩ | ⟨t, s', free', hok, hroom', hshort', hins⟩
  · refine .inl ⟨e, s', hcall.trans herr, ?_⟩
    rcases hwhy with hwhy | hwhy | ⟨x, hx, hxs⟩
    · left
      have : room s₁ free₁ ≤ cs.length := hwhy
      omega
    · right
      rw [Shape.low_leaf] at hwhy
      exact ⟨_, List.mem_cons_self, fun hall => absurd (hall _ (List.getElem_mem hlt')) hwhy.not_ge⟩
    · right
      rw [href] at hx
      exact ⟨x, List.mem_cons_of_mem _ hx, hxs⟩
  · have htleaves := hins.leaves.trans hleaves
    refine .inr ⟨t, s', free', hcall.trans hok, ?_, ?_, ⟨hins.pages, hins.root, ?_, ?_, ?_⟩, ?_,
      hc₁.revisions.trans hins.revisions, ?_⟩
    · have : room s₁ free₁ ≤ room s' free' + (cs.length + 1) := hroom'
      omega
    · intro hshort
      have hitems : ∀ i ∈ l.items, i.sortKey.length ≤ shortKeySize := hshort _ List.mem_cons_self
      refine hshort' ?_ fun x hx => ?_
      · rw [Shape.low_leaf]
        exact hitems _ (List.getElem_mem hlt')
      · rw [href, hcells.mem_iff, List.mem_cons, List.mem_cons] at hx
        rcases hx with rfl | rfl | hx
        · exact fun i hi => hitems i (List.mem_of_mem_drop hi)
        · exact fun i hi => hitems i (List.mem_of_mem_take hi)
        · exact hshort x (List.mem_cons_of_mem _ hx)
    · exact hins.low.trans ((congrArg SearchTree.Ref.low hplug).trans hlow)
    · rw [htleaves]
      exact horder'
    · rw [htleaves]
      exact Leaf.linked_halves hlinked
    · have hhalves : l.items.take n ++ l.items.drop n = l.items := List.take_append_drop ..
      rw [SearchTree.Shape.items, htleaves]
      simp only [List.flatMap_append, List.flatMap_cons, Leaf.leftHalf, Leaf.rightHalf, ← List.append_assoc]
      rw [List.append_assoc (List.flatMap _ _) (l.items.take n), hhalves]
    · intro q hq
      have hnodup := h₁.extra_nodup
      rw [List.nodup_cons, Cell.pages, List.cons_append, List.nodup_cons] at hnodup
      have hqp : q ≠ p := fun heq => hnodup.1 (List.mem_cons_of_mem _ (List.mem_append_right _ (heq ▸ hq)))
      have hql : q ≠ l.id := fun heq => hnodup.2.1 (List.mem_append_right _ (heq ▸ hq))
      rw [hins.frame q hq, Stage.view_write_ne _ _ hqp, Stage.view_write_ne _ _ hql, hv₁]

theorem Detached.exec_insertLeafEntries (hlsn : lsn ≤ top) (h : Detached top s free extra cs l)
    (hsum : (∀ e ∈ Leaf.entries l, e.Short) →
      ((Leaf.entries l).map fun e => slotSize + leafRecordSize e).sum ≤ recordSpace + recordSpace / 2) :
    LeafWritten top s free extra lsn cs l := by
  by_cases hfits : leafFits (Leaf.entries l) = true
  · exact h.exec_leafFits hlsn hfits
  have hordered : l.Ordered Item.sortKey := h.order.2 l (List.mem_append_right _ List.mem_cons_self)
  cases hsplit : chooseLeafSplit (Leaf.entries l) with
  | error e =>
    refine .inl ⟨e, s, ?_, .inr ?_⟩
    · rw [insertLeafEntries, if_neg hfits]
      simp only
      rw [hsplit]
      rfl
    · by_contra hnot
      push Not at hnot
      have hshort : ∀ e ∈ Leaf.entries l, e.Short := by
        intro e he
        obtain ⟨i, hi, rfl⟩ := List.mem_map.mp he
        exact Item.entry_short (h.valid i hi) (hnot _ List.mem_cons_self i hi)
      have hcanonical : ∀ e ∈ Leaf.entries l, Canonical e.key := by
        intro e he
        obtain ⟨i, _, rfl⟩ := List.mem_map.mp he
        exact canonical_encode i.key
      have hsorted : ((Leaf.entries l).map LeafEntry.key).Pairwise (· < ·) := by
        rw [Leaf.entries, List.map_map, List.pairwise_map]
        exact hordered.1
      obtain ⟨n, hn⟩ := chooseLeafSplit_isOk hcanonical hsorted hshort (Bool.eq_false_iff.mpr hfits) (hsum hshort)
      rw [hsplit] at hn
      cases hn
  | ok n => exact h.exec_leafSplits hlsn hfits hsplit

end Leaf

end Dodb
