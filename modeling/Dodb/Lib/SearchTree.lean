import Mathlib

/-! Search trees whose nodes have names, apart from how they are stored.

A `Shape` is the tree; its leaves carry items and the least key they may hold, its
inner nodes only children. A stored tree is a set of named nodes, each with its own
contents: those are the tree's `cells`, and what an inner cell says of a child is a
`Ref`, its name and its least key. Properties of the stored form are properties of
the cells in any order, while the order of the keys is a property of the leaves from
left to right. A zipper (`Crumb`, `plug`) is a place in the tree: what lies before
and after it is unchanged when the subtree there is replaced. -/
namespace Dodb.Lib.SearchTree

/-- A leaf, with the lower bound of its keys and the leaf after it. -/
structure Leaf (κ ι E : Type) where
  low : κ
  id : ι
  next : Option ι
  items : List E

/-- What a node knows of a child. -/
structure Ref (κ ι : Type) where
  low : κ
  id : ι

/-- The tree itself. -/
inductive Shape (κ ι E : Type) where
  | leaf (l : Leaf κ ι E)
  | node (id : ι) (kids : List (Shape κ ι E))

/-- A node on its own, as it is stored. -/
inductive Cell (κ ι E : Type) where
  | leaf (l : Leaf κ ι E)
  | node (id : ι) (refs : List (Ref κ ι))

variable {κ ι E : Type}

namespace Shape

@[induction_eliminator, elab_as_elim]
theorem induct {motive : Shape κ ι E → Prop} (leaf : ∀ l, motive (.leaf l))
    (node : ∀ id kids, (∀ k ∈ kids, motive k) → motive (.node id kids)) : ∀ t, motive t
  | .leaf l => leaf l
  | .node id kids => node id kids fun k _ => induct leaf node k

def id : Shape κ ι E → ι
  | leaf l => l.id
  | node id _ => id

def leaves : Shape κ ι E → List (Leaf κ ι E)
  | leaf l => [l]
  | node _ kids => kids.flatMap leaves

def items (t : Shape κ ι E) : List E := t.leaves.flatMap Leaf.items

@[simp] theorem id_leaf (l : Leaf κ ι E) : (leaf l).id = l.id := rfl

@[simp] theorem id_node (i : ι) (kids : List (Shape κ ι E)) : (node i kids).id = i := rfl

@[simp] theorem leaves_leaf (l : Leaf κ ι E) : (leaf l).leaves = [l] := by rw [leaves]

@[simp] theorem leaves_node (i : ι) (kids : List (Shape κ ι E)) :
    (node i kids).leaves = kids.flatMap leaves := by rw [leaves]

variable [Inhabited κ]

/-- The least key of the leftmost leaf. -/
def low : Shape κ ι E → κ
  | leaf l => l.low
  | node _ [] => default
  | node _ (k :: _) => k.low

def ref (t : Shape κ ι E) : Ref κ ι := ⟨t.low, t.id⟩

/-- The nodes of the tree, each on its own. -/
def cells : Shape κ ι E → List (Cell κ ι E)
  | leaf l => [.leaf l]
  | node id kids => .node id (kids.map ref) :: kids.flatMap cells

@[simp] theorem low_leaf (l : Leaf κ ι E) : (leaf l).low = l.low := by rw [low]

@[simp] theorem low_node_cons (i : ι) (k : Shape κ ι E) (ks : List (Shape κ ι E)) :
    (node i (k :: ks)).low = k.low := by rw [low]

@[simp] theorem cells_leaf (l : Leaf κ ι E) : (leaf l).cells = [.leaf l] := by rw [cells]

@[simp] theorem cells_node (i : ι) (kids : List (Shape κ ι E)) :
    (node i kids).cells = .node i (kids.map ref) :: kids.flatMap cells := by rw [cells]

@[simp] theorem ref_id (t : Shape κ ι E) : t.ref.id = t.id := rfl

@[simp] theorem ref_low (t : Shape κ ι E) : t.ref.low = t.low := rfl

end Shape

/-- An inner node has at least two children. -/
def Cell.Branching : Cell κ ι E → Prop
  | leaf _ => True
  | node _ refs => 2 ≤ refs.length

namespace Shape
variable [Inhabited κ]

def Branching (t : Shape κ ι E) : Prop := ∀ c ∈ t.cells, c.Branching

theorem Branching.kid {i : ι} {kids : List (Shape κ ι E)} (h : (node i kids).Branching) {k : Shape κ ι E}
    (hk : k ∈ kids) : k.Branching := fun c hc =>
  h c (by rw [cells_node]; exact List.mem_cons_of_mem _ (List.mem_flatMap.mpr ⟨k, hk, hc⟩))

theorem Branching.two_le {i : ι} {kids : List (Shape κ ι E)} (h : (node i kids).Branching) : 2 ≤ kids.length := by
  have := h (.node i (kids.map ref)) (by rw [cells_node]; exact List.mem_cons_self)
  simpa [Cell.Branching] using this

/-- The leftmost leaf. -/
theorem Branching.exists_first {t : Shape κ ι E} (h : t.Branching) :
    ∃ l rest, t.leaves = l :: rest ∧ l.low = t.low := by
  induction t with
  | leaf l => exact ⟨l, [], leaves_leaf l, (low_leaf l).symm⟩
  | node i kids ih =>
    obtain _ | ⟨k, ks⟩ := kids
    · exact absurd h.two_le (by simp)
    · obtain ⟨l, rest, hl, hlow⟩ := ih k List.mem_cons_self (h.kid List.mem_cons_self)
      exact ⟨l, rest ++ ks.flatMap leaves, by simp [hl], by simp [hlow]⟩

/-- Every leaf is one of the cells. -/
theorem leaf_mem_cells {t : Shape κ ι E} {l : Leaf κ ι E} (h : l ∈ t.leaves) : Cell.leaf l ∈ t.cells := by
  induction t with
  | leaf l' =>
    rw [leaves_leaf, List.mem_singleton] at h
    rw [cells_leaf, h, List.mem_singleton]
  | node i kids ih =>
    rw [leaves_node] at h
    obtain ⟨k, hk, hl⟩ := List.mem_flatMap.mp h
    rw [cells_node]
    exact List.mem_cons_of_mem _ (List.mem_flatMap.mpr ⟨k, hk, ih k hk hl⟩)

theorem leaves_sublist_cells (t : Shape κ ι E) : (t.leaves.map Cell.leaf).Sublist t.cells := by
  induction t with
  | leaf l => simp
  | node i kids ih =>
    rw [leaves_node, cells_node]
    refine List.Sublist.cons _ ?_
    induction kids with
    | nil => simp
    | cons k ks ihks =>
      rw [List.flatMap_cons, List.flatMap_cons, List.map_append]
      exact (ih k List.mem_cons_self).append (ihks fun k' hk' => ih k' (List.mem_cons_of_mem _ hk'))

/-- A child that a cell refers to is a cell. -/
theorem exists_cell_of_ref {t : Shape κ ι E} {i : ι} {refs : List (Ref κ ι)} (h : Cell.node i refs ∈ t.cells)
    {r : Ref κ ι} (hr : r ∈ refs) :
    (∃ l, Cell.leaf l ∈ t.cells ∧ l.id = r.id) ∨ ∃ refs', Cell.node r.id refs' ∈ t.cells := by
  induction t with
  | leaf l =>
    rw [cells_leaf, List.mem_singleton] at h
    cases h
  | node j kids ih =>
    rw [cells_node] at h ⊢
    have hcell : ∀ k ∈ kids, ∀ c ∈ k.cells, c ∈ Cell.node j (kids.map ref) :: kids.flatMap cells :=
      fun k hk c hc => List.mem_cons_of_mem _ (List.mem_flatMap.mpr ⟨k, hk, hc⟩)
    rcases List.mem_cons.mp h with h | h
    · rw [Cell.node.injEq] at h
      rw [h.2] at hr
      obtain ⟨k, hk, rfl⟩ := List.mem_map.mp hr
      cases k with
      | leaf l => exact .inl ⟨l, hcell _ hk (.leaf l) (by simp), rfl⟩
      | node id ks => exact .inr ⟨ks.map ref, hcell _ hk (.node id (ks.map ref)) (by simp)⟩
    · obtain ⟨k, hk, hc⟩ := List.mem_flatMap.mp h
      rcases ih k hk hc with ⟨l, hl, hid⟩ | ⟨refs', hnode⟩
      · exact .inl ⟨l, hcell k hk _ hl, hid⟩
      · exact .inr ⟨refs', hcell k hk _ hnode⟩

theorem mem_leaves_of_cell {t : Shape κ ι E} {l : Leaf κ ι E} (h : Cell.leaf l ∈ t.cells) : l ∈ t.leaves := by
  induction t with
  | leaf l' =>
    rw [cells_leaf, List.mem_singleton] at h
    cases h
    simp
  | node i kids ih =>
    rw [cells_node] at h
    rcases List.mem_cons.mp h with h | h
    · cases h
    · obtain ⟨k, hk, hl⟩ := List.mem_flatMap.mp h
      rw [leaves_node]
      exact List.mem_flatMap.mpr ⟨k, hk, ih k hk hl⟩

end Shape

/-! ### Changing the items -/

def Leaf.map (f : E → E) (l : Leaf κ ι E) : Leaf κ ι E := {l with items := l.items.map f}

def Cell.map (f : E → E) : Cell κ ι E → Cell κ ι E
  | leaf l => leaf (l.map f)
  | node id refs => node id refs

namespace Shape

def map (f : E → E) : Shape κ ι E → Shape κ ι E
  | leaf l => leaf (l.map f)
  | node id kids => node id (kids.map (map f))

variable (f : E → E)

@[simp] theorem map_leaf (l : Leaf κ ι E) : (leaf l).map f = leaf (l.map f) := by rw [map]

@[simp] theorem map_node (i : ι) (kids : List (Shape κ ι E)) : (node i kids).map f = node i (kids.map (map f)) := by
  rw [map]

@[simp] theorem id_map (t : Shape κ ι E) : (t.map f).id = t.id := by
  cases t with
  | leaf l => rw [map_leaf]; rfl
  | node i kids => rw [map_node]; rfl

@[simp] theorem leaves_map (t : Shape κ ι E) : (t.map f).leaves = t.leaves.map (Leaf.map f) := by
  induction t with
  | leaf l => simp
  | node i kids ih =>
    rw [map_node, leaves_node, leaves_node, List.flatMap_map, List.map_flatMap]
    exact List.flatMap_congr fun k hk => ih k hk

theorem items_map (t : Shape κ ι E) : (t.map f).items = t.items.map f := by
  rw [items, items, leaves_map, List.flatMap_map, List.map_flatMap]
  rfl

variable [Inhabited κ]

@[simp] theorem low_map (t : Shape κ ι E) : (t.map f).low = t.low := by
  induction t with
  | leaf l => simp [Leaf.map]
  | node i kids ih =>
    obtain _ | ⟨k, ks⟩ := kids
    · simp [low]
    · simpa using ih k List.mem_cons_self

@[simp] theorem ref_map (t : Shape κ ι E) : (t.map f).ref = t.ref := by simp [ref]

@[simp] theorem cells_map (t : Shape κ ι E) : (t.map f).cells = t.cells.map (Cell.map f) := by
  induction t with
  | leaf l => simp [Cell.map]
  | node i kids ih =>
    rw [map_node, cells_node, cells_node, List.map_cons, List.map_map, List.flatMap_map, List.map_flatMap]
    congr 1
    · simp [Cell.map, Function.comp_def]
    · exact List.flatMap_congr fun k hk => ih k hk

end Shape

/-! ### The order of keys -/

section Order
variable [LinearOrder κ] (key : E → κ)

/-- All of `a` lies below all that `b` may hold. -/
def Leaf.Before (a b : Leaf κ ι E) : Prop := a.low < b.low ∧ ∀ e ∈ a.items, key e < b.low

def Leaf.Ordered (l : Leaf κ ι E) : Prop :=
  l.items.Pairwise (fun a b => key a < key b) ∧ ∀ e ∈ l.items, l.low ≤ key e

/-- The leaves of a search tree from left to right. -/
def InOrder (ls : List (Leaf κ ι E)) : Prop := ls.Pairwise (Leaf.Before key) ∧ ∀ l ∈ ls, l.Ordered key

variable {key} {ls before after : List (Leaf κ ι E)} {l : Leaf κ ι E}

theorem inOrder_append : InOrder key (before ++ after) ↔
    InOrder key before ∧ InOrder key after ∧ ∀ a ∈ before, ∀ b ∈ after, a.Before key b := by
  unfold InOrder
  rw [List.pairwise_append]
  constructor
  · rintro ⟨⟨hb, ha, hab⟩, hall⟩
    exact ⟨⟨hb, fun l hl => hall l (List.mem_append_left _ hl)⟩,
      ⟨ha, fun l hl => hall l (List.mem_append_right _ hl)⟩, hab⟩
  · rintro ⟨⟨hb, hbo⟩, ⟨ha, hao⟩, hab⟩
    exact ⟨⟨hb, ha, hab⟩, fun l hl => (List.mem_append.mp hl).elim (hbo l) (hao l)⟩

theorem inOrder_cons : InOrder key (l :: after) ↔
    l.Ordered key ∧ InOrder key after ∧ ∀ b ∈ after, l.Before key b := by
  have h : InOrder key [l] ↔ l.Ordered key := by simp [InOrder]
  rw [← List.singleton_append, inOrder_append, h]
  simp

/-- The items of leaves in order are in order. -/
theorem InOrder.items (h : InOrder key ls) :
    (ls.flatMap Leaf.items).Pairwise fun a b => key a < key b := by
  rw [List.pairwise_flatMap]
  refine ⟨fun l hl => (h.2 l hl).1, ?_⟩
  refine h.1.imp_of_mem fun {a b} _ hb hab x hx y hy => ?_
  exact lt_of_lt_of_le (hab.2 x hx) ((h.2 b hb).2 y hy)

/-- What lies before a leaf is below a key the leaf may hold. -/
theorem InOrder.before_lt (h : InOrder key (before ++ l :: after)) {k : κ} (hk : l.low ≤ k) {e : E}
    (he : e ∈ before.flatMap Leaf.items) : key e < k := by
  obtain ⟨a, ha, hea⟩ := List.mem_flatMap.mp he
  have := (inOrder_append.mp h).2.2 a ha l List.mem_cons_self
  exact lt_of_lt_of_le (this.2 e hea) hk

/-- What lies after a leaf is above a key below the lows there. -/
theorem InOrder.lt_after (h : InOrder key (before ++ l :: after)) {k : κ} (hk : ∀ b ∈ after, k < b.low)
    {e : E} (he : e ∈ after.flatMap Leaf.items) : k < key e := by
  obtain ⟨b, hb, heb⟩ := List.mem_flatMap.mp he
  exact lt_of_lt_of_le (hk b hb)
    ((h.2 b (List.mem_append_right _ (List.mem_cons_of_mem _ hb))).2 e heb)

/-- A leaf in order may take other items in its range. -/
theorem InOrder.replace (h : InOrder key (before ++ l :: after)) {l' : Leaf κ ι E} (hlow : l'.low = l.low)
    (hord : l'.Ordered key) (hafter : ∀ e ∈ l'.items, ∀ b ∈ after, key e < b.low) :
    InOrder key (before ++ l' :: after) := by
  rw [inOrder_append, inOrder_cons] at h ⊢
  obtain ⟨hb, ⟨_, ha, hla⟩, hba⟩ := h
  refine ⟨hb, ⟨hord, ha, fun b hb => ⟨hlow ▸ (hla b hb).1, fun e he => hafter e he b hb⟩⟩, fun a ham b hbm => ?_⟩
  rcases List.mem_cons.mp hbm with rfl | hbm
  · have := hba a ham l List.mem_cons_self
    exact ⟨hlow ▸ this.1, fun e he => hlow ▸ this.2 e he⟩
  · exact hba a ham b (List.mem_cons_of_mem _ hbm)

/-- A leaf in order may be split before one of its items. -/
theorem InOrder.split {x y : E} {xs ys : List E} {l₁ l₂ : Leaf κ ι E} (h : InOrder key (before ++ l :: after))
    (hitems : l.items = x :: xs ++ y :: ys) (hlow₁ : l₁.low = l.low) (hlow₂ : l₂.low = key y)
    (hitems₁ : l₁.items = x :: xs) (hitems₂ : l₂.items = y :: ys) : InOrder key (before ++ l₁ :: l₂ :: after) := by
  rw [inOrder_append, inOrder_cons] at h
  obtain ⟨hb, ⟨⟨hsorted, hge⟩, ha, hla⟩, hba⟩ := h
  rw [hitems] at hsorted hge
  obtain ⟨hs₁, hs₂, hs₁₂⟩ := List.pairwise_append.mp hsorted
  have hmem₁ : ∀ e ∈ x :: xs, e ∈ x :: xs ++ y :: ys := fun e he => List.mem_append_left _ he
  have hmem₂ : ∀ e ∈ y :: ys, e ∈ x :: xs ++ y :: ys := fun e he => List.mem_append_right _ he
  have hy : ∀ e ∈ x :: xs, key e < key y := fun e he => hs₁₂ e he y List.mem_cons_self
  have hly : l.low < key y :=
    lt_of_le_of_lt (hge x (hmem₁ x List.mem_cons_self)) (hy x List.mem_cons_self)
  have hord₁ : l₁.Ordered key := ⟨hitems₁ ▸ hs₁, fun e he => by
    rw [hitems₁] at he
    exact hlow₁ ▸ hge e (hmem₁ e he)⟩
  have hord₂ : l₂.Ordered key := ⟨hitems₂ ▸ hs₂, fun e he => by
    rw [hitems₂] at he
    rw [hlow₂]
    rcases List.mem_cons.mp he with rfl | he
    · exact le_refl _
    · exact ((List.pairwise_cons.mp hs₂).1 e he).le⟩
  have hafter : ∀ b ∈ after, ∀ e ∈ x :: xs ++ y :: ys, key e < b.low := fun b hb e he =>
    (hla b hb).2 e (hitems ▸ he)
  have hbefore₁ : ∀ b ∈ before, b.Before key l₁ := fun b hbm => by
    have := hba b hbm l List.mem_cons_self
    exact ⟨hlow₁ ▸ this.1, hlow₁ ▸ this.2⟩
  have hbefore₂ : ∀ b ∈ before, b.Before key l₂ := fun b hbm => by
    have := hba b hbm l List.mem_cons_self
    exact ⟨hlow₂ ▸ this.1.trans hly, fun e he => hlow₂ ▸ (this.2 e he).trans hly⟩
  rw [inOrder_append, inOrder_cons, inOrder_cons]
  refine ⟨hb, ⟨hord₁, ⟨hord₂, ha, fun b hbm => ⟨?_, ?_⟩⟩, fun b hbm => ?_⟩, fun a ham b hbm => ?_⟩
  · exact hlow₂ ▸ hafter b hbm y (hmem₂ y List.mem_cons_self)
  · exact fun e he => hafter b hbm e (hmem₂ e (hitems₂ ▸ he))
  · rcases List.mem_cons.mp hbm with rfl | hbm
    · exact ⟨hlow₁ ▸ hlow₂ ▸ hly, fun e he => hlow₂ ▸ hy e (hitems₁ ▸ he)⟩
    · exact ⟨hlow₁ ▸ (hla b hbm).1, fun e he => hafter b hbm e (hmem₁ e (hitems₁ ▸ he))⟩
  · rcases List.mem_cons.mp hbm with rfl | hbm
    · exact hbefore₁ a ham
    · rcases List.mem_cons.mp hbm with rfl | hbm
      · exact hbefore₂ a ham
      · exact hba a ham b (List.mem_cons_of_mem _ hbm)

/-- The lows of leaves in order that come after one are above its own. -/
theorem InOrder.low_le_of_mem (h : InOrder key (l :: after)) {b : Leaf κ ι E} (hb : b ∈ l :: after) :
    l.low ≤ b.low := by
  rcases List.mem_cons.mp hb with rfl | hb
  · exact le_refl _
  · exact ((inOrder_cons.mp h).2.2 b hb).1.le

/-- Subtrees whose leaves are in order have their least keys in order. -/
theorem InOrder.pairwise_low [Inhabited κ] {ts : List (Shape κ ι E)} (h : InOrder key (ts.flatMap Shape.leaves))
    (hb : ∀ t ∈ ts, t.Branching) : ts.Pairwise fun a b => a.low < b.low := by
  induction ts with
  | nil => exact List.Pairwise.nil
  | cons t ts ih =>
    rw [List.flatMap_cons, inOrder_append] at h
    obtain ⟨_, hts, hbetween⟩ := h
    refine List.pairwise_cons.mpr ⟨fun u hu => ?_, ih hts fun u hu => hb u (List.mem_cons_of_mem _ hu)⟩
    obtain ⟨a, _, ha, halow⟩ := (hb t List.mem_cons_self).exists_first
    obtain ⟨b, _, hb, hblow⟩ := (hb u (List.mem_cons_of_mem _ hu)).exists_first
    have hau : a ∈ t.leaves := by rw [ha]; exact List.mem_cons_self
    have hbu : b ∈ ts.flatMap Shape.leaves := List.mem_flatMap.mpr ⟨u, hu, by rw [hb]; exact List.mem_cons_self⟩
    rw [← halow, ← hblow]
    exact (hbetween a hau b hbu).1

/-- The order looks at the keys only. -/
theorem InOrder.map {f : E → E} (hf : ∀ e, key (f e) = key e) (h : InOrder key ls) :
    InOrder key (ls.map (Leaf.map f)) := by
  have hbefore : ∀ a b : Leaf κ ι E, a.Before key b → (a.map f).Before key (b.map f) := by
    intro a b hab
    refine ⟨hab.1, fun e he => ?_⟩
    obtain ⟨d, hd, rfl⟩ := List.mem_map.mp he
    rw [hf]
    exact hab.2 d hd
  refine ⟨List.pairwise_map.mpr (h.1.imp (hbefore _ _)), fun l hl => ?_⟩
  obtain ⟨r, hr, rfl⟩ := List.mem_map.mp hl
  refine ⟨List.pairwise_map.mpr ((h.2 r hr).1.imp fun hab => ?_), fun e he => ?_⟩
  · rw [hf, hf]
    exact hab
  · obtain ⟨d, hd, rfl⟩ := List.mem_map.mp he
    rw [hf]
    exact (h.2 r hr).2 d hd

end Order

/-! ### The chain of leaves -/

/-- Every leaf names the one after it, the last one `last`. -/
def Linked (last : Option ι) : List (Leaf κ ι E) → Prop
  | [] => True
  | l :: rest => l.next = (rest.head?.map Leaf.id).or last ∧ Linked last rest

theorem Linked.map {last : Option ι} {ls : List (Leaf κ ι E)} (f : E → E) (h : Linked last ls) :
    Linked last (ls.map (Leaf.map f)) := by
  induction ls with
  | nil => exact h
  | cons l rest ih =>
    refine ⟨?_, ih h.2⟩
    rw [List.head?_map, Option.map_map]
    exact h.1

theorem linked_append {last : Option ι} {a b : List (Leaf κ ι E)} :
    Linked last (a ++ b) ↔ Linked ((b.head?.map Leaf.id).or last) a ∧ Linked last b := by
  induction a with
  | nil => simp [Linked]
  | cons l rest ih =>
    simp only [List.cons_append, Linked, ih, and_assoc]
    obtain _ | ⟨r, rs⟩ := rest <;> simp

/-! ### Places in a tree -/

/-- A node on the way to a place: the children to its left and to its right. -/
structure Crumb (κ ι E : Type) where
  id : ι
  left : List (Shape κ ι E)
  right : List (Shape κ ι E)

/-- The tree with `t` at a place given by the nodes above it, innermost first. -/
def plug : List (Crumb κ ι E) → Shape κ ι E → Shape κ ι E
  | [], t => t
  | c :: cs, t => plug cs (.node c.id (c.left ++ t :: c.right))

/-- The leaves to the left of the place. -/
def before : List (Crumb κ ι E) → List (Leaf κ ι E)
  | [] => []
  | c :: cs => before cs ++ c.left.flatMap Shape.leaves

/-- The leaves to the right of the place. -/
def after : List (Crumb κ ι E) → List (Leaf κ ι E)
  | [] => []
  | c :: cs => c.right.flatMap Shape.leaves ++ after cs

theorem plug_append (cs ds : List (Crumb κ ι E)) (t : Shape κ ι E) : plug (cs ++ ds) t = plug ds (plug cs t) := by
  induction cs generalizing t with
  | nil => rfl
  | cons c cs ih => exact ih _

theorem after_append (cs ds : List (Crumb κ ι E)) : after (cs ++ ds) = after cs ++ after ds := by
  induction cs with
  | nil => simp [after]
  | cons c cs ih => simp [after, ih]

theorem leaves_plug [Inhabited κ] (cs : List (Crumb κ ι E)) (t : Shape κ ι E) :
    (plug cs t).leaves = before cs ++ (t.leaves ++ after cs) := by
  induction cs generalizing t with
  | nil => simp [plug, before, after]
  | cons c cs ih => simp [plug, before, after, ih]

namespace Crumb
variable [Inhabited κ]

/-- The children of the node, with `refs` at the place below it. -/
def refs (c : Crumb κ ι E) (rs : List (Ref κ ι)) : List (Ref κ ι) :=
  c.left.map Shape.ref ++ (rs ++ c.right.map Shape.ref)

/-- How the node above refers to this one when `r` is at the place below it. -/
def up (c : Crumb κ ι E) (r : Ref κ ι) : Ref κ ι := ⟨((c.left.head?.map Shape.low).getD r.low), c.id⟩

def cells (c : Crumb κ ι E) : List (Cell κ ι E) := c.left.flatMap Shape.cells ++ c.right.flatMap Shape.cells

theorem ref_node (c : Crumb κ ι E) (t : Shape κ ι E) (rest : List (Shape κ ι E)) :
    (Shape.node c.id (c.left ++ t :: rest)).ref = c.up t.ref := by
  unfold up Shape.ref
  obtain hl | ⟨k, ks, hl⟩ : c.left = [] ∨ ∃ k ks, c.left = k :: ks := by
    cases c.left <;> simp
  · simp [hl]
  · simp [hl]

end Crumb

/-- What is above a place sees of the subtree there only how it is referred to. -/
theorem ref_plug [Inhabited κ] (cs : List (Crumb κ ι E)) {t u : Shape κ ι E} (h : t.ref = u.ref) :
    (plug cs t).ref = (plug cs u).ref := by
  induction cs generalizing t u with
  | nil => exact h
  | cons c cs ih => exact ih (by rw [c.ref_node, c.ref_node, h])

/-- The cells of a tree outside a place that is referred to by `r`. -/
def around [Inhabited κ] : List (Crumb κ ι E) → Ref κ ι → List (Cell κ ι E)
  | [], _ => []
  | c :: cs, r => .node c.id (c.refs [r]) :: (c.cells ++ around cs (c.up r))

theorem cells_plug [Inhabited κ] (cs : List (Crumb κ ι E)) (t : Shape κ ι E) :
    (plug cs t).cells.Perm (t.cells ++ around cs t.ref) := by
  induction cs generalizing t with
  | nil => simp [plug, around]
  | cons c cs ih =>
    refine (ih _).trans ?_
    rw [Crumb.ref_node, Shape.cells_node]
    simp only [around, Crumb.refs, Crumb.cells, List.map_append, List.map_cons, List.flatMap_append,
      List.flatMap_cons, List.cons_append, List.nil_append, List.append_assoc]
    exact ((List.perm_append_comm_assoc ..).cons _).trans List.perm_middle.symm

/-! ### The way to a key -/

/-- `Path k t cs l`: the leaf for `k` in `t` is `l`, at the place `cs`. A node is left
for its last child whose least key is not above `k`, or for its first. -/
inductive Path [Inhabited κ] [LinearOrder κ] (k : κ) : Shape κ ι E → List (Crumb κ ι E) → Leaf κ ι E → Prop
  | leaf (l : Leaf κ ι E) : Path k (.leaf l) [] l
  | node {id : ι} {left right : List (Shape κ ι E)} {t : Shape κ ι E} {cs : List (Crumb κ ι E)} {l : Leaf κ ι E}
      (hleft : left = [] ∨ t.low ≤ k) (hlefts : ∀ s ∈ left.tail, s.low ≤ k)
      (hright : ∀ s ∈ right.head?, k < s.low) (path : Path k t cs l) :
      Path k (.node id (left ++ t :: right)) (cs ++ [⟨id, left, right⟩]) l

section Path
variable [Inhabited κ] [LinearOrder κ] {k : κ} {t : Shape κ ι E} {cs : List (Crumb κ ι E)} {l : Leaf κ ι E}

theorem Path.plug_eq (h : Path k t cs l) : plug cs (.leaf l) = t := by
  induction h with
  | leaf l => rfl
  | node _ _ _ _ ih => rw [plug_append, ih]; rfl

theorem Path.low_le (h : Path k t cs l) (hlow : t.low ≤ k) : l.low ≤ k := by
  induction h with
  | leaf l => simpa using hlow
  | @node id left right t cs l hleft _ _ _ ih =>
    refine ih ?_
    rcases hleft with rfl | hleft
    · simpa using hlow
    · exact hleft

/-- Every leaf after the one for `k` holds only keys above `k`. -/
theorem Path.after_gt {key : E → κ} (h : Path k t cs l) (hb : t.Branching) (hord : InOrder key t.leaves) :
    ∀ b ∈ after cs, k < b.low := by
  induction h with
  | leaf l => simp [after]
  | @node id left right t cs l hleft _ hright path ih =>
    have hin : InOrder key (left.flatMap Shape.leaves ++ (t.leaves ++ right.flatMap Shape.leaves)) := by
      simpa using hord
    obtain ⟨_, hin, _⟩ := inOrder_append.mp hin
    obtain ⟨hint, hinr, _⟩ := inOrder_append.mp hin
    intro b hb'
    rw [after_append] at hb'
    rcases List.mem_append.mp hb' with hb' | hb'
    · exact ih (hb.kid (by simp)) hint b hb'
    · obtain _ | ⟨r, rs⟩ := right
      · simp [after] at hb'
      · obtain ⟨f, rest, hf, hflow⟩ := (hb.kid (k := r) (by simp)).exists_first
        have hcons : (r :: rs).flatMap Shape.leaves = f :: (rest ++ rs.flatMap Shape.leaves) := by
          simp [hf]
        rw [hcons] at hinr
        have hb'' : b ∈ f :: (rest ++ rs.flatMap Shape.leaves) := by
          rw [← hcons]
          simpa [after] using hb'
        calc k < r.low := hright r (by simp)
          _ = f.low := hflow.symm
          _ ≤ b.low := hinr.low_le_of_mem hb''

/-- The children of a node, split where the way to `k` leaves it. -/
theorem exists_turn (k : κ) (s : Shape κ ι E) (rest : List (Shape κ ι E)) :
    ∃ left t right, s :: rest = left ++ t :: right ∧ (left = [] ∨ t.low ≤ k) ∧
      (∀ s ∈ left.tail, s.low ≤ k) ∧ ∀ s ∈ right.head?, k < s.low := by
  induction rest generalizing s with
  | nil => exact ⟨[], s, [], rfl, .inl rfl, by simp, by simp⟩
  | cons r rs ih =>
    by_cases hr : r.low ≤ k
    · obtain ⟨left, t, right, heq, hleft, hlefts, hright⟩ := ih r
      refine ⟨s :: left, t, right, by rw [heq]; rfl, .inr ?_, ?_, hright⟩
      · rcases hleft with rfl | hleft
        · obtain ⟨rfl, _⟩ : r = t ∧ rs = right := by simpa using heq
          exact hr
        · exact hleft
      · intro x hx
        obtain _ | ⟨l, ls⟩ := left
        · simp at hx
        · obtain ⟨rfl, _⟩ : r = l ∧ rs = ls ++ t :: right := by simpa using heq
          rcases List.mem_cons.mp hx with rfl | hx
          · exact hr
          · exact hlefts x hx
    · exact ⟨[], s, r :: rs, rfl, .inl rfl, by simp, by simpa using lt_of_not_ge hr⟩

theorem exists_path (k : κ) (h : t.Branching) : ∃ cs l, Path k t cs l := by
  induction t with
  | leaf l => exact ⟨[], l, .leaf l⟩
  | node i kids ih =>
    obtain _ | ⟨s, rest⟩ := kids
    · exact absurd h.two_le (by simp)
    · obtain ⟨left, t, right, heq, hleft, hlefts, hright⟩ := exists_turn k s rest
      have ht : t ∈ s :: rest := by rw [heq]; simp
      obtain ⟨cs, l, hpath⟩ := ih t ht (h.kid ht)
      exact ⟨_, l, by rw [heq]; exact .node hleft hlefts hright hpath⟩

end Path

/-! ### Binding an item -/

section Upsert
variable [LinearOrder κ] (key : E → κ)

/-- Puts `e` at its place, over an item with the same key. -/
def upsert (e : E) : List E → List E
  | [] => [e]
  | x :: rest =>
    if key e < key x then e :: x :: rest
    else if key e = key x then e :: rest
    else x :: upsert e rest

variable {key} {e : E}

theorem upsert_append_left {a l : List E} (h : ∀ x ∈ a, key x < key e) :
    upsert key e (a ++ l) = a ++ upsert key e l := by
  induction a with
  | nil => rfl
  | cons x a ih =>
    have hx := h x List.mem_cons_self
    simp only [List.cons_append, upsert, hx.not_gt, hx.ne', if_false]
    rw [ih fun y hy => h y (List.mem_cons_of_mem _ hy)]

theorem upsert_append_right {l b : List E} (h : ∀ x ∈ b, key e < key x) :
    upsert key e (l ++ b) = upsert key e l ++ b := by
  induction l with
  | nil =>
    obtain _ | ⟨x, b⟩ := b
    · rfl
    · simp [upsert, h x List.mem_cons_self]
  | cons x l ih =>
    simp only [List.cons_append, upsert]
    split
    · rfl
    · split
      · rfl
      · rw [ih, List.cons_append]

theorem mem_upsert {x : E} {l : List E} (h : x ∈ upsert key e l) : x = e ∨ x ∈ l := by
  induction l with
  | nil => exact .inl (List.mem_singleton.mp h)
  | cons y l ih =>
    unfold upsert at h
    split at h
    · exact List.mem_cons.mp h
    · split at h
      · exact (List.mem_cons.mp h).imp_right (List.mem_cons_of_mem _)
      · rcases List.mem_cons.mp h with rfl | h
        · exact .inr List.mem_cons_self
        · exact (ih h).imp_right (List.mem_cons_of_mem _)

theorem pairwise_upsert {l : List E} (h : l.Pairwise fun a b => key a < key b) :
    (upsert key e l).Pairwise fun a b => key a < key b := by
  induction l with
  | nil => simp [upsert]
  | cons y l ih =>
    obtain ⟨hy, hl⟩ := List.pairwise_cons.mp h
    unfold upsert
    split
    · rename_i hlt
      refine List.pairwise_cons.mpr ⟨fun x hx => ?_, h⟩
      rcases List.mem_cons.mp hx with rfl | hx
      · exact hlt
      · exact hlt.trans (hy x hx)
    · rename_i hnlt
      split
      · rename_i heq
        exact List.pairwise_cons.mpr ⟨fun x hx => heq ▸ hy x hx, hl⟩
      · rename_i hne
        refine List.pairwise_cons.mpr ⟨fun x hx => ?_, ih hl⟩
        rcases mem_upsert hx with rfl | hx
        · exact lt_of_le_of_ne (not_lt.mp hnlt) (Ne.symm hne)
        · exact hy x hx

end Upsert

end Dodb.Lib.SearchTree
