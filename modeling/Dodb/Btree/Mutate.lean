import Dodb.Btree.Insert

/-! Putting and deleting documents.

A mutation finds the leaf of its key, puts the new item into the leaf's items at the
key's place, writes the leaf (split if it must be), and frees the pages of the value it
replaced. On a healthy tree that binds the key in the list of all items. What a put can
be refused for is stated with it: its own key or value, too few pages, or long keys on
the way. -/
namespace Dodb
open Lib PageProg SearchTree

/-! ### The place of a key -/

/-- The leaf for `k`, with its items before, at and after `k`. -/
structure Place (k : Bytes) (t : Shape) (cs : List Crumb) (l : Leaf) (a : List Item) (old : Option Item)
    (b : List Item) : Prop where
  plug : plug cs (.leaf l) = t
  low : l.low ≤ k
  high : ∀ r ∈ after cs, k < r.low
  items : l.items = a ++ (old.toList ++ b)
  below : ∀ i ∈ a, i.sortKey < k
  found : ∀ o ∈ old, o.sortKey = k
  above : ∀ i ∈ b, k < i.sortKey

/-- The leaf with other items. -/
def Leaf.withItems (l : Leaf) (items : List Item) : Leaf := {l with items}

section Place
variable {k : Bytes} {t : Shape} {cs : List Crumb} {l : Leaf} {a b : List Item} {old : Option Item}

theorem exists_place_in (k : Bytes) {items : List Item} (hsorted : items.Pairwise fun a b => a.sortKey < b.sortKey) :
    ∃ (a : List Item) (old : Option Item) (b : List Item), items = a ++ (old.toList ++ b) ∧ (∀ i ∈ a, i.sortKey < k) ∧
      (∀ o ∈ old, o.sortKey = k) ∧ ∀ i ∈ b, k < i.sortKey := by
  induction items with
  | nil => exact ⟨[], none, [], rfl, by simp, by simp, by simp⟩
  | cons i rest ih =>
    obtain ⟨hi, hrest⟩ := List.pairwise_cons.mp hsorted
    rcases lt_trichotomy i.sortKey k with hlt | heq | hgt
    · obtain ⟨a, old, b, heq, hbelow, hfound, habove⟩ := ih hrest
      refine ⟨i :: a, old, b, by rw [heq]; rfl, fun j hj => ?_, hfound, habove⟩
      rcases List.mem_cons.mp hj with rfl | hj
      · exact hlt
      · exact hbelow j hj
    · exact ⟨[], some i, rest, rfl, by simp, by simpa using heq, fun j hj => heq ▸ hi j hj⟩
    · refine ⟨[], none, i :: rest, rfl, by simp, by simp, fun j hj => ?_⟩
      rcases List.mem_cons.mp hj with rfl | hj
      · exact hgt
      · exact hgt.trans (hi j hj)

theorem Place.leaves_eq (h : Place k t cs l a old b) : t.leaves = before cs ++ l :: after cs := by
  rw [← h.plug, leaves_plug, Shape.leaves_leaf]
  rfl

/-- Binding an item puts it at its key's place. -/
theorem Place.upsert_items (h : Place k t cs l a old b) {new : Item} (hnew : new.sortKey = k) :
    upsert Item.sortKey new l.items = a ++ new :: b := by
  rw [h.items, upsert_append_left fun i hi => hnew ▸ h.below i hi]
  congr 1
  cases old with
  | none =>
    show upsert Item.sortKey new ([] ++ b) = [new] ++ b
    exact upsert_append_right fun i hi => hnew ▸ h.above i hi
  | some o =>
    have ho := h.found o rfl
    simp [upsert, hnew, ho]

theorem Place.items_plug (h : Place k t cs l a old b) (hord : InOrder Item.sortKey t.leaves) {new : Item}
    (hnew : new.sortKey = k) :
    (before cs ++ Leaf.withItems l (a ++ new :: b) :: after cs).flatMap SearchTree.Leaf.items =
      upsert Item.sortKey new t.items := by
  rw [h.leaves_eq] at hord
  have hbefore : ∀ i ∈ (before cs).flatMap SearchTree.Leaf.items, i.sortKey < new.sortKey := fun i hi =>
    hord.before_lt (hnew ▸ h.low) hi
  have hafter : ∀ i ∈ (after cs).flatMap SearchTree.Leaf.items, new.sortKey < i.sortKey := fun i hi =>
    hord.lt_after (hnew ▸ h.high) hi
  rw [SearchTree.Shape.items, h.leaves_eq, List.flatMap_append, List.flatMap_append, List.flatMap_cons,
    List.flatMap_cons, upsert_append_left hbefore, upsert_append_right hafter, h.upsert_items hnew]
  rfl

theorem Place.inOrder (h : Place k t cs l a old b) (hord : InOrder Item.sortKey t.leaves) {new : Item}
    (hnew : new.sortKey = k) : InOrder Item.sortKey (before cs ++ Leaf.withItems l (a ++ new :: b) :: after cs) := by
  rw [h.leaves_eq] at hord
  have hl := hord.2 l (List.mem_append_right _ List.mem_cons_self)
  have hupsert := h.upsert_items hnew
  have hmem : ∀ i ∈ a ++ new :: b, i = new ∨ i ∈ l.items := fun i hi => mem_upsert (hupsert ▸ hi)
  refine hord.replace rfl ⟨?_, fun i hi => ?_⟩ fun i hi r hr => ?_
  · show (a ++ new :: b).Pairwise _
    rw [← hupsert]
    exact pairwise_upsert hl.1
  · rcases hmem i hi with rfl | hi
    · exact hnew ▸ h.low
    · exact hl.2 i hi
  · rcases hmem i hi with rfl | hi
    · exact hnew ▸ h.high r hr
    · exact ((inOrder_cons.mp (inOrder_append.mp hord).2.1).2.2 r hr).2 i hi

theorem Place.linked (h : Place k t cs l a old b) (hlinked : Linked none t.leaves) (items : List Item) :
    Linked none (before cs ++ Leaf.withItems l items :: after cs) := by
  rw [h.leaves_eq, linked_append] at hlinked
  rw [linked_append]
  exact hlinked

/-! ### The place in the code's terms -/

theorem Place.search (h : Place k t cs l a old b) :
    searchLeaf k (Leaf.entries l) = (a.length, old.map Item.entry) := by
  have ha : ∀ e ∈ a.map Item.entry, decide (e.key < k) = true := by
    intro e he
    obtain ⟨i, hi, rfl⟩ := List.mem_map.mp he
    exact decide_eq_true (h.below i hi)
  have hb : ∀ e ∈ ((old.toList ++ b).map Item.entry).head?, decide (e.key < k) = false := by
    intro e he
    cases old with
    | some o =>
      cases he
      exact decide_eq_false (h.found o rfl ▸ lt_irrefl _)
    | none =>
      cases hb : b with
      | nil => simp [hb] at he
      | cons i rest =>
        rw [hb] at he
        cases he
        exact decide_eq_false (h.above i (by simp [hb])).not_gt
  have hentries : Leaf.entries l = a.map Item.entry ++ (old.toList ++ b).map Item.entry := by
    rw [Leaf.entries, h.items, List.map_append]
  have hindex : partitionPoint (fun e => decide (e.key < k)) (Leaf.entries l) = a.length := by
    rw [hentries, partitionPoint_append ha hb, List.length_map]
  unfold searchLeaf
  rw [hindex, hentries]
  dsimp only
  rw [List.getElem?_append_right (by simp)]
  simp only [List.length_map, Nat.sub_self, Prod.mk.injEq, true_and]
  cases old with
  | some o => simp [h.found o rfl]
  | none =>
    cases hb : b with
    | nil => simp
    | cons i rest => simp [(h.above i (by simp [hb])).ne']

theorem Place.set_entries (h : Place k t cs l a old b) {o : Item} (ho : old = some o) (new : Item) :
    (Leaf.entries l).set a.length new.entry = Leaf.entries (Leaf.withItems l (a ++ new :: b)) := by
  rw [Leaf.entries, h.items, ho]
  simp [Leaf.entries, Leaf.withItems]

theorem Place.insert_entries (h : Place k t cs l a old b) (ho : old = none) (new : Item) :
    insertAt a.length new.entry (Leaf.entries l) = Leaf.entries (Leaf.withItems l (a ++ new :: b)) := by
  rw [Leaf.entries, h.items, ho]
  simp [Leaf.entries, Leaf.withItems, insertAt]

end Place

/-! ### Opening a leaf -/

section Mutate
variable {top : Lsn} {s : TreeStage} {t : Shape} {free : List PageId} {k : Bytes} {cs : List Crumb} {l : Leaf}
  {a b : List Item} {old : Option Item}

/-- The search for `k` ends at its place. -/
theorem Healthy.exec_place (h : Healthy top s t free []) (k : Bytes) :
    ∃ cs l a old b, Place k t cs l a old b ∧
      exec (findLeaf k) s = .ok (l.id, (cs.map SearchTree.Crumb.id).reverse ++ [l.id]) s ∧
      exec (leaf l.id) s = .ok ⟨l.next, Leaf.entries l⟩ s := by
  obtain ⟨cs, l, hplug, hexec, hlow, hhigh⟩ := h.exec_findLeaf k
  have hleaves : t.leaves = before cs ++ l :: after cs := by
    rw [← hplug, leaves_plug, Shape.leaves_leaf]
    rfl
  have hl : l ∈ t.leaves := by simp [hleaves]
  obtain ⟨a, old, b, hitems, hbelow, hfound, habove⟩ := exists_place_in k (h.order.2 l hl).1
  exact ⟨cs, l, a, old, b, ⟨hplug, hlow, hhigh, hitems, hbelow, hfound, habove⟩, hexec, h.searchable.exec_leaf hl⟩

theorem Place.cells_perm (h : Place k t cs l a old b) :
    t.cells.Perm (.leaf l :: around cs (SearchTree.Shape.leaf l).ref) := by
  rw [← h.plug]
  refine (cells_plug ..).trans ?_
  rw [Shape.cells_leaf]
  rfl

/-- The crumbs of a place are cells of the tree. -/
theorem length_le_around (cs : List Crumb) (r : Ref) : cs.length ≤ (around cs r).length := by
  induction cs generalizing r with
  | nil => exact Nat.zero_le _
  | cons c cs ih =>
    simp only [around, List.length_cons, List.length_append]
    have := ih (c.up r)
    omega

theorem Healthy.path_length (h : Healthy top s t free []) (hplace : Place k t cs l a old b) :
    cs.length + 1 ≤ s.state.highWaterPageId := by
  have hcells := h.pages.cells_length_le
  rw [hplace.cells_perm.length_eq, List.length_cons] at hcells
  have := length_le_around cs (SearchTree.Shape.leaf l).ref
  omega

/-- The pages of a leaf whose item at `k` is replaced by one on other pages. -/
theorem Place.pages_perm (h : Place k t cs l a old b) (new : Item) :
    (Cell.pages (.leaf (Leaf.withItems l (a ++ new :: b))) ++ ((old.map Item.pages).getD [] ++ [])).Perm
      (Cell.pages (.leaf l) ++ new.pages) := by
  refine perm_of_coe ?_
  simp only [Cell.pages, Leaf.withItems, h.items, List.flatMap_append, List.flatMap_cons, ← Multiset.coe_add,
    ← Multiset.cons_coe, ← Multiset.singleton_add, List.append_nil]
  cases old with
  | none =>
    simp only [Option.map_none, Option.getD_none, Option.toList_none, List.flatMap_nil, Multiset.coe_nil]
    abel
  | some o =>
    simp only [Option.map_some, Option.getD_some, Option.toList_some, List.flatMap_cons, List.flatMap_nil,
      List.append_nil]
    abel

/-- A leaf of short entries that gains one is too full by at most one of them. -/
theorem Place.sum_le (h : Place k t cs l a old b) (hfits : leafFits (Leaf.entries l) = true) {new : Item}
    (hshort : new.entry.Short) :
    ((Leaf.entries (Leaf.withItems l (a ++ new :: b))).map fun e => slotSize + leafRecordSize e).sum ≤
      recordSpace + recordSpace / 2 := by
  have hold := (used_le_iff leafRecordSize _).mp ((leafFits_iff _).mp hfits).2.2
  have hnew := hshort.size_le
  rw [Leaf.entries, h.items] at hold
  simp only [List.map_append, List.sum_append] at hold
  simp only [Leaf.entries, Leaf.withItems, List.map_append, List.map_cons, List.sum_append, List.sum_cons]
  omega

/-- Writing the leaf at a place with `new` in it, on pages where `new`'s own are already written. -/
theorem Pages.exec_writePlace {new : Item} {lsn : Revision} (h : Pages top s t.cells free new.pages)
    (hroot : s.state.rootPageId = t.id) (hlow : t.low = []) (horder : InOrder Item.sortKey t.leaves)
    (hlinked : Linked none t.leaves) (hplace : Place k t cs l a old b) (hnew : new.sortKey = k)
    (hlsn : lsn ≤ top) (hat : new.At top s.view) (hvalid : new.Valid top) :
    LeafWritten top s free ((old.map Item.pages).getD [] ++ []) lsn cs (Leaf.withItems l (a ++ new :: b)) := by
  have hl : SearchTree.Cell.leaf l ∈ t.cells := hplace.cells_perm.mem_iff.mpr List.mem_cons_self
  have hmem : ∀ i ∈ (Leaf.withItems l (a ++ new :: b)).items, i = new ∨ i ∈ l.items := fun i hi =>
    mem_upsert (hplace.upsert_items hnew ▸ hi)
  have href : (plug cs (.leaf (Leaf.withItems l (a ++ new :: b)))).ref = t.ref := by
    rw [← hplace.plug]
    exact ref_plug cs (by simp [Shape.ref, Leaf.withItems])
  refine Detached.exec_insertLeafEntries hlsn
    { pages := (h.perm hplace.cells_perm.symm (List.Perm.refl _)).release.perm (List.Perm.refl _)
        (hplace.pages_perm new)
      items := fun i hi => ?_
      valid := fun i hi => ?_
      root := hroot.trans (congrArg SearchTree.Ref.id href).symm
      low := (congrArg SearchTree.Ref.low href).trans hlow
      order := hplace.inOrder horder hnew
      linked := hplace.linked hlinked _ } fun hshort => ?_
  · rcases hmem i hi with rfl | hi
    · exact hat
    · exact (h.cellsAt _ hl).2 i hi
  · rcases hmem i hi with rfl | hi
    · exact hvalid
    · exact (h.valid _ hl).2 i hi
  · exact hplace.sum_le (h.valid _ hl).1
      (hshort _ (List.mem_map_of_mem (List.mem_append_right _ List.mem_cons_self)))

/-- What a tree is after `new` was bound in it. -/
structure Bound (top : Lsn) (t : Shape) (new : Item) (s' : TreeStage) (t' : Shape) (free' : List PageId) : Prop where
  healthy : Healthy top s' t' free' []
  items : t'.items = upsert Item.sortKey new t.items
  short : (∀ c ∈ t.cells, Cell.Short c) → new.sortKey.length ≤ shortKeySize → ∀ c ∈ t'.cells, Cell.Short c

/-- Freeing the pages of the item that was replaced ends the mutation. -/
theorem Healthy.exec_freeOld {lsn : Revision} {o : Item} {s₀ : TreeStage} (hlsn : lsn ≤ top)
    (h : Healthy top s t free (o.pages ++ [])) (hat : o.At top s₀.view) (hvalid : o.Valid top)
    (hframe : ∀ q ∈ o.pages ++ [], s.view q = s₀.view q) :
    ∃ s' free', exec (freeValue o.entry.value lsn) s = .ok () s' ∧ Healthy top s' t free' [] ∧
      SameRevisions s.state s'.state := by
  have hat' : ∀ v ∈ o.value, v.At top s.view := fun v hv => (hat v hv).congr fun q hq =>
    hframe q (by rw [List.append_nil, Item.pages, Option.mem_def.mp hv]; exact hq)
  obtain ⟨s', free', hexec, hpages, hcounters, _⟩ := h.pages.exec_freeValue hlsn hvalid.2 hat'
  exact ⟨s', free', hexec, ⟨hpages, hcounters.root.trans h.root, h.low, h.order, h.linked⟩, hcounters.revisions⟩

/-! ### Binding an item -/

/-- Too few page numbers are left for a mutation. -/
def Crowded (s : TreeStage) : Prop := u64Max ≤ 2 * s.state.highWaterPageId + maxOverflowPages

/-- The end of a mutation: the entry goes to its place, and the value it replaces is freed. -/
def bindEntry (leafId : PageId) (route : List PageId) (leaf : LeafPage) (index : Nat) (entry : LeafEntry)
    (old : Option LeafEntry) (lsn : Revision) : Prog PUnit := do
  match old with
  | some old =>
    insertLeafEntries leafId route ⟨leaf.nextLeaf, leaf.entries.set index entry⟩ lsn
    freeValue old.value lsn
  | none => insertLeafEntries leafId route ⟨leaf.nextLeaf, insertAt index entry leaf.entries⟩ lsn

theorem Pages.exec_bindEntry {new : Item} {lsn : Revision} (h : Pages top s t.cells free new.pages)
    (hroot : s.state.rootPageId = t.id) (hlow : t.low = []) (horder : InOrder Item.sortKey t.leaves)
    (hlinked : Linked none t.leaves) (hplace : Place k t cs l a old b) (hnew : new.sortKey = k)
    (hlsn : lsn ≤ top) (hat : new.At top s.view) (hvalid : new.Valid top) :
    (∃ e s', exec (bindEntry l.id ((cs.map SearchTree.Crumb.id).reverse ++ [l.id]) ⟨l.next, Leaf.entries l⟩ a.length
        new.entry (old.map Item.entry) lsn) s = .err e s' ∧
      (room s free ≤ cs.length + 1 ∨ shortKeySize < k.length ∨ ∃ c ∈ t.cells, ¬Cell.Short c)) ∨
    ∃ t' s' free', exec (bindEntry l.id ((cs.map SearchTree.Crumb.id).reverse ++ [l.id]) ⟨l.next, Leaf.entries l⟩
        a.length new.entry (old.map Item.entry) lsn) s = .ok ⟨⟩ s' ∧ Bound top t new s' t' free' ∧
      SameRevisions s.state s'.state := by
  have hl : SearchTree.Cell.leaf l ∈ t.cells := hplace.cells_perm.mem_iff.mpr List.mem_cons_self
  have hitems : ∀ i ∈ (Leaf.withItems l (a ++ new :: b)).items, i = new ∨ i ∈ l.items := fun i hi =>
    mem_upsert (hplace.upsert_items hnew ▸ hi)
  have hcells : ∀ c ∈ .leaf (Leaf.withItems l (a ++ new :: b)) :: around cs (SearchTree.Shape.leaf l).ref,
      (k.length ≤ shortKeySize ∧ ∀ c ∈ t.cells, Cell.Short c) → Cell.Short c := by
    intro c hc hshort
    rcases List.mem_cons.mp hc with rfl | hc
    · intro i hi
      rcases hitems i hi with rfl | hi
      · exact hnew ▸ hshort.1
      · exact hshort.2 _ hl i hi
    · exact hshort.2 c (hplace.cells_perm.mem_iff.mpr (List.mem_cons_of_mem _ hc))
  have hwritten := h.exec_writePlace hroot hlow horder hlinked hplace hnew hlsn hat hvalid
  rcases hwritten with ⟨e, s', herr, hwhy⟩ | ⟨t', s₁, free₁, hok, _, hshort, h₁, hitems₁, hrev₁, hframe⟩
  · have hwhy' : room s free ≤ cs.length + 1 ∨ shortKeySize < k.length ∨ ∃ c ∈ t.cells, ¬Cell.Short c := by
      rcases hwhy with hwhy | ⟨c, hc, hcs⟩
      · exact .inl hwhy
      · by_contra hnot
        push Not at hnot
        exact hcs (hcells c hc hnot.2)
    refine .inl ⟨e, s', ?_, hwhy'⟩
    cases hold : old with
    | none =>
      simp only [bindEntry, Option.map_none]
      rw [hplace.insert_entries hold]
      exact herr
    | some o =>
      simp only [bindEntry, Option.map_some]
      rw [hplace.set_entries hold]
      exact exec_bind_err herr _
  · have hbound : ∀ s' free', Healthy top s' t' free' [] → Bound top t new s' t' free' := fun s' free' hh =>
      ⟨hh, hitems₁.trans (hplace.items_plug horder hnew),
        fun ht hk => hshort fun c hc => hcells c hc ⟨hnew ▸ hk, ht⟩⟩
    cases hold : old with
    | none =>
      subst hold
      refine .inr ⟨t', s₁, free₁, ?_, hbound s₁ free₁ h₁, hrev₁⟩
      simp only [bindEntry, Option.map_none]
      rw [hplace.insert_entries rfl]
      exact hok
    | some o =>
      subst hold
      have ho : o ∈ l.items := by simp [hplace.items]
      obtain ⟨s₂, free₂, hfree, h₂, hrev₂⟩ := h₁.exec_freeOld hlsn ((h.cellsAt _ hl).2 o ho) ((h.valid _ hl).2 o ho) hframe
      refine .inr ⟨t', s₂, free₂, ?_, hbound s₂ free₂ h₂, hrev₁.trans hrev₂⟩
      simp only [bindEntry, Option.map_some]
      rw [hplace.set_entries rfl]
      exact (exec_bind_ok hok _).trans hfree

theorem Healthy.exec_allocateRevision (h : Healthy top s t free []) :
    Healthy top {s with state := {s.state with lastLsn := some (s.state.lastLsn.getD s.state.nextRevision)}} t free [] ∧
      exec allocateRevision s = .ok (s.state.lastLsn.getD s.state.nextRevision)
        {s with state := {s.state with lastLsn := some (s.state.lastLsn.getD s.state.nextRevision)}} :=
  ⟨⟨h.pages.setState rfl rfl, h.root, h.low, h.order, h.linked⟩, rfl⟩

/-- What a mutation that was not refused for its own key or value comes to. -/
def Mutates (top : Lsn) (s : TreeStage) (t : Shape) (program : Prog Revision) (key : DocumentKey)
    (value : Option Bytes) : Prop :=
  (∃ e s', exec program s = .err e s' ∧
    (Crowded s ∨ shortKeySize < key.encode.length ∨ ∃ c ∈ t.cells, ¬Cell.Short c)) ∨
  ∃ (new : Item) (t' : Shape) (s' : TreeStage) (free' : List PageId), exec program s = .ok new.revision s' ∧
    new.key = key ∧ new.revision = s.state.lastLsn.getD s.state.nextRevision ∧
    new.value.map Stored.bytes = value ∧ s'.state.lastLsn = some new.revision ∧
    s'.state.nextRevision = s.state.nextRevision ∧ Bound top t new s' t' free'

theorem put_eq (limits : StorageLimits) (key : DocumentKey) (value : Bytes) :
    put limits key value = (do
      ofExcept (validateValue limits value)
      ofExcept (validateEncodedKey key.encode)
      let revision ← allocateRevision
      let found ← findLeaf key.encode
      let page ← leaf found.1
      let valueRef ← makeValue limits value revision
      let place := searchLeaf key.encode page.entries
      bindEntry found.1 found.2 page place.1 ⟨key.encode, revision, some valueRef⟩ place.2 revision
      pure revision) := by
  unfold put
  refine bind_congr fun _ => bind_congr fun _ => bind_congr fun revision => bind_congr fun found =>
    bind_congr fun page => bind_congr fun valueRef => ?_
  unfold searchLeaf bindEntry
  dsimp only
  cases (page.entries[partitionPoint (fun entry => decide (entry.key < key.encode)) page.entries]?).filter
      fun entry => decide (entry.key = key.encode) with
  | none => rfl
  | some old => exact (bind_assoc ..).symm

theorem Healthy.exec_put (h : Healthy top s t free []) {limits : StorageLimits} {key : DocumentKey} {value : Bytes}
    (hvalue : validateValue limits value = .ok ()) (hkey : validateEncodedKey key.encode = .ok ())
    (hpos : s.state.lastLsn.getD s.state.nextRevision ≠ 0) (htop : s.state.lastLsn.getD s.state.nextRevision ≤ top) :
    Mutates top s t (put limits key value) key (some value) := by
  unfold Mutates
  obtain ⟨h₁, hallocate⟩ := h.exec_allocateRevision
  generalize s.state.lastLsn.getD s.state.nextRevision = rev at *
  generalize hs₁ : ({s with state := {s.state with lastLsn := some rev}} : TreeStage) = s₁ at *
  have hstate₁ : s₁.state = {s.state with lastLsn := some rev} := by rw [← hs₁]
  have hwater : s₁.state.highWaterPageId = s.state.highWaterPageId := by rw [hstate₁]
  obtain ⟨cs, l, a, old, b, hplace, hfind, hleaf⟩ := h₁.exec_place key.encode
  have hlength : value.length ≤ maxValueSize := by
    unfold validateValue at hvalue
    exact (ensure_eq_ok.mp hvalue).2
  have hpath := h₁.path_length hplace
  have hroom : u64Max - s₁.state.highWaterPageId ≤ room s₁ free := Nat.le_add_left _ _
  have hchain : chainPages limits value ≤ maxOverflowPages := by
    unfold chainPages
    split
    · exact Nat.zero_le _
    · exact Nat.div_le_div_right (by omega)
  -- everything up to the value, which does not depend on the place
  have hbefore : ∀ {β : Type} (f : Revision → PageId × List PageId → LeafPage → Prog β), exec (do
      ofExcept (validateValue limits value)
      ofExcept (validateEncodedKey key.encode)
      let revision ← Dodb.allocateRevision
      let found ← findLeaf key.encode
      let page ← leaf found.1
      f revision found page) s =
        exec (f rev (l.id, (cs.map SearchTree.Crumb.id).reverse ++ [l.id]) ⟨l.next, Leaf.entries l⟩) s₁ := by
    intro β f
    rw [hvalue, hkey]
    show exec (Dodb.allocateRevision >>= _) s = _
    rw [exec_bind_ok hallocate, exec_bind_ok hfind, exec_bind_ok hleaf]
  rw [put_eq, hbefore]
  rcases h₁.pages.exec_makeValue limits htop hlength with
    ⟨e, s', herr, hfew⟩ | ⟨stored, s₂, free₂, hmake, hbytes, hvalid, hat, h₂, hc₂, hv₂, hroom₂, _⟩
  · refine .inl ⟨e, s', exec_bind_err herr _, .inl ?_⟩
    unfold Crowded
    rw [← hwater]
    omega
  have hnew : Item.sortKey ⟨key, rev, some stored⟩ = key.encode := rfl
  have hpages : Pages top s₂ t.cells free₂ (Item.pages ⟨key, rev, some stored⟩) := by
    rwa [List.append_nil] at h₂
  have hatNew : Item.At top s₂.view ⟨key, rev, some stored⟩ := fun v hv => by
    cases hv
    exact hat
  have hvalidNew : Item.Valid top ⟨key, rev, some stored⟩ := ⟨⟨hpos, htop⟩, fun v hv => by
    cases hv
    exact hvalid⟩
  have hplaced : ∀ {β : Type} (f : PUnit → Prog β), exec (do
      let valueRef ← makeValue limits value rev
      let place := searchLeaf key.encode (Leaf.entries l)
      let r ← bindEntry l.id ((cs.map SearchTree.Crumb.id).reverse ++ [l.id]) ⟨l.next, Leaf.entries l⟩ place.1
        ⟨key.encode, rev, some valueRef⟩ place.2 rev
      f r) s₁ = exec (do
        let r ← bindEntry l.id ((cs.map SearchTree.Crumb.id).reverse ++ [l.id]) ⟨l.next, Leaf.entries l⟩ a.length
          (Item.entry ⟨key, rev, some stored⟩) (old.map Item.entry) rev
        f r) s₂ := by
    intro β f
    rw [exec_bind_ok hmake, hplace.search]
    rfl
  rw [hplaced]
  rcases hpages.exec_bindEntry (hc₂.root.trans h₁.root) h₁.low h₁.order h₁.linked hplace hnew htop hatNew hvalidNew with
    ⟨e, s', herr, hwhy⟩ | ⟨t', s₃, free₃, hok, hbound, hrev₃⟩
  · refine .inl ⟨e, s', exec_bind_err herr _, hwhy.imp_left fun hfew => ?_⟩
    unfold Crowded
    rw [← hwater]
    omega
  · refine .inr ⟨⟨key, rev, some stored⟩, t', s₃, free₃, exec_bind_ok hok _, rfl, rfl, congrArg some hbytes, ?_, ?_, hbound⟩
    · rw [hrev₃.lastLsn, hc₂.lastLsn, hstate₁]
    · rw [hrev₃.nextRevision, hc₂.nextRevision, hstate₁]

/-- A tombstone fits where the entry it replaces did. -/
theorem Place.tombstone_fits {o : Item} (h : Place k t cs l a (some o) b) (hfits : leafFits (Leaf.entries l) = true)
    {new : Item} (hnew : new.sortKey = k) (hnone : new.value = none) :
    leafFits (Leaf.entries (Leaf.withItems l (a ++ new :: b))) = true := by
  obtain ⟨hcanonical, hordered, hused⟩ := (leafFits_iff _).mp hfits
  have hkey : new.entry.key = o.entry.key := hnew.trans (h.found o rfl).symm
  have hkeys : (Leaf.entries (Leaf.withItems l (a ++ new :: b))).map LeafEntry.key =
      (Leaf.entries l).map LeafEntry.key := by
    simp [Leaf.entries, Leaf.withItems, h.items, hnew, h.found o rfl]
  refine (leafFits_iff _).mpr ⟨fun e he => ?_, hkeys ▸ hordered, ?_⟩
  · obtain ⟨i, _, rfl⟩ := List.mem_map.mp he
    exact canonical_encode i.key
  · have hsize : leafRecordSize new.entry ≤ leafRecordSize o.entry := by
      unfold leafRecordSize
      rw [hkey, show new.entry.value = none by rw [Item.entry, hnone]; rfl]
      simp only [inlineLength]
      omega
    unfold leafUsed RecordCodec.used at *
    simp only [Leaf.entries, Leaf.withItems, h.items, List.map_append, List.map_cons, List.sum_append, List.sum_cons,
      Option.toList_some, List.map_nil, List.sum_nil] at hused ⊢
    omega

theorem Healthy.exec_delete (h : Healthy top s t free []) {key : DocumentKey}
    (hkey : validateEncodedKey key.encode = .ok ()) (hpos : s.state.lastLsn.getD s.state.nextRevision ≠ 0)
    (htop : s.state.lastLsn.getD s.state.nextRevision ≤ top) : Mutates top s t (delete key) key none := by
  unfold Mutates
  obtain ⟨h₁, hallocate⟩ := h.exec_allocateRevision
  generalize s.state.lastLsn.getD s.state.nextRevision = rev at *
  generalize hs₁ : ({s with state := {s.state with lastLsn := some rev}} : TreeStage) = s₁ at *
  have hstate₁ : s₁.state = {s.state with lastLsn := some rev} := by rw [← hs₁]
  have hwater : s₁.state.highWaterPageId = s.state.highWaterPageId := by rw [hstate₁]
  obtain ⟨cs, l, a, old, b, hplace, hfind, hleaf⟩ := h₁.exec_place key.encode
  have hpath := h₁.path_length hplace
  have hroom : u64Max - s₁.state.highWaterPageId ≤ room s₁ free := Nat.le_add_left _ _
  have hl : SearchTree.Cell.leaf l ∈ t.cells := hplace.cells_perm.mem_iff.mpr List.mem_cons_self
  have hnew : Item.sortKey ⟨key, rev, none⟩ = key.encode := rfl
  have hplaced : exec (delete key) s = exec (bindEntry l.id ((cs.map SearchTree.Crumb.id).reverse ++ [l.id])
      ⟨l.next, Leaf.entries l⟩ a.length (Item.entry ⟨key, rev, none⟩) (old.map Item.entry) rev >>= fun _ => pure rev) s₁ := by
    unfold delete
    dsimp only
    rw [hkey]
    show exec (allocateRevision >>= _) s = _
    rw [exec_bind_ok hallocate, exec_bind_ok hfind, exec_bind_ok hleaf, hplace.search]
    cases hold : old with
    | none => rfl
    | some o =>
      subst hold
      have hfits := hplace.tombstone_fits (h₁.pages.valid _ hl).1 hnew rfl
      have hset : (Leaf.entries l).set a.length (Item.entry ⟨key, rev, none⟩) = _ := hplace.set_entries rfl _
      simp only [bindEntry, Option.map_some]
      rw [hset, insertLeafEntries, if_pos hfits, bind_assoc]
      exact congrArg (fun entries => exec (writePage l.id (.leaf rev l.next entries) >>= _) s₁) hset
  rw [hplaced]
  have hvalid : Item.Valid top ⟨key, rev, none⟩ := ⟨⟨hpos, htop⟩, fun v hv => by cases hv⟩
  have hat : Item.At top s₁.view ⟨key, rev, none⟩ := fun v hv => by cases hv
  have hpages : Pages top s₁ t.cells free (Item.pages ⟨key, rev, none⟩) := h₁.pages
  rcases hpages.exec_bindEntry h₁.root h₁.low h₁.order h₁.linked hplace hnew htop hat hvalid with
    ⟨e, s', herr, hwhy⟩ | ⟨t', s₃, free₃, hok, hbound, hrev₃⟩
  · refine .inl ⟨e, s', exec_bind_err herr _, hwhy.imp_left fun hfew => ?_⟩
    unfold Crowded
    rw [← hwater]
    omega
  · refine .inr ⟨⟨key, rev, none⟩, t', s₃, free₃, exec_bind_ok hok _, rfl, rfl, rfl, ?_, ?_, hbound⟩
    · rw [hrev₃.lastLsn, hstate₁]
    · rw [hrev₃.nextRevision, hstate₁]

end Mutate

end Dodb
