import Dodb.Btree.CheckerComplete
import Dodb.Btree.FormatDecoded

/-! What the invariant checker's success means.

The checker compares separators with the keys under their two neighbours and with nothing
else: a separator may lie outside the range its page was given, so the pages it accepts need
not be a search tree in the sense of `Healthy`. What a successful walk finds is a `Subtree`,
in which the keys on the two sides of every separator are on the right side of it. That is
enough for a search to turn where the key is, and with the leaf chain and the free list it is
what every read needs (`Checked`). -/
namespace Dodb
open Lib PageProg SearchTree

/-! ### The pages a walk reaches -/

/-- A walk from `s` to `s'` that reached `pages` for the first time and found `leaves`. -/
structure Walked (highWater : PageId) (s s' : CheckStage) (pages leaves : List PageId) : Prop where
  view : s'.view = s.view
  reachable : s'.state.reachable = pages.reverse ++ s.state.reachable
  leaves : s'.state.leaves = s.state.leaves ++ leaves
  fresh : ∀ p ∈ pages, p ∉ s.state.reachable
  nodup : pages.Nodup
  range : ∀ p ∈ pages, firstDataPage ≤ p ∧ p ≤ highWater

namespace Walked
variable {highWater : PageId} {s s' s'' : CheckStage} {pages pages' leaves leaves' : List PageId}

theorem refl (highWater : PageId) (s : CheckStage) : Walked highWater s s [] [] :=
  ⟨rfl, rfl, (List.append_nil _).symm, by simp, List.nodup_nil, by simp⟩

theorem trans (h : Walked highWater s s' pages leaves) (h' : Walked highWater s' s'' pages' leaves') :
    Walked highWater s s'' (pages ++ pages') (leaves ++ leaves') where
  view := h'.view.trans h.view
  reachable := by rw [h'.reachable, h.reachable, List.reverse_append, List.append_assoc]
  leaves := by rw [h'.leaves, h.leaves, List.append_assoc]
  fresh p hp := by
    rcases List.mem_append.mp hp with hp | hp
    · exact h.fresh p hp
    · intro hmem
      refine h'.fresh p hp ?_
      rw [h.reachable]
      exact List.mem_append_right _ hmem
  nodup := by
    refine List.nodup_append.mpr ⟨h.nodup, h'.nodup, fun p hp q hq heq => ?_⟩
    refine h'.fresh q hq ?_
    rw [h.reachable, ← heq]
    exact List.mem_append_left _ (List.mem_reverse.mpr hp)
  range p hp := (List.mem_append.mp hp).elim (h.range p) (h'.range p)

end Walked

section Walks
variable {highWater : PageId} {s s' : CheckStage}

theorem Checker.readPage_sound {p : PageId} {page : PageData}
    (h : exec (Checker.readPage highWater p) s = .ok page s') :
    (firstDataPage ≤ p ∧ p ≤ highWater) ∧ s.view p = .ok page ∧ s' = s := by
  obtain ⟨hrange, hread⟩ := exec_check_bind h
  exact ⟨hrange, exec_readPage_eq_ok hread⟩

/-- A page that is reached and then read. -/
theorem Checker.reach_sound {p : PageId} {message : String} {u : PUnit} {s₁ : CheckStage} {page : PageData}
    (hreach : exec (Checker.reach p message) s = .ok u s₁)
    (hread : exec (Checker.readPage highWater p) s₁ = .ok page s') :
    Walked highWater s s' [p] [] ∧ s.view p = .ok page := by
  rw [Checker.reach, exec_bind_ok (exec_get s)] at hreach
  obtain ⟨hfresh, hset⟩ := exec_check_bind hreach
  cases hset
  obtain ⟨hrange, hview, rfl⟩ := Checker.readPage_sound hread
  refine ⟨⟨rfl, rfl, (List.append_nil _).symm, ?_, List.nodup_singleton p, ?_⟩, hview⟩
  · intro q hq
    rw [List.mem_singleton.mp hq]
    exact hfresh
  · intro q hq
    rw [List.mem_singleton.mp hq]
    exact hrange

/-- Every page that can be read is one a disk can hold. -/
def Readable (v : View) : Prop := ∀ p page, v p = .ok page → page.Storable

variable (hstorable : Readable s.view)
include hstorable

theorem Checker.checkOverflowFrom_sound {length remaining : Nat} {next : Option PageId} {visited : List PageId}
    {total total' : Nat}
    (h : exec (Checker.checkOverflowFrom highWater length remaining next visited total) s = .ok total' s') :
    ∃ chunks : List (PageId × Bytes), ChainAt u64Max s.view length chunks ∧ next = chunks.head?.map Prod.fst ∧
      chunks.length ≤ remaining ∧ total' = total + (chunks.flatMap Prod.snd).length ∧
      (∀ c ∈ chunks, c.2 ≠ [] ∧ c.2.length ≤ overflowDataSize) ∧
      Walked highWater s s' (chunks.map Prod.fst) [] := by
  induction remaining generalizing s next visited total with
  | zero =>
    cases next with
    | none =>
      cases h
      exact ⟨[], True.intro, rfl, le_rfl, rfl, by simp, .refl ..⟩
    | some current => cases h
  | succ remaining ih =>
    cases next with
    | none =>
      cases h
      exact ⟨[], True.intro, rfl, Nat.zero_le _, rfl, by simp, .refl ..⟩
    | some current =>
      rw [Checker.checkOverflowFrom] at h
      obtain ⟨_, h⟩ := exec_check_bind h
      obtain ⟨_, s₁, hreach, h⟩ := exec_bind_eq_ok h
      obtain ⟨page, s₂, hread, h⟩ := exec_bind_eq_ok h
      obtain ⟨hwalk, hview⟩ := Checker.reach_sound hreach hread
      have hpage := hstorable current page hview
      cases page with
      | overflow lsn next pageTotal chunk =>
        obtain ⟨hlength, h⟩ := exec_check_bind h
        obtain ⟨sum, hadd, h⟩ := exec_ofExcept_bind h
        obtain ⟨hsum, -⟩ := addOr_eq_ok hadd
        have hstorable₂ : Readable s₂.view := by
          rw [hwalk.view]
          exact hstorable
        obtain ⟨chunks, hat, hnext, hlen, htotal, hchunks, hrest⟩ := ih hstorable₂ h
        rw [hwalk.view] at hat
        refine ⟨(current, chunk) :: chunks, ⟨⟨lsn, hpage.1, ?_⟩, hat⟩, rfl, Nat.succ_le_succ hlen, ?_, ?_, hwalk.trans hrest⟩
        · rw [hview, hlength, hnext]
        · rw [htotal, hsum, List.flatMap_cons, List.length_append, Nat.add_assoc]
        · intro c hc
          rcases List.mem_cons.mp hc with rfl | hc
          · exact hpage.2.2.2
          · exact hchunks c hc
      | leaf | internal | free => cases h

theorem Checker.checkOverflow_sound {head : PageId} {length : Nat} {u : Unit}
    (h : exec (Checker.checkOverflow highWater head length) s = .ok u s') :
    ∃ stored : Stored, stored.ref = .overflow head length ∧ stored.Valid ∧ stored.At u64Max s.view ∧
      Walked highWater s s' stored.pages [] := by
  obtain ⟨hlength, h⟩ := exec_check_bind h
  obtain ⟨total, s₁, hfrom, hcheck⟩ := exec_bind_eq_ok h
  obtain ⟨htotal, rfl⟩ := exec_check_eq_ok hcheck
  obtain ⟨chunks, hat, hhead, hlen, hsum, hchunks, hwalk⟩ := Checker.checkOverflowFrom_sound hstorable hfrom
  rw [Nat.zero_add, htotal] at hsum
  obtain _ | ⟨c, rest⟩ := chunks
  · cases hhead
  · refine ⟨.chain (c :: rest), ?_, ⟨by simp, hlen, ?_, hchunks⟩, ?_, hwalk⟩
    · rw [Stored.ref, ← hsum, ← hhead]
      rfl
    · rw [← hsum]
      exact hlength.2
    · show ChainAt u64Max s.view _ _
      rw [← hsum]
      exact hat

theorem Checker.checkValue_sound {value : Option ValueRef} {u : Unit}
    (h : exec (Checker.checkValue highWater value) s = .ok u s') :
    ∃ stored : Option Stored, stored.map Stored.ref = value ∧ (∀ v ∈ stored, v.Valid) ∧
      (∀ v ∈ stored, v.At u64Max s.view) ∧ Walked highWater s s' ((stored.map Stored.pages).getD []) [] := by
  obtain _ | value := value
  · cases h
    exact ⟨none, rfl, by simp, by simp, .refl ..⟩
  · cases value with
    | inline bytes =>
      obtain ⟨hlen, rfl⟩ := exec_check_eq_ok h
      refine ⟨some (.inline bytes), rfl, ?_, ?_, .refl ..⟩
      · intro v hv
        cases hv
        exact hlen
      · intro v hv
        cases hv
        exact True.intro
    | overflow head length =>
      obtain ⟨stored, href, hvalid, hat, hwalk⟩ := Checker.checkOverflow_sound hstorable h
      refine ⟨some stored, congrArg some href, ?_, ?_, hwalk⟩
      · intro v hv
        cases hv
        exact hvalid
      · intro v hv
        cases hv
        exact hat

theorem Checker.visitEntry_sound {lower upper : Option Bytes} {entry : LeafEntry} {u : Unit}
    (hkey : Canonical entry.key) (hentry : entry.Sound)
    (h : exec (Checker.visitEntry highWater lower upper entry) s = .ok u s') :
    ∃ item : Item, item.entry = entry ∧ item.Valid u64Max ∧ item.At u64Max s.view ∧
      Walked highWater s s' item.pages [] := by
  obtain ⟨_, h⟩ := exec_check_bind h
  obtain ⟨hrevision, h⟩ := exec_check_bind h
  rw [exec_bind_ok (exec_get s)] at h
  obtain ⟨_, h⟩ := exec_check_bind h
  rw [exec_bind_ok (exec_set s _)] at h
  obtain ⟨stored, href, hvalid, hat, hwalk⟩ := Checker.checkValue_sound (by exact hstorable) h
  obtain ⟨key, hkey⟩ := hkey
  refine ⟨⟨key, entry.revision, stored⟩, ?_, ⟨⟨hrevision, hentry.1⟩, hvalid⟩, hat, ?_⟩
  · rw [Item.entry, hkey, href]
  · exact ⟨hwalk.view, hwalk.reachable, hwalk.leaves, hwalk.fresh, hwalk.nodup, hwalk.range⟩

theorem Checker.visitEntries_sound {lower upper : Option Bytes} {entries : List LeafEntry} {u : Unit}
    (hkeys : ∀ e ∈ entries, Canonical e.key) (hentries : ∀ e ∈ entries, e.Sound)
    (h : exec (Checker.visitEntries highWater lower upper entries) s = .ok u s') :
    ∃ items : List Item, items.map Item.entry = entries ∧ (∀ i ∈ items, i.Valid u64Max) ∧
      (∀ i ∈ items, i.At u64Max s.view) ∧ Walked highWater s s' (items.flatMap Item.pages) [] := by
  induction entries generalizing s with
  | nil =>
    cases h
    exact ⟨[], rfl, by simp, by simp, .refl ..⟩
  | cons entry rest ih =>
    obtain ⟨_, s₁, hvisit, h⟩ := exec_bind_eq_ok h
    obtain ⟨item, hitem, hvalid, hat, hwalk⟩ := Checker.visitEntry_sound hstorable
      (hkeys entry List.mem_cons_self) (hentries entry List.mem_cons_self) hvisit
    have hstorable₁ : Readable s₁.view := by
      rw [hwalk.view]
      exact hstorable
    obtain ⟨items, hitems, hvalids, hats, hrest⟩ := ih hstorable₁
      (fun e he => hkeys e (List.mem_cons_of_mem _ he)) (fun e he => hentries e (List.mem_cons_of_mem _ he)) h
    refine ⟨item :: items, by rw [List.map_cons, hitem, hitems], ?_, ?_, hwalk.trans hrest⟩
    · exact List.forall_mem_cons.mpr ⟨hvalid, hvalids⟩
    · rw [hwalk.view] at hats
      exact List.forall_mem_cons.mpr ⟨hat, hats⟩

end Walks

/-! ### The tree a walk finds -/

def Leaf.keys (leaves : List Leaf) : List Bytes := (leaves.flatMap SearchTree.Leaf.items).map Item.sortKey

/-- A child of an internal page, with the pages and the leaves under it. -/
structure Kid where
  id : PageId
  pages : List PageId
  leaves : List Leaf

def Kid.keys (kid : Kid) : List Bytes := Leaf.keys kid.leaves

/-- Each separator is above the keys of the child on its left, and not above those of the child
on its right. -/
def Separated : List InternalEntry → List Kid → Prop
  | entry :: entries, left :: right :: kids =>
    (∀ key ∈ left.keys, key < entry.key) ∧ (∀ key ∈ right.keys, entry.key ≤ key) ∧
      Separated entries (right :: kids)
  | _, _ => True

/-- The pages and the leaves of the tree at a page. -/
inductive Subtree (v : View) : PageId → List PageId → List Leaf → Prop where
  | leaf (l : Leaf) : Cell.At u64Max v (.leaf l) → Cell.Valid u64Max (.leaf l) →
    Subtree v l.id (Cell.pages (.leaf l)) [l]
  | node {p : PageId} {lsn : Lsn} {child : PageId} {entries : List InternalEntry} {kids : List Kid} :
    v p = .ok (.internal lsn child entries) → (entries.map InternalEntry.key).Pairwise (· < ·) →
    kids.map Kid.id = child :: entries.map InternalEntry.rightChild → Separated entries kids →
    (∀ kid ∈ kids, Subtree v kid.id kid.pages kid.leaves) →
    Subtree v p (p :: kids.flatMap Kid.pages) (kids.flatMap Kid.leaves)

/-! ### The order of its keys -/

section Order
variable {entries : List InternalEntry} {kids : List Kid} {child : PageId}

/-- A separator is not above any key further right. -/
theorem Separated.le_right {entry : InternalEntry} {left : Kid} (hsep : Separated (entry :: entries) (left :: kids))
    (hsorted : ((entry :: entries).map InternalEntry.key).Pairwise (· < ·)) (hlen : kids.length = entries.length + 1) :
    ∀ kid ∈ kids, ∀ key ∈ kid.keys, entry.key ≤ key := by
  induction entries generalizing entry left kids with
  | nil =>
    obtain _ | ⟨right, rest⟩ := kids
    · simp at hlen
    · obtain rfl : rest = [] := by simpa using hlen
      intro kid hkid
      rw [List.mem_singleton.mp hkid]
      exact hsep.2.1
  | cons next entries ih =>
    obtain _ | ⟨right, rest⟩ := kids
    · simp at hlen
    · rw [List.map_cons, List.pairwise_cons] at hsorted
      have hlt : entry.key < next.key := hsorted.1 next.key List.mem_cons_self
      intro kid hkid key hkey
      rcases List.mem_cons.mp hkid with rfl | hkid
      · exact hsep.2.1 key hkey
      · exact hlt.le.trans (ih hsep.2.2 hsorted.2 (by simpa using hlen) kid hkid key hkey)

/-- Keys that are in order in every child are in order in all of them together. -/
theorem Separated.sorted (hsep : Separated entries kids) (hsorted : (entries.map InternalEntry.key).Pairwise (· < ·))
    (hlen : kids.length = entries.length + 1) (hkids : ∀ kid ∈ kids, kid.keys.Pairwise (· < ·)) :
    (Leaf.keys (kids.flatMap Kid.leaves)).Pairwise (· < ·) := by
  induction entries generalizing kids with
  | nil =>
    obtain ⟨kid, rfl⟩ := List.length_eq_one_iff.mp hlen
    simpa [Kid.keys] using hkids kid List.mem_cons_self
  | cons entry entries ih =>
    obtain _ | ⟨left, _ | ⟨right, rest⟩⟩ := kids
    · simp at hlen
    · simp at hlen
    · have hright := hsep.le_right hsorted (by simpa using hlen)
      have hrest := ih hsep.2.2 (List.pairwise_cons.mp hsorted).2 (by simpa using hlen)
        fun kid hkid => hkids kid (List.mem_cons_of_mem _ hkid)
      rw [List.flatMap_cons, Leaf.keys, List.flatMap_append, List.map_append, List.pairwise_append]
      refine ⟨hkids left List.mem_cons_self, hrest, fun a ha b hb => ?_⟩
      obtain ⟨i, hi, rfl⟩ := List.mem_map.mp hb
      obtain ⟨l, hl, hil⟩ := List.mem_flatMap.mp hi
      obtain ⟨kid, hkid, hlk⟩ := List.mem_flatMap.mp hl
      have hle : entry.key ≤ i.sortKey := hright kid hkid _
        (List.mem_map_of_mem (List.mem_flatMap.mpr ⟨l, hlk, hil⟩))
      exact (hsep.1 a ha).trans_le hle

theorem childFor_cons (key : Bytes) (child : PageId) (entry : InternalEntry) (entries : List InternalEntry) :
    childFor key child (entry :: entries) =
      if entry.key ≤ key then childFor key entry.rightChild entries else child := by
  unfold childFor partitionPoint
  by_cases hle : entry.key ≤ key
  · simp only [hle, decide_true, List.takeWhile_cons_of_pos, List.length_cons, Nat.add_sub_cancel, if_true]
    cases hn : (entries.takeWhile fun entry => decide (entry.key ≤ key)).length with
    | zero => simp
    | succ n =>
      have hlt : n < entries.length := by
        have hsub : (entries.takeWhile fun entry => decide (entry.key ≤ key)).Sublist entries :=
          List.takeWhile_sublist _
        have := hsub.length_le
        omega
      simp [hlt]
  · simp [hle]

/-- A search turns to the child that has the key, if any child has it. -/
theorem Separated.childFor_mem (key : Bytes) (hsep : Separated entries kids)
    (hsorted : (entries.map InternalEntry.key).Pairwise (· < ·))
    (hids : kids.map Kid.id = child :: entries.map InternalEntry.rightChild) :
    ∃ kid ∈ kids, kid.id = childFor key child entries ∧ ∀ other ∈ kids, key ∈ other.keys → key ∈ kid.keys := by
  induction entries generalizing kids child with
  | nil =>
    obtain ⟨kid, rfl, hid⟩ := List.map_eq_singleton_iff.mp hids
    refine ⟨kid, List.mem_cons_self, hid, fun other hother hkey => ?_⟩
    rwa [List.mem_singleton.mp hother] at hkey
  | cons entry entries ih =>
    obtain ⟨left, kids, rfl, hleft, hids⟩ := List.map_eq_cons_iff.mp hids
    have hlen : kids.length = entries.length + 1 := by simpa using congrArg List.length hids
    obtain _ | ⟨right, rest⟩ := kids
    · simp at hlen
    · rw [childFor_cons]
      by_cases hle : entry.key ≤ key
      · rw [if_pos hle]
        obtain ⟨kid, hkid, hid, hother⟩ := ih hsep.2.2 (List.pairwise_cons.mp hsorted).2 hids
        refine ⟨kid, List.mem_cons_of_mem _ hkid, hid, fun other hmem hkey => ?_⟩
        rcases List.mem_cons.mp hmem with rfl | hmem
        · exact absurd (hsep.1 key hkey) hle.not_gt
        · exact hother other hmem hkey
      · rw [if_neg hle]
        refine ⟨left, List.mem_cons_self, hleft, fun other hmem hkey => ?_⟩
        rcases List.mem_cons.mp hmem with rfl | hmem
        · exact hkey
        · exact absurd (hsep.le_right hsorted hlen other hmem key hkey) hle

end Order

theorem Leaf.keys_singleton (l : Leaf) : Leaf.keys [l] = (Leaf.entries l).map LeafEntry.key := by
  simp [Leaf.keys, Leaf.entries, Function.comp_def]

theorem Leaf.keys_flatMap (kids : List Kid) : Leaf.keys (kids.flatMap Kid.leaves) = kids.flatMap Kid.keys := by
  rw [Leaf.keys, List.flatMap_assoc, List.map_flatMap]
  rfl

theorem length_kids {kids : List Kid} {child : PageId} {entries : List InternalEntry}
    (h : kids.map Kid.id = child :: entries.map InternalEntry.rightChild) : kids.length = entries.length + 1 := by
  simpa using congrArg List.length h

theorem flatMap_sublist {α β : Type} {l : List α} {f g : α → List β} (h : ∀ a ∈ l, (f a).Sublist (g a)) :
    (l.flatMap f).Sublist (l.flatMap g) := by
  induction l with
  | nil => exact List.Sublist.refl _
  | cons a rest ih => exact (h a List.mem_cons_self).append (ih fun b hb => h b (List.mem_cons_of_mem _ hb))

namespace Subtree
variable {v v' : View} {p : PageId} {pages : List PageId} {leaves : List Leaf}

theorem sorted (h : Subtree v p pages leaves) : (Leaf.keys leaves).Pairwise (· < ·) := by
  induction h with
  | leaf l _ hvalid =>
    rw [Leaf.keys_singleton]
    exact ((leafFits_iff _).mp hvalid.1).2.1
  | node _ hsorted hids hsep _ ih => exact hsep.sorted hsorted (length_kids hids) ih

/-- The tree is in its own pages. -/
theorem congr (h : Subtree v p pages leaves) (hv : ∀ q ∈ pages, v' q = v q) : Subtree v' p pages leaves := by
  induction h with
  | leaf l hat hvalid => exact .leaf l (hat.congr hv) hvalid
  | node hpage hsorted hids hsep _ ih =>
    refine .node ((hv _ List.mem_cons_self).trans hpage) hsorted hids hsep fun kid hkid => ?_
    exact ih kid hkid fun q hq => hv q (List.mem_cons_of_mem _ (List.mem_flatMap.mpr ⟨kid, hkid, hq⟩))

theorem leaf_cell (h : Subtree v p pages leaves) {l : Leaf} (hl : l ∈ leaves) :
    Cell.At u64Max v (.leaf l) ∧ Cell.Valid u64Max (.leaf l) ∧ (Cell.pages (.leaf l)).Sublist pages := by
  induction h with
  | leaf l' hat hvalid =>
    rw [List.mem_singleton.mp hl]
    exact ⟨hat, hvalid, List.Sublist.refl _⟩
  | node _ _ _ _ _ ih =>
    obtain ⟨kid, hkid, hl⟩ := List.mem_flatMap.mp hl
    obtain ⟨hat, hvalid, hsub⟩ := ih kid hkid hl
    refine ⟨hat, hvalid, (hsub.trans ?_).cons _⟩
    exact List.sublist_flatten_of_mem (List.mem_map_of_mem hkid)

theorem ids_sublist (h : Subtree v p pages leaves) : (leaves.map SearchTree.Leaf.id).Sublist pages := by
  induction h with
  | leaf l _ _ => exact (List.nil_sublist _).cons_cons _
  | node _ _ _ _ _ ih =>
    rw [List.map_flatMap]
    exact (flatMap_sublist ih).cons _

end Subtree

/-! ### The walk over a tree -/

section Visit
variable {highWater : PageId} {s s' : CheckStage}

def Kid.bounds (kid : Kid) : KeyBounds := (kid.keys.head?, kid.keys.getLast?)

/-- What the visit of a page finds. -/
def Visited (highWater : PageId) (s s' : CheckStage) (kid : Kid) : Prop :=
  Subtree s.view kid.id kid.pages kid.leaves ∧
    Walked highWater s s' kid.pages (kid.leaves.map SearchTree.Leaf.id)

theorem Checker.visitAll_sound {visit : PageId → Option Bytes → Option Bytes → CheckProg KeyBounds}
    (hvisit : ∀ s s' p lower upper bounds, Readable s.view → exec (visit p lower upper) s = .ok bounds s' →
      ∃ kid : Kid, kid.id = p ∧ Visited highWater s s' kid ∧ bounds = kid.bounds)
    {children : List (PageId × Option Bytes × Option Bytes)} {bounds : List KeyBounds} (hstorable : Readable s.view)
    (h : exec (Checker.visitAll visit children) s = .ok bounds s') :
    ∃ kids : List Kid, kids.map Kid.id = children.map Prod.fst ∧
      (∀ kid ∈ kids, Subtree s.view kid.id kid.pages kid.leaves) ∧ bounds = kids.map Kid.bounds ∧
      Walked highWater s s' (kids.flatMap Kid.pages) ((kids.flatMap Kid.leaves).map SearchTree.Leaf.id) := by
  induction children generalizing s bounds with
  | nil =>
    cases h
    exact ⟨[], rfl, by simp, rfl, .refl ..⟩
  | cons c rest ih =>
    obtain ⟨p, lower, upper⟩ := c
    obtain ⟨first, s₁, hfirst, h⟩ := exec_bind_eq_ok h
    obtain ⟨others, s₂, hothers, hpure⟩ := exec_bind_eq_ok h
    cases hpure
    obtain ⟨kid, hid, ⟨htree, hwalk⟩, hbounds⟩ := hvisit s s₁ p lower upper first hstorable hfirst
    have hstorable₁ : Readable s₁.view := by
      rw [hwalk.view]
      exact hstorable
    obtain ⟨kids, hids, htrees, hrest, hwalks⟩ := ih hstorable₁ hothers
    refine ⟨kid :: kids, by rw [List.map_cons, hid, hids]; rfl, ?_, by rw [hbounds, hrest]; rfl, ?_⟩
    · rw [hwalk.view] at htrees
      exact List.forall_mem_cons.mpr ⟨htree, htrees⟩
    · rw [List.flatMap_cons, List.flatMap_cons, List.map_append]
      exact hwalk.trans hwalks

theorem Checker.map_fst_children (lower upper : Option Bytes) (child : PageId) (entries : List InternalEntry) :
    (Checker.children lower upper child entries).map Prod.fst = child :: entries.map InternalEntry.rightChild := by
  induction entries generalizing lower child with
  | nil => rfl
  | cons entry rest ih => exact congrArg (child :: ·) (ih ..)

theorem Checker.checkSeparators_sound {entries : List InternalEntry} {kids : List Kid} {u : Unit}
    (hkids : ∀ kid ∈ kids, kid.keys.Pairwise (· < ·))
    (h : exec (Checker.checkSeparators entries (kids.map Kid.bounds)) s = .ok u s') :
    Separated entries kids ∧ s' = s := by
  induction entries generalizing kids with
  | nil =>
    cases h
    exact ⟨True.intro, rfl⟩
  | cons entry entries ih =>
    obtain _ | ⟨left, _ | ⟨right, rest⟩⟩ := kids
    · cases h
      exact ⟨True.intro, rfl⟩
    · cases h
      exact ⟨True.intro, rfl⟩
    · rw [List.map_cons, List.map_cons, Checker.checkSeparators] at h
      obtain ⟨hleft, h⟩ := exec_check_bind h
      obtain ⟨hright, h⟩ := exec_check_bind h
      obtain ⟨hsep, hs⟩ := ih (fun kid hkid => hkids kid (List.mem_cons_of_mem _ hkid)) h
      refine ⟨⟨fun key hkey => ?_, fun key hkey => ?_, hsep⟩, hs⟩
      · -- the greatest key on the left
        have hne := List.ne_nil_of_mem hkey
        rw [Kid.bounds, List.getLast?_eq_some_getLast hne] at hleft
        have hlt : left.keys.getLast hne < entry.key := by simpa using hleft
        exact ((hkids left List.mem_cons_self).imp le_of_lt |>.rel_getLast hkey).trans_lt hlt
      · -- the least key on the right
        obtain ⟨least, more, hkeys⟩ := List.exists_cons_of_ne_nil (List.ne_nil_of_mem hkey)
        have hle : entry.key ≤ least := by simpa [Kid.bounds, hkeys] using hright
        have hsorted := hkids right (List.mem_cons_of_mem _ List.mem_cons_self)
        rw [hkeys] at hsorted hkey
        rcases List.mem_cons.mp hkey with rfl | hkey
        · exact hle
        · exact hle.trans ((List.pairwise_cons.mp hsorted).1 key hkey).le

theorem Checker.visitTree_sound {bound : Nat} {p : PageId} {lower upper : Option Bytes} {bounds : KeyBounds}
    (hstorable : Readable s.view) (h : exec (Checker.visitTree highWater bound p lower upper) s = .ok bounds s') :
    ∃ kid : Kid, kid.id = p ∧ Visited highWater s s' kid ∧ bounds = kid.bounds := by
  induction bound generalizing s s' p lower upper bounds with
  | zero => cases h
  | succ bound ih =>
    rw [Checker.visitTree] at h
    obtain ⟨_, s₁, hreach, h⟩ := exec_bind_eq_ok h
    obtain ⟨page, s₂, hread, h⟩ := exec_bind_eq_ok h
    obtain ⟨hwalk, hview⟩ := Checker.reach_sound hreach hread
    have hpage := hstorable p page hview
    have hstorable₂ : Readable s₂.view := by
      rw [hwalk.view]
      exact hstorable
    cases page with
    | leaf lsn next entries =>
      obtain ⟨_, s₃, hentries, h⟩ := exec_bind_eq_ok h
      obtain ⟨items, hitems, hvalid, hat, hwalk'⟩ := Checker.visitEntries_sound hstorable₂
        ((leafFits_iff _).mp hpage.2.2.1).1 hpage.2.2.2 hentries
      rw [exec_bind_ok (exec_modify s₃ _)] at h
      cases h
      rw [hwalk.view] at hat
      have hleaf : Leaf.entries ⟨[], p, next, items⟩ = entries := hitems
      have hcell : Cell.At u64Max s.view (.leaf ⟨[], p, next, items⟩) :=
        ⟨⟨lsn, hpage.1, by rw [hleaf]; exact hview⟩, hat⟩
      have hfits : Cell.Valid u64Max (.leaf ⟨[], p, next, items⟩) :=
        ⟨by rw [hleaf]; exact hpage.2.2.1, hvalid⟩
      have hboth := hwalk.trans hwalk'
      refine ⟨⟨p, p :: items.flatMap Item.pages, [⟨[], p, next, items⟩]⟩, rfl, ⟨.leaf _ hcell hfits,
        ⟨hboth.view, hboth.reachable, ?_, hboth.fresh, hboth.nodup, hboth.range⟩⟩, ?_⟩
      · show s₃.state.leaves ++ [p] = s.state.leaves ++ [p]
        rw [hboth.leaves, List.append_nil, List.append_nil]
      · rw [Kid.bounds, Kid.keys, Leaf.keys_singleton, hleaf, List.head?_map, List.getLast?_map]
    | internal lsn child entries =>
      obtain ⟨_, h⟩ := exec_check_bind h
      obtain ⟨found, s₃, hall, h⟩ := exec_bind_eq_ok h
      obtain ⟨_, s₄, hseps, hpure⟩ := exec_bind_eq_ok h
      cases hpure
      obtain ⟨kids, hids, htrees, rfl, hwalks⟩ := Checker.visitAll_sound
        (fun s s' p lower upper bounds hs hrun => ih hs hrun) hstorable₂ hall
      obtain ⟨hsep, rfl⟩ := Checker.checkSeparators_sound (fun kid hkid => (htrees kid hkid).sorted) hseps
      rw [Checker.map_fst_children] at hids
      rw [hwalk.view] at htrees
      refine ⟨⟨p, p :: kids.flatMap Kid.pages, kids.flatMap Kid.leaves⟩, rfl,
        ⟨.node hview ((internalFits_iff ..).mp hpage.2.2.1).2.2.1 hids hsep htrees, hwalk.trans hwalks⟩, ?_⟩
      rw [Kid.bounds, Kid.keys, Leaf.keys_flatMap, List.head?_flatMap, List.getLast?_flatMap, ← List.map_reverse,
        List.findSome?_map, List.findSome?_map]
      rfl
    | overflow | free => cases h

end Visit

/-! ### Searching the tree -/

section Search
variable {s : TreeStage} {p : PageId} {pages : List PageId} {leaves : List Leaf}

/-- The pages of a child, apart from the page above it. -/
theorem kid_pages {kids : List Kid} {kid : Kid} (hkid : kid ∈ kids) (hnodup : (p :: kids.flatMap Kid.pages).Nodup) :
    kid.pages.Nodup ∧ p ∉ kid.pages ∧ kid.pages.length ≤ (kids.flatMap Kid.pages).length := by
  have hsub : kid.pages.Sublist (kids.flatMap Kid.pages) := List.sublist_flatten_of_mem (List.mem_map_of_mem hkid)
  rw [List.nodup_cons] at hnodup
  exact ⟨hnodup.2.sublist hsub, fun hp => hnodup.1 (hsub.mem hp), hsub.length_le⟩

/-- The search for a key ends at the leaf that has it, if any leaf of the tree has. -/
theorem Subtree.exec_findLeafFrom (key : Bytes) (h : Subtree s.view p pages leaves)
    (hrange : ∀ q ∈ pages, firstDataPage ≤ q ∧ q ≤ s.state.highWaterPageId) (hnodup : pages.Nodup)
    {bound : Nat} {route : List PageId} (hbound : pages.length ≤ bound) (hroute : ∀ q ∈ route, q ∉ pages) :
    ∃ l ∈ leaves, ∃ route', exec (findLeafFrom key bound p route) s = .ok (l.id, route') s ∧
      (key ∈ Leaf.keys leaves → key ∈ Leaf.keys [l]) := by
  induction h generalizing bound route with
  | leaf l hat hvalid =>
    obtain ⟨bound, rfl⟩ : ∃ n, bound = n + 1 := ⟨bound - 1, by simp [Cell.pages] at hbound; omega⟩
    obtain ⟨⟨lsn, _, hview⟩, _⟩ := hat
    have hmem : l.id ∈ Cell.pages (.leaf l) := List.mem_cons_self
    have hfresh : l.id ∉ route := fun hp => hroute _ hp hmem
    refine ⟨l, List.mem_cons_self, route ++ [l.id], ?_, id⟩
    rw [findLeafFrom, exec_bind_ok (exec_check_pos s hfresh _), exec_bind_ok (exec_page (hrange _ hmem) hview), exec_pure]
  | @node p lsn child entries kids hpage hsorted hids hsep _ ih =>
    obtain ⟨bound, rfl⟩ : ∃ n, bound = n + 1 := ⟨bound - 1, by simp at hbound; omega⟩
    have hmem : p ∈ p :: kids.flatMap Kid.pages := List.mem_cons_self
    have hfresh : p ∉ route := fun hp => hroute _ hp hmem
    obtain ⟨kid, hkid, hid, hother⟩ := hsep.childFor_mem key hsorted hids
    obtain ⟨hnodup', hnot, hlen⟩ := kid_pages hkid hnodup
    have hsub : ∀ q ∈ kid.pages, q ∈ p :: kids.flatMap Kid.pages := fun q hq =>
      List.mem_cons_of_mem _ (List.mem_flatMap.mpr ⟨kid, hkid, hq⟩)
    have hroute' : ∀ q ∈ route ++ [p], q ∉ kid.pages := by
      intro q hq hmem'
      rcases List.mem_append.mp hq with hq | hq
      · exact hroute q hq (hsub q hmem')
      · exact hnot (List.mem_singleton.mp hq ▸ hmem')
    have hbound' : kid.pages.length ≤ bound := by
      rw [List.length_cons] at hbound
      omega
    obtain ⟨l, hl, route', hexec, hkey⟩ := ih kid hkid (fun q hq => hrange q (hsub q hq)) hnodup' hbound' hroute'
    refine ⟨l, List.mem_flatMap.mpr ⟨kid, hkid, hl⟩, route', ?_, fun hmem' => hkey ?_⟩
    · rw [findLeafFrom, exec_bind_ok (exec_check_pos s hfresh _), exec_bind_ok (exec_page (hrange _ hmem) hpage)]
      simp only
      rw [← hid, hexec]
    · rw [Leaf.keys_flatMap, List.mem_flatMap] at hmem'
      obtain ⟨other, hmem', hkey'⟩ := hmem'
      exact hother other hmem' hkey'

theorem Subtree.exec_leftmostLeafFrom (h : Subtree s.view p pages leaves)
    (hrange : ∀ q ∈ pages, firstDataPage ≤ q ∧ q ≤ s.state.highWaterPageId) (hnodup : pages.Nodup)
    {bound : Nat} {visited : List PageId} (hbound : pages.length ≤ bound) (hvisited : ∀ q ∈ visited, q ∉ pages) :
    ∃ l rest, leaves = l :: rest ∧ exec (leftmostLeafFrom bound p visited) s = .ok l.id s := by
  induction h generalizing bound visited with
  | leaf l hat hvalid =>
    obtain ⟨bound, rfl⟩ : ∃ n, bound = n + 1 := ⟨bound - 1, by simp [Cell.pages] at hbound; omega⟩
    obtain ⟨⟨lsn, _, hview⟩, _⟩ := hat
    have hmem : l.id ∈ Cell.pages (.leaf l) := List.mem_cons_self
    have hfresh : l.id ∉ visited := fun hp => hvisited _ hp hmem
    refine ⟨l, [], rfl, ?_⟩
    rw [leftmostLeafFrom, exec_bind_ok (exec_check_pos s hfresh _), exec_bind_ok (exec_page (hrange _ hmem) hview),
      exec_pure]
  | @node p lsn child entries kids hpage _ hids _ _ ih =>
    obtain ⟨bound, rfl⟩ : ∃ n, bound = n + 1 := ⟨bound - 1, by simp at hbound; omega⟩
    obtain ⟨kid, kids, rfl, hid, _⟩ := List.map_eq_cons_iff.mp hids
    have hkid : kid ∈ kid :: kids := List.mem_cons_self
    have hmem : p ∈ p :: (kid :: kids).flatMap Kid.pages := List.mem_cons_self
    have hfresh : p ∉ visited := fun hp => hvisited _ hp hmem
    obtain ⟨hnodup', hnot, hlen⟩ := kid_pages hkid hnodup
    have hsub : ∀ q ∈ kid.pages, q ∈ p :: (kid :: kids).flatMap Kid.pages := fun q hq =>
      List.mem_cons_of_mem _ (List.mem_flatMap.mpr ⟨kid, hkid, hq⟩)
    have hvisited' : ∀ q ∈ p :: visited, q ∉ kid.pages := by
      intro q hq hmem'
      rcases List.mem_cons.mp hq with rfl | hq
      · exact hnot hmem'
      · exact hvisited q hq (hsub q hmem')
    have hbound' : kid.pages.length ≤ bound := by
      rw [List.length_cons] at hbound
      omega
    obtain ⟨l, rest, hleaves, hexec⟩ := ih kid hkid (fun q hq => hrange q (hsub q hq)) hnodup' hbound' hvisited'
    refine ⟨l, rest ++ kids.flatMap Kid.leaves, by rw [List.flatMap_cons, hleaves]; rfl, ?_⟩
    rw [leftmostLeafFrom, exec_bind_ok (exec_check_pos s hfresh _), exec_bind_ok (exec_page (hrange _ hmem) hpage)]
    simp only
    rw [← hid, hexec]

end Search

/-! ### The leaf chain and the free list -/

/-- The pages of the free list that begins at a page. -/
inductive OnFreeList (v : View) : Option PageId → PageId → Prop where
  | head (p : PageId) : OnFreeList v (some p) p
  | next {p q : PageId} {lsn : Lsn} {next : Option PageId} : v p = .ok (.free lsn next) → OnFreeList v next q →
    OnFreeList v (some p) q

section Chain
variable {highWater : PageId} {s s' : CheckStage}

theorem Checker.leftmostLeaf_sound {p q : PageId} {pages : List PageId} {leaves : List Leaf} {bound : Nat}
    {visited : List PageId} (htree : Subtree s.view p pages leaves)
    (h : exec (Checker.leftmostLeaf highWater bound p visited) s = .ok q s') :
    leaves.head?.map SearchTree.Leaf.id = some q ∧ s' = s := by
  induction htree generalizing bound visited with
  | leaf l hat _ =>
    obtain _ | bound := bound
    · cases h
    · rw [Checker.leftmostLeaf] at h
      obtain ⟨_, h⟩ := exec_check_bind h
      obtain ⟨page, s₁, hread, h⟩ := exec_bind_eq_ok h
      obtain ⟨_, hview, rfl⟩ := Checker.readPage_sound hread
      obtain ⟨⟨lsn, _, hleaf⟩, _⟩ := hat
      rw [hleaf] at hview
      cases hview
      cases h
      exact ⟨rfl, rfl⟩
  | @node p lsn child entries kids hpage _ hids _ _ ih =>
    obtain _ | bound := bound
    · cases h
    · rw [Checker.leftmostLeaf] at h
      obtain ⟨_, h⟩ := exec_check_bind h
      obtain ⟨page, s₁, hread, h⟩ := exec_bind_eq_ok h
      obtain ⟨_, hview, hs₁⟩ := Checker.readPage_sound hread
      rw [hpage] at hview
      cases hview
      rw [hs₁] at h
      obtain ⟨kid, kids, rfl, rfl, _⟩ := List.map_eq_cons_iff.mp hids
      obtain ⟨hhead, hs'⟩ := ih kid List.mem_cons_self h
      refine ⟨?_, hs'⟩
      rw [List.flatMap_cons, List.head?_append, Option.map_or, hhead]
      rfl

theorem Checker.checkOrder_sound {previous last : Option Bytes} {entries : List LeafEntry}
    (h : exec (Checker.checkOrder previous entries) s = .ok last s') : s' = s := by
  induction entries generalizing previous with
  | nil =>
    cases h
    rfl
  | cons entry rest ih =>
    obtain ⟨_, h⟩ := exec_check_bind h
    exact ih h

/-- A chain that is the leaves of the tree links them. -/
theorem Checker.leafChain_sound {leaves : List Leaf} {reachable visited : List PageId} {bound : Nat}
    {next : Option PageId} {previous : Option Bytes} (hleaves : ∀ l ∈ leaves, Cell.At u64Max s.view (.leaf l))
    (h : exec (Checker.leafChain highWater reachable bound next visited previous) s =
      .ok (leaves.map SearchTree.Leaf.id) s') :
    next = leaves.head?.map SearchTree.Leaf.id ∧ Linked none leaves ∧ s' = s := by
  induction bound generalizing leaves next visited previous s' with
  | zero =>
    cases next with
    | none =>
      obtain ⟨hnil, rfl⟩ : [] = leaves.map SearchTree.Leaf.id ∧ s = s' := by
        rw [Checker.leafChain, exec_pure] at h
        injection h with hnil hs
        exact ⟨hnil, hs⟩
      obtain rfl : leaves = [] := by simpa using hnil.symm
      exact ⟨rfl, True.intro, rfl⟩
    | some pageId => cases h
  | succ bound ih =>
    cases next with
    | none =>
      obtain ⟨hnil, rfl⟩ : [] = leaves.map SearchTree.Leaf.id ∧ s = s' := by
        rw [Checker.leafChain, exec_pure] at h
        injection h with hnil hs
        exact ⟨hnil, hs⟩
      obtain rfl : leaves = [] := by simpa using hnil.symm
      exact ⟨rfl, True.intro, rfl⟩
    | some pageId =>
      rw [Checker.leafChain] at h
      obtain ⟨_, h⟩ := exec_check_bind h
      obtain ⟨_, h⟩ := exec_check_bind h
      obtain ⟨page, s₁, hread, h⟩ := exec_bind_eq_ok h
      obtain ⟨_, hview, hs₁⟩ := Checker.readPage_sound hread
      rw [hs₁] at h
      cases page with
      | leaf lsn nextLeaf entries =>
        obtain ⟨last, s₂, horder, h⟩ := exec_bind_eq_ok h
        rw [Checker.checkOrder_sound horder] at h
        obtain ⟨chain, s₃, hchain, h⟩ := exec_bind_eq_ok h
        rw [exec_pure] at h
        injection h with hids hs'
        obtain ⟨l, rest, rfl, hid, hrest⟩ := List.map_eq_cons_iff.mp hids.symm
        rw [← hrest] at hchain
        obtain ⟨hnext, hlinked, hs₃⟩ := ih (fun r hr => hleaves r (List.mem_cons_of_mem _ hr)) hchain
        obtain ⟨⟨lsn', _, hleaf⟩, _⟩ := hleaves l List.mem_cons_self
        rw [hid, hview] at hleaf
        cases hleaf
        refine ⟨by rw [← hid]; rfl, ⟨?_, hlinked⟩, hs'.symm.trans hs₃⟩
        rw [Option.or_none]
        exact hnext
      | internal | overflow | free => cases h

theorem Checker.freeList_sound {reachable freePages : List PageId} {bound : Nat} {next : Option PageId}
    {found : List PageId} (h : exec (Checker.freeList highWater reachable bound next freePages) s = .ok found s')
    {p : PageId} (hp : OnFreeList s.view next p) : p ∉ reachable := by
  induction bound generalizing next freePages with
  | zero =>
    cases next with
    | none => cases hp
    | some pageId => cases h
  | succ bound ih =>
    cases next with
    | none => cases hp
    | some pageId =>
      rw [Checker.freeList] at h
      obtain ⟨_, h⟩ := exec_check_bind h
      obtain ⟨_, h⟩ := exec_check_bind h
      obtain ⟨hreach, h⟩ := exec_check_bind h
      obtain ⟨page, s₁, hread, h⟩ := exec_bind_eq_ok h
      obtain ⟨_, hview, hs₁⟩ := Checker.readPage_sound hread
      rw [hs₁] at h
      cases hp with
      | head _ => exact hreach
      | next hfree hp =>
        rw [hview] at hfree
        cases hfree
        exact ih h hp

end Chain

/-! ### What the checker accepts -/

/-- What the checker's success says of the pages: a tree, its leaves in a chain, and a free list
that has none of its pages. -/
structure Checked (v : View) (root : PageId) (freeHead : Option PageId) (highWater : PageId) (pages : List PageId)
    (leaves : List Leaf) : Prop where
  tree : Subtree v root pages leaves
  nodup : pages.Nodup
  range : ∀ p ∈ pages, firstDataPage ≤ p ∧ p ≤ highWater
  linked : Linked none leaves
  free : ∀ p, OnFreeList v freeHead p → p ∉ pages

theorem checkTree_sound {s s' : CheckStage} {root : PageId} {freeHead : Option PageId} {highWater : PageId}
    {report : InvariantReport} (hstorable : Readable s.view) (hstart : s.state = {})
    (h : exec (checkTree root freeHead highWater) s = .ok report s') :
    ∃ pages leaves, Checked s.view root freeHead highWater pages leaves := by
  obtain ⟨bounds, s₁, hvisit, hrest⟩ := exec_bind_eq_ok h
  obtain ⟨leftmost, s₂, hleft, hrest⟩ := exec_bind_eq_ok hrest
  obtain ⟨kid, hid, ⟨htree, hwalk⟩, _⟩ := Checker.visitTree_sound hstorable hvisit
  rw [hid] at htree
  have htree₁ := htree
  rw [← hwalk.view] at htree₁
  rw [(Checker.leftmostLeaf_sound htree₁ hleft).2, exec_bind_ok (exec_get s₁)] at hrest
  obtain ⟨_, s₃, hcheckChain, hrest⟩ := exec_bind_eq_ok hrest
  obtain ⟨free, s₄, hfree, _⟩ := exec_bind_eq_ok hrest
  obtain ⟨chain, s₅, hchain, hcheck⟩ := exec_bind_eq_ok hcheckChain
  obtain ⟨hids, hs₃⟩ := exec_check_eq_ok hcheck
  rw [hids, hwalk.leaves, hstart, List.nil_append] at hchain
  have hcells : ∀ l ∈ kid.leaves, Cell.At u64Max s₁.view (.leaf l) := fun l hl => (htree₁.leaf_cell hl).1
  obtain ⟨_, hlinked, hs₅⟩ := Checker.leafChain_sound hcells hchain
  rw [hs₃, hs₅] at hfree
  refine ⟨kid.pages, kid.leaves, htree, hwalk.nodup, hwalk.range, hlinked, fun q hq hmem => ?_⟩
  rw [← hwalk.view] at hq
  refine Checker.freeList_sound hfree hq ?_
  rw [hwalk.reachable]
  exact List.mem_append_left _ (List.mem_reverse.mpr hmem)

end Dodb
