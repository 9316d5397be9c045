import Dodb.Lib.Recursion
import Dodb.Btree.CheckerSound
import Dodb.Btree.ReadView
import Dodb.Btree.DataPages
import Mathlib.Order.Interval.Finset.Nat

/-! The walks over the page graph end, on any pages.

The source's loops and its recursive checker have no bound: each relies on a set of visited pages, or on the pages
it has collected, and on the check of every page number against the high-water mark. `Loop` has their bodies and
`Unbounded` the functions around them, made of a number of rounds and of whatever would come after those. The walks of
`Tree`, `Checker` and `ReadView`, which carry a bound, are compared with them: within the bound nothing is left to come,
whatever the pages are. -/
namespace Dodb
open Lib PageProg

/-! ### The bodies of the loops -/

namespace Loop

def findLeaf (key : Bytes) (next : PageId × List PageId → Prog (PageId × List PageId)) :
    PageId × List PageId → Prog (PageId × List PageId)
  | (pageId, route) => do
    check (pageId ∉ route) (.corruption "tree traversal contains a cycle")
    match ← page pageId with
    | .leaf .. => pure (pageId, route ++ [pageId])
    | .internal _ leftmostChild entries => next (childFor key leftmostChild entries, route ++ [pageId])
    | _ => raise (.corruption "tree child has an impossible page type")

def leftmostLeaf (next : PageId × List PageId → Prog PageId) : PageId × List PageId → Prog PageId
  | (pageId, visited) => do
    check (pageId ∉ visited) (.corruption "leftmost traversal contains a cycle")
    match ← page pageId with
    | .leaf .. => pure pageId
    | .internal _ leftmostChild _ => next (leftmostChild, pageId :: visited)
    | _ => raise (.corruption "tree child has an impossible page type")

/-- A round of `free_value`: the page, the visited pages, how many they are and the length so far. -/
def freeChain (length : Nat) (lsn : Revision) (next : Option PageId × List PageId × Nat × Nat → Prog Nat) :
    Option PageId × List PageId × Nat × Nat → Prog Nat
  | (none, _, _, total) => pure total
  | (some current, visited, count, total) => do
    check (current ∉ visited ∧ count < maxOverflowPages) (.corruption "overflow chain is cyclic or too long")
    match ← page current with
    | .overflow _ link pageTotal chunk =>
      check (pageTotal = length) (.corruption "overflow length metadata disagrees with leaf")
      let total ← ofExcept (addOr (.corruption "overflow length overflows") total chunk.length)
      freePage current lsn
      next (link, current :: visited, count + 1, total)
    | _ => raise (.corruption "value reference points to a non-overflow page")

def readChain (length : Nat) (next : Option PageId × List PageId × Nat × Bytes → Prog Bytes) :
    Option PageId × List PageId × Nat × Bytes → Prog Bytes
  | (none, _, _, output) => pure output
  | (some current, visited, count, output) => do
    check (current ∉ visited ∧ count < maxOverflowPages) (.corruption "overflow chain is cyclic or too long")
    match ← page current with
    | .overflow _ link totalLength chunk =>
      check (totalLength = length) (.corruption "overflow length metadata disagrees with leaf")
      next (link, current :: visited, count + 1, output ++ chunk)
    | _ => raise (.corruption "value reference points to a non-overflow page")

def queryLeaves (pk : PrimaryKey) (exclusiveAfterSk : Option SortKey) (cursor : Option Bytes) (limit : Nat)
    (next : PageId × List PageId × RowState → Prog RowState) : PageId × List PageId × RowState → Prog RowState
  | (leafId, visited, s) => do
    if limit ≤ s.rows.length then pure s
    else
      check (leafId ∉ visited) (.corruption "leaf chain contains a cycle during query")
      let leaf ← leaf leafId
      let s ← queryEntries pk exclusiveAfterSk cursor limit leaf.entries s
      if s.finished then pure s
      else
        match leaf.nextLeaf with
        | none => pure s
        | some link => next (link, leafId :: visited, {s with first := false})

def scanLeaves (cursor : Option Bytes) (limit : Nat) (next : PageId × List PageId × RowState → Prog RowState) :
    PageId × List PageId × RowState → Prog RowState
  | (leafId, visited, s) => do
    check (leafId ∉ visited) (.corruption "leaf chain contains a cycle during scan")
    let leaf ← leaf leafId
    let s ← scanEntries cursor limit leaf.entries s
    if s.finished then pure s
    else
      match leaf.nextLeaf with
      | none => pure s
      | some link => next (link, leafId :: visited, s)

def collectPages (highWater : PageId)
    (next : List PageId × SortedMap PageId PageData → Prog (SortedMap PageId PageData)) :
    List PageId × SortedMap PageId PageData → Prog (SortedMap PageId PageData)
  | ([], pages) => pure pages
  | (pageId :: pending, pages) => do
    check (firstDataPage ≤ pageId ∧ pageId ≤ highWater)
      (.corruption "committed read view contains an out-of-range page")
    if (pages.get? pageId).isSome then next (pending, pages)
    else
      let page ← readPage pageId
      next (page.references.reverse ++ pending, pages.insert pageId page)

/-- A round of the checker's `check_overflow`. -/
def checkOverflow (highWater : PageId) (length : Nat) (next : Option PageId × List PageId × Nat × Nat → CheckProg Nat) :
    Option PageId × List PageId × Nat × Nat → CheckProg Nat
  | (none, _, _, total) => pure total
  | (some current, visited, count, total) => do
    check (count < maxOverflowPages ∧ current ∉ visited) (.corruption "overflow chain is cyclic or too long")
    Checker.reach current "overflow page is referenced more than once"
    match ← Checker.readPage highWater current with
    | .overflow _ link totalLength chunk =>
      check (totalLength = length) (.corruption "overflow page length disagrees with leaf")
      let total ← ofExcept (addOr (.corruption "overflow content length overflows") total chunk.length)
      next (link, current :: visited, count + 1, total)
    | _ => raise (.corruption "overflow chain reaches a non-overflow page")

/-- A call of the checker's `visit_tree`. -/
def visitTree (highWater : PageId) (visit : PageId × Option Bytes × Option Bytes → CheckProg KeyBounds) :
    PageId × Option Bytes × Option Bytes → CheckProg KeyBounds
  | (pageId, lower, upper) => do
    Checker.reach pageId "tree page is reachable more than once"
    match ← Checker.readPage highWater pageId with
    | .leaf _ _ entries =>
      Checker.visitEntries highWater lower upper entries
      modify fun s => {s with leaves := s.leaves ++ [pageId]}
      pure (entries.head?.map LeafEntry.key, entries.getLast?.map LeafEntry.key)
    | .internal _ leftmostChild entries =>
      check (entries ≠ []) (.corruption "internal page has no separators")
      let bounds ← Checker.visitAll (fun child lower upper => visit (child, lower, upper))
        (Checker.children lower upper leftmostChild entries)
      Checker.checkSeparators entries bounds
      pure (bounds.findSome? Prod.fst, bounds.reverse.findSome? Prod.snd)
    | _ => raise (.corruption "tree reaches a non-tree page")

def checkerLeftmostLeaf (highWater : PageId) (next : PageId × List PageId → CheckProg PageId) :
    PageId × List PageId → CheckProg PageId
  | (root, visited) => do
    check (root ∉ visited) (.corruption "tree contains a cycle while finding leftmost leaf")
    match ← Checker.readPage highWater root with
    | .leaf .. => pure root
    | .internal _ leftmostChild _ => next (leftmostChild, root :: visited)
    | _ => raise (.corruption "tree reaches a non-tree page")

def leafChain (highWater : PageId) (reachable : List PageId)
    (next : Option PageId × List PageId × Option Bytes → CheckProg (List PageId)) :
    Option PageId × List PageId × Option Bytes → CheckProg (List PageId)
  | (none, _, _) => pure []
  | (some pageId, visited, previous) => do
    check (pageId ∉ visited) (.corruption "leaf chain contains a cycle")
    check (pageId ∈ reachable) (.corruption "leaf chain points outside the tree")
    match ← Checker.readPage highWater pageId with
    | .leaf _ nextLeaf entries =>
      let previous ← Checker.checkOrder previous entries
      let chain ← next (nextLeaf, pageId :: visited, previous)
      pure (pageId :: chain)
    | _ => raise (.corruption "leaf chain points to a non-leaf page")

def freeList (highWater : PageId) (reachable : List PageId)
    (next : Option PageId × List PageId → CheckProg (List PageId)) :
    Option PageId × List PageId → CheckProg (List PageId)
  | (none, freePages) => pure freePages
  | (some pageId, freePages) => do
    check (firstDataPage ≤ pageId ∧ pageId ≤ highWater)
      (.corruption s!"page id {pageId} is outside checker bounds")
    check (pageId ∉ freePages) (.corruption "free-page list contains a cycle")
    check (pageId ∉ reachable) (.corruption "a page is both reachable and free")
    match ← Checker.readPage highWater pageId with
    | .free _ link => next (link, pageId :: freePages)
    | _ => raise (.corruption "free-list entry is not a free page")

end Loop

/-! ### The functions around them -/

/-- What would come after the rounds of a loop with state `χ`. -/
abbrev Rest (χ α : Type) := χ → Prog α
abbrev CheckRest (χ α : Type) := χ → CheckProg α

namespace Unbounded
variable (n : Nat)

def findLeaf (key : Bytes) (rest : Rest (PageId × List PageId) (PageId × List PageId)) :
    Prog (PageId × List PageId) := do
  let a ← get
  unroll (Loop.findLeaf key) rest n (a.rootPageId, [])

def leftmostLeaf (rest : Rest (PageId × List PageId) PageId) : Prog PageId := do
  let a ← get
  unroll Loop.leftmostLeaf rest n (a.rootPageId, [])

def freeValue (value : Option ValueRef) (lsn : Revision) (rest : Rest (Option PageId × List PageId × Nat × Nat) Nat) :
    Prog Unit := do
  match value with
  | some (.overflow head length) =>
    let total ← unroll (Loop.freeChain length lsn) rest n (some head, [], 0, 0)
    check (total = length ∧ length ≠ 0) (.corruption "overflow chain content length is invalid")
  | _ => pure ()

def readValue (value : ValueRef) (rest : Rest (Option PageId × List PageId × Nat × Bytes) Bytes) : Prog Bytes := do
  match value with
  | .inline value => pure value
  | .overflow head length =>
    let output ← unroll (Loop.readChain length) rest n (some head, [], 0, [])
    check (output.length = length) (.corruption "overflow content length is invalid")
    pure output

def query (pk : PrimaryKey) (exclusiveAfterSk : Option SortKey) (limit : Nat) (budget : ResponseBudget)
    (rest : Rest (PageId × List PageId) (PageId × List PageId) × Rest (PageId × List PageId × RowState) RowState) :
    Prog (List Document × ResponseBudget) := do
  if limit = 0 then pure ([], budget)
  else
    let startKey := DocumentKey.encode ⟨pk, []⟩
    ofExcept (validateEncodedKey startKey)
    let (leafId, _) ← findLeaf n startKey rest.1
    let cursor := exclusiveAfterSk.map fun sk => DocumentKey.encode ⟨pk, sk⟩
    match cursor with
    | some cursor => ofExcept (validateEncodedKey cursor)
    | none => pure ()
    let s ← unroll (Loop.queryLeaves pk exclusiveAfterSk cursor limit) rest.2 n (leafId, [], ⟨false, true, budget, []⟩)
    pure (s.rows, s.budget)

def scan (cursor : Option DocumentKey) (limit : Nat) (budget : ResponseBudget)
    (rest : Rest (PageId × List PageId) (PageId × List PageId) × Rest (PageId × List PageId) PageId ×
      Rest (PageId × List PageId × RowState) RowState) : Prog (List Document × ResponseBudget) := do
  if limit = 0 then pure ([], budget)
  else
    let leafId ← match cursor with
      | some key => do
        ofExcept (validateEncodedKey key.encode)
        let (leafId, _) ← findLeaf n key.encode rest.1
        pure leafId
      | none => leftmostLeaf n rest.2.1
    let s ← unroll (Loop.scanLeaves (cursor.map DocumentKey.encode) limit) rest.2.2 n
      (leafId, [], ⟨false, true, budget, []⟩)
    pure (s.rows, s.budget)

/-- The pages of `CommittedReadView::from_store`. -/
def collectPages (rest : Rest (List PageId × SortedMap PageId PageData) (SortedMap PageId PageData)) :
    Prog (SortedMap PageId PageData) := do
  let a ← get
  unroll (Loop.collectPages a.highWaterPageId) rest n ([a.rootPageId], .empty)

def checkTree (root : PageId) (freeHead : Option PageId) (highWater : PageId)
    (rest : CheckRest (PageId × Option Bytes × Option Bytes) KeyBounds × CheckRest (PageId × List PageId) PageId ×
      CheckRest (Option PageId × List PageId × Option Bytes) (List PageId) ×
      CheckRest (Option PageId × List PageId) (List PageId)) : CheckProg InvariantReport := do
  let _ ← unroll (Loop.visitTree highWater) rest.1 n (root, none, none)
  let leftmost ← unroll (Loop.checkerLeftmostLeaf highWater) rest.2.1 n (root, [])
  let s ← get
  let chain ← unroll (Loop.leafChain highWater s.reachable) rest.2.2.1 n (some leftmost, [], none)
  check (chain = s.leaves) (.corruption "leaf chain is not connected in tree order")
  let freePages ← unroll (Loop.freeList highWater s.reachable) rest.2.2.2 n (freeHead, [])
  let leaked := (List.range' firstDataPage (highWater + 1 - firstDataPage)).filter fun pageId =>
    pageId ∉ s.reachable ∧ pageId ∉ freePages
  pure ⟨s.reachable.length, freePages.length, leaked, s.maxRevision⟩

end Unbounded

/-! ### Pages yet to visit -/

/-- The data pages that a walk has not visited yet. -/
def unvisited (highWater : PageId) (visited : List PageId) : Finset PageId :=
  (Finset.Icc firstDataPage highWater).filter (· ∉ visited)

theorem card_unvisited_le (highWater : PageId) (visited : List PageId) : (unvisited highWater visited).card ≤ highWater := by
  refine (Finset.card_filter_le ..).trans ?_
  rw [Nat.card_Icc, firstDataPage]
  omega

theorem card_unvisited_lt {highWater p : PageId} {visited visited' : List PageId}
    (hrange : firstDataPage ≤ p ∧ p ≤ highWater) (hp : p ∉ visited) (hp' : p ∈ visited')
    (hsub : ∀ q ∈ visited, q ∈ visited') : (unvisited highWater visited').card < (unvisited highWater visited).card := by
  apply Finset.card_lt_card
  rw [Finset.ssubset_iff_of_subset]
  · refine ⟨p, ?_, ?_⟩
    · exact Finset.mem_filter.mpr ⟨Finset.mem_Icc.mpr hrange, hp⟩
    · exact fun hmem => (Finset.mem_filter.mp hmem).2 hp'
  · intro q hq
    obtain ⟨hmem, hnot⟩ := Finset.mem_filter.mp hq
    exact Finset.mem_filter.mpr ⟨hmem, fun h => hnot (hsub q h)⟩

theorem card_unvisited_cons {highWater p : PageId} {visited : List PageId}
    (hrange : firstDataPage ≤ p ∧ p ≤ highWater) (hp : p ∉ visited) :
    (unvisited highWater (p :: visited)).card < (unvisited highWater visited).card :=
  card_unvisited_lt hrange hp List.mem_cons_self fun _ => List.mem_cons_of_mem _

/-! ### Reading one page -/

section Page
variable {s t : TreeStage} {p : PageId}

theorem page_eq_ok {pg : PageData} (h : exec (page p) s = .ok pg t) :
    (firstDataPage ≤ p ∧ p ≤ s.state.highWaterPageId) ∧ s.view p = .ok pg ∧ t = s := by
  rw [page, exec_bind_ok (exec_get s)] at h
  obtain ⟨hrange, hread⟩ := exec_check_bind h
  exact ⟨hrange, exec_readPage_eq_ok hread⟩

theorem leaf_eq_ok {l : LeafPage} (h : exec (leaf p) s = .ok l t) :
    (firstDataPage ≤ p ∧ p ≤ s.state.highWaterPageId) ∧ (∃ lsn, s.view p = .ok (.leaf lsn l.nextLeaf l.entries)) ∧
      t = s := by
  obtain ⟨pg, s₁, hpage, h⟩ := exec_bind_eq_ok h
  obtain ⟨hrange, hview, rfl⟩ := page_eq_ok hpage
  cases pg with
  | leaf lsn nextLeaf entries =>
    cases h
    exact ⟨hrange, ⟨lsn, hview⟩, rfl⟩
  | internal | overflow | free => cases h

theorem reads_page (p : PageId) (s : TreeStage) :
    reads (page p) s = if firstDataPage ≤ p ∧ p ≤ s.state.highWaterPageId then [p] else [] := by
  rw [page, reads_bind_ok (exec_get s), reads_get, List.nil_append]
  split
  · rename_i hrange
    rw [reads_bind_ok (exec_check_pos s hrange _), reads_check, reads_readPage]
    rfl
  · rename_i hrange
    rw [reads_bind_err (exec_check_neg s hrange _), reads_check]

theorem reads_leaf (p : PageId) (s : TreeStage) : reads (leaf p) s = reads (page p) s := by
  rw [leaf, reads_bind]
  cases exec (page p) s with
  | ok pg t => cases pg <;> exact List.append_nil _
  | err | halt => exact List.append_nil _

theorem sameRun_page {α : Type} {f f' : PageData → Prog α}
    (h : ∀ pg, firstDataPage ≤ p ∧ p ≤ s.state.highWaterPageId → s.view p = .ok pg → SameRun (f pg) (f' pg) s) :
    SameRun (page p >>= f) (page p >>= f') s := by
  refine .after _ fun pg t hpage => ?_
  obtain ⟨hrange, hview, rfl⟩ := page_eq_ok hpage
  exact h pg hrange hview

theorem unseen_page {α : Type} {seen : List PageId} {f : PageData → Prog α} (hp : p ∉ seen)
    (h : ∀ pg, Unseen (p :: seen) (reads (f pg) s)) : Unseen seen (reads (page p >>= f) s) := by
  show Unseen seen (reads ((check (firstDataPage ≤ p ∧ p ≤ s.state.highWaterPageId) _ >>= fun _ => readPage p) >>= f) s)
  rw [bind_assoc]
  exact .bind_check fun _ => .bind_readPage hp h

end Page

/-! ### Searching -/

section Search
variable {s : TreeStage} {highWater : PageId}

/-- A search visits a page once: what comes after a page has it among the pages of the route. -/
theorem findLeaf_round (key : Bytes) : Decreases (fun x => (unvisited highWater x.2).card)
    (fun t => t.state.highWaterPageId = highWater) (Loop.findLeaf key) := by
  rintro next next' ⟨pageId, route⟩ s hs hnext
  unfold Loop.findLeaf
  refine SameRun.check fun hroute => sameRun_page fun pg hrange _ => ?_
  rw [hs] at hrange
  cases pg with
  | internal lsn leftmostChild entries =>
    apply hnext _ s hs
    apply card_unvisited_lt hrange hroute
    · exact List.mem_append_right _ (List.mem_singleton_self _)
    · exact fun q hq => List.mem_append_left _ hq
  | leaf | overflow | free => exact .refl ..

theorem findLeaf_unbounded (key : Bytes) (s : TreeStage)
    (rest : Rest (PageId × List PageId) (PageId × List PageId)) :
    SameRun (Unbounded.findLeaf (s.state.highWaterPageId + 1) key rest) (findLeaf key) s := by
  refine SameRun.after _ fun a t hget => ?_
  cases hget
  exact (findLeaf_round key).bounded (f := fun n x => findLeafFrom key n x.1 x.2) (fun _ _ => rfl) rfl
    (Nat.lt_succ_of_le (card_unvisited_le ..)) rest

theorem findLeafFrom_unseen (key : Bytes) (bound : Nat) (pageId : PageId) (route : List PageId) :
    Unseen route (reads (findLeafFrom key bound pageId route) s) := by
  induction bound generalizing pageId route with
  | zero => exact .nil _
  | succ bound ih =>
    refine Unseen.bind_check fun hroute => unseen_page hroute fun pg => ?_
    cases pg with
    | internal lsn leftmostChild entries =>
      refine (ih (childFor key leftmostChild entries) (route ++ [pageId])).anti fun q hq => ?_
      rw [List.mem_append, List.mem_singleton]
      exact (List.mem_cons.mp hq).symm
    | leaf | overflow | free => exact .nil _

theorem visits_findLeaf (key : Bytes) (s : TreeStage) : Visits 1 (findLeaf key) s :=
  .after rfl fun _ _ _ => (findLeafFrom_unseen ..).count_le

theorem leftmostLeaf_round : Decreases (fun x => (unvisited highWater x.2).card)
    (fun t => t.state.highWaterPageId = highWater) Loop.leftmostLeaf := by
  rintro next next' ⟨pageId, visited⟩ s hs hnext
  unfold Loop.leftmostLeaf
  refine SameRun.check fun hvisited => sameRun_page fun pg hrange _ => ?_
  rw [hs] at hrange
  cases pg with
  | internal lsn leftmostChild entries => exact hnext _ s hs (card_unvisited_cons hrange hvisited)
  | leaf | overflow | free => exact .refl ..

theorem leftmostLeaf_unbounded (s : TreeStage) (rest : Rest (PageId × List PageId) PageId) :
    SameRun (Unbounded.leftmostLeaf (s.state.highWaterPageId + 1) rest) leftmostLeaf s := by
  refine SameRun.after _ fun a t hget => ?_
  cases hget
  exact leftmostLeaf_round.bounded (f := fun n x => leftmostLeafFrom n x.1 x.2) (fun _ _ => rfl) rfl
    (Nat.lt_succ_of_le (card_unvisited_le ..)) rest

theorem leftmostLeafFrom_unseen (bound : Nat) (pageId : PageId) (visited : List PageId) :
    Unseen visited (reads (leftmostLeafFrom bound pageId visited) s) := by
  induction bound generalizing pageId visited with
  | zero => exact .nil _
  | succ bound ih =>
    refine Unseen.bind_check fun hvisited => unseen_page hvisited fun pg => ?_
    cases pg with
    | internal lsn leftmostChild entries => exact ih _ _
    | leaf | overflow | free => exact .nil _

theorem visits_leftmostLeaf (s : TreeStage) : Visits 1 leftmostLeaf s :=
  .after rfl fun _ _ _ => (leftmostLeafFrom_unseen ..).count_le

end Search

/-! ### Values

The chains of the source count their pages, so here the rounds are the walk itself, whatever the pages are. -/

section Chains
variable {s : TreeStage} {length remaining : Nat} {link : Option PageId} {visited : List PageId}

theorem readChain_rounds (hle : remaining ≤ maxOverflowPages) (output : Bytes)
    (rest : Rest (Option PageId × List PageId × Nat × Bytes) Bytes) :
    unroll (Loop.readChain length) rest (remaining + 1) (link, visited, maxOverflowPages - remaining, output) =
      readChain length remaining link visited output := by
  induction remaining generalizing link visited output with
  | zero =>
    cases link with
    | none => rfl
    | some current => exact check_bind_neg (fun h => absurd h.2 (by omega)) _ _
  | succ remaining ih =>
    cases link with
    | none => rfl
    | some current =>
      have hcount : maxOverflowPages - (remaining + 1) + 1 = maxOverflowPages - remaining := by omega
      have hcheck : (current ∉ visited ∧ maxOverflowPages - (remaining + 1) < maxOverflowPages) ↔ current ∉ visited :=
        and_iff_left (by omega)
      rw [unroll, Loop.readChain, readChain, check_congr hcheck]
      refine bind_congr fun _ => bind_congr fun pg => ?_
      cases pg with
      | overflow lsn link totalLength chunk =>
        refine bind_congr fun _ => ?_
        rw [hcount]
        exact ih (by omega) _
      | leaf | internal | free => rfl

theorem freeChain_rounds (lsn : Revision) (hle : remaining ≤ maxOverflowPages) (total : Nat)
    (rest : Rest (Option PageId × List PageId × Nat × Nat) Nat) :
    unroll (Loop.freeChain length lsn) rest (remaining + 1) (link, visited, maxOverflowPages - remaining, total) =
      freeChain length lsn remaining link visited total := by
  induction remaining generalizing link visited total with
  | zero =>
    cases link with
    | none => rfl
    | some current => exact check_bind_neg (fun h => absurd h.2 (by omega)) _ _
  | succ remaining ih =>
    cases link with
    | none => rfl
    | some current =>
      have hcount : maxOverflowPages - (remaining + 1) + 1 = maxOverflowPages - remaining := by omega
      have hcheck : (current ∉ visited ∧ maxOverflowPages - (remaining + 1) < maxOverflowPages) ↔ current ∉ visited :=
        and_iff_left (by omega)
      rw [unroll, Loop.freeChain, freeChain, check_congr hcheck]
      refine bind_congr fun _ => bind_congr fun pg => ?_
      cases pg with
      | overflow lsn link totalLength chunk =>
        refine bind_congr fun _ => bind_congr fun total => bind_congr fun _ => ?_
        rw [hcount]
        exact ih (by omega) _
      | leaf | internal | free => rfl

theorem readChain_unseen (output : Bytes) : Unseen visited (reads (readChain length remaining link visited output) s) := by
  induction remaining generalizing link visited output with
  | zero => cases link <;> exact .nil _
  | succ remaining ih =>
    cases link with
    | none => exact .nil _
    | some current =>
      refine Unseen.bind_check fun hvisited => unseen_page hvisited fun pg => ?_
      cases pg with
      | overflow lsn link totalLength chunk => exact Unseen.bind_check fun _ => ih _
      | leaf | internal | free => exact .nil _

/-- Freeing a page changes it, but the walk does not come back to it. -/
theorem freeChain_unseen (lsn : Revision) (total : Nat) :
    Unseen visited (reads (freeChain length lsn remaining link visited total) s) := by
  induction remaining generalizing link visited total s with
  | zero => cases link <;> exact .nil _
  | succ remaining ih =>
    cases link with
    | none => exact .nil _
    | some current =>
      refine Unseen.bind_check fun hvisited => unseen_page hvisited fun pg => ?_
      cases pg with
      | overflow lsn link totalLength chunk =>
        exact Unseen.bind_check fun _ => .after (reads_ofExcept ..) fun _ _ _ => ih _
      | leaf | internal | free => exact .nil _

theorem readValue_unbounded (value : ValueRef) (rest : Rest (Option PageId × List PageId × Nat × Bytes) Bytes) :
    Unbounded.readValue (maxOverflowPages + 1) value rest = readValue value := by
  cases value with
  | inline bytes => rfl
  | overflow head length => exact congrArg (· >>= _) (readChain_rounds le_rfl [] rest)

theorem freeValue_unbounded (value : Option ValueRef) (lsn : Revision)
    (rest : Rest (Option PageId × List PageId × Nat × Nat) Nat) :
    Unbounded.freeValue (maxOverflowPages + 1) value lsn rest = freeValue value lsn := by
  obtain _ | value := value
  · rfl
  · cases value with
    | inline bytes => rfl
    | overflow head length => exact congrArg (· >>= _) (freeChain_rounds lsn le_rfl 0 rest)

theorem visits_readValue (value : ValueRef) (s : TreeStage) : Visits 1 (readValue value) s := by
  cases value with
  | inline bytes => exact .of_nil rfl
  | overflow head length =>
    refine Visits.bind (k := 1) (l := 0) (readChain_unseen _).count_le fun output t _ => ?_
    exact .after (reads_check ..) fun _ _ _ => .of_nil rfl

theorem visits_freeValue (value : Option ValueRef) (lsn : Revision) (s : TreeStage) :
    Visits 1 (freeValue value lsn) s := by
  obtain _ | value := value
  · exact .of_nil rfl
  · cases value with
    | inline bytes => exact .of_nil rfl
    | overflow head length =>
      exact Visits.bind (k := 1) (l := 0) (freeChain_unseen lsn _).count_le fun _ _ _ => .of_nil (reads_check ..)

end Chains

/-! ### Rows -/

section Rows
variable {s : TreeStage} {highWater : PageId} {limit : Nat} {cursor : Option Bytes}
  {pk : PrimaryKey} {exclusiveAfterSk : Option SortKey}

theorem visits_pushRow (key : DocumentKey) (entry : LeafEntry) (r : RowState) : Visits 1 (pushRow limit key entry r) s := by
  unfold pushRow
  cases entry.value with
  | none => exact .of_nil rfl
  | some value =>
    refine Visits.after (reads_ofExcept ..) fun _ t _ => ?_
    exact Visits.bind (k := 1) (l := 0) (visits_readValue value t) fun _ _ _ => .of_nil rfl

theorem visits_queryEntries (entries : List LeafEntry) (r : RowState) (s : TreeStage) :
    Visits entries.length (queryEntries pk exclusiveAfterSk cursor limit entries r) s := by
  induction entries generalizing r s with
  | nil => exact .of_nil rfl
  | cons entry rest ih =>
    have hmore : ∀ r s, Visits (rest.length + 1) (queryEntries pk exclusiveAfterSk cursor limit rest r) s :=
      fun r s => (ih r s).mono (Nat.le_succ _)
    rw [queryEntries]
    split
    · exact hmore r s
    · refine .after (reads_ofExcept ..) fun documentKey t _ => ?_
      split
      · split
        · exact .of_nil rfl
        · exact hmore _ t
      · split
        · exact hmore _ t
        · rw [List.length_cons, Nat.add_comm]
          refine Visits.bind (visits_pushRow _ _ _) fun r' t' _ => ?_
          split
          · exact .of_nil rfl
          · exact ih r' t'

theorem visits_scanEntries (entries : List LeafEntry) (r : RowState) (s : TreeStage) :
    Visits entries.length (scanEntries cursor limit entries r) s := by
  induction entries generalizing r s with
  | nil => exact .of_nil rfl
  | cons entry rest ih =>
    rw [scanEntries]
    split
    · exact (ih r s).mono (Nat.le_succ _)
    · refine .after (reads_ofExcept ..) fun documentKey t _ => ?_
      rw [List.length_cons, Nat.add_comm]
      refine Visits.bind (visits_pushRow _ _ _) fun r' t' _ => ?_
      split
      · exact .of_nil rfl
      · exact ih r' t'

theorem queryLeaves_round : Decreases (fun x => (unvisited highWater x.2.1).card)
    (fun t => t.state.highWaterPageId = highWater) (Loop.queryLeaves pk exclusiveAfterSk cursor limit) := by
  rintro next next' ⟨leafId, visited, r⟩ s hs hnext
  rw [Loop.queryLeaves, Loop.queryLeaves]
  by_cases hlimit : limit ≤ r.rows.length
  · rw [if_pos hlimit, if_pos hlimit]
    exact .refl ..
  · rw [if_neg hlimit, if_neg hlimit]
    refine SameRun.check fun hvisited => .after _ fun l t hleaf => ?_
    obtain ⟨hrange, _, rfl⟩ := leaf_eq_ok hleaf
    rw [hs] at hrange
    refine SameRun.after _ fun r' t hentries => ?_
    obtain rfl := (queryEntries_onData ..).stage_eq hentries
    split
    · exact .refl ..
    · cases l.nextLeaf with
      | none => exact .refl ..
      | some link => exact hnext _ t hs (card_unvisited_cons hrange hvisited)

theorem scanLeaves_round : Decreases (fun x => (unvisited highWater x.2.1).card)
    (fun t => t.state.highWaterPageId = highWater) (Loop.scanLeaves cursor limit) := by
  rintro next next' ⟨leafId, visited, r⟩ s hs hnext
  unfold Loop.scanLeaves
  refine SameRun.check fun hvisited => .after _ fun l t hleaf => ?_
  obtain ⟨hrange, _, rfl⟩ := leaf_eq_ok hleaf
  rw [hs] at hrange
  refine SameRun.after _ fun r' t hentries => ?_
  obtain rfl := (scanEntries_onData ..).stage_eq hentries
  split
  · exact .refl ..
  · cases l.nextLeaf with
    | none => exact .refl ..
    | some link => exact hnext _ t hs (card_unvisited_cons hrange hvisited)

theorem query_unbounded (budget : ResponseBudget) (s : TreeStage)
    (rest : Rest (PageId × List PageId) (PageId × List PageId) × Rest (PageId × List PageId × RowState) RowState) :
    SameRun (Unbounded.query (s.state.highWaterPageId + 1) pk exclusiveAfterSk limit budget rest)
      (query pk exclusiveAfterSk limit budget) s := by
  unfold Unbounded.query query
  split
  · exact .refl ..
  · refine SameRun.after _ fun _ t hvalid => ?_
    obtain rfl := (OnData.ofExcept _).stage_eq hvalid
    refine SameRun.bind (findLeaf_unbounded _ t rest.1) fun found t' hfound => ?_
    obtain rfl := (findLeaf_onData _).stage_eq hfound
    have hleaves : ∀ cursor r, SameRun
        (unroll (Loop.queryLeaves pk exclusiveAfterSk cursor limit) rest.2 (t'.state.highWaterPageId + 1) (found.1, [], r))
        (queryLeaves pk exclusiveAfterSk cursor limit (t'.state.highWaterPageId + 1) found.1 [] r) t' := by
      intro cursor r
      exact queryLeaves_round.bounded (f := fun n x => queryLeaves pk exclusiveAfterSk cursor limit n x.1 x.2.1 x.2.2)
        (fun _ _ => rfl) rfl (Nat.lt_succ_of_le (card_unvisited_le ..)) rest.2
    cases exclusiveAfterSk with
    | none => exact .get_right ((hleaves _ _).bind fun _ _ _ => .refl ..)
    | some sk =>
      refine SameRun.after _ fun _ t hcursor => ?_
      obtain rfl := (OnData.ofExcept _).stage_eq hcursor
      exact .get_right ((hleaves _ _).bind fun _ _ _ => .refl ..)

theorem scan_unbounded (cursor : Option DocumentKey) (budget : ResponseBudget) (s : TreeStage)
    (rest : Rest (PageId × List PageId) (PageId × List PageId) × Rest (PageId × List PageId) PageId ×
      Rest (PageId × List PageId × RowState) RowState) :
    SameRun (Unbounded.scan (s.state.highWaterPageId + 1) cursor limit budget rest) (scan cursor limit budget) s := by
  have hleaves : ∀ cursor leafId r, SameRun
      (unroll (Loop.scanLeaves cursor limit) rest.2.2 (s.state.highWaterPageId + 1) (leafId, [], r))
      (scanLeaves cursor limit (s.state.highWaterPageId + 1) leafId [] r) s := by
    intro cursor leafId r
    exact scanLeaves_round.bounded (f := fun n x => scanLeaves cursor limit n x.1 x.2.1 x.2.2)
      (fun _ _ => rfl) rfl (Nat.lt_succ_of_le (card_unvisited_le ..)) rest.2.2
  unfold Unbounded.scan scan
  split
  · exact .refl ..
  · cases cursor with
    | none =>
      refine SameRun.bind (leftmostLeaf_unbounded s rest.2.1) fun leafId t hfound => ?_
      obtain rfl := leftmostLeaf_onData.stage_eq hfound
      exact .get_right ((hleaves ..).bind fun _ _ _ => .refl ..)
    | some key =>
      refine SameRun.after _ fun _ t hvalid => ?_
      obtain rfl := (OnData.ofExcept _).stage_eq hvalid
      refine SameRun.bind (findLeaf_unbounded _ t rest.1) fun found t' hfound => ?_
      obtain rfl := (findLeaf_onData _).stage_eq hfound
      exact .get_right ((hleaves ..).bind fun _ _ _ => .refl ..)

/-- A leaf is on a page, and so has fewer entries than the page has bytes. -/
theorem length_entries_lt {lsn : Lsn} {nextLeaf : Option PageId} {entries : List LeafEntry}
    (h : (PageData.leaf lsn nextLeaf entries).Storable) : entries.length < pageSize := by
  have hused := ((leafFits_iff entries).mp h.2.2.1).2.2
  rw [leafUsed, RecordCodec.used_eq] at hused
  simp only [slottedHeaderSize, slotSize, bodySize, pageSize, pageHeaderSize] at hused ⊢
  omega

/-- How often a walk over leaves may still read page `i` as a leaf. -/
def leafVisits (visited : List PageId) (i : PageId) : Nat := if i ∈ visited then 0 else 1

theorem count_leaf_le {leafId : PageId} {visited : List PageId} (hvisited : leafId ∉ visited) (i : PageId) :
    (reads (leaf leafId) s).count i + leafVisits (leafId :: visited) i ≤ leafVisits visited i := by
  have hreads : (reads (leaf leafId) s).count i ≤ [leafId].count i := by
    rw [reads_leaf, reads_page]
    split
    · exact le_rfl
    · exact Nat.zero_le _
  by_cases hi : i = leafId
  · subst hi
    simpa [leafVisits, hvisited] using hreads
  · have hzero : (reads (leaf leafId) s).count i = 0 := by
      rw [List.count_singleton, if_neg (by simpa using Ne.symm hi)] at hreads
      exact Nat.le_zero.mp hreads
    simp [leafVisits, hi, hzero]

/-- A leaf that was not visited, its entries, and the leaves after it. -/
theorem count_leaves_le {α : Type} {leafId i : PageId} {visited : List PageId} {n : Nat} {f : LeafPage → Prog α}
    (hreadable : Readable s.view) (hvisited : leafId ∉ visited)
    (hf : ∀ l : LeafPage, (reads (f l) s).count i ≤ l.entries.length + (leafVisits (leafId :: visited) i + n)) :
    (reads (leaf leafId >>= f) s).count i ≤ leafVisits visited i + (n + pageSize) := by
  have hread := count_leaf_le hvisited i (s := s)
  refine (count_bind_le (k := (reads (leaf leafId) s).count i) (l := leafVisits (leafId :: visited) i + (n + pageSize))
    le_rfl fun l t hleaf => ?_).trans (by omega)
  obtain ⟨_, ⟨lsn, hview⟩, rfl⟩ := leaf_eq_ok hleaf
  have hlen := length_entries_lt (hreadable leafId _ hview)
  exact (hf l).trans (by omega)

theorem count_queryLeaves_le (hreadable : Readable s.view) (bound : Nat) (leafId : PageId) (visited : List PageId)
    (r : RowState) (i : PageId) :
    (reads (queryLeaves pk exclusiveAfterSk cursor limit bound leafId visited r) s).count i ≤
      leafVisits visited i + bound * pageSize := by
  induction bound generalizing leafId visited r with
  | zero => exact Nat.zero_le _
  | succ bound ih =>
    rw [queryLeaves, Nat.succ_mul]
    by_cases hlimit : limit ≤ r.rows.length
    · rw [if_pos hlimit]
      exact Nat.zero_le _
    · rw [if_neg hlimit]
      by_cases hvisited : leafId ∉ visited
      · rw [reads_bind_ok (exec_check_pos s hvisited _), reads_check, List.nil_append]
        refine count_leaves_le hreadable hvisited fun l => ?_
        refine count_bind_le (visits_queryEntries _ _ _ i) fun r' t hentries => ?_
        obtain rfl := (queryEntries_onData ..).stage_eq hentries
        split
        · exact Nat.zero_le _
        · cases l.nextLeaf with
          | none => exact Nat.zero_le _
          | some link => exact ih ..
      · rw [reads_bind_err (exec_check_neg s hvisited _), reads_check]
        exact Nat.zero_le _

theorem count_scanLeaves_le (hreadable : Readable s.view) (bound : Nat) (leafId : PageId) (visited : List PageId)
    (r : RowState) (i : PageId) :
    (reads (scanLeaves cursor limit bound leafId visited r) s).count i ≤ leafVisits visited i + bound * pageSize := by
  induction bound generalizing leafId visited r with
  | zero => exact Nat.zero_le _
  | succ bound ih =>
    rw [scanLeaves, Nat.succ_mul]
    by_cases hvisited : leafId ∉ visited
    · rw [reads_bind_ok (exec_check_pos s hvisited _), reads_check, List.nil_append]
      refine count_leaves_le hreadable hvisited fun l => ?_
      refine count_bind_le (visits_scanEntries _ _ _ i) fun r' t hentries => ?_
      obtain rfl := (scanEntries_onData ..).stage_eq hentries
      split
      · exact Nat.zero_le _
      · cases l.nextLeaf with
        | none => exact Nat.zero_le _
        | some link => exact ih ..
    · rw [reads_bind_err (exec_check_neg s hvisited _), reads_check]
      exact Nat.zero_le _

/-- How often a query or a scan may read one page: to find the first leaf, as a leaf, and for each entry. -/
def rowVisits (highWater : PageId) : Nat := 2 + (highWater + 1) * pageSize

theorem visits_query (hreadable : Readable s.view) (budget : ResponseBudget) :
    Visits (rowVisits s.state.highWaterPageId) (query pk exclusiveAfterSk limit budget) s := by
  have hrows : ∀ cursor leafId r, Visits (1 + (s.state.highWaterPageId + 1) * pageSize) (do
      let a ← MonadState.get
      let r ← queryLeaves pk exclusiveAfterSk cursor limit (a.highWaterPageId + 1) leafId [] r
      pure (r.rows, r.budget)) s := by
    intro cursor leafId r
    refine .after rfl fun a t hget => ?_
    cases hget
    exact Visits.bind (l := 0) (count_queryLeaves_le hreadable _ _ [] r) fun _ _ _ => .of_nil rfl
  unfold query
  split
  · exact .of_nil rfl
  · refine .after (reads_ofExcept ..) fun _ t hvalid => ?_
    obtain rfl := (OnData.ofExcept _).stage_eq hvalid
    rw [rowVisits, Nat.add_assoc 1 1]
    refine Visits.bind (visits_findLeaf _ t) fun found t' hfound => ?_
    obtain rfl := (findLeaf_onData _).stage_eq hfound
    cases exclusiveAfterSk with
    | none => exact hrows _ _ _
    | some sk =>
      refine .after (reads_ofExcept ..) fun _ t hcursor => ?_
      obtain rfl := (OnData.ofExcept _).stage_eq hcursor
      exact hrows _ _ _

theorem visits_scan (hreadable : Readable s.view) (cursor : Option DocumentKey) (budget : ResponseBudget) :
    Visits (rowVisits s.state.highWaterPageId) (scan cursor limit budget) s := by
  have hrows : ∀ cursor leafId r, Visits (1 + (s.state.highWaterPageId + 1) * pageSize) (do
      let a ← MonadState.get
      let r ← scanLeaves cursor limit (a.highWaterPageId + 1) leafId [] r
      pure (r.rows, r.budget)) s := by
    intro cursor leafId r
    refine .after rfl fun a t hget => ?_
    cases hget
    exact Visits.bind (l := 0) (count_scanLeaves_le hreadable _ _ [] r) fun _ _ _ => .of_nil rfl
  unfold scan
  split
  · exact .of_nil rfl
  · rw [rowVisits, Nat.add_assoc 1 1]
    cases cursor with
    | none =>
      refine Visits.bind (visits_leftmostLeaf s) fun leafId t hfound => ?_
      obtain rfl := leftmostLeaf_onData.stage_eq hfound
      exact hrows _ _ _
    | some key =>
      refine .after (reads_ofExcept ..) fun _ t hvalid => ?_
      obtain rfl := (OnData.ofExcept _).stage_eq hvalid
      refine Visits.bind (visits_findLeaf _ t) fun found t' hfound => ?_
      obtain rfl := (findLeaf_onData _).stage_eq hfound
      exact hrows _ _ _

end Rows

/-! ### Collecting the pages of a view -/

section Collect
variable {s : TreeStage} {highWater : PageId}

/-- A page refers to no more pages than it has bytes. -/
theorem length_references_le {page : PageData} (h : page.Storable) : page.references.length ≤ pageSize := by
  cases page with
  | leaf lsn nextLeaf entries =>
    have hlen := length_entries_lt h
    have hlink : nextLeaf.toList.length ≤ 1 := by cases nextLeaf <;> simp
    rw [PageData.references, List.length_append]
    exact (Nat.add_le_add hlink (List.length_filterMap_le ..)).trans (by omega)
  | internal lsn leftmostChild entries =>
    have hused := ((internalFits_iff leftmostChild entries).mp h.2.2.1).2.2.2
    rw [internalUsed, RecordCodec.used_eq] at hused
    rw [PageData.references, List.length_cons, List.length_map]
    simp only [slottedHeaderSize, slotSize, bodySize, pageSize, pageHeaderSize] at hused ⊢
    omega
  | overflow lsn next totalLength chunk =>
    have hlink : next.toList.length ≤ 1 := by cases next <;> simp
    exact hlink.trans (by decide)
  | free lsn next => exact Nat.zero_le _

/-- What is left to do: the numbers on the stack, and those that pages yet to collect can put there. -/
def toCollect (highWater : PageId) (pending : List PageId) (pages : SortedMap PageId PageData) : Nat :=
  pending.length + (unvisited highWater pages.keys).card * pageSize

theorem collectPages_rounds (hreadable : Readable s.view)
    (rest : Rest (List PageId × SortedMap PageId PageData) (SortedMap PageId PageData)) {bound : Nat}
    {pending : List PageId} {pages : SortedMap PageId PageData} (hbound : toCollect highWater pending pages ≤ bound) :
    SameRun (unroll (Loop.collectPages highWater) rest (bound + 1) (pending, pages))
      (collectPages highWater bound pending pages) s := by
  induction bound generalizing pending pages with
  | zero =>
    cases pending with
    | nil => exact .refl ..
    | cons pageId pending =>
      rw [toCollect, List.length_cons] at hbound
      omega
  | succ bound ih =>
    cases pending with
    | nil => exact .refl ..
    | cons pageId pending =>
      rw [toCollect, List.length_cons] at hbound
      rw [unroll, Loop.collectPages, collectPages]
      refine SameRun.check fun hrange => ?_
      by_cases hseen : (pages.get? pageId).isSome
      · rw [if_pos hseen, if_pos hseen]
        refine ih ?_
        rw [toCollect]
        omega
      · rw [if_neg hseen, if_neg hseen]
        refine SameRun.after _ fun page t hread => ?_
        obtain ⟨hview, rfl⟩ := exec_readPage_eq_ok hread
        refine ih ?_
        have hrefs := length_references_le (hreadable pageId page hview)
        have hless : (unvisited highWater (pages.insert pageId page).keys).card <
            (unvisited highWater pages.keys).card := by
          apply card_unvisited_lt hrange
          · rwa [SortedMap.mem_keys_iff]
          · exact SortedMap.mem_keys_insert.mpr (.inl rfl)
          · exact fun q hq => SortedMap.mem_keys_insert.mpr (.inr hq)
        have hmul := Nat.mul_le_mul_right pageSize hless
        rw [Nat.succ_mul] at hmul
        rw [toCollect, List.length_append, List.length_reverse]
        omega

theorem collectPages_unbounded (hreadable : Readable s.view)
    (rest : Rest (List PageId × SortedMap PageId PageData) (SortedMap PageId PageData)) :
    SameRun (Unbounded.collectPages (s.state.highWaterPageId * pageSize + 2) rest)
      (collectPages s.state.highWaterPageId (s.state.highWaterPageId * pageSize + 1) [s.state.rootPageId] .empty) s := by
  have hstart : toCollect s.state.highWaterPageId [s.state.rootPageId] .empty ≤ s.state.highWaterPageId * pageSize + 1 := by
    rw [toCollect, List.length_singleton, Nat.add_comm]
    exact Nat.succ_le_succ (Nat.mul_le_mul_right _ (card_unvisited_le ..))
  have hsame := collectPages_rounds hreadable rest hstart
  exact ⟨hsame.outcome, hsame.pages⟩

/-- A page is read when it is not among the collected ones, and then it is. -/
theorem collectPages_unseen (bound : Nat) (pending : List PageId) (pages : SortedMap PageId PageData) :
    Unseen pages.keys (reads (collectPages highWater bound pending pages) s) := by
  induction bound generalizing pending pages with
  | zero => cases pending <;> exact .nil _
  | succ bound ih =>
    cases pending with
    | nil => exact .nil _
    | cons pageId pending =>
      rw [collectPages]
      refine Unseen.bind_check fun _ => ?_
      by_cases hseen : (pages.get? pageId).isSome
      · rw [if_pos hseen]
        exact ih ..
      · rw [if_neg hseen]
        refine Unseen.bind_readPage (by rwa [SortedMap.mem_keys_iff]) fun page => (ih _ _).anti fun q hq => ?_
        exact SortedMap.mem_keys_insert.mpr (List.mem_cons.mp hq)

end Collect

/-! ### The checker's lists -/

section Checker
variable {s : CheckStage} {highWater : PageId}

theorem sameRun_checkerRead {α : Type} {p : PageId} {f f' : PageData → CheckProg α}
    (h : ∀ pg, firstDataPage ≤ p ∧ p ≤ highWater → SameRun (f pg) (f' pg) s) :
    SameRun (Checker.readPage highWater p >>= f) (Checker.readPage highWater p >>= f') s := by
  refine .after _ fun pg t hread => ?_
  obtain ⟨hrange, _, rfl⟩ := Checker.readPage_sound hread
  exact h pg hrange

theorem unseen_checkerRead {α : Type} {p : PageId} {seen : List PageId} {f : PageData → CheckProg α} (hp : p ∉ seen)
    (h : ∀ pg, Unseen (p :: seen) (reads (f pg) s)) : Unseen seen (reads (Checker.readPage highWater p >>= f) s) := by
  rw [Checker.readPage, bind_assoc]
  exact .bind_check fun _ => .bind_readPage hp h

theorem mem_reads_checkerRead {p i : PageId} (h : i ∈ reads (Checker.readPage highWater p) s) : i = p := by
  rw [Checker.readPage, reads_bind, reads_check, List.nil_append] at h
  cases hcheck : exec (check (firstDataPage ≤ p ∧ p ≤ highWater)
      (Error.corruption s!"page id {p} is outside checker bounds") : CheckProg Unit) s with
  | ok u t =>
    rw [hcheck] at h
    have hread : i ∈ reads (PageProg.readPage p) t := h
    rw [reads_readPage] at hread
    exact List.mem_singleton.mp hread
  | err | halt =>
    rw [hcheck] at h
    cases h

theorem checkerLeftmostLeaf_round : Decreases (fun x => (unvisited highWater x.2).card) (fun _ => True)
    (Loop.checkerLeftmostLeaf highWater) := by
  rintro next next' ⟨root, visited⟩ s - hnext
  unfold Loop.checkerLeftmostLeaf
  refine SameRun.check fun hvisited => sameRun_checkerRead fun pg hrange => ?_
  cases pg with
  | internal lsn leftmostChild entries => exact hnext _ s trivial (card_unvisited_cons hrange hvisited)
  | leaf | overflow | free => exact .refl ..

theorem checkerLeftmostLeaf_unseen (bound : Nat) (root : PageId) (visited : List PageId) :
    Unseen visited (reads (Checker.leftmostLeaf highWater bound root visited) s) := by
  induction bound generalizing root visited with
  | zero => exact .nil _
  | succ bound ih =>
    refine Unseen.bind_check fun hvisited => unseen_checkerRead hvisited fun pg => ?_
    cases pg with
    | internal lsn leftmostChild entries => exact ih ..
    | leaf | overflow | free => exact .nil _

theorem reads_checkOrder (previous : Option Bytes) (entries : List LeafEntry) (s : CheckStage) :
    reads (Checker.checkOrder previous entries) s = [] := by
  induction entries generalizing previous s with
  | nil => rfl
  | cons entry rest ih => exact reads_bind_nil s (reads_check ..) fun _ t => ih _ t

theorem checkOrder_readsOnly (previous : Option Bytes) (entries : List LeafEntry) :
    ReadsOnly False (fun _ => False) (Checker.checkOrder previous entries) := by
  induction entries generalizing previous with
  | nil => exact True.intro
  | cons entry rest ih => exact .bind (.ofExcept _) fun _ => ih _

theorem leafChain_round (reachable : List PageId) : Decreases (fun x => (unvisited highWater x.2.1).card)
    (fun _ => True) (Loop.leafChain highWater reachable) := by
  rintro next next' ⟨link, visited, previous⟩ s - hnext
  cases link with
  | none => exact .refl ..
  | some pageId =>
    unfold Loop.leafChain
    refine SameRun.check fun hvisited => .check fun _ => sameRun_checkerRead fun pg hrange => ?_
    cases pg with
    | leaf lsn nextLeaf entries =>
      refine SameRun.after _ fun previous t _ => ?_
      exact (hnext _ t trivial (card_unvisited_cons hrange hvisited)).bind fun _ _ _ => .refl ..
    | internal | overflow | free => exact .refl ..

theorem leafChain_unseen (reachable : List PageId) (bound : Nat) (link : Option PageId) (visited : List PageId)
    (previous : Option Bytes) : Unseen visited (reads (Checker.leafChain highWater reachable bound link visited previous) s) := by
  induction bound generalizing link visited previous with
  | zero => cases link <;> exact .nil _
  | succ bound ih =>
    cases link with
    | none => exact .nil _
    | some pageId =>
      refine Unseen.bind_check fun hvisited => .bind_check fun _ => unseen_checkerRead hvisited fun pg => ?_
      cases pg with
      | leaf lsn nextLeaf entries =>
        refine Unseen.after (reads_checkOrder ..) fun previous t horder => ?_
        obtain rfl := (checkOrder_readsOnly ..).stage_eq horder
        exact Unseen.before (ih ..) fun _ _ => rfl
      | internal | overflow | free => exact .nil _

theorem freeList_round (reachable : List PageId) : Decreases (fun x => (unvisited highWater x.2).card) (fun _ => True)
    (Loop.freeList highWater reachable) := by
  rintro next next' ⟨link, freePages⟩ s - hnext
  cases link with
  | none => exact .refl ..
  | some pageId =>
    unfold Loop.freeList
    refine SameRun.check fun hrange => .check fun hfree => .check fun _ => sameRun_checkerRead fun pg _ => ?_
    cases pg with
    | free lsn link => exact hnext _ s trivial (card_unvisited_cons hrange hfree)
    | leaf | internal | overflow => exact .refl ..

theorem freeList_unseen (reachable : List PageId) (bound : Nat) (link : Option PageId) (freePages : List PageId) :
    Unseen freePages (reads (Checker.freeList highWater reachable bound link freePages) s) := by
  induction bound generalizing link freePages with
  | zero => cases link <;> exact .nil _
  | succ bound ih =>
    cases link with
    | none => exact .nil _
    | some pageId =>
      refine Unseen.bind_check fun _ => .bind_check fun hfree => .bind_check fun _ =>
        unseen_checkerRead hfree fun pg => ?_
      cases pg with
      | free lsn link => exact ih ..
      | leaf | internal | overflow => exact .nil _

end Checker

/-! ### The checker's walk over the tree -/

section VisitTree
variable {s : CheckStage} {highWater : PageId}

/-- A walk leaves no more pages to visit than it found. -/
theorem Walked.card_le {s' : CheckStage} {pages leaves : List PageId} (h : Walked highWater s s' pages leaves) :
    (unvisited highWater s'.state.reachable).card ≤ (unvisited highWater s.state.reachable).card := by
  apply Finset.card_le_card
  intro q hq
  obtain ⟨hmem, hnot⟩ := Finset.mem_filter.mp hq
  refine Finset.mem_filter.mpr ⟨hmem, fun hseen => hnot ?_⟩
  rw [h.reachable]
  exact List.mem_append_right _ hseen

theorem Walked.readable {s' : CheckStage} {pages leaves : List PageId} (h : Walked highWater s s' pages leaves)
    (hreadable : Readable s.view) : Readable s'.view := by
  rw [h.view]
  exact hreadable

/-- The children are visited one after the other, each with the pages that those before it have reached. -/
theorem visitAll_rounds {n : Nat} {visit : PageId × Option Bytes × Option Bytes → CheckProg KeyBounds}
    (hvisit : ∀ x t, Readable t.view → (unvisited highWater t.state.reachable).card < n →
      SameRun (visit x) (Checker.visitTree highWater n x.1 x.2.1 x.2.2) t)
    (children : List (PageId × Option Bytes × Option Bytes)) (hreadable : Readable s.view)
    (hn : (unvisited highWater s.state.reachable).card < n) :
    SameRun (Checker.visitAll (fun child lower upper => visit (child, lower, upper)) children)
      (Checker.visitAll (Checker.visitTree highWater n) children) s := by
  induction children generalizing s with
  | nil => exact .refl ..
  | cons child rest ih =>
    obtain ⟨child, lower, upper⟩ := child
    refine SameRun.bind (hvisit (child, lower, upper) s hreadable hn) fun bounds t hchild => ?_
    obtain ⟨kid, _, ⟨_, hwalk⟩, _⟩ := Checker.visitTree_sound hreadable hchild
    refine SameRun.bind (ih (hwalk.readable hreadable) (hwalk.card_le.trans_lt hn)) fun _ _ _ => .refl ..

theorem visitTree_rounds (rest : CheckRest (PageId × Option Bytes × Option Bytes) KeyBounds) {n : Nat}
    {x : PageId × Option Bytes × Option Bytes} (hreadable : Readable s.view)
    (hn : (unvisited highWater s.state.reachable).card < n) :
    SameRun (unroll (Loop.visitTree highWater) rest n x) (Checker.visitTree highWater n x.1 x.2.1 x.2.2) s := by
  induction n generalizing x s with
  | zero => exact absurd hn (Nat.not_lt_zero _)
  | succ n ih =>
    obtain ⟨pageId, lower, upper⟩ := x
    refine SameRun.after _ fun _ s₁ hreach => .after _ fun pg s₂ hread => ?_
    obtain ⟨hwalk, _⟩ := Checker.reach_sound hreach hread
    cases pg with
    | internal lsn leftmostChild entries =>
      refine SameRun.check fun _ => ?_
      have hless : (unvisited highWater s₂.state.reachable).card < (unvisited highWater s.state.reachable).card := by
        rw [hwalk.reachable]
        exact card_unvisited_cons (hwalk.range pageId List.mem_cons_self)
          (hwalk.fresh pageId List.mem_cons_self)
      refine SameRun.bind (visitAll_rounds (fun x t hreadable hn => ih hreadable hn) _ (hwalk.readable hreadable)
        (by omega)) fun _ _ _ => .refl ..
    | leaf | overflow | free => exact .refl ..

/-- A page is reached, for the first time, and then read. -/
theorem marks_reach {α : Type} {p : PageId} {message : String} {f : PageData → CheckProg α}
    (hf : ∀ pg t, Marks TreeCheckState.reachable (f pg) t) :
    Marks TreeCheckState.reachable
      (Checker.reach p message >>= fun _ => Checker.readPage highWater p >>= f) s := by
  have hread : Marks TreeCheckState.reachable
      (Checker.reach p message >>= fun _ => Checker.readPage highWater p) s := by
    constructor
    · rw [Checker.reach, bind_assoc]
      refine Unseen.after rfl fun st t hget => ?_
      cases hget
      rw [bind_assoc]
      refine Unseen.bind_check fun hp => .after rfl fun _ t _ => ?_
      have : Unseen _ (reads (Checker.readPage highWater p >>= pure) t) := unseen_checkerRead hp fun _ => .nil _
      rwa [bind_pure] at this
    · intro pg t h i hi
      obtain ⟨_, s₁, hreach, hread⟩ := exec_bind_eq_ok h
      obtain ⟨hwalk, _⟩ := Checker.reach_sound hreach hread
      have hnone : reads (Checker.reach p message) s = [] :=
        reads_bind_nil s rfl fun _ t => reads_bind_nil t (reads_check ..) fun _ _ => rfl
      rw [reads_bind_ok hreach, hnone, List.nil_append] at hi
      rw [hwalk.reachable]
      rcases hi with hi | hi
      · exact List.mem_cons_of_mem _ hi
      · rw [mem_reads_checkerRead hi]
        exact List.mem_cons_self
  have := hread.bind fun pg t _ => hf pg t
  rwa [bind_assoc] at this

theorem marks_checkOverflowFrom (length remaining : Nat) (link : Option PageId) (visited : List PageId) (total : Nat)
    (s : CheckStage) :
    Marks TreeCheckState.reachable (Checker.checkOverflowFrom highWater length remaining link visited total) s := by
  induction remaining generalizing link visited total s with
  | zero =>
    cases link with
    | none => exact .pure _
    | some current => exact .raise _
  | succ remaining ih =>
    cases link with
    | none => exact .pure _
    | some current =>
      refine Marks.bind (.check ..) fun _ t _ => marks_reach fun pg t => ?_
      cases pg with
      | overflow lsn link totalLength chunk =>
        exact Marks.bind (.check ..) fun _ t _ => .bind (.ofExcept _) fun total t _ => ih ..
      | leaf | internal | free => exact .raise _

theorem marks_checkValue (value : Option ValueRef) (s : CheckStage) :
    Marks TreeCheckState.reachable (Checker.checkValue highWater value) s := by
  obtain _ | value := value
  · exact .pure _
  · cases value with
    | inline bytes => exact .check ..
    | overflow head length =>
      refine Marks.bind (.check ..) fun _ t _ => .bind (marks_checkOverflowFrom ..) fun total t _ => ?_
      exact .check ..

theorem marks_visitEntries (lower upper : Option Bytes) (entries : List LeafEntry) (s : CheckStage) :
    Marks TreeCheckState.reachable (Checker.visitEntries highWater lower upper entries) s := by
  induction entries generalizing s with
  | nil => exact .pure _
  | cons entry rest ih =>
    refine Marks.bind ?_ fun _ t _ => ih t
    refine Marks.bind (.check ..) fun _ t _ => .bind (.check ..) fun _ t _ => ?_
    refine Marks.bind (.of_quiet rfl fun _ _ h => by cases h; rfl) fun st t₁ hget => ?_
    refine Marks.bind (.check ..) fun _ t₂ hcheck => ?_
    cases hget
    obtain ⟨_, rfl⟩ := exec_check_eq_ok hcheck
    refine Marks.bind (.of_quiet rfl fun _ _ h => by cases h; rfl) fun _ t₃ _ => ?_
    exact marks_checkValue ..

theorem marks_checkSeparators (entries : List InternalEntry) (bounds : List KeyBounds) (s : CheckStage) :
    Marks TreeCheckState.reachable (Checker.checkSeparators entries bounds) s := by
  induction entries generalizing bounds s with
  | nil => exact .pure _
  | cons entry entries ih =>
    obtain _ | ⟨left, _ | ⟨right, bounds⟩⟩ := bounds
    · exact .pure _
    · exact .pure _
    · exact Marks.bind (.check ..) fun _ t _ => .bind (.check ..) fun _ t _ => ih ..

theorem marks_visitAll {visit : PageId → Option Bytes → Option Bytes → CheckProg KeyBounds}
    (hvisit : ∀ p lower upper t, Marks TreeCheckState.reachable (visit p lower upper) t)
    (children : List (PageId × Option Bytes × Option Bytes)) (s : CheckStage) :
    Marks TreeCheckState.reachable (Checker.visitAll visit children) s := by
  induction children generalizing s with
  | nil => exact .pure _
  | cons child rest ih =>
    exact Marks.bind (hvisit ..) fun _ t _ => .bind (ih t) fun _ _ _ => .pure _

theorem marks_visitTree (bound : Nat) (pageId : PageId) (lower upper : Option Bytes) (s : CheckStage) :
    Marks TreeCheckState.reachable (Checker.visitTree highWater bound pageId lower upper) s := by
  induction bound generalizing pageId lower upper s with
  | zero => exact .raise _
  | succ bound ih =>
    refine marks_reach fun pg t => ?_
    cases pg with
    | leaf lsn nextLeaf entries =>
      refine Marks.bind (marks_visitEntries ..) fun _ t _ => ?_
      exact Marks.bind (.of_quiet rfl fun _ _ h => by cases h; rfl) fun _ t _ => .pure _
    | internal lsn leftmostChild entries =>
      refine Marks.bind (.check ..) fun _ t _ => .bind (marks_visitAll ih ..) fun _ t _ => ?_
      exact Marks.bind (marks_checkSeparators ..) fun _ t _ => .pure _
    | overflow | free => exact .raise _

theorem checkOverflow_rounds {length remaining : Nat} {link : Option PageId} {visited : List PageId}
    (hle : remaining ≤ maxOverflowPages) (total : Nat)
    (rest : CheckRest (Option PageId × List PageId × Nat × Nat) Nat) :
    unroll (Loop.checkOverflow highWater length) rest (remaining + 1)
      (link, visited, maxOverflowPages - remaining, total) =
      Checker.checkOverflowFrom highWater length remaining link visited total := by
  induction remaining generalizing link visited total with
  | zero =>
    cases link with
    | none => rfl
    | some current => exact check_bind_neg (fun h => absurd h.1 (by omega)) _ _
  | succ remaining ih =>
    cases link with
    | none => rfl
    | some current =>
      have hcount : maxOverflowPages - (remaining + 1) + 1 = maxOverflowPages - remaining := by omega
      have hcheck : (maxOverflowPages - (remaining + 1) < maxOverflowPages ∧ current ∉ visited) ↔ current ∉ visited :=
        and_iff_right (by omega)
      rw [unroll, Loop.checkOverflow, Checker.checkOverflowFrom, check_congr hcheck]
      refine bind_congr fun _ => bind_congr fun _ => bind_congr fun pg => ?_
      cases pg with
      | overflow lsn link totalLength chunk =>
        refine bind_congr fun _ => bind_congr fun total => ?_
        rw [hcount]
        exact ih (by omega) _
      | leaf | internal | free => rfl

theorem checkTree_unbounded (hreadable : Readable s.view) (root : PageId) (freeHead : Option PageId)
    (rest : CheckRest (PageId × Option Bytes × Option Bytes) KeyBounds × CheckRest (PageId × List PageId) PageId ×
      CheckRest (Option PageId × List PageId × Option Bytes) (List PageId) ×
      CheckRest (Option PageId × List PageId) (List PageId)) :
    SameRun (Unbounded.checkTree (highWater + 1) root freeHead highWater rest) (checkTree root freeHead highWater) s := by
  refine SameRun.bind (visitTree_rounds rest.1 hreadable (Nat.lt_succ_of_le (card_unvisited_le ..))) fun _ t _ => ?_
  refine SameRun.bind ?_ fun leftmost t' _ => ?_
  · exact checkerLeftmostLeaf_round.bounded (f := fun n x => Checker.leftmostLeaf highWater n x.1 x.2) (fun _ _ => rfl)
      trivial (Nat.lt_succ_of_le (card_unvisited_le ..)) rest.2.1
  · refine SameRun.after _ fun st t hget => ?_
    unfold Checker.checkLeafChain
    rw [bind_assoc]
    refine SameRun.bind ?_ fun chain t _ => .after _ fun _ t _ => ?_
    · refine (leafChain_round _).bounded (f := fun n x => Checker.leafChain highWater st.reachable n x.1 x.2.1 x.2.2)
        (fun n x => ?_) trivial (Nat.lt_succ_of_le (card_unvisited_le ..)) rest.2.2.1
      obtain ⟨_ | link, visited, previous⟩ := x <;> rfl
    · refine SameRun.bind ?_ fun _ _ _ => .refl ..
      refine (freeList_round _).bounded (f := fun n x => Checker.freeList highWater st.reachable n x.1 x.2)
        (fun n x => ?_) trivial (Nat.lt_succ_of_le (card_unvisited_le ..)) rest.2.2.2
      obtain ⟨_ | link, freePages⟩ := x <;> rfl

theorem visits_checkTree (root : PageId) (freeHead : Option PageId) (s : CheckStage) :
    Visits 4 (checkTree root freeHead highWater) s := by
  refine Visits.bind (k := 1) (l := 3) (marks_visitTree ..).unseen.count_le fun _ t _ => ?_
  refine Visits.bind (k := 1) (l := 2) (checkerLeftmostLeaf_unseen ..).count_le fun leftmost t _ => ?_
  refine Visits.after rfl fun st t _ => ?_
  refine Visits.bind (k := 1) (l := 1) ?_ fun _ t _ => ?_
  · exact Visits.bind (k := 1) (l := 0) (leafChain_unseen ..).count_le fun _ _ _ => .of_nil (reads_check ..)
  · exact Visits.bind (k := 1) (l := 0) (freeList_unseen ..).count_le fun _ _ _ => .of_nil rfl

end VisitTree

/-! ### All of them -/

/-- Every walk of the source over these pages ends, and visits no page more often than it says. The rounds that are
enough are one for each page up to the high-water mark and one more; the chains of a value count their own pages; and
the read view takes from its stack every reference of every page. -/
structure WalksEnd (s : TreeStage) : Prop where
  findLeaf (key : Bytes) :
    Terminates 1 (Unbounded.findLeaf (s.state.highWaterPageId + 1) key) (findLeaf key) s
  leftmostLeaf : Terminates 1 (Unbounded.leftmostLeaf (s.state.highWaterPageId + 1)) leftmostLeaf s
  query (pk : PrimaryKey) (exclusiveAfterSk : Option SortKey) (limit : Nat) (budget : ResponseBudget) :
    Terminates (rowVisits s.state.highWaterPageId)
      (Unbounded.query (s.state.highWaterPageId + 1) pk exclusiveAfterSk limit budget)
      (query pk exclusiveAfterSk limit budget) s
  scan (cursor : Option DocumentKey) (limit : Nat) (budget : ResponseBudget) :
    Terminates (rowVisits s.state.highWaterPageId)
      (Unbounded.scan (s.state.highWaterPageId + 1) cursor limit budget) (scan cursor limit budget) s
  readValue (value : ValueRef) :
    Terminates 1 (Unbounded.readValue (maxOverflowPages + 1) value) (readValue value) s
  freeValue (value : Option ValueRef) (lsn : Revision) :
    Terminates 1 (Unbounded.freeValue (maxOverflowPages + 1) value lsn) (freeValue value lsn) s
  fromStore : Terminates 1 (Unbounded.collectPages (s.state.highWaterPageId * pageSize + 2))
    (collectPages s.state.highWaterPageId (s.state.highWaterPageId * pageSize + 1) [s.state.rootPageId] .empty) s
  check (root : PageId) (freeHead : Option PageId) :
    Terminates 4 (Unbounded.checkTree (s.state.highWaterPageId + 1) root freeHead s.state.highWaterPageId)
      (checkTree root freeHead s.state.highWaterPageId) ⟨s.view, .empty, {}⟩
  checkOverflow (head : PageId) (length : Nat) (t : CheckStage) :
    Terminates 1 (fun rest => unroll (Loop.checkOverflow s.state.highWaterPageId length) rest (maxOverflowPages + 1)
      (some head, [], 0, 0)) (Checker.checkOverflowFrom s.state.highWaterPageId length maxOverflowPages (some head) [] 0) t

/-- Over any assignment of decodable pages every walk ends. -/
theorem walks_end [Crc32c] (s : TreeStage)
    (hpages : ∀ p page, s.view p = .ok page → ∃ bytes decoded, decodePageAt bytes (some p) = .ok decoded ∧
      PageData.decode decoded = .ok page) : WalksEnd s := by
  have hreadable : Readable s.view := by
    intro p page hview
    obtain ⟨bytes, decoded, hdecoded, hpage⟩ := hpages p page hview
    exact (PageData.storable_of_decode hdecoded hpage).1
  constructor
  case findLeaf => exact fun key => .of_same (findLeaf_unbounded key s) (visits_findLeaf key s)
  case leftmostLeaf => exact .of_same (leftmostLeaf_unbounded s) (visits_leftmostLeaf s)
  case query =>
    intro pk exclusiveAfterSk limit budget
    exact .of_same (query_unbounded budget s) (visits_query hreadable budget)
  case scan =>
    intro cursor limit budget
    exact .of_same (scan_unbounded cursor budget s) (visits_scan hreadable cursor budget)
  case readValue =>
    intro value
    refine .of_same (fun rest => ?_) (visits_readValue value s)
    rw [readValue_unbounded]
    exact .refl ..
  case freeValue =>
    intro value lsn
    refine .of_same (fun rest => ?_) (visits_freeValue value lsn s)
    rw [freeValue_unbounded]
    exact .refl ..
  case fromStore => exact .of_same (collectPages_unbounded hreadable) (collectPages_unseen ..).count_le
  case check =>
    intro root freeHead
    exact .of_same (checkTree_unbounded hreadable root freeHead) (visits_checkTree root freeHead _)
  case checkOverflow =>
    intro head length t
    refine .of_same (fun rest => ?_) (marks_checkOverflowFrom ..).unseen.count_le
    rw [← Nat.sub_self maxOverflowPages, checkOverflow_rounds le_rfl]
    exact .refl ..

/-- A leaf that is its own neighbour and an overflow page that is its own successor. -/
def cyclicPages : TreeStage where
  view p := if p = 2 then .ok (.leaf 1 (some 2) [⟨DocumentKey.encode ⟨[1], []⟩, 1, some (.overflow 3 2)⟩])
    else if p = 3 then .ok (.overflow 1 (some 3) 2 [7])
    else .error (.corruption "the page is not there")
  dirty := .empty
  state := ⟨2, some 3, 3, 2, none⟩

theorem cyclicPages_walks_end : WalksEnd cyclicPages := by
  refine @walks_end castagnoli cyclicPages fun p page hview => ?_
  have hstorable : page.Storable ∧ p ≤ u64Max := by
    by_cases h2 : p = 2
    · subst h2
      cases hview
      refine ⟨⟨by decide, by decide, (leafFits_iff _).mpr ⟨fun e he => ?_, by decide, by decide⟩, fun e he => ?_⟩, by decide⟩
      · rw [List.mem_singleton.mp he]
        exact canonical_encode _
      · rw [List.mem_singleton.mp he]
        exact ⟨by decide, by decide, by decide, by decide⟩
    · by_cases h3 : p = 3
      · subst h3
        cases hview
        exact ⟨⟨by decide, by decide, by decide, by decide, by decide⟩, by decide⟩
      · simp [cyclicPages, h2, h3] at hview
  obtain ⟨bytes, _, _, decoded, hdecoded, _, hpage⟩ :=
    @PageData.Storable.encode_reads castagnoli page hstorable.1 p hstorable.2
  exact ⟨bytes, decoded, hdecoded, hpage⟩

end Dodb
