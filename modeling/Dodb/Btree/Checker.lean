import Dodb.Btree.Tree

/-! The invariant checker: a walk over the whole tree, the leaf chain and the free
list that recomputes what they must have in common.

Like the tree code it is a page program. Its state is what the walk has seen;
recursion over the page graph carries the same kind of bound. -/
namespace Dodb
open Lib PageProg

/-- What the checker found in a tree it accepts. -/
structure InvariantReport where
  reachablePages : Nat
  freePages : Nat
  leakedPages : List PageId
  maxRevision : Revision
  deriving DecidableEq, Repr

/-- What the checker has come across so far. -/
structure TreeCheckState where
  reachable : List PageId := []
  keys : List Bytes := []
  leaves : List PageId := []
  maxRevision : Revision := 0
  deriving DecidableEq, Repr

abbrev CheckProg := PageProg PageId PageData TreeCheckState Error

/-- The least and the greatest key of a subtree, if it has any. -/
abbrev KeyBounds := Option Bytes × Option Bytes

namespace Checker

/-- Reads a page, if the file has it. -/
def readPage (highWater pageId : PageId) : CheckProg PageData := do
  check (firstDataPage ≤ pageId ∧ pageId ≤ highWater)
    (.corruption s!"page id {pageId} is outside checker bounds")
  PageProg.readPage pageId

/-- Records that `pageId` was reached, once. -/
def reach (pageId : PageId) (message : String) : CheckProg PUnit := do
  let s ← get
  check (pageId ∉ s.reachable) (.corruption message)
  set {s with reachable := pageId :: s.reachable}

def checkOverflowFrom (highWater : PageId) (length : Nat) :
    Nat → Option PageId → List PageId → Nat → CheckProg Nat
  | _, none, _, total => pure total
  | 0, some _, _, _ => raise (.corruption "overflow chain is cyclic or too long")
  | remaining + 1, some current, visited, total => do
    check (current ∉ visited) (.corruption "overflow chain is cyclic or too long")
    reach current "overflow page is referenced more than once"
    match ← readPage highWater current with
    | .overflow _ next totalLength chunk =>
      check (totalLength = length) (.corruption "overflow page length disagrees with leaf")
      let total ← ofExcept (addOr (.corruption "overflow content length overflows") total chunk.length)
      checkOverflowFrom highWater length remaining next (current :: visited) total
    | _ => raise (.corruption "overflow chain reaches a non-overflow page")

/-- The chain of a long value: pages that nothing else refers to, with chunks of the value's length in all. -/
def checkOverflow (highWater head : PageId) (length : Nat) : CheckProg Unit := do
  check (length ≠ 0 ∧ length ≤ maxValueSize) (.corruption "overflow value length is invalid")
  let total ← checkOverflowFrom highWater length maxOverflowPages (some head) [] 0
  check (total = length) (.corruption "overflow content length does not match leaf")

def checkValue (highWater : PageId) : Option ValueRef → CheckProg Unit
  | none => pure ()
  | some (.inline value) =>
    check (value.length ≤ inlineValueLimit) (.corruption "inline value exceeds inline limit")
  | some (.overflow head length) => checkOverflow highWater head length

def visitEntry (highWater : PageId) (lower upper : Option Bytes) (entry : LeafEntry) : CheckProg Unit := do
  check (lower.all (fun bound => decide (bound ≤ entry.key)) ∧
    upper.all (fun bound => decide (entry.key < bound)))
    (.corruption "leaf key violates parent separator range")
  check (entry.revision ≠ 0) (.corruption "leaf entry has zero revision")
  let s ← get
  check (entry.key ∉ s.keys) (.corruption "duplicate leaf key")
  set {s with keys := entry.key :: s.keys, maxRevision := max s.maxRevision entry.revision}
  checkValue highWater entry.value

/-- The entries of a leaf, each within the bounds and with a key of its own. -/
def visitEntries (highWater : PageId) (lower upper : Option Bytes) : List LeafEntry → CheckProg Unit
  | [] => pure ()
  | entry :: rest => do
    visitEntry highWater lower upper entry
    visitEntries highWater lower upper rest

/-- The children of an internal page with the bounds their keys must keep. -/
def children (lower upper : Option Bytes) (child : PageId) :
    List InternalEntry → List (PageId × Option Bytes × Option Bytes)
  | [] => [(child, lower, upper)]
  | entry :: rest => (child, lower, some entry.key) :: children (some entry.key) upper entry.rightChild rest

/-- The children in order, each within its bounds. -/
def visitAll (visit : PageId → Option Bytes → Option Bytes → CheckProg KeyBounds) :
    List (PageId × Option Bytes × Option Bytes) → CheckProg (List KeyBounds)
  | [] => pure []
  | (child, lower, upper) :: rest => do
    let bounds ← visit child lower upper
    let others ← visitAll visit rest
    pure (bounds :: others)

/-- Compares each separator with the keys found on its two sides. -/
def checkSeparators : List InternalEntry → List KeyBounds → CheckProg Unit
  | entry :: entries, left :: right :: bounds => do
    check (left.2.all fun max => decide (max < entry.key))
      (.corruption "left child violates internal separator")
    check (right.1.all fun min => decide (entry.key ≤ min))
      (.corruption "right child violates internal separator")
    checkSeparators entries (right :: bounds)
  | _, _ => pure ()

/-- The tree under a page, and its bounds. -/
def visitTree (highWater : PageId) : Nat → PageId → Option Bytes → Option Bytes → CheckProg KeyBounds
  | 0, _, _, _ => raise (.corruption "tree page is reachable more than once")
  | bound + 1, pageId, lower, upper => do
    reach pageId "tree page is reachable more than once"
    match ← readPage highWater pageId with
    | .leaf _ _ entries =>
      visitEntries highWater lower upper entries
      modify fun s => {s with leaves := s.leaves ++ [pageId]}
      pure (entries.head?.map LeafEntry.key, entries.getLast?.map LeafEntry.key)
    | .internal _ leftmostChild entries =>
      check (entries ≠ []) (.corruption "internal page has no separators")
      let bounds ← visitAll (visitTree highWater bound) (children lower upper leftmostChild entries)
      checkSeparators entries bounds
      pure (bounds.findSome? Prod.fst, bounds.reverse.findSome? Prod.snd)
    | _ => raise (.corruption "tree reaches a non-tree page")

def leftmostLeaf (highWater : PageId) : Nat → PageId → List PageId → CheckProg PageId
  | 0, _, _ => raise (.corruption "tree contains a cycle while finding leftmost leaf")
  | bound + 1, root, visited => do
    check (root ∉ visited) (.corruption "tree contains a cycle while finding leftmost leaf")
    match ← readPage highWater root with
    | .leaf .. => pure root
    | .internal _ leftmostChild _ => leftmostLeaf highWater bound leftmostChild (root :: visited)
    | _ => raise (.corruption "tree reaches a non-tree page")

/-- The last key of increasing entries after `previous`. -/
def checkOrder : Option Bytes → List LeafEntry → CheckProg (Option Bytes)
  | previous, [] => pure previous
  | previous, entry :: rest => do
    check (previous.all fun previous => decide (previous < entry.key))
      (.corruption "leaf chain ordering is invalid")
    checkOrder (some entry.key) rest

/-- The pages of the leaf chain from `current` on. -/
def leafChain (highWater : PageId) (reachable : List PageId) :
    Nat → Option PageId → List PageId → Option Bytes → CheckProg (List PageId)
  | _, none, _, _ => pure []
  | 0, some _, _, _ => raise (.corruption "leaf chain contains a cycle")
  | bound + 1, some pageId, visited, previous => do
    check (pageId ∉ visited) (.corruption "leaf chain contains a cycle")
    check (pageId ∈ reachable) (.corruption "leaf chain points outside the tree")
    match ← readPage highWater pageId with
    | .leaf _ nextLeaf entries =>
      let previous ← checkOrder previous entries
      let chain ← leafChain highWater reachable bound nextLeaf (pageId :: visited) previous
      pure (pageId :: chain)
    | _ => raise (.corruption "leaf chain points to a non-leaf page")

/-- The chain goes through the leaves of the tree in their order. -/
def checkLeafChain (highWater : PageId) (treeLeaves : List PageId) (leftmost : PageId)
    (reachable : List PageId) : CheckProg Unit := do
  let chain ← leafChain highWater reachable (highWater + 1) (some leftmost) [] none
  check (chain = treeLeaves) (.corruption "leaf chain is not connected in tree order")

/-- The pages of the free list from `next` on. -/
def freeList (highWater : PageId) (reachable : List PageId) :
    Nat → Option PageId → List PageId → CheckProg (List PageId)
  | _, none, freePages => pure freePages
  | 0, some _, _ => raise (.corruption "free-page list contains a cycle")
  | bound + 1, some pageId, freePages => do
    check (firstDataPage ≤ pageId ∧ pageId ≤ highWater)
      (.corruption s!"page id {pageId} is outside checker bounds")
    check (pageId ∉ freePages) (.corruption "free-page list contains a cycle")
    check (pageId ∉ reachable) (.corruption "a page is both reachable and free")
    match ← readPage highWater pageId with
    | .free _ next => freeList highWater reachable bound next (pageId :: freePages)
    | _ => raise (.corruption "free-list entry is not a free page")

end Checker

open Checker in
/-- Checks the tree at `root` with the given free list, over the pages up to `highWater`. -/
def checkTree (root : PageId) (freeHead : Option PageId) (highWater : PageId) :
    CheckProg InvariantReport := do
  let _ ← visitTree highWater (highWater + 1) root none none
  let leftmost ← Checker.leftmostLeaf highWater (highWater + 1) root []
  let s ← get
  checkLeafChain highWater s.leaves leftmost s.reachable
  let freePages ← freeList highWater s.reachable (highWater + 1) freeHead []
  let leaked := (List.range' firstDataPage (highWater + 1 - firstDataPage)).filter fun pageId =>
    pageId ∉ s.reachable ∧ pageId ∉ freePages
  pure ⟨s.reachable.length, freePages.length, leaked, s.maxRevision⟩

end Dodb
