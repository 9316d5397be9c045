import Dodb.Btree.Store

/-! The committed read view of a shard.

Next to its store, a shard keeps the decoded pages of the committed tree. Readers use these pages without going
through the coordinator, which brings them up to date after each segment it has served. -/
namespace Dodb

open Lib

/-- The pages and the root that readers are served from. -/
structure CommittedReadView where
  rootPageId : PageId
  highWaterPageId : PageId
  pages : SortedMap PageId PageData

/-- The view with the pages of a commit in place of its own. -/
def CommittedReadView.applyUpdates (view : CommittedReadView) (updates : SortedMap PageId PageData)
    (rootPageId highWaterPageId : PageId) : CommittedReadView :=
  ⟨rootPageId, highWaterPageId, view.pages.insertMany updates.entries⟩

/-! ### Building the view -/

/-- The pages a page refers to. -/
def PageData.references : PageData → List PageId
  | .internal _ leftmostChild entries => leftmostChild :: entries.map InternalEntry.rightChild
  | .leaf _ nextLeaf entries => nextLeaf.toList ++ entries.filterMap fun entry => match entry.value with
    | some (.overflow head _) => some head
    | _ => none
  | .overflow _ next _ _ => next.toList
  | .free _ _ => []

/-- Takes the pages of the tree off a stack of page numbers. The bound is one that pages of the tree cannot reach. -/
def collectPages (highWater : PageId) :
    Nat → List PageId → SortedMap PageId PageData → Prog (SortedMap PageId PageData)
  | _, [], pages => pure pages
  | 0, _ :: _, _ => PageProg.raise (.corruption "committed read view contains an out-of-range page")
  | bound + 1, pageId :: pending, pages => do
    PageProg.check (firstDataPage ≤ pageId ∧ pageId ≤ highWater)
      (.corruption "committed read view contains an out-of-range page")
    if (pages.get? pageId).isSome then collectPages highWater bound pending pages
    else
      let page ← PageProg.readPage pageId
      collectPages highWater bound (page.references.reverse ++ pending) (pages.insert pageId page)

section FromStore
variable [Crc32c]

/-- The store's own pages, past its cache. -/
def storeHandler : PageProg.Handler PageId PageData Alloc Error (Machine FileId Store) where
  read := readPageFromFile
  write _ _ := Io.raise (.internalInvariantViolation "the read view does not write")
  get := do
    let s ← memory
    pure ⟨s.rootPageId, s.freeListHead, s.highWaterPageId, s.nextRevision, none⟩
  put _ := Io.raise (.internalInvariantViolation "the read view does not write")

/-- The view of the pages that the root leads to. -/
def CommittedReadView.fromStore : Io (Machine FileId Store) Error CommittedReadView := do
  let s ← memory
  let pages ← (collectPages s.highWaterPageId (s.highWaterPageId * pageSize + 1) [s.rootPageId] .empty).run storeHandler
  pure ⟨s.rootPageId, s.highWaterPageId, pages⟩

end FromStore

/-! ### Reading the view

The readers of the view are the ones of the overlay over again, with complaints of their own. They go over the pages
of the view and never change them. -/

namespace CommittedReadView
open PageProg

/-- The pages of the view as readers find them. -/
def stage (view : CommittedReadView) : Stage PageId PageData Alloc Error where
  view pageId := match view.pages.get? pageId with
    | some page => .ok page
    | none => .error (.corruption "committed read view is missing a referenced page")
  dirty := .empty
  state := ⟨view.rootPageId, none, view.highWaterPageId, 0, none⟩

/-- A page of the view. -/
def page (pageId : PageId) : Prog PageData := do
  let a ← get
  check (firstDataPage ≤ pageId ∧ pageId ≤ a.highWaterPageId)
    (.corruption s!"page id {pageId} is outside the committed read view")
  readPage pageId

/-- The leaf at a page number, or the complaint `other` about a page of another kind. -/
def leaf (other : String) (pageId : PageId) : Prog LeafPage := do
  match ← page pageId with
  | .leaf _ nextLeaf entries => pure ⟨nextLeaf, entries⟩
  | _ => raise (.corruption other)

/-- As the tree's own descent, over the pages of the view. -/
def findLeafFrom (key : Bytes) : Nat → PageId → List PageId → Prog PageId
  | 0, _, _ => raise (.corruption "read view tree traversal contains a cycle")
  | bound + 1, pageId, visited => do
    check (pageId ∉ visited) (.corruption "read view tree traversal contains a cycle")
    match ← page pageId with
    | .leaf .. => pure pageId
    | .internal _ leftmostChild entries =>
      findLeafFrom key bound (childFor key leftmostChild entries) (pageId :: visited)
    | _ => raise (.corruption "read view child is not a tree page")

def findLeaf (key : Bytes) : Prog PageId := do
  let a ← get
  findLeafFrom key (a.highWaterPageId + 1) a.rootPageId []

def leftmostLeafFrom : Nat → PageId → List PageId → Prog PageId
  | 0, _, _ => raise (.corruption "read view leftmost traversal contains a cycle")
  | bound + 1, pageId, visited => do
    check (pageId ∉ visited) (.corruption "read view leftmost traversal contains a cycle")
    match ← page pageId with
    | .leaf .. => pure pageId
    | .internal _ leftmostChild _ => leftmostLeafFrom bound leftmostChild (pageId :: visited)
    | _ => raise (.corruption "read view child is not a tree page")

def leftmostLeaf : Prog PageId := do
  let a ← get
  leftmostLeafFrom (a.highWaterPageId + 1) a.rootPageId []

/-- As the tree's own, over the pages of the view. -/
def readChain (length : Nat) : Nat → Option PageId → List PageId → Bytes → Prog Bytes
  | _, none, _, output => pure output
  | 0, some _, _, _ => raise (.corruption "overflow chain is cyclic or too long")
  | remaining + 1, some current, visited, output => do
    check (current ∉ visited) (.corruption "overflow chain is cyclic or too long")
    match ← page current with
    | .overflow _ next totalLength chunk =>
      check (totalLength = length) (.corruption "overflow length metadata disagrees with leaf")
      readChain length remaining next (current :: visited) (output ++ chunk)
    | _ => raise (.corruption "value reference points to a non-overflow page")

def readValue : ValueRef → Prog Bytes
  | .inline value => pure value
  | .overflow head length => do
    let output ← readChain length maxOverflowPages (some head) [] []
    check (output.length = length) (.corruption "overflow content length is invalid")
    pure output

def getWithBudget (key : DocumentKey) (budget : ResponseBudget) : Prog (RevisionState × ResponseBudget) := do
  let encoded := key.encode
  ofExcept (validateEncodedKey encoded)
  let leafId ← findLeaf encoded
  let leaf ← leaf "read view lookup did not reach a leaf" leafId
  match leaf.entries.find? fun entry => decide (entry.key = encoded) with
  | none =>
    let budget ← ofExcept (budget.reserveState 0)
    pure (.missing 0, budget)
  | some entry =>
    match entry.value with
    | some value =>
      let budget ← ofExcept (budget.reserveState (valueLength value))
      let bytes ← readValue value
      pure (.present bytes entry.revision, budget)
    | none =>
      let budget ← ofExcept (budget.reserveState 0)
      pure (.missing entry.revision, budget)

/-- A row is charged to the budget before its value is read. -/
def pushRow (limit : Nat) (key : DocumentKey) (entry : LeafEntry) (s : RowState) : Prog RowState := do
  match entry.value with
  | none => pure s
  | some value =>
    let budget ← ofExcept (s.budget.reserveDocument key (valueLength value))
    let bytes ← readValue value
    let rows := s.rows ++ [⟨key, bytes, entry.revision⟩]
    pure {s with budget, rows, finished := decide (rows.length = limit)}

def queryEntries (pk : PrimaryKey) (exclusiveAfterSk : Option SortKey) (cursor : Option Bytes) (limit : Nat) :
    List LeafEntry → RowState → Prog RowState
  | [], s => pure s
  | entry :: rest, s =>
    if s.first ∧ cursor.any (fun cursor => decide (entry.key ≤ cursor)) then
      queryEntries pk exclusiveAfterSk cursor limit rest s
    else do
      let s := {s with first := false}
      let documentKey ← ofExcept (decodeLeafKey entry.key)
      if documentKey.pk ≠ pk then
        if pk < documentKey.pk then pure {s with finished := true}
        else queryEntries pk exclusiveAfterSk cursor limit rest s
      else if exclusiveAfterSk.any (fun cursor => decide (documentKey.sk ≤ cursor)) then
        queryEntries pk exclusiveAfterSk cursor limit rest s
      else
        let s ← pushRow limit documentKey entry s
        if s.finished then pure s else queryEntries pk exclusiveAfterSk cursor limit rest s

def queryLeaves (pk : PrimaryKey) (exclusiveAfterSk : Option SortKey) (cursor : Option Bytes) (limit : Nat) :
    Nat → PageId → List PageId → RowState → Prog RowState
  | 0, _, _, _ => raise (.corruption "leaf chain contains a cycle during query")
  | bound + 1, leafId, visited, s => do
    if limit ≤ s.rows.length then pure s
    else
      check (leafId ∉ visited) (.corruption "leaf chain contains a cycle during query")
      let leaf ← leaf "query reached a non-leaf page" leafId
      let s ← queryEntries pk exclusiveAfterSk cursor limit leaf.entries s
      if s.finished then pure s
      else
        match leaf.nextLeaf with
        | none => pure s
        | some next => queryLeaves pk exclusiveAfterSk cursor limit bound next (leafId :: visited) {s with first := false}

def queryWithBudget (pk : PrimaryKey) (exclusiveAfterSk : Option SortKey) (limit : Nat) (budget : ResponseBudget) :
    Prog (List Document × ResponseBudget) := do
  if limit = 0 then pure ([], budget)
  else
    let startKey := DocumentKey.encode ⟨pk, []⟩
    ofExcept (validateEncodedKey startKey)
    let leafId ← findLeaf startKey
    let cursor := exclusiveAfterSk.map fun sk => DocumentKey.encode ⟨pk, sk⟩
    match cursor with
    | some cursor => ofExcept (validateEncodedKey cursor)
    | none => pure ()
    let a ← get
    let s ← queryLeaves pk exclusiveAfterSk cursor limit (a.highWaterPageId + 1) leafId []
      ⟨false, true, budget, []⟩
    pure (s.rows, s.budget)

def scanEntries (cursor : Option Bytes) (limit : Nat) : List LeafEntry → RowState → Prog RowState
  | [], s => pure s
  | entry :: rest, s =>
    if cursor.any (fun cursor => decide (entry.key ≤ cursor)) then scanEntries cursor limit rest s
    else do
      let documentKey ← ofExcept (decodeLeafKey entry.key)
      let s ← pushRow limit documentKey entry s
      if s.finished then pure s else scanEntries cursor limit rest s

def scanLeaves (cursor : Option Bytes) (limit : Nat) : Nat → PageId → List PageId → RowState → Prog RowState
  | 0, _, _, _ => raise (.corruption "leaf chain contains a cycle during scan")
  | bound + 1, leafId, visited, s => do
    check (leafId ∉ visited) (.corruption "leaf chain contains a cycle during scan")
    let leaf ← leaf "scan reached a non-leaf page" leafId
    let s ← scanEntries cursor limit leaf.entries s
    if s.finished then pure s
    else
      match leaf.nextLeaf with
      | none => pure s
      | some next => scanLeaves cursor limit bound next (leafId :: visited) s

/-- The cursor is exclusive. -/
def scanWithBudget (cursor : Option DocumentKey) (limit : Nat) (budget : ResponseBudget) :
    Prog (List Document × ResponseBudget) := do
  if limit = 0 then pure ([], budget)
  else
    let leafId ← match cursor with
      | some key => do
        ofExcept (validateEncodedKey key.encode)
        findLeaf key.encode
      | none => leftmostLeaf
    let a ← get
    let s ← scanLeaves (cursor.map DocumentKey.encode) limit (a.highWaterPageId + 1) leafId []
      ⟨false, true, budget, []⟩
    pure (s.rows, s.budget)

/-- The reads a view serves; it has none for a mutation. -/
def execute : BatchRequest → Option (ResponseBudget → Prog (BatchResponse × ResponseBudget))
  | .get key => some fun budget => do
    let (state, budget) ← getWithBudget key budget
    pure (.get state, budget)
  | .query pk exclusiveAfterSk limit => some fun budget => do
    let (rows, budget) ← queryWithBudget pk exclusiveAfterSk limit budget
    pure (.query rows, budget)
  | .scan exclusiveAfterKey limit => some fun budget => do
    let (rows, budget) ← scanWithBudget exclusiveAfterKey limit budget
    pure (.scan rows, budget)
  | .put _ _ => none
  | .delete _ => none

end CommittedReadView

/-- The view of a shard's readers, and why it no longer serves. -/
structure ReadViewState where
  view : Option CommittedReadView
  broken : Option String

/-- The memory of a shard. -/
structure Shard where
  store : Store
  readView : ReadViewState

/-- A read that the view answers by itself, if it does. -/
def ReadViewState.tryRead (state : ReadViewState) (request : BatchRequest) (maxResponseBytes : Nat) :
    Option (Result BatchResponse) :=
  match state.broken with
  | some message => some (.error (.durabilityFailure
      s!"storage shard is not serving after an uncertain persistence failure: {message}"))
  | none => state.view.bind fun view =>
    match ResponseBudget.new maxResponseBytes with
    | .error error => some (.error error)
    | .ok budget => (CommittedReadView.execute request).map fun read =>
      match PageProg.exec (read budget) view.stage with
      | .ok (response, _) _ => .ok response
      | .err error _ => .error error
      | .halt _ => .error (.internalInvariantViolation "a read of the view does not halt")

namespace Shard

abbrev Op := Io (Machine FileId Shard) Error

/-- A shard on a store that has just been opened. The view is left out when the pages do not make one. -/
def startWithConfig [Crc32c] : Io (Machine FileId Store) Error Shard := do
  let view ← Io.attempt CommittedReadView.fromStore
  let store ← memory
  pure ⟨{store with trackPublishedPages := true}, ⟨view.toOption, none⟩⟩

/-- An operation on the shard's store. -/
def onStore {α : Type} (m : Store.Op α) : Op α := zoom Shard.store (fun store shard => {shard with store}) m

/-- A broken view serves no further reads. -/
def markReadViewBroken (message : String) : Op PUnit :=
  modifyMemory fun shard => {shard with readView := {shard.readView with broken := some message}}

/-- With the store, the view stops serving. -/
def noteDegraded : Op PUnit := do
  let shard ← memory
  match shard.store.broken with
  | some message => markReadViewBroken message
  | none => pure ⟨⟩

/-- Hands what the store has published since the last time to the read view. -/
def publishReadUpdates : Op PUnit := do
  let shard ← memory
  let updates := shard.store.publishedPageUpdates
  modifyMemory fun shard => {shard with store := {shard.store with publishedPageUpdates := .empty}}
  if updates.isEmpty then pure ⟨⟩
  else modifyMemory fun shard => {shard with readView := {shard.readView with
    view := shard.readView.view.map fun view =>
      view.applyUpdates updates shard.store.rootPageId shard.store.highWaterPageId}}

end Shard

end Dodb
