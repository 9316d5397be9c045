import Dodb.Lib.PageProg
import Dodb.Btree.Format
import Dodb.Testkit.Reference

/-! The tree code of the overlay: searching, reading, inserting, splitting,
allocating and freeing.

Every function here reads pages by number, replaces pages, and keeps the few
numbers of `Alloc`; none of them sees where pages come from. They are page
programs, to be run over the store's cache and file (`Overlay`) or on a plain
assignment of pages (`PageProg.exec`).

The source's loops over a page graph carry a set of visited pages and fail when
one repeats. Here they also carry a bound that a loop which visits only distinct
pages up to the high-water mark cannot reach. `partition_point` and
`binary_search_by` are counts of leading entries, as they are on sorted pages. -/
namespace Dodb
open Lib PageProg

def firstDataPage : Nat := 2
def maxEncodedKeySize : Nat := 3992

/-- What is refused before it reaches the tree. -/
structure StorageLimits where
  inlineValueLimit : Nat := Dodb.inlineValueLimit
  maxValueSize : Nat := Dodb.maxValueSize
  deriving DecidableEq, Repr

/-- What the tree code keeps besides pages. -/
structure Alloc where
  rootPageId : PageId
  freeListHead : Option PageId
  highWaterPageId : PageId
  nextRevision : Revision
  lastLsn : Option Lsn
  deriving DecidableEq, Repr

abbrev Prog := PageProg PageId PageData Alloc Error

structure LeafPage where
  nextLeaf : Option PageId
  entries : List LeafEntry

structure InternalPage where
  leftmostChild : PageId
  entries : List InternalEntry

/-- The number of leading elements with `p`. -/
def partitionPoint {α : Type} (p : α → Bool) (l : List α) : Nat := (l.takeWhile p).length

def insertAt {α : Type} (index : Nat) (x : α) (l : List α) : List α := l.take index ++ x :: l.drop index

/-! ### Pages -/

/-- Pages 0 and 1 hold the superblocks and are never part of the tree. -/
def page (pageId : PageId) : Prog PageData := do
  let a ← get
  check (firstDataPage ≤ pageId ∧ pageId ≤ a.highWaterPageId)
    (.corruption s!"page id {pageId} is outside the allocated range")
  readPage pageId

def leaf (pageId : PageId) : Prog LeafPage := do
  match ← page pageId with
  | .leaf _ nextLeaf entries => pure ⟨nextLeaf, entries⟩
  | _ => raise (.corruption "expected a leaf page")

def internal (pageId : PageId) : Prog InternalPage := do
  match ← page pageId with
  | .internal _ leftmostChild entries => pure ⟨leftmostChild, entries⟩
  | _ => raise (.corruption "expected an internal page")

/-- A page of the free list, or a new one behind the high water. -/
def allocatePage : Prog PageId := do
  let a ← get
  match a.freeListHead with
  | some pageId =>
    match ← page pageId with
    | .free _ next =>
      set {a with freeListHead := next}
      pure pageId
    | _ => raise (.corruption "free-list head is not a free page")
  | none =>
    let pageId ← ofExcept (addOr (.internalInvariantViolation "page id exhausted") a.highWaterPageId 1)
    set {a with highWaterPageId := pageId}
    pure pageId

/-- All mutations of a batch have one revision. -/
def allocateRevision : Prog Revision := do
  let a ← get
  let revision := a.lastLsn.getD a.nextRevision
  set {a with lastLsn := some revision}
  pure revision

/-- Puts a page at the head of the free list. -/
def freePage (pageId : PageId) (lsn : Revision) : Prog PUnit := do
  let a ← get
  writePage pageId (.free lsn a.freeListHead)
  set {a with freeListHead := some pageId}

/-! ### Searching -/

/-- The child of an internal page that keys like `key` are under. -/
def childFor (key : Bytes) (leftmostChild : PageId) (entries : List InternalEntry) : PageId :=
  let index := partitionPoint (fun entry => decide (entry.key ≤ key)) entries
  if index = 0 then leftmostChild else ((entries[index - 1]?).map InternalEntry.rightChild).getD leftmostChild

/-- Descends to the leaf for a key. The route is returned; a page that is on it already closes a cycle. -/
def findLeafFrom (key : Bytes) : Nat → PageId → List PageId → Prog (PageId × List PageId)
  | 0, _, _ => raise (.corruption "tree traversal contains a cycle")
  | bound + 1, pageId, route => do
    check (pageId ∉ route) (.corruption "tree traversal contains a cycle")
    match ← page pageId with
    | .leaf .. => pure (pageId, route ++ [pageId])
    | .internal _ leftmostChild entries =>
      findLeafFrom key bound (childFor key leftmostChild entries) (route ++ [pageId])
    | _ => raise (.corruption "tree child has an impossible page type")

/-- The leaf for `key`, and the pages from the root to it. -/
def findLeaf (key : Bytes) : Prog (PageId × List PageId) := do
  let a ← get
  findLeafFrom key (a.highWaterPageId + 1) a.rootPageId []

/-- The fuel is one more than the last page; a page met twice is corruption. -/
def leftmostLeafFrom : Nat → PageId → List PageId → Prog PageId
  | 0, _, _ => raise (.corruption "leftmost traversal contains a cycle")
  | bound + 1, pageId, visited => do
    check (pageId ∉ visited) (.corruption "leftmost traversal contains a cycle")
    match ← page pageId with
    | .leaf .. => pure pageId
    | .internal _ leftmostChild _ => leftmostLeafFrom bound leftmostChild (pageId :: visited)
    | _ => raise (.corruption "tree child has an impossible page type")

def leftmostLeaf : Prog PageId := do
  let a ← get
  leftmostLeafFrom (a.highWaterPageId + 1) a.rootPageId []

/-! ### Values -/

/-- A key must fit in one entry of a page. -/
def validateEncodedKey (key : Bytes) : Result Unit :=
  ensure (key.length ≤ maxEncodedKeySize) (.invalidInput
    s!"encoded document key is {key.length} bytes, maximum is {maxEncodedKeySize}")

def validateValue (limits : StorageLimits) (value : Bytes) : Result Unit :=
  ensure (value.length ≤ limits.maxValueSize ∧ value.length ≤ maxValueSize) (.invalidInput
    s!"value is {value.length} bytes, maximum is {min limits.maxValueSize maxValueSize}")

def valueLength : ValueRef → Nat
  | .inline value => value.length
  | .overflow _ length => length

/-- A value cut into the pieces its overflow pages take. -/
def chunks (size : Nat) (value : Bytes) : List Bytes :=
  (List.range ((value.length + size - 1) / size)).map fun i => slice value (i * size) size

/-- The pages are taken one by one, from the free list first. -/
def allocatePages : Nat → Prog (List PageId)
  | 0 => pure []
  | n + 1 => do
    let pageId ← allocatePage
    let rest ← allocatePages n
    pure (pageId :: rest)

/-- Writes a value's chunks to its pages, each linked to the next. -/
def writeChunks (lsn : Revision) (totalLength : Nat) : List PageId → List Bytes → Prog PUnit
  | pageId :: pageIds, chunk :: rest => do
    writePage pageId (.overflow lsn pageIds.head? totalLength chunk)
    writeChunks lsn totalLength pageIds rest
  | _, _ => pure ⟨⟩

/-- A short value stays in its leaf, a long one goes to a chain of overflow pages. -/
def makeValue (limits : StorageLimits) (value : Bytes) (lsn : Revision) : Prog ValueRef := do
  if value.length ≤ limits.inlineValueLimit ∧ value.length ≤ inlineValueLimit then pure (.inline value)
  else
    let count := (value.length + overflowDataSize - 1) / overflowDataSize
    check (count ≤ maxOverflowPages) (.invalidInput "value requires too many overflow pages")
    let pageIds ← allocatePages count
    writeChunks lsn value.length pageIds (chunks overflowDataSize value)
    pure (.overflow (pageIds.headD 0) value.length)

/-- Frees the pages of a value, and returns the length of what they held. -/
def freeChain (length : Nat) (lsn : Revision) : Nat → Option PageId → List PageId → Nat → Prog Nat
  | _, none, _, total => pure total
  | 0, some _, _, _ => raise (.corruption "overflow chain is cyclic or too long")
  | remaining + 1, some current, visited, total => do
    check (current ∉ visited) (.corruption "overflow chain is cyclic or too long")
    match ← page current with
    | .overflow _ next pageTotal chunk =>
      check (pageTotal = length) (.corruption "overflow length metadata disagrees with leaf")
      let total ← ofExcept (addOr (.corruption "overflow length overflows") total chunk.length)
      freePage current lsn
      freeChain length lsn remaining next (current :: visited) total
    | _ => raise (.corruption "value reference points to a non-overflow page")

/-- An inline value has no pages of its own. -/
def freeValue (value : Option ValueRef) (lsn : Revision) : Prog Unit := do
  match value with
  | some (.overflow head length) =>
    let total ← freeChain length lsn maxOverflowPages (some head) [] 0
    check (total = length ∧ length ≠ 0) (.corruption "overflow chain content length is invalid")
  | _ => pure ()

/-- Puts the chunks of a value together. -/
def readChain (length : Nat) : Nat → Option PageId → List PageId → Bytes → Prog Bytes
  | _, none, _, output => pure output
  | 0, some _, _, _ => raise (.corruption "overflow chain is cyclic or too long")
  | remaining + 1, some current, visited, output => do
    check (current ∉ visited) (.corruption "overflow chain is cyclic or too long")
    match ← page current with
    | .overflow _ next totalLength chunk =>
      check (totalLength = length) (.corruption "overflow length metadata disagrees with leaf")
      readChain length remaining next (current :: visited) (output ++ chunk)
    | _ => raise (.corruption "value reference points to a non-overflow page")

/-- An overflowing value is read along its chain and checked against its length. -/
def readValue : ValueRef → Prog Bytes
  | .inline value => pure value
  | .overflow head length => do
    let output ← readChain length maxOverflowPages (some head) [] []
    check (output.length = length) (.corruption "overflow content length is invalid")
    pure output

/-! ### Splitting -/

def absDiff (a b : Nat) : Nat := (a - b) + (b - a)

/-- The places where `length` entries can be split, nearest to the middle first. -/
def splitCandidates (length : Nat) : List Nat :=
  (List.range' 1 (length - 1)).mergeSort fun a b =>
    decide (absDiff a (length / 2) ≤ absDiff b (length / 2))

/-- The place nearest to the middle where both parts fit a page. -/
def chooseLeafSplit (entries : List LeafEntry) : Result Nat :=
  match (splitCandidates entries.length).find? fun candidate =>
      leafFits (entries.take candidate) && leafFits (entries.drop candidate) with
  | some candidate => .ok candidate
  | none => .error (.invalidInput "a single leaf entry exceeds page capacity")

/-- The separator nearest to the middle that can be promoted, with both parts fitting a page. -/
def chooseInternalSplit (leftmost : PageId) (entries : List InternalEntry) : Result Nat :=
  if entries.length < 3 then .error (.invalidInput "internal page cannot be split safely")
  else
    match (splitCandidates entries.length).find? fun candidate =>
        internalFits leftmost (entries.take candidate) &&
          internalFits (((entries[candidate]?).map InternalEntry.rightChild).getD 0)
            (entries.drop (candidate + 1)) with
    | some candidate => .ok candidate
    | none => .error (.invalidInput "internal separators exceed page capacity")

/-- Adds a separator to the pages of `parents`, innermost first, splitting those that are
full, and grows a new root when none is left. -/
def insertParentSeparator (lsn : Revision) : List PageId → Bytes → PageId → Prog PUnit
  | [], separator, rightChild => do
    let newRootId ← allocatePage
    let a ← get
    writePage newRootId (.internal lsn a.rootPageId [⟨separator, rightChild⟩])
    set {a with rootPageId := newRootId}
  | parentId :: parents, separator, rightChild => do
    let parent ← internal parentId
    let index := partitionPoint (fun entry => decide (entry.key < separator)) parent.entries
    let entries := insertAt index ⟨separator, rightChild⟩ parent.entries
    if internalFits parent.leftmostChild entries then
      writePage parentId (.internal lsn parent.leftmostChild entries)
    else
      let split ← ofExcept (chooseInternalSplit parent.leftmostChild entries)
      let promoted := entries.getD split ⟨[], 0⟩
      let rightId ← allocatePage
      let leftEntries := entries.take split
      let rightEntries := entries.drop (split + 1)
      check (internalFits parent.leftmostChild leftEntries ∧ internalFits promoted.rightChild rightEntries)
        (.invalidInput "internal split produced an oversized page")
      writePage parentId (.internal lsn parent.leftmostChild leftEntries)
      writePage rightId (.internal lsn promoted.rightChild rightEntries)
      insertParentSeparator lsn parents promoted.key rightId

/-- Writes the leaf; one that is too full is split, and its parent gets the separator. -/
def insertLeafEntries (leafId : PageId) (route : List PageId) (leaf : LeafPage) (lsn : Revision) :
    Prog PUnit := do
  if leafFits leaf.entries then writePage leafId (.leaf lsn leaf.nextLeaf leaf.entries)
  else
    let split ← ofExcept (chooseLeafSplit leaf.entries)
    let rightId ← allocatePage
    let rightEntries := leaf.entries.drop split
    match rightEntries.head? with
    | none => raise (.internalInvariantViolation "leaf split produced an empty right page")
    | some first =>
      writePage leafId (.leaf lsn (some rightId) (leaf.entries.take split))
      writePage rightId (.leaf lsn leaf.nextLeaf rightEntries)
      insertParentSeparator lsn route.dropLast.reverse first.key rightId

/-! ### Mutations -/

/-- Where `key` is among the entries, and the entry there if it has that key. -/
def searchLeaf (key : Bytes) (entries : List LeafEntry) : Nat × Option LeafEntry :=
  let index := partitionPoint (fun entry => decide (entry.key < key)) entries
  (index, (entries[index]?).filter fun entry => decide (entry.key = key))

/-- Replaces the entry of the key or adds one, and frees the value it had. -/
def put (limits : StorageLimits) (key : DocumentKey) (value : Bytes) : Prog Revision := do
  ofExcept (validateValue limits value)
  let encoded := key.encode
  ofExcept (validateEncodedKey encoded)
  let revision ← allocateRevision
  let (leafId, route) ← findLeaf encoded
  let leaf ← leaf leafId
  let (index, old) := searchLeaf encoded leaf.entries
  let valueRef ← makeValue limits value revision
  let entry : LeafEntry := ⟨encoded, revision, some valueRef⟩
  match old with
  | some old =>
    insertLeafEntries leafId route ⟨leaf.nextLeaf, leaf.entries.set index entry⟩ revision
    freeValue old.value revision
  | none =>
    insertLeafEntries leafId route ⟨leaf.nextLeaf, insertAt index entry leaf.entries⟩ revision
  pure revision

/-- Leaves a tombstone in the place of the document. -/
def delete (key : DocumentKey) : Prog Revision := do
  let encoded := key.encode
  ofExcept (validateEncodedKey encoded)
  let revision ← allocateRevision
  let (leafId, route) ← findLeaf encoded
  let leaf ← leaf leafId
  let (index, old) := searchLeaf encoded leaf.entries
  let entry : LeafEntry := ⟨encoded, revision, none⟩
  match old with
  | some old =>
    -- the tombstone is no larger than what it replaces, and no fit is checked
    writePage leafId (.leaf revision leaf.nextLeaf (leaf.entries.set index entry))
    freeValue old.value revision
  | none =>
    insertLeafEntries leafId route ⟨leaf.nextLeaf, insertAt index entry leaf.entries⟩ revision
  pure revision

/-! ### Response budgets -/

def usizeMax : Nat := u64Max
def responseWireOverhead : Nat := 17
def responseMemoryOverhead : Nat := 64 * 1024

/-- What a response may still take on the wire and in memory. -/
structure ResponseBudget where
  maximumWire : Nat
  maximumMemory : Nat
  usedWire : Nat
  usedMemory : Nat
  deriving DecidableEq, Repr

namespace ResponseBudget

def new (maximum : Nat) : Result ResponseBudget := do
  ensure (responseWireOverhead ≤ maximum)
    (.responseTooLarge s!"response envelope exceeds {maximum} bytes")
  pure ⟨maximum, saturatingAdd maximum responseMemoryOverhead, responseWireOverhead, 0⟩

/-- Charges the budget, or refuses the whole request. -/
def reserve (b : ResponseBudget) (wire memory : Nat) : Result ResponseBudget := do
  let nextWire ← addOr (.responseTooLarge "encoded response size overflows") b.usedWire wire
  let nextMemory ← addOr (.responseTooLarge "response materialization size overflows") b.usedMemory memory
  ensure (nextWire ≤ b.maximumWire ∧ nextMemory ≤ b.maximumMemory)
    (.responseTooLarge s!"response materialization exceeds {b.maximumWire} bytes")
  pure {b with usedWire := nextWire, usedMemory := nextMemory}

def reserveState (b : ResponseBudget) (valueLen : Nat) : Result ResponseBudget :=
  b.reserve (1 + 4 + valueLen + 8) (saturatingAdd valueLen 32)

/-- Counts the key and the value of a row against the budget. -/
def reserveDocument (b : ResponseBudget) (key : DocumentKey) (valueLen : Nat) : Result ResponseBudget :=
  let base := saturatingAdd (saturatingAdd key.pk.length key.sk.length) valueLen
  b.reserve (saturatingAdd base 20) (max (saturatingAdd base 64) (saturatingAdd base 20))

end ResponseBudget

/-! ### Reads -/

/-- The state of a key, charged to the budget before the value is read. -/
def getState (key : DocumentKey) (budget : ResponseBudget) : Prog (RevisionState × ResponseBudget) := do
  let encoded := key.encode
  ofExcept (validateEncodedKey encoded)
  let (leafId, _) ← findLeaf encoded
  let leaf ← leaf leafId
  match leaf.entries.find? fun entry => decide (entry.key = encoded) with
  | none =>
    let budget ← ofExcept (budget.reserveState 0)
    pure (.missing 0, budget)
  | some entry =>
    match entry.value with
    | some valueRef =>
      let budget ← ofExcept (budget.reserveState (valueLength valueRef))
      let value ← readValue valueRef
      pure (.present value entry.revision, budget)
    | none =>
      let budget ← ofExcept (budget.reserveState 0)
      pure (.missing entry.revision, budget)

def getObservedState (key : DocumentKey) : Prog ObservedState := do
  let encoded := key.encode
  ofExcept (validateEncodedKey encoded)
  let (leafId, _) ← findLeaf encoded
  let leaf ← leaf leafId
  match leaf.entries.find? fun entry => decide (entry.key = encoded) with
  | none => pure (.missing 0)
  | some entry => if entry.value.isSome then pure (.present entry.revision) else pure (.missing entry.revision)

/-- The budget is shared by the keys, in the order they are asked for. -/
def getStates : List DocumentKey → ResponseBudget → Prog (List RevisionState)
  | [], _ => pure []
  | key :: rest, budget => do
    let (state, budget) ← getState key budget
    let states ← getStates rest budget
    pure (state :: states)

def getObservedStates : List DocumentKey → Prog (List ObservedState)
  | [] => pure []
  | key :: rest => do
    let state ← getObservedState key
    let states ← getObservedStates rest
    pure (state :: states)

/-- What a pass over one leaf comes to: the rows so far, and whether they are the answer. -/
structure RowState where
  finished : Bool
  first : Bool
  budget : ResponseBudget
  rows : List Document

/-- Appends the row of an entry that is present. -/
def pushRow (limit : Nat) (key : DocumentKey) (entry : LeafEntry) (s : RowState) : Prog RowState := do
  match entry.value with
  | none => pure s
  | some value =>
    let budget ← ofExcept (s.budget.reserveDocument key (valueLength value))
    let bytes ← readValue value
    let rows := s.rows ++ [⟨key, bytes, entry.revision⟩]
    pure {s with budget, rows, finished := decide (rows.length = limit)}

def decodeLeafKey (key : Bytes) : Result DocumentKey :=
  match DocumentKey.decode key with
  | .ok k => .ok k
  | .error error => .error (.corruption s!"leaf key decode failed: {error.display}")

/-- The entries of one leaf: what comes before the cursor is passed over, another primary key ends the query. -/
def queryEntries (pk : PrimaryKey) (exclusiveAfterSk : Option SortKey) (cursor : Option Bytes) (limit : Nat) :
    List LeafEntry → RowState → Prog RowState
  | [], s => pure s
  | entry :: rest, s =>
    if s.first ∧ cursor.any (fun cursor => decide (entry.key ≤ cursor)) then
      queryEntries pk exclusiveAfterSk cursor limit rest s
    else do
      let s := {s with first := false}
      let documentKey ← ofExcept (decodeLeafKey entry.key)
      if documentKey.pk ≠ pk then
        if pk < documentKey.pk then pure {s with finished := true}
        else queryEntries pk exclusiveAfterSk cursor limit rest s
      else if exclusiveAfterSk.any (fun cursor => decide (documentKey.sk ≤ cursor)) then
        queryEntries pk exclusiveAfterSk cursor limit rest s
      else
        let s ← pushRow limit documentKey entry s
        if s.finished then pure s else queryEntries pk exclusiveAfterSk cursor limit rest s

/-- Follows the chain of leaves until the query has ended or has its rows. -/
def queryLeaves (pk : PrimaryKey) (exclusiveAfterSk : Option SortKey) (cursor : Option Bytes) (limit : Nat) :
    Nat → PageId → List PageId → RowState → Prog RowState
  | 0, _, _, _ => raise (.corruption "leaf chain contains a cycle during query")
  | bound + 1, leafId, visited, s => do
    if limit ≤ s.rows.length then pure s
    else
      check (leafId ∉ visited) (.corruption "leaf chain contains a cycle during query")
      let leaf ← leaf leafId
      let s ← queryEntries pk exclusiveAfterSk cursor limit leaf.entries s
      if s.finished then pure s
      else
        match leaf.nextLeaf with
        | none => pure s
        | some next => queryLeaves pk exclusiveAfterSk cursor limit bound next (leafId :: visited) {s with first := false}

/-- The rows of one primary key in the order of their sort keys, from behind the cursor on. -/
def query (pk : PrimaryKey) (exclusiveAfterSk : Option SortKey) (limit : Nat) (budget : ResponseBudget) :
    Prog (List Document × ResponseBudget) := do
  if limit = 0 then pure ([], budget)
  else
    let startKey := DocumentKey.encode ⟨pk, []⟩
    ofExcept (validateEncodedKey startKey)
    let (leafId, _) ← findLeaf startKey
    let cursor := exclusiveAfterSk.map fun sk => DocumentKey.encode ⟨pk, sk⟩
    match cursor with
    | some cursor => ofExcept (validateEncodedKey cursor)
    | none => pure ()
    let a ← get
    let s ← queryLeaves pk exclusiveAfterSk cursor limit (a.highWaterPageId + 1) leafId []
      ⟨false, true, budget, []⟩
    pure (s.rows, s.budget)

/-- Skips what the cursor has passed and stops once `limit` rows are taken. -/
def scanEntries (cursor : Option Bytes) (limit : Nat) : List LeafEntry → RowState → Prog RowState
  | [], s => pure s
  | entry :: rest, s =>
    if cursor.any (fun cursor => decide (entry.key ≤ cursor)) then scanEntries cursor limit rest s
    else do
      let documentKey ← ofExcept (decodeLeafKey entry.key)
      let s ← pushRow limit documentKey entry s
      if s.finished then pure s else scanEntries cursor limit rest s

/-- Follows the leaf links; a leaf met twice is corruption. -/
def scanLeaves (cursor : Option Bytes) (limit : Nat) : Nat → PageId → List PageId → RowState → Prog RowState
  | 0, _, _, _ => raise (.corruption "leaf chain contains a cycle during scan")
  | bound + 1, leafId, visited, s => do
    check (leafId ∉ visited) (.corruption "leaf chain contains a cycle during scan")
    let leaf ← leaf leafId
    let s ← scanEntries cursor limit leaf.entries s
    if s.finished then pure s
    else
      match leaf.nextLeaf with
      | none => pure s
      | some next => scanLeaves cursor limit bound next (leafId :: visited) s

/-- The rows of all keys in order, from behind the cursor on. -/
def scan (cursor : Option DocumentKey) (limit : Nat) (budget : ResponseBudget) :
    Prog (List Document × ResponseBudget) := do
  if limit = 0 then pure ([], budget)
  else
    let leafId ← match cursor with
      | some key => do
        ofExcept (validateEncodedKey key.encode)
        let (leafId, _) ← findLeaf key.encode
        pure leafId
      | none => leftmostLeaf
    let a ← get
    let s ← scanLeaves (cursor.map DocumentKey.encode) limit (a.highWaterPageId + 1) leafId []
      ⟨false, true, budget, []⟩
    pure (s.rows, s.budget)

/-! ### Requests -/

/-- A request of a batch. -/
inductive BatchRequest where
  | get (key : DocumentKey)
  | put (key : DocumentKey) (value : Bytes)
  | delete (key : DocumentKey)
  | query (pk : PrimaryKey) (exclusiveAfterSk : Option SortKey) (limit : Nat)
  | scan (exclusiveAfterKey : Option DocumentKey) (limit : Nat)
  deriving DecidableEq, Repr

/-- The answer to a request of a batch. -/
inductive BatchResponse where
  | get (state : RevisionState)
  | put (revision : Revision)
  | delete (revision : Revision)
  | query (rows : List Document)
  | scan (rows : List Document)
  deriving DecidableEq, Repr

/-- One request, and what it leaves of the budget. -/
def execute (limits : StorageLimits) (request : BatchRequest) (budget : ResponseBudget) :
    Prog (BatchResponse × ResponseBudget) := do
  match request with
  | .get key =>
    let (state, budget) ← getState key budget
    pure (.get state, budget)
  | .put key value =>
    let revision ← put limits key value
    pure (.put revision, budget)
  | .delete key =>
    let revision ← delete key
    pure (.delete revision, budget)
  | .query pk exclusiveAfterSk limit =>
    let (rows, budget) ← query pk exclusiveAfterSk limit budget
    pure (.query rows, budget)
  | .scan exclusiveAfterKey limit =>
    let (rows, budget) ← scan exclusiveAfterKey limit budget
    pure (.scan rows, budget)

/-- The requests of a batch, within one budget. -/
def executeAll (limits : StorageLimits) : List BatchRequest → ResponseBudget → Prog (List BatchResponse)
  | [], _ => pure []
  | request :: rest, budget => do
    let (response, budget) ← execute limits request budget
    let responses ← executeAll limits rest budget
    pure (response :: responses)

/-! ### Transactions -/

def validateTransactionMutation (limits : StorageLimits) : TransactionMutation → Result Unit
  | .put key value => do
    validateValue limits value
    validateEncodedKey key.encode
  | .delete key => validateEncodedKey key.encode

def validateTransactionMutations (limits : StorageLimits) : List TransactionMutation → Result Unit
  | [] => .ok ()
  | mutation :: rest => do
    validateTransactionMutation limits mutation
    validateTransactionMutations limits rest

/-- The first condition that does not hold is the transaction's conflict. -/
def checkConditions : List TransactionCondition → Prog Unit
  | [] => pure ()
  | condition :: rest => do
    let actual ← getObservedState condition.key
    check (condition.satisfied actual) (.conflict ⟨condition.key, condition.expectation, actual⟩)
    checkConditions rest

/-- Everything a transaction is refused for before it stages a page. -/
def validateTransaction (limits : StorageLimits) (request : TransactionRequest) : Prog Unit := do
  ofExcept request.validate
  ofExcept (validateTransactionMutations limits request.mutations)
  checkConditions request.conditions

/-- Stops at the first mutation that fails. -/
def mutateAll (limits : StorageLimits) : List TransactionMutation → Prog Unit
  | [] => pure ()
  | .put key value :: rest => do
    let _ ← put limits key value
    mutateAll limits rest
  | .delete key :: rest => do
    let _ ← delete key
    mutateAll limits rest

end Dodb
