import Dodb.Btree.Tree

/-! What every program of the tree code keeps to.

Every page is read through `page`, which refuses the numbers of the two superblock slots. So
what the slots hold does not matter to the tree code, and no slot gets into the cache. Only
`allocatePage` moves the high-water mark, and it raises it. -/
namespace Dodb
open Lib PageProg

/-- The program reads data pages only, does not lower the high-water mark, and changes something only if `W`. -/
structure OnData (W : Prop) {α : Type} (p : Prog α) : Prop where
  reads : ReadsOnly W (firstDataPage ≤ ·) p
  rises : ∀ s a s', exec p s = .ok a s' → s.state.highWaterPageId ≤ s'.state.highWaterPageId

variable {W : Prop}

namespace OnData
variable {α β : Type}

/-- A program that only reads leaves the stage as it was. -/
theorem stage_eq {p : Prog α} (hp : OnData False p) {s t : Stage PageId PageData Alloc Error} {a : α}
    (h : exec p s = .ok a t) : t = s := hp.reads.stage_eq h

theorem bind {p : Prog α} {f : α → Prog β} (hp : OnData W p) (hf : ∀ a, OnData W (f a)) : OnData W (p >>= f) where
  reads := hp.reads.bind fun a => (hf a).reads
  rises s b s' h := by
    obtain ⟨a, s₁, hfirst, hrest⟩ := exec_bind_eq_ok h
    exact (hp.rises s a s₁ hfirst).trans ((hf a).rises s₁ b s' hrest)

theorem pure (a : α) : OnData W (pure a : Prog α) where
  reads := True.intro
  rises s b s' h := by
    cases h
    exact le_rfl

theorem raise (e : Error) : OnData W (raise e : Prog α) where
  reads := True.intro
  rises s b s' h := by cases h

theorem ofExcept (x : Result α) : OnData W (ofExcept x : Prog α) := by
  cases x with
  | ok a => exact pure a
  | error e => exact raise e

theorem check (c : Prop) [Decidable c] (e : Error) : OnData W (check c e : Prog Unit) := ofExcept _

/-- What is done with the state that was read. -/
theorem get_bind {f : Alloc → Prog α} (hreads : ∀ a, ReadsOnly W (firstDataPage ≤ ·) (f a))
    (hrises : ∀ s a s', exec (f s.state) s = .ok a s' → s.state.highWaterPageId ≤ s'.state.highWaterPageId) :
    OnData W (MonadState.get >>= f) := ⟨hreads, hrises⟩

theorem get : OnData W (MonadState.get : Prog Alloc) := get_bind (fun _ => True.intro) fun s a s' h => by
  cases h
  exact le_rfl

theorem writePage (p : PageId) (page : PageData) : OnData True (writePage p page : Prog PUnit) where
  reads := ⟨True.intro, True.intro⟩
  rises s b s' h := by
    cases h
    exact le_rfl

theorem ite {c : Prop} [Decidable c] {p q : Prog α} (hp : OnData W p) (hq : OnData W q) :
    OnData W (if c then p else q) := by
  split
  · exact hp
  · exact hq

end OnData

/-! ### Pages -/

theorem page_onData (p : PageId) : OnData W (page p) := by
  refine .get_bind (fun a => ?_) fun s found s' h => ?_
  · unfold PageProg.check
    by_cases h : firstDataPage ≤ p ∧ p ≤ a.highWaterPageId
    · rw [ensure_pos h]
      exact ⟨h.1, fun _ => True.intro⟩
    · rw [ensure_neg h]
      exact True.intro
  · rw [(exec_readPage_eq_ok (exec_check_bind h).2).2]

theorem leaf_onData (p : PageId) : OnData W (leaf p) := by
  refine (page_onData p).bind fun found => ?_
  cases found with
  | leaf => exact .pure _
  | internal | overflow | free => exact .raise _

theorem internal_onData (p : PageId) : OnData W (internal p) := by
  refine (page_onData p).bind fun found => ?_
  cases found with
  | internal => exact .pure _
  | leaf | overflow | free => exact .raise _

theorem allocatePage_onData : OnData True allocatePage := by
  refine .get_bind (fun a => ?_) fun s p s' h => ?_
  · cases a.freeListHead with
    | none => exact (ReadsOnly.ofExcept _).bind fun p => ⟨True.intro, True.intro⟩
    | some p =>
      refine (page_onData p).reads.bind fun found => ?_
      cases found with
      | free => exact ⟨True.intro, True.intro⟩
      | leaf | internal | overflow => exact True.intro
  · cases hfree : s.state.freeListHead with
    | none =>
      rw [hfree] at h
      obtain ⟨q, hadd, hset⟩ := exec_ofExcept_bind h
      obtain ⟨rfl, _⟩ := addOr_eq_ok hadd
      cases hset
      exact Nat.le_succ _
    | some q =>
      rw [hfree] at h
      obtain ⟨found, s₁, hpage, hrest⟩ := exec_bind_eq_ok h
      cases found with
      | free lsn next =>
        cases hrest
        exact le_rfl
      | leaf | internal | overflow => cases hrest

theorem allocateRevision_onData : OnData True allocateRevision :=
  .get_bind (fun _ => ⟨True.intro, True.intro⟩) fun s a s' h => by
    cases h
    exact le_rfl

theorem freePage_onData (p : PageId) (lsn : Revision) : OnData True (freePage p lsn) :=
  .get_bind (fun _ => ⟨True.intro, True.intro, True.intro⟩) fun s a s' h => by
    cases h
    exact le_rfl

/-! ### Searching -/

theorem findLeafFrom_onData (key : Bytes) (bound : Nat) (p : PageId) (route : List PageId) :
    OnData W (findLeafFrom key bound p route) := by
  induction bound generalizing p route with
  | zero => exact .raise _
  | succ bound ih =>
    refine (OnData.check ..).bind fun _ => (page_onData p).bind fun found => ?_
    cases found with
    | leaf => exact .pure _
    | internal => exact ih ..
    | overflow | free => exact .raise _

theorem findLeaf_onData (key : Bytes) : OnData W (findLeaf key) :=
  OnData.get.bind fun _ => findLeafFrom_onData ..

theorem leftmostLeafFrom_onData (bound : Nat) (p : PageId) (visited : List PageId) :
    OnData W (leftmostLeafFrom bound p visited) := by
  induction bound generalizing p visited with
  | zero => exact .raise _
  | succ bound ih =>
    refine (OnData.check ..).bind fun _ => (page_onData p).bind fun found => ?_
    cases found with
    | leaf => exact .pure _
    | internal => exact ih ..
    | overflow | free => exact .raise _

theorem leftmostLeaf_onData : OnData W leftmostLeaf := OnData.get.bind fun _ => leftmostLeafFrom_onData ..

/-! ### Values -/

theorem allocatePages_onData (n : Nat) : OnData True (allocatePages n) := by
  induction n with
  | zero => exact .pure _
  | succ n ih => exact allocatePage_onData.bind fun _ => ih.bind fun _ => .pure _

theorem writeChunks_onData (lsn : Revision) (total : Nat) (ps : List PageId) (chunks : List Bytes) :
    OnData True (writeChunks lsn total ps chunks) := by
  induction ps generalizing chunks with
  | nil => exact .pure _
  | cons p ps ih =>
    cases chunks with
    | nil => exact .pure _
    | cons c cs => exact (OnData.writePage ..).bind fun _ => ih cs

theorem makeValue_onData (limits : StorageLimits) (value : Bytes) (lsn : Revision) :
    OnData True (makeValue limits value lsn) :=
  .ite (.pure _) ((OnData.check ..).bind fun _ => (allocatePages_onData _).bind fun _ =>
    (writeChunks_onData ..).bind fun _ => .pure _)

theorem freeChain_onData (length : Nat) (lsn : Revision) (remaining : Nat) (current : Option PageId)
    (visited : List PageId) (total : Nat) : OnData True (freeChain length lsn remaining current visited total) := by
  induction remaining generalizing current visited total with
  | zero =>
    cases current with
    | none => exact .pure _
    | some p => exact .raise _
  | succ remaining ih =>
    cases current with
    | none => exact .pure _
    | some p =>
      refine (OnData.check ..).bind fun _ => (page_onData p).bind fun found => ?_
      cases found with
      | overflow =>
        exact (OnData.check ..).bind fun _ => (OnData.ofExcept _).bind fun _ => (freePage_onData ..).bind fun _ => ih ..
      | leaf | internal | free => exact .raise _

theorem freeValue_onData (value : Option ValueRef) (lsn : Revision) : OnData True (freeValue value lsn) := by
  unfold freeValue
  split
  · exact (freeChain_onData ..).bind fun _ => OnData.check ..
  · exact .pure _

theorem readChain_onData (length remaining : Nat) (current : Option PageId) (visited : List PageId) (output : Bytes) :
    OnData W (readChain length remaining current visited output) := by
  induction remaining generalizing current visited output with
  | zero =>
    cases current with
    | none => exact .pure _
    | some p => exact .raise _
  | succ remaining ih =>
    cases current with
    | none => exact .pure _
    | some p =>
      refine (OnData.check ..).bind fun _ => (page_onData p).bind fun found => ?_
      cases found with
      | overflow => exact (OnData.check ..).bind fun _ => ih ..
      | leaf | internal | free => exact .raise _

theorem readValue_onData (value : ValueRef) : OnData W (readValue value) := by
  cases value with
  | inline value => exact .pure _
  | overflow head length => exact (readChain_onData ..).bind fun _ => (OnData.check ..).bind fun _ => .pure _

/-! ### Mutations -/

theorem insertParentSeparator_onData (lsn : Revision) (parents : List PageId) (separator : Bytes) (right : PageId) :
    OnData True (insertParentSeparator lsn parents separator right) := by
  induction parents generalizing separator right with
  | nil =>
    refine allocatePage_onData.bind fun _ => .get_bind (fun _ => ⟨True.intro, True.intro, True.intro⟩) fun s a s' h => ?_
    cases h
    exact le_rfl
  | cons p parents ih =>
    refine (internal_onData p).bind fun parent => .ite (.writePage ..) ?_
    refine (OnData.ofExcept _).bind fun split => allocatePage_onData.bind fun rightId => (OnData.check ..).bind fun _ => ?_
    exact (OnData.writePage ..).bind fun _ => (OnData.writePage ..).bind fun _ => ih ..

theorem insertLeafEntries_onData (leafId : PageId) (route : List PageId) (leaf : LeafPage) (lsn : Revision) :
    OnData True (insertLeafEntries leafId route leaf lsn) := by
  refine .ite (.writePage ..) ((OnData.ofExcept _).bind fun split => allocatePage_onData.bind fun rightId => ?_)
  dsimp only
  cases (leaf.entries.drop split).head? with
  | none => exact .raise _
  | some first =>
    exact (OnData.writePage ..).bind fun _ => (OnData.writePage ..).bind fun _ => insertParentSeparator_onData ..

theorem put_onData (limits : StorageLimits) (key : DocumentKey) (value : Bytes) : OnData True (put limits key value) := by
  refine (OnData.ofExcept _).bind fun _ => (OnData.ofExcept _).bind fun _ => allocateRevision_onData.bind fun revision => ?_
  refine (findLeaf_onData _).bind fun found => (leaf_onData _).bind fun page => (makeValue_onData ..).bind fun valueRef => ?_
  dsimp only
  split
  · exact (insertLeafEntries_onData ..).bind fun _ => (freeValue_onData ..).bind fun _ => .pure _
  · exact (insertLeafEntries_onData ..).bind fun _ => .pure _

theorem delete_onData (key : DocumentKey) : OnData True (delete key) := by
  refine (OnData.ofExcept _).bind fun _ => allocateRevision_onData.bind fun revision => ?_
  refine (findLeaf_onData _).bind fun found => (leaf_onData _).bind fun page => ?_
  unfold searchLeaf
  dsimp only
  split
  · exact (OnData.writePage ..).bind fun _ => (freeValue_onData ..).bind fun _ => .pure _
  · exact (insertLeafEntries_onData ..).bind fun _ => .pure _

/-! ### Reads -/

theorem getState_onData (key : DocumentKey) (budget : ResponseBudget) : OnData W (getState key budget) := by
  refine (OnData.ofExcept _).bind fun _ => (findLeaf_onData _).bind fun found => (leaf_onData _).bind fun page => ?_
  cases page.entries.find? fun entry => decide (entry.key = key.encode) with
  | none => exact (OnData.ofExcept _).bind fun _ => .pure _
  | some entry =>
    dsimp only
    cases entry.value with
    | none => exact (OnData.ofExcept _).bind fun _ => .pure _
    | some value => exact (OnData.ofExcept _).bind fun _ => (readValue_onData _).bind fun _ => .pure _

theorem pushRow_onData (limit : Nat) (key : DocumentKey) (entry : LeafEntry) (s : RowState) :
    OnData W (pushRow limit key entry s) := by
  unfold pushRow
  cases entry.value with
  | none => exact .pure _
  | some value => exact (OnData.ofExcept _).bind fun _ => (readValue_onData _).bind fun _ => .pure _

theorem queryEntries_onData (pk : PrimaryKey) (after : Option SortKey) (cursor : Option Bytes) (limit : Nat)
    (entries : List LeafEntry) (s : RowState) : OnData W (queryEntries pk after cursor limit entries s) := by
  induction entries generalizing s with
  | nil => exact .pure _
  | cons entry rest ih =>
    refine .ite (ih _) ((OnData.ofExcept _).bind fun key => .ite (.ite (.pure _) (ih _)) (.ite (ih _) ?_))
    exact (pushRow_onData ..).bind fun s => .ite (.pure _) (ih _)

theorem queryLeaves_onData (pk : PrimaryKey) (after : Option SortKey) (cursor : Option Bytes) (limit bound : Nat)
    (p : PageId) (visited : List PageId) (s : RowState) :
    OnData W (queryLeaves pk after cursor limit bound p visited s) := by
  induction bound generalizing p visited s with
  | zero => exact .raise _
  | succ bound ih =>
    refine .ite (.pure _) ((OnData.check ..).bind fun _ => (leaf_onData p).bind fun page => ?_)
    refine (queryEntries_onData ..).bind fun s => .ite (.pure _) ?_
    cases page.nextLeaf with
    | none => exact .pure _
    | some next => exact ih ..

theorem query_onData (pk : PrimaryKey) (after : Option SortKey) (limit : Nat) (budget : ResponseBudget) :
    OnData W (query pk after limit budget) := by
  refine .ite (.pure _) ((OnData.ofExcept _).bind fun _ => (findLeaf_onData _).bind fun found => ?_)
  cases after with
  | none => exact OnData.get.bind fun _ => (queryLeaves_onData ..).bind fun _ => .pure _
  | some sk => exact (OnData.ofExcept _).bind fun _ => OnData.get.bind fun _ => (queryLeaves_onData ..).bind fun _ => .pure _

theorem scanEntries_onData (cursor : Option Bytes) (limit : Nat) (entries : List LeafEntry) (s : RowState) :
    OnData W (scanEntries cursor limit entries s) := by
  induction entries generalizing s with
  | nil => exact .pure _
  | cons entry rest ih =>
    exact .ite (ih _) ((OnData.ofExcept _).bind fun key => (pushRow_onData ..).bind fun s => .ite (.pure _) (ih _))

theorem scanLeaves_onData (cursor : Option Bytes) (limit bound : Nat) (p : PageId) (visited : List PageId)
    (s : RowState) : OnData W (scanLeaves cursor limit bound p visited s) := by
  induction bound generalizing p visited s with
  | zero => exact .raise _
  | succ bound ih =>
    refine (OnData.check ..).bind fun _ => (leaf_onData p).bind fun page => (scanEntries_onData ..).bind fun s =>
      .ite (.pure _) ?_
    cases page.nextLeaf with
    | none => exact .pure _
    | some next => exact ih ..

theorem scan_onData (cursor : Option DocumentKey) (limit : Nat) (budget : ResponseBudget) :
    OnData W (scan cursor limit budget) := by
  refine .ite (.pure _) ?_
  have hrest : ∀ leafId, OnData W (do
      let a ← MonadState.get
      let s ← scanLeaves (cursor.map DocumentKey.encode) limit (a.highWaterPageId + 1) leafId []
        ⟨false, true, budget, []⟩
      Pure.pure (s.rows, s.budget) : Prog (List Document × ResponseBudget)) := fun leafId =>
    OnData.get.bind fun _ => (scanLeaves_onData ..).bind fun _ => .pure _
  cases cursor with
  | none => exact leftmostLeaf_onData.bind hrest
  | some key => exact (OnData.ofExcept _).bind fun _ => (findLeaf_onData _).bind fun found => hrest found.1

/-! ### Requests -/

theorem execute_onData (limits : StorageLimits) (request : BatchRequest) (budget : ResponseBudget) :
    OnData True (execute limits request budget) := by
  cases request with
  | get key => exact (getState_onData ..).bind fun _ => .pure _
  | put key value => exact (put_onData ..).bind fun _ => .pure _
  | delete key => exact (delete_onData _).bind fun _ => .pure _
  | query pk after limit => exact (query_onData ..).bind fun _ => .pure _
  | scan after limit => exact (scan_onData ..).bind fun _ => .pure _

theorem executeAll_onData (limits : StorageLimits) (requests : List BatchRequest) (budget : ResponseBudget) :
    OnData True (executeAll limits requests budget) := by
  induction requests generalizing budget with
  | nil => exact .pure _
  | cons request rest ih => exact (execute_onData ..).bind fun _ => (ih _).bind fun _ => .pure _

end Dodb
