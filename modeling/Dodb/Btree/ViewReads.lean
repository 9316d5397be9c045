import Dodb.Btree.ReadView
import Dodb.Lib.Alike

/-! The readers of a committed read view do what the readers of the overlay do.

Function by function, the two go over the same pages and answer the same. Where a page is not what it should be,
both complain of corruption, in different words. -/
namespace Dodb
open Lib PageProg

/-- The same error, or corruption in both. -/
def Complains (e e' : Error) : Prop := e = e' ∨ ∃ text text', e = .corruption text ∧ e' = .corruption text'

theorem Complains.refl (e : Error) : Complains e e := .inl rfl

theorem complains_corruption (text text' : String) : Complains (.corruption text) (.corruption text') :=
  .inr ⟨text, text', rfl, rfl⟩

/-- A reader of the view does what a reader of the overlay does. -/
abbrev Mirrors {α β : Type} (R : α → β → Prop) (p : Prog α) (q : Prog β) : Prop :=
  Alike (fun _ => False) Complains R p q

section Mirrors
variable {α β : Type}

theorem mirrors_raise (R : α → β → Prop) (text text' : String) :
    Mirrors R (raise (.corruption text)) (raise (.corruption text')) :=
  .fail (complains_corruption text text')

theorem mirrors_check {c d : Prop} [Decidable c] [Decidable d] (h : c ↔ d) (text text' : String) :
    Mirrors Eq (check c (.corruption text)) (check d (.corruption text')) :=
  .check h (complains_corruption text text')

theorem mirrors_same (p : Prog α) : Mirrors Eq p p := .refl Complains.refl p

theorem mirrors_get : Mirrors Eq (MonadState.get : Prog Alloc) MonadState.get := mirrors_same _

end Mirrors

namespace CommittedReadView

theorem page_mirrors (p : PageId) : Mirrors Eq (page p) (Dodb.page p) := by
  refine mirrors_get.bind fun a b hab => ?_
  rw [hab]
  exact (mirrors_check Iff.rfl ..).bind fun _ _ _ => mirrors_same _

theorem leaf_mirrors (other : String) (p : PageId) : Mirrors Eq (leaf other p) (Dodb.leaf p) := by
  refine (page_mirrors p).bind fun found found' hfound => ?_
  rw [hfound]
  cases found' with
  | leaf lsn next entries => exact .done rfl
  | internal | overflow | free => exact mirrors_raise ..

/-! ### Searching -/

theorem findLeafFrom_mirrors (key : Bytes) (bound : Nat) (p : PageId) {visited route : List PageId}
    (hvisited : ∀ q, q ∈ visited ↔ q ∈ route) :
    Mirrors (fun a b => a = b.1) (findLeafFrom key bound p visited) (Dodb.findLeafFrom key bound p route) := by
  induction bound generalizing p visited route with
  | zero => exact mirrors_raise ..
  | succ bound ih =>
    refine (mirrors_check (not_congr (hvisited p)) ..).bind fun _ _ _ => ?_
    refine (page_mirrors p).bind fun found found' hfound => ?_
    rw [hfound]
    cases found' with
    | leaf => exact .done rfl
    | internal lsn leftmost entries =>
      refine ih _ fun q => ?_
      rw [List.mem_cons, List.mem_append, List.mem_singleton, hvisited q, or_comm]
    | overflow | free => exact mirrors_raise ..

theorem findLeaf_mirrors (key : Bytes) : Mirrors (fun a b => a = b.1) (findLeaf key) (Dodb.findLeaf key) := by
  refine mirrors_get.bind fun a b hab => ?_
  rw [hab]
  exact findLeafFrom_mirrors key _ _ fun _ => Iff.rfl

theorem leftmostLeafFrom_mirrors (bound : Nat) (p : PageId) (visited : List PageId) :
    Mirrors Eq (leftmostLeafFrom bound p visited) (Dodb.leftmostLeafFrom bound p visited) := by
  induction bound generalizing p visited with
  | zero => exact mirrors_raise ..
  | succ bound ih =>
    refine (mirrors_check Iff.rfl ..).bind fun _ _ _ => ?_
    refine (page_mirrors p).bind fun found found' hfound => ?_
    rw [hfound]
    cases found' with
    | leaf => exact .done rfl
    | internal => exact ih ..
    | overflow | free => exact mirrors_raise ..

theorem leftmostLeaf_mirrors : Mirrors Eq leftmostLeaf Dodb.leftmostLeaf := by
  refine mirrors_get.bind fun a b hab => ?_
  rw [hab]
  exact leftmostLeafFrom_mirrors ..

/-! ### Values -/

theorem readChain_mirrors (length remaining : Nat) (p : Option PageId) (visited : List PageId) (output : Bytes) :
    Mirrors Eq (readChain length remaining p visited output) (Dodb.readChain length remaining p visited output) := by
  induction remaining generalizing p visited output with
  | zero =>
    cases p with
    | none => exact .done rfl
    | some p => exact mirrors_raise ..
  | succ remaining ih =>
    cases p with
    | none => exact .done rfl
    | some p =>
      refine (mirrors_check Iff.rfl ..).bind fun _ _ _ => ?_
      refine (page_mirrors p).bind fun found found' hfound => ?_
      rw [hfound]
      cases found' with
      | overflow => exact (mirrors_check Iff.rfl ..).bind fun _ _ _ => ih ..
      | leaf | internal | free => exact mirrors_raise ..

theorem readValue_mirrors (value : ValueRef) : Mirrors Eq (readValue value) (Dodb.readValue value) := by
  cases value with
  | inline bytes => exact .done rfl
  | overflow head length =>
    refine (readChain_mirrors ..).bind fun output output' houtput => ?_
    rw [houtput]
    exact (mirrors_check Iff.rfl ..).bind fun _ _ _ => .done rfl

theorem getWithBudget_mirrors (key : DocumentKey) (budget : ResponseBudget) :
    Mirrors Eq (getWithBudget key budget) (getState key budget) := by
  refine (mirrors_same _).bind fun _ _ _ => ?_
  refine (findLeaf_mirrors _).bind fun leafId found hfound => ?_
  rw [hfound]
  refine (leaf_mirrors ..).bind fun leaf leaf' hleaf => ?_
  rw [hleaf]
  cases leaf'.entries.find? fun entry => decide (entry.key = key.encode) with
  | none => exact mirrors_same _
  | some entry =>
    dsimp only
    cases entry.value with
    | none => exact mirrors_same _
    | some value =>
      refine (mirrors_same _).bind fun b b' hb => ?_
      rw [hb]
      refine (readValue_mirrors value).bind fun bytes bytes' hbytes => ?_
      rw [hbytes]
      exact .done rfl

/-! ### Rows -/

theorem pushRow_mirrors (limit : Nat) (key : DocumentKey) (entry : LeafEntry) (s : RowState) :
    Mirrors Eq (pushRow limit key entry s) (Dodb.pushRow limit key entry s) := by
  unfold pushRow Dodb.pushRow
  cases entry.value with
  | none => exact .done rfl
  | some value =>
    refine (mirrors_same _).bind fun b b' hb => ?_
    rw [hb]
    refine (readValue_mirrors value).bind fun bytes bytes' hbytes => ?_
    rw [hbytes]
    exact .done rfl

theorem queryEntries_mirrors (pk : PrimaryKey) (after : Option SortKey) (cursor : Option Bytes) (limit : Nat)
    (entries : List LeafEntry) (s : RowState) :
    Mirrors Eq (queryEntries pk after cursor limit entries s) (Dodb.queryEntries pk after cursor limit entries s) := by
  induction entries generalizing s with
  | nil => exact .done rfl
  | cons entry rest ih =>
    unfold queryEntries Dodb.queryEntries
    split
    · exact ih s
    · refine (mirrors_same _).bind fun key key' hkey => ?_
      rw [hkey]
      split
      · split
        · exact .done rfl
        · exact ih _
      · split
        · exact ih _
        · refine (pushRow_mirrors ..).bind fun r r' hr => ?_
          rw [hr]
          split
          · exact .done rfl
          · exact ih _

theorem queryLeaves_mirrors (pk : PrimaryKey) (after : Option SortKey) (cursor : Option Bytes) (limit bound : Nat)
    (p : PageId) (visited : List PageId) (s : RowState) :
    Mirrors Eq (queryLeaves pk after cursor limit bound p visited s)
      (Dodb.queryLeaves pk after cursor limit bound p visited s) := by
  induction bound generalizing p visited s with
  | zero => exact mirrors_raise ..
  | succ bound ih =>
    unfold queryLeaves Dodb.queryLeaves
    split
    · exact .done rfl
    · refine (mirrors_check Iff.rfl ..).bind fun _ _ _ => ?_
      refine (leaf_mirrors ..).bind fun leaf leaf' hleaf => ?_
      rw [hleaf]
      refine (queryEntries_mirrors ..).bind fun r r' hr => ?_
      rw [hr]
      split
      · exact .done rfl
      · cases leaf'.nextLeaf with
        | none => exact .done rfl
        | some next => exact ih ..

theorem queryWithBudget_mirrors (pk : PrimaryKey) (after : Option SortKey) (limit : Nat) (budget : ResponseBudget) :
    Mirrors Eq (queryWithBudget pk after limit budget) (query pk after limit budget) := by
  unfold queryWithBudget query
  split
  · exact .done rfl
  · refine (mirrors_same _).bind fun _ _ _ => ?_
    refine (findLeaf_mirrors _).bind fun leafId found hfound => ?_
    rw [hfound]
    have hrows : ∀ cursor, Mirrors Eq
        (do
          let a ← get
          let s ← queryLeaves pk after cursor limit (a.highWaterPageId + 1) found.1 [] ⟨false, true, budget, []⟩
          pure (s.rows, s.budget))
        (do
          let a ← get
          let s ← Dodb.queryLeaves pk after cursor limit (a.highWaterPageId + 1) found.1 [] ⟨false, true, budget, []⟩
          pure (s.rows, s.budget)) := by
      intro cursor
      refine mirrors_get.bind fun a b hab => ?_
      rw [hab]
      refine (queryLeaves_mirrors ..).bind fun r r' hr => ?_
      rw [hr]
      exact .done rfl
    cases after with
    | none => exact hrows _
    | some sk => exact (mirrors_same _).bind fun _ _ _ => hrows _

theorem scanEntries_mirrors (cursor : Option Bytes) (limit : Nat) (entries : List LeafEntry) (s : RowState) :
    Mirrors Eq (scanEntries cursor limit entries s) (Dodb.scanEntries cursor limit entries s) := by
  induction entries generalizing s with
  | nil => exact .done rfl
  | cons entry rest ih =>
    unfold scanEntries Dodb.scanEntries
    split
    · exact ih s
    · refine (mirrors_same _).bind fun key key' hkey => ?_
      rw [hkey]
      refine (pushRow_mirrors ..).bind fun r r' hr => ?_
      rw [hr]
      split
      · exact .done rfl
      · exact ih _

theorem scanLeaves_mirrors (cursor : Option Bytes) (limit bound : Nat) (p : PageId) (visited : List PageId)
    (s : RowState) :
    Mirrors Eq (scanLeaves cursor limit bound p visited s) (Dodb.scanLeaves cursor limit bound p visited s) := by
  induction bound generalizing p visited s with
  | zero => exact mirrors_raise ..
  | succ bound ih =>
    refine (mirrors_check Iff.rfl ..).bind fun _ _ _ => ?_
    refine (leaf_mirrors ..).bind fun leaf leaf' hleaf => ?_
    rw [hleaf]
    refine (scanEntries_mirrors ..).bind fun r r' hr => ?_
    rw [hr]
    split
    · exact .done rfl
    · cases leaf'.nextLeaf with
      | none => exact .done rfl
      | some next => exact ih ..

theorem scanWithBudget_mirrors (cursor : Option DocumentKey) (limit : Nat) (budget : ResponseBudget) :
    Mirrors Eq (scanWithBudget cursor limit budget) (scan cursor limit budget) := by
  unfold scanWithBudget scan
  split
  · exact .done rfl
  · have hrows : ∀ leafId, Mirrors Eq
        (do
          let a ← get
          let s ← scanLeaves (cursor.map DocumentKey.encode) limit (a.highWaterPageId + 1) leafId []
            ⟨false, true, budget, []⟩
          pure (s.rows, s.budget))
        (do
          let a ← get
          let s ← Dodb.scanLeaves (cursor.map DocumentKey.encode) limit (a.highWaterPageId + 1) leafId []
            ⟨false, true, budget, []⟩
          pure (s.rows, s.budget)) := by
      intro leafId
      refine mirrors_get.bind fun a b hab => ?_
      rw [hab]
      refine (scanLeaves_mirrors ..).bind fun r r' hr => ?_
      rw [hr]
      exact .done rfl
    cases cursor with
    | none =>
      refine leftmostLeaf_mirrors.bind fun leafId found hfound => ?_
      rw [hfound]
      exact hrows _
    | some key =>
      refine (mirrors_same _).bind fun _ _ _ => ?_
      refine (findLeaf_mirrors _).bind fun leafId found hfound => ?_
      rw [hfound]
      exact hrows _

/-- Every read of the view does what the overlay does for the same request. -/
theorem execute_mirrors {request : BatchRequest} {read : ResponseBudget → Prog (BatchResponse × ResponseBudget)}
    (h : execute request = some read) (limits : StorageLimits) (budget : ResponseBudget) :
    Mirrors Eq (read budget) (Dodb.execute limits request budget) := by
  cases request with
  | get key =>
    cases h
    refine (getWithBudget_mirrors key budget).bind fun x y hxy => ?_
    rw [hxy]
    exact .done rfl
  | query pk after limit =>
    cases h
    refine (queryWithBudget_mirrors pk after limit budget).bind fun x y hxy => ?_
    rw [hxy]
    exact .done rfl
  | scan after limit =>
    cases h
    refine (scanWithBudget_mirrors after limit budget).bind fun x y hxy => ?_
    rw [hxy]
    exact .done rfl
  | put | delete => cases h

end CommittedReadView

end Dodb
