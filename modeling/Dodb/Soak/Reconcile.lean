import Dodb.Core.Transaction
import Dodb.Lib.Choices

/-! The oracle of the soak runs: what may have become of operations whose outcome is unknown.

After a crash some mutations were sent and not answered. Each has been applied as a whole, or not at all, and
nobody knows which, nor in what order. `reconcileUnknownOperations` is given what the model expects of the keys
they write and what a read found there, and answers whether the two can be reconciled. It decides that in three
ways: where every operation writes one key it looks at the keys one by one, where there are many operations it asks
whether all of them have been applied, and otherwise it searches through the choices of operations and orders.

`Explained` says what it is asked, on documents and without indices or masks: some of the operations, one after
the other, lead from what was expected to what was found. -/
namespace Dodb.Soak
open Lib
variable {shapes : List StateShape}

/-! ### Values and states -/

/-- The digest of a value, from another library. -/
class Sha256 where
  digest : Bytes → Vector UInt8 32

variable [Sha256]

def modelInlineValueLimit : Nat := 512

/-- A value by its length and digest; a short one is kept as well. -/
structure ExpectedValue where
  length : Nat
  digest : Vector UInt8 32
  inlined : Option Bytes
  deriving DecidableEq, Repr

namespace ExpectedValue

/-- A long value is kept as its length and digest. -/
def fromBytes (value : Bytes) : ExpectedValue where
  length := value.length
  digest := Sha256.digest value
  inlined := if value.length ≤ modelInlineValueLimit then some value else none

def matchesValue (expected : ExpectedValue) (value : Bytes) : Bool :=
  expected.length == value.length && expected.digest == Sha256.digest value

end ExpectedValue

/-- What the model expects of a key. -/
inductive ExpectedState
  | present (value : ExpectedValue) (revision : Revision)
  | missing (revision : Revision)
  deriving DecidableEq, Repr

def ExpectedState.matchesRevisionState : ExpectedState → RevisionState → Bool
  | .present value revision, .present actualValue actualRevision =>
    revision == actualRevision && value.matchesValue actualValue
  | .missing revision, .missing actualRevision => revision == actualRevision
  | _, _ => false

/-- A state without its revision, which a lost reply does not tell. -/
inductive StateShape
  | missing
  | present (value : ExpectedValue)
  deriving DecidableEq, Repr

omit [Sha256] in
def expectedStateShape : ExpectedState → StateShape
  | .present value _ => .present value
  | .missing _ => .missing

/-- What a read shows of a state, for comparison with the model. -/
def actualStateShape : RevisionState → StateShape
  | .present value _ => .present (.fromBytes value)
  | .missing _ => .missing

/-! ### Operations -/

/-- What a planned mutation does. -/
inductive PlannedMutationKind
  | put
  | delete
  deriving DecidableEq, Repr

/-- A mutation the workload has made up. -/
structure PlannedMutation where
  key : DocumentKey
  kind : PlannedMutationKind
  value : Bytes
  deriving DecidableEq, Repr

/-- An operation the workload has sent. -/
inductive GeneratedOperation
  | get (tenant : TenantId) (key : DocumentKey)
  | put (tenant : TenantId) (key : DocumentKey) (value : Bytes)
  | delete (tenant : TenantId) (key : DocumentKey)
  | query (tenant : TenantId) (pk : PrimaryKey) (exclusiveAfterSk : Option SortKey) (limit : Nat)
  | scan (tenant : TenantId) (exclusiveAfterKey : Option DocumentKey) (limit : Nat)
  | concurrentGet (tenant : TenantId) (keys : List DocumentKey)
  | transact (tenant : TenantId) (mutations : List PlannedMutation)
  deriving DecidableEq, Repr

/-- What became of the operations whose replies were lost. -/
inductive UnknownMutationResolution
  | applied
  | notApplied
  | partially
  deriving DecidableEq, Repr

/-- What an operation does to the shapes of the keys: the index of each key it writes, and what it writes. -/
abbrev Effects := List (Nat × StateShape)

def PlannedMutation.shape (mutation : PlannedMutation) : StateShape :=
  match mutation.kind with
  | .put => .present (.fromBytes mutation.value)
  | .delete => .missing

def position (keys : List DocumentKey) (key : DocumentKey) (error : String) : Except String Nat :=
  match keys.idxOf? key with
  | some index => .ok index
  | none => .error error

/-- The shapes the operation gives its keys, by position. -/
def operationEffects (operation : GeneratedOperation) (keys : List DocumentKey) : Except String Effects :=
  match operation with
  | .put _ key value => do
    let index ← position keys key "unknown put key was not included in reconciliation set"
    return [(index, .present (.fromBytes value))]
  | .delete _ key => do
    let index ← position keys key "unknown delete key was not included in reconciliation set"
    return [(index, .missing)]
  | .transact _ mutations => mutations.mapM fun mutation => do
    let index ← position keys mutation.key "unknown transaction key was not included in reconciliation set"
    return (index, mutation.shape)
  | _ => .error "non-mutation operation cannot have an unknown outcome"

/-! ### Reconciliation -/

/-- The shapes after the operation. -/
def applyEffects (shapes : List StateShape) (effects : Effects) : List StateShape :=
  effects.foldl (fun shapes effect => shapes.set effect.1 effect.2) shapes

/-- What the operations that write only the key at an index write there. -/
def possible (effects : List Effects) (keyIndex : Nat) : List StateShape :=
  effects.filterMap fun effect => match effect with
    | (index, shape) :: _ => if index = keyIndex then some shape else none
    | [] => none

/-- A mask has a bit for each of at most 12 operations, so that it fits the 16 bits it has. -/
def reconcileUnknownOperations (operations : List GeneratedOperation) (keys : List DocumentKey)
    (current : List ExpectedState) (actual : List RevisionState) : Except String UnknownMutationResolution :=
  if keys.length ≠ current.length ∨ keys.length ≠ actual.length ∨ operations = [] then
    .error "unknown reconciliation input lengths are inconsistent"
  else do
    let currentShapes := current.map expectedStateShape
    let actualShapes := actual.map actualStateShape
    let effects ← operations.mapM fun operation => operationEffects operation keys
    if (current.zip actual).all fun (expected, actual) => expected.matchesRevisionState actual then
      return .notApplied
    -- Single-key mutations can commit in any order and overwrite one another.
    else if effects.all fun effect => effect.length = 1 then
      if (List.range keys.length).any fun keyIndex => actualShapes[keyIndex]? ≠ currentShapes[keyIndex]? ∧
          ¬(possible effects keyIndex).any fun shape => some shape = actualShapes[keyIndex]? then
        return .partially
      else return .applied
    else if operations.length > 12 then
      let allApplied := effects.all fun effect => effect.all fun (index, shape) => actualShapes[index]? = some shape
      return if allApplied then .applied else .partially
    else
      let fullMask := (1 <<< operations.length) - 1
      let found := (choices applyEffects effects).search (fun (mask, shapes) => mask = fullMask ∧ shapes = actualShapes)
        [(0, currentShapes)] [(0, currentShapes)]
      return if found then .applied else .partially

/-! ### What is asked -/

/-- What an operation writes, in order. -/
def GeneratedOperation.writes : GeneratedOperation → List (DocumentKey × StateShape)
  | .put _ key value => [(key, .present (.fromBytes value))]
  | .delete _ key => [(key, .missing)]
  | .transact _ mutations => mutations.map fun mutation => (mutation.key, mutation.shape)
  | _ => []

/-- The operation applied as a whole to the documents of a tenant. -/
def GeneratedOperation.apply (documents : DocumentKey → StateShape) (operation : GeneratedOperation) :
    DocumentKey → StateShape :=
  operation.writes.foldl (fun documents write => Function.update documents write.1 write.2) documents

def documentsOf (keys : List DocumentKey) (shapes : List StateShape) : DocumentKey → StateShape :=
  fun key => shapes[keys.idxOf key]?.getD .missing

/-- Some of the operations, in some order, lead from the shapes that were expected to the shapes that were found. -/
def Explained (operations : List GeneratedOperation) (keys : List DocumentKey) (current : List ExpectedState)
    (actual : List RevisionState) : Prop :=
  ∃ order : List GeneratedOperation, order.Subperm operations ∧ ∀ key ∈ keys,
    order.foldl GeneratedOperation.apply (documentsOf keys (current.map expectedStateShape)) key =
      documentsOf keys (actual.map actualStateShape) key

/-! ### Effects are writes -/

/-- The effects are what the operation writes, with the index of each key. -/
def Writes (keys : List DocumentKey) (operation : GeneratedOperation) (effects : Effects) : Prop :=
  List.Forall₂ (fun write effect => write.1 ∈ keys ∧ effect = (keys.idxOf write.1, write.2)) operation.writes effects

omit [Sha256] in
theorem position_eq_ok {keys : List DocumentKey} {key : DocumentKey} {error : String} {index : Nat}
    (h : position keys key error = .ok index) : key ∈ keys ∧ index = keys.idxOf key := by
  unfold position at h
  split at h
  · cases h
    rename_i hindex
    obtain ⟨hlt, rfl⟩ := List.findIdx?_eq_some_iff_findIdx_eq.mp hindex
    exact ⟨List.idxOf_lt_length_iff.mp hlt, rfl⟩
  · cases h

theorem operationEffects_writes {operation : GeneratedOperation} {keys : List DocumentKey} {effects : Effects}
    (h : operationEffects operation keys = .ok effects) : Writes keys operation effects := by
  cases operation with
  | put | delete =>
    obtain ⟨index, hindex, h⟩ := except_bind_eq_ok.mp h
    obtain ⟨hmem, rfl⟩ := position_eq_ok hindex
    cases h
    exact .cons ⟨hmem, rfl⟩ .nil
  | transact tenant mutations =>
    unfold Writes GeneratedOperation.writes
    rw [List.forall₂_map_left_iff]
    refine (except_mapM_forall₂ h).imp fun mutation effect heffect => ?_
    obtain ⟨index, hindex, heffect⟩ := except_bind_eq_ok.mp heffect
    obtain ⟨hmem, rfl⟩ := position_eq_ok hindex
    cases heffect
    exact ⟨hmem, rfl⟩
  | get | query | scan | concurrentGet => cases h

omit [Sha256] in
@[simp] theorem length_applyEffects (shapes : List StateShape) (effects : Effects) :
    (applyEffects shapes effects).length = shapes.length := by
  induction effects generalizing shapes with
  | nil => rfl
  | cons effect rest ih => exact (ih _).trans List.length_set

omit [Sha256] in
theorem length_foldl_applyEffects (effects : List Effects) (shapes : List StateShape) :
    (effects.foldl applyEffects shapes).length = shapes.length := by
  induction effects generalizing shapes with
  | nil => rfl
  | cons effect rest ih => exact (ih _).trans (length_applyEffects ..)

omit [Sha256] in
/-- Setting the shape of a key. -/
theorem documentsOf_set {keys : List DocumentKey} (hlen : shapes.length = keys.length)
    {key : DocumentKey} (hkey : key ∈ keys) (shape : StateShape) :
    documentsOf keys (shapes.set (keys.idxOf key) shape) = Function.update (documentsOf keys shapes) key shape := by
  funext other
  unfold documentsOf
  by_cases hother : other = key
  · have hlt : keys.idxOf key < shapes.length := hlen ▸ List.idxOf_lt_length_of_mem hkey
    rw [hother, Function.update_self, List.getElem?_set_self hlt, Option.getD_some]
  · have hne : keys.idxOf key ≠ keys.idxOf other := fun heq => hother ((List.idxOf_inj hkey).mp heq).symm
    rw [Function.update_of_ne hother, List.getElem?_set_ne hne]

theorem documentsOf_applyEffects {keys : List DocumentKey} {operation : GeneratedOperation} {effects : Effects}
    (h : Writes keys operation effects) (hlen : shapes.length = keys.length) :
    documentsOf keys (applyEffects shapes effects) = operation.apply (documentsOf keys shapes) := by
  unfold Writes at h
  unfold applyEffects GeneratedOperation.apply
  generalize operation.writes = writes at h
  induction h generalizing shapes with
  | nil => rfl
  | cons hwrite _ ih =>
    obtain ⟨hkey, rfl⟩ := hwrite
    rw [List.foldl_cons, List.foldl_cons, ← documentsOf_set hlen hkey]
    exact ih (List.length_set.trans hlen)

/-- The effects, applied to the shapes in some order, are the operations applied to the documents. -/
theorem documentsOf_foldl {keys : List DocumentKey} {operations : List GeneratedOperation} {effects : List Effects}
    (h : List.Forall₂ (Writes keys) operations effects) (hlen : shapes.length = keys.length) :
    documentsOf keys (effects.foldl applyEffects shapes) = operations.foldl GeneratedOperation.apply (documentsOf keys shapes) := by
  induction h generalizing shapes with
  | nil => rfl
  | cons hwrites _ ih =>
    rw [List.foldl_cons, List.foldl_cons, ← documentsOf_applyEffects hwrites hlen]
    exact ih ((length_applyEffects ..).trans hlen)

omit [Sha256] in
/-- Shapes of different keys that make the same documents are the same. -/
theorem eq_of_documentsOf {keys : List DocumentKey} (hkeys : keys.Nodup) {shapes' : List StateShape}
    (hlen : shapes.length = keys.length) (hlen' : shapes'.length = keys.length)
    (h : ∀ key ∈ keys, documentsOf keys shapes key = documentsOf keys shapes' key) : shapes = shapes' := by
  refine List.ext_getElem (hlen.trans hlen'.symm) fun i hi hi' => ?_
  have hik : i < keys.length := hlen ▸ hi
  have hdocuments := h keys[i] (List.getElem_mem hik)
  unfold documentsOf at hdocuments
  rwa [hkeys.idxOf_getElem i hik, List.getElem?_eq_getElem hi, List.getElem?_eq_getElem hi'] at hdocuments

/-- What is asked, of the effects and on the shapes. -/
theorem explained_iff {operations : List GeneratedOperation} {keys : List DocumentKey} {current : List ExpectedState}
    {actual : List RevisionState} {effects : List Effects} (hkeys : keys.Nodup) (hcurrent : keys.length = current.length)
    (hactual : keys.length = actual.length) (heffects : List.Forall₂ (Writes keys) operations effects) :
    Explained operations keys current actual ↔ ∃ order : List Effects, order.Subperm effects ∧
      order.foldl applyEffects (current.map expectedStateShape) = actual.map actualStateShape := by
  have hlen : (current.map expectedStateShape).length = keys.length := by rw [List.length_map, hcurrent]
  have hlen' : (actual.map actualStateShape).length = keys.length := by rw [List.length_map, hactual]
  constructor
  · intro h
    obtain ⟨order, hsub, hdocuments⟩ := h
    obtain ⟨chosen, hchosen, hwrites⟩ := exists_subperm_forall₂ hsub heffects
    have hfinal := (length_foldl_applyEffects chosen _).trans hlen
    refine ⟨chosen, hchosen, eq_of_documentsOf hkeys hfinal hlen' fun key hkey => ?_⟩
    rw [documentsOf_foldl hwrites hlen]
    exact hdocuments key hkey
  · intro h
    obtain ⟨order, hsub, hshapes⟩ := h
    obtain ⟨chosen, hchosen, hwrites⟩ := exists_subperm_forall₂ hsub heffects.flip
    refine ⟨chosen, hchosen, fun key _ => ?_⟩
    rw [← documentsOf_foldl hwrites.flip hlen, hshapes]

/-! ### One key at a time -/

section Shapes
omit [Sha256]
variable {effects : List Effects} {current actual : List StateShape}

theorem mem_possible (hsingle : ∀ effect ∈ effects, effect.length = 1) {keyIndex : Nat} {shape : StateShape} :
    shape ∈ possible effects keyIndex ↔ [(keyIndex, shape)] ∈ effects := by
  unfold possible
  rw [List.mem_filterMap]
  constructor
  · intro h
    obtain ⟨effect, hmem, hshape⟩ := h
    obtain ⟨⟨index, written⟩, rfl⟩ := List.length_eq_one_iff.mp (hsingle effect hmem)
    simp only [Option.ite_none_right_eq_some, Option.some.injEq] at hshape
    obtain ⟨rfl, rfl⟩ := hshape
    exact hmem
  · intro h
    exact ⟨_, h, by simp⟩

/-- A key at a time: the first keys are made what was found by operations that write only them. -/
theorem exists_order_of_keys (hlen : current.length = actual.length)
    (h : ∀ k, actual[k]? = current[k]? ∨ ∃ shape, [(k, shape)] ∈ effects ∧ actual[k]? = some shape) (m : Nat) :
    ∃ order : List (Fin effects.length), order.Nodup ∧
      (∀ i ∈ order, ∃ k < m, ∃ shape, effects.get i = [(k, shape)]) ∧
      ∀ k, ((order.map effects.get).foldl applyEffects current)[k]? = if k < m then actual[k]? else current[k]? := by
  induction m with
  | zero => exact ⟨[], List.nodup_nil, fun i hi => absurd hi List.not_mem_nil, fun k => rfl⟩
  | succ m ih =>
    obtain ⟨order, hnodup, hwrite, hshapes⟩ := ih
    obtain hsame | ⟨shape, hmem, hshape⟩ := h m
    · refine ⟨order, hnodup, fun i hi => ?_, fun k => ?_⟩
      · obtain ⟨k, hk, hshape⟩ := hwrite i hi
        exact ⟨k, Nat.lt_succ_of_lt hk, hshape⟩
      · rw [hshapes k]
        obtain hk | rfl | hk := Nat.lt_trichotomy k m
        · rw [if_pos hk, if_pos (Nat.lt_succ_of_lt hk)]
        · rw [if_neg (Nat.lt_irrefl k), if_pos (Nat.lt_succ_self k), hsame]
        · rw [if_neg (Nat.not_lt_of_gt hk), if_neg (by omega)]
    · obtain ⟨i, hi⟩ := List.mem_iff_get.mp hmem
      refine ⟨order ++ [i], ?_, fun j hj => ?_, fun k => ?_⟩
      · refine List.nodup_append.mpr ⟨hnodup, List.nodup_singleton i, fun j hj k hk heq => ?_⟩
        -- An operation that is there already writes an earlier key.
        obtain ⟨k', hk', shape', heffect⟩ := hwrite j hj
        rw [heq, List.mem_singleton.mp hk, hi] at heffect
        cases heffect
        exact Nat.lt_irrefl _ hk'
      · obtain hj | hj := List.mem_append.mp hj
        · obtain ⟨k, hk, hshape⟩ := hwrite j hj
          exact ⟨k, Nat.lt_succ_of_lt hk, hshape⟩
        · rw [List.mem_singleton.mp hj]
          exact ⟨m, Nat.lt_succ_self m, shape, hi⟩
      · have hlast : ((order ++ [i]).map effects.get).foldl applyEffects current =
            ((order.map effects.get).foldl applyEffects current).set m shape := by
          rw [List.map_append, List.foldl_append, List.map_singleton, hi]
          rfl
        have hm : m < ((order.map effects.get).foldl applyEffects current).length := by
          rw [length_foldl_applyEffects, hlen]
          exact (List.getElem?_eq_some_iff.mp hshape).1
        rw [hlast, List.getElem?_set]
        by_cases hmk : m = k
        · rw [if_pos hmk, if_pos hm, ← hmk, if_pos (Nat.lt_succ_self m), hshape]
        · rw [if_neg hmk, hshapes k]
          by_cases hk : k < m
          · rw [if_pos hk, if_pos (Nat.lt_succ_of_lt hk)]
          · rw [if_neg hk, if_neg (by omega)]

/-- Where every operation writes one key, some of them explain what was found exactly when they do so for each key
by itself. -/
theorem explains_iff_keys (hsingle : ∀ effect ∈ effects, effect.length = 1) (hlen : current.length = actual.length) :
    (∃ order : List Effects, order.Subperm effects ∧ order.foldl applyEffects current = actual) ↔
      ∀ k, actual[k]? = current[k]? ∨ ∃ shape, [(k, shape)] ∈ effects ∧ actual[k]? = some shape := by
  constructor
  · intro h k
    obtain ⟨order, hsub, rfl⟩ := h
    have hmem : ∀ effect ∈ order, effect ∈ effects := fun effect heffect => hsub.subset heffect
    clear hsub hlen
    -- The last of them that writes the key leaves what is found there.
    induction order using List.reverseRecOn with
    | nil => exact .inl rfl
    | append_singleton order effect ih =>
      have heffect : effect ∈ effects := hmem effect (by simp)
      obtain ⟨⟨index, shape⟩, rfl⟩ := List.length_eq_one_iff.mp (hsingle effect heffect)
      rw [List.foldl_append]
      show ((order.foldl applyEffects current).set index shape)[k]? = current[k]? ∨ ∃ written, [(k, written)] ∈ effects ∧
        ((order.foldl applyEffects current).set index shape)[k]? = some written
      have hbefore := ih fun effect hmem' => hmem effect (List.mem_append_left _ hmem')
      by_cases hindex : index = k
      · subst hindex
        by_cases hlt : index < (order.foldl applyEffects current).length
        · exact .inr ⟨shape, heffect, List.getElem?_set_self hlt⟩
        · rwa [List.set_eq_of_length_le (Nat.le_of_not_lt hlt)]
      · rwa [List.getElem?_set_ne hindex]
  · intro h
    obtain ⟨order, hnodup, -, hshapes⟩ := exists_order_of_keys hlen h actual.length
    refine ⟨order.map effects.get, subperm_iff_exists_positions.mpr ⟨order, hnodup, rfl⟩, ?_⟩
    refine List.ext_getElem? fun k => ?_
    rw [hshapes k]
    by_cases hk : k < actual.length
    · rw [if_pos hk]
    · rw [if_neg hk, List.getElem?_eq_none (Nat.le_of_not_lt hk), List.getElem?_eq_none (hlen ▸ Nat.le_of_not_lt hk)]

/-! ### All of them -/

/-- Effects that agree with what was found make it so wherever they write. -/
theorem getElem?_applyEffects {shapes : List StateShape} {effect : Effects} (hlen : shapes.length = actual.length)
    (hagree : ∀ e ∈ effect, actual[e.1]? = some e.2) {k : Nat} (h : (∃ e ∈ effect, e.1 = k) ∨ shapes[k]? = actual[k]?) :
    (applyEffects shapes effect)[k]? = actual[k]? := by
  induction effect generalizing shapes with
  | nil => exact h.resolve_left fun ⟨e, he, _⟩ => absurd he List.not_mem_nil
  | cons e rest ih =>
    have he := hagree e List.mem_cons_self
    refine ih (List.length_set.trans hlen) (fun e he => hagree e (List.mem_cons_of_mem _ he)) ?_
    by_cases hk : e.1 = k
    · have hlt : e.1 < shapes.length := hlen ▸ (List.getElem?_eq_some_iff.mp he).1
      rw [← hk]
      exact .inr ((List.getElem?_set_self hlt).trans he.symm)
    · obtain ⟨e', he', hk'⟩ | hold := h
      · obtain rfl | hrest := List.mem_cons.mp he'
        · exact absurd hk' hk
        · exact .inl ⟨e', hrest, hk'⟩
      · exact .inr ((List.getElem?_set_ne hk).trans hold)

theorem explains_of_all (hlen : current.length = actual.length)
    (hagree : ∀ effect ∈ effects, ∀ e ∈ effect, actual[e.1]? = some e.2)
    (hwritten : ∀ k < actual.length, ∃ effect ∈ effects, ∃ e ∈ effect, e.1 = k) :
    effects.foldl applyEffects current = actual := by
  have hall : ∀ (done : List Effects) (shapes : List StateShape), shapes.length = actual.length →
      (∀ effect ∈ done, ∀ e ∈ effect, actual[e.1]? = some e.2) → ∀ k,
      (∃ effect ∈ done, ∃ e ∈ effect, e.1 = k) ∨ shapes[k]? = actual[k]? →
        (done.foldl applyEffects shapes)[k]? = actual[k]? := by
    intro done
    induction done with
    | nil =>
      intro shapes _ _ k h
      exact h.resolve_left fun ⟨effect, heffect, _⟩ => absurd heffect List.not_mem_nil
    | cons effect rest ih =>
      intro shapes hlen hagree k h
      have hfirst := hagree effect List.mem_cons_self
      refine ih _ ((length_applyEffects ..).trans hlen) (fun effect h => hagree effect (List.mem_cons_of_mem _ h)) k ?_
      obtain ⟨effect', heffect', hk⟩ | hold := h
      · obtain rfl | hrest := List.mem_cons.mp heffect'
        · exact .inr (getElem?_applyEffects hlen hfirst (.inl hk))
        · exact .inl ⟨effect', hrest, hk⟩
      · exact .inr (getElem?_applyEffects hlen hfirst (.inr hold))
  refine List.ext_getElem? fun k => hall effects current hlen hagree k ?_
  by_cases hk : k < actual.length
  · exact .inl (hwritten k hk)
  · exact .inr (by rw [List.getElem?_eq_none (Nat.le_of_not_lt hk), List.getElem?_eq_none (hlen ▸ Nat.le_of_not_lt hk)])

end Shapes

/-! ### The answer -/

section Answer
variable {operations : List GeneratedOperation} {keys : List DocumentKey} {current : List ExpectedState}
  {actual : List RevisionState}

/-- What an answer other than an error and `notApplied` comes to. -/
theorem reconcile_cases {resolution : UnknownMutationResolution}
    (h : reconcileUnknownOperations operations keys current actual = .ok resolution) (hsome : resolution ≠ .notApplied) :
    keys.length = current.length ∧ keys.length = actual.length ∧ ∃ effects : List Effects,
      List.Forall₂ (Writes keys) operations effects ∧
      ((∀ effect ∈ effects, effect.length = 1) ∧ (resolution = .applied ↔ ∀ k,
          (actual.map actualStateShape)[k]? = (current.map expectedStateShape)[k]? ∨
            ∃ shape, [(k, shape)] ∈ effects ∧ (actual.map actualStateShape)[k]? = some shape) ∨
        12 < operations.length ∧ (resolution = .applied ↔
          ∀ effect ∈ effects, ∀ e ∈ effect, (actual.map actualStateShape)[e.1]? = some e.2) ∨
        operations.length ≤ 12 ∧ (resolution = .applied ↔ ∃ order : List Effects, order.Subperm effects ∧
          order.foldl applyEffects (current.map expectedStateShape) = actual.map actualStateShape)) := by
  unfold reconcileUnknownOperations at h
  split at h
  · cases h
  rename_i hlengths
  push Not at hlengths
  obtain ⟨hcurrent, hactual, -⟩ := hlengths
  obtain ⟨effects, heffects, h⟩ := except_bind_eq_ok.mp h
  refine ⟨hcurrent, hactual, effects, (except_mapM_forall₂ heffects).imp fun _ _ => operationEffects_writes, ?_⟩
  split at h
  · cases h
    exact absurd rfl hsome
  split at h
  · rename_i hsingle
    have hone : ∀ effect ∈ effects, effect.length = 1 := by simpa using hsingle
    refine .inl ⟨hone, ?_⟩
    have hkey : ∀ k, decide ((actual.map actualStateShape)[k]? ≠ (current.map expectedStateShape)[k]? ∧
          ¬((possible effects k).any fun shape => decide (some shape = (actual.map actualStateShape)[k]?)) = true) = true ↔
        ¬((actual.map actualStateShape)[k]? = (current.map expectedStateShape)[k]? ∨
          ∃ shape, [(k, shape)] ∈ effects ∧ (actual.map actualStateShape)[k]? = some shape) := by
      intro k
      simp only [decide_eq_true_eq, List.any_eq_true, mem_possible hone, not_or, ne_eq, @eq_comm _ (some _)]
    have hkeys : ((List.range keys.length).any fun k => decide (
          (actual.map actualStateShape)[k]? ≠ (current.map expectedStateShape)[k]? ∧
            ¬((possible effects k).any fun shape => decide (some shape = (actual.map actualStateShape)[k]?)) = true)) = true ↔
        ¬∀ k, (actual.map actualStateShape)[k]? = (current.map expectedStateShape)[k]? ∨
          ∃ shape, [(k, shape)] ∈ effects ∧ (actual.map actualStateShape)[k]? = some shape := by
      rw [List.any_eq_true, not_forall]
      constructor
      · intro hbad
        obtain ⟨k, -, hk⟩ := hbad
        exact ⟨k, (hkey k).mp hk⟩
      · intro hbad
        obtain ⟨k, hk⟩ := hbad
        refine ⟨k, List.mem_range.mpr ?_, (hkey k).mpr hk⟩
        by_contra hbeyond
        refine hk (.inl ?_)
        rw [List.getElem?_eq_none, List.getElem?_eq_none]
        · rw [List.length_map, ← hcurrent]
          exact Nat.le_of_not_lt hbeyond
        · rw [List.length_map, ← hactual]
          exact Nat.le_of_not_lt hbeyond
    split at h
    · cases h
      exact iff_of_false nofun (hkeys.mp ‹_›)
    · cases h
      exact iff_of_true rfl (not_not.mp fun hnot => absurd (hkeys.mpr hnot) ‹_›)
  split at h
  · rename_i hmany
    refine .inr (.inl ⟨hmany, ?_⟩)
    cases h
    simp
  · rename_i hfew
    refine .inr (.inr ⟨Nat.le_of_not_lt hfew, ?_⟩)
    cases h
    have hmask : (1 <<< operations.length) - 1 = 2 ^ effects.length - 1 := by
      rw [Nat.one_shiftLeft, (except_mapM_forall₂ heffects).length_eq]
    rw [← search_choices_iff, hmask]
    simp

/-- The oracle excuses only what can be explained: where it answers that the operations are applied, some of them,
in some order and each as a whole, lead to what was found; and up to 12 operations that explain what was found are
never called partly applied. -/
theorem reconcileUnknownOperations_explained (hkeys : keys.Nodup)
    (hwritten : ∀ key ∈ keys, ∃ operation ∈ operations, key ∈ operation.writes.map Prod.fst) :
    (reconcileUnknownOperations operations keys current actual = .ok .applied → Explained operations keys current actual) ∧
      (operations.length ≤ 12 → Explained operations keys current actual →
        reconcileUnknownOperations operations keys current actual ≠ .ok .partially) := by
  constructor
  · intro h
    obtain ⟨hcurrent, hactual, effects, heffects, hcases⟩ := reconcile_cases h nofun
    rw [explained_iff hkeys hcurrent hactual heffects]
    have hlen : (current.map expectedStateShape).length = (actual.map actualStateShape).length := by
      rw [List.length_map, List.length_map, ← hcurrent, hactual]
    obtain ⟨hsingle, hanswer⟩ | ⟨-, hanswer⟩ | ⟨-, hanswer⟩ := hcases
    · exact (explains_iff_keys hsingle hlen).mpr (hanswer.mp rfl)
    · refine ⟨effects, List.Subperm.refl effects, explains_of_all hlen (hanswer.mp rfl) fun k hk => ?_⟩
      rw [List.length_map, ← hactual] at hk
      obtain ⟨operation, hmem, hkey⟩ := hwritten keys[k] (List.getElem_mem hk)
      obtain ⟨effect, heffect, hwrites⟩ := exists_mem_of_forall₂ heffects hmem
      obtain ⟨write, hwrite, hfst⟩ := List.mem_map.mp hkey
      obtain ⟨e, he, -, rfl⟩ := exists_mem_of_forall₂ hwrites hwrite
      exact ⟨effect, heffect, _, he, by rw [hfst, hkeys.idxOf_getElem k hk]⟩
    · exact hanswer.mp rfl
  · intro hfew hexplained h
    obtain ⟨hcurrent, hactual, effects, heffects, hcases⟩ := reconcile_cases h nofun
    rw [explained_iff hkeys hcurrent hactual heffects] at hexplained
    have hlen : (current.map expectedStateShape).length = (actual.map actualStateShape).length := by
      rw [List.length_map, List.length_map, ← hcurrent, hactual]
    obtain ⟨hsingle, hanswer⟩ | ⟨hmany, -⟩ | ⟨-, hanswer⟩ := hcases
    · cases hanswer.mpr ((explains_iff_keys hsingle hlen).mp hexplained)
    · exact Nat.not_lt_of_ge hfew hmany
    · cases hanswer.mpr hexplained

end Answer

omit [Sha256] in
/-- The digests of the one-byte values 1 and 2, and zeros for any other. -/
@[reducible] def sampleSha256 : Sha256 where
  digest value :=
    if value = [1] then
      #v[75, 245, 18, 47, 52, 69, 84, 197, 59, 222, 46, 187, 140, 210, 183, 227,
        209, 96, 10, 214, 49, 195, 133, 165, 215, 204, 226, 60, 119, 133, 69, 154]
    else if value = [2] then
      #v[219, 193, 180, 201, 0, 255, 228, 141, 87, 91, 93, 165, 198, 56, 4, 1,
        37, 246, 93, 176, 254, 62, 36, 73, 75, 118, 234, 152, 100, 87, 217, 134]
    else Vector.replicate 32 0

omit [Sha256] in
/-- A transaction that puts two documents, and is found applied. -/
theorem reconcileUnknownOperations_explained_transaction :
    ∃ (operation : GeneratedOperation) (keys : List DocumentKey) (actual : List RevisionState),
      operation = .transact 1 [⟨⟨[112], [97]⟩, .put, [1]⟩, ⟨⟨[112], [98]⟩, .put, [2]⟩] ∧
      keys = [⟨[112], [97]⟩, ⟨[112], [98]⟩] ∧ actual = [.present [1] 10, .present [2] 10] ∧
      @reconcileUnknownOperations sampleSha256 [operation] keys [.missing 0, .missing 0] actual = .ok .applied ∧
      @Explained sampleSha256 [operation] keys [.missing 0, .missing 0] actual ∧
      @reconcileUnknownOperations sampleSha256 [operation] keys [.missing 0, .missing 0] actual ≠ .ok .partially := by
  refine ⟨_, _, _, rfl, rfl, rfl, ?_⟩
  have happlied : @reconcileUnknownOperations sampleSha256
      [.transact 1 [⟨⟨[112], [97]⟩, .put, [1]⟩, ⟨⟨[112], [98]⟩, .put, [2]⟩]] [⟨[112], [97]⟩, ⟨[112], [98]⟩]
      [.missing 0, .missing 0] [.present [1] 10, .present [2] 10] = .ok .applied := by
    decide +kernel
  obtain ⟨hsound, hcomplete⟩ := @reconcileUnknownOperations_explained sampleSha256
    [.transact 1 [⟨⟨[112], [97]⟩, .put, [1]⟩, ⟨⟨[112], [98]⟩, .put, [2]⟩]] [⟨[112], [97]⟩, ⟨[112], [98]⟩]
    [.missing 0, .missing 0] [.present [1] 10, .present [2] 10] (by decide) (by decide)
  have hexplained := hsound happlied
  exact ⟨happlied, hexplained, hcomplete (by decide) hexplained⟩

end Dodb.Soak
