import Dodb.Btree.Applied

/-! The calls of a store, and what becomes of the database in each.

A call that returns on a store that serves has answered as the reference map answers it (`Returns`). One that does not
return leaves the store as it was; or it leaves a store that has failed, or no process at all, and files in which the call
has taken effect, or not (`Call.Effects`). -/
namespace Dodb
open Lib File

variable [Crc32c]

namespace Store

/-- The calls of a store that are batches. -/
inductive Call where
  | get (key : DocumentKey)
  | put (key : DocumentKey) (value : Bytes)
  | delete (key : DocumentKey)
  | query (pk : PrimaryKey) (exclusiveAfterSk : Option SortKey) (limit : Nat)
  | scan (exclusiveAfterKey : Option DocumentKey) (limit : Nat)
  | applyBatch (requests : List BatchRequest)
  | applyBatchWithResponseBudget (requests : List BatchRequest) (maxResponseBytes : Nat)

/-- What a call on the store returns. -/
inductive Answer where
  | state (state : RevisionState)
  | revision (revision : Revision)
  | rows (rows : List Document)
  | responses (responses : List BatchResponse)

/-- Every call of the store's interface but transactions, flushes and checkpoints. -/
def perform : Call → Op Answer
  | .get key => .state <$> get key
  | .put key value => .revision <$> put key value
  | .delete key => .revision <$> delete key
  | .query pk exclusiveAfterSk limit => .rows <$> query pk exclusiveAfterSk limit
  | .scan exclusiveAfterKey limit => .rows <$> scan exclusiveAfterKey limit
  | .applyBatch requests => .responses <$> applyBatch requests
  | .applyBatchWithResponseBudget requests maxResponseBytes =>
    .responses <$> applyBatchWithResponseBudget requests maxResponseBytes

/-- The answer to a call on the documents of `db`, whose last commit is `top`, and what it makes of them. -/
inductive Returns (top : Lsn) (db : ReferenceDb) : Call → Answer → Lsn → ReferenceDb → Prop where
  | get (key : DocumentKey) : Returns top db (.get key) (.state (db.get key)) top db
  | put (key : DocumentKey) (value : Bytes) (committed : Lsn) (hnewer : top < committed) :
      Returns top db (.put key value) (.revision committed) committed (db.execute committed (.put key value)).2
  | delete (key : DocumentKey) (committed : Lsn) (hnewer : top < committed) :
      Returns top db (.delete key) (.revision committed) committed (db.execute committed (.delete key)).2
  | query (pk : PrimaryKey) (exclusiveAfterSk : Option SortKey) (limit : Nat) :
      Returns top db (.query pk exclusiveAfterSk limit) (.rows (db.query pk exclusiveAfterSk limit)) top db
  | scan (exclusiveAfterKey : Option DocumentKey) (limit : Nat) :
      Returns top db (.scan exclusiveAfterKey limit) (.rows (db.scan exclusiveAfterKey limit)) top db
  | applyBatch (requests : List BatchRequest) (responses : List BatchResponse) (top' : Lsn) (db' : ReferenceDb)
      (h : Replied top db requests responses top' db') :
      Returns top db (.applyBatch requests) (.responses responses) top' db'
  | applyBatchWithResponseBudget (requests : List BatchRequest) (maxResponseBytes : Nat) (responses : List BatchResponse)
      (top' : Lsn) (db' : ReferenceDb) (h : Replied top db requests responses top' db') :
      Returns top db (.applyBatchWithResponseBudget requests maxResponseBytes) (.responses responses) top' db'

/-- What a call that has not returned may have made of the database. -/
def Call.Effects (top : Lsn) (db : ReferenceDb) : Call → Lsn → ReferenceDb → Prop
  | .get _, top', db' => top' = top ∧ db' = db
  | .put key value, top', db' => Perhaps top db [.put key value] top' db'
  | .delete key, top', db' => Perhaps top db [.delete key] top' db'
  | .query _ _ _, top', db' => top' = top ∧ db' = db
  | .scan _ _, top', db' => top' = top ∧ db' = db
  | .applyBatch requests, top', db' => Perhaps top db requests top' db'
  | .applyBatchWithResponseBudget requests _, top', db' => Perhaps top db requests top' db'

section Serving
variable {config : DatabaseConfig} {files : FileId → File} {s : Store} {top : Lsn} {db : ReferenceDb} {faulted : Bool}

/-- How a call on a running store may end. -/
abbrev Ends {α : Type} (config : DatabaseConfig) (files : FileId → File) (s : Store) (top : Lsn) (db : ReferenceDb)
    (faulted : Bool) (p : Op α) (returns : α → Lsn → ReferenceDb → Prop) (effects : Lsn → ReferenceDb → Prop) : Prop :=
  Io.Spec (Machine.At files s faulted) p
    (fun a m => ∃ top' db', returns a top' db' ∧ m.memory.On config m.files top' db')
    (fun _ m => m.memory.On config m.files top db ∨ m.memory.Failed config m.files effects)
    (fun m => Survives config.identity m.files effects)

theorem Failed.mono {allowed allowed' : Lsn → ReferenceDb → Prop} (h : s.Failed config files allowed)
    (himp : ∀ top db, allowed top db → allowed' top db) : s.Failed config files allowed' := by
  cases h with
  | unwritten hbroken commits c db chain h hallowed =>
    exact .unwritten hbroken commits c db chain h fun top documents hafter => himp _ _ (hallowed _ _ hafter)

theorem Ends.conseq {α : Type} {p : Op α} {returns returns' : α → Lsn → ReferenceDb → Prop}
    {effects effects' : Lsn → ReferenceDb → Prop} (h : Ends config files s top db faulted p returns effects)
    (hreturns : ∀ a top' db', returns a top' db' → returns' a top' db')
    (heffects : ∀ top' db', effects top' db' → effects' top' db') :
    Ends config files s top db faulted p returns' effects' := by
  refine Io.Spec.conseq h (fun _ h => h) (fun a m hm => ?_) (fun e m hm => ?_) fun m hm => hm.mono heffects
  · obtain ⟨top', db', ha, hm⟩ := hm
    exact ⟨top', db', hreturns a top' db' ha, hm⟩
  · exact hm.imp_right fun hm => hm.mono heffects

theorem Ends.map {α β : Type} {p : Op α} {f : α → β} {returns : β → Lsn → ReferenceDb → Prop}
    {effects : Lsn → ReferenceDb → Prop} (h : Ends config files s top db faulted p (fun a => returns (f a)) effects) :
    Ends config files s top db faulted (f <$> p) returns effects := by
  rw [map_eq_pure_bind]
  exact Io.Spec.bind h fun a => .pure fun m hm => hm

theorem applyBatch_ends (hs : s.On config files top db) (requests : List BatchRequest) :
    Ends config files s top db faulted (applyBatch requests) (fun responses => Replied top db requests responses)
      (Perhaps top db requests) := applyBatchWithResponseBudget_spec hs requests usizeMax

omit [Crc32c] in
theorem Perhaps.reads {requests : List BatchRequest} {top' : Lsn} {db' : ReferenceDb} (h : Perhaps top db requests top' db')
    (hreads : ∀ r ∈ requests, ¬r.Mutates) : top' = top ∧ db' = db := by
  obtain h | ⟨-, ⟨r, hr, hmutates⟩, -⟩ := h
  · exact h
  · exact absurd hmutates (hreads r hr)

/-- A batch of one request that reads. -/
theorem read_ends {α : Type} (hs : s.On config files top db) (request : BatchRequest) (hreads : ¬request.Mutates)
    {k : List BatchResponse → Op α} {a : α} (hk : k [(db.execute 0 request).1] = pure a) :
    Ends config files s top db faulted (applyBatch [request] >>= k) (fun b top' db' => b = a ∧ top' = top ∧ db' = db)
      (fun top' db' => top' = top ∧ db' = db) := by
  have hall : ∀ r ∈ [request], ¬r.Mutates := fun r hr => List.mem_singleton.mp hr ▸ hreads
  refine Io.Spec.bind ((applyBatch_ends hs [request]).conseq (fun _ _ _ h => h) fun _ _ h => Perhaps.reads h hall)
    fun responses => .of_start fun m₀ hm₀ => ?_
  obtain ⟨top', db', hreplied, hm₀⟩ := hm₀
  cases hreplied with
  | reads _ hresponses =>
    have hanswer : responses = [(db.execute 0 request).1] := hresponses
    rw [hanswer, hk]
    exact Io.Spec.pure fun m hm => ⟨top, db, ⟨rfl, rfl, rfl⟩, hm ▸ hm₀⟩
  | commits committed hrequests =>
    obtain ⟨r, hr, hmutates⟩ := hrequests
    exact absurd hmutates (hall r hr)

/-- A batch of one request that mutates. -/
theorem mutate_ends (hs : s.On config files top db) (request : BatchRequest) (hmutates : request.Mutates)
    {k : List BatchResponse → Op Revision} (hk : ∀ committed, k [(db.execute committed request).1] = pure committed) :
    Ends config files s top db faulted (applyBatch [request] >>= k)
      (fun r top' db' => top < r ∧ top' = r ∧ db' = (db.execute r request).2) (Perhaps top db [request]) := by
  refine Io.Spec.bind (applyBatch_ends hs [request]) fun responses => .of_start fun m₀ hm₀ => ?_
  obtain ⟨top', db', hreplied, hm₀⟩ := hm₀
  cases hreplied with
  | reads hreads => exact absurd hmutates (hreads request (List.mem_singleton_self _))
  | commits _ _ hnewer hresponses =>
    have hanswer : responses = [(db.execute top' request).1] := hresponses
    rw [hanswer, hk]
    exact Io.Spec.pure fun m hm => ⟨top', _, ⟨hnewer, rfl, rfl⟩, hm ▸ hm₀⟩

/-- Every call on a running store. -/
theorem perform_spec (hs : s.On config files top db) (call : Call) :
    Ends config files s top db faulted (perform call) (Returns top db call) (call.Effects top db) := by
  cases call with
  | get key =>
    refine Ends.map (Ends.conseq (read_ends hs (.get key) id rfl) (fun a top' db' h => ?_) fun _ _ h => h)
    obtain ⟨rfl, rfl, rfl⟩ := h
    exact .get key
  | put key value =>
    refine Ends.map (Ends.conseq (mutate_ends hs (.put key value) True.intro fun _ => rfl) (fun r top' db' h => ?_)
      fun _ _ h => h)
    obtain ⟨hnewer, rfl, rfl⟩ := h
    exact .put key value _ hnewer
  | delete key =>
    refine Ends.map (Ends.conseq (mutate_ends hs (.delete key) True.intro fun _ => rfl) (fun r top' db' h => ?_)
      fun _ _ h => h)
    obtain ⟨hnewer, rfl, rfl⟩ := h
    exact .delete key _ hnewer
  | query pk exclusiveAfterSk limit =>
    refine Ends.map (Ends.conseq (read_ends hs (.query pk exclusiveAfterSk limit) id rfl) (fun a top' db' h => ?_)
      fun _ _ h => h)
    obtain ⟨rfl, rfl, rfl⟩ := h
    exact .query pk exclusiveAfterSk limit
  | scan exclusiveAfterKey limit =>
    refine Ends.map (Ends.conseq (read_ends hs (.scan exclusiveAfterKey limit) id rfl) (fun a top' db' h => ?_)
      fun _ _ h => h)
    obtain ⟨rfl, rfl, rfl⟩ := h
    exact .scan exclusiveAfterKey limit
  | applyBatch requests =>
    exact Ends.map ((applyBatch_ends hs requests).conseq (fun a _ _ h => .applyBatch requests a _ _ h) fun _ _ h => h)
  | applyBatchWithResponseBudget requests maxResponseBytes =>
    have hbatch : Ends config files s top db faulted _ _ _ :=
      applyBatchWithResponseBudget_spec hs requests maxResponseBytes
    exact Ends.map (hbatch.conseq (fun a _ _ h => .applyBatchWithResponseBudget requests maxResponseBytes a _ _ h)
      fun _ _ h => h)

/-! ### Calls that return -/

/-- A batch that changed no page is published by answering it. -/
theorem publishPrepared_unchanged {prepared : PreparedBatch} {m : Machine FileId Store} (hserving : m.memory.broken = none)
    (hgeneration : prepared.baseGeneration = m.memory.currentSuperblock.generation)
    (hchanged : prepared.changedPages = .empty) : publishPrepared prepared m = .ok prepared.responses m := by
  have hall : ([prepared].all fun candidate => candidate.changedPages.isEmpty) = true := by
    rw [List.all_cons, hchanged]
    rfl
  have hserves : requireServing m = .ok ⟨⟩ m := by
    unfold requireServing
    rw [Io.bind_apply]
    dsimp only [memory]
    rw [hserving]
    rfl
  unfold publishPrepared publishPreparedGroup
  rw [Io.bind_apply, Io.bind_apply, hserves]
  dsimp only
  rw [Io.bind_apply]
  dsimp only [memory, checkGenerations]
  rw [ensure_pos hgeneration, except_ok_bind, Io.ofExcept_ok, pure_bind, if_pos hall]
  rfl

/-- With no failure to come, requests that only read are answered. -/
theorem applyBatch_quiet (hs : s.On config files top db) {requests : List BatchRequest} {budget : ResponseBudget}
    (hbudget : ResponseBudget.new usizeMax = .ok budget) {responses : List BatchResponse}
    (hexec : PageProg.exec (executeAll s.config.limits requests budget) (s.stage files) = .ok responses (s.stage files)) :
    ∃ m, applyBatch requests ⟨files, s, [], faulted⟩ = .ok responses m := by
  obtain ⟨commits, c, hsteady, -⟩ := hs
  have hcoherent := hsteady.serves.coherent hsteady.serves.remembers.cache
  have hmodels := Overlay.models_new (m := ⟨files, s, [], faulted⟩) hcoherent
  have hcovers : Overlay.Covers files s ⟨files, Overlay.new s, [], faulted⟩ (s.stage files) :=
    ⟨hmodels.on, rfl, hmodels.reflects.read, fun p page _ hp => hp, rfl⟩
  obtain ⟨m, hrun, -⟩ := Overlay.exec_covers _ _ _ _ _ hcovers hexec
  have hsim := Overlay.exec_models (executeAll_onData s.config.limits requests budget) _ _ hmodels
  dsimp only at hsim
  rw [hrun] at hsim
  obtain ⟨st, hst, hm⟩ := hsim
  cases hexec.symm.trans hst
  obtain ⟨cache, hsame⟩ := hm.on.same
  have hfinish : ∃ prepared, m.memory.finish responses = .ok prepared ∧ prepared.responses = responses ∧
      prepared.changedPages = .empty ∧ prepared.baseGeneration = s.currentSuperblock.generation := by
    have hlast : m.memory.alloc.lastLsn = none := congrArg Alloc.lastLsn hm.reflects.alloc
    have hdirty : m.memory.dirty = .empty := hm.reflects.dirty
    unfold Overlay.finish
    rw [hlast, hdirty, hsame]
    exact ⟨_, rfl, rfl, rfl, rfl⟩
  obtain ⟨prepared, hprepared, hresponses, hchanged, hgeneration⟩ := hfinish
  have hprepare : prepareBatch requests ⟨files, s, [], faulted⟩ = .ok prepared ⟨m.files, m.memory.store, m.schedule, m.faulted⟩ := by
    unfold prepareBatch prepareBatchWithResponseBudget onOverlay zoom
    dsimp only
    rw [hbudget, Io.ofExcept_ok, pure_bind, Io.bind_apply]
    dsimp only [memory]
    rw [Io.bind_apply]
    dsimp only [Overlay.new] at hrun ⊢
    rw [hrun]
    dsimp only
    rw [Io.bind_apply]
    dsimp only [memory]
    rw [hprepared]
    rfl
  have hserving : m.memory.store.broken = none := by
    rw [hsame]
    exact hsteady.serving
  rw [← hresponses, applyBatch, Io.bind_apply, hprepare]
  exact ⟨_, publishPrepared_unchanged hserving (by rw [hgeneration, hsame]) hchanged⟩

/-- With no failure to come, a get is answered if the answer is within the budget of a batch. -/
theorem perform_get_quiet (hs : s.On config files top db) {key : DocumentKey}
    (hkey : validateEncodedKey key.encode = .ok ()) {budget left : ResponseBudget}
    (hbudget : ResponseBudget.new usizeMax = .ok budget)
    (hleft : budget.reserveState (db.get key).valueLength = .ok left) :
    ∃ m, perform (.get key) ⟨files, s, [], faulted⟩ = .ok (.state (db.get key)) m := by
  obtain ⟨commits, c, hsteady, -⟩ := id hs
  obtain ⟨t, free, hhealthy, hholds⟩ := hsteady.serves.healthy
  have hget := hhealthy.exec_getState hkey budget
  rw [← hholds.get key, hleft] at hget
  have hexec : PageProg.exec (executeAll s.config.limits [.get key] budget) (s.stage files) =
      .ok [.get (db.get key)] (s.stage files) := by
    unfold executeAll execute
    dsimp only
    rw [bind_assoc, PageProg.exec_bind_ok hget]
    rfl
  obtain ⟨m, hrun⟩ : ∃ m, applyBatch [.get key] ⟨files, s, [], faulted⟩ = .ok [.get (db.get key)] m :=
    applyBatch_quiet hs hbudget hexec
  refine ⟨m, ?_⟩
  show (Answer.state <$> get key) _ = _
  rw [map_eq_pure_bind, get, bind_assoc, Io.bind_apply, hrun]
  rfl

end Serving

end Store

end Dodb
