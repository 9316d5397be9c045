import Dodb.Btree.Published

/-! Batches on a running store.

A batch is prepared and published. On a steady store it is answered as the reference map answers it, and the store then
holds the map it makes; or it is refused and nothing has changed; or the store or the process has stopped in it, and then
what a power loss leaves is the database without the batch or with all of it. -/
namespace Dodb
open Lib File

variable [Crc32c]

/-- A steady store with the documents of `db`, whose last commit has the LSN `top`. -/
def Store.On (config : DatabaseConfig) (files : FileId → File) (s : Store) (top : Lsn) (db : ReferenceDb) : Prop :=
  ∃ commits c, s.Steady config files commits c db ∧ c.top = top

/-- A store that has failed: its memory has what the data file does not hold. -/
inductive Store.Failed (config : DatabaseConfig) (files : FileId → File) (s : Store)
    (allowed : Lsn → ReferenceDb → Prop) : Prop where
  | unwritten (hbroken : s.broken.isSome = true) (commits : List WalCommit) (c : Contents) (db : ReferenceDb)
      (chain : List (PreparedBatch × ReferenceDb)) (h : s.Interrupted config files commits c db chain)
      (hallowed : ∀ top documents, AfterSome c db chain top documents → allowed top documents)

section Batch
variable {config : DatabaseConfig} {files : FileId → File} {s : Store} {top : Lsn} {db : ReferenceDb}
  {allowed : Lsn → ReferenceDb → Prop}

theorem Store.Failed.broken (h : s.Failed config files allowed) : s.broken.isSome = true := by
  cases h with
  | unwritten hbroken => exact hbroken

theorem Store.Failed.survives (h : s.Failed config files allowed) : Survives config.identity files allowed := by
  cases h with
  | unwritten hbroken commits c db chain h hallowed => exact h.survives.mono hallowed

theorem Store.On.survives (h : s.On config files top db) :
    Survives config.identity files fun top' db' => top' = top ∧ db' = db := by
  obtain ⟨commits, c, hs, rfl⟩ := h
  exact hs.survives

/-- A batch that may or may not have committed. -/
def Perhaps (top : Lsn) (db : ReferenceDb) (requests : List BatchRequest) (top' : Lsn) (db' : ReferenceDb) : Prop :=
  top' = top ∧ db' = db ∨ top < top' ∧ (∃ r ∈ requests, r.Mutates) ∧ db' = (db.executeAll top' requests).2

/-- The answer to a batch and what it makes of the documents. -/
inductive Replied (top : Lsn) (db : ReferenceDb) (requests : List BatchRequest) (responses : List BatchResponse) :
    Lsn → ReferenceDb → Prop where
  | reads (hrequests : ∀ r ∈ requests, ¬r.Mutates) (hresponses : responses = (db.executeAll 0 requests).1) :
      Replied top db requests responses top db
  | commits (committed : Lsn) (hrequests : ∃ r ∈ requests, r.Mutates) (hnewer : top < committed)
      (hresponses : responses = (db.executeAll committed requests).1) :
      Replied top db requests responses committed (db.executeAll committed requests).2

/-- On a store whose ledger has room, a batch that mutates commits. -/
theorem Ledger.water_lt {identity : WalIdentity} {commits : List WalCommit} {c : Contents} {sb : Superblock}
    {slot : SuperblockSlot} {b : Base} {committed : Lsn} {prepared : PreparedBatch}
    (h : Ledger identity commits c db sb slot) (hbase : b.Continues c sb slot)
    (hgrows : prepared.highWaterPageId ≤ c.highWaterPageId + prepared.changedPages.size)
    (hnumbered : committed = b.nextLsn + prepared.changedPages.size + 1) (hlsn : committed + 1 ≤ u64Max) :
    prepared.highWaterPageId < nullPageId := by
  have hwater := h.water
  have hnext := hbase.lsn
  have hnull : nullPageId = u64Max := rfl
  lia

theorem Store.applyBatchWithResponseBudget_spec (hs : s.On config files top db) (requests : List BatchRequest)
    (maxResponseBytes : Nat) {faulted : Bool} :
    Io.Spec (Machine.At files s faulted) (applyBatchWithResponseBudget requests maxResponseBytes)
      (fun responses m => ∃ top' db', Replied top db requests responses top' db' ∧ m.memory.On config m.files top' db')
      (fun _ m => m.memory.On config m.files top db ∨ m.memory.Failed config m.files (Perhaps top db requests))
      (fun m => Survives config.identity m.files (Perhaps top db requests)) := by
  obtain ⟨commits, c, hs, rfl⟩ := hs
  have hkept : ∀ {m : Machine FileId Store}, s.Recached files c m → m.memory.On config m.files c.top db := fun hm =>
    ⟨commits, c, (hs.recached hm).1, rfl⟩
  unfold applyBatchWithResponseBudget
  refine Io.Spec.bind ((prepareBatchWithResponseBudget_spec hs.serves requests maxResponseBytes).conseq (fun _ h => h)
    (fun _ _ h => h) (fun e m hm => .inl (hkept hm)) fun m hm => ?_) fun prepared => ?_
  · exact (hkept hm).survives.mono fun _ _ h => .inl h
  refine Io.Spec.assume fun hprepares => .of_start fun m₀ hm₀ => ?_
  obtain ⟨hfaulted, hm₀⟩ := hm₀
  obtain ⟨hsteady, hbase⟩ := hs.recached hm₀
  have hstart : Machine.At m₀.files m₀.memory faulted m₀ := ⟨rfl, rfl, hfaulted⟩
  refine Io.Spec.pre (P := Machine.At m₀.files m₀.memory faulted) ?_ fun m hm => hm ▸ hstart
  unfold publishPrepared
  cases hprepares with
  | reads hrequests hchanged hgeneration hresponses =>
    have hcheck : checkGenerations m₀.memory.currentSuperblock.generation [prepared] = .ok () := by
      have hsame : m₀.memory.currentSuperblock = s.base.superblock := congrArg Base.superblock hbase
      unfold checkGenerations
      rw [hsame, ensure_pos hgeneration]
      rfl
    have hnothing : ([prepared].all fun candidate => candidate.changedPages.isEmpty) = true := by
      rw [List.all_cons, List.all_nil, hchanged]
      rfl
    unfold publishPreparedGroup requireServing
    simp only [bind_assoc]
    refine memory_bind_spec ?_
    rw [hsteady.serving]
    simp only [pure_bind]
    refine memory_bind_spec ?_
    rw [hcheck, Io.ofExcept_ok, pure_bind, if_pos hnothing, pure_bind]
    refine Io.Spec.pure fun m hm => ⟨c.top, db, .reads hrequests hresponses, commits, c, ?_, rfl⟩
    rw [hm.files, hm.memory]
    exact hsteady
  | commits committed hrequests hgrows hnumbered hlsn hresponses hcommits =>
    have hcontinues := hs.continues
    obtain ⟨hcommits, hvalid⟩ := hcommits
      (hs.ledger.water_lt hcontinues hgrows (hnumbered hcontinues.logged) hlsn)
    have hchain : Chain m₀.memory.base c [(prepared, (db.executeAll committed requests).2)] := by
      rw [hbase]
      exact .cons hcommits hvalid (.nil _ _)
    have hperhaps : ∀ top' db', AfterSome c db [(prepared, (db.executeAll committed requests).2)] top' db' →
        Perhaps c.top db requests top' db' := by
      intro top' db' hafter
      obtain ⟨k, hk, htop, hdb⟩ := hafter
      cases k with
      | zero => exact .inl ⟨htop, hdb⟩
      | succ k =>
        rw [List.take_succ_cons, List.take_nil] at htop hdb
        have htop' : top' = committed := htop.trans hcommits.top
        rw [htop']
        exact .inr ⟨hcommits.newer, hrequests, hdb⟩
    refine Io.Spec.bind ((publishPreparedGroup_spec hsteady hchain (List.cons_ne_nil _ _)).conseq (fun _ h => h)
      (fun _ _ h => h) (fun e m hm => .inr ?_) fun m hm => hm.survives.mono hperhaps) fun _ => ?_
    · exact .unwritten hm.1 _ _ _ _ hm.2 hperhaps
    · refine Io.Spec.pure fun m hm => ⟨committed, _, .commits committed hrequests hcommits.newer hresponses, _, _, hm.1, ?_⟩
      exact hcommits.top

end Batch

end Dodb
