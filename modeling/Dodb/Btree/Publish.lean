import Dodb.Btree.Contents

/-! Preparing batches.

A prepared batch reads only or commits new contents (`Prepares`), whatever the schedule does
to the reads of its pages; the store it was prepared on keeps everything but its cache. -/
namespace Dodb
open Lib PageProg SearchTree

variable [Crc32c]

/-! ### Preparing -/

/-- What is prepared from `requests` on the contents `c`: a batch that reads, or one that commits with
the LSN `committed`. -/
inductive Prepares (b : Base) (c : Contents) (db : ReferenceDb) (requests : List BatchRequest)
    (prepared : PreparedBatch) : Prop where
  | reads (hrequests : ∀ r ∈ requests, ¬r.Mutates) (hchanged : prepared.changedPages = .empty)
      (hgeneration : prepared.baseGeneration = b.superblock.generation)
      (hresponses : prepared.responses = (db.executeAll 0 requests).1)
  | commits (committed : Lsn) (hrequests : ∃ r ∈ requests, r.Mutates)
      (hgrows : prepared.highWaterPageId ≤ c.highWaterPageId + prepared.changedPages.size)
      (hnumbered : b.logged = true → committed = b.nextLsn + prepared.changedPages.size + 1)
      (hlsn : committed + 1 ≤ u64Max)
      (hresponses : prepared.responses = (db.executeAll committed requests).1)
      (hcommits : prepared.highWaterPageId < nullPageId → Commits b c committed prepared ∧
        (c.after prepared).Valid (db.executeAll committed requests).2)

section Prepare
variable {files : FileId → File} {s : Store} {c : Contents} {db : ReferenceDb} {b : Bool}

/-- What an overlay that has run a batch hands to publication. -/
theorem Overlay.Models.prepares {m : Machine FileId Overlay} {st' : TreeStage} {requests : List BatchRequest}
    {budget : ResponseBudget} {responses : List BatchResponse} {prepared : PreparedBatch} (hs : s.Serves files c db)
    (hexec : PageProg.exec (executeAll s.config.limits requests budget) (s.stage files) = .ok responses st')
    (hm : Overlay.Models files s (s.view files) (Overlay.new s).frame b m st')
    (hfinish : m.memory.finish responses = .ok prepared) : Prepares s.base c db requests prepared := by
  obtain ⟨t, free, hhealthy, hholds⟩ := hs.healthy
  have hnext : (s.stage files).state.lastLsn.getD (s.stage files).state.nextRevision = c.top + 1 :=
    hs.remembers.nextRevision
  have hstaged : Staged (c.top + 1) (c.top + 1) db (s.stage files) t free :=
    ⟨hhealthy.mono (Nat.le_succ _), hnext, hholds, Nat.succ_ne_zero _, le_rfl⟩
  obtain ⟨hresponses, ⟨_, hadvanced⟩, hmutates, t', free', hstaged'⟩ := hstaged.executeAll hexec
  obtain ⟨cache, hstore⟩ := hm.on.same
  have hlast : m.memory.alloc.lastLsn = st'.state.lastLsn := congrArg Alloc.lastLsn hm.reflects.alloc
  cases hlsn : st'.state.lastLsn with
  | none =>
    have hreads : ∀ r ∈ requests, ¬r.Mutates := by
      intro r hr hrm
      rw [hmutates ⟨r, hr, hrm⟩] at hlsn
      cases hlsn
    have hsame : st' = s.stage files := by
      refine hadvanced.resolve_right fun hsome => ?_
      rw [hlsn] at hsome
      cases hsome
    have hdirty : m.memory.dirty = .empty := by rw [hm.reflects.dirty, hsame]; rfl
    unfold Overlay.finish at hfinish
    rw [hlast, hlsn, hdirty, hstore] at hfinish
    cases hfinish
    refine .reads hreads rfl rfl ?_
    rw [hresponses, db.executeAll_of_reads hreads 0]
  | some provisional =>
    have hrequests := hstaged.mutates_of_lastLsn rfl hexec hlsn
    have hprovisional : provisional = c.top + 1 := by
      rw [hmutates hrequests] at hlsn
      exact (Option.some.inj hlsn).symm
    subst hprovisional
    obtain ⟨committed, hcommitted, hrenumbered, hfinished⟩ := Overlay.finish_eq_ok (hlast.trans hlsn) hfinish
    have hbase : m.memory.Finished s.base.superblock s.base.slot s.base.nextBatchId (c.top + 1) committed prepared := by
      rw [hstore] at hfinished
      exact hfinished
    rw [hstore] at hcommitted
    have hnumbered : s.base.logged = true → committed = s.base.nextLsn + (m.memory.dirty.size + 1) := by
      intro hlogged
      unfold Overlay.commitLsnOf at hcommitted
      rw [if_pos (show s.wal.isSome = true from hlogged)] at hcommitted
      exact (addOr_eq_ok hcommitted).1
    have hle : c.top + 1 ≤ committed := by
      by_cases hlogged : s.wal.isSome = true
      · have hlt := hs.lsn hlogged
        rw [hnumbered hlogged]
        exact (show c.top + 1 ≤ s.nextLsn from hlt).trans (Nat.le_add_right _ _)
      · unfold Overlay.commitLsnOf at hcommitted
        rw [if_neg hlogged] at hcommitted
        exact (Except.ok.inj hcommitted).le
    have hrestamp : (db.executeAll committed requests) =
        ((db.executeAll (c.top + 1) requests).1.map (Overlay.restampResponse (c.top + 1) committed),
          (db.executeAll (c.top + 1) requests).2.restamp (c.top + 1) committed) := by
      have hold : db.restamp (c.top + 1) committed = db :=
        ReferenceDb.restamp_of_ne fun e he => Nat.ne_of_lt (Nat.lt_succ_of_le (hs.valid.revision_le he))
      rw [← db.executeAll_restamp (Nat.succ_ne_zero _) requests, hold]
    have hmark : prepared.highWaterPageId = st'.state.highWaterPageId := by
      rw [hfinished.highWaterPageId, hm.reflects.alloc]
    have hrises : c.highWaterPageId ≤ st'.state.highWaterPageId := by
      rw [← hs.remembers.highWaterPageId]
      exact (executeAll_onData ..).rises _ _ _ hexec
    refine .commits committed hrequests ?_ (fun hlogged => ?_) hfinished.lsn ?_ fun hwater => ?_
    · rw [hmark, hfinished.size_changedPages, hm.reflects.dirty]
      exact hstaged'.grows hs.valid hs.shown hm.reflects.clean
    · rw [hnumbered hlogged, hfinished.size_changedPages]
      rfl
    · rw [hrenumbered, hresponses, hrestamp]
    · rw [hrestamp]
      obtain ⟨hcommits, hvalid, _⟩ := hbase.commits hstaged' hs.valid hs.shown hm.reflects
        (ReferenceDb.Attains.executeAll (.inr hrequests)) hle hnumbered hrises hs.remembers.superblock.encodable
        (hmark ▸ hwater)
      exact ⟨hcommits, hvalid⟩

/-- As before but for the page cache, which still agrees with the contents. -/
def Store.Recached (files : FileId → File) (s : Store) (c : Contents) (m : Machine FileId Store) : Prop :=
  m.files = files ∧ ∃ cache, cache.Coherent c.view ∧ m.memory = {s with cache}

theorem Store.Serves.recached (hs : s.Serves files c db) {m : Machine FileId Store} (h : s.Recached files c m) :
    m.memory.Serves m.files c db ∧ m.memory.base = s.base := by
  obtain ⟨hfiles, cache, hcache, hmemory⟩ := h
  rw [hfiles, hmemory]
  exact ⟨hs.setCache hcache, rfl⟩

theorem Overlay.On.recached (hs : s.Serves files c db) {n : Machine FileId Overlay} (h : Overlay.On files s n) :
    s.Recached files c ⟨n.files, n.memory.store, n.schedule, n.faulted⟩ := by
  obtain ⟨cache, hstore⟩ := h.same
  have hcoherent := h.coherent
  refine ⟨h.files, cache, ?_, hstore⟩
  rw [hstore] at hcoherent
  refine hcoherent.congr fun p page hp hview => ?_
  by_cases hle : p ≤ c.highWaterPageId
  · rw [← hs.view_of_data ⟨hp, hle⟩]
    exact hview
  · obtain ⟨e, he⟩ := hs.view_beyond (not_le.mp hle)
    rw [he] at hview
    cases hview

theorem Store.prepareBatchWithResponseBudget_spec (hs : s.Serves files c db) (requests : List BatchRequest)
    (maxResponseBytes : Nat) :
    Io.Spec (Machine.At files s b) (prepareBatchWithResponseBudget requests maxResponseBytes)
      (fun prepared m => Prepares s.base c db requests prepared ∧ m.faulted = b ∧ s.Recached files c m)
      (fun _ m => s.Recached files c m) (fun m => s.Recached files c m) := by
  have hmodels : ∀ n, Machine.At files (Overlay.new s) b n →
      Overlay.Models files s (s.view files) (Overlay.new s).frame b n (s.stage files) := by
    intro n hn
    obtain ⟨nfiles, nmemory, nschedule, nfaulted⟩ := n
    obtain ⟨rfl, rfl, rfl⟩ := hn
    exact Overlay.models_new (m := ⟨nfiles, s, nschedule, nfaulted⟩) (hs.coherent hs.remembers.cache)
  have hbody : Io.Spec (Machine.At files (Overlay.new s) b) (do
      let budget ← Io.ofExcept (ResponseBudget.new maxResponseBytes)
      let o ← memory
      let responses ← Overlay.exec (executeAll o.store.config.limits requests budget)
      let o ← memory
      Io.ofExcept (o.finish responses))
      (fun prepared n => Prepares s.base c db requests prepared ∧ n.faulted = b ∧ Overlay.On files s n)
      (fun _ n => Overlay.On files s n) (fun n => Overlay.On files s n) := by
    refine Io.Spec.bind (Q := fun _ => Machine.At files (Overlay.new s) b) (.ofExcept (fun _ _ _ hn => hn)
      fun _ n _ hn => (hmodels n hn).on) fun budget => ?_
    refine Io.Spec.bind (Q := fun o n => o = Overlay.new s ∧ Machine.At files (Overlay.new s) b n)
      (fun n hn => ⟨hn.memory, hn⟩) fun o => .assume fun ho => ?_
    subst ho
    refine Io.Spec.bind (Q := fun responses n => ∃ st', PageProg.exec (executeAll s.config.limits requests budget)
      (s.stage files) = .ok responses st' ∧ Overlay.Models files s (s.view files) (Overlay.new s).frame b n st')
      (((Overlay.exec_models (executeAll_onData s.config.limits requests budget)).spec (s.stage files)).conseq hmodels
        (fun _ _ h => h) (fun e n hn => ?_) fun _ h => h) fun responses => ?_
    · obtain ⟨_, _, hn⟩ | hfailed := hn
      · exact hn.on
      · exact hfailed.2.1
    · refine Io.Spec.of_start fun n ⟨st', hexec, hn⟩ => ?_
      refine Io.Spec.bind (Q := fun o n' => o = n.memory ∧ n' = n) (fun n' hn' => ⟨congrArg _ hn', hn'⟩) fun o => ?_
      refine Io.Spec.assume fun ho => ?_
      subst ho
      refine Io.Spec.ofExcept (fun prepared n' hfinish hn' => ?_) fun e n' _ hn' => ?_
      · rw [hn']
        exact ⟨hn.prepares hs hexec hfinish, hn.faulted, hn.on⟩
      · rw [hn']
        exact hn.on
  have hzoom : Io.Spec (Machine.At files s b) (zoom Overlay.new (fun overlay _ => overlay.store) _) _ _ _ := zoom_spec hbody
  refine hzoom.conseq (fun _ h => h) (fun prepared m h => ?_) (fun e m h => ?_) fun m h => ?_
  · obtain ⟨n, ⟨hprepares, hfaulted, hon⟩, rfl⟩ := h
    exact ⟨hprepares, hfaulted, hon.recached hs⟩
  · obtain ⟨n, hon, rfl⟩ := h
    exact hon.recached hs
  · obtain ⟨n, hon, rfl⟩ := h
    exact hon.recached hs

end Prepare

end Dodb
