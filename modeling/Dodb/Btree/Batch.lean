import Dodb.Btree.Reads
import Dodb.Btree.Mutate
import Dodb.Btree.Overlay

/-! Batches against the reference map.

A tree holds a reference map when its items are the map's bindings in order (`Holds`). Each
request of a batch then answers as the map does and leaves the tree with the map it makes
(`Staged.execute`), all mutations with the one revision the batch works with. Giving that
revision another number later commutes with all of it (`ReferenceDb.executeAll_restamp`). -/
namespace Dodb
open Lib PageProg SearchTree

/-! ### The reference map and batches -/

/-- The request binds a key. -/
def BatchRequest.Mutates : BatchRequest → Prop
  | put _ _ => True
  | delete _ => True
  | get _ => False
  | query _ _ _ => False
  | scan _ _ => False

namespace ReferenceDb

/-- A request of a batch whose mutations have the given revision. -/
def execute (db : ReferenceDb) (revision : Revision) : BatchRequest → BatchResponse × ReferenceDb
  | .get key => (.get (db.get key), db)
  | .put key value => (.put revision, {db with states := mutate db.states revision (.put key value)})
  | .delete key => (.delete revision, {db with states := mutate db.states revision (.delete key)})
  | .query pk exclusiveAfterSk limit => (.query (db.query pk exclusiveAfterSk limit), db)
  | .scan exclusiveAfterKey limit => (.scan (db.scan exclusiveAfterKey limit), db)

/-- The requests one after the other, all with one revision. -/
def executeAll (db : ReferenceDb) (revision : Revision) : List BatchRequest → List BatchResponse × ReferenceDb
  | [] => ([], db)
  | request :: rest =>
    let first := db.execute revision request
    let others := first.2.executeAll revision rest
    (first.1 :: others.1, others.2)

/-- Some key was last bound at `revision`. -/
def Attains (db : ReferenceDb) (revision : Revision) : Prop :=
  ∃ b ∈ db.states.entries, b.2.revision = revision

/-- The map with the revision `provisional` replaced by `committed`. -/
def restamp (db : ReferenceDb) (provisional committed : Revision) : ReferenceDb :=
  {db with states := db.states.map (Overlay.restampState provisional committed)}

section Restamp
variable {provisional committed : Revision}

theorem row_restamp (key : DocumentKey) (state : RevisionState) :
    row key (Overlay.restampState provisional committed state) =
      (row key state).map (Overlay.restampRow provisional committed) := by
  cases state with
  | present value revision =>
    simp only [Overlay.restampState, row, Option.map_some, Overlay.restampRow]
    split <;> rfl
  | missing revision => rfl

theorem filterMap_restamp (db : ReferenceDb) (skip : DocumentKey → Prop) [DecidablePred skip] :
    ((db.restamp provisional committed).states.entries.filterMap fun (key, state) =>
      if skip key then none else row key state) =
      (db.states.entries.filterMap fun (key, state) => if skip key then none else row key state).map
        (Overlay.restampRow provisional committed) := by
  show (List.map _ db.states.entries).filterMap _ = _
  rw [List.filterMap_map, List.map_filterMap]
  refine List.filterMap_congr fun b _ => ?_
  show (if skip b.1 then none else row b.1 (Overlay.restampState provisional committed b.2)) =
    (if skip b.1 then none else row b.1 b.2).map _
  split
  · rfl
  · exact row_restamp b.1 b.2

theorem get_restamp (db : ReferenceDb) (hpos : provisional ≠ 0) (key : DocumentKey) :
    (db.restamp provisional committed).get key = Overlay.restampState provisional committed (db.get key) := by
  unfold get restamp
  dsimp only
  rw [SortedMap.get?_map]
  cases db.states.get? key with
  | some state => rfl
  | none => simp [Overlay.restampState, hpos.symm]

theorem execute_restamp (db : ReferenceDb) (hpos : provisional ≠ 0) (request : BatchRequest) :
    (db.restamp provisional committed).execute committed request =
      (Overlay.restampResponse provisional committed (db.execute provisional request).1,
        (db.execute provisional request).2.restamp provisional committed) := by
  cases request with
  | get key => rw [execute, get_restamp db hpos]; rfl
  | put | delete =>
    simp only [execute, mutate, restamp, SortedMap.map_insert, Overlay.restampResponse, Overlay.restampState, if_pos]
  | query pk after limit =>
    have hrows := @filterMap_restamp provisional committed db (fun key =>
      key.pk ≠ pk ∨ after.any fun cursor => decide (key.sk ≤ cursor)) inferInstance
    simp only [execute, Overlay.restampResponse]
    rw [query, query, hrows, List.map_take]
  | scan after limit =>
    have hrows := @filterMap_restamp provisional committed db (fun key =>
      after.any fun cursor => decide (key ≤ cursor)) inferInstance
    simp only [execute, Overlay.restampResponse]
    rw [scan, scan, hrows, List.map_take]

/-- A batch run with one revision is the batch run with another, renumbered. -/
theorem executeAll_restamp (db : ReferenceDb) (hpos : provisional ≠ 0) (requests : List BatchRequest) :
    (db.restamp provisional committed).executeAll committed requests =
      ((db.executeAll provisional requests).1.map (Overlay.restampResponse provisional committed),
        (db.executeAll provisional requests).2.restamp provisional committed) := by
  induction requests generalizing db with
  | nil => rfl
  | cons request rest ih =>
    simp only [executeAll, execute_restamp db hpos, ih, List.map_cons]

/-- A revision that no key has can be given another number. -/
theorem restamp_of_ne {db : ReferenceDb} (h : ∀ b ∈ db.states.entries, b.2.revision ≠ provisional) :
    db.restamp provisional committed = db := by
  have hentries : (db.restamp provisional committed).states.entries = db.states.entries := by
    refine (List.map_congr_left fun b hb => ?_).trans (List.map_id _)
    obtain ⟨key, state⟩ := b
    have hne : state.revision ≠ provisional := h _ hb
    cases state with
    | present value revision =>
      change revision ≠ provisional at hne
      show (key, RevisionState.present value (if revision = provisional then committed else revision)) = _
      rw [if_neg hne]
      rfl
    | missing revision =>
      change revision ≠ provisional at hne
      show (key, RevisionState.missing (if revision = provisional then committed else revision)) = _
      rw [if_neg hne]
      rfl
  obtain ⟨⟨entries, _⟩, nextLsn⟩ := db
  unfold restamp SortedMap.map at hentries ⊢
  dsimp only at hentries ⊢
  simp only [hentries]

theorem Attains.restamp {db : ReferenceDb} (h : db.Attains provisional) :
    (db.restamp provisional committed).Attains committed := by
  obtain ⟨⟨key, state⟩, hmem, hrevision⟩ := h
  refine ⟨(key, Overlay.restampState provisional committed state), List.mem_map.mpr ⟨_, hmem, rfl⟩, ?_⟩
  cases state with
  | present | missing => exact if_pos hrevision

end Restamp

section Mutates
variable {revision : Revision}

/-- A batch that only reads answers the same whatever revision it works with, and leaves the map. -/
theorem executeAll_of_reads (db : ReferenceDb) {requests : List BatchRequest} (h : ∀ r ∈ requests, ¬r.Mutates)
    (other : Revision) : db.executeAll revision requests = ((db.executeAll other requests).1, db) := by
  induction requests with
  | nil => rfl
  | cons request rest ih =>
    have hfirst : ∀ revision, db.execute revision request = ((db.execute other request).1, db) := by
      intro revision
      have hreads := h request List.mem_cons_self
      cases request with
      | put | delete => exact absurd True.intro hreads
      | get | query | scan => rfl
    have hrest := ih fun r hr => h r (List.mem_cons_of_mem _ hr)
    simp only [executeAll]
    rw [hfirst revision, hfirst other, hrest]

theorem attains_insert {db : ReferenceDb} (key : DocumentKey) {state : RevisionState} (h : state.revision = revision) :
    Attains {db with states := db.states.insert key state} revision :=
  ⟨(key, state), (SortedMap.get?_eq_some_iff ..).mp (SortedMap.get?_insert_self ..), h⟩

theorem Attains.execute {db : ReferenceDb} {request : BatchRequest} (h : db.Attains revision ∨ request.Mutates) :
    (db.execute revision request).2.Attains revision := by
  cases request with
  | put key value | delete key => exact attains_insert key rfl
  | get | query | scan => exact h.resolve_right id

/-- A batch that mutates something leaves its revision in the map. -/
theorem Attains.executeAll {db : ReferenceDb} {requests : List BatchRequest}
    (h : db.Attains revision ∨ ∃ r ∈ requests, r.Mutates) : (db.executeAll revision requests).2.Attains revision := by
  induction requests generalizing db with
  | nil => exact h.resolve_right fun ⟨_, hr, _⟩ => nomatch hr
  | cons request rest ih =>
    refine ih ?_
    by_cases hfirst : db.Attains revision ∨ request.Mutates
    · exact .inl (Attains.execute hfirst)
    · obtain ⟨hattains, hmutates⟩ := not_or.mp hfirst
      obtain ⟨r, hr, hrm⟩ := h.resolve_left hattains
      rcases List.mem_cons.mp hr with rfl | hr
      · exact absurd hrm hmutates
      · exact .inr ⟨r, hr, hrm⟩

end Mutates

end ReferenceDb

/-! ### Trees that hold a map -/

/-- The items are the bindings of the map. -/
def Holds (db : ReferenceDb) (items : List Item) : Prop := db.states.entries = items.map Item.binding

section Holds
variable {db : ReferenceDb} {items : List Item}

theorem Holds.get (h : Holds db items) (key : DocumentKey) : db.get key = stateIn items key := by
  have hlookup : ∀ items : List Item, SortedMap.lookup key (items.map Item.binding) =
      (items.find? fun i => decide (i.sortKey = key.encode)).map Item.state := by
    intro items
    induction items with
    | nil => rfl
    | cons i rest ih =>
      rw [List.map_cons, List.find?_cons]
      unfold Item.binding SortedMap.lookup
      by_cases hkey : key = i.key
      · rw [if_pos hkey, decide_eq_true (by rw [Item.sortKey, hkey])]
        rfl
      · have hne : ¬i.sortKey = key.encode := fun heq => hkey (DocumentKey.encode_injective heq).symm
        rw [if_neg hkey, decide_eq_false hne]
        exact ih
  unfold ReferenceDb.get stateIn SortedMap.get?
  rw [h, hlookup]

/-- Binding an item in the tree is binding its state in the map. -/
theorem Holds.insert (h : Holds db items) (new : Item) :
    Holds {db with states := db.states.insert new.key new.state} (upsert Item.sortKey new items) := by
  show SortedMap.insertEntry new.key new.state db.states.entries = _
  rw [h]
  clear h
  induction items with
  | nil => rfl
  | cons i rest ih =>
    have hlt : Item.sortKey new < Item.sortKey i ↔ new.key < i.key := DocumentKey.encode_lt_encode ..
    have heq : Item.sortKey new = Item.sortKey i ↔ new.key = i.key :=
      ⟨fun heq => DocumentKey.encode_injective heq, fun heq => congrArg DocumentKey.encode heq⟩
    rw [List.map_cons, Item.binding, SortedMap.insertEntry, upsert]
    simp only [hlt, heq]
    split
    · rfl
    · split
      · rfl
      · rw [List.map_cons, ih]
        rfl

theorem row_binding (i : Item) : ReferenceDb.row i.key i.state = i.row := by
  unfold Item.state Item.row
  cases i.value <;> rfl

/-- The rows of the bindings that are not skipped. -/
theorem Holds.rows (h : Holds db items) (skip : DocumentKey → Prop) [DecidablePred skip] :
    (db.states.entries.filterMap fun (key, state) => if skip key then none else ReferenceDb.row key state) =
      items.filterMap fun i => if skip i.key then none else i.row := by
  rw [h, List.filterMap_map]
  refine List.filterMap_congr fun i _ => ?_
  rw [← row_binding]
  rfl

theorem Holds.scan (h : Holds db items) (cursor : Option DocumentKey) (limit : Nat) :
    db.scan cursor limit = (rowsOf (scanVerdict cursor) items).take limit := by
  unfold ReferenceDb.scan
  rw [h.rows fun key => cursor.any fun cursor => decide (key ≤ cursor)]
  congr 1
  clear h
  induction items with
  | nil => rfl
  | cons i rest ih =>
    rw [List.filterMap_cons, ih, rowsOf, scanVerdict]
    by_cases hskip : (cursor.any fun cursor => decide (i.key ≤ cursor)) = true
    · rw [if_pos hskip, if_pos hskip]
    · rw [if_neg hskip, if_neg hskip]
      cases i.row <;> rfl

/-- A query stops at the first item past its primary key; none comes after it. -/
theorem Holds.query (h : Holds db items) (hsorted : items.Pairwise fun a b => a.sortKey < b.sortKey)
    (pk : PrimaryKey) (after : Option SortKey) (limit : Nat) :
    db.query pk after limit = (rowsOf (queryVerdict pk after) items).take limit := by
  unfold ReferenceDb.query
  rw [h.rows fun key => key.pk ≠ pk ∨ after.any fun cursor => decide (key.sk ≤ cursor)]
  congr 1
  clear h
  induction items with
  | nil => rfl
  | cons i rest ih =>
    obtain ⟨hi, hrest⟩ := List.pairwise_cons.mp hsorted
    rw [List.filterMap_cons, ih hrest, rowsOf, queryVerdict]
    by_cases hpk : i.key.pk = pk
    · rw [if_neg (not_not.mpr hpk)]
      by_cases hskip : (after.any fun cursor => decide (i.key.sk ≤ cursor)) = true
      · rw [if_pos (.inr hskip), if_pos hskip]
      · rw [if_neg (not_or.mpr ⟨not_not.mpr hpk, hskip⟩), if_neg hskip]
        cases i.row <;> rfl
    · rw [if_pos (.inl hpk), if_pos hpk]
      by_cases hlt : pk < i.key.pk
      · rw [if_pos hlt]
        -- every later item has a greater primary key still
        have hstop : ∀ j ∈ rest, queryVerdict pk after j = .stop := by
          intro j hj
          have hle := DocumentKey.pk_le_of_le ((DocumentKey.encode_lt_encode ..).mp (hi j hj)).le
          have hgt := hlt.trans_le hle
          rw [queryVerdict, if_pos hgt.ne', if_pos hgt]
        cases rest with
        | nil => rfl
        | cons j rest => rw [rowsOf, hstop j List.mem_cons_self]
      · rw [if_neg hlt]

end Holds

/-! ### Requests on a tree -/

/-- A tree with the documents of `db`, in the middle of a batch that works with the revision `rev`. -/
structure Staged (top : Lsn) (rev : Revision) (db : ReferenceDb) (s : TreeStage) (t : Shape) (free : List PageId) :
    Prop where
  healthy : Healthy top s t free []
  revision : s.state.lastLsn.getD s.state.nextRevision = rev
  holds : Holds db t.items
  positive : rev ≠ 0
  le_top : rev ≤ top

section Staged
variable {top : Lsn} {rev : Revision} {db : ReferenceDb} {s s' : TreeStage} {t : Shape} {free : List PageId}
variable {budget : ResponseBudget} {limits : StorageLimits}

/-- What a run from `s` to `s'` does to the counters: nothing, or it takes the batch's revision. -/
def Advanced (rev : Revision) (s s' : TreeStage) : Prop :=
  s'.state.nextRevision = s.state.nextRevision ∧ (s' = s ∨ s'.state.lastLsn = some rev)

theorem Advanced.trans {s'' : TreeStage} (h : Advanced rev s s') (h' : Advanced rev s' s'') : Advanced rev s s'' := by
  refine ⟨h'.1.trans h.1, ?_⟩
  rcases h'.2 with rfl | hlast
  · exact h.2
  · exact .inr hlast

theorem Staged.items_sorted (h : Staged top rev db s t free) : t.items.Pairwise fun a b => a.sortKey < b.sortKey :=
  h.healthy.order.items

/-- The state of a key that was given a value, or none. -/
def boundState (rev : Revision) : Option Bytes → RevisionState
  | some value => .present value rev
  | none => .missing rev

/-- What a mutation that succeeds does. -/
theorem Staged.mutated (h : Staged top rev db s t free) {program : Prog Revision} {key : DocumentKey}
    {value : Option Bytes} (hmutates : Mutates top s t program key value) {r : Revision}
    (hexec : exec program s = .ok r s') :
    r = rev ∧ (s'.state.nextRevision = s.state.nextRevision ∧ s'.state.lastLsn = some rev) ∧
      ∃ t' free', Staged top rev {db with states := db.states.insert key (boundState rev value)} s' t' free' := by
  rcases hmutates with ⟨e, s₁, herr, _⟩ | ⟨new, t', s₁, free', hok, hkey, hrev, hvalue, hlast, hnext, hbound⟩
  · rw [herr] at hexec
    cases hexec
  · rw [hok] at hexec
    cases hexec
    rw [h.revision] at hrev
    have hstate : new.state = boundState rev value := by
      rw [← hvalue, Item.state, hrev]
      cases new.value <;> rfl
    refine ⟨hrev, ⟨hnext, hrev ▸ hlast⟩, t', free', hbound.healthy, ?_, ?_, h.positive, h.le_top⟩
    · rw [hlast, hrev]
      rfl
    · rw [hbound.items, ← hkey, ← hstate]
      exact h.holds.insert new

theorem Staged.put (h : Staged top rev db s t free) {limits : StorageLimits} {key : DocumentKey} {value : Bytes}
    {r : Revision} (hexec : exec (put limits key value) s = .ok r s') :
    r = rev ∧ (s'.state.nextRevision = s.state.nextRevision ∧ s'.state.lastLsn = some rev) ∧ ∃ t' free', Staged top rev
      {db with states := ReferenceDb.mutate db.states rev (.put key value)} s' t' free' := by
  have hsplit := hexec
  rw [put_eq] at hsplit
  obtain ⟨_, hvalue, hsplit⟩ := exec_ofExcept_bind hsplit
  obtain ⟨_, hkey, _⟩ := exec_ofExcept_bind hsplit
  exact h.mutated (h.healthy.exec_put hvalue hkey (h.revision ▸ h.positive) (h.revision ▸ h.le_top)) hexec

theorem Staged.delete (h : Staged top rev db s t free) {key : DocumentKey} {r : Revision}
    (hexec : exec (delete key) s = .ok r s') :
    r = rev ∧ (s'.state.nextRevision = s.state.nextRevision ∧ s'.state.lastLsn = some rev) ∧ ∃ t' free', Staged top rev
      {db with states := ReferenceDb.mutate db.states rev (.delete key)} s' t' free' := by
  have hsplit := hexec
  unfold Dodb.delete at hsplit
  obtain ⟨_, hkey, _⟩ := exec_ofExcept_bind hsplit
  exact h.mutated (h.healthy.exec_delete hkey (h.revision ▸ h.positive) (h.revision ▸ h.le_top)) hexec

theorem Staged.get (h : Staged top rev db s t free) {key : DocumentKey} {budget : ResponseBudget}
    {answer : RevisionState × ResponseBudget} (hexec : exec (getState key budget) s = .ok answer s') :
    answer.1 = db.get key ∧ s' = s := by
  have hsplit := hexec
  unfold getState at hsplit
  obtain ⟨_, hkey, _⟩ := exec_ofExcept_bind hsplit
  rw [h.healthy.exec_getState hkey] at hexec
  rw [h.holds.get]
  cases hbudget : budget.reserveState (stateIn t.items key).valueLength with
  | ok b =>
    rw [hbudget] at hexec
    cases hexec
    exact ⟨rfl, rfl⟩
  | error e =>
    rw [hbudget] at hexec
    cases hexec

/-- The answer of a walk that succeeds. -/
theorem rows_of_outcome {rows : List Document} {answer : List Document × ResponseBudget}
    (h : outcomeOf s ((reserveRows budget rows).map fun budget => (rows, budget)) = .ok answer s') :
    answer.1 = rows ∧ s' = s := by
  cases hrows : reserveRows budget rows with
  | ok b =>
    rw [hrows] at h
    cases h
    exact ⟨rfl, rfl⟩
  | error e =>
    rw [hrows] at h
    cases h

theorem Staged.query (h : Staged top rev db s t free) {pk : PrimaryKey} {after : Option SortKey} {limit : Nat}
    {answer : List Document × ResponseBudget}
    (hexec : exec (query pk after limit budget) s = .ok answer s') : answer.1 = db.query pk after limit ∧ s' = s := by
  by_cases hlimit : limit = 0
  · unfold Dodb.query at hexec
    rw [if_pos hlimit] at hexec
    cases hexec
    refine ⟨?_, rfl⟩
    rw [ReferenceDb.query, hlimit, List.take_zero]
  · have hsplit := hexec
    unfold Dodb.query at hsplit
    rw [if_neg hlimit] at hsplit
    obtain ⟨_, hpk, hsplit⟩ := exec_ofExcept_bind hsplit
    obtain ⟨_, _, _, hsplit⟩ := exec_bind_eq_ok hsplit
    have hcursor : ∀ sk ∈ after, validateEncodedKey (DocumentKey.encode ⟨pk, sk⟩) = .ok () := by
      intro sk hsk
      rw [Option.mem_def.mp hsk] at hsplit
      obtain ⟨_, hkey, _⟩ := exec_ofExcept_bind hsplit
      exact hkey
    rw [h.healthy.exec_query hpk hcursor hlimit] at hexec
    rw [h.holds.query h.items_sorted]
    exact rows_of_outcome hexec

theorem Staged.scan (h : Staged top rev db s t free) {cursor : Option DocumentKey} {limit : Nat}
    {answer : List Document × ResponseBudget}
    (hexec : exec (scan cursor limit budget) s = .ok answer s') : answer.1 = db.scan cursor limit ∧ s' = s := by
  by_cases hlimit : limit = 0
  · unfold Dodb.scan at hexec
    rw [if_pos hlimit] at hexec
    cases hexec
    refine ⟨?_, rfl⟩
    rw [ReferenceDb.scan, hlimit, List.take_zero]
  · have hsplit := hexec
    unfold Dodb.scan at hsplit
    rw [if_neg hlimit] at hsplit
    have hcursor : ∀ key ∈ cursor, validateEncodedKey key.encode = .ok () := by
      intro key hkey
      rw [Option.mem_def.mp hkey] at hsplit
      obtain ⟨_, hvalid, _⟩ := exec_ofExcept_bind hsplit
      exact hvalid
    rw [h.healthy.exec_scan hcursor hlimit] at hexec
    rw [h.holds.scan]
    exact rows_of_outcome hexec

/-- A request that succeeds answers as the map does, and leaves the tree with the map it makes. -/
theorem Staged.execute (h : Staged top rev db s t free) {request : BatchRequest}
    {answer : BatchResponse × ResponseBudget} (hexec : exec (execute limits request budget) s = .ok answer s') :
    answer.1 = (db.execute rev request).1 ∧ Advanced rev s s' ∧ (request.Mutates → s'.state.lastLsn = some rev) ∧
      ∃ t' free', Staged top rev (db.execute rev request).2 s' t' free' := by
  cases request with
  | get key =>
    obtain ⟨found, s₁, hget, hrest⟩ := exec_bind_eq_ok hexec
    obtain ⟨hstate, rfl⟩ := h.get hget
    cases hrest
    exact ⟨congrArg BatchResponse.get hstate, ⟨rfl, .inl rfl⟩, False.elim, t, free, h⟩
  | put key value =>
    obtain ⟨r, s₁, hput, hrest⟩ := exec_bind_eq_ok hexec
    obtain ⟨rfl, ⟨hnext, hlast⟩, hstaged⟩ := h.put hput
    cases hrest
    exact ⟨rfl, ⟨hnext, .inr hlast⟩, fun _ => hlast, hstaged⟩
  | delete key =>
    obtain ⟨r, s₁, hdelete, hrest⟩ := exec_bind_eq_ok hexec
    obtain ⟨rfl, ⟨hnext, hlast⟩, hstaged⟩ := h.delete hdelete
    cases hrest
    exact ⟨rfl, ⟨hnext, .inr hlast⟩, fun _ => hlast, hstaged⟩
  | query pk after limit =>
    obtain ⟨found, s₁, hquery, hrest⟩ := exec_bind_eq_ok hexec
    obtain ⟨hrows, rfl⟩ := h.query hquery
    cases hrest
    exact ⟨congrArg BatchResponse.query hrows, ⟨rfl, .inl rfl⟩, False.elim, t, free, h⟩
  | scan after limit =>
    obtain ⟨found, s₁, hscan, hrest⟩ := exec_bind_eq_ok hexec
    obtain ⟨hrows, rfl⟩ := h.scan hscan
    cases hrest
    exact ⟨congrArg BatchResponse.scan hrows, ⟨rfl, .inl rfl⟩, False.elim, t, free, h⟩

/-- A request that binds no key leaves the stage. -/
theorem Staged.execute_reads (h : Staged top rev db s t free) {request : BatchRequest}
    (hreads : ¬request.Mutates) {answer : BatchResponse × ResponseBudget}
    (hexec : exec (Dodb.execute limits request budget) s = .ok answer s') : s' = s := by
  cases request with
  | get key =>
    obtain ⟨found, s₁, hget, hrest⟩ := exec_bind_eq_ok hexec
    cases hrest
    exact (h.get hget).2
  | put | delete => exact absurd True.intro hreads
  | query pk after limit =>
    obtain ⟨found, s₁, hquery, hrest⟩ := exec_bind_eq_ok hexec
    cases hrest
    exact (h.query hquery).2
  | scan after limit =>
    obtain ⟨found, s₁, hscan, hrest⟩ := exec_bind_eq_ok hexec
    cases hrest
    exact (h.scan hscan).2

theorem Staged.executeAll (h : Staged top rev db s t free) {requests : List BatchRequest}
    {responses : List BatchResponse} (hexec : exec (executeAll limits requests budget) s = .ok responses s') :
    responses = (db.executeAll rev requests).1 ∧ Advanced rev s s' ∧
      ((∃ r ∈ requests, r.Mutates) → s'.state.lastLsn = some rev) ∧
        ∃ t' free', Staged top rev (db.executeAll rev requests).2 s' t' free' := by
  induction requests generalizing db s t free budget responses with
  | nil =>
    cases hexec
    exact ⟨rfl, ⟨rfl, .inl rfl⟩, fun ⟨_, hr, _⟩ => (nomatch hr), t, free, h⟩
  | cons request rest ih =>
    obtain ⟨answer, s₁, hfirst, hsplit⟩ := exec_bind_eq_ok hexec
    obtain ⟨others, s₂, hothers, hpure⟩ := exec_bind_eq_ok hsplit
    obtain ⟨hanswer, hadvanced, hlast, t₁, free₁, h₁⟩ := h.execute hfirst
    cases hpure
    obtain ⟨hresponses, hadvanced', hlast', hstaged⟩ := ih h₁ hothers
    refine ⟨?_, hadvanced.trans hadvanced', fun ⟨r, hr, hmutates⟩ => ?_, hstaged⟩
    · rw [hanswer, hresponses]
      rfl
    · rcases List.mem_cons.mp hr with rfl | hr
      · -- what the first request took, the others leave or take again
        rcases hadvanced'.2 with rfl | hlater
        · exact hlast hmutates
        · exact hlater
      · exact hlast' ⟨r, hr, hmutates⟩

/-- A batch that took a revision mutated something. -/
theorem Staged.mutates_of_lastLsn (h : Staged top rev db s t free) (hnone : s.state.lastLsn = none)
    {requests : List BatchRequest} {responses : List BatchResponse}
    (hexec : exec (Dodb.executeAll limits requests budget) s = .ok responses s') {provisional : Revision}
    (hlast : s'.state.lastLsn = some provisional) : ∃ r ∈ requests, r.Mutates := by
  induction requests generalizing db s t free budget responses with
  | nil =>
    cases hexec
    rw [hnone] at hlast
    cases hlast
  | cons request rest ih =>
    obtain ⟨answer, s₁, hfirst, hsplit⟩ := exec_bind_eq_ok hexec
    obtain ⟨others, s₂, hothers, hpure⟩ := exec_bind_eq_ok hsplit
    cases hpure
    by_cases hmutates : request.Mutates
    · exact ⟨request, List.mem_cons_self, hmutates⟩
    · obtain ⟨_, _, _, t₁, free₁, h₁⟩ := h.execute hfirst
      obtain ⟨r, hr, hrm⟩ := ih h₁ ((h.execute_reads hmutates hfirst).symm ▸ hnone) hothers
      exact ⟨r, List.mem_cons_of_mem _ hr, hrm⟩

end Staged

end Dodb
