import Dodb.Btree.Calls
import Dodb.Btree.Created

/-! A database over its whole life.

The database is created, serves calls, loses power and is opened again, any number of times. At any operation on its files
the medium may fail or the process may stop, and a power loss may come at any time: then the log keeps a beginning of what
was appended and the data file has, block by block, what was durable, what was written or a mixture that its reader refuses.
A process that has stopped is not started again before the files are as the medium has them: recovery relies on what it
reads being durable.

What the clients have seen is at every time what they would have seen of one reference map (`Explains`): an answer is the
map's answer, commits have increasing LSNs, a call that was refused did nothing, and one whose outcome is unknown took
effect as a whole or not at all. The map after it is what the store serves, or what any power loss leaves. A store that no
longer serves is stopped; transactions, flushes and checkpoints are not among the steps. -/
namespace Dodb
open Lib File

/-- What a client has seen of a call. -/
inductive Seen where
  | returned (call : Store.Call) (answer : Store.Answer)
  | refused (call : Store.Call) (error : Error)
  | unknown (call : Store.Call)

/-- The host of a database: a store that is open, a process that has stopped, or a medium without power. -/
inductive Host where
  | up (files : FileId → File) (store : Store)
  | stopped (files : FileId → File)
  | off (data wal : Bytes)

/-- Files that are as the medium has them. -/
def onMedium (data wal : Bytes) : FileId → File
  | .data => .ofDurable data
  | .wal => .ofDurable wal

/-- What the client sees of a call on a store that serves. An error of a store that no longer serves does not say what
became of the call. -/
def Seen.of (call : Store.Call) : Outcome (Machine FileId Store) Error Store.Answer → Seen
  | .ok answer _ => .returned call answer
  | .err e m => if m.memory.broken.isSome then .unknown call else .refused call e
  | .halt _ => .unknown call

namespace Host

/-- The host after something was done to its store. -/
def after {α : Type} : Outcome (Machine FileId Store) Error α → Host
  | .ok _ m => .up m.files m.memory
  | .err _ m => .up m.files m.memory
  | .halt m => .stopped m.files

/-- The host after it has opened its files. -/
def opened : Outcome (Machine FileId Unit) Error Store → Host
  | .ok store m => .up m.files store
  | .err _ m => .stopped m.files
  | .halt m => .stopped m.files

variable [Crc32c]

/-- A step of a host, and what clients see in it. The schedule says what is in store for the operations on the files. -/
inductive Step (config : DatabaseConfig) : Host → List Seen → Host → Prop where
  | call (files : FileId → File) (store : Store) (schedule : List Event) (call : Store.Call)
      (hserving : store.broken.isSome = false) :
      Step config (.up files store) [Seen.of call (Store.perform call ⟨files, store, schedule, false⟩)]
        (after (Store.perform call ⟨files, store, schedule, false⟩))
  | stop (files : FileId → File) (store : Store) : Step config (.up files store) [] (.stopped files)
  | powerLoss (files : FileId → File) (data wal : Bytes)
      (hdata : (files .data).BlockLoss pageSize (fun i b => refusedBlock i b = true) data)
      (hwal : (files .wal).TailLoss wal) : Step config (.stopped files) [] (.off data wal)
  | restart (data wal : Bytes) (schedule : List Event) :
      Step config (.off data wal) [] (opened (openWithWal config ⟨onMedium data wal, (), schedule, false⟩))

/-- A run of a host from the creation of the database, and what clients have seen in it. -/
inductive Run (config : DatabaseConfig) : List Seen → Host → Prop where
  | created (schedule : List Event) {store : Store} {m : Machine FileId Unit}
      (hopened : openWithWal config ⟨onMedium [] [], (), schedule, false⟩ = .ok store m) : Run config [] (.up m.files store)
  | step {history seen : List Seen} {host host' : Host} (h : Run config history host)
      (hstep : Step config host seen host') : Run config (history ++ seen) host'

end Host

/-- The documents of `db`, with the last commit `top`, are what a reference map has come to in this history. -/
inductive Explains : List Seen → Lsn → ReferenceDb → Prop where
  | start : Explains [] 0 .new
  | returned {history : List Seen} {top top' : Lsn} {db db' : ReferenceDb} {call : Store.Call} {answer : Store.Answer}
      (h : Explains history top db) (hreturns : Store.Returns top db call answer top' db') :
      Explains (history ++ [.returned call answer]) top' db'
  | refused {history : List Seen} {top : Lsn} {db : ReferenceDb} {call : Store.Call} {error : Error}
      (h : Explains history top db) : Explains (history ++ [.refused call error]) top db
  | unknown {history : List Seen} {top top' : Lsn} {db db' : ReferenceDb} {call : Store.Call}
      (h : Explains history top db) (heffects : call.Effects top db top' db') :
      Explains (history ++ [.unknown call]) top' db'

namespace Host

variable [Crc32c] {config : DatabaseConfig} {history seen : List Seen} {host host' : Host}
  {allowed allowed' : Lsn → ReferenceDb → Prop}
variable {files : FileId → File} {store : Store}

/-- The database of a host is one of those `allowed`, or will be after any power loss. -/
def Holds (config : DatabaseConfig) (allowed : Lsn → ReferenceDb → Prop) : Host → Prop
  | .up files store => (∃ top db, store.On config files top db ∧ allowed top db) ∨ store.Failed config files allowed
  | .stopped files => Survives config.identity files allowed
  | .off data wal => ∃ commits c db sb slot, Left config.identity data wal commits c db sb slot ∧ allowed c.top db

/-! ### Steps -/

theorem not_broken {top : Lsn} {db : ReferenceDb} (h : store.On config files top db) :
    store.broken.isSome = false := by
  obtain ⟨commits, c, hsteady, -⟩ := h
  rw [hsteady.serving]
  rfl

theorem serving (hserving : store.broken.isSome = false)
    (h : (up files store).Holds config allowed) : ∃ top db, store.On config files top db ∧ allowed top db :=
  h.resolve_right fun hfailed => Bool.noConfusion (hserving.symm.trans hfailed.broken)

theorem holds_survives (h : (up files store).Holds config allowed) : Survives config.identity files allowed := by
  obtain ⟨top, db, hon, hallowed⟩ | hfailed := h
  · refine hon.survives.mono fun top' db' heq => ?_
    rw [heq.1, heq.2]
    exact hallowed
  · exact hfailed.survives

theorem step_call {schedule : List Event} {call : Store.Call}
    (hserving : store.broken.isSome = false)
    (h : (up files store).Holds config (Explains history)) :
    (after (Store.perform call ⟨files, store, schedule, false⟩)).Holds config
      (Explains (history ++ [Seen.of call (Store.perform call ⟨files, store, schedule, false⟩)])) := by
  obtain ⟨top, db, hon, hexplains⟩ := serving hserving h
  have hend := Store.perform_spec hon call ⟨files, store, schedule, false⟩ ⟨rfl, rfl, rfl⟩
  cases hperform : Store.perform call ⟨files, store, schedule, false⟩ with
  | ok answer m =>
    rw [hperform] at hend
    obtain ⟨top', db', hreturns, hon'⟩ := hend
    exact .inl ⟨top', db', hon', hexplains.returned hreturns⟩
  | err e m =>
    rw [hperform] at hend
    obtain hon' | hfailed := hend
    · have hnone : ¬m.memory.broken.isSome = true := Bool.not_eq_true _ ▸ not_broken hon'
      have hseen : Seen.of call (.err e m) = .refused call e := if_neg hnone
      rw [hseen]
      exact .inl ⟨top, db, hon', hexplains.refused⟩
    · have hseen : Seen.of call (.err e m) = .unknown call := if_pos hfailed.broken
      rw [hseen]
      exact .inr (hfailed.mono fun _ _ heffects => hexplains.unknown heffects)
  | halt m =>
    rw [hperform] at hend
    exact hend.mono fun _ _ heffects => hexplains.unknown heffects

theorem step_restart {data wal : Bytes} (schedule : List Event) (h : (off data wal).Holds config allowed) :
    (opened (openWithWal config ⟨onMedium data wal, (), schedule, false⟩)).Holds config allowed := by
  obtain ⟨commits, c, db, sb, slot, hleft, hallowed⟩ := h
  have hrests : ∀ {files : FileId → File}, Rests config.identity files commits c sb slot →
      Survives config.identity files allowed := fun hrests =>
    ⟨⟨_, hrests.data.stable.loses⟩, fun d w hd hw => ⟨commits, c, db, sb, slot, hrests.loss hleft.ledger hd hw, hallowed⟩⟩
  have hopens : Io.Spec (Machine.At (onMedium data wal) () false) _ _ _ _ := openWithWal_spec hleft rfl rfl
  have hend := hopens ⟨onMedium data wal, (), schedule, false⟩ ⟨rfl, rfl, rfl⟩
  cases hopen : openWithWal config ⟨onMedium data wal, (), schedule, false⟩ with
  | ok store m =>
    rw [hopen] at hend
    exact .inl ⟨c.top, db, ⟨commits, c, hend.1, rfl⟩, hallowed⟩
  | err e m =>
    rw [hopen] at hend
    exact hrests hend.2.2
  | halt m =>
    rw [hopen] at hend
    exact hrests hend

/-- A step keeps the database to what explains the history. -/
theorem Step.holds (hstep : Step config host seen host') (h : host.Holds config (Explains history)) :
    host'.Holds config (Explains (history ++ seen)) := by
  cases hstep with
  | call files store schedule call hserving => exact step_call hserving h
  | stop files store =>
    rw [List.append_nil]
    exact holds_survives h
  | powerLoss files data wal hdata hwal =>
    rw [List.append_nil]
    exact h.left data wal hdata hwal
  | restart data wal schedule =>
    rw [List.append_nil]
    exact step_restart schedule h

/-! ### Runs -/

/-- A database that was created is empty. -/
theorem created_on {schedule : List Event} {m : Machine FileId Unit}
    (hopened : openWithWal config ⟨onMedium [] [], (), schedule, false⟩ = .ok store m) : store.On config m.files 0 .new := by
  have hempty : LogLeft config.identity 0 [] [] := .torn 0 (by decide) List.take_zero.symm rfl
  have hcreates : Io.Spec (Machine.At (onMedium [] []) () false) _ _ _ _ :=
    openWithWal_new config hempty (Nat.zero_le _) rfl rfl
  have hend := hcreates ⟨onMedium [] [], (), schedule, false⟩ ⟨rfl, rfl, rfl⟩
  rw [hopened] at hend
  exact hend.1

/-- Over every run the database of the host explains what clients have seen. -/
theorem Run.holds (h : Run config history host) : host.Holds config (Explains history) := by
  induction h with
  | created schedule hopened => exact .inl ⟨0, .new, created_on hopened, .start⟩
  | step h hstep ih => exact hstep.holds ih

/-- What a host holds is not nothing. -/
theorem exists_of_holds (h : host.Holds config allowed) : ∃ top db, allowed top db := by
  have hsurvives : ∀ {files : FileId → File}, Survives config.identity files allowed → ∃ top db, allowed top db := by
    intro files h
    obtain ⟨d, hd⟩ := h.lossy
    obtain ⟨commits, c, db, sb, slot, -, hallowed⟩ := h.left d _ hd (.inl rfl)
    exact ⟨c.top, db, hallowed⟩
  cases host with
  | up files store => exact hsurvives (holds_survives h)
  | stopped files => exact hsurvives h
  | off data wal =>
    obtain ⟨commits, c, db, sb, slot, -, hallowed⟩ := h
    exact ⟨c.top, db, hallowed⟩

/-- Power can be lost at any time. -/
theorem Run.loses (h : Run config history host) : ∃ data wal, Run config history (.off data wal) := by
  have hstopped : ∀ {files : FileId → File}, Run config history (.stopped files) →
      ∃ data wal, Run config history (.off data wal) := by
    intro files h
    obtain ⟨data, hdata⟩ := h.holds.lossy
    have hloss := h.step (.powerLoss files data (files .wal).durable hdata (.inl rfl))
    rw [List.append_nil] at hloss
    exact ⟨data, _, hloss⟩
  cases host with
  | up files store =>
    have hstop := h.step (.stop files store)
    rw [List.append_nil] at hstop
    exact hstopped hstop
  | stopped files => exact hstopped h
  | off data wal => exact ⟨data, wal, h⟩

theorem exists_created (config : DatabaseConfig) :
    ∃ files store, Run config [] (.up files store) ∧ store.On config files 0 .new := by
  obtain ⟨store, m, hopened⟩ := @openWithWal_quiet_new _ Unit config ⟨onMedium [] [], (), [], false⟩ rfl rfl rfl
  exact ⟨m.files, store, .created [] hopened, created_on hopened⟩

/-- There is a run in which a client calls and then the power is lost. -/
theorem exists_called (config : DatabaseConfig) (call : Store.Call) :
    ∃ seen data wal, Run config [seen] (.off data wal) := by
  obtain ⟨files, store, hrun, hon⟩ := exists_created config
  obtain ⟨data, wal, hloss⟩ := (hrun.step (.call files store [] call (not_broken hon))).loses
  exact ⟨_, data, wal, hloss⟩

/-- There is a run in which a client has asked for a document and has its answer. -/
theorem exists_returned (config : DatabaseConfig) {key : DocumentKey} (hkey : validateEncodedKey key.encode = .ok ()) :
    ∃ files store, Run config [.returned (.get key) (.state (.missing 0))] (.up files store) ∧
      store.broken.isSome = false := by
  obtain ⟨files, store, hrun, hon⟩ := exists_created config
  obtain ⟨m, hget⟩ : ∃ m, Store.perform (.get key) ⟨files, store, [], false⟩ = .ok (.state (.missing 0)) m :=
    Store.perform_get_quiet hon hkey rfl rfl
  have hstep := hrun.step (.call files store [] (.get key) (not_broken hon))
  have hend := Store.perform_spec hon (.get key) ⟨files, store, [], false⟩ ⟨rfl, rfl, rfl⟩
  rw [hget] at hstep hend
  obtain ⟨top, db, -, hon'⟩ := hend
  exact ⟨m.files, m.memory, hstep, not_broken hon'⟩

/-! ### What every run has -/

/-- Over the whole life of a database, with failures of the medium, stops and power losses at any of its operations, what
its clients see is what they would see of one reference map. -/
theorem Run.explained (h : Run config history host) : ∃ top db, Explains history top db :=
  exists_of_holds h.holds

omit [Crc32c] in
theorem Run.explained_put : ∃ seen host, @Run castagnoli ⟨.zero, 1, 1, 1, 128, {}⟩ [seen] host ∧
    ∃ top db, Explains [seen] top db := by
  obtain ⟨seen, data, wal, hrun⟩ := @exists_called castagnoli ⟨.zero, 1, 1, 1, 128, {}⟩
    (.put ⟨[1], [2]⟩ [3])
  exact ⟨seen, _, hrun, @Run.explained castagnoli _ _ _ hrun⟩

/-- Between calls nothing is left to a power loss: the files of a store that serves are as the medium has them, and its
counters continue the last commit. -/
theorem Run.durable {files : FileId → File} {store : Store} (h : Run config history (.up files store))
    (hserving : store.broken.isSome = false) :
    (∃ data wal, files = onMedium data wal) ∧ ∃ top db, Explains history top db ∧
      store.nextRevision = top + 1 ∧ top < store.nextLsn ∧ store.nextBatchId ≤ store.nextLsn := by
  obtain ⟨top, db, ⟨commits, c, hsteady, rfl⟩, hexplains⟩ := serving hserving h.holds
  obtain ⟨wal, start, items, -, -, hlog, -, -⟩ := hsteady.log
  obtain ⟨d, hdata, -⟩ := hsteady.data
  refine ⟨⟨d, logBytes config.identity start items, funext fun file => ?_⟩, c.top, db, hexplains,
    hsteady.serves.remembers.nextRevision, hsteady.continues.lsn, hsteady.continues.batchId⟩
  cases file with
  | data => exact hdata
  | wal => exact hlog

omit [Crc32c] in
theorem Run.durable_get : ∃ files store, @Run castagnoli ⟨.zero, 1, 1, 1, 128, {}⟩
      [.returned (.get ⟨[1], [2]⟩) (.state (.missing 0))] (.up files store) ∧ store.broken.isSome = false ∧
    (∃ data wal, files = onMedium data wal) ∧ ∃ top db, Explains [.returned (.get ⟨[1], [2]⟩) (.state (.missing 0))] top db ∧
      store.nextRevision = top + 1 ∧ top < store.nextLsn ∧ store.nextBatchId ≤ store.nextLsn := by
  obtain ⟨files, store, hrun, hserving⟩ := @exists_returned castagnoli ⟨.zero, 1, 1, 1, 128, {}⟩ ⟨[1], [2]⟩ (by decide)
  exact ⟨files, store, hrun, hserving, @Run.durable castagnoli _ _ _ _ hrun hserving⟩

/-- Whatever a power loss leaves can be opened, unless the medium fails; the store then serves what clients have seen. -/
theorem Run.restarts {data wal : Bytes} (h : Run config history (.off data wal)) (schedule : List Event) :
    (∀ e m, openWithWal config ⟨onMedium data wal, (), schedule, false⟩ = .err e m → m.faulted = true) ∧
      ∀ store m, openWithWal config ⟨onMedium data wal, (), schedule, false⟩ = .ok store m →
        store.broken = none ∧ store.currentSuperblock.sealed = store.currentSuperblock ∧
          ∃ top db, Explains history top db ∧ store.nextRevision = top + 1 := by
  obtain ⟨commits, c, db, sb, slot, hleft, hexplains⟩ := h.holds
  have hopens : Io.Spec (Machine.At (onMedium data wal) () false) _ _ _ _ := openWithWal_spec hleft rfl rfl
  have hend := hopens ⟨onMedium data wal, (), schedule, false⟩ ⟨rfl, rfl, rfl⟩
  refine ⟨fun e m hopen => ?_, fun store m hopen => ?_⟩
  · rw [hopen] at hend
    exact hend.1
  · rw [hopen] at hend
    obtain ⟨hsteady, hsuperblock, -⟩ := hend
    refine ⟨hsteady.serving, ?_, c.top, db, hexplains, hsteady.serves.remembers.nextRevision⟩
    rw [hsuperblock]
    rfl

omit [Crc32c] in
theorem Run.restarts_put : ∃ seen data wal, @Run castagnoli ⟨.zero, 1, 1, 1, 128, {}⟩ [seen] (.off data wal) ∧
    (∀ e m, @openWithWal castagnoli Unit ⟨.zero, 1, 1, 1, 128, {}⟩ ⟨onMedium data wal, (), [], false⟩ = .err e m →
      m.faulted = true) ∧
    ∀ store m, @openWithWal castagnoli Unit ⟨.zero, 1, 1, 1, 128, {}⟩ ⟨onMedium data wal, (), [], false⟩ = .ok store m →
      store.broken = none ∧ @Superblock.sealed castagnoli store.currentSuperblock = store.currentSuperblock ∧
        ∃ top db, Explains [seen] top db ∧ store.nextRevision = top + 1 := by
  obtain ⟨seen, data, wal, hrun⟩ := @exists_called castagnoli ⟨.zero, 1, 1, 1, 128, {}⟩
    (.put ⟨[1], [2]⟩ [3])
  exact ⟨seen, data, wal, hrun, @Run.restarts castagnoli _ _ _ _ hrun []⟩

end Host

end Dodb
