import Dodb.Btree.Coordinator
import Dodb.Protocol.Codec

/-! The service of a node: one shard for each tenant, in two files of its own.

A tenant's files are created when the tenant first writes. Until then its reads are answered without a shard, as an
empty database would answer them. Requests are served one after another here.

The directory of the node is the machine's files, by path; `existing` says which of them there are. -/
namespace Dodb.Server
open Lib Protocol

/-! ### Tenants and their files -/

/-- Where the service keeps its shards, and what it opens them with. -/
structure LocalTenantServiceConfig where
  dataDir : String := "."
  maxOpenShards : Nat := 1024
  databaseConfig : DatabaseConfig

/-- Each tenant has one shard. -/
def resolve (tenant : TenantId) : ShardId := tenant

/-- Each shard has a data file and a log of its own. -/
def shardPath (dataDir : String) (tenant : TenantId) (shard : ShardId) : FileId → String
  | .data => s!"{dataDir}/tenant-{tenant.toNat}-shard-{shard.toNat}.db"
  | .wal => s!"{dataDir}/tenant-{tenant.toNat}-shard-{shard.toNat}.wal"

def fnvOffset : UInt64 := 0xcbf29ce484222325
def fnvPrime : UInt64 := 0x100000001b3

/-- Mixes the hash between two bytes. -/
def rotateLeft5 (x : UInt64) : UInt64 := (x <<< 5) ||| (x >>> 59)

/-- The two halves of the digest after some bytes, the first of them at `index`. -/
def digest : Nat → Bytes → UInt64 × UInt64 → UInt64 × UInt64
  | _, [], halves => halves
  | index, byte :: rest, (first, second) =>
    digest (index + 1) rest ((first ^^^ byte.toUInt64) * fnvPrime,
      rotateLeft5 (second ^^^ (byte.toUInt64 + UInt64.ofNat index)) * fnvPrime)

/-- The identity of the database of a tenant's shard. -/
def databaseUuid (tenant : TenantId) (shard : ShardId) : Uuid :=
  let input := utf8 "DODB logical database identity" ++ u64 tenant.toNat ++ u64 shard.toNat
  let halves := digest 0 input (fnvOffset, fnvOffset ^^^ 0x9e3779b97f4a7c15)
  .ofBytes (u64 halves.1.toNat ++ u64 halves.2.toNat)

/-- The shards the service has open, by tenant, and which files there are. -/
structure Host where
  existing : SortedMap String Unit
  shards : SortedMap Nat Shard

namespace Service

abbrev Op := Io (Machine String Host) Error

/-- Runs a program of one shard's files, with a memory of its own. -/
def onFiles {ν α : Type} (path : FileId → String) (x : ν) (p : Io (Machine FileId ν) Error α) : Op (α × ν) := fun m =>
  let back (n : Machine FileId ν) : Machine String Host :=
    ⟨Function.update (Function.update m.files (path .data) (n.files .data)) (path .wal) (n.files .wal), m.memory,
      n.schedule, n.faulted⟩
  match p ⟨fun k => m.files (path k), x, m.schedule, m.faulted⟩ with
  | .ok a n => .ok (a, n.memory) (back n)
  | .err e n => .err e (back n)
  | .halt n => .halt (back n)

section Service
variable (config : LocalTenantServiceConfig)

def paths (tenant : TenantId) : FileId → String := shardPath config.dataDir tenant (resolve tenant)

/-- Runs an operation of an open shard; the shard keeps what became of it, however the operation ends. -/
def onShard {α : Type} (tenant : TenantId) (shard : Shard) (p : Shard.Op α) : Op α := do
  let (result, shard) ← onFiles (paths config tenant) shard (Io.attempt p)
  modifyMemory fun host => {host with shards := host.shards.insert tenant.toNat shard}
  Io.ofExcept result

/-- Opens a file, and creates it if it is not there. -/
def openFile (path : String) : Op PUnit := do
  operate ioFailure path id (fun _ _ => none) fun _ => ⟨⟩
  modifyMemory fun host => {host with existing := host.existing.insert path ()}

def shardConfig (tenant : TenantId) : DatabaseConfig :=
  {config.databaseConfig with
    tenantId := tenant
    shardId := resolve tenant
    databaseUuid := databaseUuid tenant (resolve tenant)}

variable [Crc32c]

/-- Opens a database and starts a shard on it. -/
def openPath (config : DatabaseConfig) : Io (Machine FileId PUnit) Error Shard := do
  let store ← openWithWal config
  let (shard, _) ← runOn store Shard.startWithConfig
  pure shard

/-- Opens the tenant's database and starts its shard. -/
def openShard (tenant : TenantId) : Op Shard := do
  let host ← memory
  match host.shards.get? tenant.toNat with
  | some shard => pure shard
  | none =>
    Io.ofExcept (ensure (host.shards.size < config.maxOpenShards) (.overloaded "open shard cache is full"))
    openFile (paths config tenant .data)
    openFile (paths config tenant .wal)
    let (shard, _) ← onFiles (paths config tenant) PUnit.unit (openPath (shardConfig config tenant))
    modifyMemory fun host => {host with shards := host.shards.insert tenant.toNat shard}
    pure shard

/-- The shard of a tenant that has files. -/
def readShard (tenant : TenantId) : Op (Option Shard) := do
  let host ← memory
  if (host.existing.get? (paths config tenant .data)).isNone ∧ (host.existing.get? (paths config tenant .wal)).isNone then
    pure none
  else
    let shard ← openShard config tenant
    pure (some shard)

/-! ### Requests -/

/-- A response that no shard has made is held to the limit as well. -/
def ensureSynthesizedResponseBudget (response : Response) (maximum : Nat) : Result Unit :=
  match encodeResponse (.success response) {maxResponseFrameSize := maximum} with
  | .ok _ => .ok ()
  | .error error => .error (.responseTooLarge
      s!"synthesized response exceeds the configured response limit: {error.display}")

/-- Reads through the tenant's shard, or answers `synthesized` when there is none. -/
def read (tenant : TenantId) (request : BatchRequest) (maxResponseBytes : Nat) (synthesized : Response)
    (answer : BatchResponse → Result Response) : Op Response := do
  match ← readShard config tenant with
  | some shard =>
    let response ← onShard config tenant shard (Shard.executeWithResponseBudget request maxResponseBytes)
    Io.ofExcept (answer response)
  | none =>
    Io.ofExcept (ensureSynthesizedResponseBudget synthesized maxResponseBytes)
    pure synthesized

/-- The shard is opened on its first use. -/
def write (tenant : TenantId) (request : BatchRequest) (maxResponseBytes : Nat)
    (answer : BatchResponse → Result Response) : Op Response := do
  let shard ← openShard config tenant
  let response ← onShard config tenant shard (Shard.executeWithResponseBudget request maxResponseBytes)
  Io.ofExcept (answer response)

/-- What a database without documents says to the conditions of a transaction. -/
def checkMissing : List TransactionCondition → Result Unit
  | [] => .ok ()
  | condition :: rest => do
    ensure (condition.satisfied (.missing 0)) (.conflict ⟨condition.key, condition.expectation, .missing 0⟩)
    checkMissing rest

def executeTransaction (tenant : TenantId) (request : TransactionRequest) : Op Response := do
  Io.ofExcept request.validate
  if request.mutations.isEmpty then
    match ← readShard config tenant with
    | some shard =>
      let result ← onShard config tenant shard (Shard.executeTransaction request)
      pure (.transact ⟨result.commitLsn⟩)
    | none =>
      Io.ofExcept (checkMissing request.conditions)
      pure (.transact ⟨none⟩)
  else
    let shard ← openShard config tenant
    let result ← onShard config tenant shard (Shard.executeTransaction request)
    match result.commitLsn with
    | some commitLsn => pure (.transact ⟨some commitLsn⟩)
    | none => Io.raise (.internalInvariantViolation "mutation transaction returned no commit LSN")

/-- Serves a request of a tenant. -/
def executeRequest (tenant : TenantId) (request : Request) (maxResponseBytes : Nat) : Op Response :=
  match request with
  | .get key => read config tenant (.get key) maxResponseBytes (.get (.missing 0)) fun
    | .get state => .ok (.get state)
    | _ => .error (.internalInvariantViolation "local get returned the wrong response")
  | .put key value => write config tenant (.put key value) maxResponseBytes fun
    | .put revision => .ok (.put revision)
    | _ => .error (.internalInvariantViolation "local put returned the wrong response")
  | .delete key => write config tenant (.delete key) maxResponseBytes fun
    | .delete revision => .ok (.delete revision)
    | _ => .error (.internalInvariantViolation "local delete returned the wrong response")
  | .query pk exclusiveAfterSk limit =>
    read config tenant (.query pk exclusiveAfterSk limit) maxResponseBytes (.query []) fun
      | .query rows => .ok (.query rows)
      | _ => .error (.internalInvariantViolation "local query returned the wrong response")
  | .scan exclusiveAfterKey limit => read config tenant (.scan exclusiveAfterKey limit) maxResponseBytes (.scan []) fun
    | .scan rows => .ok (.scan rows)
    | _ => .error (.internalInvariantViolation "local scan returned the wrong response")
  | .transact request => executeTransaction config tenant request

/-- A clean shutdown and a new start: the shards are closed, and the files stay. -/
def restart : Op PUnit := modifyMemory fun host => {host with shards := .empty}

end Service

end Service

end Dodb.Server
