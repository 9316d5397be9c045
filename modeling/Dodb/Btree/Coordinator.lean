import Dodb.Btree.ReadView

/-! The coordinator of a shard.

Requests come in through a channel. The coordinator takes the first one, collects what else is there into a
group, and serves the group: a run of mutations is handed to the store as one list, and every other operation
by itself. A request that does not fit the group is set aside and begins the next one.

The coordinator and the callers run side by side. A step of the coordinator is what it does between two looks at
the channel; requests arrive, the signal to close comes and a deadline passes at any time between these. Once a
group is complete it is served without a pause, so that is part of one step. A response channel is a number. -/
namespace Dodb

open Lib

/-- How many requests may wait, and how large a group may grow. -/
structure CoordinatorConfig where
  queueCapacity : Nat := 256
  maxGroupRequests : Nat := 64
  maxGroupBytes : Nat := 4 * 1024 * 1024
  maxCollectionDelay : Nat := 0
  deriving DecidableEq, Repr

/-- The limits a shard starts its coordinator with. -/
def CoordinatorConfig.effective (config : CoordinatorConfig) : CoordinatorConfig :=
  {config with
    queueCapacity := max config.queueCapacity 1
    maxGroupRequests := max config.maxGroupRequests 1
    maxGroupBytes := max config.maxGroupBytes 1}

/-- What a client can ask of a shard. -/
inductive CoordinatorOperation where
  | batch (request : BatchRequest) (maxResponseBytes : Nat)
  | transaction (request : TransactionRequest)
  | transactGet (keys : List DocumentKey) (maxResponseBytes : Nat)
  | observe (keys : List DocumentKey)
  | checkpoint
  | checkInvariants
  deriving DecidableEq, Repr

/-- What a client is answered. -/
inductive CoordinatorResponse where
  | batch (response : BatchResponse)
  | transaction (result : TransactionResult)
  | transactGet (states : List RevisionState)
  | observe (states : List ObservedState)
  | checkpoint (report : Store.CheckpointReport)
  | invariants (report : InvariantReport)
  deriving DecidableEq

/-- A request in the channel, and where its response goes. -/
structure QueuedRequest where
  operation : CoordinatorOperation
  responseTx : Nat
  deriving DecidableEq, Repr

abbrev Answer := Nat × Result CoordinatorResponse

/-! ### Operations -/

namespace CoordinatorOperation

/-- The operations that are committed as transactions. -/
def isMutation : CoordinatorOperation → Bool
  | batch (.put _ _) _ => true
  | batch (.delete _) _ => true
  | transaction _ => true
  | _ => false

/-- A put or a delete is a transaction of one mutation and no condition. -/
def asTransactionRequest : CoordinatorOperation → Result TransactionRequest
  | batch (.put key value) _ => .ok ⟨[], [.put key value]⟩
  | batch (.delete key) _ => .ok ⟨[], [.delete key]⟩
  | transaction request => .ok request
  | _ => .error (.internalInvariantViolation "non-mutation operation cannot be committed")

def mutationSize : TransactionMutation → Nat
  | .put key value => saturatingAdd (saturatingAdd key.encode.length value.length) 32
  | .delete key => saturatingAdd key.encode.length 32

/-- What the operation counts for in the bytes of its group. -/
def size : CoordinatorOperation → Nat
  | batch (.put key value) _ => saturatingAdd (saturatingAdd key.encode.length value.length) 64
  | batch (.delete key) _ => saturatingAdd key.encode.length 64
  | batch (.get key) _ => key.encode.length
  | batch (.query pk exclusiveAfterSk _) _ => saturatingAdd pk.length ((exclusiveAfterSk.map List.length).getD 0)
  | batch (.scan exclusiveAfterKey _) _ => (exclusiveAfterKey.map fun key => key.encode.length).getD 0
  | transaction request =>
    (request.conditions.map (fun condition => saturatingAdd condition.key.encode.length 32) ++
      request.mutations.map mutationSize).foldl saturatingAdd 0
  | transactGet keys _ => (keys.map fun key => key.encode.length).foldl saturatingAdd 0
  | observe keys => (keys.map fun key => key.encode.length).foldl saturatingAdd 0
  | checkpoint => 0
  | checkInvariants => 0

end CoordinatorOperation

/-- Whether a group takes one more request; an empty group takes any. -/
def canAdd (requestCount currentBytes requestBytes : Nat) (config : CoordinatorConfig) : Bool :=
  requestCount == 0 || (decide (requestCount < config.maxGroupRequests) &&
    (currentBytes == 0 || decide (saturatingAdd currentBytes requestBytes ≤ config.maxGroupBytes)))

/-- The error the requests of a segment that failed, and those after it, are answered with. -/
def batchError : Error → Error
  | .invalidInput message => .invalidInput ("batch was not published: " ++ message)
  | .invalidRequest message => .invalidRequest ("batch was not published: " ++ message)
  | .overloaded message => .overloaded message
  | .responseTooLarge message => .responseTooLarge message
  | .conflict conflict => .conflict conflict
  | .corruption message => .corruption ("batch was not published: " ++ message)
  | .io message => .io ("batch was not published: " ++ message)
  | .unsupportedFormat message => .unsupportedFormat ("batch was not published: " ++ message)
  | .durabilityFailure message => .durabilityFailure ("batch was not published: " ++ message)
  | .recoveryFailure message => .recoveryFailure ("batch was not published: " ++ message)
  | .checkpointFailure message => .checkpointFailure ("batch was not published: " ++ message)
  | .internalInvariantViolation message => .internalInvariantViolation ("batch was not published: " ++ message)

/-! ### Serving a group -/

section Serve
variable [Crc32c]

open Shard (onStore)

/-- The response to a mutation. For an operation that is none the source panics; segments hold none. -/
def mutationResponse (operation : CoordinatorOperation) (transaction : TransactionResult) :
    Result CoordinatorResponse :=
  match operation, transaction.commitLsn with
  | .batch (.put _ _) _, some commitLsn => .ok (.batch (.put commitLsn))
  | .batch (.put _ _) _, none => .error (.internalInvariantViolation "put transaction has no commit LSN")
  | .batch (.delete _) _, some commitLsn => .ok (.batch (.delete commitLsn))
  | .batch (.delete _) _, none => .error (.internalInvariantViolation "delete transaction has no commit LSN")
  | .transaction _, _ => .ok (.transaction transaction)
  | _, _ => .error (.internalInvariantViolation "non-mutation operation entered a write group")

/-- For a batch that was answered with nothing the source panics; a batch of one request has one response. -/
def processOperation : CoordinatorOperation → Shard.Op CoordinatorResponse
  | .batch request maxResponseBytes => do
    match ← onStore (Store.applyBatchWithResponseBudget [request] maxResponseBytes) with
    | response :: _ => pure (.batch response)
    | [] => Io.raise (.internalInvariantViolation "removal index (is 0) should be < len (is 0)")
  | .transaction request => do
    let result ← onStore (Store.transact request)
    pure (.transaction result)
  | .transactGet keys maxResponseBytes => do
    let states ← onStore (Store.transactGetWithResponseBudget keys maxResponseBytes)
    pure (.transactGet states)
  | .observe keys => do
    let states ← onStore (Store.observe keys)
    pure (.observe states)
  | .checkpoint => do
    let report ← onStore Store.checkpoint
    pure (.checkpoint report)
  | .checkInvariants => do
    let report ← onStore Store.checkInvariants
    pure (.invariants report)

/-- One operation after the other; an error is the response to its own operation. -/
def processOperations : List CoordinatorOperation → Shard.Op (List (Result CoordinatorResponse))
  | [] => pure []
  | operation :: rest => do
    let response ← Io.attempt (processOperation operation)
    let responses ← processOperations rest
    pure (response :: responses)

/-- Mutations go to the store as one transaction group; anything else is processed one by one. -/
def processSegment (operations : List CoordinatorOperation) : Shard.Op (List (Result CoordinatorResponse)) := do
  if operations.all CoordinatorOperation.isMutation then
    let requests ← Io.ofExcept (operations.mapM CoordinatorOperation.asTransactionRequest)
    let results ← onStore (Store.applyTransactionGroup requests)
    pure ((results.zip operations).map fun (result, operation) => result >>= mutationResponse operation)
  else processOperations operations

/-- A segment of a group and what came of it. -/
abbrev Call := List CoordinatorOperation × Result (List (Result CoordinatorResponse))

/-- Serves a segment and brings the read view up to date. -/
def serveSegment (operations : List CoordinatorOperation) : Shard.Op (Result (List (Result CoordinatorResponse))) := do
  let segmentResult ← Io.attempt (processSegment operations)
  Shard.noteDegraded
  let readViewResult ← Io.attempt Shard.publishReadUpdates
  match segmentResult, readViewResult with
  | .ok result, .ok _ => pure (.ok result)
  | .error error, .ok _ => pure (.error error)
  | _, .error error => pure (.error error)

/-- Sends the responses to the requests that are still there. -/
def answerEach : List (Option QueuedRequest) → List (Result CoordinatorResponse) →
    List (Option QueuedRequest) × List Answer
  | some queued :: slots, response :: responses =>
    let (slots, answers) := answerEach slots responses
    (none :: slots, (queued.responseTx, response) :: answers)
  | none :: slots, _ :: responses =>
    let (slots, answers) := answerEach slots responses
    (none :: slots, answers)
  | slots, _ => (slots, [])

/-- The end of the segment that begins at `operationStart`. -/
def segmentEnd (operations : List CoordinatorOperation) (operationStart : Nat) : Nat :=
  if ((operations[operationStart]?).map CoordinatorOperation.isMutation).getD false then
    match (operations.drop operationStart).findIdx? fun operation => !operation.isMutation with
    | some offset => operationStart + offset
    | none => operations.length
  else operationStart + 1

omit [Crc32c] in
/-- A segment that begins with a mutation goes to the next operation that is none, or to the end. -/
theorem segmentEnd_of_mutation {operations : List CoordinatorOperation} {operationStart : Nat}
    {operation : CoordinatorOperation} (h : operations[operationStart]? = some operation)
    (hmutation : operation.isMutation = true) : segmentEnd operations operationStart =
      operationStart + (operations.drop operationStart).findIdx fun operation => !operation.isMutation := by
  have hlt : operationStart < operations.length := (List.getElem?_eq_some_iff.mp h).1
  rw [segmentEnd, h, Option.map_some, Option.getD_some, if_pos hmutation]
  cases hfind : (operations.drop operationStart).findIdx? fun operation => !operation.isMutation with
  | some offset =>
    dsimp only
    rw [List.findIdx_eq_getD_findIdx?, hfind, Option.getD_some]
  | none =>
    dsimp only
    rw [List.findIdx_eq_getD_findIdx?, hfind, Option.getD_none, List.length_drop]
    omega

omit [Crc32c] in
theorem lt_segmentEnd {operations : List CoordinatorOperation} {operationStart : Nat}
    (h : operationStart < operations.length) : operationStart < segmentEnd operations operationStart := by
  obtain ⟨operation, hoperation⟩ : ∃ operation, operations[operationStart]? = some operation :=
    ⟨_, List.getElem?_eq_getElem h⟩
  by_cases hmutation : operation.isMutation = true
  · rw [segmentEnd_of_mutation hoperation hmutation, List.drop_eq_getElem_cons h, List.findIdx_cons]
    have hfirst : operations[operationStart] = operation := by
      rw [List.getElem?_eq_getElem h] at hoperation
      exact Option.some.inj hoperation
    rw [hfirst, hmutation]
    exact Nat.lt_add_of_pos_right (Nat.succ_pos _)
  · rw [segmentEnd, hoperation, Option.map_some, Option.getD_some, if_neg hmutation]
    exact Nat.lt_succ_self _

/-- Serves the operations from `operationStart` on: the segments that were run, and the answers that were sent. -/
def serveFrom (operations : List CoordinatorOperation) (queuedRequests : List (Option QueuedRequest))
    (operationStart : Nat) : Shard.Op (List Call × List Answer) :=
  if _h : operationStart < operations.length then do
    let operationEnd := segmentEnd operations operationStart
    let segment := (operations.drop operationStart).take (operationEnd - operationStart)
    let segmentResult ← serveSegment segment
    match segmentResult with
    | .ok responses =>
      let (slots, answers) :=
        answerEach ((queuedRequests.drop operationStart).take (operationEnd - operationStart)) responses
      let (calls, more) ← serveFrom operations
        (queuedRequests.take operationStart ++ slots ++ queuedRequests.drop operationEnd) operationEnd
      pure ((segment, segmentResult) :: calls, answers ++ more)
    | .error error =>
      let rest := queuedRequests.drop operationStart
      pure ([(segment, segmentResult)], (answerEach rest (rest.map fun _ => .error (batchError error))).2)
  else pure ([], [])
termination_by operations.length - operationStart
decreasing_by
  have := lt_segmentEnd _h
  omega

/-! ### A request by itself

A request that finds the coordinator idle, and that no other joins, is a group of its own. -/

/-- Sends an operation to the coordinator and waits for the response. -/
def Shard.send (operation : CoordinatorOperation) : Shard.Op CoordinatorResponse := do
  match ← serveSegment [operation] with
  | .ok (response :: _) => Io.ofExcept response
  | .ok [] => Io.raise (.internalInvariantViolation "storage coordinator dropped a response")
  | .error error => Io.raise (batchError error)

def Shard.executeWithResponseBudget (request : BatchRequest) (maxResponseBytes : Nat) : Shard.Op BatchResponse := do
  let shard ← memory
  match shard.readView.tryRead request maxResponseBytes with
  | some result => Io.ofExcept result
  | none =>
    match ← Shard.send (.batch request maxResponseBytes) with
    | .batch response => pure response
    | _ => Io.raise (.internalInvariantViolation "coordinator returned the wrong batch response")

def Shard.executeTransaction (request : TransactionRequest) : Shard.Op TransactionResult := do
  match ← Shard.send (.transaction request) with
  | .transaction result => pure result
  | _ => Io.raise (.internalInvariantViolation "coordinator returned the wrong transaction response")

end Serve

/-! ### Collecting groups -/

/-- A group that was served. -/
structure Group where
  requests : List QueuedRequest
  calls : List Call
  answers : List Answer

/-- What the worker of a shard is at. -/
inductive CoordinatorPhase where
  /-- At the head of the loop. -/
  | idle
  /-- Taking what is in the channel. -/
  | gathering (requests : List QueuedRequest) (bytes : Nat)
  /-- Waiting for more until the deadline. -/
  | delaying (requests : List QueuedRequest) (bytes : Nat)
  | stopped

/-- The coordinator, its channels and its shard. `arrived` and `groups` are what has happened so far. -/
structure Coordinator where
  config : CoordinatorConfig
  shard : Machine FileId Shard
  channel : List QueuedRequest := []
  disconnected : Bool := false
  closeReady : Bool := false
  pending : Option QueuedRequest := none
  phase : CoordinatorPhase := .idle
  arrived : List QueuedRequest := []
  groups : List Group := []

/-- What can happen to a coordinator. -/
inductive CoordinatorStep where
  | arrive (request : QueuedRequest)
  | disconnect
  | signalClose
  /-- The coordinator looks at its channel. -/
  | receive
  | deadline
  | seeClose

namespace Coordinator
variable [Crc32c]

/-- Serves a group that is complete; a power loss ends the run. -/
def serve (s : Coordinator) (requests : List QueuedRequest) (pending : Option QueuedRequest) (closeRequested : Bool) :
    Option Coordinator :=
  match serveFrom (requests.map QueuedRequest.operation) (requests.map some) 0 s.shard with
  | .ok (calls, answers) shard => some {s with
      shard
      pending
      phase := if closeRequested then .stopped else .idle
      groups := s.groups ++ [⟨requests, calls, answers⟩]}
  | .err _ _ => none
  | .halt _ => none

/-- The end of the first loop of `collect_group`. -/
def endGathering (s : Coordinator) (requests : List QueuedRequest) (bytes : Nat) (pending : Option QueuedRequest) :
    Option Coordinator :=
  if requests.length > 1 ∧ pending.isNone ∧ requests.length < s.config.maxGroupRequests ∧
      s.config.maxCollectionDelay > 0 then some {s with phase := .delaying requests bytes}
  else s.serve requests pending false

/-- The worker opens a group with the request it has received. -/
def begin (s : Coordinator) (first : QueuedRequest) : Coordinator :=
  {s with phase := .gathering [first] first.operation.size}

/-- The worker looks at its channel. -/
def receive (s : Coordinator) : Option Coordinator :=
  match s.phase with
  | .idle =>
    match s.pending, s.channel with
    | some request, _ => some ({s with pending := none}.begin request)
    | none, request :: channel => some ({s with channel}.begin request)
    | none, [] => if s.disconnected then some {s with phase := .stopped} else none
  | .gathering requests bytes =>
    if requests.length ≥ s.config.maxGroupRequests then s.endGathering requests bytes none
    else match s.channel with
      | request :: channel =>
        if canAdd requests.length bytes request.operation.size s.config then
          some {s with
            channel
            phase := .gathering (requests ++ [request]) (saturatingAdd bytes request.operation.size)}
        else {s with channel}.endGathering requests bytes (some request)
      | [] => s.endGathering requests bytes none
  | .delaying requests bytes =>
    match s.channel with
    | request :: channel =>
      if canAdd requests.length bytes request.operation.size s.config then
        if (requests ++ [request]).length ≥ s.config.maxGroupRequests then
          {s with channel}.serve (requests ++ [request]) none false
        else some {s with
          channel
          phase := .delaying (requests ++ [request]) (saturatingAdd bytes request.operation.size)}
      else {s with channel}.serve requests (some request) false
    | [] => if s.disconnected then s.serve requests none false else none
  | .stopped => none

/-- One step, where it can be taken. A request that finds the channel full is refused and does not arrive. -/
def step (s : Coordinator) : CoordinatorStep → Option Coordinator
  | .arrive request =>
    if s.channel.length < s.config.queueCapacity ∧ ¬s.disconnected then
      some {s with channel := s.channel ++ [request], arrived := s.arrived ++ [request]}
    else none
  | .disconnect => some {s with disconnected := true}
  | .signalClose => some {s with closeReady := true}
  | .receive => s.receive
  | .deadline => match s.phase with
    | .delaying requests _ => s.serve requests none false
    | _ => none
  | .seeClose =>
    if s.closeReady then match s.phase, s.pending with
      | .idle, none => some {s with phase := .stopped}
      | .delaying requests _, _ => s.serve requests none true
      | _, _ => none
    else none

/-- The steps one after the other, if each is possible. -/
def run (s : Coordinator) : List CoordinatorStep → Option Coordinator
  | [] => some s
  | a :: rest => (s.step a).bind fun s => s.run rest

end Coordinator

end Dodb
