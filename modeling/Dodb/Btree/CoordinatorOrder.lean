import Dodb.Btree.Coordinator

/-! What the coordinator does with the requests it takes.

A group is served from its first request on: the leading run of mutations, or the leading operation, is run on the
shard, its requests are answered, and what is left is served in the same way. Where a segment fails, its requests
and all after it are answered with the error and nothing more is run. The loop in the source does this with
positions in the group and with slots that the requests are taken out of; the first part of this module shows
that it comes to the same.

The second part is about whole runs: however arrivals, deadlines and the signal to close fall between the steps
of the coordinator, the requests that arrived are, in their order, those of the groups that were served, those
being collected, the one that was set aside and those still in the channel. -/
namespace Dodb

open Lib

section Order
variable [Crc32c]
variable {requests : List QueuedRequest} {operations : List CoordinatorOperation} {shard' : Machine FileId Shard}

/-! ### Every operation of a segment has a response -/

theorem Store.prepareGroup_length {requests : List TransactionRequest} {m m' : Machine FileId Overlay}
    {prepared : List PreparedBatch} {results : List (Result TransactionResult)}
    (h : Store.prepareGroup requests m = .ok (prepared, results) m') : results.length = requests.length := by
  induction requests generalizing m m' prepared results with
  | nil =>
    cases h
    rfl
  | cons request rest ih =>
    have hgo : ∀ {p : Io (Machine FileId Overlay) Error (List PreparedBatch × Result TransactionResult)} {m₁ : _},
        (do
          let x ← p
          let y ← Store.prepareGroup rest
          pure (x.1 ++ y.1, x.2 :: y.2)) m₁ = .ok (prepared, results) m' → results.length = (request :: rest).length := by
      intro p m₁ hp
      simp only [Io.bind_eq_ok] at hp
      obtain ⟨_, m₂, _, ⟨others, more⟩, m₃, hrest, hpure⟩ := hp
      cases hpure
      rw [List.length_cons, List.length_cons, ih hrest]
    rw [Store.prepareGroup, Io.bind_eq_ok] at h
    obtain ⟨outcome, m₁, _, h⟩ := h
    cases outcome with
    | ok candidate =>
      cases candidate with
      | none => exact hgo h
      | some candidate =>
        dsimp only at h
        cases hlsn : candidate.commitLsn with
        | none | some =>
          rw [hlsn] at h
          exact hgo h
    | error error =>
      dsimp only at h
      by_cases hrefuses : Store.refusesCandidate error = true
      · rw [if_pos hrefuses] at h
        exact hgo h
      · rw [if_neg hrefuses] at h
        exact hgo h

theorem Store.applyTransactionGroup_length {requests : List TransactionRequest} {m m' : Machine FileId Store}
    {results : List (Result TransactionResult)} (h : Store.applyTransactionGroup requests m = .ok results m') :
    results.length = requests.length := by
  unfold Store.applyTransactionGroup at h
  by_cases hnil : requests = []
  · rw [if_pos hnil] at h
    cases h
    rw [hnil]
    rfl
  rw [if_neg hnil, Io.bind_eq_ok] at h
  obtain ⟨⟨prepared, results'⟩, m₁, hprepare, h⟩ := h
  have hlength : results'.length = requests.length := by
    obtain ⟨n, hn, _⟩ := zoom_eq_ok hprepare
    exact Store.prepareGroup_length hn
  dsimp only at h
  by_cases hprepared : prepared = []
  · rw [if_pos hprepared] at h
    cases h
    exact hlength
  · rw [if_neg hprepared, Io.bind_eq_ok] at h
    obtain ⟨_, _, _, h⟩ := h
    cases h
    exact hlength

/-- A finished batch answers as it was executed, but for the revision it is committed with. -/
theorem Overlay.finish_answers {o : Overlay} {responses : List BatchResponse} {prepared : PreparedBatch}
    (h : o.finish responses = .ok prepared) : prepared.responses = responses ∨
      ∃ provisional committed, prepared.responses = responses.map (Overlay.restampResponse provisional committed) := by
  unfold Overlay.finish at h
  dsimp only at h
  split at h
  · simp only [except_bind_eq_ok] at h
    obtain ⟨_, _, h⟩ := h
    cases h
    exact .inl rfl
  · simp only [except_bind_eq_ok] at h
    obtain ⟨_, _, _, _, _, _, _, _, _, _, h⟩ := h
    cases h
    exact .inr ⟨_, _, rfl⟩

/-! ### What is run for a segment -/

/-- What the store is asked for a segment, and what comes of it. -/
inductive Processed : List CoordinatorOperation → Machine FileId Shard → Result (List (Result CoordinatorResponse)) →
    Machine FileId Shard → Prop
  /-- A run of mutations is handed to the store as one list, in order, and each has the response to its own result. -/
  | group {operations : List CoordinatorOperation} {requests : List TransactionRequest}
      {results : List (Result TransactionResult)} {shard shard' : Machine FileId Shard}
      (hmutations : ∀ operation ∈ operations, operation.isMutation = true)
      (hrequests : operations.map CoordinatorOperation.asTransactionRequest = requests.map .ok)
      (hrun : Shard.onStore (Store.applyTransactionGroup requests) shard = .ok results shard')
      (hlength : results.length = operations.length) :
      Processed operations shard
        (.ok (operations.zipWith (fun operation result => result >>= mutationResponse operation) results)) shard'
  /-- The list fails as a whole. -/
  | groupFailed {operations : List CoordinatorOperation} {requests : List TransactionRequest} {error : Error}
      {shard shard' : Machine FileId Shard} (hmutations : ∀ operation ∈ operations, operation.isMutation = true)
      (hrequests : operations.map CoordinatorOperation.asTransactionRequest = requests.map .ok)
      (hrun : Shard.onStore (Store.applyTransactionGroup requests) shard = .err error shard') :
      Processed operations shard (.error error) shard'
  /-- Any other operation is run by itself, and an error of it is its response. -/
  | single {operation : CoordinatorOperation} {response : Result CoordinatorResponse}
      {shard shard' : Machine FileId Shard} (hmutation : operation.isMutation = false)
      (hrun : Io.attempt (processOperation operation) shard = .ok response shard') :
      Processed [operation] shard (.ok [response]) shard'

theorem Processed.length {shard : Machine FileId Shard} {responses : List (Result CoordinatorResponse)}
    (h : Processed operations shard (.ok responses) shard') : responses.length = operations.length := by
  cases h with
  | group _ _ _ hlength => rw [List.length_zipWith, hlength, Nat.min_self]
  | single => rfl

/-- A segment: a run of mutations, or one other operation. -/
def IsSegment (operations : List CoordinatorOperation) : Prop :=
  (∀ operation ∈ operations, operation.isMutation = true) ∨
    ∃ operation, operation.isMutation = false ∧ operations = [operation]

omit [Crc32c] in
theorem exists_requests (h : ∀ operation ∈ operations, operation.isMutation = true) :
    ∃ requests : List TransactionRequest,
      operations.map CoordinatorOperation.asTransactionRequest = requests.map .ok := by
  induction operations with
  | nil => exact ⟨[], rfl⟩
  | cons operation rest ih =>
    obtain ⟨requests, hrequests⟩ := ih fun operation hoperation => h operation (List.mem_cons_of_mem _ hoperation)
    obtain ⟨request, hrequest⟩ : ∃ request, operation.asTransactionRequest = .ok request := by
      have hmutation := h operation List.mem_cons_self
      fun_cases CoordinatorOperation.asTransactionRequest operation with
      | case4 => simp_all [CoordinatorOperation.isMutation]
      | _ => exact ⟨_, rfl⟩
    exact ⟨request :: requests, by rw [List.map_cons, List.map_cons, hrequests, hrequest]⟩

omit [Crc32c] in
theorem mapM_of_map_ok {requests : List TransactionRequest}
    (h : operations.map CoordinatorOperation.asTransactionRequest = requests.map .ok) :
    operations.mapM CoordinatorOperation.asTransactionRequest = .ok requests := by
  induction operations generalizing requests with
  | nil =>
    rw [List.map_eq_nil_iff.mp h.symm]
    rfl
  | cons operation rest ih =>
    obtain _ | ⟨request, requests⟩ := requests
    · cases h
    · obtain ⟨hrequest, hrest⟩ := List.cons.inj h
      rw [List.mapM_cons, hrequest, ih hrest]
      rfl

/-- A run of mutations is one call of the store. -/
theorem processSegment_mutations {requests : List TransactionRequest}
    (hmutations : ∀ operation ∈ operations, operation.isMutation = true)
    (hrequests : operations.map CoordinatorOperation.asTransactionRequest = requests.map .ok) :
    processSegment operations = (do
      let results ← Shard.onStore (Store.applyTransactionGroup requests)
      pure (operations.zipWith (fun operation result => result >>= mutationResponse operation) results)) := by
  rw [processSegment, if_pos (List.all_eq_true.mpr hmutations), mapM_of_map_ok hrequests]
  refine congrArg (Shard.onStore (Store.applyTransactionGroup requests) >>= ·) (funext fun results => ?_)
  rw [List.zipWith_comm, List.zip, List.map_zipWith]

theorem processSegment_single {operation : CoordinatorOperation} (hmutation : operation.isMutation = false) :
    processSegment [operation] = (do
      let response ← Io.attempt (processOperation operation)
      pure [response]) := by
  rw [processSegment, List.all_cons, hmutation]
  rfl

theorem processed_of_processSegment (hsegment : IsSegment operations)
    {shard : Machine FileId Shard} {outcome : Result (List (Result CoordinatorResponse))}
    (h : Io.attempt (processSegment operations) shard = .ok outcome shard') :
    Processed operations shard outcome shard' := by
  obtain hmutations | ⟨operation, hmutation, rfl⟩ := hsegment
  · obtain ⟨requests, hrequests⟩ := exists_requests hmutations
    rw [processSegment_mutations hmutations hrequests] at h
    obtain ⟨responses, rfl, hrun⟩ | ⟨error, rfl, hrun⟩ := Io.attempt_eq_ok.mp h
    · obtain ⟨results, shard₁, hgroup, hpure⟩ := Io.bind_eq_ok.mp hrun
      cases hpure
      obtain ⟨n, hn, -⟩ := zoom_eq_ok hgroup
      have hlength := congrArg List.length hrequests
      rw [List.length_map, List.length_map] at hlength
      exact .group hmutations hrequests hgroup ((Store.applyTransactionGroup_length hn).trans hlength.symm)
    · rw [Io.bind_apply] at hrun
      cases hgroup : Shard.onStore (Store.applyTransactionGroup requests) shard with
      | err e m =>
        rw [hgroup] at hrun
        cases hrun
        exact .groupFailed hmutations hrequests hgroup
      | _ =>
        rw [hgroup] at hrun
        cases hrun
  · rw [processSegment_single hmutation] at h
    obtain ⟨responses, rfl, hrun⟩ | ⟨error, rfl, hrun⟩ := Io.attempt_eq_ok.mp h
    · obtain ⟨response, shard₁, hresponse, hpure⟩ := Io.bind_eq_ok.mp hrun
      cases hpure
      exact .single hmutation hresponse
    · exact absurd hrun ((Io.NeverFails.attempt _).bind (fun _ => .pure _) _ _ _)

/-- The shard once its read view has taken what the store published: the store is as it was left. -/
def Shard.refreshed (shard : Shard) : Shard where
  store := {shard.store with publishedPageUpdates := .empty}
  readView := {
    view := if shard.store.publishedPageUpdates.isEmpty then shard.readView.view
      else shard.readView.view.map fun view =>
        view.applyUpdates shard.store.publishedPageUpdates shard.store.rootPageId shard.store.highWaterPageId
    broken := shard.store.broken.or shard.readView.broken}

theorem serveSegment_eq (operations : List CoordinatorOperation) : serveSegment operations = (do
    let outcome ← Io.attempt (processSegment operations)
    modifyMemory Shard.refreshed
    pure outcome) := by
  rw [serveSegment]
  refine congrArg _ (funext fun outcome => funext fun m => ?_)
  obtain ⟨files, ⟨store, view, broken⟩, schedule, faulted⟩ := m
  cases hbroken : store.broken <;> cases hempty : store.publishedPageUpdates.isEmpty <;> cases outcome <;>
    simp [Io.bind_apply, Shard.noteDegraded, Shard.markReadViewBroken, Shard.publishReadUpdates, Io.attempt, memory,
      modifyMemory, Shard.refreshed, hbroken, hempty] <;> rfl

theorem processed_of_serveSegment (hsegment : IsSegment operations) {shard : Machine FileId Shard}
    {outcome : Result (List (Result CoordinatorResponse))} (h : serveSegment operations shard = .ok outcome shard') :
    ∃ m, Processed operations shard outcome m ∧ shard' = m.setMemory m.memory.refreshed := by
  rw [serveSegment_eq, Io.bind_eq_ok] at h
  obtain ⟨outcome', m, hprocess, h⟩ := h
  cases h
  exact ⟨m, processed_of_processSegment hsegment hprocess, rfl⟩

/-! ### The segments of a group -/

/-- The leading run of mutations, or the leading request. -/
def firstSegment : List QueuedRequest → List QueuedRequest
  | [] => []
  | request :: rest =>
    if request.operation.isMutation then request :: rest.takeWhile fun request => request.operation.isMutation
    else [request]

omit [Crc32c] in
theorem firstSegment_isPrefix (requests : List QueuedRequest) : firstSegment requests <+: requests := by
  cases requests with
  | nil => exact List.prefix_rfl
  | cons request rest =>
    rw [firstSegment]
    split
    · exact List.cons_prefix_cons.mpr ⟨rfl, List.takeWhile_prefix _⟩
    · exact List.cons_prefix_cons.mpr ⟨rfl, List.nil_prefix⟩

omit [Crc32c] in
theorem firstSegment_append_drop (requests : List QueuedRequest) :
    firstSegment requests ++ requests.drop (firstSegment requests).length = requests :=
  List.prefix_iff_eq_append.mp (firstSegment_isPrefix requests)

omit [Crc32c] in
/-- The source finds the end of a segment by position. -/
theorem segmentEnd_eq {before : List QueuedRequest} (h : requests ≠ []) :
    segmentEnd ((before ++ requests).map QueuedRequest.operation) before.length =
      before.length + (firstSegment requests).length := by
  obtain ⟨request, rest, rfl⟩ := List.exists_cons_of_ne_nil h
  have hfirst : ((before ++ request :: rest).map QueuedRequest.operation)[before.length]? = some request.operation := by
    simp
  rw [firstSegment]
  by_cases hmutation : request.operation.isMutation = true
  · have hdrop : ((before ++ request :: rest).map QueuedRequest.operation).drop before.length =
        request.operation :: rest.map QueuedRequest.operation := by
      simp
    rw [segmentEnd_of_mutation hfirst hmutation, if_pos hmutation, hdrop, List.findIdx_cons, hmutation]
    show before.length + (List.findIdx _ _ + 1) = before.length + (List.length _ + 1)
    rw [List.takeWhile_eq_take_findIdx_not, List.length_take, List.findIdx_map, Nat.min_eq_left List.findIdx_le_length]
    rfl
  · rw [if_neg hmutation, segmentEnd, hfirst, Option.map_some, Option.getD_some, if_neg hmutation]
    rfl

omit [Crc32c] in
theorem isSegment_firstSegment (h : requests ≠ []) :
    IsSegment ((firstSegment requests).map QueuedRequest.operation) := by
  obtain ⟨request, rest, rfl⟩ := List.exists_cons_of_ne_nil h
  rw [firstSegment]
  by_cases hmutation : request.operation.isMutation = true
  · rw [if_pos hmutation]
    refine .inl fun operation hoperation => ?_
    obtain ⟨other, hother, rfl⟩ := List.mem_map.mp hoperation
    obtain rfl | hother := List.mem_cons.mp hother
    · exact hmutation
    · have himp := List.mem_takeWhile_imp hother
      exact himp
  · rw [if_neg hmutation]
    exact .inr ⟨request.operation, Bool.eq_false_iff.mpr hmutation, rfl⟩

/-- How a group is served from a state of the shard on: the segments that are run, the answers that are sent, and
the state of the shard at the end. The store goes from one segment to the next as it was left. -/
inductive Served : List QueuedRequest → Machine FileId Shard → List Call → List Answer → Machine FileId Shard → Prop
  | done (shard : Machine FileId Shard) : Served [] shard [] [] shard
  /-- The first segment is run, each of its requests is answered with its own response, and the rest is served. -/
  | served {requests : List QueuedRequest} {shard shard₁ shard₂ : Machine FileId Shard}
      {responses : List (Result CoordinatorResponse)} {calls : List Call} {answers : List Answer} (hne : requests ≠ [])
      (hrun : Processed ((firstSegment requests).map QueuedRequest.operation) shard (.ok responses) shard₁)
      (hrest : Served (requests.drop (firstSegment requests).length) (shard₁.setMemory shard₁.memory.refreshed)
        calls answers shard₂) :
      Served requests shard (((firstSegment requests).map QueuedRequest.operation, .ok responses) :: calls)
        (((firstSegment requests).map QueuedRequest.responseTx).zip responses ++ answers) shard₂
  /-- The first segment fails: its requests and those after it are answered with the error, and no more is run. -/
  | failed {requests : List QueuedRequest} {shard shard₁ : Machine FileId Shard} {error : Error} (hne : requests ≠ [])
      (hrun : Processed ((firstSegment requests).map QueuedRequest.operation) shard (.error error) shard₁) :
      Served requests shard [((firstSegment requests).map QueuedRequest.operation, .error error)]
        (requests.map fun request => (request.responseTx, .error (batchError error)))
        (shard₁.setMemory shard₁.memory.refreshed)

theorem Processed.length_firstSegment {shard : Machine FileId Shard} {responses : List (Result CoordinatorResponse)}
    (h : Processed ((firstSegment requests).map QueuedRequest.operation) shard (.ok responses) shard') :
    responses.length = (firstSegment requests).length :=
  h.length.trans (List.length_map ..)

omit [Crc32c] in
theorem answerEach_map_some (requests : List QueuedRequest) {responses : List (Result CoordinatorResponse)}
    (h : responses.length = requests.length) :
    answerEach (requests.map some) responses =
      (requests.map fun _ => none, (requests.map QueuedRequest.responseTx).zip responses) := by
  induction requests generalizing responses with
  | nil =>
    rw [List.length_eq_zero_iff.mp h]
    rfl
  | cons request rest ih =>
    obtain _ | ⟨response, more⟩ := responses
    · cases h
    · rw [List.map_cons, answerEach, ih (Nat.succ.inj h)]
      rfl

/-- The slots of a group of which the requests `before` have been taken out. -/
def slotsAfter (before requests : List QueuedRequest) : List (Option QueuedRequest) :=
  before.map (fun _ => none) ++ requests.map some

omit [Crc32c] in
theorem firstSegment_length_pos (h : requests ≠ []) : 0 < (firstSegment requests).length := by
  obtain ⟨request, rest, rfl⟩ := List.exists_cons_of_ne_nil h
  rw [firstSegment]
  split <;> exact Nat.succ_pos _

theorem serveFrom_end (before : List QueuedRequest) (slots : List (Option QueuedRequest)) :
    serveFrom ((before ++ []).map QueuedRequest.operation) slots before.length = pure ([], []) := by
  rw [serveFrom, dif_neg (by simp)]

/-- One round of the loop: positions and slots come to the first segment of what is left. -/
theorem serveFrom_segment (before : List QueuedRequest) (hne : requests ≠ []) :
    serveFrom ((before ++ requests).map QueuedRequest.operation) (slotsAfter before requests) before.length = (do
      let result ← serveSegment ((firstSegment requests).map QueuedRequest.operation)
      match result with
      | .ok responses =>
        let (slots, answers) := answerEach ((firstSegment requests).map some) responses
        let (calls, more) ← serveFrom ((before ++ requests).map QueuedRequest.operation)
          (before.map (fun _ => none) ++ slots ++ (requests.drop (firstSegment requests).length).map some)
          (before.length + (firstSegment requests).length)
        pure (((firstSegment requests).map QueuedRequest.operation, .ok responses) :: calls, answers ++ more)
      | .error error => pure ([((firstSegment requests).map QueuedRequest.operation, .error error)],
          requests.map fun request => (request.responseTx, .error (batchError error)))) := by
  have hlt : before.length < ((before ++ requests).map QueuedRequest.operation).length := by
    have := List.length_pos_iff.mpr hne
    simp only [List.length_map, List.length_append]
    omega
  have htake : requests.take (firstSegment requests).length = firstSegment requests :=
    (List.prefix_iff_eq_take.mp (firstSegment_isPrefix requests)).symm
  have hsegment : (((before ++ requests).map QueuedRequest.operation).drop before.length).take
      (firstSegment requests).length = (firstSegment requests).map QueuedRequest.operation := by
    rw [← List.map_drop, List.drop_left, ← List.map_take, htake]
  have hslots : (slotsAfter before requests).drop before.length = requests.map some :=
    List.drop_left' (List.length_map ..)
  have htaken : (slotsAfter before requests).take before.length = before.map fun _ => none :=
    List.take_left' (List.length_map ..)
  have hrest : (slotsAfter before requests).drop (before.length + (firstSegment requests).length) =
      (requests.drop (firstSegment requests).length).map some := by
    rw [← List.drop_drop, hslots, List.map_drop]
  rw [serveFrom, dif_pos hlt]
  dsimp only
  rw [segmentEnd_eq hne, Nat.add_sub_cancel_left, hsegment, hslots, htaken, hrest, ← List.map_take, htake]
  refine congrArg _ (funext fun result => ?_)
  cases result with
  | ok responses => rfl
  | error error =>
    dsimp only
    rw [answerEach_map_some _ (by simp), List.map_map, List.zip_map']
    rfl

/-- The loop over positions and slots serves the group. -/
theorem served_of_serveFrom {before requests : List QueuedRequest} {shard shard' : Machine FileId Shard}
    {calls : List Call} {answers : List Answer}
    (h : serveFrom ((before ++ requests).map QueuedRequest.operation) (slotsAfter before requests) before.length shard =
      .ok (calls, answers) shard') : Served requests shard calls answers shard' := by
  induction hn : requests.length using Nat.strongRecOn generalizing before requests shard calls answers with
  | _ n ih =>
    by_cases hne : requests = []
    · subst hne
      rw [serveFrom_end] at h
      cases h
      exact .done _
    rw [serveFrom_segment before hne, Io.bind_eq_ok] at h
    obtain ⟨result, shard₁, hrun, h⟩ := h
    obtain ⟨m, hprocessed, rfl⟩ := processed_of_serveSegment (isSegment_firstSegment hne) hrun
    cases result with
    | error error =>
      cases h
      exact .failed hne hprocessed
    | ok responses =>
      dsimp only at h
      rw [answerEach_map_some _ hprocessed.length_firstSegment, Io.bind_eq_ok] at h
      obtain ⟨⟨calls', answers'⟩, shard₂, hrest, h⟩ := h
      cases h
      -- the segment that was answered is among the requests that were taken out
      have htaken : (before ++ requests).map QueuedRequest.operation =
          (before ++ firstSegment requests ++ requests.drop (firstSegment requests).length).map
            QueuedRequest.operation := by
        rw [List.append_assoc before (firstSegment requests), firstSegment_append_drop]
      dsimp only at hrest
      rw [htaken, ← List.map_append, ← List.length_append] at hrest
      have hshorter : (requests.drop (firstSegment requests).length).length < n := by
        have hpos := firstSegment_length_pos hne
        have := List.length_pos_iff.mpr hne
        rw [List.length_drop]
        omega
      exact .served hne hprocessed (ih _ hshorter hrest rfl)

/-! ### The answers to a group -/

namespace Served
variable {requests : List QueuedRequest} {shard shard' : Machine FileId Shard} {calls : List Call} {answers : List Answer}

end Served

/-- Groups that were served one after another. -/
def ServedAll : Machine FileId Shard → List Group → Machine FileId Shard → Prop
  | shard, [], shard' => shard' = shard
  | shard, group :: rest, shard' =>
    ∃ shard₁, Served group.requests shard group.calls group.answers shard₁ ∧ ServedAll shard₁ rest shard'

theorem ServedAll.append {groups : List Group} {group : Group} {shard shard₁ shard₂ : Machine FileId Shard}
    (h : ServedAll shard groups shard₁) (hgroup : Served group.requests shard₁ group.calls group.answers shard₂) :
    ServedAll shard (groups ++ [group]) shard₂ := by
  induction groups generalizing shard with
  | nil =>
    cases h
    exact ⟨shard₂, hgroup, rfl⟩
  | cons first rest ih =>
    obtain ⟨shard₃, hfirst, hrest⟩ := h
    exact ⟨shard₃, hfirst, ih hrest⟩

theorem ServedAll.mem {groups : List Group} {group : Group} {shard : Machine FileId Shard}
    (h : ServedAll shard groups shard') (hgroup : group ∈ groups) :
    ∃ before after, Served group.requests before group.calls group.answers after := by
  induction groups generalizing shard with
  | nil => cases hgroup
  | cons first rest ih =>
    obtain ⟨shard₁, hfirst, hrest⟩ := h
    rcases List.mem_cons.mp hgroup with rfl | hgroup
    · exact ⟨shard, shard₁, hfirst⟩
    · exact ih hrest hgroup

/-- The requests of the group that is being gathered. -/
def CoordinatorPhase.collecting : CoordinatorPhase → List QueuedRequest
  | .gathering requests _ => requests
  | .delaying requests _ => requests
  | _ => []

namespace Coordinator
variable {channel : List QueuedRequest}

/-- What holds however far the coordinator has come, from a state of the shard on. -/
structure Inv (config : CoordinatorConfig) (shard : Machine FileId Shard) (s : Coordinator) : Prop where
  config : s.config = config
  arrived : s.arrived =
    s.groups.flatMap Group.requests ++ s.phase.collecting ++ s.pending.toList ++ s.channel
  limit : 1 ≤ s.config.maxGroupRequests
  size : ∀ group ∈ s.groups, group.requests ≠ [] ∧ group.requests.length ≤ s.config.maxGroupRequests
  collecting : s.phase.collecting.length ≤ s.config.maxGroupRequests
  started : ∀ requests bytes, s.phase = .gathering requests bytes ∨ s.phase = .delaying requests bytes → requests ≠ []
  pending : s.phase ≠ .idle → s.pending = none
  served : ServedAll shard s.groups s.shard

/-- A group of which the collection is over. -/
structure Collected (config : CoordinatorConfig) (shard : Machine FileId Shard) (s : Coordinator)
    (requests : List QueuedRequest) (pending : Option QueuedRequest) : Prop where
  config : s.config = config
  arrived : s.arrived = s.groups.flatMap Group.requests ++ requests ++ pending.toList ++ s.channel
  limit : 1 ≤ s.config.maxGroupRequests
  size : ∀ group ∈ s.groups, group.requests ≠ [] ∧ group.requests.length ≤ s.config.maxGroupRequests
  length : requests.length ≤ s.config.maxGroupRequests
  started : requests ≠ []
  served : ServedAll shard s.groups s.shard

variable {config : CoordinatorConfig} {shard : Machine FileId Shard} {s s' : Coordinator} {requests : List QueuedRequest}
  {pending : Option QueuedRequest}

theorem Collected.serve {closeRequested : Bool} (h : Collected config shard s requests pending)
    (hclose : closeRequested = true → pending = none) (hserve : s.serve requests pending closeRequested = some s') :
    Inv config shard s' := by
  unfold Coordinator.serve at hserve
  cases hfrom : serveFrom (requests.map QueuedRequest.operation) (requests.map some) 0 s.shard with
  | err | halt =>
    rw [hfrom] at hserve
    cases hserve
  | ok result m =>
    obtain ⟨calls, answers⟩ := result
    rw [hfrom] at hserve
    cases hserve
    have hserved : Served requests s.shard calls answers m := @served_of_serveFrom _ [] _ _ _ _ _ hfrom
    have hnobody : ∀ b : Bool, (if b then CoordinatorPhase.stopped else .idle).collecting = [] := by
      intro b
      cases b <;> rfl
    refine ⟨h.config, ?_, h.limit, ?_, ?_, ?_, ?_, h.served.append hserved⟩
    · show s.arrived = _
      rw [hnobody, h.arrived]
      simp
    · intro group hgroup
      rcases List.mem_append.mp hgroup with hgroup | hgroup
      · exact h.size group hgroup
      · rw [List.mem_singleton.mp hgroup]
        exact ⟨h.started, h.length⟩
    · rw [hnobody]
      exact Nat.zero_le _
    · intro requests bytes hphase
      cases closeRequested <;> rcases hphase with hphase | hphase <;> cases hphase
    · intro hidle
      cases closeRequested with
      | true => exact hclose rfl
      | false => exact absurd rfl hidle

theorem Collected.endGathering {bytes : Nat} (h : Collected config shard s requests pending) (hpending : s.pending = none)
    (hend : s.endGathering requests bytes pending = some s') : Inv config shard s' := by
  unfold Coordinator.endGathering at hend
  by_cases hdelay : requests.length > 1 ∧ pending.isNone ∧ requests.length < s.config.maxGroupRequests ∧
      s.config.maxCollectionDelay > 0
  · rw [if_pos hdelay] at hend
    cases hend
    obtain rfl : pending = none := Option.isNone_iff_eq_none.mp hdelay.2.1
    refine ⟨h.config, ?_, h.limit, h.size, h.length, ?_, fun _ => hpending, h.served⟩
    · show s.arrived = s.groups.flatMap Group.requests ++ requests ++ s.pending.toList ++ s.channel
      rw [hpending]
      exact h.arrived
    · intro requests' bytes' hphase
      rcases hphase with hphase | hphase
      · cases hphase
      · cases hphase
        exact h.started
  · rw [if_neg hdelay] at hend
    exact h.serve (fun hclose => by cases hclose) hend

omit [Crc32c] in
theorem canAdd_lt {count bytes size : Nat} (h : canAdd count bytes size config = true)
    (hpos : count ≠ 0) : count < config.maxGroupRequests := by
  simp only [canAdd, Bool.or_eq_true, beq_iff_eq, hpos, false_or, Bool.and_eq_true, decide_eq_true_eq] at h
  exact h.1

/-- The requests that are being collected, as a group. -/
theorem Inv.collected {bytes : Nat} (h : Inv config shard s)
    (hphase : s.phase = .gathering requests bytes ∨ s.phase = .delaying requests bytes) :
    Collected config shard s requests none := by
  have hcollecting : s.phase.collecting = requests := by
    rcases hphase with hphase | hphase <;> rw [hphase] <;> rfl
  have hpending : s.pending = none := h.pending (by rcases hphase with hphase | hphase <;> rw [hphase] <;> nofun)
  refine ⟨h.config, ?_, h.limit, h.size, ?_, h.started requests bytes hphase, h.served⟩
  · rw [h.arrived, hcollecting, hpending]
  · rw [← hcollecting]
    exact h.collecting

/-- The next request of the channel joins the group. -/
theorem Collected.join {request : QueuedRequest} (h : Collected config shard s requests none)
    (hchannel : s.channel = request :: channel) (hlt : requests.length < s.config.maxGroupRequests) :
    Collected config shard {s with channel} (requests ++ [request]) none := by
  refine ⟨h.config, ?_, h.limit, h.size, ?_, by simp, h.served⟩
  · show s.arrived = _
    rw [h.arrived, hchannel]
    simp
  · rw [List.length_append]
    exact hlt

/-- The next request of the channel is set aside. -/
theorem Collected.setAside {request : QueuedRequest} (h : Collected config shard s requests none)
    (hchannel : s.channel = request :: channel) : Collected config shard {s with channel} requests (some request) := by
  refine ⟨h.config, ?_, h.limit, h.size, h.length, h.started, h.served⟩
  show s.arrived = _
  rw [h.arrived, hchannel]
  simp

/-- The requests of a group go on being collected. -/
theorem Collected.collect {phase : CoordinatorPhase} {bytes : Nat} (h : Collected config shard s requests none)
    (hphase : phase = .gathering requests bytes ∨ phase = .delaying requests bytes) (hpending : s.pending = none) :
    Inv config shard {s with phase} := by
  have hcollecting : phase.collecting = requests := by
    rcases hphase with hphase | hphase <;> rw [hphase] <;> rfl
  refine ⟨h.config, ?_, h.limit, h.size, ?_, ?_, fun _ => hpending, h.served⟩
  · show s.arrived = s.groups.flatMap Group.requests ++ phase.collecting ++ s.pending.toList ++ s.channel
    rw [hcollecting, hpending]
    exact h.arrived
  · show phase.collecting.length ≤ _
    rw [hcollecting]
    exact h.length
  · intro requests' bytes' hphase'
    have : requests' = requests := by
      rw [← hcollecting]
      rcases hphase' with hphase' | hphase' <;> rw [show phase = _ from hphase'] <;> rfl
    rw [this]
    exact h.started

/-- A first request that was set aside or comes from the channel. -/
theorem Inv.begin {first : QueuedRequest} (h : Inv config shard s) (hphase : s.phase = .idle)
    (hsplit : s.pending.toList ++ s.channel = first :: channel) :
    Inv config shard ({s with pending := none, channel}.begin first) := by
  have hfirst : Collected config shard {s with pending := none, channel} [first] none := by
    refine ⟨h.config, ?_, h.limit, h.size, h.limit, List.cons_ne_nil _ _, h.served⟩
    show s.arrived = _
    rw [h.arrived, hphase, List.append_assoc, hsplit]
    simp [CoordinatorPhase.collecting]
  exact hfirst.collect (.inl rfl) rfl

theorem Inv.stop (h : Inv config shard s) (hphase : s.phase = .idle) (hpending : s.pending = none) :
    Inv config shard {s with phase := .stopped} := by
  refine ⟨h.config, ?_, h.limit, h.size, Nat.zero_le _, ?_, fun _ => hpending, h.served⟩
  · have := h.arrived
    rwa [hphase] at this
  · intro requests bytes hstopped
    rcases hstopped with hstopped | hstopped <;> cases hstopped

theorem Inv.receive_idle (h : Inv config shard s) (hphase : s.phase = .idle) (hreceive : s.receive = some s') :
    Inv config shard s' := by
  unfold Coordinator.receive at hreceive
  rw [hphase] at hreceive
  dsimp only at hreceive
  cases hpending : s.pending with
  | some request =>
    rw [hpending] at hreceive
    cases hreceive
    exact h.begin hphase (by rw [hpending]; rfl)
  | none =>
    rw [hpending] at hreceive
    cases hchannel : s.channel with
    | cons request channel =>
      rw [hchannel] at hreceive
      cases hreceive
      exact h.begin hphase (by rw [hpending, hchannel]; rfl)
    | nil =>
      rw [hchannel] at hreceive
      dsimp only at hreceive
      split at hreceive
      · cases hreceive
        have hstop := h.stop hphase hpending
        rwa [hchannel, hpending] at hstop
      · cases hreceive

theorem Inv.receive_gathering {bytes : Nat} (h : Inv config shard s) (hphase : s.phase = .gathering requests bytes)
    (hreceive : s.receive = some s') : Inv config shard s' := by
  have hcollected := h.collected (.inl hphase)
  have hpending : s.pending = none := h.pending (by rw [hphase]; nofun)
  unfold Coordinator.receive at hreceive
  rw [hphase] at hreceive
  dsimp only at hreceive
  by_cases hfull : requests.length ≥ s.config.maxGroupRequests
  · rw [if_pos hfull] at hreceive
    exact hcollected.endGathering hpending hreceive
  rw [if_neg hfull] at hreceive
  cases hchannel : s.channel with
  | nil =>
    rw [hchannel] at hreceive
    exact hcollected.endGathering hpending hreceive
  | cons request channel =>
    rw [hchannel] at hreceive
    dsimp only at hreceive
    by_cases hadd : canAdd requests.length bytes request.operation.size s.config = true
    · rw [if_pos hadd] at hreceive
      cases hreceive
      exact (hcollected.join hchannel (not_le.mp hfull)).collect (.inl rfl) hpending
    · rw [if_neg hadd] at hreceive
      exact (hcollected.setAside hchannel).endGathering hpending hreceive

theorem Inv.receive_delaying {bytes : Nat} (h : Inv config shard s) (hphase : s.phase = .delaying requests bytes)
    (hreceive : s.receive = some s') : Inv config shard s' := by
  have hcollected := h.collected (.inr hphase)
  have hpending : s.pending = none := h.pending (by rw [hphase]; nofun)
  unfold Coordinator.receive at hreceive
  rw [hphase] at hreceive
  dsimp only at hreceive
  cases hchannel : s.channel with
  | nil =>
    rw [hchannel] at hreceive
    dsimp only at hreceive
    split at hreceive
    · exact hcollected.serve (fun hclose => by cases hclose) hreceive
    · cases hreceive
  | cons request channel =>
    rw [hchannel] at hreceive
    dsimp only at hreceive
    by_cases hadd : canAdd requests.length bytes request.operation.size s.config = true
    · have hlt := canAdd_lt hadd (List.length_eq_zero_iff.not.mpr hcollected.started)
      rw [if_pos hadd] at hreceive
      have hjoined := hcollected.join hchannel hlt
      split at hreceive
      · exact hjoined.serve (fun hclose => by cases hclose) hreceive
      · cases hreceive
        exact hjoined.collect (.inr rfl) hpending
    · rw [if_neg hadd] at hreceive
      exact (hcollected.setAside hchannel).serve (fun hclose => by cases hclose) hreceive

theorem Inv.step {a : CoordinatorStep} (h : Inv config shard s) (hstep : s.step a = some s') : Inv config shard s' := by
  cases a with
  | arrive request =>
    rw [Coordinator.step] at hstep
    split at hstep
    · cases hstep
      refine ⟨h.config, ?_, h.limit, h.size, h.collecting, h.started, h.pending, h.served⟩
      show s.arrived ++ [request] = _
      rw [h.arrived, List.append_assoc]
    · cases hstep
  | disconnect | signalClose =>
    cases hstep
    exact ⟨h.config, h.arrived, h.limit, h.size, h.collecting, h.started, h.pending, h.served⟩
  | receive =>
    cases hphase : s.phase with
    | idle => exact h.receive_idle hphase hstep
    | gathering requests bytes => exact h.receive_gathering hphase hstep
    | delaying requests bytes => exact h.receive_delaying hphase hstep
    | stopped =>
      rw [Coordinator.step, Coordinator.receive, hphase] at hstep
      cases hstep
  | deadline =>
    rw [Coordinator.step] at hstep
    cases hphase : s.phase with
    | delaying requests bytes =>
      rw [hphase] at hstep
      exact (h.collected (.inr hphase)).serve (fun hclose => by cases hclose) hstep
    | _ =>
      rw [hphase] at hstep
      cases hstep
  | seeClose =>
    rw [Coordinator.step] at hstep
    split at hstep
    · cases hphase : s.phase with
      | idle =>
        rw [hphase] at hstep
        cases hpending : s.pending with
        | none =>
          rw [hpending] at hstep
          cases hstep
          rw [← hpending]
          exact h.stop hphase hpending
        | some request =>
          rw [hpending] at hstep
          cases hstep
      | delaying requests bytes =>
        rw [hphase] at hstep
        exact (h.collected (.inr hphase)).serve (fun _ => rfl) hstep
      | gathering | stopped =>
        rw [hphase] at hstep
        cases hstep
    · cases hstep

theorem Inv.run {steps : List CoordinatorStep} (h : Inv config shard s) (hrun : s.run steps = some s') : Inv config shard s' := by
  induction steps generalizing s with
  | nil =>
    cases hrun
    exact h
  | cons a rest ih =>
    obtain ⟨s₁, hstep, hrest⟩ := Option.bind_eq_some_iff.mp hrun
    exact ih (h.step hstep) hrest

theorem Inv.init (config : CoordinatorConfig) (shard : Machine FileId Shard) :
    Inv config.effective shard {config := config.effective, shard} where
  config := rfl
  arrived := rfl
  limit := Nat.le_max_right _ _
  size := nofun
  collecting := Nat.zero_le _
  started requests bytes hphase := by rcases hphase with hphase | hphase <;> cases hphase
  pending hidle := absurd rfl hidle
  served := rfl

end Coordinator

end Order

/-- A shard with an empty tree and no log, of which the sixth operation on a file fails. -/
def sampleShard : Machine FileId Shard :=
  ⟨fun _ => {}, ⟨⟨none, Superblock.new 1 .zero 1 1 1, .A, 2, none, 2, 1, 1, 1, (PageCache.new 128).insert 2 (.leaf 0 none []),
    ⟨.zero, 1, 1, 1, 128, {}⟩, .empty, none, true, .empty, none⟩, ⟨none, none⟩⟩,
    List.replicate 5 .succeed ++ [.fail .nothing], false⟩

end Dodb
