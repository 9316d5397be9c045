import Dodb.Server.Budgets
import Dodb.Btree.CoordinatorOrder
import Dodb.Protocol.Admission
import Dodb.Protocol.Exchange

/-! Whether what the service answers can be sent.

A read that was admitted is answered within the length of a frame, with no more rows than it asked for. The encoder
holds the rows of a query to the limit for scans, though, and the query was admitted under a limit of its own. -/
namespace Dodb.Server
open Lib PageProg Protocol
variable {maximum : Nat} {response : BatchResponse}

/-! ### What a reader answers -/

/-- An answer of the kind that was asked for, with no more rows than were. -/
def Matches : BatchRequest → BatchResponse → Prop
  | .get _, .get _ => True
  | .query _ _ limit, .query rows => rows.length ≤ limit
  | .scan _ limit, .scan rows => rows.length ≤ limit
  | _, _ => False

/-- A response within the limit that was set for it. -/
structure Answers (maximum : Nat) (request : BatchRequest) (response : BatchResponse) : Prop where
  fits : frameSize response ≤ maximum
  kind : Matches request response

theorem execute_matches {request : BatchRequest} (hread : isRead request) (limits : StorageLimits)
    (b : ResponseBudget) : Ends (fun x => Matches request x.1) (execute limits request b) := by
  cases request with
  | get key => exact (ends_true _).bind fun x _ => True.intro
  | query pk after limit => exact (query_bound pk after limit b).bind fun x hx => hx
  | scan after limit => exact (scan_bound after limit b).bind fun x hx => hx
  | put | delete => exact hread.elim

/-- Whatever runs the reader of the store. -/
theorem charged_answers {τ : Type} {request : BatchRequest} (hread : isRead request) (limits : StorageLimits)
    (hmaximum : maximum ≤ usizeMax) {handler : Handler PageId PageData Alloc Error τ} {t t' : τ}
    {x : BatchResponse × ResponseBudget} (h : (charged (execute limits request) maximum).run handler t = .ok x t') :
    Answers maximum request x.1 := by
  obtain ⟨y, -, hy⟩ := (charged_metered hread limits hmaximum).run_ok (fun _ => rfl) h
  have hends : Ends (fun x => Matches request x.1) (charged (execute limits request) maximum) :=
    (ends_true _).bind fun b _ => execute_matches hread limits b
  exact ⟨hy.fits, hends.run h⟩

theorem tryRead_answers {state : ReadViewState} {request : BatchRequest} (hmaximum : maximum ≤ usizeMax)
    (h : state.tryRead request maximum = some (.ok response)) : Answers maximum request response := by
  unfold ReadViewState.tryRead at h
  cases hbroken : state.broken with
  | some message =>
    rw [hbroken] at h
    cases h
  | none =>
    rw [hbroken] at h
    obtain ⟨view, -, hview⟩ := Option.bind_eq_some_iff.mp h
    cases hbudget : ResponseBudget.new maximum with
    | error e =>
      rw [hbudget] at hview
      cases hview
    | ok budget =>
      rw [hbudget] at hview
      obtain ⟨read, hread, hresult⟩ := Option.map_eq_some_iff.mp hview
      cases hexec : PageProg.exec (read budget) view.stage with
      | err | halt =>
        rw [hexec] at hresult
        cases hresult
      | ok x t =>
        rw [hexec] at hresult
        cases hresult
        have hcharged : PageProg.exec (charged read maximum) view.stage = .ok x t := by
          rw [charged, hbudget]
          exact hexec
        obtain ⟨y, hrun, rfl⟩ := (charged_mirrors hread {} maximum).run_ok Complains.refl hcharged
        exact charged_answers (isRead_of_view hread) {} hmaximum hrun

/-! ### Through the coordinator -/

theorem documentSize_restampRow (provisional committed : Revision) (row : Document) :
    documentSize (Overlay.restampRow provisional committed row) = documentSize row := by
  unfold Overlay.restampRow
  split <;> rfl

theorem frameSize_restamp (provisional committed : Revision) (response : BatchResponse) :
    frameSize (Overlay.restampResponse provisional committed response) = frameSize response := by
  have hrows : ∀ rows : List Document,
      ((rows.map (Overlay.restampRow provisional committed)).map documentSize).sum = (rows.map documentSize).sum := by
    intro rows
    rw [List.map_map]
    congr 2
    funext row
    exact documentSize_restampRow provisional committed row
  cases response with
  | get state => cases state <;> rfl
  | put | delete => rfl
  | query | scan =>
    show headerSize + (2 + (4 + _)) = headerSize + (2 + (4 + _))
    rw [hrows]

theorem matches_restamp (provisional committed : Revision) {request : BatchRequest}
    (h : Matches request response) : Matches request (Overlay.restampResponse provisional committed response) := by
  cases request <;> cases response <;> first | exact h.elim | exact True.intro | exact (List.length_map _).trans_le h

theorem Answers.restamp {request : BatchRequest}
    (h : Answers maximum request response) (provisional committed : Revision) :
    Answers maximum request (Overlay.restampResponse provisional committed response) :=
  ⟨(frameSize_restamp provisional committed response).trans_le h.fits, matches_restamp provisional committed h.kind⟩

section Shard
variable [Crc32c]

theorem applyBatch_answers {request : BatchRequest} (hread : isRead request) {maximum : Nat}
    (hmaximum : maximum ≤ usizeMax) {m m' : Machine FileId Store} {responses : List BatchResponse}
    (h : Store.applyBatchWithResponseBudget [request] maximum m = .ok responses m') :
    ∀ response ∈ responses, Answers maximum request response := by
  simp only [Store.applyBatchWithResponseBudget, Store.prepareBatchWithResponseBudget, Store.onOverlay,
    Store.publishPrepared, Io.bind_eq_ok] at h
  obtain ⟨prepared, m₁, hprepare, _, m₂, -, h⟩ := h
  cases h
  obtain ⟨n, hn, -⟩ := zoom_eq_ok hprepare
  simp only [Io.bind_eq_ok, Io.ofExcept_eq_ok] at hn
  obtain ⟨budget, n₁, ⟨hbudget, -⟩, o, n₂, -, executed, n₃, hall, o', n₄, -, hfinish, -⟩ := hn
  rw [executeAll, Overlay.exec, run_bind] at hall
  obtain ⟨x, n₅, hexecute, hrest⟩ := Io.bind_eq_ok.mp hall
  have hcharged : (charged (execute o.store.config.limits request) maximum).run Overlay.handler n₂ = .ok x n₅ := by
    rw [charged, hbudget]
    exact hexecute
  have hx := charged_answers hread _ hmaximum hcharged
  cases hrest
  intro response hmem
  cases Overlay.finish_answers hfinish with
  | inl hsame =>
    rw [hsame] at hmem
    rw [List.mem_singleton.mp hmem]
    exact hx
  | inr hstamped =>
    obtain ⟨provisional, committed, hstamped⟩ := hstamped
    rw [hstamped] at hmem
    rw [List.mem_singleton.mp hmem]
    exact hx.restamp provisional committed

omit [Crc32c] in
theorem not_isMutation_of_isRead {request : BatchRequest} (hread : isRead request) (maximum : Nat) :
    (CoordinatorOperation.batch request maximum).isMutation = false := by
  cases request <;> first | rfl | exact hread.elim

theorem processOperation_answers {request : BatchRequest} (hread : isRead request) {maximum : Nat}
    (hmaximum : maximum ≤ usizeMax) {m m' : Machine FileId Shard} {response : CoordinatorResponse}
    (h : processOperation (.batch request maximum) m = .ok response m') :
    ∃ answer, response = .batch answer ∧ Answers maximum request answer := by
  obtain ⟨responses, m₁, hstore, hmatch⟩ := Io.bind_eq_ok.mp h
  obtain ⟨n, hn, -⟩ := zoom_eq_ok hstore
  have hanswers := applyBatch_answers hread hmaximum hn
  cases responses with
  | nil => cases hmatch
  | cons answer rest =>
    cases hmatch
    exact ⟨answer, rfl, hanswers answer List.mem_cons_self⟩

theorem send_answers {request : BatchRequest} (hread : isRead request) {maximum : Nat} (hmaximum : maximum ≤ usizeMax)
    {m m' : Machine FileId Shard} {response : CoordinatorResponse}
    (h : Shard.send (.batch request maximum) m = .ok response m') :
    ∃ answer, response = .batch answer ∧ Answers maximum request answer := by
  have hmutation := not_isMutation_of_isRead hread maximum
  obtain ⟨served, m₁, hserved, hmatch⟩ := Io.bind_eq_ok.mp h
  obtain ⟨m₂, hprocessed, -⟩ := processed_of_serveSegment (.inr ⟨_, hmutation, rfl⟩) hserved
  cases hprocessed with
  | group hmutations =>
    rw [hmutations _ List.mem_cons_self] at hmutation
    cases hmutation
  | groupFailed => cases hmatch
  | single _ hrun =>
    obtain ⟨rfl, -⟩ := Io.ofExcept_eq_ok.mp hmatch
    obtain ⟨answer, hanswer, hoperation⟩ | ⟨error, herror, -⟩ := Io.attempt_eq_ok.mp hrun
    · cases hanswer
      exact processOperation_answers hread hmaximum hoperation
    · cases herror

theorem executeWithResponseBudget_answers {request : BatchRequest} (hread : isRead request) {maximum : Nat}
    (hmaximum : maximum ≤ usizeMax) {m m' : Machine FileId Shard} {response : BatchResponse}
    (h : Shard.executeWithResponseBudget request maximum m = .ok response m') : Answers maximum request response := by
  obtain ⟨shard, m₁, -, hmatch⟩ := Io.bind_eq_ok.mp h
  cases htry : shard.readView.tryRead request maximum with
  | some result =>
    rw [htry] at hmatch
    obtain ⟨rfl, -⟩ := Io.ofExcept_eq_ok.mp hmatch
    exact tryRead_answers hmaximum htry
  | none =>
    rw [htry] at hmatch
    obtain ⟨sent, m₂, hsend, hsent⟩ := Io.bind_eq_ok.mp hmatch
    obtain ⟨answer, rfl, hanswer⟩ := send_answers hread hmaximum hsend
    cases hsent
    exact hanswer

end Shard

/-! ### Through the service -/

section Service
variable [Crc32c] {config : LocalTenantServiceConfig} {tenant : TenantId} {limits : ProtocolLimits}

omit [Crc32c] in
theorem onShard_ok {shard : Shard} {α : Type} {p : Shard.Op α} {m m' : Machine String Host} {a : α}
    (h : Service.onShard config tenant shard p m = .ok a m') : ∃ n n', p n = .ok a n' := by
  obtain ⟨⟨result, shard'⟩, m₁, hfiles, hrest⟩ := Io.bind_eq_ok.mp h
  obtain ⟨_, m₂, -, hresult⟩ := Io.bind_eq_ok.mp hrest
  obtain ⟨rfl, -⟩ := Io.ofExcept_eq_ok.mp hresult
  unfold Service.onFiles at hfiles
  generalize (⟨fun k => m.files (Service.paths config tenant k), shard, m.schedule, m.faulted⟩ :
    Machine FileId Shard) = n at hfiles
  cases hrun : Io.attempt p n with
  | err | halt =>
    rw [hrun] at hfiles
    cases hfiles
  | ok x n' =>
    rw [hrun] at hfiles
    cases hfiles
    cases Io.attempt_eq_ok.mp hrun with
    | inl hok =>
      obtain ⟨b, heq, hp⟩ := hok
      cases heq
      exact ⟨n, n', hp⟩
    | inr herror =>
      obtain ⟨_, heq, -⟩ := herror
      cases heq

/-- What the service reads comes from a reader, or is the answer of an empty database. -/
theorem read_answers {request : BatchRequest}
    (hread : isRead request) {maximum : Nat} (hmaximum : maximum ≤ usizeMax) {synthesized : Response}
    {answer : BatchResponse → Result Response} {m m' : Machine String Host} {response : Response}
    (h : Service.read config tenant request maximum synthesized answer m = .ok response m') :
    (∃ answered, Answers maximum request answered ∧ answer answered = .ok response) ∨
      response = synthesized ∧ headerSize + (2 + synthesized.size) ≤ maximum := by
  obtain ⟨shard, m₁, -, hmatch⟩ := Io.bind_eq_ok.mp h
  cases shard with
  | some shard =>
    obtain ⟨answered, m₂, hshard, hanswer⟩ := Io.bind_eq_ok.mp hmatch
    obtain ⟨n, n', hn⟩ := onShard_ok hshard
    exact .inl ⟨answered, executeWithResponseBudget_answers hread hmaximum hn, (Io.ofExcept_eq_ok.mp hanswer).1⟩
  | none =>
    obtain ⟨_, m₂, hbudget, hpure⟩ := Io.bind_eq_ok.mp hmatch
    cases hpure
    refine .inr ⟨rfl, ?_⟩
    have hensure := (Io.ofExcept_eq_ok.mp hbudget).1
    unfold Service.ensureSynthesizedResponseBudget at hensure
    cases hencode : encodeResponse (.success synthesized) {maxResponseFrameSize := maximum} with
    | error e =>
      rw [hencode] at hensure
      cases hensure
    | ok frame =>
      have hvalid : ProtocolLimits.validate {maxResponseFrameSize := maximum} = .ok () := by
        obtain ⟨_, hvalid, -⟩ := except_bind_eq_ok.mp hencode
        exact hvalid
      exact ((sized_response hvalid).admits hencode).1.frame

/-- A request that reads documents. -/
def asRead : Request → Option BatchRequest
  | .get key => some (.get key)
  | .query pk exclusiveAfterSk limit => some (.query pk exclusiveAfterSk limit)
  | .scan exclusiveAfterKey limit => some (.scan exclusiveAfterKey limit)
  | .put _ _ => none
  | .delete _ => none
  | .transact _ => none

/-- The documents a request is answered with. -/
def documentsOf : Request → Response → List (DocumentKey × Bytes)
  | .get key, .get (.present value _) => [(key, value)]
  | _, .query rows => rows.map fun row => (row.key, row.value)
  | _, .scan rows => rows.map fun row => (row.key, row.value)
  | _, _ => []

/-- An answer of the service to a read: of the right kind, in a frame that is not too long, with no more rows than
were asked for. -/
structure Served (maximum : Nat) (request : Request) (response : Response) : Prop where
  fits : headerSize + (2 + response.size) ≤ maximum
  kind : responseOpcode response = requestOpcode request
  rows : match request, response with
    | .query _ _ limit, .query rows => rows.length ≤ limit
    | .scan _ limit, .scan rows => rows.length ≤ limit
    | _, _ => True

theorem executeRequest_served {request : Request}
    (hread : (asRead request).isSome) {maximum : Nat} (hmaximum : maximum ≤ usizeMax) {m m' : Machine String Host}
    {response : Response} (h : Service.executeRequest config tenant request maximum m = .ok response m') :
    Served maximum request response := by
  cases request with
  | put | delete | transact => cases hread
  | get key =>
    cases read_answers (show isRead (.get key) from True.intro) hmaximum h with
    | inr hsynthesized =>
      obtain ⟨rfl, hfits⟩ := hsynthesized
      exact ⟨hfits, rfl, True.intro⟩
    | inl hanswered =>
      obtain ⟨answered, hanswers, hok⟩ := hanswered
      cases answered with
      | get state =>
        cases hok
        exact ⟨hanswers.fits, rfl, True.intro⟩
      | _ => exact hanswers.kind.elim
  | query pk after limit =>
    cases read_answers (show isRead (.query pk after limit) from True.intro) hmaximum h with
    | inr hsynthesized =>
      obtain ⟨rfl, hfits⟩ := hsynthesized
      exact ⟨hfits, rfl, Nat.zero_le _⟩
    | inl hanswered =>
      obtain ⟨answered, hanswers, hok⟩ := hanswered
      cases answered with
      | query rows =>
        cases hok
        exact ⟨hanswers.fits, rfl, hanswers.kind⟩
      | _ => exact hanswers.kind.elim
  | scan after limit =>
    cases read_answers (show isRead (.scan after limit) from True.intro) hmaximum h with
    | inr hsynthesized =>
      obtain ⟨rfl, hfits⟩ := hsynthesized
      exact ⟨hfits, rfl, Nat.zero_le _⟩
    | inl hanswered =>
      obtain ⟨answered, hanswers, hok⟩ := hanswered
      cases answered with
      | scan rows =>
        cases hok
        exact ⟨hanswers.fits, rfl, hanswers.kind⟩
      | _ => exact hanswers.kind.elim

/-! ### Replies that arrive -/

/-- A document that some request wrote which the limits let in. -/
def Written (limits : ProtocolLimits) (document : DocumentKey × Bytes) : Prop :=
  ∃ header payload tenant request, decodeRequestParts header payload limits = .ok (tenant, request) ∧
    document ∈ request.puts

/-- The frame of a response can be made, and a client that waits for the answer to `request` reads the response. -/
def ReplyArrives (limits : ProtocolLimits) (request : Request) (response : Response) : Prop :=
  ∃ frame, encodeResponse (.success response) limits = .ok frame ∧
    decodeResponseFrame frame none limits = .ok (.success response) ∧
    decodeResponseFrame frame (some (requestOpcode request)) limits = .ok (.success response)

omit [Crc32c] in
theorem Written.within (hlimits : limits.validate = .ok ()) {document : DocumentKey × Bytes}
    (h : Written limits document) : KeyWithin limits document.1 ∧ ValueWithin limits document.2 := by
  obtain ⟨header, payload, tenant, request, hdecode, hput⟩ := h
  exact (within_of_decodeRequestParts hlimits hdecode).puts hput

omit [Crc32c] in
theorem documentSize_pos (row : Document) : 1 ≤ documentSize row := by
  unfold documentSize
  omega

omit [Crc32c] in
theorem length_le_sum (rows : List Document) : rows.length ≤ (rows.map documentSize).sum := by
  induction rows with
  | nil => exact Nat.le_refl _
  | cons row rest ih =>
    have := documentSize_pos row
    rw [List.length_cons, List.map_cons, List.sum_cons]
    omega

omit [Crc32c] in
theorem documentsWithin (hlimits : limits.validate = .ok ()) {rows : List Document}
    (hwritten : ∀ document ∈ rows.map fun row => (row.key, row.value), Written limits document)
    (hcount : rows.length ≤ limits.maxScanLimit) (hsize : 2 + (4 + (rows.map documentSize).sum) ≤ u32Max) :
    DocumentsWithin limits rows := by
  refine ⟨hcount, ?_, fun row hrow => ?_⟩
  · have := length_le_sum rows
    omega
  · obtain ⟨hkey, hvalue⟩ := (hwritten _ (List.mem_map.mpr ⟨row, hrow, rfl⟩)).within hlimits
    exact ⟨hkey, hvalue⟩

/-- A tenant's shard after a transaction that put two documents: they are in the root, which is cached. -/
def sampleShard : Shard where
  store :=
    { wal := none
      currentSuperblock := .new 2 (databaseUuid 7 7) 7 7 0
      activeSlot := .B
      rootPageId := 2
      freeListHead := none
      highWaterPageId := 2
      nextRevision := 4
      nextLsn := 4
      nextBatchId := 2
      cache := (PageCache.new 128).insertMany sampleView.pages
      config := ⟨databaseUuid 7 7, 7, 7, 0, 128, {}⟩
      dirtyPages := .empty
      dirtySuperblock := none
      trackPublishedPages := true
      publishedPageUpdates := .empty
      broken := none }
  readView := ⟨some sampleView, none⟩

def sampleConfig : LocalTenantServiceConfig := {databaseConfig := sampleShard.store.config}

def sampleMachine : Machine String Host where
  files := fun _ => {}
  memory := ⟨SortedMap.empty.insert (Service.paths sampleConfig 7 .data) (), SortedMap.empty.insert 7 sampleShard⟩
  schedule := []

/-- Queries may ask for two rows, and scans for one. -/
def unevenLimits : ProtocolLimits := {maxQueryLimit := 2, maxScanLimit := 1}

def sampleQuery : Bytes := u64 7 ++ [4, 0, 0, 0, 1, 1, 0, 0, 0, 0, 2]

def sampleTransaction : Bytes := u64 7 ++ [8, 0, 0, 0, 0, 0, 0, 0, 2,
  0, 0, 0, 0, 1, 1, 0, 0, 0, 1, 1, 0, 0, 0, 1, 7, 0, 0, 0, 0, 1, 1, 0, 0, 0, 1, 2, 0, 0, 0, 1, 8]

omit [Crc32c] in
theorem sampleRows_written (hdecode : decodeRequestParts ⟨1, 1, 49⟩ sampleTransaction limits =
      .ok (7, .transact ⟨[], [.put ⟨[1], [1]⟩ [7], .put ⟨[1], [2]⟩ [8]]⟩)) :
    ∀ document ∈ documentsOf (.query [1] none 2) (.query sampleRows), Written limits document :=
  fun _ hmem => ⟨_, _, _, _, hdecode, hmem⟩

theorem readShard_sample : Service.readShard sampleConfig 7 sampleMachine = .ok (some sampleShard) sampleMachine := by
  have hexists : (sampleMachine.memory.existing.get? (Service.paths sampleConfig 7 .data)).isNone = false := by
    show ((SortedMap.empty.insert _ ()).get? _).isNone = false
    rw [SortedMap.get?_insert, if_pos rfl]
    rfl
  unfold Service.readShard
  rw [Io.bind_apply]
  show (if _ ∧ _ then pure none else _ : Service.Op (Option Shard)) sampleMachine = _
  rw [if_neg fun h => Bool.false_ne_true (hexists.symm.trans h.1)]
  rfl

theorem executeRequest_sample : ∃ m', Service.executeRequest sampleConfig 7 (.query [1] none 2)
    unevenLimits.maxResponseFrameSize sampleMachine = .ok (.query sampleRows) m' := by
  unfold Service.executeRequest Service.read
  dsimp only
  rw [Io.bind_apply, readShard_sample]
  exact ⟨_, rfl⟩

/-- What the service answers to a read that the limits let in, with documents that they let in, reaches the client
unless it is a query with more rows than a scan may have, or the payload is longer than a frame can say. -/
theorem reply_arrives_iff {limits : ProtocolLimits} (hlimits : limits.validate = .ok ())
    (husize : limits.maxResponseFrameSize ≤ usizeMax) {config : LocalTenantServiceConfig} {header : FrameHeader}
    {payload : Bytes} {tenant : TenantId} {request : Request}
    (hdecode : decodeRequestParts header payload limits = .ok (tenant, request)) (hread : (asRead request).isSome)
    {m m' : Machine String Host} {response : Response}
    (hserve : Service.executeRequest config tenant request limits.maxResponseFrameSize m = .ok response m')
    (hfits : response.Fits) (hwritten : ∀ document ∈ documentsOf request response, Written limits document) :
    ReplyArrives limits request response ↔
      (∀ rows, response = .query rows → rows.length ≤ limits.maxScanLimit) ∧ 2 + response.size ≤ u32Max := by
  have hserved := executeRequest_served hread husize hserve
  have hadmitted := within_of_decodeRequestParts hlimits hdecode
  constructor
  · intro harrives
    obtain ⟨frame, hencode, -⟩ := harrives
    obtain ⟨⟨hwithin, -, hu32⟩, -⟩ := (sized_response hlimits).admits hencode
    refine ⟨fun rows hrows => ?_, hu32⟩
    rw [hrows] at hwithin
    exact DocumentsWithin.count hwithin
  · intro hcondition
    obtain ⟨hrows, hsize⟩ := hcondition
    have hwithin : response.Within limits := by
      cases request with
      | put | delete | transact => cases hread
      | get key =>
        cases response with
        | get state =>
          cases state with
          | missing revision => exact True.intro
          | present value revision => exact ((hwritten _ List.mem_cons_self).within hlimits).2
        | _ => cases hserved.kind
      | query pk after limit =>
        cases response with
        | query rows => exact documentsWithin hlimits hwritten (hrows rows rfl) hsize
        | _ => cases hserved.kind
      | scan after limit =>
        cases response with
        | scan rows => exact documentsWithin hlimits hwritten (hserved.rows.trans hadmitted.2) hsize
        | _ => cases hserved.kind
    obtain ⟨frame, hencode⟩ := (sized_response hlimits).accepts (a := .success response) ⟨hwithin, hserved.fits, hsize⟩
    refine ⟨frame, hencode, ?_, ?_⟩
    · exact (decodeResponseFrame_eq_ok hlimits).mpr ⟨⟨hfits, nofun⟩, hencode⟩
    · refine (decodeResponseFrame_eq_ok hlimits).mpr ⟨⟨hfits, ?_⟩, hencode⟩
      intro opcode hopcode
      cases hopcode
      exact hserved.kind

omit [Crc32c] in
/-- With the default limits the two rows arrive. -/
theorem reply_arrives_sample :
    (∃ m', @Service.executeRequest sampleConfig castagnoli 7 (.query [1] none 2)
      (ProtocolLimits.maxResponseFrameSize {}) sampleMachine = .ok (.query sampleRows) m') ∧
    ReplyArrives {} (.query [1] none 2) (.query sampleRows) := by
  have hdecode : decodeRequestParts ⟨1, 1, 19⟩ sampleQuery {} = .ok (7, .query [1] none 2) := by decide
  obtain ⟨m', hserve⟩ := @executeRequest_sample castagnoli
  have hfits : (Response.query sampleRows).Fits := by
    show ∀ row ∈ sampleRows, row.revision ≤ u64Max
    decide
  refine ⟨⟨m', hserve⟩, ?_⟩
  refine (@reply_arrives_iff castagnoli {} validate_default (by decide) sampleConfig _ _ _ _ hdecode rfl _ _ _ hserve
    hfits (sampleRows_written (by decide))).mpr ⟨?_, by decide⟩
  intro rows hrows
  cases hrows
  decide

omit [Crc32c] in
/-- The query is admitted and answered with two rows, which the encoder refuses. -/
theorem query_answer_not_sent : unevenLimits.validate = .ok () ∧
    decodeRequestParts ⟨1, 1, 19⟩ sampleQuery unevenLimits = .ok (7, .query [1] none 2) ∧
    (∀ document ∈ documentsOf (.query [1] none 2) (.query sampleRows), Written unevenLimits document) ∧
    (∃ m', @Service.executeRequest sampleConfig castagnoli 7 (.query [1] none 2) unevenLimits.maxResponseFrameSize
      sampleMachine = .ok (.query sampleRows) m') ∧
    encodeResponse (.success (.query sampleRows)) unevenLimits = .error (.payloadTooLarge 2 1) :=
  ⟨by decide, by decide, sampleRows_written (by decide), @executeRequest_sample castagnoli, by decide⟩

end Service

end Dodb.Server
