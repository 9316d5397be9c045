import Dodb.Protocol.Sizes
import Dodb.Btree.Tree

/-! What a server lets through to its store.

The wire format and the store each have limits of their own on keys and values, and measure keys differently: the
one by the length the encoding would have, the other by the encoding. -/
namespace Dodb.Protocol
open Lib

/-! ### Requests that decode -/

/-- A mutation that a transaction may have within the limits. -/
def MutationWithin (limits : ProtocolLimits) : TransactionMutation → Prop
  | .put key value => KeyWithin limits key ∧ ValueWithin limits value
  | .delete key => KeyWithin limits key

/-- A request the limits allow. The cursor of a query and its primary key are measured as one key. -/
def Request.Within (limits : ProtocolLimits) : Request → Prop
  | .get key => KeyWithin limits key
  | .put key value => KeyWithin limits key ∧ ValueWithin limits value
  | .delete key => KeyWithin limits key
  | .query pk exclusiveAfterSk limit =>
    KeyWithin limits ⟨pk, exclusiveAfterSk.getD []⟩ ∧ limit ≤ limits.maxQueryLimit
  | .scan exclusiveAfterKey limit => (∀ key ∈ exclusiveAfterKey, KeyWithin limits key) ∧ limit ≤ limits.maxScanLimit
  | .transact request => (∀ condition ∈ request.conditions, KeyWithin limits condition.key) ∧
      ∀ mutation ∈ request.mutations, MutationWithin limits mutation

section Decoded
variable {limits : ProtocolLimits} (hlimits : limits.validate = .ok ())
include hlimits

theorem within_of_encodeCondition {condition : TransactionCondition} {bs : Bytes}
    (h : encodeCondition limits condition = .ok bs) : KeyWithin limits condition.key := by
  cases condition <;> simp only [encodeCondition, except_bind_eq_ok, except_pure_eq_ok] at h <;>
    obtain ⟨bytes, hkey, -⟩ := h <;> exact ((sized_key hlimits).admits hkey).1

theorem within_of_encodeMutation {mutation : TransactionMutation} {bs : Bytes}
    (h : encodeMutation limits mutation = .ok bs) : MutationWithin limits mutation := by
  cases mutation with
  | put key value =>
    simp only [encodeMutation, except_bind_eq_ok, except_pure_eq_ok] at h
    obtain ⟨bytes, hkey, valueBytes, hvalue, -⟩ := h
    exact ⟨((sized_key hlimits).admits hkey).1, ((sized_value hlimits).admits hvalue).1⟩
  | delete key =>
    simp only [encodeMutation, except_bind_eq_ok, except_pure_eq_ok] at h
    obtain ⟨bytes, hkey, -⟩ := h
    exact ((sized_key hlimits).admits hkey).1

omit hlimits in
theorem exists_of_encodeList {α : Type} {encode : α → Wire Bytes} {maximum : Nat} {l : List α} {bs : Bytes}
    (h : encodeList encode maximum l = .ok bs) : ∀ a ∈ l, ∃ cs, encode a = .ok cs := by
  simp only [encodeList, except_bind_eq_ok, except_pure_eq_ok] at h
  obtain ⟨count, -, elements, helements, -⟩ := h
  exact exists_of_writeMany helements

theorem within_of_encodeRequestBody {request : Request} {body : Bytes}
    (h : encodeRequestBody limits request = .ok body) : request.Within limits := by
  cases request with
  | put key value =>
    simp only [encodeRequestBody, except_bind_eq_ok, except_pure_eq_ok] at h
    obtain ⟨keyBytes, hkey, valueBytes, hvalue, -⟩ := h
    exact ⟨((sized_key hlimits).admits hkey).1, ((sized_value hlimits).admits hvalue).1⟩
  | get | delete => exact ((sized_key hlimits).admits h).1
  | query pk exclusiveAfterSk limit =>
    simp only [encodeRequestBody, except_bind_eq_ok, except_pure_eq_ok] at h
    obtain ⟨_, hvalid, pkBytes, hpk, skBytes, hsk, limitBytes, hlimit, -⟩ := h
    refine ⟨⟨ensure_eq_ok.mp hvalid, ((sized_bytes _).admits hpk).1.1, ?_⟩, ((sized_count _).admits hlimit).1.1⟩
    cases exclusiveAfterSk with
    | none => exact Nat.zero_le _
    | some sk => exact (((sized_optional (sized_bytes _)).admits hsk).1 sk rfl).1
  | scan exclusiveAfterKey limit =>
    simp only [encodeRequestBody, except_bind_eq_ok, except_pure_eq_ok] at h
    obtain ⟨keyBytes, hkey, limitBytes, hlimit, -⟩ := h
    exact ⟨((sized_optional (sized_key hlimits)).admits hkey).1, ((sized_count _).admits hlimit).1.1⟩
  | transact request =>
    simp only [encodeRequestBody, except_bind_eq_ok, except_pure_eq_ok] at h
    obtain ⟨conditions, hconditions, mutations, hmutations, -⟩ := h
    refine ⟨fun condition hmem => ?_, fun mutation hmem => ?_⟩
    · obtain ⟨cs, hcs⟩ := exists_of_encodeList hconditions condition hmem
      exact within_of_encodeCondition hlimits hcs
    · obtain ⟨cs, hcs⟩ := exists_of_encodeList hmutations mutation hmem
      exact within_of_encodeMutation hlimits hcs

theorem within_of_decodeRequestParts {header : FrameHeader} {payload : Bytes} {tenant : TenantId} {request : Request}
    (h : decodeRequestParts header payload limits = .ok (tenant, request)) : request.Within limits := by
  simp only [decodeRequestParts, except_bind_eq_ok, ensure_eq_ok] at h
  obtain ⟨_, -, _, -, _, -, hread⟩ := h
  obtain ⟨-, hwrite⟩ := (canonical_request limits).whole.mp hread
  simp only [encodeRequestPayload, except_bind_eq_ok, except_pure_eq_ok] at hwrite
  obtain ⟨_, ⟨body, hbody, -⟩, -⟩ := hwrite
  exact within_of_encodeRequestBody hlimits hbody

end Decoded

/-! ### Requests a store takes -/

/-- The keys a store measures when it serves a request. A query is two of them: where it starts, and its cursor. -/
def Request.measuredKeys : Request → List DocumentKey
  | .get key => [key]
  | .put key _ => [key]
  | .delete key => [key]
  | .query pk exclusiveAfterSk _ => ⟨pk, []⟩ :: (exclusiveAfterSk.map (DocumentKey.mk pk)).toList
  | .scan exclusiveAfterKey _ => exclusiveAfterKey.toList
  | .transact request => request.conditions.map TransactionCondition.key ++ request.mutations.map TransactionMutation.key

/-- The documents a request asks to be written. -/
def Request.puts : Request → List (DocumentKey × Bytes)
  | .put key value => [(key, value)]
  | .transact request => request.mutations.filterMap fun
    | .put key value => some (key, value)
    | .delete _ => none
  | _ => []

theorem encodedLen_nil_le (pk : PrimaryKey) (sk : SortKey) :
    (DocumentKey.mk pk []).encodedLen ≤ (DocumentKey.mk pk sk).encodedLen := by
  unfold DocumentKey.encodedLen encodedComponentLen
  simp only [List.length_nil, List.count_nil]
  omega

theorem Request.Within.measured {limits : ProtocolLimits} {request : Request} (h : request.Within limits)
    {key : DocumentKey} (hkey : key ∈ request.measuredKeys) : key.encodedLen ≤ limits.maxEncodedKeySize := by
  cases request with
  | put k value => exact List.mem_singleton.mp hkey ▸ KeyWithin.encoded h.1
  | get | delete => exact List.mem_singleton.mp hkey ▸ KeyWithin.encoded h
  | query pk exclusiveAfterSk limit =>
    have hmeasured := h.1.encoded
    cases List.mem_cons.mp hkey with
    | inl hstart =>
      rw [hstart]
      exact (encodedLen_nil_le pk _).trans hmeasured
    | inr hcursor =>
      cases exclusiveAfterSk with
      | none => cases hcursor
      | some sk =>
        rw [List.mem_singleton.mp hcursor]
        exact hmeasured
  | scan exclusiveAfterKey limit => exact (h.1 key (Option.mem_toList.mp hkey)).encoded
  | transact request =>
    cases List.mem_append.mp hkey with
    | inl hcondition =>
      obtain ⟨condition, hmem, rfl⟩ := List.mem_map.mp hcondition
      exact (h.1 condition hmem).encoded
    | inr hmutation =>
      obtain ⟨mutation, hmem, rfl⟩ := List.mem_map.mp hmutation
      have hwithin := h.2 mutation hmem
      cases mutation with
      | put k value => exact hwithin.1.encoded
      | delete k => exact KeyWithin.encoded hwithin

theorem Request.Within.puts {limits : ProtocolLimits} {request : Request} (h : request.Within limits)
    {key : DocumentKey} {value : Bytes} (hput : (key, value) ∈ request.puts) :
    KeyWithin limits key ∧ ValueWithin limits value := by
  cases request with
  | put k v =>
    cases List.mem_singleton.mp hput
    exact h
  | transact request =>
    obtain ⟨mutation, hmem, heq⟩ := List.mem_filterMap.mp hput
    have hwithin := h.2 mutation hmem
    cases mutation with
    | put k v =>
      cases heq
      exact hwithin
    | delete k => cases heq
  | get | delete | query | scan => cases hput

/-- A store with default limits takes every key and every value of a request that decodes, whatever limits the server
was given. -/
theorem decoded_request_fits_store {limits : ProtocolLimits} (hlimits : limits.validate = .ok ())
    {header : FrameHeader} {payload : Bytes} {tenant : TenantId} {request : Request}
    (hdecode : decodeRequestParts header payload limits = .ok (tenant, request)) :
    (∀ key ∈ request.measuredKeys, validateEncodedKey key.encode = .ok ()) ∧
      ∀ document ∈ request.puts, validateValue {} document.2 = .ok () := by
  have hwithin := within_of_decodeRequestParts hlimits hdecode
  obtain ⟨-, hencoded, hvalue⟩ := validate_le hlimits
  refine ⟨fun key hkey => ensure_pos ?_ _, fun document hput => ensure_pos ?_ _⟩
  · rw [DocumentKey.length_encode]
    exact (hwithin.measured hkey).trans hencoded
  · have hle : document.2.length ≤ maxStorageValueSize := (hwithin.puts hput).2.trans hvalue
    exact ⟨hle, hle⟩

/-- A query that starts after a cursor: both of the keys the store measures are taken. -/
theorem decoded_query_fits_store :
    validateEncodedKey (DocumentKey.encode ⟨[0, 1], []⟩) = .ok () ∧
      validateEncodedKey (DocumentKey.encode ⟨[0, 1], [0, 0]⟩) = .ok () := by
  have hdecode : decodeRequestParts ⟨1, 1, 26⟩
      (u64 7 ++ [4, 0, 0, 0, 2, 0, 1, 1, 0, 0, 0, 2, 0, 0, 0, 0, 0, 5]) {maxEncodedKeySize := 11} =
      .ok (7, .query [0, 1] (some [0, 0]) 5) := by decide
  have h := decoded_request_fits_store (by decide) hdecode
  exact ⟨h.1 _ (by decide), h.1 _ (by decide)⟩

end Dodb.Protocol
