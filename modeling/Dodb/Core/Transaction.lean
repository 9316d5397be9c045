import Dodb.Core.Key
import Dodb.Lib.SortedMap
import Dodb.Lib.Io

/-! What a document is seen as, transactions on documents, and errors.

Identifiers (`PageId`, `Lsn`, `Revision`) are 64-bit numbers of the source; here
they are natural numbers, and every place where the source adds to one says what
it does when the sum does not fit (`checkedAdd`). -/
namespace Dodb
open Lib

abbrev PageId := Nat
abbrev Lsn := Nat
abbrev Revision := Nat
abbrev TenantId := UInt64

def u64Max : Nat := 2 ^ 64 - 1
def u32Max : Nat := 2 ^ 32 - 1

theorem lt_of_le_u64Max {n : Nat} (h : n ≤ u64Max) : n < 256 ^ 8 := lt_of_le_of_lt h (by decide)

/-- Addition of 64-bit numbers that reports overflow. -/
def checkedAdd (a b : Nat) : Option Nat := if a + b ≤ u64Max then some (a + b) else none

/-- Multiplication of 64-bit numbers that reports overflow. -/
def checkedMul (a b : Nat) : Option Nat := if a * b ≤ u64Max then some (a * b) else none

/-- Addition of 64-bit numbers that stops at the largest. -/
def saturatingAdd (a b : Nat) : Nat := min (a + b) u64Max

/-! ### Revisions -/

/-- What a key holds: a value, or nothing since some revision. -/
inductive RevisionState where
  | present (value : Bytes) (revision : Revision)
  | missing (revision : Revision)
  deriving DecidableEq, Repr

/-- A `RevisionState` without its value. -/
inductive ObservedState where
  | present (revision : Revision)
  | missing (revision : Revision)
  deriving DecidableEq, Repr

namespace ObservedState

def revision : ObservedState → Revision
  | present revision => revision
  | missing revision => revision

def isMissing : ObservedState → Bool
  | present _ => false
  | missing _ => true

end ObservedState

namespace RevisionState

def revision : RevisionState → Revision
  | present _ revision => revision
  | missing revision => revision

def isMissing : RevisionState → Bool
  | present _ _ => false
  | missing _ => true

/-- The bytes of the value, if there is one. -/
def valueLength : RevisionState → Nat
  | present value _ => value.length
  | missing _ => 0

/-- The revision and presence of a state, without its value. -/
def observed : RevisionState → ObservedState
  | present _ revision => .present revision
  | missing revision => .missing revision

@[simp] theorem revision_observed (s : RevisionState) : s.observed.revision = s.revision := by
  cases s <;> rfl

@[simp] theorem isMissing_observed (s : RevisionState) : s.observed.isMissing = s.isMissing := by
  cases s <;> rfl

end RevisionState

/-- A present document, as a row of a query or scan. -/
structure Document where
  key : DocumentKey
  value : Bytes
  revision : Revision
  deriving DecidableEq, Repr

/-! ### Transactions -/

/-- What a transaction requires of a key. -/
inductive TransactionCondition where
  | revisionEquals (key : DocumentKey) (expectedRevision : Revision)
  | exists (key : DocumentKey)
  | notExists (key : DocumentKey)
  deriving DecidableEq, Repr

/-- A condition without its key. -/
inductive ConditionExpectation where
  | revisionEquals (revision : Revision)
  | exists
  | notExists
  deriving DecidableEq, Repr

namespace TransactionCondition

def key : TransactionCondition → DocumentKey
  | revisionEquals key _ => key
  | .exists key => key
  | notExists key => key

def expectation : TransactionCondition → ConditionExpectation
  | revisionEquals _ expectedRevision => .revisionEquals expectedRevision
  | .exists _ => .exists
  | notExists _ => .notExists

/-- Both the store and the reference decide a condition this way, on what they observe. -/
def satisfied (c : TransactionCondition) (actual : ObservedState) : Bool :=
  match c with
  | revisionEquals _ expectedRevision => actual.revision == expectedRevision
  | .exists _ => !actual.isMissing
  | notExists _ => actual.isMissing

end TransactionCondition

/-- What a transaction does to a key. -/
inductive TransactionMutation where
  | put (key : DocumentKey) (value : Bytes)
  | delete (key : DocumentKey)
  deriving DecidableEq, Repr

namespace TransactionMutation

def key : TransactionMutation → DocumentKey
  | put key _ => key
  | delete key => key

end TransactionMutation

/-- Mutations that are applied together if all conditions hold. -/
structure TransactionRequest where
  conditions : List TransactionCondition
  mutations : List TransactionMutation
  deriving DecidableEq, Repr

/-- The revision that the transaction gave all its keys. -/
structure TransactionResult where
  commitLsn : Option Lsn
  deriving DecidableEq, Repr

/-- The condition that did not hold, and what was found instead. -/
structure TransactionConflict where
  key : DocumentKey
  expected : ConditionExpectation
  actual : ObservedState
  deriving DecidableEq, Repr

/-! ### Errors -/

/-- The errors of the storage engine. -/
inductive Error where
  | invalidInput (message : String)
  | invalidRequest (message : String)
  | overloaded (message : String)
  | responseTooLarge (message : String)
  | conflict (conflict : TransactionConflict)
  | corruption (message : String)
  | io (message : String)
  | unsupportedFormat (message : String)
  | durabilityFailure (message : String)
  | recoveryFailure (message : String)
  | checkpointFailure (message : String)
  | internalInvariantViolation (message : String)
  deriving DecidableEq, Repr

/-- The text the source derives for a list of bytes. -/
def debugBytes (bs : Bytes) : String :=
  "[" ++ ", ".intercalate (bs.map fun b => toString b.toNat) ++ "]"

namespace TransactionConflict

def displayKey (k : DocumentKey) : String :=
  s!"DocumentKey \x7b pk: PrimaryKey({debugBytes k.pk}), sk: SortKey({debugBytes k.sk}) \x7d"

def displayExpected : ConditionExpectation → String
  | .revisionEquals revision => s!"RevisionEquals(Revision({revision}))"
  | .exists => "Exists"
  | .notExists => "NotExists"

def displayActual : ObservedState → String
  | .present revision => s!"Present \x7b revision: Revision({revision}) \x7d"
  | .missing revision => s!"Missing \x7b revision: Revision({revision}) \x7d"

def display (c : TransactionConflict) : String :=
  "key " ++ displayKey c.key ++ ": expected " ++ displayExpected c.expected ++ ", actual " ++
    displayActual c.actual

end TransactionConflict

namespace Error

def display : Error → String
  | invalidInput message => s!"invalid input: {message}"
  | invalidRequest message => s!"invalid request: {message}"
  | overloaded message => s!"overloaded: {message}"
  | responseTooLarge message => s!"response too large: {message}"
  | conflict c => "conflict: " ++ c.display
  | corruption message => s!"corruption: {message}"
  | io message => s!"I/O error: {message}"
  | unsupportedFormat message => s!"unsupported format: {message}"
  | durabilityFailure message => s!"durability failure: {message}"
  | recoveryFailure message => s!"recovery failure: {message}"
  | checkpointFailure message => s!"checkpoint failure: {message}"
  | internalInvariantViolation message => s!"internal invariant violation: {message}"

end Error

abbrev Result (α : Type) := Except Error α

/-- A checked sum, or `error`. -/
def addOr (error : Error) (a b : Nat) : Result Nat :=
  match checkedAdd a b with
  | some sum => .ok sum
  | none => .error error

/-- A checked product, or `error`. -/
def mulOr (error : Error) (a b : Nat) : Result Nat :=
  match checkedMul a b with
  | some product => .ok product
  | none => .error error

theorem addOr_of_le {a b : Nat} (error : Error) (h : a + b ≤ u64Max) : addOr error a b = .ok (a + b) := by
  simp [addOr, checkedAdd, h]

theorem addOr_of_lt {a b : Nat} (error : Error) (h : u64Max < a + b) : addOr error a b = .error error := by
  simp [addOr, checkedAdd, h.not_ge]

theorem addOr_eq_ok {error : Error} {a b c : Nat} (h : addOr error a b = .ok c) : c = a + b ∧ a + b ≤ u64Max := by
  unfold addOr checkedAdd at h
  by_cases hle : a + b ≤ u64Max
  · simp only [hle, if_true, Except.ok.injEq] at h
    exact ⟨h.symm, hle⟩
  · simp [hle] at h

theorem mulOr_of_le {a b : Nat} (error : Error) (h : a * b ≤ u64Max) : mulOr error a b = .ok (a * b) := by
  simp [mulOr, checkedMul, h]

theorem mulOr_eq_ok {error : Error} {a b c : Nat} (h : mulOr error a b = .ok c) : c = a * b ∧ a * b ≤ u64Max := by
  unfold mulOr checkedMul at h
  by_cases hle : a * b ≤ u64Max
  · simp only [hle, if_true, Except.ok.injEq] at h
    exact ⟨h.symm, hle⟩
  · simp [hle] at h

/-- No key twice, in the order given. -/
def hasDuplicate : List DocumentKey → Bool
  | [] => false
  | k :: rest => rest.contains k || hasDuplicate rest

/-- A transaction says something, and of no key twice. -/
def TransactionRequest.validate (r : TransactionRequest) : Result Unit :=
  if r.conditions.isEmpty ∧ r.mutations.isEmpty then
    .error (.invalidRequest "a transaction must contain at least one condition or mutation")
  else if hasDuplicate (r.mutations.map TransactionMutation.key) then
    .error (.invalidRequest "a transaction contains multiple mutations for one key")
  else if hasDuplicate (r.conditions.map TransactionCondition.key) then
    .error (.invalidRequest "a transaction contains multiple conditions for one key")
  else .ok ()

end Dodb
