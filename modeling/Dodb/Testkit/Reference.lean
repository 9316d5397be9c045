import Dodb.Core.Transaction

/-! The reference model the store is tested against: an ordered map from document
keys to their states, tombstones included. -/
namespace Dodb
open Lib

/-- `nextTxnId` numbers the reference's own transactions only and is left out. -/
structure ReferenceDb where
  states : SortedMap DocumentKey RevisionState
  nextLsn : Lsn

namespace ReferenceDb

def new : ReferenceDb := ⟨.empty, 1⟩

/-- A key that was never written is missing since revision 0. -/
def get (db : ReferenceDb) (key : DocumentKey) : RevisionState :=
  (db.states.get? key).getD (.missing 0)

/-- The first condition that does not hold, as the conflict it is reported as. -/
def checkConditions (db : ReferenceDb) : List TransactionCondition → Result Unit
  | [] => .ok ()
  | condition :: rest =>
    let actual := (db.get condition.key).observed
    if condition.satisfied actual then db.checkConditions rest
    else .error (.conflict ⟨condition.key, condition.expectation, actual⟩)

def mutate (states : SortedMap DocumentKey RevisionState) (revision : Revision) :
    TransactionMutation → SortedMap DocumentKey RevisionState
  | .put key value => states.insert key (.present value revision)
  | .delete key => states.insert key (.missing revision)

/-- The conditions are checked on the map as it is; then all mutations are done, with one revision. -/
def transactAt (db : ReferenceDb) (request : TransactionRequest) (commitLsn : Lsn) :
    Result (Lsn × ReferenceDb) := do
  if commitLsn = 0 then throw (.invalidRequest "a committed transaction LSN must be non-zero")
  request.validate
  db.checkConditions request.conditions
  let states := request.mutations.foldl (mutate · commitLsn) db.states
  let nextLsn ← addOr (.internalInvariantViolation "synthetic LSN exhausted") commitLsn 1
  pure (commitLsn, ⟨states, max nextLsn db.nextLsn⟩)

/-- A present document as a row. -/
def row (key : DocumentKey) : RevisionState → Option Document
  | .present value revision => some ⟨key, value, revision⟩
  | .missing _ => none

/-- The documents of one primary key, from behind the cursor on. -/
def query (db : ReferenceDb) (pk : PrimaryKey) (exclusiveAfterSk : Option SortKey) (limit : Nat) :
    List Document :=
  (db.states.entries.filterMap fun (key, state) =>
    if key.pk ≠ pk ∨ exclusiveAfterSk.any (fun cursor => decide (key.sk ≤ cursor)) then none
    else row key state).take limit

/-- All documents in order, from behind the cursor on. -/
def scan (db : ReferenceDb) (exclusiveAfterKey : Option DocumentKey) (limit : Nat) : List Document :=
  (db.states.entries.filterMap fun (key, state) =>
    if exclusiveAfterKey.any (fun cursor => decide (key ≤ cursor)) then none
    else row key state).take limit

end ReferenceDb

end Dodb
