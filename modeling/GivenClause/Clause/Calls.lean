import GivenClause.Clause.Eligibility

/-! # Calls to a clause store

Whoever works on a clause store changes it by calls: a clause is made, instantiated or made again, or the
ordering or the selector is exchanged. -/

namespace GivenClause

/-- A call that may change a clause store. -/
inductive StoreCall where
  /-- Makes or finds a clause. -/
  | create (input : ClauseInput)
  /-- Makes the instance of a clause. -/
  | applySubstitution (id : ClauseId) (σ : Substitution) (scope : Nat)
  /-- Makes a clause of an earlier epoch again. -/
  | rederive (id : ClauseId)
  /-- Exchanges the ordering. -/
  | setOrdering (ordering : TermOrder)
  /-- Exchanges the selector. -/
  | setSelector (selector : Selector)

namespace ClauseStore

/-- Performs a call: the store it leaves, and the fault if it stops with one. -/
def perform (store : ClauseStore) : StoreCall → ClauseStore × Except Fault Unit
  | .create input =>
    let (store, result) := store.create input
    (store, result.map fun _ => ())
  | .applySubstitution id σ scope =>
    let (store, result) := store.applySubstitution id σ scope
    (store, result.map fun _ => ())
  | .rederive id =>
    let (store, result) := store.rederive id
    (store, result.map fun _ => ())
  | .setOrdering ordering => store.setOrdering ordering
  | .setSelector selector => store.setSelector selector

/-- Performs calls one after the other, up to the first that stops with a fault. -/
def performUntilFault (store : ClauseStore) : List StoreCall → ClauseStore × Except Fault Unit
  | [] => (store, .ok ())
  | call :: calls =>
    match store.perform call with
    | (store, .error fault) => (store, .error fault)
    | (store, .ok ()) => store.performUntilFault calls

end ClauseStore

end GivenClause
