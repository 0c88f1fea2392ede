import GivenClause.Clause.Calls
import GivenClause.Retrieval.UnitRewrite
import GivenClause.Search.Active
import GivenClause.Search.Config
import GivenClause.Search.Passive

/-! # The state of a search

A given-clause loop works on four parts: the clause store, the passive clauses that wait, the active
clauses that were given, and the unit equations that simplify.

* `ProofState.nextGiven` picks a clause; `ProofState.activate` indexes it;
* `ProofState.retract` takes clauses out everywhere;
* `ProofState.verdict` says what an exhausted passive set means. -/

namespace GivenClause

/-- What it means that no clause is left to give. -/
inductive Verdict where
  /-- The clauses are satisfiable, provided the inferences were complete. -/
  | satisfiable
  /-- Some clause was dropped, so nothing follows. -/
  | unknown
deriving DecidableEq, Repr

/-- The name of a verdict. -/
def Verdict.name : Verdict → String
  | .satisfiable => "satisfiable"
  | .unknown => "unknown"

/-- Counters of a search. -/
structure SearchStats where
  /-- Counters of the clause store. -/
  clauses : StoreStats := {}
  /-- Counters of the active set. -/
  active : ActiveStats := {}
  /-- Counters of the passive set. -/
  passive : PassiveStats := {}
  /-- Unit equations that simplify. -/
  rules : Nat := 0
  /-- Clauses given. -/
  given : Nat := 0
  /-- Whether a clause was dropped for being too long. -/
  incomplete : Bool := false
deriving DecidableEq, Repr

/-- The state of a search. -/
structure ProofState where
  /-- All clauses. -/
  store : ClauseStore
  /-- The clauses that were given. -/
  active : ActiveSet := {}
  /-- The clauses that wait. -/
  passive : PassiveSet
  /-- The unit equations that simplify. -/
  rules : RewriteIndex := {}
  /-- Names of the sources of initial clauses. -/
  experts : List String := []
  /-- When stale queue entries are dropped. -/
  cleaning : CleanPolicy
  /-- Number of clauses given. -/
  given : Nat := 0

/-- A source of initial clauses, by what it does when it is asked for them. -/
structure Expert where
  /-- Its name. -/
  name : String
  /-- The calls that it makes to the store, one after the other. -/
  calls : List StoreCall
  /-- The clauses that it hands over, made by these calls or found in the store. -/
  ids : List ClauseId

namespace ProofState

/-- The initial state for a configuration. -/
def new (config : SearchConfig) (symbols : Symbols) : Except ConfigError ProofState := do
  let queues ← config.buildQueues
  let passive ← PassiveSet.new queues
  .ok { store := config.buildStore symbols, passive, cleaning := config.cleaning }

/-- Asks an expert for its initial clauses, lets them wait, and remembers the expert. -/
def addExpert (state : ProofState) (expert : Expert) : Except Fault (ProofState × List ClauseId) := do
  let (store, asked) := state.store.performUntilFault expert.calls
  let _ ← asked
  let (passive, added) := state.passive.add store expert.ids
  let _ ← added
  .ok ({ state with store, passive, experts := state.experts ++ [expert.name] }, expert.ids)

/-- Gives the next clause, and cleans the queues when the policy says so. -/
def nextGiven (state : ProofState) : ProofState × Option ClauseId :=
  match state.passive.next with
  | (passive, none) => ({ state with passive }, none)
  | (passive, some id) =>
    let given := state.given + 1
    let passive := if state.cleaning.isDue given then passive.clean.1 else passive
    ({ state with passive, given }, some id)

/-- Makes clauses active and lets those that can simplify. -/
def activate (state : ProofState) (ids : List ClauseId) : Except Fault ProofState := do
  let (active, _) ← state.active.add state.store ids
  let (rules, _) ← state.rules.insertAll state.store ids
  .ok { state with active, rules }

/-- Takes clauses out of the active set, the rules and the passive set. -/
def retract (state : ProofState) (ids : List ClauseId) : Except Fault ProofState := do
  let (active, _) ← state.active.remove ids
  let (rules, _) ← state.rules.eraseAll ids
  let passive := ids.foldl (fun passive id => (passive.remove id).1) state.passive
  .ok { state with active, rules, passive }

/-- What it means that no clause is left to give. -/
def verdict (state : ProofState) : Verdict :=
  if state.store.incomplete then .unknown else .satisfiable

/-- The counters. -/
def stats (state : ProofState) : SearchStats where
  clauses := state.store.stats
  active := state.active.stats
  passive := state.passive.stats
  rules := state.rules.size
  given := state.given
  incomplete := state.store.incomplete

end ProofState

end GivenClause
