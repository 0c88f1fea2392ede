import GivenClause.Clause.Store
import GivenClause.Order.Settings
import GivenClause.Priority.Profile

/-! # Configuration of a search -/

namespace GivenClause

/-- When stale queue entries are dropped. -/
inductive CleanPolicy where
  /-- Only on request. -/
  | manual
  /-- Each time another `interval` clauses were given; never when that is zero. -/
  | periodic (interval : Nat)
deriving DecidableEq, Repr

/-- Whether the policy asks for cleaning once `given` clauses were given. -/
def CleanPolicy.isDue (given : Nat) : CleanPolicy → Bool
  | .manual => false
  | .periodic interval => 0 < interval && given % interval == 0

/-- Everything needed to set up a search. -/
structure SearchConfig where
  /-- Preset queues, used when `queues` is not given. -/
  profile : Profile := .standard
  /-- Queues that override the profile. -/
  queues : Option (List QueueSpec) := none
  /-- The selection strategy. -/
  selection : Selection := .none
  /-- When stale queue entries are dropped. -/
  cleaning : CleanPolicy := .periodic 1024
  /-- Symbol weights and precedences. -/
  ordering : KboSettings := {}
deriving DecidableEq, Repr

namespace SearchConfig

/-- The queues that the configuration asks for. -/
def specs (config : SearchConfig) : List QueueSpec :=
  config.queues.getD config.profile.specs

/-- The queues with their coefficients. -/
def buildQueues (config : SearchConfig) : Except ConfigError (List (ClauseQueue × Nat)) :=
  GivenClause.buildQueues config.specs

/-- A new clause store. Settings reach only symbols that are named already. -/
def buildStore (config : SearchConfig) (symbols : Symbols) : ClauseStore :=
  ClauseStore.new (Kbo.ofSettings symbols config.ordering) (.preset config.selection)

end SearchConfig

end GivenClause
