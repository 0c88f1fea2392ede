import GivenClause.Priority.Queue

/-! # Queue profiles

A search takes clauses from several queues in turn, from each as many as its coefficient says. A
profile is a preset list of queues; each ends with the queue by age, which keeps the search fair. -/

namespace GivenClause

/-- A queue by name, with the number of clauses taken from it in each turn. -/
structure QueueSpec where
  /-- Name of a predefined queue. -/
  name : String
  /-- Clauses taken in each turn. -/
  coefficient : Nat
deriving DecidableEq, Repr

/-- A preset list of queues. -/
inductive Profile where
  /-- Mostly lightest first, one in five by age. -/
  | standard
  /-- By age only. -/
  | breadthFirst
  /-- Weight and one turn for each kind of clause. -/
  | explore
  /-- Prefers ground clauses. -/
  | ground
  /-- Prefers clauses near a goal. -/
  | goal
deriving DecidableEq, Repr

namespace Profile

/-- All profiles. -/
def profiles : List Profile :=
  [.standard, .breadthFirst, .explore, .ground, .goal]

/-- The name of a profile. -/
def name : Profile → String
  | .standard => "default"
  | .breadthFirst => "bfs"
  | .explore => "explore"
  | .ground => "ground"
  | .goal => "goal"

/-- The profile with a given name. -/
def ofName? (name : String) : Option Profile :=
  profiles.find? fun profile => profile.name = name

/-- The queues of a profile. -/
def specs : Profile → List QueueSpec
  | .standard => [⟨"clause_weight", 4⟩, ⟨"fifo", 1⟩]
  | .breadthFirst => [⟨"fifo", 1⟩]
  | .explore =>
    [⟨"clause_weight", 4⟩, ⟨"goals", 1⟩, ⟨"non_goals", 1⟩, ⟨"pos_unit_clauses", 1⟩, ⟨"horn", 1⟩,
      ⟨"lemmas", 1⟩, ⟨"fifo", 1⟩]
  | .ground => [⟨"ground", 5⟩, ⟨"clause_weight", 2⟩, ⟨"fifo", 1⟩]
  | .goal => [⟨"goal_oriented", 5⟩, ⟨"clause_weight", 1⟩, ⟨"fifo", 1⟩]

end Profile

/-- The queue of a specification with its coefficient, which must not be zero. -/
def QueueSpec.build (spec : QueueSpec) : Except ConfigError (ClauseQueue × Nat) :=
  if spec.coefficient = 0 then .error (.zeroCoefficient spec.name)
  else do
    let queue ← ClauseQueue.named spec.name
    .ok (queue, spec.coefficient)

/-- The queues of specifications, of which there must be at least one; the first error counts. -/
def buildQueues (specs : List QueueSpec) : Except ConfigError (List (ClauseQueue × Nat)) :=
  if specs.isEmpty then .error .emptyProfile else specs.mapM QueueSpec.build

end GivenClause
