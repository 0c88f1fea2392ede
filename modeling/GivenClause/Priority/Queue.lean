import GivenClause.Fault
import GivenClause.Priority.Accept
import GivenClause.Priority.Weight

/-! # Clause queues

A queue holds clause numbers in ascending order of weight, older clauses first among equally heavy
ones. A clause may be forgotten elsewhere while a queue still holds it; `ClauseQueue.clean` drops such
entries. -/

namespace GivenClause

/-- An entry of a queue: the weight and the number of a clause. -/
abbrev QueueItem := Nat × ClauseId

namespace QueueItem

/-- Whether an entry comes strictly before another: lighter, or as heavy and older. -/
def before (a b : QueueItem) : Bool :=
  a.1 < b.1 || (a.1 == b.1 && a.2 < b.2)

/-- Puts an entry in its place among ascending entries, unless it is there already. -/
def insert (item : QueueItem) : List QueueItem → List QueueItem
  | [] => [item]
  | other :: items =>
    if item = other then other :: items
    else if before item other then item :: other :: items
    else other :: insert item items

end QueueItem

/-- A queue of clauses. -/
structure ClauseQueue where
  /-- Its name. -/
  name : String
  /-- How clauses are weighed. -/
  weight : WeightFunction
  /-- Which clauses it takes in. -/
  accept : Acceptance
  /-- Its entries in ascending order. -/
  items : List QueueItem := []

namespace ClauseQueue

/-- Number of entries. -/
def size (queue : ClauseQueue) : Nat :=
  queue.items.length

/-- Whether there are no entries. -/
def isEmpty (queue : ClauseQueue) : Bool :=
  queue.items.isEmpty

/-- Whether a clause meets the condition of the queue. -/
def accepts (queue : ClauseQueue) (clause : Clause) : Bool :=
  queue.accept.accepts clause

/-- The queue with a clause added if it meets the condition. -/
def add (queue : ClauseQueue) (clause : Clause) : ClauseQueue :=
  if queue.accepts clause then
    { queue with items := QueueItem.insert (queue.weight.weigh clause, clause.id) queue.items }
  else queue

/-- The first clause. -/
def first? (queue : ClauseQueue) : Option ClauseId :=
  queue.items.head?.map (·.2)

/-- Takes the first clause out, a fault when there is none. -/
def takeFirst (queue : ClauseQueue) : Except Fault (ClauseId × ClauseQueue) :=
  match queue.items with
  | [] => .error (.emptyQueue queue.name)
  | item :: items => .ok (item.2, { queue with items })

/-- Drops the entries of clauses that are not `live`, and tells how many went. -/
def clean (queue : ClauseQueue) (live : ClauseId → Bool) : ClauseQueue × Nat :=
  let items := queue.items.filter fun item => live item.2
  ({ queue with items }, queue.items.length - items.length)

/-! ## Named queues -/

/-- Names, weights and conditions of the predefined queues. -/
def predefined : List (String × WeightFunction × Acceptance) :=
  [("fifo", .age, .all),
    ("clause_weight", .symbols, .all),
    ("goals", .symbols, .goals),
    ("non_goals", .symbols, .nonGoals),
    ("ground", .symbols, .ground),
    ("pos_unit_clauses", .symbols, .positiveUnit),
    ("horn", .symbols, .horn),
    ("lemmas", .symbols, .lemmas),
    ("goal_oriented", .favorGoal WeightFunction.defaultThreshold, .all)]

/-- The predefined queue with a given name, empty. -/
def named (name : String) : Except ConfigError ClauseQueue :=
  match predefined.lookup name with
  | some (weight, accept) => .ok { name, weight, accept }
  | none => .error (.unknownQueue name)

end ClauseQueue

end GivenClause
