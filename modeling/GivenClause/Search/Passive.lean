import GivenClause.Clause.Store
import GivenClause.Data.InsertionOrder
import GivenClause.Priority.Profile

/-! # The passive set

Clauses that wait for their turn. Membership is one list of live clauses; every queue has its own
order on them. Removing a clause touches only the list, so queues may hold stale entries until these
come up or are cleaned.

Clauses are handed out by weighted round robin: the queue under the cursor hands out as many live
clauses as its coefficient says before the cursor moves on, and passes its turn when it runs dry.

* `PassiveSet.add`, `PassiveSet.remove`, `PassiveSet.clean`;
* `PassiveSet.next` hands out a clause. -/

namespace GivenClause

open InsertionOrder

/-- Counters of a passive set. -/
structure PassiveStats where
  /-- Live clauses. -/
  size : Nat := 0
  /-- Clauses that became live by being added. -/
  added : Nat := 0
  /-- Clauses handed out. -/
  selected : Nat := 0
  /-- Stale entries met while handing out. -/
  staleDropped : Nat := 0
  /-- Stale entries dropped by cleaning. -/
  cleaned : Nat := 0
deriving DecidableEq, Repr

/-- A queue of a passive set. -/
structure PassiveSlot where
  /-- The queue. -/
  queue : ClauseQueue
  /-- Clauses handed out in each turn. -/
  coefficient : Nat
  /-- Clauses handed out so far. -/
  served : Nat := 0

/-- Clauses that wait for their turn. -/
structure PassiveSet where
  /-- The live clauses in order of insertion. -/
  live : List ClauseId := []
  /-- The queues in order of their turns. -/
  slots : List PassiveSlot
  /-- Whose turn it is. -/
  current : Nat := 0
  /-- Clauses handed out in this turn. -/
  taken : Nat := 0
  /-- Counters; the size is not kept here. -/
  counters : PassiveStats := {}

namespace PassiveSet

/-- An empty passive set over queues with coefficients, none of which may be zero. -/
def new (queues : List (ClauseQueue × Nat)) : Except ConfigError PassiveSet :=
  match queues.find? fun q => q.2 = 0 with
  | some q => .error (.zeroCoefficient q.1.name)
  | none => .ok { slots := queues.map fun q => { queue := q.1, coefficient := q.2 } }

/-- Number of live clauses. -/
def size (passive : PassiveSet) : Nat :=
  passive.live.length

/-- Whether a clause is live. -/
def contains (passive : PassiveSet) (id : ClauseId) : Bool :=
  passive.live.contains id

/-- The counters. -/
def stats (passive : PassiveSet) : PassiveStats :=
  { passive.counters with size := passive.size }

/-- How many clauses each queue has handed out. -/
def served (passive : PassiveSet) : List (String × Nat) :=
  passive.slots.map fun slot => (slot.queue.name, slot.served)

/-! ## Adding and removing -/

/-- Offers a clause to every queue. -/
def offer (passive : PassiveSet) (clause : Clause) : PassiveSet :=
  { passive with
    slots := passive.slots.map fun slot => { slot with queue := slot.queue.add clause } }

/-- Makes clauses live that are not, each in turn, and offers them to every queue; tells how many
were new. A number that is not in the store is live already when it is looked up and faults. -/
def addFrom (store : ClauseStore) (fresh : Nat) (passive : PassiveSet) :
    List ClauseId → PassiveSet × Except Fault Nat
  | [] => (passive, .ok fresh)
  | id :: ids =>
    if passive.contains id then addFrom store fresh passive ids
    else
      let passive := { passive with live := insertNew passive.live id }
      match store.get id with
      | .error fault => (passive, .error fault)
      | .ok clause => addFrom store (fresh + 1) (passive.offer clause) ids

/-- Adds clauses of a store and tells how many were new, which is counted at the end. -/
def add (passive : PassiveSet) (store : ClauseStore) (ids : List ClauseId) :
    PassiveSet × Except Fault Nat :=
  match addFrom store 0 passive ids with
  | (passive, .error fault) => (passive, .error fault)
  | (passive, .ok fresh) =>
    ({ passive with
        counters := { passive.counters with added := passive.counters.added + fresh } },
      .ok fresh)

/-- Forgets a clause, and tells whether it was live. Its queue entries become stale. -/
def remove (passive : PassiveSet) (id : ClauseId) : PassiveSet × Bool :=
  ({ passive with live := passive.live.erase id }, passive.contains id)

/-- Drops all stale queue entries, and tells how many there were. -/
def clean (passive : PassiveSet) : PassiveSet × Nat :=
  let cleaned := passive.slots.map fun slot => (slot, slot.queue.clean passive.contains)
  let purged := cleaned.foldr (fun c total => c.2.2 + total) 0
  ({ passive with
      slots := cleaned.map fun c => { c.1 with queue := c.2.1 }
      counters := { passive.counters with cleaned := passive.counters.cleaned + purged } },
    purged)

/-! ## Handing out -/

/-- Splits queue entries at the first live clause: how many stale entries stand in front of it, the
clause, and the entries after it. -/
def firstLive (live : ClauseId → Bool) : List QueueItem → Nat × Option ClauseId × List QueueItem
  | [] => (0, none, [])
  | item :: items =>
    if live item.2 then (0, some item.2, items)
    else
      let (stale, found, rest) := firstLive live items
      (stale + 1, found, rest)

/-- Moves the cursor to the next queue. -/
def advance (passive : PassiveSet) : PassiveSet :=
  { passive with current := (passive.current + 1) % passive.slots.length, taken := 0 }

/-- Lets the queue under the cursor hand out a live clause if its turn is not over. -/
def takeFromCurrent (passive : PassiveSet) : PassiveSet × Option ClauseId :=
  match passive.slots[passive.current]? with
  | none => (passive, none)
  | some slot =>
    if passive.taken < slot.coefficient then
      let (stale, found, items) := firstLive passive.contains slot.queue.items
      let queue := { slot.queue with items }
      let counters :=
        { passive.counters with staleDropped := passive.counters.staleDropped + stale }
      match found with
      | none =>
        ({ passive with
            slots := passive.slots.set passive.current { slot with queue }
            counters },
          none)
      | some id =>
        ({ passive with
            live := passive.live.erase id
            slots := passive.slots.set passive.current
              { slot with queue, served := slot.served + 1 }
            taken := passive.taken + 1
            counters := { counters with selected := counters.selected + 1 } },
          some id)
    else (passive, none)

/-- Lets queues in turn hand out a clause, `visits` of them at most. -/
def nextWithin : (visits : Nat) → PassiveSet → PassiveSet × Option ClauseId
  | 0, passive => (passive, none)
  | visits + 1, passive =>
    match passive.takeFromCurrent with
    | (passive, some id) => (passive, some id)
    | (passive, none) => nextWithin visits passive.advance

/-- Hands out the next clause; `none` once no queue holds a live one. The queue under the cursor is
visited twice, since its turn may be over while it still holds clauses. -/
def next (passive : PassiveSet) : PassiveSet × Option ClauseId :=
  if passive.slots.isEmpty then (passive, none) else nextWithin (passive.slots.length + 1) passive

/-- Hands out clauses until there is none or `limit` are out. -/
def drain : (limit : Nat) → PassiveSet → PassiveSet × List ClauseId
  | 0, passive => (passive, [])
  | limit + 1, passive =>
    match passive.next with
    | (passive, none) => (passive, [])
    | (passive, some id) =>
      let (passive, ids) := drain limit passive
      (passive, id :: ids)

end PassiveSet

end GivenClause
