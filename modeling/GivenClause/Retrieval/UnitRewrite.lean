import GivenClause.Clause.Store
import GivenClause.Retrieval.DiscriminationTree

/-! # Rewriting by unit equations

Positive unit equations are stored under the side that they rewrite: the greater one, or both when
the ordering does not tell, in which case each use has to check the ordering on the instance.

The index remembers what it stored for a clause, so that taking a clause out undoes exactly what
putting it in did, whatever the ordering has become. -/

namespace GivenClause

/-- A unit equation used as a rewrite rule from one side to the other. -/
structure RewriteEntry where
  /-- The clause. -/
  clause : ClauseId
  /-- The side that is rewritten. -/
  side : Side
  /-- Whether that side is greater under every substitution. -/
  oriented : Bool
deriving DecidableEq, Repr

namespace RewriteEntry

/-- By what entries are ordered, lexicographically: clause, left before right, unoriented before
oriented. -/
def rank (entry : RewriteEntry) : List Nat :=
  [entry.clause, if entry.side = .left then 0 else 1, entry.oriented.toNat]

/-- The order on entries. -/
def le (a b : RewriteEntry) : Bool :=
  !decide (b.rank < a.rank)

/-- An entry as text. -/
def text (entry : RewriteEntry) : String :=
  "#" ++ toString entry.clause ++ "." ++ entry.side.name ++ "." ++
    (if entry.oriented then "oriented" else "unoriented")

end RewriteEntry

/-- The rewrite rules that a clause gives, with the term each is stored under. -/
def Clause.rewriteRules (clause : Clause) (order : TermOrder) : Except Fault (List (Term × RewriteEntry)) :=
  match clause.literals with
  | [.equation lhs rhs true] => do
    match ← order.compare lhs rhs with
    | .gt => .ok [(lhs, ⟨clause.id, .left, true⟩)]
    | .lt => .ok [(rhs, ⟨clause.id, .right, true⟩)]
    | .eq | .incomparable =>
      .ok [(lhs, ⟨clause.id, .left, false⟩), (rhs, ⟨clause.id, .right, false⟩)]
  | _ => .ok []

/-- Rewrite rules of unit equations. -/
structure RewriteIndex where
  /-- The rules under the terms they rewrite. -/
  tree : DiscriminationTree RewriteEntry := {}
  /-- What was stored for each clause. -/
  placed : List (ClauseId × List (Term × RewriteEntry)) := []

namespace RewriteIndex

/-- The index without clauses. -/
def empty : RewriteIndex := {}

/-- Whether a clause is in the index. -/
def contains (index : RewriteIndex) (id : ClauseId) : Bool :=
  (index.placed.lookup id).isSome

/-- Number of clauses in the index. -/
def size (index : RewriteIndex) : Nat :=
  index.placed.length

/-- Whether no clause is in the index. -/
def isEmpty (index : RewriteIndex) : Bool :=
  index.size = 0

/-- Adds a clause, and tells whether it was new and gives rules. -/
def insert (index : RewriteIndex) (store : ClauseStore) (id : ClauseId) :
    Except Fault (RewriteIndex × Bool) :=
  if index.contains id then .ok (index, false)
  else do
    let clause ← store.get id
    let rules ← clause.rewriteRules store.ordering
    if rules.isEmpty then .ok (index, false)
    else
      .ok
        ({ tree := rules.foldl (fun tree rule => tree.insert rule.1 rule.2) index.tree
           placed := index.placed ++ [(id, rules)] },
          true)

/-- Takes rules of a clause out of a tree; each must be there. -/
def eraseRules (id : ClauseId) (tree : DiscriminationTree RewriteEntry) :
    List (Term × RewriteEntry) → Except Fault (DiscriminationTree RewriteEntry)
  | [] => .ok tree
  | rule :: rules =>
    match tree.erase? rule.1 rule.2 with
    | some tree => eraseRules id tree rules
    | none => .error (.missingEntry "unit rewrite" id)

/-- Takes a clause out, and tells whether it was there. -/
def erase (index : RewriteIndex) (id : ClauseId) : Except Fault (RewriteIndex × Bool) :=
  match index.placed.lookup id with
  | none => .ok (index, false)
  | some rules => do
    let tree ← eraseRules id index.tree rules
    .ok ({ tree, placed := index.placed.filter fun e => e.1 ≠ id }, true)

/-- Adds clauses one after the other, and tells how many were taken in. -/
def insertAll (index : RewriteIndex) (store : ClauseStore) :
    List ClauseId → Except Fault (RewriteIndex × Nat)
  | [] => .ok (index, 0)
  | id :: ids => do
    let (index, taken) ← index.insert store id
    let (index, count) ← index.insertAll store ids
    .ok (index, taken.toNat + count)

/-- Takes clauses out one after the other, and tells how many were there. -/
def eraseAll (index : RewriteIndex) : List ClauseId → Except Fault (RewriteIndex × Nat)
  | [] => .ok (index, 0)
  | id :: ids => do
    let (index, taken) ← index.erase id
    let (index, count) ← index.eraseAll ids
    .ok (index, taken.toNat + count)

/-- The rules whose left-hand side generalizes a term. -/
def candidates (index : RewriteIndex) (t : Term) : List RewriteEntry :=
  index.tree.generalizations t

end RewriteIndex

end GivenClause
