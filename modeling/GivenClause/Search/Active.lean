import GivenClause.Clause.Eligibility
import GivenClause.Retrieval.DiscriminationTree
import GivenClause.Retrieval.FeatureVector

/-! # The active set

Clauses that were given, with the indices that inferences search:

* `targets`: the subterms of resolvable literals, which other clauses rewrite;
* `rewriters`: the sides of rewriting literals;
* `subterms`: the subterms of all literals, which new rules may simplify;
* `subsumption`: feature vectors of whole clauses.

Of an equation only the greater side is indexed for inferences, both sides when the ordering does not
tell. Every clause remembers what was stored for it, so taking it out undoes exactly what putting it in
did. -/

namespace GivenClause

/-- A position in a clause: literal, side, and path below the side. -/
structure TermEntry where
  /-- The clause. -/
  clause : ClauseId
  /-- Index of the literal. -/
  literal : Nat
  /-- Side of the literal. -/
  side : Side
  /-- Path below the side. -/
  path : Path
deriving DecidableEq, Repr

namespace TermEntry

/-- By what entries are ordered, lexicographically: clause, literal, left before right, path. -/
def rank (entry : TermEntry) : List Nat :=
  [entry.clause, entry.literal, if entry.side = .left then 0 else 1] ++ entry.path

/-- The order on entries. -/
def le (a b : TermEntry) : Bool :=
  !decide (b.rank < a.rank)

/-- An entry as text. -/
def text (entry : TermEntry) : String :=
  "#" ++ toString entry.clause ++ "." ++ toString entry.literal ++ "." ++ entry.side.name ++ "[" ++
    String.intercalate "," (entry.path.map toString) ++ "]"

/-- The term at the position, `none` when the clause has no such position. -/
def term? (entry : TermEntry) (store : ClauseStore) : Option Term := do
  let clause ← store.get? entry.clause
  let lit ← clause.literals[entry.literal]?
  let side ← lit.side? entry.side
  side.at? entry.path

end TermEntry

/-- The term indices of the active set. -/
inductive TermIndex where
  /-- Subterms of resolvable literals. -/
  | targets
  /-- Sides of rewriting literals. -/
  | rewriters
  /-- Subterms of all literals. -/
  | subterms
deriving DecidableEq, Repr

/-- The name of a term index. -/
def TermIndex.name : TermIndex → String
  | .targets => "sup_into"
  | .rewriters => "sup_from"
  | .subterms => "back_demod"

/-- All kinds of index, by name: the term indices, feature vectors, rewrite rules. -/
def indexNames : List String :=
  ["sup_into", "sup_from", "back_demod", "subsumption", "unit_rewrite"]

/-- Something stored in a term index. -/
structure Placement where
  /-- The index. -/
  index : TermIndex
  /-- The term it is stored under. -/
  term : Term
  /-- The position of the term. -/
  entry : TermEntry
deriving DecidableEq, Repr

/-! ## What a clause contributes -/

/-- The sides of a literal that take part in ordered inferences. -/
def Literal.indexedSides (order : TermOrder) : Literal → Except Fault (List (Side × Term))
  | .equation lhs rhs _ => do
    match ← order.compare lhs rhs with
    | .gt => .ok [(.left, lhs)]
    | .lt => .ok [(.right, rhs)]
    | .eq | .incomparable => .ok [(.left, lhs), (.right, rhs)]
  | lit => .ok lit.sides

/-- Placements of all subterms of one side that are no variables. -/
def placeSubterms (index : TermIndex) (id : ClauseId) (literal : Nat) (side : Side × Term) :
    List Placement :=
  (side.2.subterms.filter fun e => !e.2.isVar).map fun e =>
    ⟨index, e.2, ⟨id, literal, side.1, e.1⟩⟩

/-- Placement of a whole side. -/
def placeSide (index : TermIndex) (id : ClauseId) (literal : Nat) (side : Side × Term) : Placement :=
  ⟨index, side.2, ⟨id, literal, side.1, []⟩⟩

/-- Placements of one literal, given its indexed sides and what it is eligible for. -/
def placeLiteral (id : ClauseId) (literal : Nat) (lit : Literal) (indexed : List (Side × Term))
    (resolvable rewriting : Bool) : List Placement :=
  (if resolvable then indexed.flatMap (placeSubterms .targets id literal) else []) ++
    (if rewriting then indexed.map (placeSide .rewriters id literal) else []) ++
    lit.sides.flatMap (placeSubterms .subterms id literal)

/-- Placements of literals with their indices. -/
def placeLiterals (order : TermOrder) (id : ClauseId) (resolution paramodulation : LiteralSet) :
    List (Literal × Nat) → Except Fault (List Placement)
  | [] => .ok []
  | (lit, i) :: literals => do
    let indexed ← lit.indexedSides order
    let rest ← placeLiterals order id resolution paramodulation literals
    .ok (placeLiteral id i lit indexed (resolution.contains i) (paramodulation.contains i) ++ rest)

/-- The literals a clause is indexed for: those to resolve upon and those that rewrite. -/
def Clause.indexedLiterals (clause : Clause) (order : TermOrder) :
    Except Fault (LiteralSet × LiteralSet) := do
  let resolution ← clause.eligibleForResolution order .empty 0
  let paramodulation ← clause.eligibleForParamodulation order .empty 0
  .ok (resolution, paramodulation)

/-- Everything that the term indices store for a clause. -/
def Clause.placements (clause : Clause) (order : TermOrder) : Except Fault (List Placement) := do
  let (resolution, paramodulation) ← clause.indexedLiterals order
  placeLiterals order clause.id resolution paramodulation clause.literals.zipIdx

/-! ## The set -/

/-- Counters of the active set and its indices. -/
structure ActiveStats where
  /-- Clauses in the set. -/
  size : Nat := 0
  /-- Clauses ever added. -/
  added : Nat := 0
  /-- Clauses ever taken out. -/
  removed : Nat := 0
  /-- Entries of the index of rewritten subterms. -/
  targets : Nat := 0
  /-- Entries of the index of rewriting sides. -/
  rewriters : Nat := 0
  /-- Entries of the index of all subterms. -/
  subterms : Nat := 0
  /-- Clauses with a feature vector. -/
  subsumption : Nat := 0
deriving DecidableEq, Repr

/-- The contents of all indices in order. -/
structure ActiveSnapshot where
  /-- The clauses by number. -/
  clauses : List ClauseId
  /-- The index of rewritten subterms. -/
  targets : List (List FlatKey × TermEntry)
  /-- The index of rewriting sides. -/
  rewriters : List (List FlatKey × TermEntry)
  /-- The index of all subterms. -/
  subterms : List (List FlatKey × TermEntry)
  /-- The clauses with a feature vector by number. -/
  subsumption : List ClauseId
deriving DecidableEq, Repr

/-- Given clauses with their indices. -/
structure ActiveSet where
  /-- The clauses in order of insertion, with what was stored for each. -/
  clauses : List (ClauseId × List Placement) := []
  /-- Subterms of resolvable literals. -/
  targets : DiscriminationTree TermEntry := {}
  /-- Sides of rewriting literals. -/
  rewriters : DiscriminationTree TermEntry := {}
  /-- Subterms of all literals. -/
  subterms : DiscriminationTree TermEntry := {}
  /-- Feature vectors. -/
  subsumption : FeatureIndex := {}
  /-- Clauses ever added. -/
  added : Nat := 0
  /-- Clauses ever taken out. -/
  removed : Nat := 0

namespace ActiveSet

/-- The set without clauses. -/
def empty : ActiveSet := {}

/-- The clauses in order of insertion. -/
def ids (active : ActiveSet) : List ClauseId :=
  active.clauses.map (·.1)

/-- Number of clauses. -/
def size (active : ActiveSet) : Nat :=
  active.clauses.length

/-- Whether a clause is in the set. -/
def contains (active : ActiveSet) (id : ClauseId) : Bool :=
  active.ids.contains id

/-- One of the term indices. -/
def tree (active : ActiveSet) : TermIndex → DiscriminationTree TermEntry
  | .targets => active.targets
  | .rewriters => active.rewriters
  | .subterms => active.subterms

/-- Changes one of the term indices. -/
def modifyTree (active : ActiveSet) (index : TermIndex)
    (f : DiscriminationTree TermEntry → DiscriminationTree TermEntry) : ActiveSet :=
  match index with
  | .targets => { active with targets := f active.targets }
  | .rewriters => { active with rewriters := f active.rewriters }
  | .subterms => { active with subterms := f active.subterms }

/-- Stores a placement in its index. -/
def place (active : ActiveSet) (p : Placement) : ActiveSet :=
  active.modifyTree p.index fun tree => tree.insert p.term p.entry

/-- Takes placements of a clause out of their indices; each must be there. -/
def displaceAll (id : ClauseId) (active : ActiveSet) : List Placement → Except Fault ActiveSet
  | [] => .ok active
  | p :: ps =>
    match (active.tree p.index).erase? p.term p.entry with
    | some tree => displaceAll id (active.modifyTree p.index fun _ => tree) ps
    | none => .error (.missingEntry p.index.name id)

/-- Adds one clause that is not in the set. -/
def addClause (active : ActiveSet) (store : ClauseStore) (id : ClauseId) : Except Fault ActiveSet := do
  let clause ← store.get id
  let placements ← clause.placements store.ordering
  let active := placements.foldl place active
  let (subsumption, _) ← active.subsumption.insert store id
  .ok
    { active with
      clauses := active.clauses ++ [(id, placements)]
      subsumption
      added := active.added + 1 }

/-- Adds the clauses that are not in the set yet; tells which were added. -/
def add (active : ActiveSet) (store : ClauseStore) :
    List ClauseId → Except Fault (ActiveSet × List ClauseId)
  | [] => .ok (active, [])
  | id :: ids =>
    if active.contains id then active.add store ids
    else do
      let active ← active.addClause store id
      let (active, added) ← active.add store ids
      .ok (active, id :: added)

/-- Takes out one clause for which `placements` were stored. -/
def removeClause (active : ActiveSet) (id : ClauseId) (placements : List Placement) :
    Except Fault ActiveSet := do
  let active := { active with clauses := active.clauses.filter fun e => e.1 ≠ id }
  let active ← displaceAll id active placements
  .ok
    { active with
      subsumption := (active.subsumption.erase id).1
      removed := active.removed + 1 }

/-- Takes out the clauses that are in the set; tells which were taken out. -/
def remove (active : ActiveSet) : List ClauseId → Except Fault (ActiveSet × List ClauseId)
  | [] => .ok (active, [])
  | id :: ids =>
    match active.clauses.lookup id with
    | none => active.remove ids
    | some placements => do
      let active ← active.removeClause id placements
      let (active, removed) ← active.remove ids
      .ok (active, id :: removed)

/-- A new set with the same clauses, indexed from scratch. -/
def rebuilt (active : ActiveSet) (store : ClauseStore) : Except Fault ActiveSet := do
  let (fresh, _) ← empty.add store active.ids
  .ok fresh

/-- The contents of all indices in order. -/
def snapshot (active : ActiveSet) : ActiveSnapshot where
  clauses := active.ids.mergeSort
  targets := active.targets.entries TermEntry.le
  rewriters := active.rewriters.entries TermEntry.le
  subterms := active.subterms.entries TermEntry.le
  subsumption := active.subsumption.entries.map (·.1)

/-- The counters. -/
def stats (active : ActiveSet) : ActiveStats where
  size := active.size
  added := active.added
  removed := active.removed
  targets := active.targets.size
  rewriters := active.rewriters.size
  subterms := active.subterms.size
  subsumption := active.subsumption.size

end ActiveSet

end GivenClause
