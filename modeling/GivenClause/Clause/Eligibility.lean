import GivenClause.Clause.Store
import GivenClause.Unify.Substitution

/-! # Eligible literals and instances of clauses

Which literals of a clause may take part in an inference, under a substitution: with a selection the
selected ones, otherwise all, less those that are strictly below another candidate on the instance.

* `ClauseStore.eligibleForResolution` and `ClauseStore.eligibleForParamodulation`;
* `ClauseStore.applySubstitution` makes the instance of a clause. -/

namespace GivenClause

/-- The literals of a clause of a scope under a substitution; the empty substitution changes nothing. -/
def Clause.instanceLiterals (clause : Clause) (σ : Substitution) (scope : Nat) : List Literal :=
  if σ.isEmpty then clause.literals else (instantiateLiterals σ scope {} clause.literals).1

/-- The literals that can be eligible: the selected ones if there are any, otherwise all. -/
def Clause.candidates (clause : Clause) : LiteralSet :=
  if clause.selected.isEmpty then LiteralSet.below clause.length else clause.selected

/-- The literals whose index is in a set, with their indices. -/
def literalsIn (set : LiteralSet) (literals : List Literal) : List (Literal × Nat) :=
  literals.zipIdx.filter fun e => set.contains e.2

/-- Whether `e` is strictly below a literal of the list at another index, tried first to last. With
`sameSign` only literals of its own sign count. -/
def isBelowOther (order : TermOrder) (sameSign : Bool) (e : Literal × Nat) :
    List (Literal × Nat) → Except Fault Bool
  | [] => .ok false
  | d :: ds =>
    if d.2 = e.2 ∨ (sameSign ∧ d.1.isPositive ≠ e.1.isPositive) then isBelowOther order sameSign e ds
    else do
      let c ← order.compareLiterals e.1 d.1
      if c = .lt then .ok true else isBelowOther order sameSign e ds

/-- Takes out of `set` the members of the last list that are strictly below another member of
`all`. -/
def eraseBelow (order : TermOrder) (sameSign : Bool) (all : List (Literal × Nat)) (set : LiteralSet) :
    List (Literal × Nat) → Except Fault LiteralSet
  | [] => .ok set
  | e :: es => do
    let below ← isBelowOther order sameSign e all
    eraseBelow order sameSign all (if below then set.erase e.2 else set) es

/-- The literals of a clause that may be resolved upon, under an ordering and a substitution. -/
def Clause.eligibleForResolution (clause : Clause) (order : TermOrder) (σ : Substitution) (scope : Nat) :
    Except Fault LiteralSet :=
  let candidates := clause.candidates
  let members := literalsIn candidates (clause.instanceLiterals σ scope)
  eraseBelow order (!clause.selected.isEmpty) members candidates members

/-- The literals of a clause that may rewrite: the positive ones that may be resolved upon, none when
the clause has a selection. -/
def Clause.eligibleForParamodulation (clause : Clause) (order : TermOrder) (σ : Substitution)
    (scope : Nat) : Except Fault LiteralSet :=
  if clause.selected.isEmpty then do
    let eligible ← clause.eligibleForResolution order σ scope
    .ok (eligible.inter clause.positiveLiterals)
  else .ok .empty

namespace ClauseStore

/-- The literals of clause `id` that may be resolved upon. -/
def eligibleForResolution (store : ClauseStore) (id : ClauseId) (σ : Substitution) (scope : Nat) :
    Except Fault LiteralSet := do
  let clause ← store.get id
  clause.eligibleForResolution store.ordering σ scope

/-- The literals of clause `id` that may rewrite. -/
def eligibleForParamodulation (store : ClauseStore) (id : ClauseId) (σ : Substitution)
    (scope : Nat) : Except Fault LiteralSet := do
  let clause ← store.get id
  clause.eligibleForParamodulation store.ordering σ scope

/-- Whether the literal at `index` may be resolved upon. -/
def isMaximalLiteral (store : ClauseStore) (id : ClauseId) (σ : Substitution) (scope index : Nat) :
    Except Fault Bool := do
  let eligible ← store.eligibleForResolution id σ scope
  .ok (eligible.contains index)

/-- Which of the literals at `indices` may be resolved upon. -/
def areMaximalLiterals (store : ClauseStore) (id : ClauseId) (σ : Substitution) (scope : Nat)
    (indices : List Nat) : Except Fault (List Bool) := do
  let eligible ← store.eligibleForResolution id σ scope
  .ok (indices.map eligible.contains)

/-- Makes the instance of a clause. Its parent is the clause, whose descendants it inherits. -/
def applySubstitution (store : ClauseStore) (id : ClauseId) (σ : Substitution) (scope : Nat) :
    ClauseStore × Except Fault ClauseId :=
  match store.get id with
  | .error fault => (store, .error fault)
  | .ok clause =>
    let made := store.create
      { literals := (instantiateLiterals σ scope {} clause.literals).1
        provenance := { clause.provenance with rule := "instantiate" }
        parents := [id] }
    match made with
    | (store, .error fault) => (store, .error fault)
    | (store, .ok result) =>
      if result = id then (store, .ok result)
      else (store.extendDescendants result clause.descendants, .ok result)

end ClauseStore

end GivenClause
