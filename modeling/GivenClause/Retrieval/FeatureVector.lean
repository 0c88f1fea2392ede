import GivenClause.Clause.Store
import GivenClause.Retrieval.Trie

/-! # Feature vectors

A clause that subsumes another has no more positive or negative literals, equations or symbols than
it, so comparing such counts componentwise rules out most candidates. Counts stop at the largest
16-bit number.

* `FeatureVector.of` counts, `FeatureVector.le` compares componentwise;
* `FeatureIndex` stores clause numbers in a trie with one level for each count and answers range
  queries in both directions. -/

namespace GivenClause

/-- The bucket in which occurrences of a constant are counted. -/
def constantBucket (id : Nat) : Nat :=
  id * 2 % 4

/-- The bucket in which occurrences of a function symbol are counted. -/
def functionBucket (id : Nat) : Nat :=
  (id * 2 + 1) % 4

mutual

/-- How many occurrences of constants and function symbols are in a bucket that passes `test`. -/
def Term.symbolCount (test : Nat → Bool) : Term → Nat
  | .var _ => 0
  | .const c => if test (constantBucket c) then 1 else 0
  | .app f args =>
    (if test (functionBucket f.id) then 1 else 0) + Term.symbolCountList test args

/-- How many symbol occurrences of several terms are in a bucket that passes `test`. -/
def Term.symbolCountList (test : Nat → Bool) : List Term → Nat
  | [] => 0
  | t :: ts => Term.symbolCount test t + Term.symbolCountList test ts

end

/-- Counts of a clause, one for each feature. -/
structure FeatureVector where
  /-- The counts. -/
  counts : List Nat
deriving DecidableEq, Repr

namespace FeatureVector

/-- The largest count. -/
def maxCount : Nat := 65535

/-- The counts of a literal sequence: literals, equations and symbols of either sign, then symbols of
either sign by bucket. -/
def of (literals : List Literal) : FeatureVector :=
  let positive := literals.filter Literal.isPositive
  let negative := literals.filter Literal.isNegative
  let symbols (test : Nat → Bool) (ls : List Literal) :=
    Term.symbolCountList test (ls.flatMap Literal.terms)
  let totals :=
    [positive.length, negative.length,
      positive.countP Literal.isEquation, negative.countP Literal.isEquation,
      symbols (fun _ => true) positive, symbols (fun _ => true) negative] ++
    (List.range 4).map (fun b => symbols (· = b) positive) ++
    (List.range 4).map (fun b => symbols (· = b) negative)
  ⟨totals.map fun n => min n maxCount⟩

/-- Whether every count is at most that of the other vector. -/
def le (v w : FeatureVector) : Bool :=
  (v.counts.zip w.counts).all fun e => e.1 ≤ e.2

end FeatureVector

/-- Clause numbers by feature vector. -/
structure FeatureIndex where
  /-- Clause numbers under their counts. -/
  root : Trie Nat ClauseId := Trie.empty
  /-- The vector of each clause in the index. -/
  vectors : List (ClauseId × FeatureVector) := []

namespace FeatureIndex

/-- The index without clauses. -/
def empty : FeatureIndex := {}

/-- The vector a clause is stored under. -/
def vector? (index : FeatureIndex) (id : ClauseId) : Option FeatureVector :=
  index.vectors.lookup id

/-- Whether a clause is in the index. -/
def contains (index : FeatureIndex) (id : ClauseId) : Bool :=
  (index.vector? id).isSome

/-- Number of clauses in the index. -/
def size (index : FeatureIndex) : Nat :=
  index.vectors.length

/-- Whether no clause is in the index. -/
def isEmpty (index : FeatureIndex) : Bool :=
  index.size = 0

/-- Stores a clause under the counts of its literals. -/
def insertLiterals (index : FeatureIndex) (id : ClauseId) (literals : List Literal) : FeatureIndex :=
  let vector := FeatureVector.of literals
  { root := index.root.insert vector.counts id
    vectors := index.vectors ++ [(id, vector)] }

/-- Adds a clause of a store, and tells whether it was new. -/
def insert (index : FeatureIndex) (store : ClauseStore) (id : ClauseId) :
    Except Fault (FeatureIndex × Bool) :=
  if index.contains id then .ok (index, false)
  else do
    let clause ← store.get id
    .ok (index.insertLiterals id clause.literals, true)

/-- Takes a clause out, and tells whether it was there. -/
def erase (index : FeatureIndex) (id : ClauseId) : FeatureIndex × Bool :=
  match index.vector? id with
  | none => (index, false)
  | some vector =>
    let vectors := index.vectors.filter fun e => e.1 ≠ id
    match index.root.erase? vector.counts id with
    | some root => ({ root, vectors }, true)
    | none => ({ index with vectors }, false)

/-- The clauses whose vector is at most that of the given literals. -/
def subsumers (index : FeatureIndex) (literals : List Literal) : List ClauseId :=
  index.root.filterPaths ((FeatureVector.of literals).counts.map fun bound n => decide (n ≤ bound))

/-- The clauses whose vector is at least that of the given literals. -/
def subsumed (index : FeatureIndex) (literals : List Literal) : List ClauseId :=
  index.root.filterPaths ((FeatureVector.of literals).counts.map fun bound n => decide (bound ≤ n))

/-- The clauses of the index with their vectors, by clause number. -/
def entries (index : FeatureIndex) : List (ClauseId × FeatureVector) :=
  index.vectors.mergeSort fun a b => a.1 ≤ b.1

end FeatureIndex

end GivenClause
