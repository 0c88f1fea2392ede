import GivenClause.Retrieval.FlatKey
import GivenClause.Retrieval.Trie

/-! # Discrimination trees

A discrimination tree stores values under terms and finds those whose term generalizes, is an instance
of, or may unify with a given term. Variable occurrences are looked at one by one, so repeated
variables are not checked for agreement.

* `DiscriminationTree.insert` and `DiscriminationTree.erase?`;
* `DiscriminationTree.generalizations`, `DiscriminationTree.instances`,
  `DiscriminationTree.unifiable`;
* `DiscriminationTree.entries` lists the contents in order. -/

namespace GivenClause

/-- Which variables stand for any term in a search. -/
structure Matching where
  /-- Stored variables match any term of the query. -/
  stored : Bool
  /-- Variables of the query match any stored term. -/
  query : Bool
deriving DecidableEq, Repr

variable {α : Type}

mutual

/-- The values found below a node for the rest of a query, after `pending` more stored terms are
passed over. -/
def Trie.search (m : Matching) (trie : Trie FlatKey α) (pending : Nat) (keys : List FlatKey) :
    List α :=
  match trie, pending, keys with
  | .node values _, 0, [] => values.toList
  | .node _ branches, 0, key :: keys =>
    if m.query ∧ key = .star then branches.searchAll m 0 keys
    else
      branches.searchUnder m key keys ++
        if m.stored ∧ key ≠ .star then branches.searchStar m (key :: keys) else []
  | .node _ branches, pending + 1, keys => branches.searchAll m pending keys

/-- The values found below the branch `key` for the rest of a query. -/
def Branches.searchUnder (m : Matching) (branches : Branches FlatKey α) (key : FlatKey)
    (keys : List FlatKey) : List α :=
  match branches with
  | .nil => []
  | .cons other child rest =>
    if other = key then child.search m 0 keys else rest.searchUnder m key keys

/-- The values found below the branch of stored variables, which stand for the first complete term of
the query. -/
def Branches.searchStar (m : Matching) (branches : Branches FlatKey α) (keys : List FlatKey) :
    List α :=
  match branches with
  | .nil => []
  | .cons other child rest =>
    if other = .star then child.search m 0 (skipTerms 1 keys) else rest.searchStar m keys

/-- The values found below all branches; each key read is one of the stored terms passed over, and
leaves its arguments to be passed over with `pending` more. -/
def Branches.searchAll (m : Matching) (branches : Branches FlatKey α) (pending : Nat)
    (keys : List FlatKey) : List α :=
  match branches with
  | .nil => []
  | .cons other child rest =>
    child.search m (pending + other.arity) keys ++ rest.searchAll m pending keys

end

/-- Values stored under terms. -/
structure DiscriminationTree (α : Type) where
  /-- The values under the key sequences of their terms. -/
  root : Trie FlatKey α := Trie.empty
  /-- How many values are stored. -/
  size : Nat := 0

namespace DiscriminationTree

/-- The tree that stores nothing. -/
def empty : DiscriminationTree α := {}

/-- Whether nothing is stored. -/
def isEmpty (tree : DiscriminationTree α) : Bool :=
  tree.size = 0

/-- Stores a value under a term. -/
def insert (tree : DiscriminationTree α) (t : Term) (value : α) : DiscriminationTree α where
  root := tree.root.insert t.storedKeys value
  size := tree.size + 1

/-- Takes out one copy of a value stored under a term; `none` when there is none. -/
def erase? [DecidableEq α] (tree : DiscriminationTree α) (t : Term) (value : α) :
    Option (DiscriminationTree α) :=
  match tree.root.erase? t.storedKeys value with
  | some root => some { root, size := tree.size - 1 }
  | none => none

/-- The values whose term matches the query when its variables may be replaced. -/
def generalizations (tree : DiscriminationTree α) (query : Term) : List α :=
  tree.root.search ⟨true, false⟩ 0 query.queryKeys

/-- The values whose term the query matches when the variables of the query may be replaced. -/
def instances (tree : DiscriminationTree α) (query : Term) : List α :=
  tree.root.search ⟨false, true⟩ 0 query.storedKeys

/-- The values whose term may unify with the query. -/
def unifiable (tree : DiscriminationTree α) (query : Term) : List α :=
  tree.root.search ⟨true, true⟩ 0 query.storedKeys

/-- Every value with its key sequence, in order of the sequences and, under one sequence, of the
values. -/
def entries (le : α → α → Bool) (tree : DiscriminationTree α) : List (List FlatKey × α) :=
  tree.root.toListBy fun values => values.mergeSort le

end DiscriminationTree

end GivenClause
