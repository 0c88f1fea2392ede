import GivenClause.Data.SwapRemove

/-! # Tries

A trie stores values under sequences of keys. The branches of a node are kept in ascending order of
their keys and no branch is ever empty, so the shape of a trie depends only on what it stores.

* `Trie.insert` adds a value, also if it is there already; `Trie.erase?` takes one copy out;
* `Trie.toList` is the view: every stored value with its key sequence, in ascending order of the
  sequences. -/

namespace GivenClause

mutual

/-- A trie with keys in `κ` and values in `α`. -/
inductive Trie (κ α : Type) where
  /-- The values stored here, oldest first, and the branches below. -/
  | node (values : Array α) (branches : Branches κ α)

/-- The branches of a trie node. -/
inductive Branches (κ α : Type) where
  /-- No branch. -/
  | nil
  /-- A branch and those after it. -/
  | cons (key : κ) (child : Trie κ α) (rest : Branches κ α)

end

variable {κ α : Type}

/-! ## Views -/

namespace Trie

/-- The trie that stores nothing. -/
def empty : Trie κ α :=
  .node #[] .nil

/-- Whether there are neither values nor branches. -/
def isEmpty : Trie κ α → Bool
  | .node values .nil => values.isEmpty
  | .node _ (.cons _ _ _) => false

end Trie

mutual

/-- Every stored value with its key sequence; values of one node in the order of `arrange`. -/
def Trie.toListBy (arrange : List α → List α) : Trie κ α → List (List κ × α)
  | .node values branches =>
    (arrange values.toList).map (fun v => ([], v)) ++ branches.toListBy arrange

/-- Every value stored under the branches with its key sequence. -/
def Branches.toListBy (arrange : List α → List α) : Branches κ α → List (List κ × α)
  | .nil => []
  | .cons key child rest =>
    (child.toListBy arrange).map (fun e => (key :: e.1, e.2)) ++ rest.toListBy arrange

end

/-- Every stored value with its key sequence. -/
def Trie.toList (trie : Trie κ α) : List (List κ × α) :=
  trie.toListBy id

/-! ## Insertion -/

/-- A trie that stores one value. -/
def Trie.single : List κ → α → Trie κ α
  | [], value => .node #[value] .nil
  | key :: keys, value => .node #[] (.cons key (Trie.single keys value) .nil)

section Insert

variable [DecidableEq κ] [LT κ] [DecidableLT κ]

mutual

/-- Adds a value under a key sequence, after those that are there. -/
def Trie.insert (trie : Trie κ α) (keys : List κ) (value : α) : Trie κ α :=
  match trie, keys with
  | .node values branches, [] => .node (values.push value) branches
  | .node values branches, key :: keys => .node values (branches.insert key keys value)

/-- Adds a value under the branch `key`, which is opened in its place if there is none. -/
def Branches.insert (branches : Branches κ α) (key : κ) (keys : List κ) (value : α) :
    Branches κ α :=
  match branches with
  | .nil => .cons key (Trie.single keys value) .nil
  | .cons other child rest =>
    if key = other then .cons other (child.insert keys value) rest
    else if key < other then .cons key (Trie.single keys value) (.cons other child rest)
    else .cons other child (rest.insert key keys value)

end

end Insert

/-! ## Removal -/

section Erase

variable [DecidableEq κ] [DecidableEq α]

mutual

/-- Takes out the first copy of a value under a key sequence and prunes branches that become empty;
`none` when the value is not there. -/
def Trie.erase? (trie : Trie κ α) (keys : List κ) (value : α) : Option (Trie κ α) :=
  match trie, keys with
  | .node values branches, [] =>
    match eraseBySwap? values value with
    | some values => some (.node values branches)
    | none => none
  | .node values branches, key :: keys =>
    match branches.erase? key keys value with
    | some branches => some (.node values branches)
    | none => none

/-- Takes a value out of the branch `key`. -/
def Branches.erase? (branches : Branches κ α) (key : κ) (keys : List κ) (value : α) :
    Option (Branches κ α) :=
  match branches with
  | .nil => none
  | .cons other child rest =>
    if key = other then
      match child.erase? keys value with
      | some child => if child.isEmpty then some rest else some (.cons other child rest)
      | none => none
    else
      match rest.erase? key keys value with
      | some rest => some (.cons other child rest)
      | none => none

end

end Erase

/-! ## Range queries -/

mutual

/-- The values on paths whose keys pass the tests in turn. -/
def Trie.filterPaths (tests : List (κ → Bool)) : Trie κ α → List α
  | .node values branches =>
    match tests with
    | [] => values.toList
    | test :: tests => values.toList ++ branches.filterPaths test tests

/-- The values below branches whose key passes `test`, with `tests` for the keys below. -/
def Branches.filterPaths (test : κ → Bool) (tests : List (κ → Bool)) : Branches κ α → List α
  | .nil => []
  | .cons key child rest =>
    (if test key then child.filterPaths tests else []) ++ rest.filterPaths test tests

end

end GivenClause
