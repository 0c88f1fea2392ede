import Std.Data.HashMap
import GivenClause.Clause.Basic

/-! # The clause store

The store owns every clause of a run. Clauses are shared: making a clause whose literals, up to
renaming of variables, were already made in the current epoch gives the clause that exists. A change
of ordering or selector opens a new epoch. Numbers of clauses and of epochs have 32 bits.

* `ClauseStore.create` makes or finds a clause; literal sequences that are too long become the trivial
  clause and mark the store incomplete;
* `ClauseStore.rederive` makes a clause of an earlier epoch again in the current one;
* `ClauseStore.get` looks a clause up, with a fault for a number that is not in the store.

An operation that can stop with a fault gives the store as it is at that point next to its result. -/

namespace GivenClause

open InsertionOrder

/-- What clauses are shared by: canonical literals and the epoch they were made in. -/
structure ClauseKey where
  /-- Literals with variables numbered in order of first occurrence. -/
  literals : List Literal
  /-- The epoch. -/
  epoch : Nat
deriving DecidableEq, Hashable

/-- Counters of a clause store. -/
structure StoreStats where
  /-- Clauses made. -/
  created : Nat := 0
  /-- Requests answered by an existing clause. -/
  hits : Nat := 0
  /-- Requests for clauses that are too long. -/
  oversized : Nat := 0
deriving DecidableEq, Repr

/-- All clauses of a run, with the ordering and the selector in force. -/
structure ClauseStore where
  /-- The clauses; the number of a clause is its position. -/
  clauses : Array Clause
  /-- Known clauses by key. -/
  table : Std.HashMap ClauseKey ClauseId
  /-- The ordering in force. -/
  ordering : TermOrder
  /-- The selector in force. -/
  selector : Selector
  /-- Number of changes of ordering or selector so far. -/
  epoch : Nat
  /-- Whether a clause was ever dropped for being too long. -/
  incomplete : Bool
  /-- Counters. -/
  stats : StoreStats

/-- What a new clause is made from. -/
structure ClauseInput where
  /-- The literals. -/
  literals : List Literal
  /-- How the clause came about. -/
  provenance : Provenance
  /-- The clauses it is derived from. -/
  parents : List ClauseId := []
  /-- A selection that overrides the selector. -/
  selected : Option LiteralSet := none

namespace ClauseStore

/-- The clause that always holds, made first in every store. It stands for clauses that are too
long. -/
def trivial : ClauseId := 0

/-- Number of clauses, the trivial one included. -/
def size (store : ClauseStore) : Nat :=
  store.clauses.size

/-- The clause with a given number, if there is one. -/
def get? (store : ClauseStore) (id : ClauseId) : Option Clause :=
  store.clauses[id]?

/-- The clause with a given number, a fault when there is none. -/
def get (store : ClauseStore) (id : ClauseId) : Except Fault Clause :=
  match store.get? id with
  | some clause => .ok clause
  | none => .error (.unknownClause store.size id)

/-! ## Making clauses -/

/-- Numbers of clauses stay below this bound. -/
def idBound : Nat := UInt32.size

/-- The number of the next clause, a fault when all numbers are taken. -/
def nextId (store : ClauseStore) : Except Fault ClauseId :=
  if store.size < idBound then .ok store.size else .error .idsExhausted

/-- The selection of a new clause: the given one or the selector's, indices past the end dropped. -/
def selectionFor (store : ClauseStore) (literals : List Literal) :
    Option LiteralSet → Except Fault LiteralSet
  | some explicit => .ok (explicit.truncate literals.length)
  | none => do
    let selected ← store.selector.select store.ordering literals
    .ok (selected.truncate literals.length)

/-- The goal distances of clauses, first to last; the first unknown clause is the fault. -/
def distances (store : ClauseStore) : List ClauseId → Except Fault (List (Option Nat))
  | [] => .ok []
  | id :: ids => do
    let clause ← store.get id
    let rest ← store.distances ids
    .ok (clause.distance :: rest)

/-- The goal distance of a new clause: zero for a goal, else one more than its nearest parent. -/
def distanceFor (store : ClauseStore) (role : ClauseRole) (parents : List ClauseId) :
    Except Fault (Option Nat) :=
  if role = .negatedConjecture then .ok (some 0)
  else do
    let known ← store.distances parents
    .ok ((known.filterMap fun d => d).min?.map (· + 1))

/-- Enters `id` as a descendant of each parent in turn, up to the first unknown one. -/
def linkParents (clauses : Array Clause) (id : ClauseId) :
    List ClauseId → Array Clause × Option Fault
  | [] => (clauses, none)
  | parent :: parents =>
    if parent < clauses.size then
      linkParents
        (clauses.modify parent fun c => { c with descendants := insertNew c.descendants id })
        id parents
    else (clauses, some (.unknownClause clauses.size parent))

/-- Makes a clause that is not known yet from canonical literals. -/
def createNew (store : ClauseStore) (input : ClauseInput) (literals : List Literal) :
    ClauseStore × Except Fault ClauseId :=
  match store.nextId with
  | .error fault => (store, .error fault)
  | .ok id =>
    match store.selectionFor literals input.selected with
    | .error fault => (store, .error fault)
    | .ok selected =>
      match store.distanceFor input.provenance.role input.parents with
      | .error fault => (store, .error fault)
      | .ok distance =>
        match linkParents store.clauses id input.parents with
        | (clauses, some fault) => ({ store with clauses }, .error fault)
        | (clauses, none) =>
          let vars := literalVariables literals
          let clause : Clause :=
            { id, literals, selected
              flags := ClauseFlags.of vars input.provenance
              weight := literalsWeight literals
              vars
              parents := input.parents
              descendants := []
              provenance := input.provenance
              distance
              epoch := store.epoch }
          ({ store with
              clauses := clauses.push clause
              table := store.table.insert ⟨literals, store.epoch⟩ id
              stats := { store.stats with created := store.stats.created + 1 } },
            .ok id)

/-- Makes or finds the clause with the given literals. -/
def create (store : ClauseStore) (input : ClauseInput) : ClauseStore × Except Fault ClauseId :=
  if LiteralSet.capacity < input.literals.length then
    ({ store with
        incomplete := true
        stats := { store.stats with oversized := store.stats.oversized + 1 } },
      .ok trivial)
  else
    let literals := canonicalLiterals input.literals
    match store.table[(⟨literals, store.epoch⟩ : ClauseKey)]? with
    | some id =>
      match store.get id with
      | .error fault => (store, .error fault)
      | .ok clause =>
        if clause.literals = literals then
          ({ store with stats := { store.stats with hits := store.stats.hits + 1 } }, .ok id)
        else (store, .error (.tableMismatch id))
    | none => store.createNew input literals

/-- A store without clauses. -/
def bare (ordering : TermOrder) (selector : Selector) : ClauseStore where
  clauses := #[]
  table := ∅
  ordering := ordering
  selector := selector
  epoch := 0
  incomplete := false
  stats := {}

/-- A new store, which holds the trivial clause. -/
def new (ordering : TermOrder) (selector : Selector) : ClauseStore :=
  ((bare ordering selector).create
    { literals := [.verum], provenance := (Provenance.input .axiomatic).persist }).1

/-! ## Epochs -/

/-- Numbers of epochs stay below this bound. -/
def epochBound : Nat := UInt32.size

/-- Opens the next epoch, a fault when its number does not fit. -/
def nextEpoch (store : ClauseStore) : ClauseStore × Except Fault Unit :=
  if store.epoch + 1 < epochBound then ({ store with epoch := store.epoch + 1 }, .ok ())
  else (store, .error .epochOverflow)

/-- Changes the ordering, then opens an epoch. Clauses keep their selection. -/
def setOrdering (store : ClauseStore) (ordering : TermOrder) : ClauseStore × Except Fault Unit :=
  { store with ordering }.nextEpoch

/-- Changes the selector, then opens an epoch. Clauses keep their selection. -/
def setSelector (store : ClauseStore) (selector : Selector) : ClauseStore × Except Fault Unit :=
  { store with selector }.nextEpoch

/-- Makes a clause of an earlier epoch again; a clause of the current epoch stays as it is. -/
def rederive (store : ClauseStore) (id : ClauseId) : ClauseStore × Except Fault ClauseId :=
  match store.get id with
  | .error fault => (store, .error fault)
  | .ok clause =>
    if clause.epoch = store.epoch then (store, .ok id)
    else
      store.create
        { literals := clause.literals, provenance := clause.provenance, parents := clause.parents }

/-! ## Descendants -/

/-- Adds `extra` to the descendants of `id`, which never becomes its own descendant. -/
def extendDescendants (store : ClauseStore) (id : ClauseId) (extra : List ClauseId) : ClauseStore :=
  { store with
    clauses := store.clauses.modify id fun c =>
      { c with descendants := insertAll c.descendants (extra.filter (· ≠ id)) } }

end ClauseStore

end GivenClause
