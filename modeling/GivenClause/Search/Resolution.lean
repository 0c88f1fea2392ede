import GivenClause.Search.ProofState
import GivenClause.Unify.Robinson

/-! # Saturation by binary resolution

A minimal given-clause loop: the given clause is resolved with every active clause, itself included,
on eligible literals that stay eligible under the unifier.

* `ClauseStore.resolve` makes all resolvents of two clauses;
* `ProofState.saturate` runs the loop for a number of rounds. -/

namespace GivenClause

/-- The members of a list at other positions than `i`. -/
def othersThan (i : Nat) (literals : List Literal) : List Literal :=
  literals.eraseIdx i

/-- The literals of a resolvent: those of the given clause but `i` in scope 0, then those of its
partner but `j` in scope 1, with one numbering of variables. -/
def resolventLiterals (σ : Substitution) (given : List Literal) (i : Nat) (partner : List Literal)
    (j : Nat) : List Literal :=
  let (left, ρ) := instantiateLiterals σ 0 {} (othersThan i given)
  let (right, _) := instantiateLiterals σ 1 ρ (othersThan j partner)
  left ++ right

/-- A most general unifier of two atoms with opposite signs, the first in scope 0, the second in
scope 1. -/
def Literal.resolvingUnifier? : Literal → Literal → Option Substitution
  | .prop a positive, .prop b positive' =>
    if positive = positive' then none
    else
      match unify a 0 b 1 with
      | .ok σ => some σ
      | .error _ => none
  | _, _ => none

namespace ClauseStore

/-- Resolves two clauses on one pair of literals, given with their indices, if the pair resolves and
both literals stay eligible under the unifier. -/
def resolveOn (store : ClauseStore) (given partner : Clause) (a b : Literal × Nat) :
    Except Fault (ClauseStore × Option ClauseId) :=
  match a.1.resolvingUnifier? b.1 with
  | none => .ok (store, none)
  | some σ => do
    let eligible ← store.isMaximalLiteral given.id σ 0 a.2
    let eligible ← if eligible then store.isMaximalLiteral partner.id σ 1 b.2 else .ok false
    if eligible then
      let (store, made) := store.create
        { literals := resolventLiterals σ given.literals a.2 partner.literals b.2
          provenance := .derived "resolution"
          parents := [given.id, partner.id] }
      let id ← made
      .ok (store, some id)
    else .ok (store, none)

/-- Resolves two clauses on pairs of literals, one after the other. -/
def resolvePairs (store : ClauseStore) (given partner : Clause) :
    List ((Literal × Nat) × (Literal × Nat)) → Except Fault (ClauseStore × List ClauseId)
  | [] => .ok (store, [])
  | (a, b) :: pairs => do
    let (store, made) ← store.resolveOn given partner a b
    let (store, ids) ← store.resolvePairs given partner pairs
    .ok (store, made.toList ++ ids)

/-- Makes all resolvents of a given clause with a partner on eligible literals. -/
def resolve (store : ClauseStore) (given partner : ClauseId) :
    Except Fault (ClauseStore × List ClauseId) := do
  let givenEligible ← store.eligibleForResolution given .empty 0
  let partnerEligible ← store.eligibleForResolution partner .empty 1
  let given ← store.get given
  let partner ← store.get partner
  let pairs := (literalsIn givenEligible given.literals).flatMap fun a =>
    (literalsIn partnerEligible partner.literals).map fun b => (a, b)
  store.resolvePairs given partner pairs

end ClauseStore

/-! ## The loop -/

/-- How a run of the loop ended. -/
inductive SaturationResult where
  /-- No clause was left to give. -/
  | exhausted (verdict : Verdict)
  /-- The empty clause was made. -/
  | refuted (id : ClauseId)
  /-- The rounds ran out. -/
  | limit
deriving DecidableEq, Repr

/-- One round: the given clause and the conclusions drawn. -/
structure SaturationRound where
  /-- The given clause. -/
  given : ClauseId
  /-- The conclusions up to the empty clause, in order. -/
  conclusions : List ClauseId
deriving DecidableEq, Repr

namespace ProofState

/-- Takes conclusions in turn: the empty clause ends the run, others wait unless they are active.
Gives the conclusions looked at and the empty clause if it was met. -/
def takeConclusions (state : ProofState) :
    List ClauseId → Except Fault (ProofState × List ClauseId × Option ClauseId)
  | [] => .ok (state, [], none)
  | id :: ids => do
    let clause ← state.store.get id
    if clause.isEmpty then .ok (state, [id], some id)
    else
      let passive ←
        if state.active.contains id then .ok state.passive
        else
          let (passive, added) := state.passive.add state.store [id]
          do
            let _ ← added
            .ok passive
      let (state, seen, empty) ← { state with passive }.takeConclusions ids
      .ok (state, id :: seen, empty)

/-- Resolves the given clause with partners in turn until the empty clause is made. -/
def resolveWithAll (state : ProofState) (given : ClauseId) :
    List ClauseId → Except Fault (ProofState × List ClauseId × Option ClauseId)
  | [] => .ok (state, [], none)
  | partner :: partners => do
    let (store, ids) ← state.store.resolve given partner
    let (state, seen, empty) ← { state with store }.takeConclusions ids
    match empty with
    | some id => .ok (state, seen, some id)
    | none =>
      let (state, rest, empty) ← state.resolveWithAll given partners
      .ok (state, seen ++ rest, empty)

/-- Runs the loop for at most `rounds` rounds: the state reached, how the run ended, and its
rounds. -/
def saturate (state : ProofState) :
    (rounds : Nat) → Except Fault (ProofState × SaturationResult × List SaturationRound)
  | 0 => .ok (state, .limit, [])
  | rounds + 1 =>
    match state.nextGiven with
    | (state, none) => .ok (state, .exhausted state.verdict, [])
    | (state, some given) => do
      let state ← state.activate [given]
      let (state, conclusions, empty) ← state.resolveWithAll given state.active.ids
      match empty with
      | some id => .ok (state, .refuted id, [⟨given, conclusions⟩])
      | none =>
        let (state, result, log) ← state.saturate rounds
        .ok (state, result, ⟨given, conclusions⟩ :: log)

end ProofState

end GivenClause
