import GivenClause.Clause.Basic
import GivenClause.Error

/-! # Clause weights

Queues hand out light clauses first. A weight is a 64-bit number; sums and products stop at the
largest one.

* `WeightFunction.weigh` gives the weight of a clause;
* `WeightFunction.combine` builds a weighted sum and refuses a coefficient of zero;
* `WeightFunction.text` names a weight function. -/

namespace GivenClause

/-- How clauses are weighed. -/
inductive WeightFunction where
  /-- The number of the clause, so older clauses come first; the empty clause weighs nothing. -/
  | age
  /-- Symbols, those of positive literals twice, plus one for each literal. -/
  | symbols
  /-- The symbol weight times one more than the distance to a goal, which counts up to `threshold`
  and as `threshold` where no goal is an ancestor. -/
  | favorGoal (threshold : Nat)
  /-- The sum of weights times coefficients. -/
  | sum (parts : List (WeightFunction × Nat))
  /-- Any other function of the clause. -/
  | custom (weigh : Clause → UInt64)

namespace WeightFunction

/-- The goal distance from which on all clauses weigh the same, unless set otherwise. -/
def defaultThreshold : Nat := 10

/-- The largest weight. -/
def maxWeight : Nat := UInt64.size - 1

/-- A weight that stops at the largest one. -/
def clamp (n : Nat) : Nat :=
  min n maxWeight

/-- Symbols of a clause, those of positive literals twice, plus one for each literal. -/
def symbolWeight (clause : Clause) : Nat :=
  clause.literals.foldr
      (fun lit total => (if lit.isPositive then 2 * lit.weight else lit.weight) + total) 0 +
    clause.length

mutual

/-- The weight of a clause. -/
def weigh (clause : Clause) : WeightFunction → Nat
  | .age => if clause.isEmpty then 0 else clause.id
  | .symbols => symbolWeight clause
  | .favorGoal threshold =>
    clamp (symbolWeight clause * (min (clause.distance.getD threshold) threshold + 1))
  | .sum parts => weighParts clause 0 parts
  | .custom weigh => (weigh clause).toNat

/-- Adds the weights of parts to `total`, first to last. -/
def weighParts (clause : Clause) (total : Nat) : List (WeightFunction × Nat) → Nat
  | [] => total
  | (part, coefficient) :: parts =>
    weighParts clause (clamp (total + clamp (weigh clause part * coefficient))) parts

end

mutual

/-- The name of a weight function. -/
def text : WeightFunction → String
  | .age => "Age"
  | .symbols => "Default"
  | .favorGoal threshold => "FavorConjecture(" ++ toString threshold ++ ")"
  | .sum parts => "[" ++ String.intercalate ", " (partTexts parts) ++ "]"
  | .custom _ => "Custom"

/-- The names of parts with their coefficients. -/
def partTexts : List (WeightFunction × Nat) → List String
  | [] => []
  | (part, coefficient) :: parts =>
    ("(" ++ text part ++ ", " ++ toString coefficient ++ ")") :: partTexts parts

end

/-- A weighted sum; the first part with coefficient zero is an error. -/
def combine (parts : List (WeightFunction × Nat)) : Except ConfigError WeightFunction :=
  match parts.find? fun part => part.2 = 0 with
  | some part => .error (.zeroCoefficient part.1.text)
  | none => .ok (.sum parts)

end WeightFunction

end GivenClause
