import GivenClause.Data.InsertionOrder
import GivenClause.Fault
import GivenClause.Order.Comparison
import GivenClause.Term.Symbols

/-! # The Knuth–Bendix ordering

A term is greater than another when it has every variable at least as often and is heavier, or as
heavy with a greater head symbol, or as heavy with the same head and greater in the first argument
that differs.

* `Kbo` gives symbols a weight and a precedence; a symbol weighs at least one;
* `Kbo.exactWeight` is the weight of a term, `Kbo.weight` the same sum in 64-bit arithmetic, which
  faults where the sum does not fit;
* `Kbo.greater` and `Kbo.compare` are the ordering, with the faults of the weights they look at. -/

namespace GivenClause

/-- Weights and precedences of symbols, in 64 bits each. A symbol without an entry weighs one and
has precedence zero. -/
structure Kbo where
  /-- Weights that were set. -/
  weights : List (Symbol × UInt64) := []
  /-- Precedences that were set. -/
  precedences : List (Symbol × UInt64) := []
deriving DecidableEq, Repr

namespace Kbo

/-- The weight of a symbol, at least one. -/
@[inline] def symbolWeight (kbo : Kbo) (symbol : Symbol) : Nat :=
  match kbo.weights.lookup symbol with
  | none => 1
  | some w => max w.toNat 1

/-- The precedence of a symbol. -/
def symbolPrecedence (kbo : Kbo) (symbol : Symbol) : Nat :=
  match kbo.precedences.lookup symbol with
  | none => 0
  | some p => p.toNat

/-! ## Weights -/

/-- Weights must stay below this bound. -/
def weightBound : Nat := UInt64.size

/-- Adds two weights, a fault when the sum does not fit in 64 bits. -/
@[inline] def addWeights (v w : Nat) : Except Fault Nat :=
  if v + w < weightBound then .ok (v + w) else .error .weightOverflow

mutual

/-- The weight of a term: a variable weighs one, a symbol what it was given. -/
def exactWeight (kbo : Kbo) : Term → Nat
  | .var _ => 1
  | .const c => kbo.symbolWeight (.constant c)
  | .app f args => kbo.symbolWeight (.function f.id) + kbo.exactWeightList args

/-- The sum of the weights of an argument list. -/
def exactWeightList (kbo : Kbo) : List Term → Nat
  | [] => 0
  | t :: ts => kbo.exactWeight t + kbo.exactWeightList ts

end

mutual

/-- Adds the weight of a term to `sum`, symbol by symbol, in 64-bit arithmetic. -/
def weightAfter (kbo : Kbo) (sum : Nat) : Term → Except Fault Nat
  | .var _ => addWeights sum 1
  | .const c => addWeights sum (kbo.symbolWeight (.constant c))
  | .app f args => do
    let sum ← addWeights sum (kbo.symbolWeight (.function f.id))
    kbo.weightListAfter sum args

/-- Adds the weights of an argument list to `sum`, first to last, in 64-bit arithmetic. -/
def weightListAfter (kbo : Kbo) (sum : Nat) : List Term → Except Fault Nat
  | [] => .ok sum
  | t :: ts => do
    let sum ← kbo.weightAfter sum t
    kbo.weightListAfter sum ts

end

/-- The weight of a term in 64-bit arithmetic. -/
def weight (kbo : Kbo) (t : Term) : Except Fault Nat :=
  kbo.weightAfter 0 t

/-! ## The ordering -/

/-- By what head symbols are ordered, lexicographically: precedence, constants before functions,
stored arity, number. A variable has the empty key. -/
def headKey (kbo : Kbo) : Term → List Nat
  | .var _ => []
  | .const c => [kbo.symbolPrecedence (.constant c), 0, 0, c]
  | .app f _ => [kbo.symbolPrecedence (.function f.id), 1, f.arity.toNat, f.id]

/-- Whether every variable occurs in `s` at least as often as in `t`. Nothing has to occur in `s` when
`t` is ground. -/
def coversVariables (s t : Term) : Bool :=
  match t.varOccurrences with
  | [] => true
  | x :: xs =>
    let inT := x :: xs
    let inS := s.varOccurrences
    (InsertionOrder.insertAll [] inT).all fun y => inT.count y ≤ inS.count y

/-- Decides `s > t` for different terms that are no variables; `tie` answers where weights and heads
agree. -/
def greaterByWeight (kbo : Kbo) (s t : Term) (tie : Unit → Except Fault Bool) :
    Except Fault Bool :=
  if coversVariables s t then do
    let ws ← kbo.weight s
    let wt ← kbo.weight t
    if ws ≠ wt then .ok (decide (wt < ws))
    else if kbo.headKey s ≠ kbo.headKey t then .ok (decide (kbo.headKey t < kbo.headKey s))
    else tie ()
  else .ok false

mutual

/-- Whether the first term is greater than the second, which is not the same term. A variable is below
exactly the applications that it occurs in. -/
def greater (kbo : Kbo) : Term → Term → Except Fault Bool
  | .var _, _ => .ok false
  | .const _, .var _ => .ok false
  | .app f args, .var x => .ok (decide (x ∈ (TermOver.app f args).varOccurrences))
  | .const c, .const d => kbo.greaterByWeight (.const c) (.const d) fun _ => .ok false
  | .const c, .app g ts => kbo.greaterByWeight (.const c) (.app g ts) fun _ => .ok false
  | .app f ss, .const d => kbo.greaterByWeight (.app f ss) (.const d) fun _ => .ok false
  | .app f ss, .app g ts =>
    kbo.greaterByWeight (.app f ss) (.app g ts) fun _ => kbo.greaterArgs ss ts

/-- Whether the first argument that differs is greater. -/
def greaterArgs (kbo : Kbo) : List Term → List Term → Except Fault Bool
  | s :: ss, t :: ts => if s = t then kbo.greaterArgs ss ts else kbo.greater s t
  | _, _ => .ok false

end

/-- Compares two terms. -/
def compare (kbo : Kbo) (s t : Term) : Except Fault Comparison :=
  if s = t then .ok .eq else do
    if ← kbo.greater s t then .ok .gt
    else if ← kbo.greater t s then .ok .lt
    else .ok .incomparable

end Kbo

end GivenClause
