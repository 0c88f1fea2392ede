import GivenClause.Literal.IndexSet
import GivenClause.Order.Multiset

/-! # Literal selection

A selector picks literals of a clause that inferences must use: by one of the strategies that a
configuration can name, or by any other rule that is supplied.

* `Selection` names the strategies, `Selection.select` gives the indices that one picks;
* `Selector` is what picks, `Selector.select` gives the indices.

A strategy that compares literals shares the faults of the ordering. -/

namespace GivenClause

/-- A strategy for picking literals, as a configuration names it. -/
inductive Selection where
  /-- Picks nothing. -/
  | none
  /-- Picks the heaviest of the negative literals below no other negative literal, leftmost first. -/
  | negMaxWeight
  /-- Picks every negative literal. -/
  | allNegative
deriving DecidableEq, Repr

namespace Selection

/-- All strategies. -/
def strategies : List Selection := [.none, .negMaxWeight, .allNegative]

/-- The name of a strategy. -/
def name : Selection → String
  | .none => "none"
  | .negMaxWeight => "neg_max_weight"
  | .allNegative => "all_negative"

/-- The strategy with a given name. -/
def ofName? (name : String) : Option Selection :=
  strategies.find? fun strategy => strategy.name = name

/-- The negative literals with their indices. -/
def negatives (literals : List Literal) : List (Literal × Nat) :=
  literals.zipIdx.filter fun e => e.1.isNegative

/-- Whether a literal of the list at another index is greater than `e`, tried first to last. -/
def isDominated (order : TermOrder) (e : Literal × Nat) : List (Literal × Nat) → Except Fault Bool
  | [] => .ok false
  | d :: ds =>
    if d.2 = e.2 then isDominated order e ds
    else do
      let c ← order.compareLiterals d.1 e.1
      if c = .gt then .ok true else isDominated order e ds

/-- The members of the second list that no member of `all` dominates. -/
def undominated (order : TermOrder) (all : List (Literal × Nat)) :
    List (Literal × Nat) → Except Fault (List (Literal × Nat))
  | [] => .ok []
  | e :: es => do
    let dominated ← isDominated order e all
    let rest ← undominated order all es
    .ok (if dominated then rest else e :: rest)

/-- The heaviest literal of a list, the first of equally heavy ones. -/
def heaviest? : List (Literal × Nat) → Option (Literal × Nat)
  | [] => .none
  | e :: es =>
    match heaviest? es with
    | .none => some e
    | some best => if best.1.weight ≤ e.1.weight then some e else some best

/-- The indices that a strategy picks. -/
def select (strategy : Selection) (order : TermOrder) (literals : List Literal) : Except Fault LiteralSet :=
  match strategy with
  | .none => .ok .empty
  | .negMaxWeight => do
    let maximal ← undominated order (negatives literals) (negatives literals)
    LiteralSet.ofList ((heaviest? maximal).toList.map (·.2))
  | .allNegative => LiteralSet.ofList ((negatives literals).map (·.2))

end Selection

/-- What picks literals of new clauses. -/
inductive Selector where
  /-- One of the strategies that a configuration can name. -/
  | preset (strategy : Selection)
  /-- Any other rule with its name. It may give indices past the end of the list. -/
  | custom (name : String) (select : List Literal → TermOrder → LiteralSet)

namespace Selector

/-- The name of a selector. -/
def name : Selector → String
  | .preset strategy => strategy.name
  | .custom name _ => name

/-- The indices that a selector picks. -/
def select (selector : Selector) (order : TermOrder) (literals : List Literal) :
    Except Fault LiteralSet :=
  match selector with
  | .preset strategy => strategy.select order literals
  | .custom _ select => .ok (select literals order)

end Selector

end GivenClause
