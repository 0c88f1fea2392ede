import GivenClause.Data.InsertionOrder
import GivenClause.Term.Basic

/-! # Literals

A literal is an equation or an atom with a sign, or one of the two truth constants.

* `Literal.sides` lists the terms of a literal with the side they stand on;
* `Literal.weight` counts symbols;
* `Literal.orderingTerms` is the multiset of terms by which literals are compared: a negative literal
  counts every side twice;
* `literalVariables` lists the variables of a literal sequence in order of first occurrence. -/

namespace GivenClause

open InsertionOrder

/-- A side of a literal. The only term of an atom stands on the left. -/
inductive Side where
  /-- The left side. -/
  | left
  /-- The right side. -/
  | right
deriving DecidableEq, Repr, Hashable

/-- The name of a side. -/
def Side.name : Side → String
  | .left => "Left"
  | .right => "Right"

/-- A literal. -/
inductive Literal where
  /-- An equation (`positive`) or a disequation between two terms. -/
  | equation (lhs rhs : Term) (positive : Bool)
  /-- An atom (`positive`) or its negation. -/
  | prop (atom : Term) (positive : Bool)
  /-- The literal that always holds. -/
  | verum
  /-- The literal that never holds. -/
  | falsum
deriving DecidableEq, Repr, Hashable

namespace Literal

/-- Whether the literal is positive. Both truth constants are. -/
def isPositive : Literal → Bool
  | .equation _ _ positive => positive
  | .prop _ positive => positive
  | .verum => true
  | .falsum => true

/-- Whether the literal is negative. -/
def isNegative (lit : Literal) : Bool :=
  !lit.isPositive

/-- Whether the literal is an equation of either sign. -/
def isEquation : Literal → Bool
  | .equation _ _ _ => true
  | _ => false

/-- The literal that holds exactly when this one does not. -/
def complement : Literal → Literal
  | .equation lhs rhs positive => .equation lhs rhs !positive
  | .prop atom positive => .prop atom !positive
  | .verum => .falsum
  | .falsum => .verum

/-- Taking the complement twice gives the literal back. -/
@[simp] theorem complement_complement (lit : Literal) : lit.complement.complement = lit := by
  cases lit <;> simp [complement]

/-- The terms of the literal with their sides, left before right. -/
def sides : Literal → List (Side × Term)
  | .equation lhs rhs _ => [(.left, lhs), (.right, rhs)]
  | .prop atom _ => [(.left, atom)]
  | .verum => []
  | .falsum => []

/-- The term on one side, `none` where there is none. -/
def side? : Literal → Side → Option Term
  | .equation lhs _ _, .left => some lhs
  | .equation _ rhs _, .right => some rhs
  | .prop atom _, .left => some atom
  | _, _ => none

/-- The terms of the literal, left before right. -/
def terms (lit : Literal) : List Term :=
  lit.sides.map (·.2)

/-- Number of symbols; a truth constant counts one. -/
def weight : Literal → Nat
  | .equation lhs rhs _ => lhs.size + rhs.size
  | .prop atom _ => atom.size
  | .verum => 1
  | .falsum => 1

/-- Variable occurrences from left to right, repetitions included. -/
def varOccurrences (lit : Literal) : List Nat :=
  lit.terms.flatMap TermOver.varOccurrences

/-- Whether no variable occurs. -/
def isGround (lit : Literal) : Bool :=
  lit.varOccurrences.isEmpty

/-- The terms by which literals are compared. A negative literal counts every side twice, which
places it just above its complement. -/
def orderingTerms (lit : Literal) : List Term :=
  if lit.isPositive then lit.terms else lit.terms ++ lit.terms

/-- Replaces every term of the literal. -/
def mapTerms (f : Term → Term) : Literal → Literal
  | .equation lhs rhs positive => .equation (f lhs) (f rhs) positive
  | .prop atom positive => .prop (f atom) positive
  | .verum => .verum
  | .falsum => .falsum

end Literal

/-! ## Literal sequences -/

/-- Number of symbols of a literal sequence. -/
def literalsWeight (literals : List Literal) : Nat :=
  literals.foldr (fun lit total => lit.weight + total) 0

/-- The variables of a literal sequence in order of first occurrence, after those already `seen`. -/
def literalVariablesAfter (seen : List Nat) (literals : List Literal) : List Nat :=
  insertAll seen (literals.flatMap Literal.varOccurrences)

/-- The variables of a literal sequence in order of first occurrence. -/
def literalVariables (literals : List Literal) : List Nat :=
  literalVariablesAfter [] literals

/-- Renumbers the variables of a literal sequence 0, 1, … in order of first occurrence, so that
sequences equal up to a renaming become equal. A sequence that is numbered so already is kept. -/
def canonicalLiterals (literals : List Literal) : List Literal :=
  let order := literalVariables literals
  if order.zipIdx.all fun e => e.1 == e.2 then literals
  else literals.map (Literal.mapTerms (Term.mapVars order.idxOf))

end GivenClause
