import GivenClause.Clause.Basic

/-! # Which clauses a queue takes in -/

namespace GivenClause

/-- A condition on the clauses of a queue. -/
inductive Acceptance where
  /-- Every clause. -/
  | all
  /-- Clauses whose literals are all negative. -/
  | goals
  /-- Clauses whose literals are all positive. -/
  | nonGoals
  /-- Clauses without variables. -/
  | ground
  /-- Clauses with one literal, a positive one. -/
  | positiveUnit
  /-- Clauses with at most one positive literal. -/
  | horn
  /-- Lemmas. -/
  | lemmas
  /-- Any other condition. -/
  | custom (accepts : Clause → Bool)

namespace Acceptance

/-- Whether a clause meets the condition. -/
def accepts (clause : Clause) : Acceptance → Bool
  | .all => true
  | .goals => clause.literals.all Literal.isNegative
  | .nonGoals => clause.literals.all Literal.isPositive
  | .ground => clause.isGround
  | .positiveUnit => clause.isUnit && clause.literals.all Literal.isPositive
  | .horn => clause.positiveCount ≤ 1
  | .lemmas => clause.isLemma
  | .custom accepts => accepts clause

/-- The name of a condition. -/
def text : Acceptance → String
  | .all => "All"
  | .goals => "Goals"
  | .nonGoals => "NonGoals"
  | .ground => "Ground"
  | .positiveUnit => "PosUnit"
  | .horn => "Horn"
  | .lemmas => "Lemmas"
  | .custom _ => "Custom"

end Acceptance

end GivenClause
