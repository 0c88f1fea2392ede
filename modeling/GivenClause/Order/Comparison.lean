/-! # Outcomes of a comparison in a partial order -/

namespace GivenClause

/-- How two values compare in a partial order. -/
inductive Comparison where
  /-- The first is smaller. -/
  | lt
  /-- The first is greater. -/
  | gt
  /-- Both are equal. -/
  | eq
  /-- Neither is greater and they differ. -/
  | incomparable
deriving DecidableEq, Repr

namespace Comparison

/-- The outcome with the two values exchanged. -/
def flip : Comparison → Comparison
  | .lt => .gt
  | .gt => .lt
  | .eq => .eq
  | .incomparable => .incomparable

@[simp] theorem flip_flip (c : Comparison) : c.flip.flip = c := by
  cases c <;> rfl

/-- The name of an outcome. -/
def name : Comparison → String
  | .lt => "Lt"
  | .gt => "Gt"
  | .eq => "Eq"
  | .incomparable => "Incomparable"

end Comparison

end GivenClause
