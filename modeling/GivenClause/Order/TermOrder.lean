import GivenClause.Order.KnuthBendix

/-! # Orderings on terms

Clauses are compared by the ordering in force, which is a Knuth–Bendix ordering or any other one that is
supplied; only the former has faults. -/

namespace GivenClause

/-- An ordering on terms. -/
inductive TermOrder where
  /-- A Knuth–Bendix ordering. -/
  | kbo (kbo : Kbo)
  /-- Any other way to compare terms. -/
  | custom (compare : Term → Term → Comparison)

namespace TermOrder

instance : Coe Kbo TermOrder := ⟨kbo⟩

/-- Compares two terms. -/
def compare (order : TermOrder) (s t : Term) : Except Fault Comparison :=
  match order with
  | .kbo weights => weights.compare s t
  | .custom compare => .ok (compare s t)

@[simp] theorem compare_kbo (kbo : Kbo) (s t : Term) :
    compare kbo s t = kbo.compare s t := rfl

end TermOrder

end GivenClause
