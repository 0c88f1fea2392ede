import GivenClause.Data.SwapRemove
import GivenClause.Literal.Basic
import GivenClause.Order.TermOrder

/-! # The multiset extension and the order on literals

After equal members are cancelled, one multiset is greater than another when each remaining member of
the other lies below some remaining member of it. Literals compare as the multisets of their terms.

Comparisons are made one after the other and only as far as they decide the answer, so a fault shows
exactly when a comparison that was needed faults. -/

namespace GivenClause.TermOrder

/-- Whether some member of `xs` is greater than `y`; members are tried first to last. -/
def anyGreater (order : TermOrder) (y : Term) : List Term → Except Fault Bool
  | [] => .ok false
  | x :: xs => do
    let c ← order.compare x y
    if c = .gt then .ok true else order.anyGreater y xs

/-- Whether each member of the second list lies below some member of `xs`. -/
def dominates (order : TermOrder) (xs : List Term) : List Term → Except Fault Bool
  | [] => .ok true
  | y :: ys => do
    if ← order.anyGreater y xs then order.dominates xs ys else .ok false

/-- Cancels equal members of `m` and `n`: what remains of each. -/
def cancelCommon (m n : List Term) : List Term × List Term :=
  n.foldl
    (fun rest t =>
      match swapRemoveFirst? rest.1 t with
      | some m => (m, rest.2)
      | none => (rest.1, rest.2 ++ [t]))
    (m, [])

/-- Compares two multisets of terms given as lists. -/
def compareMultisets (order : TermOrder) (m n : List Term) : Except Fault Comparison :=
  match cancelCommon m n with
  | ([], []) => .ok .eq
  | (mRest, nRest) => do
    if ← order.dominates mRest nRest then .ok .gt
    else if ← order.dominates nRest mRest then .ok .lt
    else .ok .incomparable

/-- Compares two literals as the multisets of their terms. -/
def compareLiterals (order : TermOrder) (a b : Literal) : Except Fault Comparison :=
  order.compareMultisets a.orderingTerms b.orderingTerms

end GivenClause.TermOrder
