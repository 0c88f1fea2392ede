/-! # Faults

A fault ends the operation that meets it: the operation was asked for something outside its domain
and hands out no result. `Fault` lists the causes and `Fault.message` the wording of each. -/

namespace GivenClause

/-- Why an operation stopped without a result. -/
inductive Fault where
  /-- A clause number `index` was used in a store of `size` clauses that does not have it. -/
  | unknownClause (size index : Nat)
  /-- A term weight does not fit in 64 bits. -/
  | weightOverflow
  /-- A literal index does not fit in a literal set. -/
  | literalOutOfRange (index : Nat)
  /-- More literals were asked for than a literal set can hold. -/
  | capacityExceeded
  /-- The first element of an empty queue was asked for. -/
  | emptyQueue (name : String)
  /-- An index does not hold an entry that clause `clause` is recorded to have put there. -/
  | missingEntry (index : String) (clause : Nat)
  /-- The table of known clauses led to clause `clause`, which has other literals. -/
  | tableMismatch (clause : Nat)
  /-- All numbers for clauses are taken. -/
  | idsExhausted
  /-- The number of the next epoch does not fit in 32 bits. -/
  | epochOverflow
deriving DecidableEq, Repr

/-- The wording of a fault. -/
def Fault.message : Fault → String
  | .unknownClause size index =>
    s!"index out of bounds: the len is {size} but the index is {index}"
  | .weightOverflow => "attempt to add with overflow"
  | .literalOutOfRange index => s!"literal index {index} out of range"
  | .capacityExceeded => "assertion failed: len <= Self::CAPACITY"
  | .emptyQueue name => s!"take_first on empty queue {name}"
  | .missingEntry index clause => s!"{index} entry for #{clause} missing"
  | .tableMismatch clause =>
    s!"hashcons table returned #{clause} for a different literal sequence"
  | .idsExhausted => "clause id space exhausted: TryFromIntError(())"
  | .epochOverflow => "attempt to add with overflow"

/-- A computation in two steps has a result exactly when both steps have one. -/
theorem Fault.bind_eq_ok {α β : Type} {first : Except Fault α} {next : α → Except Fault β}
    {result : β} :
    first >>= next = .ok result ↔ ∃ value, first = .ok value ∧ next value = .ok result := by
  cases first with
  | error fault => exact ⟨nofun, nofun⟩
  | ok value => exact ⟨fun h => ⟨value, rfl, h⟩, fun ⟨_, hvalue, h⟩ => by cases hvalue; exact h⟩

end GivenClause
