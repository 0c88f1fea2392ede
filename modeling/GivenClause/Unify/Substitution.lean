import GivenClause.Data.InsertionOrder
import GivenClause.Literal.Basic

/-! # Scoped substitutions

Variables of different premises are kept apart by a scope. A substitution binds scoped variables to
scoped terms in triangular form: a bound variable may occur in what another is bound to, and applying
the substitution follows such chains to their end.

* `Substitution.apply` follows every chain; on an `Acyclic` substitution nothing bound remains;
* `Renaming` numbers the surviving variables in order of first occurrence;
* `instantiate` lifts a term into a scope, applies a substitution and renames the result. -/

namespace GivenClause

open InsertionOrder

/-- A variable of one premise. -/
structure ScopedVar where
  /-- The premise it belongs to. -/
  scope : Nat
  /-- Its number within the premise. -/
  var : Nat
deriving DecidableEq, Repr, Hashable

/-- Terms over scoped variables. Arities are not stored. -/
abbrev ScopedTerm := TermOver ScopedVar Nat

/-- A term read within a scope. -/
def Term.lift (scope : Nat) (t : Term) : ScopedTerm :=
  t.map (fun x => ⟨scope, x⟩) fun symbol _ => symbol.id

/-- Bindings of scoped variables, at most one for each variable. -/
structure Substitution where
  /-- The bindings, newest first. -/
  bindings : List (ScopedVar × ScopedTerm) := []
deriving DecidableEq, Repr

namespace Substitution

/-- The substitution that binds nothing. -/
def empty : Substitution := ⟨[]⟩

/-- Whether nothing is bound. -/
def isEmpty (σ : Substitution) : Bool :=
  σ.bindings.isEmpty

/-- How many variables are bound. -/
def size (σ : Substitution) : Nat :=
  σ.bindings.length

/-- What a variable is bound to. -/
def find? (σ : Substitution) (v : ScopedVar) : Option ScopedTerm :=
  σ.bindings.lookup v

/-- Binds a variable; an earlier binding of it is replaced. -/
def insert (σ : Substitution) (v : ScopedVar) (t : ScopedTerm) : Substitution :=
  ⟨(v, t) :: σ.bindings.filter fun b => b.1 ≠ v⟩

/-! ## Application -/

/-- What a variable stands for after following at most `depth` bindings in a row. -/
def resolve (σ : Substitution) : (depth : Nat) → ScopedVar → ScopedTerm
  | 0, v => .var v
  | depth + 1, v =>
    match σ.find? v with
    | none => .var v
    | some t => t.bind (σ.resolve depth)

/-- Applies a substitution until no bound variable remains. A chain of bindings without repetition
is no longer than the number of bindings, so that depth is enough when no chain is cyclic. -/
def apply (σ : Substitution) (t : ScopedTerm) : ScopedTerm :=
  t.bind (σ.resolve σ.size)

/-- Whether `v` occurs in `t` after following at most `depth` bindings in a row. -/
def reaches (σ : Substitution) (v : ScopedVar) : (depth : Nat) → ScopedTerm → Bool
  | 0, t => t.varOccurrences.any fun w => w = v
  | depth + 1, t =>
    t.varOccurrences.any fun w =>
      w = v || match σ.find? w with
        | none => false
        | some u => σ.reaches v depth u

/-- Whether `v` occurs in `t` or in anything that the variables of `t` are bound to. -/
def occurs (σ : Substitution) (v : ScopedVar) (t : ScopedTerm) : Bool :=
  σ.reaches v σ.size t

/-- One variable leads to another through its binding. -/
def Step (σ : Substitution) (v w : ScopedVar) : Prop :=
  ∃ t, σ.find? v = some t ∧ w ∈ t.varOccurrences

/-- No chain of bindings goes on forever: bound variables lead to smaller ranks. -/
def Acyclic (σ : Substitution) : Prop :=
  ∃ rank : ScopedVar → Nat, ∀ v w, σ.Step v w → rank w < rank v

end Substitution

/-! ## Renaming -/

/-- Scoped variables in the order in which they were first met; the number of a variable is its
position. -/
structure Renaming where
  /-- The variables, each once. -/
  order : List ScopedVar := []
deriving DecidableEq, Repr

namespace Renaming

/-- How many variables have a number. -/
def size (ρ : Renaming) : Nat :=
  ρ.order.length

/-- The number of a variable. -/
def number (ρ : Renaming) (v : ScopedVar) : Nat :=
  ρ.order.idxOf v

/-- Gives the next numbers to the variables of `t` that have none, from left to right. -/
def extend (ρ : Renaming) (t : ScopedTerm) : Renaming :=
  ⟨insertAll ρ.order t.varOccurrences⟩

/-- Writes a scoped term as a plain one: variables become their numbers and stored arities the
number of arguments modulo 256. -/
def flatten (ρ : Renaming) (t : ScopedTerm) : Term :=
  t.map ρ.number fun f count => ⟨f, count.toUInt8⟩

end Renaming

/-! ## Instantiation -/

/-- A term of a scope under a substitution, with the numbering of variables it continues. -/
def instantiate (σ : Substitution) (scope : Nat) (ρ : Renaming) (t : Term) : Term × Renaming :=
  let applied := σ.apply (t.lift scope)
  let ρ := ρ.extend applied
  (ρ.flatten applied, ρ)

/-- A literal of a scope under a substitution, left side first. -/
def Literal.instantiate (σ : Substitution) (scope : Nat) (ρ : Renaming) :
    Literal → Literal × Renaming
  | .equation lhs rhs positive =>
    let (lhs, ρ) := GivenClause.instantiate σ scope ρ lhs
    let (rhs, ρ) := GivenClause.instantiate σ scope ρ rhs
    (.equation lhs rhs positive, ρ)
  | .prop atom positive =>
    let (atom, ρ) := GivenClause.instantiate σ scope ρ atom
    (.prop atom positive, ρ)
  | .verum => (.verum, ρ)
  | .falsum => (.falsum, ρ)

/-- A literal sequence of a scope under a substitution with one numbering throughout. -/
def instantiateLiterals (σ : Substitution) (scope : Nat) (ρ : Renaming) :
    List Literal → List Literal × Renaming
  | [] => ([], ρ)
  | lit :: literals =>
    let (lit, ρ) := lit.instantiate σ scope ρ
    let (literals, ρ) := instantiateLiterals σ scope ρ literals
    (lit :: literals, ρ)

end GivenClause
