import GivenClause.Literal.Selection

/-! # Clauses

A clause is a numbered sequence of literals together with what is known about it: the selected
literals, where it came from, how far it is from a goal, and which clauses were derived from it.
Only the list of descendants ever changes after a clause is made, and it only grows.

* `Provenance` says how a clause came about, `Clause` is the record itself;
* `Clause.flags` summarises ground, lemma and persistent clauses in bits. -/

namespace GivenClause

/-- Number of a clause. Numbers are dense and follow the order of creation. -/
abbrev ClauseId := Nat

/-- The part a clause plays in a proof. -/
inductive ClauseRole where
  /-- An axiom. -/
  | axiomatic
  /-- A hypothesis. -/
  | hypothesis
  /-- A definition. -/
  | definition
  /-- The negated conjecture: a goal. -/
  | negatedConjecture
  /-- An auxiliary lemma. -/
  | auxiliary
  /-- The conclusion of an inference. -/
  | derived
deriving DecidableEq, Repr

namespace ClauseRole

/-- All roles. -/
def roles : List ClauseRole :=
  [.axiomatic, .hypothesis, .definition, .negatedConjecture, .auxiliary, .derived]

/-- The name of a role. -/
def name : ClauseRole → String
  | .axiomatic => "axiom"
  | .hypothesis => "hypothesis"
  | .definition => "definition"
  | .negatedConjecture => "negated_conjecture"
  | .auxiliary => "lemma"
  | .derived => "derived"

/-- The role with a given name. -/
def ofName? (name : String) : Option ClauseRole :=
  roles.find? fun role => role.name = name

end ClauseRole

/-- How a clause came about. -/
structure Provenance where
  /-- The part it plays. -/
  role : ClauseRole
  /-- The rule that produced it, or `input`. -/
  rule : String
  /-- Whether it survives backtracking. -/
  persistent : Bool := false
deriving DecidableEq, Repr

namespace Provenance

/-- An input clause. -/
def input (role : ClauseRole) : Provenance where
  role := role
  rule := "input"

/-- The conclusion of a rule. -/
def derived (rule : String) : Provenance where
  role := .derived
  rule := rule

/-- A lemma found by a rule. -/
def auxiliary (rule : String) : Provenance where
  role := .auxiliary
  rule := rule

/-- The same provenance for a clause that survives backtracking. -/
def persist (provenance : Provenance) : Provenance :=
  { provenance with persistent := true }

end Provenance

/-- A summary of a clause in bits. -/
structure ClauseFlags where
  /-- The bits. -/
  bits : UInt8
deriving DecidableEq, Repr

namespace ClauseFlags

/-- No flag. -/
def empty : ClauseFlags := ⟨0⟩

/-- The clause has no variables. -/
def ground : ClauseFlags := ⟨1⟩

/-- The clause is a lemma. -/
def auxiliary : ClauseFlags := ⟨2⟩

/-- The clause survives backtracking. -/
def persistent : ClauseFlags := ⟨4⟩

/-- Whether all of the flags `other` are set. -/
def contains (flags other : ClauseFlags) : Bool :=
  flags.bits &&& other.bits = other.bits

/-- Sets the flags `other` when `condition` holds. -/
def insertIf (flags : ClauseFlags) (condition : Bool) (other : ClauseFlags) : ClauseFlags :=
  if condition then ⟨flags.bits ||| other.bits⟩ else flags

/-- The flags of a clause with the given variables and provenance. -/
def of (vars : List Nat) (provenance : Provenance) : ClauseFlags :=
  ((empty.insertIf vars.isEmpty ground).insertIf (provenance.role = .auxiliary) auxiliary).insertIf
    provenance.persistent persistent

end ClauseFlags

/-- A clause as it is stored. -/
structure Clause where
  /-- Its number. -/
  id : ClauseId
  /-- Its literals, variables numbered in order of first occurrence. -/
  literals : List Literal
  /-- The selected literals. -/
  selected : LiteralSet
  /-- Ground, lemma and persistent bits. -/
  flags : ClauseFlags
  /-- Number of symbols. -/
  weight : Nat
  /-- Its variables in order of first occurrence. -/
  vars : List Nat
  /-- The clauses it was derived from. -/
  parents : List ClauseId
  /-- The clauses derived from it, in order of first mention. -/
  descendants : List ClauseId
  /-- How it came about. -/
  provenance : Provenance
  /-- Number of derivation steps from the nearest goal, `none` when no goal is an ancestor. -/
  distance : Option Nat
  /-- The ordering epoch it was made in. -/
  epoch : Nat
deriving DecidableEq, Repr

namespace Clause

/-- Number of literals. -/
def length (clause : Clause) : Nat :=
  clause.literals.length

/-- Whether it is the empty clause, a contradiction. -/
def isEmpty (clause : Clause) : Bool :=
  clause.literals.isEmpty

/-- Whether it has exactly one literal. -/
def isUnit (clause : Clause) : Bool :=
  clause.literals.length = 1

/-- Whether it is flagged as ground. -/
def isGround (clause : Clause) : Bool :=
  clause.flags.contains .ground

/-- Whether it is flagged as a lemma. -/
def isLemma (clause : Clause) : Bool :=
  clause.flags.contains .auxiliary

/-- Whether it is flagged as persistent. -/
def isPersistent (clause : Clause) : Bool :=
  clause.flags.contains .persistent

/-- Number of positive literals. -/
def positiveCount (clause : Clause) : Nat :=
  clause.literals.countP Literal.isPositive

/-- Indices of the positive literals. -/
def positiveLiterals (clause : Clause) : LiteralSet :=
  (Selection.negatives clause.literals).foldl (fun set e => set.erase e.2)
    (LiteralSet.below clause.length)

end Clause

end GivenClause
