import GivenClause.Term.Symbols

/-! # Terms as text

A term is written with the names of a symbol table (`Term.text`) or, without one, with the numbers of
its symbols (`Term.rawText`). Variables are `X0`, `X1`, … in both.

* `Spelling` tells how symbols are written, `Spelling.pieces` lists the parts of the text in order;
* `Spelling.text` puts the parts together. -/

namespace GivenClause

/-- A variable as text. -/
def variableText (id : Nat) : String :=
  s!"X{id}"

/-- A constant's number as text. -/
def constantText (id : Nat) : String :=
  s!"c{id}"

/-- A function's number as text. -/
def functionText (id : Nat) : String :=
  s!"f{id}"

/-! ## Spelling -/

/-- How the symbols of a term are written. -/
structure Spelling (ν φ : Type) where
  /-- A variable as text. -/
  ofVar : ν → String
  /-- A constant as text. -/
  ofConst : Nat → String
  /-- A function symbol as text. -/
  ofFunction : φ → String
  /-- Whether an application without arguments has parentheses. -/
  emptyParentheses : Bool

namespace Spelling

variable {ν φ : Type}

mutual

/-- The parts of the text of a term, in front of `tail`: arguments stand in parentheses and are
divided by commas. -/
def pieces (spelling : Spelling ν φ) : TermOver ν φ → (tail : List String) → List String
  | .var v, tail => spelling.ofVar v :: tail
  | .const c, tail => spelling.ofConst c :: tail
  | .app f [], tail =>
    spelling.ofFunction f :: if spelling.emptyParentheses then "()" :: tail else tail
  | .app f (arg :: args), tail =>
    spelling.ofFunction f :: "(" :: spelling.pieces arg (spelling.piecesAfter args (")" :: tail))

/-- The parts of the text of further arguments, in front of `tail`. -/
def piecesAfter (spelling : Spelling ν φ) :
    List (TermOver ν φ) → (tail : List String) → List String
  | [], tail => tail
  | t :: ts, tail => "," :: spelling.pieces t (spelling.piecesAfter ts tail)

end

/-- The text of a term. -/
def text (spelling : Spelling ν φ) (t : TermOver ν φ) : String :=
  String.join (spelling.pieces t [])

end Spelling

/-! ## Terms of clauses -/

/-- The term written with names; parentheses stand only where there are arguments. -/
def Term.text (symbols : Symbols) (t : Term) : String :=
  Spelling.text ⟨variableText, symbols.constants.name, fun f => symbols.functions.name f.id, false⟩ t

/-- The term written with symbol numbers; an application always has parentheses. -/
def Term.rawText (t : Term) : String :=
  Spelling.text ⟨variableText, constantText, fun f => functionText f.id, true⟩ t

end GivenClause
