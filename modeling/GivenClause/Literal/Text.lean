import GivenClause.Literal.Basic
import GivenClause.Term.Text

/-! # Literals and clauses as text

Equations are written `s = t` and `s != t`, atoms `p` and `~p`, the truth constants `$true` and
`$false`. A clause is its literals divided by ` | `; the empty clause is `$false`. -/

namespace GivenClause

/-- The literal with each term written by `write`. -/
def Literal.textWith (write : Term → String) : Literal → String
  | .equation lhs rhs true => write lhs ++ " = " ++ write rhs
  | .equation lhs rhs false => write lhs ++ " != " ++ write rhs
  | .prop atom true => write atom
  | .prop atom false => "~" ++ write atom
  | .verum => "$true"
  | .falsum => "$false"

/-- The literal written with names. -/
def Literal.text (symbols : Symbols) : Literal → String :=
  Literal.textWith (Term.text symbols)

/-- The literal written with symbol numbers. -/
def Literal.rawText : Literal → String :=
  Literal.textWith Term.rawText

/-- A clause with each literal written by `write`. -/
def clauseTextWith (write : Literal → String) : List Literal → String
  | [] => "$false"
  | lit :: literals => String.intercalate " | " (write lit :: literals.map write)

/-- A clause written with names. -/
def clauseText (symbols : Symbols) : List Literal → String :=
  clauseTextWith (Literal.text symbols)

/-- A clause written with symbol numbers. -/
def clauseRawText : List Literal → String :=
  clauseTextWith Literal.rawText

end GivenClause
