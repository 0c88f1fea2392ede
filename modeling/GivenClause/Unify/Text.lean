import GivenClause.Term.Text
import GivenClause.Unify.Substitution

/-! # Scoped terms as text

A scoped variable is written with its scope, as in `X0@1`. Arities are not stored in scoped terms, so
an application always has parentheses. -/

namespace GivenClause

namespace ScopedVar

/-- A scoped variable as text. -/
def text (v : ScopedVar) : String :=
  variableText v.var ++ "@" ++ toString v.scope

/-- The order on scoped variables: by scope, then by number. -/
def le (v w : ScopedVar) : Bool :=
  v.scope < w.scope || (v.scope == w.scope && v.var ≤ w.var)

end ScopedVar

/-- A scoped term written with names. -/
def ScopedTerm.text (symbols : Symbols) (t : ScopedTerm) : String :=
  Spelling.text ⟨ScopedVar.text, symbols.constants.name, symbols.functions.name, true⟩ t

/-- The bindings of a substitution in the order of their variables. -/
def Substitution.sortedBindings (σ : Substitution) : List (ScopedVar × ScopedTerm) :=
  σ.bindings.mergeSort fun a b => a.1.le b.1

end GivenClause
