import GivenClause.Order.KnuthBendix

/-! # Ordering settings by name

Weights and precedences are set by symbol name. A name that is no symbol yet is ignored; one that
names both a function and a constant sets both. -/

namespace GivenClause

/-- Weights and precedences by name, each name at most once per list. -/
structure KboSettings where
  /-- Weights by symbol name. -/
  weights : List (String × UInt64) := []
  /-- Precedences by symbol name. -/
  precedences : List (String × UInt64) := []
deriving DecidableEq, Repr

/-- Settings by name as settings of the symbols that the names stand for. -/
def resolveNames (symbols : Symbols) (settings : List (String × UInt64)) :
    List (Symbol × UInt64) :=
  settings.flatMap fun e => (symbols.named e.1).map fun symbol => (symbol, e.2)

/-- The ordering that settings give once names are resolved. -/
def Kbo.ofSettings (symbols : Symbols) (settings : KboSettings) : Kbo where
  weights := resolveNames symbols settings.weights
  precedences := resolveNames symbols settings.precedences

end GivenClause
