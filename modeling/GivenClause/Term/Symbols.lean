import GivenClause.Data.InsertionOrder
import GivenClause.Term.Basic

/-! # Symbol names

Constants and functions are named in two separate tables. A name gets the next free number when it
is first met, so within a table the numbers are dense and follow the order of first use.

* `NameTable.intern` adds a name, `NameTable.find?` looks its number up, `NameTable.name` goes back;
* `Symbols` is the pair of tables, `Symbol` a number together with the table it belongs to. -/

namespace GivenClause

open InsertionOrder

/-- Names in order of first use; the number of a name is its position. -/
structure NameTable where
  /-- The names, each once. -/
  names : List String := []
deriving DecidableEq, Repr

namespace NameTable

/-- How many names the table holds. -/
def size (table : NameTable) : Nat :=
  table.names.length

/-- The table with `name` added unless it is there already. -/
def intern (table : NameTable) (name : String) : NameTable :=
  ⟨insertNew table.names name⟩

/-- The number of a name, `none` when the table does not hold it. -/
def find? (table : NameTable) (name : String) : Option Nat :=
  table.names.idxOf? name

/-- The number that `name` has once it is interned. -/
def number (table : NameTable) (name : String) : Nat :=
  table.names.idxOf name

/-- The name of a number, `?` for a number without a name. -/
def name (table : NameTable) (id : Nat) : String :=
  table.names[id]?.getD "?"

end NameTable

/-- The names of constants and of functions. -/
structure Symbols where
  /-- Names of constants. -/
  constants : NameTable := {}
  /-- Names of functions. -/
  functions : NameTable := {}
deriving DecidableEq, Repr

/-- A symbol: a number in the table of constants or in the table of functions. -/
inductive Symbol where
  /-- The constant with this number. -/
  | constant (id : Nat)
  /-- The function with this number. -/
  | function (id : Nat)
deriving DecidableEq, Repr

namespace Symbols

/-- Adds the name of a constant. -/
def internConstant (symbols : Symbols) (name : String) : Symbols :=
  { symbols with constants := symbols.constants.intern name }

/-- Adds the name of a function. -/
def internFunction (symbols : Symbols) (name : String) : Symbols :=
  { symbols with functions := symbols.functions.intern name }

/-- The symbols that a name stands for: a function, a constant, both or none. -/
def named (symbols : Symbols) (name : String) : List Symbol :=
  ((symbols.functions.find? name).map .function).toList ++
    ((symbols.constants.find? name).map .constant).toList

end Symbols

end GivenClause
