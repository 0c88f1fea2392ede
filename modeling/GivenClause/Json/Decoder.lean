import GivenClause.Json.Double

/-! # Decoding JSON values

Combinators for turning JSON values into data. A record is written as an object or as an array of its
fields in order; an alternative is written as its name or as an object with the name as its only key.

Nesting is limited: a decoder is given the room that is left, every array or object that it enters
takes one, and the last one is never entered. Parts of a value that are ignored need no room. -/

namespace GivenClause.Json

/-- Turns a value into data, given how many levels of nesting are left. -/
abbrev Decoder (α : Type) := (room : Nat) → Json → Option α

/-- How deep a text may nest arrays and objects, plus one. -/
def nestingLimit : Nat := 128

/-- The room inside an array or object, `none` when it must not be entered. -/
def enter? (room : Nat) : Option Nat :=
  if room ≤ 1 then none else some (room - 1)

/-- A natural number below `bound`, written without sign, fraction or exponent. -/
def decodeNat (bound : Nat) : Decoder Nat
  | _, .number n => if n.isPlain ∧ ¬n.negative ∧ n.whole < bound then some n.whole else none
  | _, _ => none

/-- A truth value. -/
def decodeBool : Decoder Bool
  | _, .bool b => some b
  | _, _ => none

/-- A string. -/
def decodeText : Decoder String
  | _, .string s => s
  | _, _ => none

/-- `null` or a value. -/
def decodeOption {α : Type} (decode : Decoder α) : Decoder (Option α)
  | _, .null => some none
  | room, value => (decode room value).map some

/-- The members of an array. -/
def decodeList {α : Type} (decode : Decoder α) : Decoder (List α)
  | room, .array elements => do
    let room ← enter? room
    elements.mapM (decode room)
  | _, _ => none

/-- Members of an object under their keys; a repeated key keeps its last value. -/
def decodeMap {α : Type} (decode : Decoder α) : Decoder (List (String × α))
  | room, .object members => do
    let room ← enter? room
    let entries ← members.mapM fun m => do
      let key ← m.1
      let value ← decode room m.2
      some (key, value)
    some (entries.foldl (fun map e => map.filter (fun d => d.1 ≠ e.1) ++ [e]) [])
  | _, _ => none

/-! ## Records -/

/-- The values of a record's fields in the order of `fields`, `none` for a field that is not given,
and the room inside. Unknown keys are ignored; a repeated field or a surplus element is refused. -/
def recordFields (fields : List String) : Decoder (Nat × List (Option Json))
  | room, .object members => do
    let room ← enter? room
    let keys ← members.mapM (·.1)
    if fields.all fun f => keys.count f ≤ 1 then
      some (room, fields.map fun f => members.lookup (some f))
    else none
  | room, .array elements => do
    let room ← enter? room
    if elements.length ≤ fields.length then
      some (room, (List.range fields.length).map fun i => elements[i]?)
    else none
  | _, _ => none

/-- A field that must be given. -/
def required {α : Type} (decode : Decoder α) (room : Nat) : Option Json → Option α
  | none => none
  | some value => decode room value

/-- A field with a default. -/
def optional {α : Type} (default : α) (decode : Decoder α) (room : Nat) : Option Json → Option α
  | none => some default
  | some value => decode room value

/-! ## Alternatives -/

/-- The name of an alternative, with the value it carries and the room for it. -/
def decodeAlternative : Decoder (String × Option (Nat × Json))
  | _, .string s => s.map fun name => (name, none)
  | room, .object [(key, value)] => do
    let room ← enter? room
    let name ← key
    some (name, some (room, value))
  | _, _ => none

/-- An alternative that carries nothing, by its name. -/
def decodeName {α : Type} (ofName? : String → Option α) : Decoder α := fun room value => do
  match ← decodeAlternative room value with
  | (name, none) => ofName? name
  | (name, some (_, .null)) => ofName? name
  | _ => none

/-! ## Values that must be readable throughout -/

mutual

/-- Whether every string and number of a value can be read and the nesting fits into the room. -/
def isReadable (room : Nat) : Json → Bool
  | .null => true
  | .bool _ => true
  | .number n => n.inRange
  | .string s => s.isSome
  | .array elements =>
    if room ≤ 1 then false else areReadable (room - 1) elements
  | .object members =>
    if room ≤ 1 then false else membersReadable (room - 1) members

/-- Whether all elements of an array can be read. -/
def areReadable (room : Nat) : List Json → Bool
  | [] => true
  | element :: elements => isReadable room element && areReadable room elements

/-- Whether all members of an object can be read. -/
def membersReadable (room : Nat) : List (Option String × Json) → Bool
  | [] => true
  | (key, value) :: members => key.isSome && isReadable room value && membersReadable room members

end

end GivenClause.Json
