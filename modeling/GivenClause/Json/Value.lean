/-! # JSON values

A JSON value as it was written: object members keep their order and their repetitions, a number keeps
its decimal form, and a string whose escapes name no text is kept as such, since a reader may skip
what it cannot use.

* `Json` with `Json.nat`, `Json.text`, `Json.record` for building values;
* `Json.render` writes a value in compact form. -/

namespace GivenClause

/-- A number as written: a sign, a whole part, the digits of a fraction, an exponent. -/
structure JsonNumber where
  /-- Whether a minus sign stands in front. -/
  negative : Bool := false
  /-- The whole part. -/
  whole : Nat
  /-- The digits of the fraction, none where no fraction is written. -/
  fraction : List Nat := []
  /-- The exponent, if one is written. -/
  exponent : Option Int := none
deriving DecidableEq, Repr

/-- Whether neither a fraction nor an exponent is written. -/
def JsonNumber.isPlain (n : JsonNumber) : Bool :=
  n.fraction.isEmpty && n.exponent.isNone

/-- A JSON value. -/
inductive Json where
  /-- The value `null`. -/
  | null
  /-- A truth value. -/
  | bool (value : Bool)
  /-- A number. -/
  | number (value : JsonNumber)
  /-- A string; `none` when an escape in it is half of a surrogate pair. -/
  | string (value : Option String)
  /-- An array. -/
  | array (elements : List Json)
  /-- An object with its members as written. -/
  | object (members : List (Option String × Json))
deriving Repr

namespace Json

/-- A natural number. -/
def nat (n : Nat) : Json :=
  .number { whole := n }

/-- A string. -/
def text (s : String) : Json :=
  .string (some s)

/-- An array of natural numbers. -/
def nats (ns : List Nat) : Json :=
  .array (ns.map nat)

/-- An array of strings. -/
def texts (ss : List String) : Json :=
  .array (ss.map text)

/-- An object with distinct keys. -/
def record (members : List (String × Json)) : Json :=
  .object (members.map fun m => (some m.1, m.2))

/-- A value or `null`. -/
def ofOption {α : Type} (encode : α → Json) : Option α → Json
  | none => .null
  | some a => encode a

/-- The first member of an object with the given key. -/
def get? : Json → String → Option Json
  | .object members, key => members.lookup (some key)
  | _, _ => none

/-! ## Writing -/

/-- A digit of a hexadecimal number below 16. -/
def hexDigit (n : Nat) : Char :=
  if n < 10 then Char.ofNat ('0'.toNat + n) else Char.ofNat ('a'.toNat + (n - 10))

/-- A character inside a string: quotes, backslashes and control characters are escaped. -/
def escapeChar (c : Char) : String :=
  if c = '"' then "\\\""
  else if c = '\\' then "\\\\"
  else if c = '\n' then "\\n"
  else if c = '\r' then "\\r"
  else if c = '\t' then "\\t"
  else if c = Char.ofNat 8 then "\\b"
  else if c = Char.ofNat 12 then "\\f"
  else if c.toNat < 32 then
    "\\u00" ++ (hexDigit (c.toNat / 16)).toString ++ (hexDigit (c.toNat % 16)).toString
  else c.toString

/-- A string in quotes. -/
def quote (s : String) : String :=
  "\"" ++ String.join (s.toList.map escapeChar) ++ "\""

/-- A number in decimal. -/
def renderNumber (n : JsonNumber) : String :=
  (if n.negative then "-" else "") ++ toString n.whole ++
    (if n.fraction.isEmpty then "" else "." ++ String.join (n.fraction.map toString)) ++
    (match n.exponent with
      | none => ""
      | some exponent => "e" ++ toString exponent)

mutual

/-- The value in compact form. -/
def render : Json → String
  | .null => "null"
  | .bool true => "true"
  | .bool false => "false"
  | .number n => renderNumber n
  | .string s => quote (s.getD "")
  | .array elements => "[" ++ String.intercalate "," (renderElements elements) ++ "]"
  | .object members => "\x7b" ++ String.intercalate "," (renderMembers members) ++ "\x7d"

/-- The elements of an array in compact form. -/
def renderElements : List Json → List String
  | [] => []
  | element :: elements => render element :: renderElements elements

/-- The members of an object in compact form. -/
def renderMembers : List (Option String × Json) → List String
  | [] => []
  | (key, value) :: members => (quote (key.getD "") ++ ":" ++ render value) :: renderMembers members

end

end Json

end GivenClause
