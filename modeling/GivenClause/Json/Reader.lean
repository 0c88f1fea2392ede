import GivenClause.Json.Value

/-! # Reading JSON text

The strict grammar: one value with blanks around it, no trailing commas, no leading zeros, no control
characters inside strings. `Json.parse?` reads a whole text; nesting is not limited here, since only
the parts of a value that are used count towards a limit. -/

namespace GivenClause.Json

/-- Blanks between tokens. -/
def isBlank (c : Char) : Bool :=
  c = ' ' || c = '\n' || c = '\t' || c = '\r'

/-- Drops blanks. -/
def skipBlanks (cs : List Char) : List Char :=
  cs.dropWhile isBlank

/-! ## Strings -/

/-- A piece of a string: a character, or the code of a four-digit escape. -/
inductive TextUnit where
  /-- A character. -/
  | char (c : Char)
  /-- A code given by an escape. -/
  | code (n : Nat)
deriving DecidableEq, Repr

/-- The value of a hexadecimal digit. -/
def hexValue? (c : Char) : Option Nat :=
  if '0' ≤ c ∧ c ≤ '9' then some (c.toNat - '0'.toNat)
  else if 'a' ≤ c ∧ c ≤ 'f' then some (c.toNat - 'a'.toNat + 10)
  else if 'A' ≤ c ∧ c ≤ 'F' then some (c.toNat - 'A'.toNat + 10)
  else none

/-- The value of four hexadecimal digits. -/
def hexCode? (a b c d : Char) : Option Nat := do
  let a ← hexValue? a
  let b ← hexValue? b
  let c ← hexValue? c
  let d ← hexValue? d
  some (((a * 16 + b) * 16 + c) * 16 + d)

/-- The character that a one-letter escape stands for. -/
def escaped? (c : Char) : Option Char :=
  if c = '"' ∨ c = '\\' ∨ c = '/' then some c
  else if c = 'b' then some (Char.ofNat 8)
  else if c = 'f' then some (Char.ofNat 12)
  else if c = 'n' then some '\n'
  else if c = 'r' then some '\r'
  else if c = 't' then some '\t'
  else none

/-- Reads the inside of a string up to its closing quote. -/
def readUnits : List Char → Option (List TextUnit × List Char)
  | [] => none
  | '"' :: cs => some ([], cs)
  | '\\' :: 'u' :: a :: b :: c :: d :: cs => do
    let n ← hexCode? a b c d
    let (units, rest) ← readUnits cs
    some (.code n :: units, rest)
  | '\\' :: e :: cs => do
    let c ← escaped? e
    let (units, rest) ← readUnits cs
    some (.char c :: units, rest)
  | c :: cs =>
    if c = '\\' ∨ c.toNat < 32 then none
    else do
      let (units, rest) ← readUnits cs
      some (.char c :: units, rest)

/-- Whether a code is the first half of a surrogate pair. -/
def isHighSurrogate (n : Nat) : Bool :=
  0xD800 ≤ n && n < 0xDC00

/-- Whether a code is the second half of a surrogate pair. -/
def isLowSurrogate (n : Nat) : Bool :=
  0xDC00 ≤ n && n < 0xE000

/-- The characters of string pieces; `none` when a surrogate stands without its other half. -/
def joinUnits : List TextUnit → Option (List Char)
  | [] => some []
  | .char c :: units => (joinUnits units).map (c :: ·)
  | .code n :: units =>
    if isLowSurrogate n then none
    else if isHighSurrogate n then
      match units with
      | .code m :: units =>
        if isLowSurrogate m then
          (joinUnits units).map (Char.ofNat (0x10000 + (n - 0xD800) * 0x400 + (m - 0xDC00)) :: ·)
        else none
      | _ => none
    else (joinUnits units).map (Char.ofNat n :: ·)

/-- Reads a string whose opening quote is gone. -/
def readString (cs : List Char) : Option (Option String × List Char) := do
  let (units, rest) ← readUnits cs
  some ((joinUnits units).map String.ofList, rest)

/-! ## Numbers -/

/-- The value of a decimal digit. -/
def digitValue (d : Char) : Nat :=
  d.toNat - '0'.toNat

/-- The number that decimal digits stand for. -/
def ofDigits (ds : List Char) : Nat :=
  ds.foldl (fun n d => n * 10 + digitValue d) 0

/-- Reads at least one digit. -/
def readDigits (cs : List Char) : Option (List Char × List Char) :=
  match cs.takeWhile Char.isDigit with
  | [] => none
  | ds => some (ds, cs.dropWhile Char.isDigit)

/-- Reads an optional fraction: its digits. -/
def readFraction : List Char → Option (List Char × List Char)
  | '.' :: cs => readDigits cs
  | cs => some ([], cs)

/-- Reads the digits of an exponent after its mark, with an optional sign. -/
def readExponentDigits : List Char → Option (Int × List Char)
  | '+' :: cs => (readDigits cs).map fun r => ((ofDigits r.1 : Int), r.2)
  | '-' :: cs => (readDigits cs).map fun r => (-(ofDigits r.1 : Int), r.2)
  | cs => (readDigits cs).map fun r => ((ofDigits r.1 : Int), r.2)

/-- Reads an optional exponent: its value if there is one. -/
def readExponent : List Char → Option (Option Int × List Char)
  | 'e' :: cs => (readExponentDigits cs).map fun r => (some r.1, r.2)
  | 'E' :: cs => (readExponentDigits cs).map fun r => (some r.1, r.2)
  | cs => some (none, cs)

/-- Reads an unsigned number. -/
def readUnsigned (negative : Bool) (cs : List Char) : Option (JsonNumber × List Char) := do
  let (whole, cs) ← readDigits cs
  if whole.head? = some '0' ∧ whole.length ≠ 1 then none
  else
    let (fraction, cs) ← readFraction cs
    let (exponent, cs) ← readExponent cs
    some
      ({ negative
         whole := ofDigits whole
         fraction := fraction.map digitValue
         exponent },
        cs)

/-- Reads a number. -/
def readNumber : List Char → Option (JsonNumber × List Char)
  | '-' :: cs => readUnsigned true cs
  | cs => readUnsigned false cs

/-! ## Values -/

mutual

/-- Reads one value after blanks, within `fuel` steps. -/
def readValue : (fuel : Nat) → List Char → Option (Json × List Char)
  | 0, _ => none
  | fuel + 1, cs =>
    match skipBlanks cs with
    | 'n' :: 'u' :: 'l' :: 'l' :: cs => some (.null, cs)
    | 't' :: 'r' :: 'u' :: 'e' :: cs => some (.bool true, cs)
    | 'f' :: 'a' :: 'l' :: 's' :: 'e' :: cs => some (.bool false, cs)
    | '"' :: cs => do
      let (s, cs) ← readString cs
      some (.string s, cs)
    | '[' :: cs =>
      match skipBlanks cs with
      | ']' :: cs => some (.array [], cs)
      | cs => do
        let (elements, cs) ← readElements fuel cs
        some (.array elements, cs)
    | '\x7b' :: cs =>
      match skipBlanks cs with
      | '\x7d' :: cs => some (.object [], cs)
      | cs => do
        let (members, cs) ← readMembers fuel cs
        some (.object members, cs)
    | cs => do
      let (n, cs) ← readNumber cs
      some (.number n, cs)

/-- Reads the elements of an array up to its closing bracket. -/
def readElements : (fuel : Nat) → List Char → Option (List Json × List Char)
  | 0, _ => none
  | fuel + 1, cs => do
    let (element, cs) ← readValue fuel cs
    match skipBlanks cs with
    | ',' :: cs =>
      let (elements, cs) ← readElements fuel cs
      some (element :: elements, cs)
    | ']' :: cs => some ([element], cs)
    | _ => none

/-- Reads the members of an object up to its closing brace. -/
def readMembers : (fuel : Nat) → List Char → Option (List (Option String × Json) × List Char)
  | 0, _ => none
  | fuel + 1, cs =>
    match skipBlanks cs with
    | '"' :: cs => do
      let (key, cs) ← readString cs
      match skipBlanks cs with
      | ':' :: cs =>
        let (value, cs) ← readValue fuel cs
        match skipBlanks cs with
        | ',' :: cs =>
          let (members, cs) ← readMembers fuel cs
          some ((key, value) :: members, cs)
        | '\x7d' :: cs => some ([(key, value)], cs)
        | _ => none
      | _ => none
    | _ => none

end

/-- Reads a text that holds one value and blanks. Every step of the reader consumes a character, so
the length of the text bounds the number of steps. -/
def parse? (s : String) : Option Json :=
  let cs := s.toList
  match readValue (2 * cs.length + 2) cs with
  | some (value, rest) => if (skipBlanks rest).isEmpty then some value else none
  | none => none

end GivenClause.Json
