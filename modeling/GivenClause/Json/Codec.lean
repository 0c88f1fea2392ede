import GivenClause.Clause.Basic
import GivenClause.Json.Decoder
import GivenClause.Json.Reader

/-! # Terms, literals and clause data in JSON

A `Codec` writes values of a type as JSON and reads them back. The ones here are for the parts of
clauses: numbers of symbols and clauses, terms, literals, literal sets, roles and provenance. -/

namespace GivenClause

/-- How values of a type are written and read. -/
structure Codec (α : Type) where
  /-- Writes a value. -/
  encode : α → Json
  /-- Reads a value. -/
  decode : Json.Decoder α

/-- Reads a text that holds one value. -/
def Codec.parse? {α : Type} (codec : Codec α) (s : String) : Option α := do
  let value ← Json.parse? s
  codec.decode Json.nestingLimit value

namespace Codec

open Json

/-- Natural numbers of the given number of bits. -/
def word (bits : Nat) : Codec Nat where
  encode := Json.nat
  decode := decodeNat (Nat.pow 2 bits)

/-- Names without further content. -/
def name {α : Type} (name : α → String) (ofName? : String → Option α) : Codec α where
  encode a := Json.text (name a)
  decode := decodeName ofName?

/-- A record with the only field `id`. -/
def identified : Codec Nat where
  encode n := Json.record [("id", Json.nat n)]
  decode room value := do
    match ← recordFields ["id"] room value with
    | (room, [id]) => required (decodeNat UInt32.size) room id
    | _ => none

/-- Function symbols. -/
def functionSymbol : Codec FunctionSymbol where
  encode f := Json.record [("id", Json.nat f.id), ("arity", Json.nat f.arity.toNat)]
  decode room value := do
    match ← recordFields ["id", "arity"] room value with
    | (room, [id, arity]) =>
      let id ← required (decodeNat UInt32.size) room id
      let arity ← required (decodeNat UInt8.size) room arity
      some ⟨id, arity.toUInt8⟩
    | _ => none

/-! ## Terms and literals -/

mutual

/-- A term as JSON. -/
def encodeTerm : Term → Json
  | .var x => Json.record [("Variable", identified.encode x)]
  | .const c => Json.record [("Constant", identified.encode c)]
  | .app f args =>
    Json.record [("Function", .array [functionSymbol.encode f, .array (encodeTerms args)])]

/-- Terms as JSON. -/
def encodeTerms : List Term → List Json
  | [] => []
  | t :: ts => encodeTerm t :: encodeTerms ts

end

/-- Reads a term that nests applications less than `depth` deep. -/
def decodeTermWithin : (depth : Nat) → Decoder Term
  | 0 => fun _ _ => none
  | depth + 1 => fun room value => do
    match ← decodeAlternative room value with
    | ("Variable", some (room, value)) => (identified.decode room value).map .var
    | ("Constant", some (room, value)) => (identified.decode room value).map .const
    | ("Function", some (room, .array [f, args])) =>
      let room ← enter? room
      let f ← functionSymbol.decode room f
      let args ← decodeList (decodeTermWithin depth) room args
      some (.app f args)
    | _ => none

/-- Terms. The room for nesting bounds the depth. -/
def term : Codec Term where
  encode := encodeTerm
  decode room value := decodeTermWithin (room + 1) room value

/-- Sides of literals. -/
def side : Codec Side :=
  name Side.name fun s => [Side.left, Side.right].find? fun side => side.name = s

/-- A literal as JSON. -/
def encodeLiteral : Literal → Json
  | .equation lhs rhs positive =>
    Json.record [("Equation", Json.record
      [("lhs", encodeTerm lhs), ("rhs", encodeTerm rhs), ("positive", .bool positive)])]
  | .prop atom positive =>
    Json.record [("Prop", Json.record [("atom", encodeTerm atom), ("positive", .bool positive)])]
  | .verum => Json.text "True"
  | .falsum => Json.text "False"

/-- Reads a literal that is more than its name. -/
def decodeLiteralContent (room : Nat) (value : Json) : String → Option Literal
  | "Equation" => do
    match ← recordFields ["lhs", "rhs", "positive"] room value with
    | (room, [lhs, rhs, positive]) =>
      let lhs ← required term.decode room lhs
      let rhs ← required term.decode room rhs
      let positive ← required decodeBool room positive
      some (.equation lhs rhs positive)
    | _ => none
  | "Prop" => do
    match ← recordFields ["atom", "positive"] room value with
    | (room, [atom, positive]) =>
      let atom ← required term.decode room atom
      let positive ← required decodeBool room positive
      some (.prop atom positive)
    | _ => none
  | _ => none

/-- Literals. -/
def literal : Codec Literal where
  encode := encodeLiteral
  decode room value := do
    match ← decodeAlternative room value with
    | ("True", none) => some .verum
    | ("True", some (_, .null)) => some .verum
    | ("False", none) => some .falsum
    | ("False", some (_, .null)) => some .falsum
    | (name, some (room, value)) => decodeLiteralContent room value name
    | _ => none

/-- Literal sets, as the number of their bits. -/
def literalSet : Codec LiteralSet where
  encode set := Json.nat set.bits.toNat
  decode room value := (decodeNat UInt64.size room value).map fun n => ⟨BitVec.ofNat 64 n⟩

/-! ## Clause data -/

/-- Flags, as the number of their bits. -/
def clauseFlags : Codec ClauseFlags where
  encode flags := Json.nat flags.bits.toNat
  decode room value := (decodeNat UInt8.size room value).map fun n => ⟨n.toUInt8⟩

/-- Roles. -/
def clauseRole : Codec ClauseRole :=
  name ClauseRole.name ClauseRole.ofName?

/-- Provenance; a clause is not persistent unless that is said. -/
def provenance : Codec Provenance where
  encode p := Json.record
    [("role", clauseRole.encode p.role), ("rule", Json.text p.rule),
      ("persistent", .bool p.persistent)]
  decode room value := do
    match ← recordFields ["role", "rule", "persistent"] room value with
    | (room, [role, rule, persistent]) =>
      let role ← required clauseRole.decode room role
      let rule ← required decodeText room rule
      let persistent ← optional false decodeBool room persistent
      some ⟨role, rule, persistent⟩
    | _ => none

end Codec

end GivenClause
