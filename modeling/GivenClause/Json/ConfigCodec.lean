import GivenClause.Json.Codec
import GivenClause.Search.Config

/-! # Configurations in JSON

Codecs for the parts of a configuration and for the whole, in which every field has a default.
`SearchConfig.parse` reads a configuration text. -/

namespace GivenClause

namespace Codec

open Json

/-- Profiles. -/
def profile : Codec Profile :=
  name Profile.name Profile.ofName?

/-- Selection strategies. -/
def selection : Codec Selection :=
  name Selection.name Selection.ofName?

/-- Queue specifications. -/
def queueSpec : Codec QueueSpec where
  encode spec := Json.record
    [("name", Json.text spec.name), ("coefficient", Json.nat spec.coefficient)]
  decode room value := do
    match ← recordFields ["name", "coefficient"] room value with
    | (room, [name, coefficient]) =>
      let name ← required decodeText room name
      let coefficient ← required (decodeNat UInt32.size) room coefficient
      some ⟨name, coefficient⟩
    | _ => none

/-- Numbers by symbol name. -/
def symbolNumbers : Codec (List (String × UInt64)) where
  encode map := Json.record (map.map fun e => (e.1, Json.nat e.2.toNat))
  decode room value := do
    let map ← decodeMap (decodeNat UInt64.size) room value
    some (map.map fun e => (e.1, e.2.toUInt64))

/-- Ordering settings. -/
def kboSettings : Codec KboSettings where
  encode settings := Json.record
    [("symbol_weights", symbolNumbers.encode settings.weights),
      ("symbol_precedence", symbolNumbers.encode settings.precedences)]
  decode room value := do
    match ← recordFields ["symbol_weights", "symbol_precedence"] room value with
    | (room, [weights, precedences]) =>
      let weights ← optional [] symbolNumbers.decode room weights
      let precedences ← optional [] symbolNumbers.decode room precedences
      some ⟨weights, precedences⟩
    | _ => none

/-! ## Clean policies

A policy is told by its kind, which stands next to its other fields. All members of the object have to
be looked at to find the kind, so all of them must be readable. -/

/-- The policy of a kind with the values given for its interval. -/
def decodePolicyKind (room : Nat) (intervals : List Json) : String → Option CleanPolicy
  | "manual" => some .manual
  | "periodic" =>
    match intervals with
    | [interval] => (decodeNat UInt64.size room interval).map .periodic
    | _ => none
  | _ => none

/-- Clean policies. -/
def cleanPolicy : Codec CleanPolicy where
  encode
    | .manual => Json.record [("kind", Json.text "manual")]
    | .periodic interval =>
      Json.record [("kind", Json.text "periodic"), ("interval", Json.nat interval)]
  decode
    | room, .object members => do
      let room ← enter? room
      let kinds := members.filter fun m => m.1 = some "kind"
      let others := members.filter fun m => m.1 ≠ some "kind"
      match kinds with
      | [(_, kind)] =>
        let kind ← decodeText room kind
        if membersReadable room others then
          let intervals := others.filter fun m => m.1 = some "interval"
          decodePolicyKind room (intervals.map (·.2)) kind
        else none
      | _ => none
    | room, .array (kind :: others) => do
      let room ← enter? room
      let kind ← decodeText room kind
      if areReadable room others ∧ (kind = "manual" → others.isEmpty) then
        decodePolicyKind room others kind
      else none
    | _, _ => none

/-! ## The whole configuration -/

/-- Configurations. -/
def searchConfig : Codec SearchConfig where
  encode config := Json.record
    [("profile", profile.encode config.profile),
      ("queues", Json.ofOption (fun specs => .array (specs.map queueSpec.encode)) config.queues),
      ("literal_selection", selection.encode config.selection),
      ("clean_policy", cleanPolicy.encode config.cleaning),
      ("kbo", kboSettings.encode config.ordering)]
  decode room value := do
    match ← recordFields ["profile", "queues", "literal_selection", "clean_policy", "kbo"]
        room value with
    | (room, [profileValue, queues, selectionValue, cleaning, ordering]) =>
      let initial : SearchConfig := {}
      let profileValue ← optional initial.profile profile.decode room profileValue
      let queues ← optional initial.queues (decodeOption (decodeList queueSpec.decode)) room queues
      let selectionValue ← optional initial.selection selection.decode room selectionValue
      let cleaning ← optional initial.cleaning cleanPolicy.decode room cleaning
      let ordering ← optional initial.ordering kboSettings.decode room ordering
      some ⟨profileValue, queues, selectionValue, cleaning, ordering⟩
    | _ => none

end Codec

/-- Reads a configuration text. -/
def SearchConfig.parse (s : String) : Except ConfigError SearchConfig :=
  match Codec.searchConfig.parse? s with
  | some config => .ok config
  | none => .error .invalidText

end GivenClause
