/-! # Configuration errors

Setting up a search can fail because of what the configuration asks for. `ConfigError` lists the
causes and `ConfigError.message` the wording of each. -/

namespace GivenClause

/-- Why a configuration cannot be used. -/
inductive ConfigError where
  /-- No profile has this name. -/
  | unknownProfile (name : String)
  /-- No queue has this name. -/
  | unknownQueue (name : String)
  /-- No selection strategy has this name. -/
  | unknownSelection (name : String)
  /-- A queue or a part of a weight has coefficient zero and would never count. -/
  | zeroCoefficient (name : String)
  /-- There is no queue at all. -/
  | emptyProfile
  /-- The configuration text cannot be read. -/
  | invalidText
deriving DecidableEq, Repr

/-- The wording of a configuration error. -/
def ConfigError.message : ConfigError → String
  | .unknownProfile name => s!"Unknown profile: {name}"
  | .unknownQueue name => s!"Unknown queue: {name}"
  | .unknownSelection name => s!"Unknown literal selection strategy: {name}"
  | .zeroCoefficient name => s!"Queue {name} has coefficient 0"
  | .emptyProfile => "Queue profile is empty"
  | .invalidText => "Invalid configuration"

end GivenClause
