import Marginalia.Edit.Error

/-!
# Output formats and errors of sessions

The formats in which an evaluator can be asked for its value, and what can go wrong when a session
is set up or driven.
-/

namespace Marginalia

/-- The format of an evaluated value. -/
inductive Format where
  | json
  | yaml
  | toml
  deriving DecidableEq, Repr

/-- What can go wrong with a session. -/
inductive Session.Error where
  /-- A text is not JSON, or not that of a failure list or configuration. -/
  | decode
  /-- There is no format of that name. -/
  | unknownFormat (name : String)
  /-- An edit did not fit. -/
  | edit (error : Edit.Error)
  deriving DecidableEq, Repr

/-- The wording of an error. How a text fails to decode is left to whoever reports it. -/
def Session.Error.message : Session.Error → String
  | .decode => "failed to decode JSON"
  | .unknownFormat name => "unknown output format: " ++ name
  | .edit error => error.message

namespace Format

/-- The name of a format. -/
def name : Format → String
  | .json => "json"
  | .yaml => "yaml"
  | .toml => "toml"

/-- The format of that name. -/
def ofName (name : String) : Except Session.Error Format :=
  if name = "json" then .ok .json
  else if name = "yaml" then .ok .yaml
  else if name = "toml" then .ok .toml
  else .error (.unknownFormat name)

end Format

end Marginalia
