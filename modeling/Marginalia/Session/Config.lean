import Marginalia.Engine.Options
import Marginalia.Json.Reader
import Marginalia.Json.Record
import Marginalia.Session.Format
import Marginalia.Text.Basic

/-!
# Configurations of sessions

The settings of a session that are read from JSON. Every field may be missing and then has its
standard value. Members that are no fields are skipped unread: they may nest to any depth, and
their numbers and escapes do not have to mean anything.
-/

namespace Marginalia

/-- The settings of a session; times are in milliseconds. -/
structure Config where
  /-- The quiet period before an evaluation. -/
  delay : Nat
  /-- How long the pointer rests on a gutter marker before its pop-up opens. -/
  hoverTime : Nat
  /-- How far the pointer may go from the marker while the pop-up stays. -/
  hoverMargin : Float32
  /-- The format that the evaluator is asked for. -/
  format : Format

namespace Config

/-- The settings used unless the configuration gives others. -/
def standard : Config :=
  ⟨Debounce.standardDelay, Gutter.standardHoverTime, Gutter.standardHoverMargin, .json⟩

/-- Whether two configurations are equal; margins are compared as numbers. -/
def agrees (a b : Config) : Bool :=
  a.delay == b.delay && a.hoverTime == b.hoverTime && a.hoverMargin == b.hoverMargin
    && a.format == b.format

/-- The margin from a number. -/
def marginOf? : Json → Option Float32
  | .number n => n.toFloat32?
  | _ => none

/-- The format of a name that was read. -/
def formatNamed? (name : Option String) : Option Format := do
  let name ← name
  (Format.ofName name).toOption

/-- The format from its name, or from an object with that name alone and null for its value. -/
def formatOf? : Json → Option Format
  | .string name => formatNamed? name
  | .object [(name, .null)] => formatNamed? name
  | _ => none

/-- A field, or its standard value when it is missing. -/
def fieldOr {α : Type} (standard : α) (read : Json → Option α) : Option Json → Option α
  | none => some standard
  | some v => read v

/-- Whether all members have names. -/
def isNamed : Json → Bool
  | .object members => members.all (·.1.isSome)
  | _ => true

/-- A configuration from its record. -/
def ofJson? (v : Json) : Option Config :=
  match v.fields? ["delay_ms", "hover_time_ms", "hover_margin", "format"] with
  | some [delay, hoverTime, hoverMargin, format] => do
    return ⟨← fieldOr standard.delay Json.toOffset? delay,
      ← fieldOr standard.hoverTime Json.toOffset? hoverTime,
      ← fieldOr standard.hoverMargin marginOf? hoverMargin,
      ← fieldOr standard.format formatOf? format⟩
  | _ => none

/-- Read a configuration. -/
def read (text : Text) : Except Session.Error Config :=
  match Json.parse? text with
  | none => .error .decode
  | some v =>
    if isNamed v then
      match ofJson? v with
      | some config => .ok config
      | none => .error .decode
    else .error .decode

/-- The settings of the engine; filters and colours are the standard ones. -/
def engineOptions (c : Config) : Engine.Options :=
  { Engine.Options.standard with
    delay := c.delay
    gutter :=
      { Gutter.Options.standard with hoverTime := c.hoverTime, hoverMargin := c.hoverMargin } }

end Config

end Marginalia
