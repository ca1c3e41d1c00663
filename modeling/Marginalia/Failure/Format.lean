import Marginalia.Failure.Basic
import Marginalia.Json.Reader
import Marginalia.Json.Record
import Marginalia.Json.Writer

/-!
# Failure lists in JSON

A list of failures is an array of records, alone or as the member `reports` of an object. Labels
and notes may be missing. It is written as the array alone, in compact form.
-/

namespace Marginalia.Failure

/-- A span from its record. -/
def spanOf? (v : Json) : Option ByteSpan :=
  match v.fields? ["sourceId", "start", "end"] with
  | some [some source, some start, some stop] => do
    return ⟨← source.toText?, ← start.toOffset?, ← stop.toOffset?⟩
  | _ => none

/-- A label from its record. -/
def labelOf? (v : Json) : Option Label :=
  match v.fields? ["span", "message"] with
  | some [some span, some message] => do
    return ⟨← spanOf? span, ← message.toText?⟩
  | _ => none

/-- A failure from its record. -/
def ofJson? (v : Json) : Option Failure :=
  match v.fields? ["span", "message", "labels", "notes"] with
  | some [some span, some message, labels, notes] => do
    return ⟨← spanOf? span, ← message.toText?, ← Json.listOrEmpty? labelOf? labels,
      ← Json.listOrEmpty? Json.toText? notes⟩
  | _ => none

/-- A list of failures from a value. -/
def listOfJson? : Json → Option (List Failure)
  | .array items => items.mapM ofJson?
  | .object members =>
    match Json.member? "reports" members with
    | some (some v) => Json.list? ofJson? v
    | _ => none
  | _ => none

/-- Read a list of failures. The whole text has to be a proper value, also where its parts are
ignored. -/
def readList? (text : Text) : Option (List Failure) :=
  match Json.parse? text with
  | some v => if v.isProper then listOfJson? v else none
  | none => none

/-- A span as an object. -/
def spanToJson (s : ByteSpan) : Json :=
  .record [("sourceId", .text s.source), ("start", .nat s.start), ("end", .nat s.stop)]

/-- A label as an object. -/
def labelToJson (l : Label) : Json :=
  .record [("span", spanToJson l.span), ("message", .text l.message)]

/-- A failure as an object. -/
def toJson (f : Failure) : Json :=
  .record [("span", spanToJson f.span), ("message", .text f.message),
    ("labels", .array (f.labels.map labelToJson)), ("notes", .array (f.notes.map .text))]

/-- Write a list of failures. -/
def writeList (failures : List Failure) : Text := (Json.array (failures.map toJson)).write

end Marginalia.Failure
