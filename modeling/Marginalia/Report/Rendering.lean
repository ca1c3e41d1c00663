import Marginalia.Report.AccessKey

/-!
# Rendered reports

What a host displays for a report: classes, the message, a button per action and the source. In
the panel the buttons carry their access keys, with the place of the key in the name so that it
can be underlined; tooltips show no keys.
-/

namespace Marginalia

/-- A button for an action. -/
structure Rendering.Button where
  name : String
  key : Option Char
  /-- The index of the key in the name. -/
  keyIndex : Option Nat
  /-- What is read out after the message. -/
  label : String
  deriving DecidableEq, Repr

/-- The displayed form of a report. -/
structure Rendering where
  styleClass : String
  text : String
  buttons : List Rendering.Button
  source : Option String
  deriving DecidableEq, Repr

namespace Rendering

/-- The class of a displayed report. -/
def reportClass : String := "cm-report"

/-- The class of the message in it. -/
def textClass : String := "cm-reportText"

/-- The class of a button in it. -/
def actionClass : String := "cm-reportAction"

/-- The class of the source in it. -/
def sourceClass : String := "cm-reportSource"

/-- A class followed by its variant for `suffix`, as in `cm-report cm-report-error`. -/
def classWithVariant (base suffix : String) : String := base ++ " " ++ base ++ "-" ++ suffix

/-- The button of an action that has the given key. -/
def button (action : Action) (key : Option Char) : Button where
  name := action.name
  key
  keyIndex := key.bind fun c => action.name.toList.findIdx? (· == c)
  label :=
    match key with
    | some c => " Action: " ++ action.name ++ " (access key \"" ++ c.toString ++ "\")."
    | none => " Action: " ++ action.name ++ "."

/-- The keys that a report shows: those of its actions in the panel, none elsewhere. -/
def shownKeys (inPanel : Bool) (actions : List Action) : List (Option Char) :=
  if inPanel then AccessKey.ofActions actions else actions.map fun _ => none

/-- Render a report, in the panel or in a tooltip. -/
def ofReport (inPanel : Bool) (r : Report) : Rendering where
  styleClass := classWithVariant reportClass r.severity.name
  text := r.shownMessage
  buttons := List.zipWith button r.actions (shownKeys inPanel r.actions)
  source := if r.span.source.isEmpty then none else some r.span.source

/-- Render the reports that a tooltip lists. -/
def inTooltip (reports : List Report) : List Rendering := reports.map (ofReport false)

end Rendering

end Marginalia
