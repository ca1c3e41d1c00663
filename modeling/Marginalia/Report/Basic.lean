import Marginalia.Extent

/-!
# Reports

A report is one problem in a source: where it is, how bad it is, what it says, and what can be
done about it. What a report says is its *draft*; the report itself also has a key, which its
maker gives out only once. So two reports made from one draft are different, and a report is
recognised through edits and replacements by being equal to itself.
-/

namespace Marginalia

/-- How bad a problem is, from a suggestion to a failure. -/
inductive Severity where
  | hint
  | info
  | warning
  | error
  deriving DecidableEq, Repr

namespace Severity

/-- The place in the order of severities. -/
def rank : Severity → Nat
  | .hint => 0
  | .info => 1
  | .warning => 2
  | .error => 3

instance : LE Severity where
  le a b := a.rank ≤ b.rank

instance (a b : Severity) : Decidable (a ≤ b) := inferInstanceAs (Decidable (a.rank ≤ b.rank))

/-- The worse of two severities. -/
def worse (a b : Severity) : Severity := if a ≤ b then b else a

/-- The name, in small letters. -/
def name : Severity → String
  | .hint => "hint"
  | .info => "info"
  | .warning => "warning"
  | .error => "error"

/-- The severity of that name. -/
def ofName? : String → Option Severity
  | "hint" => some .hint
  | "info" => some .info
  | "warning" => some .warning
  | "error" => some .error
  | _ => none

end Severity

/-- An extent in the text of the source named `source`. -/
structure Span where
  source : String
  extent : Extent
  deriving DecidableEq, Repr

/-- What a quick fix does to the current extent of its report. -/
inductive Remedy where
  /-- Replace the extent by `text`. -/
  | replace (text : String)
  /-- Select the extent. -/
  | select
  deriving DecidableEq, Repr

/-- A quick fix, under the name that is shown for it. -/
structure Action where
  name : String
  remedy : Remedy
  deriving DecidableEq, Repr

/-- What a report says. -/
structure Draft where
  span : Span
  severity : Severity
  message : String
  /-- An extra class for the mark in the text. -/
  markClass : Option String
  actions : List Action
  /-- What is shown in place of the message. -/
  rendered : Option String
  deriving DecidableEq, Repr

namespace Draft

/-- An error without extras. -/
def error (span : Span) (message : String) : Draft :=
  ⟨span, .error, message, none, [], none⟩

end Draft

/-- Tells reports apart. The host counts the reports that it makes, the engine those that it
makes itself, and neither uses a number twice. -/
inductive Report.Key where
  | host (n : Nat)
  | minted (n : Nat)
  deriving DecidableEq, Repr

/-- A draft that has been given a key. -/
structure Report extends Draft where
  key : Report.Key
  deriving DecidableEq, Repr

namespace Report

/-- The text to show for a report. -/
def shownMessage (r : Report) : String := r.rendered.getD r.message

/-- The worst severity in a list of reports. -/
def worstSeverity (reports : List Report) : Severity :=
  reports.foldl (fun worst r => worst.worse r.severity) .hint

/-- Make reports of drafts, with the keys that come next from `next`, and say which is next
then. -/
def mint (next : Nat) : List Draft → List Report × Nat
  | [] => ([], next)
  | draft :: rest =>
    let (reports, next') := mint (next + 1) rest
    (⟨draft, .minted next⟩ :: reports, next')

end Report

end Marginalia
