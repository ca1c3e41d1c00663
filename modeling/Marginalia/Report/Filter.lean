import Marginalia.Report.Basic

/-!
# Report filters

A filter is any function on lists of reports, given by the host: it may drop, reorder, repeat or
even add reports. No filter lets everything through. Where single reports are drawn, a filter
counts by the reports that it returns for the whole list: a report is visible if it is one of
them.
-/

namespace Marginalia

/-- What a host narrows a list of reports by. -/
abbrev Filter := List Report → List Report

namespace Filter

/-- Keep the reports at or above a severity. -/
def atLeast (least : Severity) : Filter := fun reports => reports.filter (least ≤ ·.severity)

/-- Keep the reports whose message is listed. -/
def saying (messages : List String) : Filter :=
  fun reports => reports.filter (messages.contains ·.message)

/-- Apply a filter, if there is one. -/
def applyTo (filter : Option Filter) (reports : List Report) : List Report :=
  match filter with
  | none => reports
  | some f => f reports

/-- Whether `r` is one of the reports that the filter returns for all of `reports`. -/
def shows (filter : Option Filter) (reports : List Report) (r : Report) : Bool :=
  match filter with
  | none => true
  | some f => (f reports).contains r

/-- The filter only leaves reports out: it adds none, repeats none and keeps their order. -/
def Narrows (filter : Option Filter) : Prop :=
  ∀ reports, (applyTo filter reports).Sublist reports

/-- No filter leaves nothing out. -/
theorem narrows_none : Narrows none := List.Sublist.refl

/-- Keeping the reports at or above a severity leaves the others out. -/
theorem narrows_atLeast (least : Severity) : Narrows (some (atLeast least)) :=
  fun _ => List.filter_sublist

end Filter

end Marginalia
