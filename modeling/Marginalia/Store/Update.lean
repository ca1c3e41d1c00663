import Marginalia.Store.Basic

/-!
# Updating the store

A transaction may carry an edit and effects. The edit comes first: annotations move with it, and
the selection follows its report, or passes to the next annotation when its report is gone. The
effects follow in order. A replacement of all reports places the new ones in the edited document
and chooses the selection by a rule. The version counts the transactions that did something.
-/

namespace Marginalia

/-- Which report becomes selected when all reports are replaced. -/
inductive SelectionRule where
  /-- The first new report. -/
  | first
  /-- The given report if it is among the new ones, the first otherwise. -/
  | preserve (report : Report)
  /-- The new report where the old selection was, else the next after it, else the first. -/
  | samePlace
  deriving DecidableEq, Repr

/-- What a transaction does to the store. -/
inductive Effect where
  /-- Replace all reports. -/
  | setReports (reports : List Report) (rule : SelectionRule)
  /-- Open or close the panel. -/
  | setPanel (isOpen : Bool)
  /-- Select a report of the store. -/
  | select (selection : Selection)
  deriving DecidableEq, Repr

/-- An edit, if there is one, and the effects that follow it. -/
structure Transaction where
  edit : Option Edit
  effects : List Effect
  deriving DecidableEq, Repr

namespace Transaction

/-- The transaction with nothing but an edit. -/
def ofEdit (e : Edit) : Transaction := ⟨some e, []⟩

/-- The transaction with nothing but one effect. -/
def ofEffect (effect : Effect) : Transaction := ⟨none, [effect]⟩

/-- The transaction that replaces all reports and selects the first. -/
def ofReports (reports : List Report) : Transaction := ofEffect (.setReports reports .first)

/-- The edit, unless it changes nothing. -/
def change (t : Transaction) : Option Edit := t.edit.filter (!·.isEmpty)

/-- Whether the transaction changes the text. -/
def changesText (t : Transaction) : Bool := t.change.isSome

/-- Whether the transaction replaces all reports. -/
def setsReports (t : Transaction) : Bool :=
  t.effects.any fun effect =>
    match effect with
    | .setReports _ _ => true
    | _ => false

end Transaction

namespace Store

/-- Where the selection goes with an edit: its report keeps it while it is annotated; then the
first annotation at or after the place where the selection started gets it. -/
def carrySelection (e : Edit) (annotations : List Annotation) (old : Selection) :
    Option Selection :=
  (firstFrom annotations (some old.report) 0).orElse fun _ =>
    firstFrom annotations none (e.image .after old.extent.start)

/-- The store after an edit. -/
def carry (s : Store) (e : Edit) : Store :=
  let annotations := Annotation.carryAll e s.annotations
  { s with annotations, selected := s.selected.bind (carrySelection e annotations) }

/-- The selection among new annotations. -/
def choose (old : Option Selection) (annotations : List Annotation) :
    SelectionRule → Option Selection
  | .first => firstFrom annotations none 0
  | .preserve r =>
    (firstFrom annotations (some r) 0).orElse fun _ => firstFrom annotations none 0
  | .samePlace =>
    (old.bind fun selection =>
      ((annotations.find? (·.extent == selection.extent)).map selectionOf).orElse fun _ =>
        firstFrom annotations none selection.extent.start).orElse fun _ =>
          firstFrom annotations none 0

/-- The store after an effect. -/
def perform (doc : Document) (s : Store) : Effect → Store
  | .setReports reports rule =>
    let annotations := Annotation.place doc reports
    { s with annotations, selected := choose s.selected annotations rule }
  | .setPanel isOpen => { s with panelOpen := isOpen }
  | .select selection => { s with selected := some selection }

/-- The store after a transaction, before it is checked. `doc` is the edited document. -/
def advance (s : Store) (t : Transaction) (doc : Document) : Store :=
  let carried :=
    match t.change with
    | some e => s.carry e
    | none => s
  let next := t.effects.foldl (perform doc) carried
  if t.changesText || !t.effects.isEmpty then { next with version := s.version + 1 } else next

/-- The store after a transaction. A store that does not pass the check is a fault. -/
def update (s : Store) (t : Transaction) (doc : Document) : Except Fault Store :=
  match (s.advance t doc).fault? doc.length with
  | some fault => .error fault
  | none => .ok (s.advance t doc)

/-- A transaction that goes through leaves a store that is valid for the document. -/
theorem valid_of_update {s next : Store} {t : Transaction} {doc : Document}
    (h : s.update t doc = .ok next) : next.Valid doc.length := by
  unfold update at h
  split at h
  case h_1 => simp at h
  case h_2 none_found =>
    obtain rfl := Except.ok.inj h
    exact fault?_eq_none_iff.mp none_found

end Store

end Marginalia
