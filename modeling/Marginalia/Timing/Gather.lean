import Marginalia.Timing.Debounce

/-!
# Gathering the results of a run

Several sources may report on one run. Their results are gathered in slots, one per source, and
given out together, in the order of the sources, once all are there. The first result of a source
counts.
-/

namespace Marginalia

/-- The results of a run that have come in so far. -/
structure Gather (α : Type) where
  ticket : Ticket
  slots : List (Option α)
  deriving DecidableEq, Repr

namespace Gather

variable {α : Type}

/-- Wait for a number of sources. -/
def ofSources (ticket : Ticket) (sources : Nat) : Gather α :=
  ⟨ticket, List.replicate sources none⟩

/-- Take the result of source `index`. The answer is false, and nothing changes, if there is no
such source or its result is there already. -/
def resolve (g : Gather α) (index : Nat) (result : α) : Gather α × Bool :=
  match g.slots[index]? with
  | some none => ({ g with slots := g.slots.set index (some result) }, true)
  | _ => (g, false)

/-- How many sources have not answered yet. -/
def outstanding (g : Gather α) : Nat := g.slots.countP (·.isNone)

/-- Whether all sources have answered. -/
def isComplete (g : Gather α) : Bool := g.outstanding == 0

/-- All results in the order of the sources, if they are there. -/
def results? (g : Gather α) : Option (List α) :=
  if g.isComplete then some (g.slots.filterMap id) else none

/-- Give out the results in the order of the sources, or what has come in so far if some are
missing. -/
def handIn (g : Gather α) : Except (Gather α) (List α) :=
  match g.results? with
  | some results => .ok results
  | none => .error g

end Gather

end Marginalia
