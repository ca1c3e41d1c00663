import Marginalia.Session.Basic

/-!
# Replayed backends

A backend that gives answers from lists that are known beforehand: the evaluator its first result
on the first call, its second on the second, and so on, and each source likewise. Its state counts
the calls. A session over such a backend can be run again with the same outcome.
-/

namespace Marginalia.Session.Backend

/-- How often the evaluator and each source have been called. -/
structure Tally where
  evaluations : Nat
  asked : List Nat
  deriving DecidableEq, Repr

namespace Tally

/-- No calls yet. -/
def zero (sources : Nat) : Tally := ⟨0, List.replicate sources 0⟩

/-- How often the source at an index was asked. -/
def countOf (t : Tally) (index : Nat) : Nat := (t.asked[index]?).getD 0

end Tally

variable {Value : Type}

/-- The source at an index, which answers `answers` one after another and then nothing. -/
def replaySource (index : Nat) (answers : List (List Draft)) (t : Tally) (_ : Document) :
    Tally × List Draft :=
  ({ t with asked := t.asked.set index (t.countOf index + 1) },
    (answers[t.countOf index]?).getD [])

/-- The backend that answers `runs` and `sources` in order. The evaluator goes on with `last`. -/
def replay (runs : List (Except (List Failure) Value)) (last : Value)
    (sources : List (List (List Draft))) : Backend Tally Value where
  evaluate t _ _ _ :=
    ({ t with evaluations := t.evaluations + 1 }, (runs[t.evaluations]?).getD (.ok last))
  sources := sources.mapIdx replaySource

end Marginalia.Session.Backend
