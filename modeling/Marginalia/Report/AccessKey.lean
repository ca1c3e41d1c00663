import Marginalia.Report.Basic

/-!
# Access keys

Each action of a report gets a letter of its name as its key, greedily in order: the first ASCII
letter that no earlier action has, in either case. The letter keeps its case. An action whose
letters are all taken has no key. Only ASCII letters are folded: `é` and `É` are no keys at all.
-/

namespace Marginalia.AccessKey

/-- Whether two characters are one letter but for the case of ASCII letters. -/
def sameLetter (a b : Char) : Bool := a.toLower == b.toLower

/-- The first letter of `name` that is not among the keys given out. -/
def firstFree (taken : List Char) (name : List Char) : Option Char :=
  name.find? fun c => c.isAlpha && !taken.any (sameLetter · c)

/-- Keys for the names in order, when the keys in `taken` are given out already. -/
def assignFrom (taken : List Char) : List String → List (Option Char)
  | [] => []
  | name :: rest =>
    match firstFree taken name.toList with
    | some c => some c :: assignFrom (c :: taken) rest
    | none => none :: assignFrom taken rest

/-- A key, or none, for each of the names. -/
def assign (names : List String) : List (Option Char) := assignFrom [] names

/-- Keys for the actions of a report. -/
def ofActions (actions : List Action) : List (Option Char) := assign (actions.map (·.name))

/-- The index of the action that holds the letter `c`, in either case. -/
def holder? (keys : List (Option Char)) (c : Char) : Option Nat :=
  keys.findIdx? fun key =>
    match key with
    | some k => sameLetter k c
    | none => false

/-- There is one entry per name. -/
theorem length_assignFrom (taken : List Char) (names : List String) :
    (assignFrom taken names).length = names.length := by
  induction names generalizing taken with
  | nil => rfl
  | cons name rest ih =>
    unfold assignFrom
    split <;> simp [ih]

end Marginalia.AccessKey
