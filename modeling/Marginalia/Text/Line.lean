import Marginalia.Text.Basic

/-!
# Lines

A text falls into lines at its line breaks: line feed, carriage return, the pair of the two as
one break, vertical tab, form feed, next line, line separator and paragraph separator. A break
belongs to the line that it ends, and a text that ends in a break has one more, empty, line. So
every text has at least one line.
-/

namespace Marginalia

/-- A line by its number, counted from 0, and its offsets without the break that ends it. -/
structure Line where
  number : Nat
  start : Nat
  stop : Nat
  deriving DecidableEq, Repr

namespace Text

/-- The characters that end a line on their own. -/
def isBreak (c : Char) : Bool :=
  c == '\n' || c == '\r' || c == '\x0b' || c == '\x0c' || c == '\u0085' || c == '\u2028'
    || c == '\u2029'

/-- The lines of the rest of a text, where line `number` began at `start` and the rest at
`offset`. -/
def linesFrom (number start offset : Nat) : Text → List Line
  | [] => [⟨number, start, offset⟩]
  | '\r' :: '\n' :: rest =>
    ⟨number, start, offset⟩ :: linesFrom (number + 1) (offset + 2) (offset + 2) rest
  | c :: rest =>
    if isBreak c then
      ⟨number, start, offset⟩ :: linesFrom (number + 1) (offset + 1) (offset + 1) rest
    else linesFrom number start (offset + 1) rest

/-- All lines of a text in order. -/
def lines (t : Text) : List Line := linesFrom 0 0 0 t

/-- The line in force at `offset`, where `line` starts before it: walk on while the next line
starts at or before it. -/
def lineInForce (offset : Nat) (line : Line) : List Line → Line
  | [] => line
  | next :: rest => if next.start ≤ offset then lineInForce offset next rest else line

/-- The line that contains `offset`; an offset past the end counts as the end. -/
def lineAt (t : Text) (offset : Nat) : Line :=
  match lines t with
  | [] => ⟨0, 0, t.length⟩
  | first :: rest => lineInForce (min offset t.length) first rest

/-- Line `number`; a number past the last line counts as the last. -/
def line (t : Text) (number : Nat) : Line :=
  let ls := lines t
  (ls[min number (ls.length - 1)]?).getD ⟨0, 0, t.length⟩

/-- The rest of a text has at least the line that is under way. -/
theorem linesFrom_ne_nil (number start offset : Nat) (t : Text) :
    linesFrom number start offset t ≠ [] := by
  fun_induction linesFrom number start offset t with
  | case1 | case2 | case3 => simp
  | case4 _ _ _ _ _ _ _ ih => exact ih

/-- Every text has a line. -/
theorem lines_ne_nil (t : Text) : lines t ≠ [] := linesFrom_ne_nil 0 0 0 t

end Text

end Marginalia
