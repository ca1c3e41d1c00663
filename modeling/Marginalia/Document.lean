import Marginalia.Edit.Basic
import Marginalia.Text.Line

/-!
# Documents

A document is the current text of one source together with a version, which grows by one with
every edit that has a pass. Line queries are those of the text.
-/

namespace Marginalia

/-- The text of the source named `source` after `version` edits. -/
structure Document where
  source : String
  text : Text
  version : Nat
  deriving DecidableEq, Repr

namespace Document

/-- A document that has not been edited yet. -/
def ofText (source : String) (text : Text) : Document := ⟨source, text, 0⟩

/-- The number of characters. -/
def length (d : Document) : Nat := d.text.length

/-- The number of bytes in UTF-8. -/
def byteLength (d : Document) : Nat := d.text.byteLength

/-- The number of lines, at least one. -/
def lineCount (d : Document) : Nat := d.text.lines.length

/-- The line that contains `offset`; an offset past the end counts as the end. -/
def lineAt (d : Document) (offset : Nat) : Line := d.text.lineAt offset

/-- Line `number`; a number past the last line counts as the last. -/
def line (d : Document) (number : Nat) : Line := d.text.line number

/-- The character offset at which byte `offset` starts, if one does. -/
def charOffset? (d : Document) (offset : Nat) : Option Nat := d.text.charOffset? offset

/-- Apply an edit. An edit for another length is refused, also one that would change nothing. -/
def apply (d : Document) (e : Edit) : Except Edit.Error Document :=
  match e.apply d.text with
  | .error error => .error error
  | .ok text => .ok { d with text, version := if e.isEmpty then d.version else d.version + 1 }

end Document

end Marginalia
