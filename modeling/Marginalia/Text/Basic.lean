/-!
# Texts

A text is its list of characters, and every offset into it counts characters. Besides the
replacement of a stretch this module relates character offsets to the byte offsets of the UTF-8
form: a byte offset has a character offset only where a character starts or where the text ends.
-/

namespace Marginalia

/-- A text, as the list of its characters. -/
abbrev Text := List Char

namespace Text

/-- The text with the characters from `start` up to `stop` replaced by `inserted`. -/
def replace (t : Text) (start stop : Nat) (inserted : Text) : Text :=
  t.take start ++ inserted ++ t.drop stop

/-- Replacing a stretch that lies inside the text changes the length by the difference. -/
theorem length_replace {t : Text} {start stop : Nat} (inserted : Text)
    (hstart : start ≤ stop) (hstop : stop ≤ t.length) :
    (t.replace start stop inserted).length + (stop - start) = t.length + inserted.length := by
  simp only [replace, List.length_append, List.length_take, List.length_drop]
  omega

/-- The number of bytes of the UTF-8 form. -/
def byteLength (t : Text) : Nat := t.foldr (fun c n => c.utf8Size + n) 0

/-- The character offset at which byte `offset` of the UTF-8 form starts, if one does. -/
def charOffset? : Text → Nat → Option Nat
  | _, 0 => some 0
  | [], _ + 1 => none
  | c :: rest, offset + 1 =>
    if c.utf8Size ≤ offset + 1 then (charOffset? rest (offset + 1 - c.utf8Size)).map (· + 1)
    else none

end Text

end Marginalia
