import Marginalia.Json.Writer
import Marginalia.Proofs.Json.Grammar

/-!
# Values that are written and read back

A value whose numbers are numbers of the grammar and whose strings have content is read back from
its compact form, since that form is one of the ways to write it.
-/

namespace Marginalia.Json

mutual

/-- The numbers of the value are numbers of the grammar and its strings have content. -/
def IsWritable : Json → Prop
  | .number n => n.WellFormed
  | .string content => content.isSome
  | .array items => ItemsAreWritable items
  | .object members => MembersAreWritable members
  | _ => True

/-- All items of an array can be written. -/
def ItemsAreWritable : List Json → Prop
  | [] => True
  | item :: rest => item.IsWritable ∧ ItemsAreWritable rest

/-- All members of an object can be written, their names included. -/
def MembersAreWritable : List (Option String × Json) → Prop
  | [] => True
  | (name, value) :: rest => name.isSome ∧ value.IsWritable ∧ MembersAreWritable rest

end

/-- The pieces of a written string have it as content. -/
@[simp] theorem contentOf_map_pieceOf (s : String) :
    contentOf (s.toList.map Quoted.pieceOf) = some s := by
  simp [contentOf, Quoted.content?_map_pieceOf]

mutual

/-- The compact form of a value is a way to write it. -/
theorem spells_write : ∀ v : Json, v.IsWritable → Spells v.write v
  | .null, _ => .nullWord
  | .bool true, _ => .trueWord
  | .bool false, _ => .falseWord
  | .number _, hv => .number (Number.WellFormed.spells_write hv)
  | .string (some s), _ => by
    have hspells := Spells.string (Quoted.spells_flatMap_writeChar s.toList)
    rwa [contentOf_map_pieceOf] at hspells
  | .string none, hv => by simp [IsWritable] at hv
  | .array [], _ => .emptyArray isGap_nil
  | .array (item :: more), hv => .array (spellsItems_writeItems (item :: more) (by simp) hv)
  | .object [], _ => .emptyObject isGap_nil
  | .object (member :: more), hv =>
    .object (spellsMembers_writeMembers (member :: more) (by simp) hv)

/-- The items of an array in compact form are a way to write them. -/
theorem spellsItems_writeItems : ∀ items : List Json, items ≠ [] → ItemsAreWritable items →
    SpellsItems (writeItems items) items
  | [item], _, h => by
    simpa [writeItems, writeMoreItems] using
      SpellsItems.last isGap_nil (spells_write item h.1) isGap_nil
  | item :: next :: more, _, h => by
    simpa [writeItems, writeMoreItems] using
      SpellsItems.more isGap_nil (spells_write item h.1) isGap_nil
        (spellsItems_writeItems (next :: more) (by simp) h.2)

/-- The members of an object in compact form are a way to write them. -/
theorem spellsMembers_writeMembers : ∀ members : List (Option String × Json), members ≠ [] →
    MembersAreWritable members → SpellsMembers (writeMembers members) members
  | (none, _) :: _, _, h => by simp [MembersAreWritable] at h
  | [(some name, value)], _, h => by
    simpa [writeMembers, writeMoreMembers, writeText, Quoted.write] using
      SpellsMembers.last isGap_nil (Quoted.spells_flatMap_writeChar name.toList) isGap_nil
        isGap_nil (spells_write value h.2.1) isGap_nil
  | (some name, value) :: next :: more, _, h => by
    simpa [writeMembers, writeMoreMembers, writeText, Quoted.write] using
      SpellsMembers.more isGap_nil (Quoted.spells_flatMap_writeChar name.toList) isGap_nil
        isGap_nil (spells_write value h.2.1) isGap_nil
        (spellsMembers_writeMembers (next :: more) (by simp) h.2.2)

end

/-- A text that is written for a value is read as that value. -/
theorem parse?_write {v : Json} (hv : v.IsWritable) : parse? v.write = some v :=
  parse?_eq_some_iff.mpr
    ⟨[], v.write, [], isGap_nil, spells_write v hv, isGap_nil, by simp⟩

/-- An object with one member is read from the written form of its name and its value, also with
blanks between the colon and the value. -/
theorem parse?_single_member (name : String) {v : Json} (hv : v.IsWritable) {gap : List Char}
    (hgap : ∀ c ∈ gap, isBlank c = true) :
    parse? ('\x7b' :: Quoted.write name.toList ++ ':' :: gap ++ v.write ++ ['\x7d'])
      = some (.object [(some name, v)]) := by
  have hmembers := SpellsMembers.last isGap_nil (Quoted.spells_flatMap_writeChar name.toList)
    isGap_nil hgap (spells_write v hv) isGap_nil
  rw [contentOf_map_pieceOf] at hmembers
  exact parse?_eq_some_iff.mpr
    ⟨[], _, [], isGap_nil, .object hmembers, isGap_nil, by simp [Quoted.write]⟩

end Marginalia.Json
