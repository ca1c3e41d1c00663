import Marginalia.Json.Record
import Marginalia.Proofs.Json.RoundTrip

/-!
# Arrays and objects by their parts

An array or an object can be written when its parts can. It is one deeper than the deepest of its
parts, and it has meaning when all its parts have, where a number has meaning if it has a value and
a string if it has content. A value that can be held as a whole is one within the limit of the
reader that has meaning.
-/

namespace Marginalia.Json

/-- Items can be written when each of them can. -/
theorem itemsAreWritable_iff (items : List Json) :
    ItemsAreWritable items ↔ ∀ v ∈ items, v.IsWritable := by
  induction items with
  | nil => simp [ItemsAreWritable]
  | cons item rest ih => simp [ItemsAreWritable, ih]

/-- Named members can be written when each of their values can. -/
theorem membersAreWritable_iff (members : List (String × Json)) :
    MembersAreWritable (members.map fun (name, value) => (some name, value))
      ↔ ∀ m ∈ members, m.2.IsWritable := by
  induction members with
  | nil => simp [MembersAreWritable]
  | cons m rest ih => simp only [List.map_cons, MembersAreWritable, ih]; simp

/-- An array can be written when each of its items can. -/
@[simp] theorem isWritable_array (items : List Json) :
    (array items).IsWritable ↔ ∀ v ∈ items, v.IsWritable :=
  itemsAreWritable_iff items

/-- A record can be written when each of its fields can. -/
@[simp] theorem isWritable_record (members : List (String × Json)) :
    (record members).IsWritable ↔ ∀ m ∈ members, m.2.IsWritable :=
  membersAreWritable_iff members

/-- Any string can be written. -/
@[simp] theorem isWritable_text (s : String) : (text s).IsWritable := rfl

/-- Any natural number can be written. -/
@[simp] theorem isWritable_nat (n : Nat) : (nat n).IsWritable := Number.wellFormed_ofNat n

/-- Null can be written. -/
@[simp] theorem isWritable_null : null.IsWritable := trivial

/-- Either truth value can be written. -/
@[simp] theorem isWritable_flag (b : Bool) : (flag b).IsWritable := trivial

/-- A value can be held as a whole exactly if it is within the limit and has meaning. -/
theorem isProper_iff {v : Json} :
    v.isProper = true ↔ v.depth ≤ depthLimit ∧ v.hasMeaning = true := by
  simp [isProper]

/-- Items stay within a depth when each of them does. -/
theorem depthOfItems_le_iff (items : List Json) (d : Nat) :
    depthOfItems items ≤ d ↔ ∀ v ∈ items, v.depth ≤ d := by
  induction items with
  | nil => simp [depthOfItems]
  | cons item rest ih => simp [depthOfItems, ih]

/-- Members stay within a depth when each of their values does. -/
theorem depthOfMembers_le_iff (members : List (Option String × Json)) (d : Nat) :
    depthOfMembers members ≤ d ↔ ∀ m ∈ members, m.2.depth ≤ d := by
  induction members with
  | nil => simp [depthOfMembers]
  | cons m rest ih => simp [depthOfMembers, ih]

/-- Items have meaning when each of them has. -/
theorem itemsHaveMeaning_iff (items : List Json) :
    itemsHaveMeaning items = true ↔ ∀ v ∈ items, v.hasMeaning = true := by
  induction items with
  | nil => simp [itemsHaveMeaning]
  | cons item rest ih => simp [itemsHaveMeaning, ih]

/-- Members have meaning when each of them has a name with content and a value that has meaning. -/
theorem membersHaveMeaning_iff (members : List (Option String × Json)) :
    membersHaveMeaning members = true
      ↔ ∀ m ∈ members, m.1.isSome = true ∧ m.2.hasMeaning = true := by
  induction members with
  | nil => simp [membersHaveMeaning]
  | cons m rest ih => simp [membersHaveMeaning, ih]

/-- An array is one deeper than its items. -/
@[simp] theorem depth_array_le_iff {items : List Json} {d : Nat} :
    (array items).depth ≤ d + 1 ↔ ∀ v ∈ items, v.depth ≤ d := by
  rw [depth, Nat.add_le_add_iff_right, depthOfItems_le_iff]

/-- An object is one deeper than its values. -/
@[simp] theorem depth_object_le_iff {members : List (Option String × Json)} {d : Nat} :
    (object members).depth ≤ d + 1 ↔ ∀ m ∈ members, m.2.depth ≤ d := by
  rw [depth, Nat.add_le_add_iff_right, depthOfMembers_le_iff]

/-- A string has no depth. -/
@[simp] theorem depth_text (s : String) : (text s).depth = 0 := rfl

/-- A number has no depth. -/
@[simp] theorem depth_nat (n : Nat) : (nat n).depth = 0 := rfl

/-- A string is read as its content. -/
@[simp] theorem toText?_text (s : String) : (text s).toText? = some s := rfl

/-- A natural number that fits a word is read as an offset. -/
theorem toOffset?_nat {n : Nat} (hn : n ≤ greatestOffset) : (nat n).toOffset? = some n :=
  Number.toOffset?_ofNat hn

end Marginalia.Json
