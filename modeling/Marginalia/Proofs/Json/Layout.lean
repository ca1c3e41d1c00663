import Marginalia.Proofs.Json.Overflow
import Mathlib.Data.List.Forall2

/-!
# The ways to lay out a record

The fields of a record may be laid out as the members of an object, in any order and among other
members, or as the items of an array, where fields may be missing at the end. However they are laid
out, they are read alike. Conversely, what is read for a field is what the record gives for it, and
a record that repeats a field is not read at all.
-/

namespace Marginalia.Json

/-- The members for the fields that are given, in their order. -/
def present (given : List (String × Option Json)) : List (Option String × Json) :=
  given.filterMap fun field => field.2.map fun value => (some field.1, value)

/-- A member that nests less than 50 levels deep. -/
def Shallow (m : Option String × Json) : Prop := m.2.depth < 50

/-- A shallow member in which all names and strings have content and no number is greater than is
safe. -/
structure Harmless (m : Option String × Json) : Prop where
  shallow : Shallow m
  named : m.1.isSome = true
  plain : m.2.IsPlain

/-- The value is a record of the fields that are given. As an object it may have other members, of
the kind that is allowed. -/
inductive Lays (may : Option String × Json → Prop) (given : List (String × Option Json)) :
    Json → Prop where
  | object {members others : List (Option String × Json)}
      (order : members.Perm (present given ++ others))
      (unknown : ∀ m ∈ others, ∀ field ∈ given, m.1 ≠ some field.1)
      (allowed : ∀ m ∈ others, may m) : Lays may given (.object members)
  | array {items : List Json} {missing : Nat}
      (order : given.map (·.2) = items.map some ++ List.replicate missing none) :
      Lays may given (.array items)

/-- A field that is given is a member. -/
theorem mem_present_iff {given : List (String × Option Json)} {m : Option String × Json} :
    m ∈ present given ↔ ∃ name, m.1 = some name ∧ (name, some m.2) ∈ given := by
  obtain ⟨name?, value⟩ := m
  simp only [present, List.mem_filterMap, Option.map_eq_some_iff, Prod.mk.injEq, Prod.exists]
  constructor
  · rintro ⟨name, _, hfield, _, rfl, rfl, rfl⟩
    exact ⟨name, rfl, hfield⟩
  · rintro ⟨name, rfl, hfield⟩
    exact ⟨name, _, hfield, _, rfl, rfl, rfl⟩

section Members

variable {name : String} {members others : List (Option String × Json)} {value : Json}

/-- The values of a name are those that the members have for it. -/
theorem mem_valuesOf_iff : value ∈ valuesOf name members ↔ (some name, value) ∈ members := by
  simp [valuesOf]

/-- A name has as many values as there are members of that name. -/
theorem length_valuesOf :
    (valuesOf name members).length = (members.map (·.1)).count (some name) := by
  simp [valuesOf, List.count_eq_length_filter, List.filter_map, Function.comp_def]

/-- The values of a name in both of two lists of members. -/
theorem valuesOf_append :
    valuesOf name (members ++ others) = valuesOf name members ++ valuesOf name others := by
  simp [valuesOf]

/-- The values of a name are the same in whatever order the members are. -/
theorem valuesOf_perm (name : String) (h : members.Perm others) :
    (valuesOf name members).Perm (valuesOf name others) :=
  (h.filter _).map _

/-- A name that no member has has no values. -/
theorem valuesOf_eq_nil (h : ∀ m ∈ members, m.1 ≠ some name) : valuesOf name members = [] := by
  simpa [valuesOf, List.filter_eq_nil_iff] using fun name' v hm => h (name', v) hm

/-- A member is read if there is at most one of its name. -/
theorem member?_eq_some_iff {value? : Option Json} :
    member? name members = some value? ↔ valuesOf name members = value?.toList := by
  unfold member?
  cases value? <;> split <;> simp_all

/-- A member is not read if there is more than one of its name. -/
theorem member?_eq_none (h : 1 < (members.map (·.1)).count (some name)) :
    member? name members = none := by
  refine Option.eq_none_iff_forall_ne_some.mpr fun value? hmember => ?_
  rw [← length_valuesOf, member?_eq_some_iff.mp hmember] at h
  have := Option.length_toList_le (o := value?)
  omega

/-- The values of a name that is given once are what is given for it. -/
theorem valuesOf_present {given : List (String × Option Json)} {value? : Option Json}
    (hnodup : (given.map (·.1)).Nodup) (hfield : (name, value?) ∈ given) :
    valuesOf name (present given) = value?.toList := by
  induction given with
  | nil => cases hfield
  | cons field rest ih =>
    obtain ⟨hfresh, hrest⟩ := List.nodup_cons.mp hnodup
    have hcons : present (field :: rest)
        = (field.2.map fun value => (some field.1, value)).toList ++ present rest := by
      cases hvalue : field.2 <;> simp [present, hvalue]
    rw [hcons, valuesOf_append]
    rcases List.mem_cons.mp hfield with rfl | hmem
    · have hnil : valuesOf name (present rest) = [] := valuesOf_eq_nil fun m hm heq => by
        obtain ⟨other, hother, hmem⟩ := mem_present_iff.mp hm
        obtain rfl : name = other := Option.some.inj (heq.symm.trans hother)
        exact hfresh (List.mem_map.mpr ⟨_, hmem, rfl⟩)
      rw [hnil, List.append_nil]
      cases value? <;> simp [valuesOf]
    · have hne : field.1 ≠ name := fun heq => hfresh (List.mem_map.mpr ⟨_, hmem, heq.symm⟩)
      have hnil : valuesOf name (field.2.map fun value => (some field.1, value)).toList = [] :=
        valuesOf_eq_nil fun m hm => by
          obtain ⟨value, -, rfl⟩ := Option.map_eq_some_iff.mp (Option.mem_toList.mp hm)
          simpa using hne
      rw [hnil, List.nil_append, ih hrest hmem]

end Members

/-- A list is read exactly if each of its items is read as the element in its place. -/
theorem mapM_eq_some_iff {α β : Type} {read : α → Option β} {xs : List α} {ys : List β} :
    xs.mapM read = some ys ↔ List.Forall₂ (fun x y => read x = some y) xs ys := by
  induction xs generalizing ys with
  | nil => cases ys <;> simp
  | cons x rest ih =>
    rw [List.mapM_cons]
    cases hread : read x with
    | none => cases ys <;> simp [hread]
    | some y => cases ys <;> simp [hread, ← ih, Option.bind_eq_some_iff, and_comm]

section Layouts

variable {may : Option String × Json → Prop} {given : List (String × Option Json)} {v : Json}

/-- The member for a field that is given is read, in whatever order the members are. -/
theorem Lays.member?_eq {members : List (Option String × Json)}
    (h : Lays may given (.object members)) (hnodup : (given.map (·.1)).Nodup)
    {field : String × Option Json} (hfield : field ∈ given) :
    member? field.1 members = some field.2 := by
  cases h with
  | @object _ others order unknown _ =>
  have hothers : valuesOf field.1 others = [] :=
    valuesOf_eq_nil fun m hm => unknown m hm field hfield
  have hperm := valuesOf_perm field.1 order
  rw [valuesOf_append, valuesOf_present hnodup hfield, hothers, List.append_nil] at hperm
  refine member?_eq_some_iff.mpr ?_
  cases hvalue : field.2 <;> simpa [hvalue] using hperm

/-- The fields of a record are read as they are given, however it is laid out. -/
theorem Lays.fields?_eq (h : Lays may given v) (hnodup : (given.map (·.1)).Nodup) :
    fields? (given.map (·.1)) v = some (given.map (·.2)) := by
  cases hv : h with
  | array order =>
    have hlength := congrArg List.length order
    simp only [List.length_map, List.length_append, List.length_replicate] at hlength
    simp [fields?, hlength, order]
  | object =>
    exact mapM_eq_some_iff.mpr (List.forall₂_map_left_iff.mpr (List.forall₂_map_right_iff.mpr
      (List.forall₂_same.mpr fun _ hfield => h.member?_eq hnodup hfield)))

/-- What is in a record are the values of its fields and, in an object, those of other members that
are allowed. -/
theorem Lays.forall_parts {P : Json → Prop} (h : Lays may given v)
    (hgiven : ∀ field ∈ given, ∀ value ∈ field.2, P value) :
    (∃ items, v = .array items ∧ ∀ item ∈ items, P item) ∨
      ∃ members, v = .object members ∧ ∀ m ∈ members, m.1.isSome = true ∧ P m.2 ∨ may m := by
  cases h with
  | @array items _ order =>
    refine .inl ⟨items, rfl, fun item hitem => ?_⟩
    have hmem : some item ∈ given.map (·.2) := by simp [order, hitem]
    obtain ⟨field, hfield, hvalue⟩ := List.mem_map.mp hmem
    exact hgiven field hfield item hvalue
  | @object members _ order _ allowed =>
    refine .inr ⟨members, rfl, fun m hm => ?_⟩
    rcases List.mem_append.mp (order.mem_iff.mp hm) with hpresent | hother
    · obtain ⟨name, hname, hfield⟩ := mem_present_iff.mp hpresent
      exact .inl ⟨by simp [hname], hgiven _ hfield _ rfl⟩
    · exact .inr (allowed m hother)

/-- A record is one deeper than the fields that are given, if those nest as deep as other members
may. -/
theorem Lays.depth_le {d : Nat} (h : Lays may given v) (hmay : ∀ m, may m → Shallow m)
    (hd : 49 ≤ d) (hgiven : ∀ field ∈ given, ∀ value ∈ field.2, value.depth ≤ d) :
    v.depth ≤ d + 1 := by
  rcases h.forall_parts hgiven with ⟨items, rfl, hitems⟩ | ⟨members, rfl, hmembers⟩
  · exact depth_array_le_iff.mpr hitems
  · refine depth_object_le_iff.mpr fun m hm => ?_
    rcases hmembers m hm with hfield | hother
    · exact hfield.2
    · have : m.2.depth < 50 := hmay m hother
      omega

/-- A record of plain fields among harmless members is plain. -/
theorem Lays.isPlain (h : Lays Harmless given v)
    (hgiven : ∀ field ∈ given, ∀ value ∈ field.2, value.IsPlain) : v.IsPlain := by
  rcases h.forall_parts hgiven with ⟨items, rfl, hitems⟩ | ⟨members, rfl, hmembers⟩
  · exact .array hitems
  · exact .object (fun m hm => (hmembers m hm).elim And.left Harmless.named)
      (fun m hm => (hmembers m hm).elim And.right Harmless.plain)

/-- An object with the fields that are given as its members is one of their layouts. -/
theorem lays_record (fields : List (String × Json)) :
    Lays may (fields.map fun field => (field.1, some field.2)) (record fields) := by
  have horder : (fields.map fun field => (some field.1, field.2))
      = present (fields.map fun field => (field.1, some field.2)) ++ [] := by
    simp [present, List.filterMap_map]
  exact .object (.of_eq horder) (by simp) (by simp)

end Layouts

section Given

variable {names : List String} {name : String} {v value : Json} {values : List (Option Json)}

/-- The record has that value for one of its fields: as a member, or as the item in its place. -/
inductive Gives (names : List String) (name : String) (value : Json) : Json → Prop where
  | member {members : List (Option String × Json)} (known : name ∈ names)
      (h : (some name, value) ∈ members) : Gives names name value (.object members)
  | item {items : List Json} {i : Nat} (place : names[i]? = some name)
      (h : items[i]? = some value) : Gives names name value (.array items)

/-- What a record gives, it gives for one of its fields. -/
theorem Gives.mem_names (h : Gives names name value v) : name ∈ names := by
  cases h with
  | member known => exact known
  | item place => exact List.mem_of_getElem? place

/-- The value is an object with more than one member of that name. -/
def Repeats (name : String) (v : Json) : Prop :=
  ∃ members, v = .object members ∧ 1 < (members.map (·.1)).count (some name)

/-- A record that is read for the field in a place has there what it gives for it. -/
theorem gives_iff {i : Nat} (hfields : fields? names v = some values) (hnodup : names.Nodup)
    (hplace : names[i]? = some name) :
    Gives names name value v ↔ values[i]? = some (some value) := by
  cases v with
  | object members =>
    have hforall := mapM_eq_some_iff.mp hfields
    obtain ⟨hi, rfl⟩ := List.getElem?_eq_some_iff.mp hplace
    have hi' : i < values.length := hforall.length_eq ▸ hi
    have hmember : member? names[i] members = some values[i] := hforall.get hi hi'
    have hgives : Gives names names[i] value (.object members)
        ↔ value ∈ valuesOf names[i] members :=
      ⟨fun | .member _ h => mem_valuesOf_iff.mpr h,
        fun h => .member (List.getElem_mem hi) (mem_valuesOf_iff.mp h)⟩
    rw [hgives, member?_eq_some_iff.mp hmember, List.getElem?_eq_getElem hi']
    simp [eq_comm]
  | array items =>
    have hgives : Gives names name value (.array items) ↔ items[i]? = some value := by
      constructor
      · rintro ⟨⟩
        rename_i j hj hitem
        have hlt : i < names.length := (List.getElem?_eq_some_iff.mp hplace).1
        rwa [(List.getElem?_inj hlt hnodup).mp (hplace.trans hj.symm)]
      · exact .item hplace
    simp only [fields?] at hfields
    split at hfields
    · obtain rfl := Option.some.inj hfields
      rw [hgives]
      by_cases hi : i < items.length
      · simp [List.getElem?_append_left, hi]
      · simp [List.getElem?_append_right, List.getElem?_replicate, hi, Nat.le_of_not_lt hi]
    · cases hfields
  | null | bool | number | string => cases hfields

/-- A record that repeats a field is not read. -/
theorem Repeats.fields?_eq_none (h : Repeats name v) (hname : name ∈ names) :
    fields? names v = none := by
  obtain ⟨members, rfl, hcount⟩ := h
  refine Option.eq_none_iff_forall_ne_some.mpr fun values hfields => ?_
  have hforall := mapM_eq_some_iff.mp hfields
  obtain ⟨i, hi, rfl⟩ := List.getElem_of_mem hname
  have hi' : i < values.length := hforall.length_eq ▸ hi
  have hmember : member? names[i] members = some values[i] := hforall.get hi hi'
  rw [member?_eq_none hcount] at hmember
  cases hmember

end Given

end Marginalia.Json
