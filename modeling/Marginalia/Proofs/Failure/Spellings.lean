import Marginalia.Proofs.Failure.Layout
import Mathlib.Tactic.SplitIfs

/-!
# Texts that are read alike, and texts that are refused

Each text for a list of failures is read as that list, whatever layout each record has and however
its parts are spelled, as long as other members are harmless. The reader looks at these members,
too: it refuses a string without content, and a number that overflows as it is computed, which some
numbers next to the greatest double do. A list is read only if all records in it are, so one defect
in one of them is enough for the whole text to be refused: a field that is there twice, a field that
has to be there and is not, or an offset that is no integer.
-/

namespace Marginalia

open Json (Gives Repeats Shallow Harmless)

/-- The value is an integer without sign that fits a word. -/
def Json.IsOffset (v : Json) : Prop :=
  ∃ digits, v = .number ⟨false, digits, none, none⟩ ∧ Number.digitsValue digits ≤ greatestOffset

/-- What is read as an offset is an integer that fits a word. -/
theorem Json.isOffset_of_toOffset? {v : Json} (h : v.toOffset?.isSome = true) : v.IsOffset := by
  cases v with
  | number n =>
    obtain ⟨_, hoffset⟩ := Option.isSome_iff_exists.mp h
    obtain ⟨word, hword, hnat⟩ := Option.bind_eq_some_iff.mp hoffset
    obtain ⟨negative, whole, fraction, exponent⟩ := n
    simp only [Number.toWord?, Number.isInteger] at hword
    split_ifs at hword with hinteger hnegative hpositive hfits
    · -- A sign is only kept before a number that is not zero, which is no offset then.
      have hword := Option.some.inj hword
      have hnat := Int.mem_toNat?.mp hnat
      omega
    · obtain ⟨hfraction, hexponent⟩ : fraction = none ∧ exponent = none := by simpa using hinteger
      obtain rfl : negative = false := by simpa using hnegative
      subst hfraction hexponent
      exact ⟨whole, rfl, hfits⟩
  | null | bool | string | array | object => cases h

namespace Failure

/-- The kinds of records that a list of failures is made of. -/
inductive Kind where
  | failure
  | label
  | span

/-- The fields of a kind of records, in their order. -/
def Kind.fields : Kind → List String
  | .failure => ["span", "message", "labels", "notes"]
  | .label => ["span", "message"]
  | .span => ["sourceId", "start", "end"]

/-- The fields that have to be there, which are the first ones. -/
def Kind.required : Kind → List String
  | .failure | .label => ["span", "message"]
  | .span => ["sourceId", "start", "end"]

/-- A record of the list that the value is to be, of that kind. -/
inductive Holds (v : Json) : Kind → Json → Prop where
  | bare {items : List Json} {record : Json} (list : v = .array items) (h : record ∈ items) :
      Holds v .failure record
  | wrapped {members : List (Option String × Json)} {items : List Json} {record : Json}
      (list : v = .object members) (reports : (some "reports", .array items) ∈ members)
      (h : record ∈ items) : Holds v .failure record
  | label {outer : Json} {items : List Json} {record : Json} (failure : Holds v .failure outer)
      (labels : Gives Kind.failure.fields "labels" (.array items) outer) (h : record ∈ items) :
      Holds v .label record
  | span {kind : Kind} {outer record : Json} (within : Holds v kind outer)
      (h : Gives kind.fields "span" record outer) : Holds v .span record

/-- The record repeats a field, lacks one that has to be there, or has an offset that is none. -/
inductive Defective : Kind → Json → Prop where
  | repeated {kind : Kind} {record : Json} {name : String} (known : name ∈ kind.fields)
      (h : Repeats name record) : Defective kind record
  | lacking {kind : Kind} {record : Json} {name : String} (required : name ∈ kind.required)
      (h : ∀ value, ¬ Gives kind.fields name value record) : Defective kind record
  | offset {record value : Json} {name : String} (place : name ∈ ["start", "end"])
      (h : Gives Kind.span.fields name value record) (none : ¬ value.IsOffset) :
      Defective .span record

/-- The record is read, as one of its kind. -/
def Kind.Reads : Kind → Json → Prop
  | .failure, v => (ofJson? v).isSome = true
  | .label, v => (labelOf? v).isSome = true
  | .span, v => (spanOf? v).isSome = true

section Reading

variable {v : Json}

/-- A span that is read has a source and two offsets. -/
theorem of_spanOf? (h : Kind.span.Reads v) : ∃ source start stop,
    v.fields? Kind.span.fields = some [some source, some start, some stop]
      ∧ start.IsOffset ∧ stop.IsOffset := by
  simp only [Kind.Reads, spanOf?] at h
  split at h
  · next source start stop hfields =>
    obtain ⟨s, h⟩ := Option.isSome_iff_exists.mp h
    obtain ⟨_, -, h⟩ := Option.bind_eq_some_iff.mp h
    obtain ⟨_, hstart, h⟩ := Option.bind_eq_some_iff.mp h
    obtain ⟨_, hstop, -⟩ := Option.bind_eq_some_iff.mp h
    exact ⟨source, start, stop, hfields, Json.isOffset_of_toOffset? (by simp [hstart]),
      Json.isOffset_of_toOffset? (by simp [hstop])⟩
  · cases h

/-- A label that is read has a span that is read, and a message. -/
theorem of_labelOf? (h : Kind.label.Reads v) : ∃ span message,
    v.fields? Kind.label.fields = some [some span, some message] ∧ Kind.span.Reads span := by
  simp only [Kind.Reads, labelOf?] at h
  split at h
  · next span message hfields =>
    obtain ⟨label, h⟩ := Option.isSome_iff_exists.mp h
    obtain ⟨_, hspan, -⟩ := Option.bind_eq_some_iff.mp h
    exact ⟨span, message, hfields, by simp [Kind.Reads, hspan]⟩
  · cases h

/-- A failure that is read has a span that is read, a message, and labels that are read. -/
theorem of_ofJson? (h : Kind.failure.Reads v) : ∃ span message labels notes,
    v.fields? Kind.failure.fields = some [some span, some message, labels, notes]
      ∧ Kind.span.Reads span ∧ (Json.listOrEmpty? labelOf? labels).isSome = true := by
  simp only [Kind.Reads, ofJson?] at h
  split at h
  · next span message labels notes hfields =>
    obtain ⟨f, h⟩ := Option.isSome_iff_exists.mp h
    obtain ⟨_, hspan, h⟩ := Option.bind_eq_some_iff.mp h
    obtain ⟨_, -, h⟩ := Option.bind_eq_some_iff.mp h
    obtain ⟨_, hlabels, -⟩ := Option.bind_eq_some_iff.mp h
    exact ⟨span, message, labels, notes, hfields, by simp [Kind.Reads, hspan], by simp [hlabels]⟩
  · cases h

/-- Each item of a list that is read is read. -/
theorem isSome_of_mapM {α : Type} {read : Json → Option α} {items : List Json}
    (h : (items.mapM read).isSome = true) {item : Json} (hitem : item ∈ items) :
    (read item).isSome = true := by
  obtain ⟨xs, hxs⟩ := Option.isSome_iff_exists.mp h
  have hforall := Json.mapM_eq_some_iff.mp hxs
  obtain ⟨i, hi, rfl⟩ := List.getElem_of_mem hitem
  have hi' : i < xs.length := hforall.length_eq ▸ hi
  have hread : read items[i] = some xs[i] := hforall.get hi hi'
  simp [hread]

/-- No field has a name of its own twice. -/
theorem Kind.nodup_fields (kind : Kind) : kind.fields.Nodup := by
  cases kind <;> decide

/-- A record that is read has fields, among them all that have to be there. -/
theorem Kind.Reads.exists_fields {kind : Kind} (h : kind.Reads v) : ∃ values,
    v.fields? kind.fields = some values ∧ ∀ name ∈ kind.required, ∃ (value : Json) (i : Nat),
      kind.fields[i]? = some name ∧ values[i]? = some (some value) := by
  cases kind with
  | failure =>
    obtain ⟨span, message, labels, notes, hfields, -⟩ := of_ofJson? h
    refine ⟨_, hfields, ?_⟩
    simp only [Kind.required, List.forall_mem_cons]
    exact ⟨⟨span, 0, rfl, rfl⟩, ⟨message, 1, rfl, rfl⟩, nofun⟩
  | label =>
    obtain ⟨span, message, hfields, -⟩ := of_labelOf? h
    refine ⟨_, hfields, ?_⟩
    simp only [Kind.required, List.forall_mem_cons]
    exact ⟨⟨span, 0, rfl, rfl⟩, ⟨message, 1, rfl, rfl⟩, nofun⟩
  | span =>
    obtain ⟨source, start, stop, hfields, -⟩ := of_spanOf? h
    refine ⟨_, hfields, ?_⟩
    simp only [Kind.required, List.forall_mem_cons]
    exact ⟨⟨source, 0, rfl, rfl⟩, ⟨start, 1, rfl, rfl⟩, ⟨stop, 2, rfl, rfl⟩, nofun⟩

/-- A record with a defect is not read. -/
theorem Defective.not_reads {kind : Kind} {record : Json} (h : Defective kind record) :
    ¬ kind.Reads record := by
  intro hreads
  obtain ⟨values, hfields, hrequired⟩ := hreads.exists_fields
  cases h with
  | repeated known hrepeats =>
    rw [hrepeats.fields?_eq_none known] at hfields
    cases hfields
  | lacking required hlacks =>
    obtain ⟨value, i, hplace, hvalue⟩ := hrequired _ required
    exact hlacks value ((Json.gives_iff hfields kind.nodup_fields hplace).mpr hvalue)
  | @offset _ value name place hgives hnone =>
    obtain ⟨source, start, stop, hfields, hstart, hstop⟩ := of_spanOf? hreads
    simp only [List.mem_cons, List.not_mem_nil, or_false] at place
    rcases place with rfl | rfl
    · have hvalue := (Json.gives_iff (i := 1) hfields (Kind.nodup_fields _) rfl).mp hgives
      obtain rfl : start = value := by simpa using hvalue
      exact hnone hstart
    · have hvalue := (Json.gives_iff (i := 2) hfields (Kind.nodup_fields _) rfl).mp hgives
      obtain rfl : stop = value := by simpa using hvalue
      exact hnone hstop

/-- The span of a record that is read is read. -/
theorem Kind.Reads.span {kind : Kind} {value : Json} (h : kind.Reads v)
    (hgives : Gives kind.fields "span" value v) : Kind.span.Reads value := by
  cases kind with
  | failure =>
    obtain ⟨span, _, _, _, hfields, hspan, -⟩ := of_ofJson? h
    have hvalue := (Json.gives_iff (i := 0) hfields (Kind.nodup_fields _) rfl).mp hgives
    obtain rfl : span = value := by simpa using hvalue
    exact hspan
  | label =>
    obtain ⟨span, _, hfields, hspan⟩ := of_labelOf? h
    have hvalue := (Json.gives_iff (i := 0) hfields (Kind.nodup_fields _) rfl).mp hgives
    obtain rfl : span = value := by simpa using hvalue
    exact hspan
  | span => exact absurd hgives.mem_names (by decide)

/-- The labels of a failure that is read are read. -/
theorem Kind.Reads.label {items : List Json} {record : Json} (h : Kind.failure.Reads v)
    (hgives : Gives Kind.failure.fields "labels" (.array items) v) (hrecord : record ∈ items) :
    Kind.label.Reads record := by
  obtain ⟨_, _, labels, _, hfields, -, hlabels⟩ := of_ofJson? h
  have hvalue := (Json.gives_iff (i := 2) hfields (Kind.nodup_fields _) rfl).mp hgives
  obtain rfl : labels = some (.array items) := by simpa using hvalue
  exact isSome_of_mapM hlabels hrecord

/-- All records of a list that is read are read. -/
theorem Holds.reads {kind : Kind} {record : Json} (h : Holds v kind record)
    (hlist : (listOfJson? v).isSome = true) : kind.Reads record := by
  induction h with
  | bare list hrecord =>
    subst list
    exact isSome_of_mapM hlist hrecord
  | @wrapped members items _ list reports hrecord =>
    subst list
    simp only [listOfJson?] at hlist
    split at hlist
    · next value hmember =>
      have hvalues := Json.member?_eq_some_iff.mp hmember
      obtain rfl : .array items = value := by
        simpa [hvalues] using Json.mem_valuesOf_iff.mpr reports
      exact isSome_of_mapM hlist hrecord
    · cases hlist
  | label _ labels hrecord ih => exact ih.label labels hrecord
  | span _ hgives ih => exact ih.span hgives

/-- A list is not read if one of its records has a defect, or if it is given twice. -/
theorem listOfJson?_eq_none (h : (∃ kind record, Holds v kind record ∧ Defective kind record)
    ∨ Repeats "reports" v) : listOfJson? v = none := by
  rcases h with ⟨kind, record, hholds, hdefective⟩ | ⟨members, rfl, hcount⟩
  · by_contra hlist
    exact hdefective.not_reads (hholds.reads (Option.isSome_iff_ne_none.mpr hlist))
  · simp [listOfJson?, Json.member?_eq_none hcount]

end Reading

/-- Every list of failures is read from every text that lays it out among harmless members. Among
shallow ones it is read exactly if the whole text has meaning. No list is read from a text in which
a record has a defect or the list is given twice. -/
theorem spellings_read_alike {text : Text} {v : Json} (htext : Json.IsText text v) :
    (∀ failures : List Failure, (∀ f ∈ failures, f.Fits) →
      (AllLaidAs Harmless failures v → readList? text = some failures)
      ∧ (AllLaidAs Shallow failures v →
        readList? text = if v.hasMeaning then some failures else none))
    ∧ ((∃ kind record, Holds v kind record ∧ Defective kind record) ∨ Repeats "reports" v →
      readList? text = none) := by
  refine ⟨fun failures hfailures => ⟨readList?_of_allLaidAs htext hfailures,
    readList?_eq_of_shallow htext hfailures⟩, fun h => ?_⟩
  simp [readList?, Json.parse?_eq_some_iff.mpr htext, listOfJson?_eq_none h]

/-- An object with a member `n` besides the reports. The members of the failure and of its span are
out of order, its label is laid out as an array, and two unknown members have one name. -/
def mixed : Json :=
  .record [("n", .array []), ("reports", .array [.record
    [("message", .text "a"),
      ("span", .record [("start", .nat 1), ("sourceId", .text "m"), ("end", .nat 2)]),
      ("labels", .array [.array [.array [.text "m", .nat 0, .nat 1], .text "here"]]),
      ("x", .null), ("x", .flag true)]])]

private theorem allLaidAs_mixed :
    AllLaidAs Harmless [⟨⟨"m", 1, 2⟩, "a", [⟨⟨"m", 0, 1⟩, "here"⟩], []⟩] mixed := by
  have hlabel : Label.LaidAs Harmless ⟨⟨"m", 0, 1⟩, "here"⟩
      (.array [.array [.text "m", .nat 0, .nat 1], .text "here"]) :=
    ⟨_, @Json.Lays.array _ _ _ 0 rfl, @Json.Lays.array _ _ _ 0 rfl⟩
  have hspan : ByteSpan.LaidAs Harmless ⟨"m", 1, 2⟩
      (.record [("start", .nat 1), ("sourceId", .text "m"), ("end", .nat 2)]) :=
    @Json.Lays.object _ _ _ [] (.swap _ _ _) nofun nofun
  have hunknown : ∀ m ∈ [(some "x", Json.null), (some "x", Json.flag true)], Harmless m :=
    List.forall_mem_cons.mpr ⟨⟨Nat.zero_lt_succ _, rfl, .null⟩,
      List.forall_mem_singleton.mpr ⟨Nat.zero_lt_succ _, rfl, .bool true⟩⟩
  have hfailure : LaidAs Harmless ⟨⟨"m", 1, 2⟩, "a", [⟨⟨"m", 0, 1⟩, "here"⟩], []⟩ _ :=
    ⟨_, _, _, hspan, .array (.cons hlabel .nil), .leftOut,
      .object (.swap _ _ _) (by simp) hunknown⟩
  have hshallow : Shallow (some "n", .array []) := show (Json.array []).depth < 50 by decide
  exact .wrapped (.cons hfailure .nil)
    (@Json.Lays.object _ _ _ [(some "n", .array [])] (.swap _ _ _) (by simp)
      (List.forall_mem_singleton.mpr ⟨hshallow, rfl, .array nofun⟩))

/-- A failure with a label of which the span lacks its end. -/
def cut : Json :=
  .array [.array [.array [.text "m", .nat 1, .nat 2], .text "a",
    .array [.array [.array [.text "m", .nat 0], .text "here"]]]]

private theorem exists_defective_cut :
    ∃ kind record, Holds cut kind record ∧ Defective kind record := by
  have hlabel : Holds cut .label (.array [.array [.text "m", .nat 0], .text "here"]) :=
    .label (.bare rfl List.mem_cons_self) (@Gives.item _ _ _ _ 2 rfl rfl) List.mem_cons_self
  have hspan : Holds cut .span (.array [.text "m", .nat 0]) :=
    .span hlabel (@Gives.item _ _ _ _ 0 rfl rfl)
  have hfields : Json.fields? Kind.span.fields (.array [.text "m", .nat 0])
      = some [some (.text "m"), some (.nat 0), none] := rfl
  have hlacks : ∀ value, ¬ Gives Kind.span.fields "end" value (.array [.text "m", .nat 0]) := by
    intro value hgives
    have hvalue := (@Json.gives_iff _ _ _ _ _ 2 hfields (Kind.nodup_fields _) rfl).mp hgives
    exact absurd hvalue (by simp)
  exact ⟨.span, _, hspan, .lacking (by decide) hlacks⟩

/-- The one value is read from its text, also between blanks, and the other is refused. -/
theorem spellings_read_alike_of_two :
    Json.IsText (' ' :: (mixed.write ++ ['\n'])) mixed ∧ Json.IsText cut.write cut ∧
      readList? (' ' :: (mixed.write ++ ['\n']))
        = some [⟨⟨"m", 1, 2⟩, "a", [⟨⟨"m", 0, 1⟩, "here"⟩], []⟩] ∧
      readList? cut.write = none := by
  have hmixed : Json.IsText (' ' :: (mixed.write ++ ['\n'])) mixed :=
    ⟨[' '], mixed.write, ['\n'], by simp [Json.IsGap, Json.isBlank],
      Json.spells_write mixed (by simp [mixed]), by simp [Json.IsGap, Json.isBlank], rfl⟩
  have hcut : Json.IsText cut.write cut :=
    Json.parse?_eq_some_iff.mp (Json.parse?_write (by simp [cut]))
  have hfits : ∀ f ∈ [(⟨⟨"m", 1, 2⟩, "a", [⟨⟨"m", 0, 1⟩, "here"⟩], []⟩ : Failure)], f.Fits := by
    simp [Fits, ByteSpan.Fits, greatestOffset]
  exact ⟨hmixed, hcut, ((spellings_read_alike hmixed).1 _ hfits).1 allLaidAs_mixed,
    (spellings_read_alike hcut).2 (.inl exists_defective_cut)⟩

/-- One failure with an unknown member. -/
def withMember (value : Json) : Json :=
  .array [.record [("span", .array [.text "m", .nat 0, .nat 1]), ("message", .text "a"),
    ("x", value)]]

/-- The failure is laid out among shallow members, if the value of the unknown one is shallow. -/
theorem allLaidAs_withMember {value : Json} (h : value.depth < 50) :
    AllLaidAs Shallow [⟨⟨"m", 0, 1⟩, "a", [], []⟩] (withMember value) := by
  have hspan : ByteSpan.LaidAs Shallow ⟨"m", 0, 1⟩ (.array [.text "m", .nat 0, .nat 1]) :=
    @Json.Lays.array _ _ _ 0 rfl
  exact .bare (.cons ⟨_, _, _, hspan, .leftOut, .leftOut,
    @Json.Lays.object _ _ _ [(some "x", value)] (.refl _) (by simp)
      (List.forall_mem_singleton.mpr h)⟩ .nil)

/-- The failure is not read if the value of the unknown member has no meaning. -/
theorem readList?_withMember {text : Text} {value : Json}
    (hparse : Json.parse? text = some (withMember value)) (h : value.hasMeaning = false) :
    readList? text = none := by
  have hproper : (withMember value).isProper = false := by
    simp [withMember, Json.record, Json.isProper, Json.hasMeaning, Json.itemsHaveMeaning,
      Json.membersHaveMeaning, h]
  simp [readList?, hparse, hproper]

/-- A member `x` whose string is one half of a pair. -/
def halved : Text :=
  "[\x7b\"span\":[\"m\",0,1],\"message\":\"a\",\"x\":\"\\ud800\"\x7d]".toList

/-- A member `x` that is a number next to the greatest double, and no greater than it. -/
def overflowing : Text :=
  "[\x7b\"span\":[\"m\",0,1],\"message\":\"a\",\"x\":1797693134862315708e290\x7d]".toList

/-- The number next to the greatest double. -/
def vast : Json.Number := ⟨false, "1797693134862315708".toList, none, some (false, "290".toList)⟩

/-- A double could hold a number as great as this one. -/
theorem magnitude_vast_le : vast.magnitude ≤ Json.Number.greatestDouble := by
  have hdigits : Json.Number.digitsValue (vast.whole ++ vast.fraction.getD [])
      = 1797693134862315708 := by decide
  have hpower : Json.Number.powerValue vast.exponent - ((vast.fraction.getD []).length : ℤ)
      = (290 : ℕ) := by decide
  have hle : 1797693134862315708 * 10 ^ 290 ≤ (2 ^ 53 - 1) * 2 ^ 971 := by decide +kernel
  have hunits : (2 ^ 53 - 1 : ℚ) = (2 ^ 53 - 1 : ℕ) := by norm_num
  rw [Json.Number.magnitude, hdigits, hpower, zpow_natCast, Json.Number.greatestDouble, hunits]
  exact_mod_cast hle

/-- Two texts that lay out a failure among shallow members are refused: in one the unknown member is
a string without content, in the other a number that a double could hold. -/
theorem spellings_not_all_read :
    (Json.IsText halved (withMember (.string none))
      ∧ AllLaidAs Shallow [⟨⟨"m", 0, 1⟩, "a", [], []⟩] (withMember (.string none))
      ∧ readList? halved = none)
    ∧ (Json.IsText overflowing (withMember (.number vast))
      ∧ AllLaidAs Shallow [⟨⟨"m", 0, 1⟩, "a", [], []⟩] (withMember (.number vast))
      ∧ vast.magnitude ≤ Json.Number.greatestDouble ∧ readList? overflowing = none) := by
  have hhalved : Json.parse? halved = some (withMember (.string none)) := by cbv
  have hoverflowing : Json.parse? overflowing = some (withMember (.number vast)) := by cbv
  have hvalue : vast.hasValue = false := by decide +kernel
  exact ⟨⟨Json.parse?_eq_some_iff.mp hhalved, allLaidAs_withMember (Nat.zero_lt_succ _),
    readList?_withMember hhalved rfl⟩, Json.parse?_eq_some_iff.mp hoverflowing,
    allLaidAs_withMember (Nat.zero_lt_succ _), magnitude_vast_le,
    readList?_withMember hoverflowing hvalue⟩

end Failure

end Marginalia
