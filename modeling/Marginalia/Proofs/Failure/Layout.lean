import Marginalia.Failure.Format
import Marginalia.Proofs.Json.Layout

/-!
# The ways to lay out a list of failures

Spans, labels and failures are records, each laid out in a way of its own, with other members as far
as they are allowed. Labels and notes may be left out where there are none. The list is an array,
alone or as the member `reports` of an object. Main statement: whichever way is taken for each of
the records, the list is read if other members are harmless. If they are only shallow, it is read
exactly if the whole value has meaning, since no layout nests too deep.
-/

namespace Marginalia

open Json (Lays Shallow Harmless)

/-- The offsets of the span fit a word. -/
def ByteSpan.Fits (s : ByteSpan) : Prop := s.start ≤ greatestOffset ∧ s.stop ≤ greatestOffset

/-- The value is a record of the span. -/
def ByteSpan.LaidAs (may : Option String × Json → Prop) (s : ByteSpan) (v : Json) : Prop :=
  Lays may [("sourceId", some (.text s.source)), ("start", some (.nat s.start)),
    ("end", some (.nat s.stop))] v

namespace Failure

/-- The offsets of the failure and of its labels fit a word. -/
def Fits (f : Failure) : Prop := f.span.Fits ∧ ∀ label ∈ f.labels, label.span.Fits

/-- The value is a record of the label. -/
def Label.LaidAs (may : Option String × Json → Prop) (label : Label) (v : Json) : Prop :=
  ∃ span, label.span.LaidAs may span ∧
    Lays may [("span", some span), ("message", some (.text label.message))] v

/-- The field holds the list, or is left out since the list is empty. -/
inductive ListLaidAs {α : Type} (laidAs : α → Json → Prop) : List α → Option Json → Prop where
  | leftOut : ListLaidAs laidAs [] none
  | array {xs : List α} {items : List Json} (h : List.Forall₂ laidAs xs items) :
      ListLaidAs laidAs xs (some (.array items))

/-- The value is a record of the failure. -/
def LaidAs (may : Option String × Json → Prop) (f : Failure) (v : Json) : Prop :=
  ∃ span labels notes, f.span.LaidAs may span ∧ ListLaidAs (Label.LaidAs may) f.labels labels ∧
    ListLaidAs (fun note item => item = .text note) f.notes notes ∧
    Lays may [("span", some span), ("message", some (.text f.message)), ("labels", labels),
      ("notes", notes)] v

/-- The value is a list of the failures, alone or under the name `reports`. -/
inductive AllLaidAs (may : Option String × Json → Prop) (failures : List Failure) :
    Json → Prop where
  | bare {items : List Json} (h : List.Forall₂ (LaidAs may) failures items) :
      AllLaidAs may failures (.array items)
  | wrapped {items : List Json} {members : List (Option String × Json)}
      (h : List.Forall₂ (LaidAs may) failures items)
      (layout : Lays may [("reports", some (.array items))] (.object members)) :
      AllLaidAs may failures (.object members)

section Lists

variable {α : Type} {laidAs : α → Json → Prop} {xs : List α}

/-- Items that are laid out as elements of a list are read as these. -/
theorem mapM_of_forall₂ {items : List Json} {read : Json → Option α}
    (h : List.Forall₂ laidAs xs items) (hread : ∀ x ∈ xs, ∀ v, laidAs x v → read v = some x) :
    items.mapM read = some xs := by
  refine Json.mapM_eq_some_iff.mpr (List.Forall₂.flip ?_)
  exact ((List.forall₂_and_left _ _).mpr ⟨hread, h⟩).imp fun x v hx => hx.1 v hx.2

/-- Items that are laid out as elements of a list are as each such layout is. -/
theorem forall_of_forall₂ {items : List Json} {P : Json → Prop} (h : List.Forall₂ laidAs xs items)
    (hlaid : ∀ x ∈ xs, ∀ v, laidAs x v → P v) : ∀ item ∈ items, P item := by
  induction h with
  | nil => simp
  | cons hx _ ih =>
    rw [List.forall_mem_cons] at hlaid ⊢
    exact ⟨hlaid.1 _ hx, ih hlaid.2⟩

/-- A list is read from its field, also when it is left out. -/
theorem ListLaidAs.listOrEmpty?_eq {field : Option Json} {read : Json → Option α}
    (h : ListLaidAs laidAs xs field) (hread : ∀ x ∈ xs, ∀ v, laidAs x v → read v = some x) :
    Json.listOrEmpty? read field = some xs := by
  cases h with
  | leftOut => rfl
  | array h => exact mapM_of_forall₂ h hread

/-- The field of a list is as an array is whose items are as each layout is. -/
theorem ListLaidAs.forall_field {field : Option Json} {P Q : Json → Prop}
    (h : ListLaidAs laidAs xs field) (hlaid : ∀ x ∈ xs, ∀ v, laidAs x v → P v)
    (harray : ∀ items, (∀ item ∈ items, P item) → Q (.array items)) :
    ∀ value ∈ field, Q value := by
  cases h with
  | leftOut => simp
  | array h => simpa using harray _ (forall_of_forall₂ h hlaid)

end Lists

section Reading

variable {may : Option String × Json → Prop} {v : Json}

/-- A span is read however it is laid out. -/
theorem spanOf?_of_laidAs {s : ByteSpan} (hs : s.Fits) (h : s.LaidAs may v) :
    spanOf? v = some s := by
  have hfields := Lays.fields?_eq h (by simp)
  simp only [List.map_cons, List.map_nil] at hfields
  simp [spanOf?, hfields, Json.toOffset?_nat hs.1, Json.toOffset?_nat hs.2]

/-- A label is read however it is laid out. -/
theorem labelOf?_of_laidAs {label : Label} (hlabel : label.span.Fits) (h : label.LaidAs may v) :
    labelOf? v = some label := by
  obtain ⟨span, hspan, hlays⟩ := h
  have hfields := hlays.fields?_eq (by simp)
  simp only [List.map_cons, List.map_nil] at hfields
  simp [labelOf?, hfields, spanOf?_of_laidAs hlabel hspan]

/-- A failure is read however it is laid out. -/
theorem ofJson?_of_laidAs {f : Failure} (hf : f.Fits) (h : f.LaidAs may v) :
    ofJson? v = some f := by
  obtain ⟨span, labels, notes, hspan, hlabels, hnotes, hlays⟩ := h
  have hfields := hlays.fields?_eq (by simp)
  simp only [List.map_cons, List.map_nil] at hfields
  have hlabels := hlabels.listOrEmpty?_eq fun label hmem _ => labelOf?_of_laidAs (hf.2 label hmem)
  have hnotes : Json.listOrEmpty? Json.toText? notes = some f.notes :=
    hnotes.listOrEmpty?_eq fun note _ _ hitem => hitem ▸ rfl
  simp [ofJson?, hfields, spanOf?_of_laidAs hf.1 hspan, hlabels, hnotes]

/-- A list of failures is read however it is laid out. -/
theorem listOfJson?_of_allLaidAs {failures : List Failure} (hfailures : ∀ f ∈ failures, f.Fits)
    (h : AllLaidAs may failures v) : listOfJson? v = some failures := by
  cases h with
  | bare h => exact mapM_of_forall₂ h fun f hf _ => ofJson?_of_laidAs (hfailures f hf)
  | wrapped h layout =>
    have hitems := mapM_of_forall₂ h fun f hf _ => ofJson?_of_laidAs (hfailures f hf)
    have hreports : Json.member? "reports" _ = some (some _) :=
      layout.member?_eq (by simp) List.mem_cons_self
    simpa [listOfJson?, hreports, Json.list?] using hitems

end Reading

section Depth

variable {may : Option String × Json → Prop} {v : Json}

/-- A span is no deeper than other members may be. -/
theorem depth_le_of_span (hmay : ∀ m, may m → Shallow m) {s : ByteSpan} (h : s.LaidAs may v) :
    v.depth ≤ 50 :=
  Lays.depth_le h hmay le_rfl (by simp)

/-- A label is one deeper than a span. -/
theorem depth_le_of_label (hmay : ∀ m, may m → Shallow m) {label : Label}
    (h : label.LaidAs may v) : v.depth ≤ 51 := by
  obtain ⟨span, hspan, hlays⟩ := h
  exact hlays.depth_le hmay (by decide) (by simp [depth_le_of_span hmay hspan])

/-- A failure is two deeper than a label. -/
theorem depth_le_of_laidAs (hmay : ∀ m, may m → Shallow m) {f : Failure} (h : f.LaidAs may v) :
    v.depth ≤ 53 := by
  obtain ⟨span, labels, notes, hspan, hlabels, hnotes, hlays⟩ := h
  have harray : ∀ items : List Json, (∀ item ∈ items, item.depth ≤ 51) →
      (Json.array items).depth ≤ 52 := fun _ => Json.depth_array_le_iff.mpr
  have hlabels : ∀ value ∈ labels, value.depth ≤ 52 :=
    hlabels.forall_field (fun _ _ _ => depth_le_of_label hmay) harray
  have hnotes : ∀ value ∈ notes, value.depth ≤ 52 :=
    hnotes.forall_field (fun note _ _ hitem => by simp [hitem]) harray
  have hspan := depth_le_of_span hmay hspan
  refine hlays.depth_le hmay (by decide) ?_
  simpa [hspan.trans (show 50 ≤ 52 by decide)] using ⟨hlabels, hnotes⟩

/-- A list of failures is no deeper than 55, however it is laid out. -/
theorem depth_le_of_allLaidAs (hmay : ∀ m, may m → Shallow m) {failures : List Failure}
    (h : AllLaidAs may failures v) : v.depth ≤ 55 := by
  have harray : ∀ items, List.Forall₂ (LaidAs may) failures items → (Json.array items).depth ≤ 54 :=
    fun items h => Json.depth_array_le_iff.mpr
      (forall_of_forall₂ h fun _ _ _ => depth_le_of_laidAs hmay)
  cases h with
  | bare h => exact (harray _ h).trans (by decide)
  | wrapped h layout => exact layout.depth_le hmay (by decide) (by simpa using harray _ h)

end Depth

section Plain

variable {v : Json}

/-- A span among harmless members is plain. -/
theorem isPlain_of_span {s : ByteSpan} (hs : s.Fits) (h : s.LaidAs Harmless v) : v.IsPlain :=
  Lays.isPlain h (by simp [Json.isPlain_text, Json.isPlain_nat hs.1, Json.isPlain_nat hs.2])

/-- A label among harmless members is plain. -/
theorem isPlain_of_label {label : Label} (hlabel : label.span.Fits)
    (h : label.LaidAs Harmless v) : v.IsPlain := by
  obtain ⟨span, hspan, hlays⟩ := h
  exact hlays.isPlain (by simp [Json.isPlain_text, isPlain_of_span hlabel hspan])

/-- A failure among harmless members is plain. -/
theorem isPlain_of_laidAs {f : Failure} (hf : f.Fits) (h : f.LaidAs Harmless v) : v.IsPlain := by
  obtain ⟨span, labels, notes, hspan, hlabels, hnotes, hlays⟩ := h
  have hlabels : ∀ value ∈ labels, value.IsPlain :=
    hlabels.forall_field (fun label hmem _ => isPlain_of_label (hf.2 label hmem)) fun _ => .array
  have hnotes : ∀ value ∈ notes, value.IsPlain :=
    hnotes.forall_field (fun note _ _ hitem => hitem ▸ Json.isPlain_text note) fun _ => .array
  refine hlays.isPlain ?_
  simpa [Json.isPlain_text, isPlain_of_span hf.1 hspan] using ⟨hlabels, hnotes⟩

/-- A list of failures among harmless members is plain, however it is laid out. -/
theorem isPlain_of_allLaidAs {failures : List Failure} (hfailures : ∀ f ∈ failures, f.Fits)
    (h : AllLaidAs Harmless failures v) : v.IsPlain := by
  have harray : ∀ items, List.Forall₂ (LaidAs Harmless) failures items →
      (Json.array items).IsPlain :=
    fun _ h => .array (forall_of_forall₂ h fun f hf _ => isPlain_of_laidAs (hfailures f hf))
  cases h with
  | bare h => exact harray _ h
  | wrapped h layout => exact layout.isPlain (by simpa using harray _ h)

/-- A value that lays out a list of failures among harmless members can be held as a whole. -/
theorem isProper_of_allLaidAs {failures : List Failure} (hfailures : ∀ f ∈ failures, f.Fits)
    (h : AllLaidAs Harmless failures v) : v.isProper = true :=
  Json.isProper_iff.mpr ⟨(depth_le_of_allLaidAs (fun _ => Harmless.shallow) h).trans (by decide),
    (isPlain_of_allLaidAs hfailures h).hasMeaning⟩

end Plain

section Texts

variable {text : Text} {v : Json} {failures : List Failure}

/-- A text for a list of failures among harmless members is read, however they are laid out. -/
theorem readList?_of_allLaidAs (htext : Json.IsText text v) (hfailures : ∀ f ∈ failures, f.Fits)
    (h : AllLaidAs Harmless failures v) : readList? text = some failures := by
  simp only [readList?, Json.parse?_eq_some_iff.mpr htext, isProper_of_allLaidAs hfailures h,
    if_true, listOfJson?_of_allLaidAs hfailures h]

/-- A text for a list of failures among shallow members is read exactly if everything in it has
meaning. -/
theorem readList?_eq_of_shallow (htext : Json.IsText text v) (hfailures : ∀ f ∈ failures, f.Fits)
    (h : AllLaidAs Shallow failures v) :
    readList? text = if v.hasMeaning then some failures else none := by
  have hdepth : v.depth ≤ Json.depthLimit :=
    (depth_le_of_allLaidAs (fun _ => id) h).trans (by decide)
  simp only [readList?, Json.parse?_eq_some_iff.mpr htext, Json.isProper, hdepth, decide_true,
    Bool.true_and, listOfJson?_of_allLaidAs hfailures h]

end Texts

end Failure

end Marginalia
