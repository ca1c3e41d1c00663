import Marginalia.Proofs.Failure.Layout

/-!
# Failure lists that are written and read back

Whatever a failure holds, its record can be written, and it is laid out as an object with its fields
in order. A list of failures is therefore read back from its array, and from an object that holds
the array under the name `reports`. The text of a message, a label or a note may be any string.
-/

namespace Marginalia

open Json (Harmless)

namespace Failure

/-- The record of a failure can be written, whatever its strings are. -/
theorem isWritable_toJson (f : Failure) : f.toJson.IsWritable := by
  simp [toJson, labelToJson, spanToJson]

/-- The record of a span is laid out in order. -/
theorem laidAs_spanToJson (s : ByteSpan) : s.LaidAs Harmless (spanToJson s) :=
  Json.lays_record [("sourceId", .text s.source), ("start", .nat s.start), ("end", .nat s.stop)]

/-- The record of a label is laid out in order. -/
theorem laidAs_labelToJson (l : Label) : l.LaidAs Harmless (labelToJson l) :=
  ⟨_, laidAs_spanToJson l.span,
    Json.lays_record [("span", spanToJson l.span), ("message", .text l.message)]⟩

/-- The record of a failure is laid out in order. -/
theorem laidAs_toJson (f : Failure) : f.LaidAs Harmless f.toJson := by
  have hlabels : List.Forall₂ (Label.LaidAs Harmless) f.labels (f.labels.map labelToJson) :=
    List.forall₂_map_right_iff.mpr (List.forall₂_same.mpr fun l _ => laidAs_labelToJson l)
  have hnotes : List.Forall₂ (fun note item => item = Json.text note) f.notes (f.notes.map .text) :=
    List.forall₂_map_right_iff.mpr (List.forall₂_same.mpr fun _ _ => rfl)
  exact ⟨_, _, _, laidAs_spanToJson f.span, .array hlabels, .array hnotes,
    Json.lays_record [("span", spanToJson f.span), ("message", .text f.message),
      ("labels", .array (f.labels.map labelToJson)), ("notes", .array (f.notes.map .text))]⟩

/-- The array of a list of failures. -/
def listToJson (failures : List Failure) : Json := .array (failures.map toJson)

/-- The object that holds a list of failures under the name of reports. -/
def reportsToJson (failures : List Failure) : Json := .record [("reports", listToJson failures)]

/-- The array of a list of failures can be written. -/
theorem isWritable_listToJson (failures : List Failure) : (listToJson failures).IsWritable := by
  simp [listToJson, isWritable_toJson]

/-- The failures of a list are laid out as its items. -/
theorem forall₂_laidAs_toJson (failures : List Failure) :
    List.Forall₂ (LaidAs Harmless) failures (failures.map toJson) :=
  List.forall₂_map_right_iff.mpr (List.forall₂_same.mpr fun f _ => laidAs_toJson f)

/-- The array of a list of failures lays them out. -/
theorem allLaidAs_listToJson (failures : List Failure) :
    AllLaidAs Harmless failures (listToJson failures) :=
  .bare (forall₂_laidAs_toJson failures)

/-- The object that holds a list of failures lays them out. -/
theorem allLaidAs_reportsToJson (failures : List Failure) :
    AllLaidAs Harmless failures (reportsToJson failures) :=
  .wrapped (forall₂_laidAs_toJson failures) (Json.lays_record [("reports", listToJson failures)])

section Fits

variable {failures : List Failure}

/-- The array of a list of failures can be held as a whole. -/
theorem isProper_listToJson (hfailures : ∀ f ∈ failures, f.Fits) :
    (listToJson failures).isProper = true :=
  isProper_of_allLaidAs hfailures (allLaidAs_listToJson failures)

/-- The object that holds a list of failures can be held as a whole. -/
theorem isProper_reportsToJson (hfailures : ∀ f ∈ failures, f.Fits) :
    (reportsToJson failures).isProper = true :=
  isProper_of_allLaidAs hfailures (allLaidAs_reportsToJson failures)

/-- A list of failures is read back from its array. -/
theorem listOfJson?_listToJson (hfailures : ∀ f ∈ failures, f.Fits) :
    listOfJson? (listToJson failures) = some failures :=
  listOfJson?_of_allLaidAs hfailures (allLaidAs_listToJson failures)

/-- A list of failures is read back from the object that holds it. -/
theorem listOfJson?_reportsToJson (hfailures : ∀ f ∈ failures, f.Fits) :
    listOfJson? (reportsToJson failures) = some failures :=
  listOfJson?_of_allLaidAs hfailures (allLaidAs_reportsToJson failures)

end Fits

/-- Every list of failures whose offsets fit a word is read back from the array that is written
for it, and from an object that holds this array under the name `reports`, also with blanks
between the name and the array. -/
theorem readList_of_writeList (failures : List Failure) (hfailures : ∀ f ∈ failures, f.Fits) :
    readList? (writeList failures) = some failures
      ∧ ∀ gap : Text, (∀ c ∈ gap, Json.isBlank c = true) →
        readList? ("\x7b\"reports\":".toList ++ gap ++ writeList failures ++ ['\x7d'])
          = some failures := by
  have hbare : Json.parse? (writeList failures) = some (listToJson failures) :=
    Json.parse?_write (isWritable_listToJson failures)
  refine ⟨?_, fun gap hgap => ?_⟩
  · simp [readList?, hbare, isProper_listToJson hfailures, listOfJson?_listToJson hfailures]
  · have hwrapped : Json.parse?
        ("\x7b\"reports\":".toList ++ gap ++ writeList failures ++ ['\x7d'])
          = some (reportsToJson failures) := by
      have hname : "\x7b\"reports\":".toList
          = '\x7b' :: Json.Quoted.write "reports".toList ++ [':'] := by decide
      have hparse :=
        Json.parse?_single_member "reports" (isWritable_listToJson failures) hgap
      rw [hname]
      simpa [reportsToJson, Json.record, writeList, listToJson] using hparse
    simp only [readList?, hwrapped, isProper_reportsToJson hfailures,
      listOfJson?_reportsToJson hfailures, if_true]

/-- A list of two failures, with quotes, a backslash, control characters and a character beyond
the first plane in its strings and the greatest offset in its spans. -/
def speckled : List Failure :=
  [⟨⟨"ma\"in\\", 0, greatestOffset⟩, "a\x00\x1f\n\t\x7f", [⟨⟨"", 7, 3⟩, "😀 é"⟩], ["", "\u2028"]⟩,
   ⟨⟨"/", 10, 100⟩, "", [], []⟩]

/-- The two failures are read back, alone and after a blank. -/
theorem readList_of_writeList_speckled :
    (∀ f ∈ speckled, f.Fits) ∧ readList? (writeList speckled) = some speckled
      ∧ readList? ("\x7b\"reports\":".toList ++ [' '] ++ writeList speckled ++ ['\x7d'])
        = some speckled := by
  have hfits : ∀ f ∈ speckled, f.Fits := by simp [speckled, Fits, ByteSpan.Fits, greatestOffset]
  obtain ⟨hbare, hwrapped⟩ := readList_of_writeList speckled hfits
  exact ⟨hfits, hbare, hwrapped [' '] (by simp [Json.isBlank])⟩

end Failure

end Marginalia
