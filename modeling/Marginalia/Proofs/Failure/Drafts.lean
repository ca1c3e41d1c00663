import Mathlib.Data.List.Forall2
import Marginalia.Failure.Basic
import Marginalia.Proofs.Text.Bytes

/-!
# Failures become reports on characters

The span of a failure counts bytes, that of a report characters. A failure lands in a text when its
span is in order and both ends lie on boundaries between characters of the UTF-8 form. The failures
that land become reports, in their order, each on the characters whose bytes its failure names. The
others are counted.
-/

namespace Marginalia.Failure

/-- The span of the failure is in order, inside the UTF-8 form of the text, and from one boundary
between characters to another. -/
def Lands (f : Failure) (t : Text) : Prop :=
  f.span.start ≤ f.span.stop ∧ f.span.stop ≤ t.utf8.size ∧
    String.Pos.Raw.IsValid (String.ofList t) ⟨f.span.start⟩ ∧
    String.Pos.Raw.IsValid (String.ofList t) ⟨f.span.stop⟩

instance (f : Failure) (t : Text) : Decidable (f.Lands t) := inferInstanceAs (Decidable (_ ∧ _))

/-- What a failure is as a report: an error of its source that says its message and then each label
behind a blank line, and no more, on the characters whose bytes the failure names. -/
structure Becomes (f : Failure) (t : Text) (d : Draft) : Prop where
  source : d.span.source = f.span.source
  severity : d.severity = .error
  message : d.message.toList = f.message.toList ++
    f.labels.flatMap fun label => '\n' :: '\n' :: label.message.toList
  plain : d.markClass = none ∧ d.actions = [] ∧ d.rendered = none
  start : ∀ n ≤ t.length, (Text.utf8 (t.take n)).size = f.span.start ↔ n = d.span.extent.start
  stop : ∀ n ≤ t.length, (Text.utf8 (t.take n)).size = f.span.stop ↔ n = d.span.extent.stop
  ordered : d.span.extent.start ≤ d.span.extent.stop
  inside : d.span.extent.stop ≤ t.length
  bytes : Text.utf8 (t.extract d.span.extent.start d.span.extent.stop) =
    t.utf8.extract f.span.start f.span.stop

variable {doc : Document} {f : Failure} {d : Draft}

/-- Labels follow the message, each behind a blank line. -/
theorem toList_fullMessage (f : Failure) : f.fullMessage.toList = f.message.toList ++
    f.labels.flatMap fun label => '\n' :: '\n' :: label.message.toList := by
  have hfold (labels : List Label) (text : String) :
      (labels.foldl (fun text label => text ++ "\n\n" ++ label.message) text).toList =
        text.toList ++ labels.flatMap fun label => '\n' :: '\n' :: label.message.toList := by
    induction labels generalizing text with
    | nil => simp
    | cons label rest ih =>
      rw [List.foldl_cons, ih, List.flatMap_cons]
      simp
  exact hfold f.labels f.message

/-- A failure gives a draft if its ends have offsets in characters. -/
theorem toDraft?_eq_some_iff : f.toDraft? doc = some d ↔ f.span.start ≤ f.span.stop ∧
    ∃ start stop, doc.text.charOffset? f.span.start = some start ∧
      doc.text.charOffset? f.span.stop = some stop ∧
      .error ⟨f.span.source, ⟨start, stop⟩⟩ f.fullMessage = d := by
  unfold toDraft?
  split
  case isTrue hinverted => simp [Nat.not_le.mpr hinverted]
  case isFalse hordered =>
    simp only [Nat.not_lt.mp hordered, true_and, Document.charOffset?, Option.bind_eq_bind,
      Option.pure_def, Option.bind_eq_some_iff, Option.some.injEq, exists_and_left]

/-- A failure gives a draft if it lands in the text. -/
theorem isSome_toDraft?_iff : (f.toDraft? doc).isSome = true ↔ f.Lands doc.text := by
  have hinside (h : String.Pos.Raw.IsValid (String.ofList doc.text) ⟨f.span.stop⟩) :
      f.span.stop ≤ doc.text.utf8.size := h.le_utf8ByteSize
  rw [Option.isSome_iff_exists, Lands]
  simp only [toDraft?_eq_some_iff, ← Text.exists_charOffset?_iff] at hinside ⊢
  constructor
  · rintro ⟨d, hordered, start, stop, hstart, hstop, -⟩
    exact ⟨hordered, hinside ⟨stop, hstop⟩, ⟨start, hstart⟩, ⟨stop, hstop⟩⟩
  · rintro ⟨hordered, -, ⟨start, hstart⟩, ⟨stop, hstop⟩⟩
    exact ⟨_, hordered, start, stop, hstart, hstop, rfl⟩

/-- What a failure that gives a draft is as a report. -/
theorem becomes_of_toDraft? (h : f.toDraft? doc = some d) : f.Becomes doc.text d := by
  obtain ⟨hordered, start, stop, hstart, hstop, rfl⟩ := toDraft?_eq_some_iff.mp h
  have hunique {b offset : Nat} (hoffset : doc.text.charOffset? b = some offset) :
      ∀ n ≤ doc.text.length, (Text.utf8 (doc.text.take n)).size = b ↔ n = offset := by
    intro n hn
    have hiff := Text.charOffset?_eq_some_iff (t := doc.text) (b := b) (n := n)
    rw [hoffset, Option.some.injEq, and_iff_right hn, ← Text.size_utf8] at hiff
    rw [← hiff, eq_comm]
  obtain ⟨hfrom, hfront⟩ := Text.charOffset?_eq_some_iff.mp hstart
  obtain ⟨hto, hback⟩ := Text.charOffset?_eq_some_iff.mp hstop
  have hle : start ≤ stop := Text.le_of_byteLength_take_le hto hfrom (by omega)
  exact
    { source := rfl
      severity := rfl
      message := toList_fullMessage f
      plain := ⟨rfl, rfl, rfl⟩
      start := hunique hstart
      stop := hunique hstop
      ordered := hle
      inside := hto
      bytes := Text.utf8_extract hle hfront hback }

/-- The failures that land in the text become reports, one for each and in their order. The others
are counted as malformed. -/
theorem drafts_land_on_bytes (doc : Document) (failures : List Failure) :
    List.Forall₂ (fun f d => f.Becomes doc.text d) (failures.filter (·.Lands doc.text))
      (drafts doc failures) ∧
      malformed doc failures = failures.countP fun f => ¬ f.Lands doc.text := by
  constructor
  · induction failures with
    | nil => exact .nil
    | cons f rest ih =>
      cases hdraft : f.toDraft? doc with
      | none =>
        have hnot : ¬ f.Lands doc.text := by simp [← isSome_toDraft?_iff, hdraft]
        rw [List.filter_cons_of_neg (by simpa using hnot), drafts,
          List.filterMap_cons_none hdraft]
        exact ih
      | some d =>
        have hlands : f.Lands doc.text := by simp [← isSome_toDraft?_iff, hdraft]
        rw [List.filter_cons_of_pos (by simpa using hlands), drafts,
          List.filterMap_cons_some hdraft]
        exact .cons (becomes_of_toDraft? hdraft) ih
  · refine List.countP_congr fun f _ => ?_
    simp only [← isSome_toDraft?_iff, decide_eq_true_eq, Bool.not_eq_true,
      Option.isSome_eq_false_iff]

/-- A span behind a character of two bytes, and one that begins inside that character. -/
example :
    let doc : Document := .ofText "main" ['\u00e9', '+', '\u00fc']
    let failures : List Failure :=
      [⟨⟨"main", 3, 5⟩, "bad", [], []⟩, ⟨⟨"main", 1, 3⟩, "split", [], []⟩]
    (drafts doc failures).map (·.span.extent) = [⟨2, 3⟩] ∧ malformed doc failures = 1 := by
  decide

end Marginalia.Failure
