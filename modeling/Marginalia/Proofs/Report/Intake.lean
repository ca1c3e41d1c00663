import Marginalia.Report.Intake

/-!
# What an intake keeps

An intake goes through its batches one report after another, but what comes of it can be read off
all reports at once: those that fit are kept in their order, and the others are counted, with what
the sources had dropped before. Reports that are made of drafts say what the drafts say.
-/

namespace Marginalia

namespace Report

/-- Made reports say what their drafts say. -/
@[simp] theorem map_toDraft_mint (next : Nat) (drafts : List Draft) :
    (mint next drafts).1.map (·.toDraft) = drafts := by
  induction drafts generalizing next with
  | nil => rfl
  | cons draft rest ih =>
    rw [mint, List.map_cons, ih]

end Report

/-- The report belongs to the document: its span is in order, inside the text, and of the source. -/
def Report.Belongs (r : Report) (doc : Document) : Prop :=
  r.span.extent.start ≤ r.span.extent.stop ∧ r.span.extent.stop ≤ doc.length ∧
    r.span.source = doc.source

instance (r : Report) (doc : Document) : Decidable (r.Belongs doc) :=
  inferInstanceAs (Decidable (_ ∧ _ ∧ _))

/-- Some result of the batches comes to no report of the document: a source has dropped it, or it is
a report that does not belong. -/
def Batch.AnyRejected (doc : Document) (batches : List Batch) : Prop :=
  ∃ batch ∈ batches, 0 < batch.malformed ∨ ∃ r ∈ batch.reports, ¬ r.Belongs doc

instance (doc : Document) (batches : List Batch) : Decidable (Batch.AnyRejected doc batches) :=
  inferInstanceAs (Decidable (∃ batch ∈ batches, _ ∨ ∃ r ∈ batch.reports, ¬ _))

/-- How many results the sources of batches have dropped. -/
def Batch.dropped : List Batch → Nat
  | [] => 0
  | batch :: rest => batch.malformed + dropped rest

namespace Intake

variable {doc : Document} {intake : Intake} {batches : List Batch}

/-- Reports pushed one after another are kept if they fit and counted if they do not. -/
theorem foldl_push (doc : Document) (intake : Intake) (reports : List Report) :
    reports.foldl (push doc) intake =
      ⟨intake.accepted ++ reports.filter (fits doc ·.span),
        intake.rejected + reports.countP (!fits doc ·.span)⟩ := by
  induction reports generalizing intake with
  | nil => simp
  | cons r rest ih =>
    rw [List.foldl_cons, ih, push]
    cases hfits : fits doc r.span with
    | true => simp [hfits]
    | false =>
      simp [hfits]
      omega

/-- Batches are taken in as all their reports together. -/
theorem foldl_addBatch (doc : Document) (intake : Intake) (batches : List Batch) :
    batches.foldl (addBatch doc) intake =
      ⟨intake.accepted ++ (batches.flatMap (·.reports)).filter (fits doc ·.span),
        intake.rejected + Batch.dropped batches +
          (batches.flatMap (·.reports)).countP (!fits doc ·.span)⟩ := by
  induction batches generalizing intake with
  | nil => simp [Batch.dropped]
  | cons batch rest ih =>
    rw [List.foldl_cons, ih, addBatch, foldl_push, Batch.dropped]
    simp
    omega

/-- What is kept of batches: the reports that fit, in order. -/
theorem accepted_ofBatches (doc : Document) (batches : List Batch) :
    (ofBatches doc batches).accepted =
      (batches.flatMap (·.reports)).filter (fits doc ·.span) := by
  rw [ofBatches, foldl_addBatch]
  rfl

/-- What is counted of batches: the results that were dropped before, and the reports that do not
fit. -/
theorem rejected_ofBatches (doc : Document) (batches : List Batch) :
    (ofBatches doc batches).rejected =
      Batch.dropped batches + (batches.flatMap (·.reports)).countP (!fits doc ·.span) := by
  rw [ofBatches, foldl_addBatch]
  simp [empty]

/-- An intake keeps what belongs to its document. -/
theorem fits_iff_belongs {r : Report} : fits doc r.span = true ↔ r.Belongs doc := by
  simp only [fits, Report.Belongs, Bool.and_eq_true, decide_eq_true_eq, beq_iff_eq, and_assoc]

/-- Nothing was dropped exactly if no batch says that something was. -/
theorem dropped_eq_zero_iff :
    Batch.dropped batches = 0 ↔ ∀ batch ∈ batches, batch.malformed = 0 := by
  induction batches with
  | nil => simp [Batch.dropped]
  | cons batch rest ih => simp [Batch.dropped, ih]

/-- Every report of batches is kept exactly if each belongs to the document. -/
theorem countP_flatMap_eq_zero_iff :
    (batches.flatMap (·.reports)).countP (!fits doc ·.span) = 0 ↔
      ∀ batch ∈ batches, ∀ r ∈ batch.reports, r.Belongs doc := by
  simp only [List.countP_eq_zero, List.forall_mem_flatMap, Bool.not_eq_true', Bool.not_eq_false,
    fits_iff_belongs]

/-- Nothing of batches is counted exactly if none of their results is rejected. -/
theorem rejected_ofBatches_eq_zero_iff :
    (ofBatches doc batches).rejected = 0 ↔ ¬ Batch.AnyRejected doc batches := by
  rw [rejected_ofBatches, Nat.add_eq_zero_iff, dropped_eq_zero_iff, countP_flatMap_eq_zero_iff,
    Batch.AnyRejected]
  simp only [not_exists, not_and, not_or, Nat.pos_iff_ne_zero, Decidable.not_not, ← forall_and]

/-- The substitute fits every document. -/
theorem fits_substitute (doc : Document) : fits doc (substitute doc).span = true := by
  simp [fits, substitute, Draft.error, Extent.point]

/-- An intake ends with what it kept and then the substitute if anything was rejected. -/
theorem map_toDraft_finish (doc : Document) (intake : Intake) (next : Nat) :
    (intake.finish doc next).1.map (·.toDraft) =
      intake.accepted.map (·.toDraft) ++ intake.additions doc := by
  rw [finish, List.map_append, Report.map_toDraft_mint]

/-- Every report of an intake fits if those that it kept do. -/
theorem fits_of_mem_finish (kept : ∀ r ∈ intake.accepted, fits doc r.span = true) {next : Nat}
    {r : Report} (h : r ∈ (intake.finish doc next).1) : fits doc r.span = true := by
  have hdraft : r.toDraft ∈ intake.accepted.map (·.toDraft) ++ intake.additions doc := by
    rw [← map_toDraft_finish doc intake next]
    exact List.mem_map_of_mem h
  rcases List.mem_append.mp hdraft with hkept | hadded
  · obtain ⟨other, hother, hsame⟩ := List.mem_map.mp hkept
    rw [← hsame]
    exact kept other hother
  · unfold additions at hadded
    split at hadded
    case isTrue => simp at hadded
    case isFalse =>
      rw [List.mem_singleton.mp hadded]
      exact fits_substitute doc

/-- The reports kept of batches fit. -/
theorem fits_of_mem_accepted_ofBatches {r : Report} (h : r ∈ (ofBatches doc batches).accepted) :
    fits doc r.span = true := by
  rw [accepted_ofBatches] at h
  exact (List.mem_filter.mp h).2

end Intake

end Marginalia
