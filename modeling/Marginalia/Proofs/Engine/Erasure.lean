import Marginalia.Proofs.Engine.Replacement
import Marginalia.Proofs.Report.Alike

/-!
# Results erase history

Two engines that hold the same text of the same source and take the same results show the same
afterwards, whatever they went through before. The one thing that differs is the report that each
makes for itself when results are rejected: it says the same in both, but has a key of its own, and
everything that is derived from the reports comes out alike up to that key.
-/

namespace Marginalia

/-- Documents with the same text of the same source differ only in their versions. -/
theorem Document.eq_of_text_of_source {doc doc' : Document} (text : doc.text = doc'.text)
    (source : doc.source = doc'.source) : doc' = { doc with version := doc'.version } := by
  cases doc
  cases doc'
  cases text
  cases source
  rfl

namespace Engine

open Annotation (ofReport? report_of_ofReport? mem_place_iff)

variable {en en' next next' : Engine} {batches : List Batch}

/-- A report of one engine and one of the other are the same report, or each stands in for the
rejected ones in its engine and they say the same. -/
def SameReport (en en' : Engine) (r r' : Report) : Prop :=
  r = r' ∨ (r = en.standIn ∧ r' = en'.standIn ∧ r.toDraft = r'.toDraft)

/-- The same report says the same. -/
theorem SameReport.toDraft_eq (r r' : Report) (same : SameReport en en' r r') :
    r.toDraft = r'.toDraft := by
  rcases same with rfl | ⟨-, -, hsame⟩
  · rfl
  · exact hsame

/-- The keys that two engines give out next are new: no report of the batches has one of them, and
the filter does not tell them apart. -/
structure NewKeys (en en' : Engine) (batches : List Batch) (f : Filter) : Prop where
  unused : ∀ batch ∈ batches, ∀ r ∈ batch.reports,
    r.key ≠ .minted en.nextKey ∧ r.key ≠ .minted en'.nextKey
  ignored : f.Ignores (.swap (.minted en.nextKey) (.minted en'.nextKey))

/-- What is kept of batches comes from one of them. -/
theorem exists_batch_of_mem_accepted {doc : Document} {r : Report}
    (h : r ∈ (Intake.ofBatches doc batches).accepted) : ∃ batch ∈ batches, r ∈ batch.reports := by
  rw [Intake.accepted_ofBatches] at h
  exact List.mem_flatMap.mp (List.mem_filter.mp h).1

section SameDocument

variable {version : Nat} (hdoc : en'.doc = { en.doc with version })
include hdoc

/-- The reports that stand in say the same for the same text. -/
theorem toDraft_standIn : en.standIn.toDraft = en'.standIn.toDraft := by
  change Intake.substitute en.doc = Intake.substitute en'.doc
  rw [hdoc]
  rfl

/-- Two engines with the same text take the same reports, up to those that stand in. -/
theorem forall₂_taken {P : Report → Report → Prop}
    (kept : ∀ r ∈ (Intake.ofBatches en.doc batches).accepted, P r r)
    (stands : (Intake.ofBatches en.doc batches).rejected ≠ 0 → P en.standIn en'.standIn) :
    List.Forall₂ P (en.taken batches) (en'.taken batches) := by
  have hintake : Intake.ofBatches en'.doc batches = Intake.ofBatches en.doc batches := by
    rw [hdoc]
    rfl
  rw [taken_eq en, taken_eq en', hintake]
  refine List.rel_append (List.forall₂_same.mpr kept) ?_
  split
  case isTrue => exact .nil
  case isFalse hrejected => exact .cons (stands hrejected) .nil

/-- Two engines with the same text take the same reports. -/
theorem sameReport_taken :
    List.Forall₂ (SameReport en en') (en.taken batches) (en'.taken batches) :=
  forall₂_taken hdoc (fun _ _ => Or.inl rfl) fun _ =>
    Or.inr ⟨rfl, rfl, toDraft_standIn hdoc⟩

/-- If new keys mean nothing to a filter, what two engines with the same text take differs only in
keys that it does not tell apart. -/
theorem exists_rekey_taken {f : Filter}
    (fresh : (Intake.ofBatches en.doc batches).rejected ≠ 0 → NewKeys en en' batches f) :
    ∃ σ : Equiv.Perm Report.Key, f.Ignores σ ∧
      List.Forall₂ (fun r r' => SameReport en en' r r' ∧ r' = r.rekey σ) (en.taken batches)
        (en'.taken batches) := by
  by_cases hrejected : (Intake.ofBatches en.doc batches).rejected = 0
  · have hstays (r : Report) : r.rekey (Equiv.refl _) = r := Report.rekey_of_fixed rfl
    have hmap (reports : List Report) : reports.map (.rekey (Equiv.refl _)) = reports :=
      (List.map_congr_left fun r _ => hstays r).trans (List.map_id _)
    refine ⟨Equiv.refl _, fun reports => by rw [hmap, hmap], forall₂_taken hdoc ?_ ?_⟩
    · exact fun r _ => ⟨Or.inl rfl, (hstays r).symm⟩
    · exact fun h => absurd hrejected h
  · obtain ⟨unused, ignored⟩ := fresh hrejected
    refine ⟨_, ignored, forall₂_taken hdoc (fun r hr => ⟨Or.inl rfl, ?_⟩) fun _ => ⟨?_, ?_⟩⟩
    · obtain ⟨batch, hbatch, hmem⟩ := exists_batch_of_mem_accepted hr
      obtain ⟨hkey, hkey'⟩ := unused batch hbatch r hmem
      exact (Report.rekey_of_fixed (Equiv.swap_apply_of_ne_of_ne hkey hkey')).symm
    · exact Or.inr ⟨rfl, rfl, toDraft_standIn hdoc⟩
    · rw [Report.rekey, toDraft_standIn hdoc]
      exact congrArg (Report.mk _) (Equiv.swap_apply_left _ _).symm

/-- Replacements by related reports have related annotations. -/
theorem Replaces.annotations_related {R : Report → Report → Prop}
    (alike : ∀ r r', R r r' → r.toDraft = r'.toDraft)
    (replaces : en.Replaces (en.taken batches) next)
    (replaces' : en'.Replaces (en'.taken batches) next')
    (h : List.Forall₂ R (en.taken batches) (en'.taken batches)) :
    List.Forall₂ (SamePlace R) next.store.annotations next'.store.annotations := by
  rw [replaces.annotations, replaces'.annotations, hdoc]
  exact Annotation.place_related alike en.doc h

/-- Replacements by related reports have related markers, as far as the filter shows the ones as
the others. -/
theorem Replaces.markers_related {R : Report → Report → Prop}
    (alike : ∀ r r', R r r' → r.toDraft = r'.toDraft)
    (replaces : en.Replaces (en.taken batches) next)
    (replaces' : en'.Replaces (en'.taken batches) next')
    (hfilter : en.options.gutter.markerFilter = en'.options.gutter.markerFilter)
    (h : List.Forall₂ R (en.taken batches) (en'.taken batches))
    (hshown : ∀ r r', R r r' →
      Filter.shows en.options.gutter.markerFilter next.store.reports r =
        Filter.shows en.options.gutter.markerFilter next'.store.reports r') :
    List.Forall₂ (SameMarker R) next.gutter.markers next'.gutter.markers := by
  rw [replaces.gutter, replaces'.gutter, ← hfilter, hdoc]
  exact Gutter.markersOf_related alike en.doc
    (replaces.annotations_related hdoc alike replaces' h) hshown

end SameDocument

/-- A replacement shows the reports that can be placed. -/
theorem Replaces.mem_reports_iff {reports : List Report} (replaces : en.Replaces reports next)
    {r : Report} :
    r ∈ next.store.reports ↔ r ∈ reports ∧ (ofReport? en.doc r).isSome = true := by
  rw [Store.reports, replaces.annotations, List.mem_map, Option.isSome_iff_exists]
  constructor
  · rintro ⟨a, ha, rfl⟩
    obtain ⟨r, hr, hplaced⟩ := mem_place_iff.mp ha
    rw [report_of_ofReport? hplaced]
    exact ⟨hr, a, hplaced⟩
  · rintro ⟨hr, a, hplaced⟩
    exact ⟨a, mem_place_iff.mpr ⟨r, hr, hplaced⟩,
      report_of_ofReport? hplaced⟩

section SameMarkers

variable {version : Nat} (hdoc : en'.doc = { en.doc with version })
  (replaces : en.Replaces (en.taken batches) next)
  (replaces' : en'.Replaces (en'.taken batches) next')
  (hfilter : en.options.gutter.markerFilter = en'.options.gutter.markerFilter)
include hdoc replaces replaces' hfilter

/-- Replacements by the same reports have the same markers, if a filter of the gutter goes by what
the reports say. -/
theorem Replaces.sameMarker_of_readsNoKeys {f : Filter}
    (hset : en.options.gutter.markerFilter = some f) (noKeys : f.ReadsNoKeys) :
    List.Forall₂ (SameMarker (SameReport en en')) next.gutter.markers next'.gutter.markers := by
  have hplaces := replaces.annotations_related hdoc SameReport.toDraft_eq replaces'
    (sameReport_taken hdoc)
  have hdrafts : next.store.reports.map (·.toDraft) = next'.store.reports.map (·.toDraft) := by
    rw [← List.forall₂_eq_eq_eq, Store.reports, Store.reports, List.map_map, List.map_map,
      List.forall₂_map_left_iff, List.forall₂_map_right_iff]
    exact hplaces.imp fun a a' related => related.report.toDraft_eq
  -- A report is shown if it is in the store, so it matters which reports each engine has taken.
  have htaken : List.Forall₂ (fun r r' => r ∈ en.taken batches ∧ r' ∈ en'.taken batches
      ∧ SameReport en en' r r') (en.taken batches) (en'.taken batches) :=
    (List.forall₂_and_left _ _).mpr ⟨fun r hr => hr, List.Forall₂.flip <|
      (List.forall₂_and_left _ _).mpr ⟨fun r' hr' => hr',
        List.Forall₂.flip (sameReport_taken hdoc)⟩⟩
  have hmarkers := replaces.markers_related hdoc (fun r r' h => h.2.2.toDraft_eq) replaces' hfilter
    htaken fun r r' h => by
      obtain ⟨hr, hr', same⟩ := h
      rw [hset]
      refine Filter.shows_congr noKeys hdrafts same.toDraft_eq ?_
      have hplaced := Annotation.isSome_ofReport?_eq SameReport.toDraft_eq en.doc same
      rw [replaces.mem_reports_iff, replaces'.mem_reports_iff, hdoc]
      simp only [hr, hr', true_and, hplaced]
      rfl
  exact hmarkers.imp fun m m' related => related.imp fun r r' h => h.2.2

/-- Replacements by the same reports have the same markers, as far as a filter of the gutter does
not tell new keys apart. -/
theorem Replaces.sameMarker
    (fresh : ∀ f, en.options.gutter.markerFilter = some f →
      (Intake.ofBatches en.doc batches).rejected ≠ 0 →
        f.ReadsNoKeys ∨ NewKeys en en' batches f) :
    List.Forall₂ (SameMarker (SameReport en en')) next.gutter.markers next'.gutter.markers := by
  cases hset : en.options.gutter.markerFilter with
  | none =>
    refine replaces.markers_related hdoc SameReport.toDraft_eq replaces' hfilter
      (sameReport_taken hdoc) fun r r' _ => ?_
    rw [hset]
    rfl
  | some f =>
    by_cases noKeys : f.ReadsNoKeys
    · exact replaces.sameMarker_of_readsNoKeys hdoc replaces' hfilter hset noKeys
    · obtain ⟨σ, ignored, htaken⟩ := exists_rekey_taken hdoc fun hrejected =>
        (fresh f hset hrejected).resolve_left noKeys
      have alike (r r' : Report) (h : SameReport en en' r r' ∧ r' = r.rekey σ) :
          r.toDraft = r'.toDraft := h.1.toDraft_eq
      have hreports : next'.store.reports = next.store.reports.map (.rekey σ) :=
        Store.reports_eq_map <| (replaces.annotations_related hdoc alike replaces' htaken).imp
          fun a a' related => related.report.2
      have hmarkers := replaces.markers_related hdoc alike replaces' hfilter htaken fun r r' h => by
        rw [hset, hreports, h.2]
        exact (Filter.shows_rekey ignored next.store.reports r).symm
      exact hmarkers.imp fun m m' related => related.imp fun r r' h => h.1

end SameMarkers

/-- Two attached engines that hold the same text of the same source and filter their gutters alike
show the same once they have taken the same results for their versions, whatever happened in them
before: the same reports at the same places in the same order, the same one selected, and the same
markers. No time is running at a marker, and no tooltip or pop-up is open. Keys come in only for the
markers, where a filter is set and reports are rejected, since each engine makes a report of its own
then: the filter must go by what reports say, or at least not tell the new keys apart. -/
theorem completion_erases_history (attached : en.isAttached = true)
    (attached' : en'.isAttached = true) (htext : en.doc.text = en'.doc.text)
    (hsource : en.doc.source = en'.doc.source)
    (hfilter : en.options.gutter.markerFilter = en'.options.gutter.markerFilter)
    {ticket ticket' : Ticket} (current : ticket.version = en.doc.version)
    (current' : ticket'.version = en'.doc.version) (batches : List Batch) :
    ∃ next update next' update',
      en.complete ticket batches = .ok (next, .applied update) ∧
      en'.complete ticket' batches = .ok (next', .applied update') ∧
      List.Forall₂ (SamePlace (SameReport en en')) next.store.annotations
        next'.store.annotations ∧
      Option.Rel (SameSelection (SameReport en en')) next.store.selected
        next'.store.selected ∧
      (next.gutter.Rests ∧ next.hover = none ∧ next'.gutter.Rests ∧ next'.hover = none) ∧
      ((∀ f, en.options.gutter.markerFilter = some f →
          (Intake.ofBatches en.doc batches).rejected ≠ 0 →
            f.ReadsNoKeys ∨ NewKeys en en' batches f) →
        List.Forall₂ (SameMarker (SameReport en en')) next.gutter.markers
          next'.gutter.markers) := by
  have hdoc := Document.eq_of_text_of_source htext hsource
  obtain ⟨next, update, happlied, replaces⟩ := exists_complete_replaces batches attached current
  obtain ⟨next', update', happlied', replaces'⟩ :=
    exists_complete_replaces batches attached' current'
  have hannotations := replaces.annotations_related hdoc SameReport.toDraft_eq replaces'
    (sameReport_taken hdoc)
  have hselected : Option.Rel (SameSelection (SameReport en en')) next.store.selected
      next'.store.selected := by
    rw [replaces.selected, replaces'.selected]
    exact Store.firstFrom_related hannotations
  exact ⟨next, update, next', update', happlied, happlied', hannotations, hselected,
    ⟨replaces.rests, replaces.hover, replaces'.rests, replaces'.hover⟩,
    replaces.sameMarker hdoc replaces' hfilter⟩

/-- The settings of a gutter that shows warnings and errors. -/
def warningsOnly : Options where
  __ := Options.standard
  gutter.markerFilter := some (Filter.atLeast .warning)
  gutter.__ := Gutter.Options.standard

/-- One engine has stood in for a rejected report, and a pointer rests on a marker in it. The other
holds the same text after an edit. -/
private theorem exists_histories :
    let astray : Report := ⟨.error ⟨"main", ⟨0, 9⟩⟩ "astray", .host 0⟩
    let old : Report := ⟨.error ⟨"main", ⟨0, 1⟩⟩ "old", .host 1⟩
    let e : Edit := ⟨1, 2, [⟨1, [⟨⟨1, 1⟩, ['b']⟩]⟩]⟩
    ∃ shown pointed kept made,
      (attach (.ofText "main" ['a', 'b']) warningsOnly 0).perform ⟨0, 0⟩
        (.setReports [astray, old] 1) = .ok shown ∧
      shown.engine.perform ⟨0, 0⟩ (.gutterOver 0 2) = .ok pointed ∧
      (attach (.ofText "main" ['a']) warningsOnly 0).perform ⟨0, 0⟩ (.setReports [old] 1) =
        .ok kept ∧
      kept.engine.perform ⟨0, 0⟩ (.edit e 2) = .ok made ∧
      pointed.engine.doc = .ofText "main" ['a', 'b'] ∧
      made.engine.doc = { Document.ofText "main" ['a', 'b'] with version := 1 } ∧
      pointed.engine.options = warningsOnly ∧ made.engine.options = warningsOnly ∧
      pointed.engine.nextKey = 1 ∧ made.engine.nextKey = 0 :=
  ⟨_, _, _, _, rfl, rfl, rfl, rfl, rfl, rfl, rfl, rfl, rfl, rfl⟩

/-- Both take one report and stand in for another, with different keys. -/
theorem completion_erases_history_with_stand_ins :
    let old : Report := ⟨.error ⟨"main", ⟨0, 1⟩⟩ "old", .host 1⟩
    let astray : Report := ⟨.error ⟨"main", ⟨0, 9⟩⟩ "astray", .host 0⟩
    let found : Report := ⟨.error ⟨"main", ⟨1, 2⟩⟩ "found", .host 2⟩
    let e : Edit := ⟨1, 2, [⟨1, [⟨⟨1, 1⟩, ['b']⟩]⟩]⟩
    ∃ events en events' en' next update next' update',
      events.map (·.operation) = [.setReports [astray, old] 1, .gutterOver 0 2] ∧
      Run (attach (.ofText "main" ['a', 'b']) warningsOnly 0) events en ∧
      events'.map (·.operation) = [.setReports [old] 1, .edit e 2] ∧
      Run (attach (.ofText "main" ['a']) warningsOnly 0) events' en' ∧
      en.standIn ≠ en'.standIn ∧
      en.complete ⟨1, 0⟩ [⟨[found, astray], 0⟩] = .ok (next, .applied update) ∧
      en'.complete ⟨1, 1⟩ [⟨[found, astray], 0⟩] = .ok (next', .applied update') ∧
      List.Forall₂ (SamePlace (SameReport en en')) next.store.annotations
        next'.store.annotations ∧
      List.Forall₂ (SameMarker (SameReport en en')) next.gutter.markers
        next'.gutter.markers := by
  intro old astray found e
  obtain ⟨shown, pointed, kept, made, hshown, hpointed, hkept, hmade, hdoc, hdoc',
    hoptions, hoptions', hkey, hkey'⟩ := exists_histories
  have ran := (Run.nil.step hshown).step hpointed
  have ran' := (Run.nil.step hkept).step hmade
  have attached : pointed.engine.isAttached = true := ran.isAttached_iff.mpr ⟨rfl, by simp⟩
  have attached' : made.engine.isAttached = true := ran'.isAttached_iff.mpr ⟨rfl, by simp⟩
  have fresh (f : Filter) (hf : pointed.engine.options.gutter.markerFilter = some f) :
      NewKeys pointed.engine made.engine [⟨[found, astray], 0⟩] f := by
    rw [hoptions] at hf
    obtain rfl := Option.some.inj hf
    refine ⟨?_, (Filter.readsNoKeys_atLeast .warning).ignores _⟩
    rw [hkey, hkey']
    decide
  have hfilter : pointed.engine.options.gutter.markerFilter =
      made.engine.options.gutter.markerFilter := by rw [hoptions, hoptions']
  have htext : pointed.engine.doc.text = made.engine.doc.text := by rw [hdoc, hdoc']
  have hsource : pointed.engine.doc.source = made.engine.doc.source := by rw [hdoc, hdoc']
  have hversion : (⟨1, 0⟩ : Ticket).version = pointed.engine.doc.version := by rw [hdoc]; rfl
  have hversion' : (⟨1, 1⟩ : Ticket).version = made.engine.doc.version := by rw [hdoc']
  obtain ⟨next, update, next', update', happlied, happlied', places, -, -, markers⟩ :=
    completion_erases_history attached attached' htext hsource hfilter hversion hversion' _
  have hdifferent : pointed.engine.standIn ≠ made.engine.standIn := by
    intro hsame
    have hkeys : Report.Key.minted pointed.engine.nextKey = .minted made.engine.nextKey :=
      congrArg Report.key hsame
    rw [hkey, hkey'] at hkeys
    exact absurd hkeys (by decide)
  exact ⟨_, _, _, _, next, update, next', update', rfl, ran, rfl, ran', hdifferent, happlied,
    happlied', places, markers fun f hf _ => .inr (fresh f hf)⟩

end Engine

end Marginalia
