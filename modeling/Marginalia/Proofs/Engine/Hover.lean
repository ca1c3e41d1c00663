import Marginalia.Proofs.Engine.Dispatch
import Marginalia.Proofs.Engine.PanelKeys
import Marginalia.Proofs.Engine.Pointer
import Marginalia.Proofs.View.Hover

/-!
# The tooltip goes on enclosing its reports

While the tooltip stays open, every edit leaves the line of its anchor alone. So the tooltip and the
annotations that it encloses go through the same edits together, from the hover that has opened it
on, and whatever else is done in between leaves both as they are.
-/

namespace Marginalia.Engine

variable {start en last : Engine} {events past : List Event} {tip : Hover}

/-- The tooltip, if it is open, lies in the text and encloses what it lists. -/
def Encloses (en : Engine) : Prop :=
  ∀ tip, en.hover = some tip → tip.Encloses en.store.annotations en.doc.length

/-- An engine that a run has led to encloses what it lists when the pointer hovers over the text, if
the filter only leaves reports out. -/
theorem encloses_hoverAt {doc : Document} {options : Options} {begun : Nat}
    (reached : Run (attach doc options begun) past en)
    (narrows : Filter.Narrows en.options.tooltipFilter) (pos : Nat) (side : Side) :
    (en.hoverAt pos side).Encloses := by
  intro tip shown
  have valid := reached.valid (Store.sound_empty doc.length).valid
  have alike := reached.onePlace fun _ ha => absurd ha List.not_mem_nil
  exact Hover.encloses_at? valid alike narrows shown

/-- An operation that is not another hover leaves a tooltip that encloses what it lists, unless the
anchor was inside a pair. -/
theorem Encloses.perform {cursor : Extent} {op : Operation} {reply : Reply Answer}
    (encloses : en.Encloses) (valid : en.store.Valid en.doc.length)
    (h : en.perform cursor op = .ok reply) (built : ∀ e, op.edit? = some e → e.Built)
    (other : ∀ pos side, op ≠ .hover pos side)
    (whole : ∀ tip, en.hover = some tip → ¬ Text.SplitsPair en.doc.text tip.anchor) :
    reply.engine.Encloses := by
  intro tip shown
  rcases exists_drags_of_perform h other shown with
    ⟨hshown, hdoc, hannotations⟩ | ⟨e, old, hedit, drags⟩
  · rw [hdoc, hannotations]
    exact encloses tip hshown
  · have formed := (built e hedit).wellFormed
    rw [drags.annotations, drags.moved, Document.length_of_apply formed drags.made]
    exact (encloses old drags.shown).carry formed (Document.apply_eq_ok_iff.mp drags.made).1
      (fun a ha => (valid.inside a ha).1) drags.clear (whole old drags.shown)

/-- Throughout a run without another hover the tooltip encloses what it lists. -/
theorem Run.encloses (ran : Run start events en) (begun : start.Encloses)
    (valid : start.store.Valid start.doc.length)
    (built : ∀ ev ∈ events, ∀ e, ev.operation.edit? = some e → e.Built)
    (other : ∀ ev ∈ events, ∀ pos side, ev.operation ≠ .hover pos side)
    (whole : ∀ ev ∈ events, ∀ tip, ev.before.hover = some tip →
      ¬ Text.SplitsPair ev.before.doc.text tip.anchor) : en.Encloses := by
  induction ran with
  | nil => exact begun
  | step earlier performed ih =>
    obtain ⟨hbuilt, hedit⟩ := List.forall_mem_append.mp built
    obtain ⟨hother, hop⟩ := List.forall_mem_append.mp other
    obtain ⟨hwhole, hanchor⟩ := List.forall_mem_append.mp whole
    exact (ih hbuilt hother hwhole).perform (earlier.valid valid) performed
      (List.forall_mem_singleton.mp hedit) (List.forall_mem_singleton.mp hop)
      (List.forall_mem_singleton.mp hanchor)

/-- A tooltip that a hover has opened in a reachable engine, under no filter or one that only leaves
reports out, and that is still open after any operations but another hover, lies in the text and
encloses every annotation of the reports that it lists, as long as its anchor was never inside a
pair of carriage return and line feed. -/
theorem tooltip_encloses_reports {doc : Document} {options : Options} {begun : Nat} {pos : Nat}
    {side : Side} (reached : Run (attach doc options begun) past en)
    (narrows : Filter.Narrows en.options.tooltipFilter)
    (ran : Run (en.hoverAt pos side) events last)
    (built : ∀ ev ∈ events, ∀ e, ev.operation.edit? = some e → e.Built)
    (other : ∀ ev ∈ events, ∀ pos side, ev.operation ≠ .hover pos side)
    (whole : ∀ ev ∈ events, ∀ tip, ev.before.hover = some tip →
      ¬ Text.SplitsPair ev.before.doc.text tip.anchor)
    (shown : last.hover = some tip) :
    tip.anchor ≤ tip.stop ∧ tip.stop ≤ last.doc.length ∧
      ∀ r ∈ tip.reports, ∀ a ∈ last.store.annotations, a.report = r →
        tip.anchor ≤ a.extent.start ∧ a.extent.start ≤ a.extent.stop ∧
          a.extent.stop ≤ tip.stop := by
  have valid : (en.hoverAt pos side).store.Valid (en.hoverAt pos side).doc.length :=
    reached.valid (Store.sound_empty doc.length).valid
  have encloses := ran.encloses (encloses_hoverAt reached narrows pos side) valid built other whole
  obtain ⟨ordered, inside, covers⟩ := encloses tip shown
  refine ⟨ordered, inside, fun r hr a ha hreport => ?_⟩
  obtain ⟨hfrom, hto⟩ := covers a ha (hreport ▸ hr)
  exact ⟨hfrom, ((ran.valid valid).inside a ha).1, hto⟩

/-- Settings under which the tooltip leaves out what is less than a warning. -/
private def warningsInTooltip : Options :=
  { Options.standard with tooltipFilter := some (Filter.atLeast .warning) }

/-- A report over three lines is hovered over beside a hint, and the second line is edited twice. -/
private theorem exists_tooltip_after_edits :
    let doc : Document := .ofText "main" ['a', 'b', '\r', '\n', 'c', 'd', '\n', 'e']
    let wide : Report := ⟨.error ⟨"main", ⟨0, 8⟩⟩ "wide", .host 0⟩
    let hint : Report := ⟨⟨⟨"main", ⟨1, 1⟩⟩, .hint, "hint", none, [], none⟩, .host 1⟩
    let inserted : Edit := ⟨8, 10, [⟨8, [⟨⟨5, 5⟩, ['x', 'y']⟩]⟩]⟩
    let removed : Edit := ⟨10, 7, [⟨10, [⟨⟨5, 8⟩, []⟩]⟩]⟩
    ∃ filled first made,
      (attach doc warningsInTooltip 0).perform ⟨0, 0⟩ (.setReports [wide, hint] 0) = .ok filled ∧
      (filled.engine.hoverAt 1 .after).perform ⟨0, 0⟩
        (.dispatch ⟨some inserted, [.setPanel true]⟩ 1) = .ok first ∧
      first.engine.perform ⟨0, 0⟩ (.edit removed 2) = .ok made ∧
      filled.engine.options = warningsInTooltip ∧
      (filled.engine.hoverAt 1 .after).hover = some ⟨0, 8, true, [wide]⟩ ∧
      filled.engine.doc.text = doc.text ∧
      first.engine.hover = some ⟨0, 10, true, [wide]⟩ ∧
      first.engine.doc.text = ['a', 'b', '\r', '\n', 'c', 'x', 'y', 'd', '\n', 'e'] ∧
      made.engine.hover = some ⟨0, 7, true, [wide]⟩ ∧
      ⟨⟨0, 7⟩, .mark, wide⟩ ∈ made.engine.store.annotations := by
  exact ⟨_, _, _, rfl, rfl, rfl, rfl, rfl, rfl, rfl, rfl, rfl, List.mem_cons_self⟩

/-- The tooltip lists the report and not the hint, and has moved with the report. -/
theorem tooltip_encloses_reports_after_edits :
    let doc : Document := .ofText "main" ['a', 'b', '\r', '\n', 'c', 'd', '\n', 'e']
    let wide : Report := ⟨.error ⟨"main", ⟨0, 8⟩⟩ "wide", .host 0⟩
    let hint : Report := ⟨⟨⟨"main", ⟨1, 1⟩⟩, .hint, "hint", none, [], none⟩, .host 1⟩
    let inserted : Edit := ⟨8, 10, [⟨8, [⟨⟨5, 5⟩, ['x', 'y']⟩]⟩]⟩
    let removed : Edit := ⟨10, 7, [⟨10, [⟨⟨5, 8⟩, []⟩]⟩]⟩
    ∃ past en events last, past.map (·.operation) = [.setReports [wide, hint] 0] ∧
      Run (attach doc warningsInTooltip 0) past en ∧ Filter.Narrows en.options.tooltipFilter ∧
      events.map (·.operation) =
        [.dispatch ⟨some inserted, [.setPanel true]⟩ 1, .edit removed 2] ∧
      Run (en.hoverAt 1 .after) events last ∧
      (∀ ev ∈ events, ∀ e, ev.operation.edit? = some e → e.Built) ∧
      (∀ ev ∈ events, ∀ pos side, ev.operation ≠ .hover pos side) ∧
      (∀ ev ∈ events, ∀ tip, ev.before.hover = some tip →
        ¬ Text.SplitsPair ev.before.doc.text tip.anchor) ∧
      last.hover = some ⟨0, 7, true, [wide]⟩ ∧ 7 ≤ last.doc.length ∧
      ∃ a ∈ last.store.annotations, a.report = wide ∧ 0 ≤ a.extent.start ∧ a.extent.stop ≤ 7 := by
  intro doc wide hint inserted removed
  obtain ⟨filled, first, made, hfilled, hfirst, hmade, options, opened, text, carried, text', shown,
    stays⟩ := exists_tooltip_after_edits
  let past : List Event :=
    [⟨attach doc warningsInTooltip 0, ⟨0, 0⟩, .setReports [wide, hint] 0, filled⟩]
  let events : List Event :=
    [⟨filled.engine.hoverAt 1 .after, ⟨0, 0⟩, .dispatch ⟨some inserted, [.setPanel true]⟩ 1, first⟩,
      ⟨first.engine, ⟨0, 0⟩, .edit removed 2, made⟩]
  have reached : Run (attach doc warningsInTooltip 0) past filled.engine := Run.nil.step hfilled
  have ran : Run (filled.engine.hoverAt 1 .after) events made.engine :=
    (Run.nil.step hfirst).step hmade
  have asked : Edit.ofSplice 8 ⟨⟨5, 5⟩, ['x', 'y']⟩ = .ok inserted := rfl
  have asked' : Edit.ofSplice 10 ⟨⟨5, 8⟩, []⟩ = .ok removed := rfl
  have built : ∀ ev ∈ events, ∀ e, ev.operation.edit? = some e → e.Built := by
    simp only [events, List.forall_mem_cons]
    refine ⟨fun e hedit => ?_, Operation.built_of_edit (.ofSplice asked') 2, List.forall_mem_nil _⟩
    obtain rfl := Option.some.inj hedit
    exact .ofSplice asked
  have narrows : Filter.Narrows filled.engine.options.tooltipFilter := by
    rw [options]
    exact Filter.narrows_atLeast .warning
  have other : ∀ ev ∈ events, ∀ pos side, ev.operation ≠ .hover pos side := by
    simp only [events, List.forall_mem_cons]
    exact ⟨nofun, nofun, List.forall_mem_nil _⟩
  have whole : ∀ ev ∈ events, ∀ tip, ev.before.hover = some tip →
      ¬ Text.SplitsPair ev.before.doc.text tip.anchor := by
    simp only [events, List.forall_mem_cons]
    refine ⟨fun tip htip => ?_, fun tip htip => ?_, List.forall_mem_nil _⟩
    · obtain rfl := Option.some.inj (opened.symm.trans htip)
      change ¬ Text.SplitsPair filled.engine.doc.text 0
      rw [text]
      decide
    · obtain rfl := Option.some.inj (carried.symm.trans htip)
      rw [text']
      decide
  obtain ⟨-, inside, covers⟩ :=
    tooltip_encloses_reports reached narrows ran built other whole shown
  have encloses := covers wide List.mem_cons_self _ stays rfl
  exact ⟨past, filled.engine, events, made.engine, rfl, reached, narrows, rfl, ran, built, other,
    whole, shown, inside, _, stays, rfl, encloses.1, encloses.2.2⟩

end Marginalia.Engine
