import Marginalia.Proofs.Engine.Gutter
import Marginalia.Proofs.Store.Marks

/-!
# What the pointer has opened

The tooltip opens when the pointer hovers over the text, and the pop-up of the gutter when a poll
finds it due. Every other operation closes them, leaves them as they are, or takes them along with
an edit, and what they list stays the same. While the tooltip is open through an operation, the
annotations stay or are carried by the edit that the tooltip is carried by.
-/

namespace Marginalia.Engine

open Annotation (carryAll)

variable {en : Engine} {cursor : Extent} {op : Operation} {reply : Reply Answer}
  {t : Transaction} {before : Document} {store : Store} {tip : Hover} {p : Gutter.Popup}

/-- What an operation comes to for the tooltip and the pop-up. -/
inductive Pointed (en : Engine) (op : Operation) (reply : Reply Answer) : Prop where
  /-- A transaction of the host was dispatched. -/
  | dispatched (t : Transaction) (now : Nat) (answer : Except Edit.Error ViewUpdate)
      (carries : op.transaction? = some t) (is : en.dispatch t now = .ok (reply.engine, answer))
  /-- At most one effect was committed. -/
  | acted (acts : en.Acts (.ok reply))
  /-- Nothing has opened, and the document and its reports are the same. -/
  | rested (doc : reply.engine.doc = en.doc) (store : reply.engine.store = en.store)
      (hover : ∀ tip, reply.engine.hover = some tip → en.hover = some tip)
      (popup : ∀ p, reply.engine.gutter.popup = some p → en.gutter.popup = some p)
  /-- The pointer has hovered over the text. -/
  | hovered (pos : Nat) (side : Side) (asked : op = .hover pos side)
      (is : reply.engine = en.hoverAt pos side)
  /-- The gutter was polled. -/
  | polled (now : Nat) (asked : op = .gutterPoll now)
      (is : reply = .quiet (en.gutterPoll now).1 (.popup (en.gutterPoll now).2))

/-- Coming to a marker opens nothing. -/
theorem popup_pointerOver (g : Gutter) (lineStart now : Nat) (options : Gutter.Options) :
    (g.pointerOver lineStart now options).1.popup = g.popup := by
  unfold Gutter.pointerOver
  split
  case h_1 => rfl
  case h_2 => split <;> rfl

/-- Moving the pointer opens nothing. -/
theorem popup_pointerMoved {g : Gutter} {pointer : ScreenPoint} {marker : Rect} {overPopup : Bool}
    {options : Gutter.Options}
    (h : (g.pointerMoved pointer marker overPopup options).1.popup = some p) :
    g.popup = some p := by
  unfold Gutter.pointerMoved at h
  split at h
  case isTrue => exact h
  case isFalse => simp at h

/-- Every operation dispatches, acts, rests, hovers or polls the gutter. -/
theorem pointed_of_perform (h : en.perform cursor op = .ok reply) : en.Pointed op reply := by
  cases op with
  | edit e now =>
    obtain ⟨⟨next, answer⟩, hdispatch, rfl⟩ := exists_of_map_eq_ok h
    exact .dispatched (.ofEdit e) now answer rfl hdispatch
  | dispatch t now =>
    obtain ⟨⟨next, answer⟩, hdispatch, rfl⟩ := exists_of_map_eq_ok h
    exact .dispatched t now answer rfl hdispatch
  | setReports reports now =>
    exact .acted (h ▸ acts_setReports en reports now _ fun _ => rfl)
  | complete ticket batches => exact .acted (h ▸ acts_complete en ticket batches _ fun _ => rfl)
  | completeGathered g => exact .acted (h ▸ acts_completeGathered en g _ fun _ => rfl)
  | openPanel => exact .acted (h ▸ (acts_openPanel en).map _ fun _ => rfl)
  | closePanel => exact .acted (h ▸ acts_closePanel en _ fun _ => rfl)
  | panelKey key => exact .acted (h ▸ (acts_panelKey en key).map _ fun _ => rfl)
  | panelClick index => exact .acted (h ▸ (acts_panelSelect en index).map _ fun _ => rfl)
  | execute command => exact .acted (h ▸ (acts_execute en cursor command).map _ fun _ => rfl)
  | poll | force | setOptions | noteConfigChange | invoke | gutterMove | gutterOut =>
    obtain rfl := Except.ok.inj h
    exact .rested rfl rfl (fun _ => id) (fun _ => id)
  | detach =>
    obtain rfl := Except.ok.inj h
    exact .rested rfl rfl (fun _ => nofun) (fun _ => nofun)
  | hover pos side =>
    obtain rfl := Except.ok.inj h
    exact .hovered pos side rfl rfl
  | clearHover =>
    obtain rfl := Except.ok.inj h
    exact .rested rfl rfl (fun _ => nofun) (fun _ => id)
  | gutterOver lineStart now =>
    obtain rfl := Except.ok.inj h
    simp only [gutterOver]
    split
    case isTrue => exact .rested rfl rfl (fun _ => id) (fun _ => id)
    case isFalse =>
      exact .rested rfl rfl (fun _ => id) fun _ hp => (popup_pointerOver _ _ _ _).symm.trans hp
  | gutterPoll now =>
    obtain rfl := Except.ok.inj h
    exact .polled now rfl rfl
  | gutterPointer pointer marker overPopup =>
    obtain rfl := Except.ok.inj h
    exact .rested rfl rfl (fun _ => id) fun _ => popup_pointerMoved

section Commit

variable {e : Edit} {doc : Document}

/-- A commit that replaces the reports makes the gutter anew. -/
theorem commitGutter_of_replaces (en : Engine) (before : Document) (store : Store)
    (replaces : t.setsReports = true) : (en.commitGutter t before store).1 =
      ⟨Gutter.markersOf store en.doc en.options.gutter.markerFilter, none⟩ := by
  unfold commitGutter
  dsimp only
  rw [if_pos replaces]
  rfl

/-- A commit that leaves text and reports alone leaves the gutter alone. -/
theorem commitGutter_of_keeps (en : Engine) (before : Document) (store : Store)
    (keeps : t.setsReports = false) (idle : t.change = none) :
    (en.commitGutter t before store).1 = en.gutter := by
  unfold commitGutter
  rw [idle]
  dsimp only
  rw [if_neg (Bool.eq_false_iff.mp keeps)]

/-- A commit of an edit takes the gutter along, unless it replaces the reports as well. -/
theorem commitGutter_of_change (en : Engine) (before : Document) (store : Store)
    (keeps : t.setsReports = false) (changes : t.change = some e) :
    (en.commitGutter t before store).1 = (en.gutter.carry e before en.doc).1 := by
  unfold commitGutter
  rw [changes]
  dsimp only
  rw [if_neg (Bool.eq_false_iff.mp keeps)]

end Commit

/-- A commit closes the pop-up or takes it along with the edit. -/
theorem exists_popup_of_committed (shown : (en.committed t before store).gutter.popup = some p) :
    ∃ old, en.gutter.popup = some old ∧ old.reports = p.reports := by
  have hshown : (en.commitGutter t before store).1.popup = some p := shown
  cases hkeeps : t.setsReports with
  | true =>
    rw [commitGutter_of_replaces en before store hkeeps] at hshown
    simp at hshown
  | false =>
    cases hchange : t.change with
    | none =>
      rw [commitGutter_of_keeps en before store hkeeps hchange] at hshown
      exact ⟨p, hshown, rfl⟩
    | some e =>
      rw [commitGutter_of_change en before store hkeeps hchange] at hshown
      obtain ⟨old, hold, hcarried⟩ := Option.bind_eq_some_iff.mp hshown
      refine ⟨old, hold, ?_⟩
      unfold Gutter.carryPopup? at hcarried
      dsimp only at hcarried
      split at hcarried
      case isTrue => simp at hcarried
      case isFalse => rw [← Option.some.inj hcarried]

/-- A pop-up that is open after an operation was open before and listed the same, unless the
operation is a poll that opens it at a marker. -/
theorem exists_popup_of_perform (h : en.perform cursor op = .ok reply)
    (shown : reply.engine.gutter.popup = some p) :
    (∃ old, en.gutter.popup = some old ∧ old.reports = p.reports) ∨
      (∃ now, op = .gutterPoll now) ∧ reply.answer = .popup (some p) ∧
        ∃ m ∈ en.gutter.markers, p.reports = m.listed en.options.gutter := by
  cases pointed_of_perform h with
  | dispatched t now answer carries is =>
    refine Or.inl ?_
    rcases dispatch_cases is with ⟨hnext, -⟩ | ⟨doc, store, update, -, -, -, hnext⟩
    · rw [hnext] at shown
      exact ⟨p, shown, rfl⟩
    · rw [hnext] at shown
      have hfound := exists_popup_of_committed shown
      exact hfound
  | acted acts =>
    refine Or.inl ?_
    rcases acts.engine_cases with hsame | ⟨key, effect, store, -, -, hnext⟩
    · rw [hsame] at shown
      exact ⟨p, shown, rfl⟩
    · rw [hnext] at shown
      have hfound := exists_popup_of_committed shown
      exact hfound
  | rested doc store hover popup => exact Or.inl ⟨p, popup p shown, rfl⟩
  | hovered pos side asked is =>
    rw [is] at shown
    exact Or.inl ⟨p, shown, rfl⟩
  | polled now asked is =>
    subst is
    rcases Option.or_eq_some_iff.mp shown with hopened | ⟨-, hstays⟩
    · obtain ⟨m, hfound, rfl⟩ := Option.map_eq_some_iff.mp hopened
      have hm := List.mem_reverse.mp (List.mem_of_find?_eq_some hfound)
      exact Or.inr ⟨⟨now, asked⟩, congrArg Answer.popup hopened, m, hm, rfl⟩
    · exact Or.inl ⟨p, hstays, rfl⟩

/-- What is open of the tooltip after an edit that leaves it open: the edit fits, it does not touch
the line on which the tooltip starts, and the annotations are carried as the tooltip is. -/
structure Drags (en next : Engine) (e : Edit) (old tip : Hover) : Prop where
  made : en.doc.apply e = .ok next.doc
  shown : en.hover = some old
  clear : e.touches (en.doc.lineAt old.anchor).start (en.doc.lineAt old.anchor).stop = false
  moved : tip = old.carry e
  annotations : next.store.annotations = carryAll e en.store.annotations

/-- A commit through which the tooltip stays open replaces no reports. It has no edit, or one that
the tooltip is taken along with. -/
theorem tip_of_committed (shown : (en.committed t before store).hover = some tip) :
    t.setsReports = false ∧
      (t.change = none ∧ en.hover = some tip ∨
        ∃ e old, t.change = some e ∧ en.hover = some old ∧
          e.touches (before.lineAt old.anchor).start (before.lineAt old.anchor).stop = false ∧
          tip = old.carry e) := by
  have hshown : (en.commitHover t before).1 = some tip := shown
  unfold commitHover at hshown
  split at hshown
  case h_1 => simp at hshown
  case h_2 old hold =>
    split at hshown
    case isTrue => simp at hshown
    case isFalse hopen =>
      obtain ⟨hkeeps, hclear⟩ := Bool.or_eq_false_iff.mp ((Bool.not_eq_true _).mp hopen)
      refine ⟨hkeeps, ?_⟩
      cases hchange : t.change with
      | none =>
        rw [hchange] at hshown
        exact Or.inl ⟨rfl, hold.trans hshown⟩
      | some e =>
        rw [hchange] at hshown hclear
        exact Or.inr ⟨e, old, rfl, hold, hclear, (Option.some.inj hshown).symm⟩

/-- While the tooltip stays open through an operation that is not another hover, it and the
annotations and the document stay as they are, or an edit takes them along. -/
theorem exists_drags_of_perform (h : en.perform cursor op = .ok reply)
    (other : ∀ pos side, op ≠ .hover pos side) (shown : reply.engine.hover = some tip) :
    (en.hover = some tip ∧ reply.engine.doc = en.doc ∧
        reply.engine.store.annotations = en.store.annotations) ∨
      ∃ e old, op.edit? = some e ∧ en.Drags reply.engine e old tip := by
  cases pointed_of_perform h with
  | dispatched t now answer carries is =>
    rcases dispatch_cases is with ⟨hnext, -⟩ | ⟨doc, store, update, hedited, hstore, -, hnext⟩
    · rw [hnext] at shown ⊢
      exact Or.inl ⟨shown, rfl, rfl⟩
    · rw [hnext] at shown ⊢
      obtain ⟨hkeeps, hmoved⟩ := tip_of_committed shown
      have hannotations := Store.annotations_of_update hstore hkeeps
      unfold Store.edited at hannotations
      unfold edited at hedited
      rcases hmoved with ⟨hchange, hold⟩ | ⟨e, old, hchange, hold, hclear, hmoved⟩
      · rw [hchange] at hannotations hedited
        obtain rfl := Except.ok.inj hedited
        exact Or.inl ⟨hold, rfl, hannotations⟩
      · rw [hchange] at hannotations hedited
        have hedit : op.edit? = some e := by
          rw [Operation.edit?, carries]
          exact (Transaction.change_eq_some_iff.mp hchange).1
        exact Or.inr ⟨e, old, hedit, hedited, hold, hclear, hmoved, hannotations⟩
  | acted acts =>
    refine Or.inl ?_
    rcases acts.engine_cases with hsame | ⟨key, effect, store, -, hstore, hnext⟩
    · rw [hsame] at shown ⊢
      exact ⟨shown, rfl, rfl⟩
    · rw [hnext] at shown ⊢
      obtain ⟨hkeeps, hmoved⟩ := tip_of_committed shown
      have hannotations := Store.annotations_of_update hstore hkeeps
      rcases hmoved with ⟨-, hold⟩ | ⟨e, old, hchange, -⟩
      · exact ⟨hold, rfl, hannotations⟩
      · contradiction
  | rested doc store hover popup => exact Or.inl ⟨hover tip shown, doc, by rw [store]⟩
  | hovered pos side asked is => exact absurd asked (other pos side)
  | polled now asked is =>
    subst is
    exact Or.inl ⟨shown, rfl, rfl⟩

end Marginalia.Engine
