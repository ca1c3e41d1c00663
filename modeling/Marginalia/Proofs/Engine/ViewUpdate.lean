import Marginalia.Proofs.Engine.Freshness

/-!
# View updates tell what has happened

An update is put together while a transaction goes through the store and the views one by one. The
gutter may close its pop-up twice, by the edit and by new reports, and effects may open and close
the panel several times. What the update says in the end is what the engine before and the engine
after differ in: what was open and is closed now, whether the panel is there, whether the text has
changed, and which version of the store the host sees.
-/

namespace Marginalia

/-- The transaction does something: it has an edit that changes the text, or an effect. -/
def Transaction.Acts (t : Transaction) : Prop :=
  (∃ e, t.edit = some e ∧ e.isEmpty = false) ∨ t.effects ≠ []

/-- A transaction changes the text exactly if it has an edit with a pass. -/
theorem Transaction.changesText_iff {t : Transaction} :
    t.changesText = true ↔ ∃ e, t.edit = some e ∧ e.isEmpty = false := by
  rw [changesText, Option.isSome_iff_exists]
  exact exists_congr fun e => change_eq_some_iff

/-- A transaction replaces the reports exactly if some effect does. -/
theorem Transaction.setsReports_iff {t : Transaction} :
    t.setsReports = true ↔ ∃ reports rule, .setReports reports rule ∈ t.effects := by
  rw [setsReports, List.any_eq_true]
  constructor
  · rintro ⟨effect, hmem, hsets⟩
    cases effect with
    | setReports reports rule => exact ⟨reports, rule, hmem⟩
    | setPanel | select => exact absurd hsets Bool.false_ne_true
  · rintro ⟨reports, rule, hmem⟩
    exact ⟨_, hmem, rfl⟩

namespace Store

variable {s next : Store} {t : Transaction} {doc : Document}

/-- An effect leaves the version of the store alone. -/
theorem version_perform (doc : Document) (s : Store) (effect : Effect) :
    (s.perform doc effect).version = s.version := by
  cases effect <;> rfl

/-- Effects leave the version of the store alone. -/
theorem version_foldl_perform (doc : Document) (s : Store) (effects : List Effect) :
    (effects.foldl (perform doc) s).version = s.version := by
  induction effects generalizing s with
  | nil => rfl
  | cons effect rest ih => rw [List.foldl_cons, ih, version_perform]

/-- The version of the store grows by one with every transaction that does something. -/
theorem version_of_update (h : s.update t doc = .ok next) :
    (t.Acts → next.version = s.version + 1) ∧ (¬ t.Acts → next.version = s.version) := by
  have hnext : next = s.advance t doc := by
    unfold update at h
    split at h
    case h_1 => simp at h
    case h_2 => exact (Except.ok.inj h).symm
  have hacts : (t.changesText || !t.effects.isEmpty) = true ↔ t.Acts := by
    rw [Bool.or_eq_true, Transaction.changesText_iff, Bool.not_eq_true', List.isEmpty_eq_false_iff]
    rfl
  rw [hnext]
  unfold advance
  constructor
  · intro acts
    rw [if_pos (hacts.mpr acts)]
  · intro idle
    rw [if_neg (mt hacts.mp idle), version_foldl_perform]
    cases t.change <;> rfl

end Store

namespace Engine

variable {en next : Engine} {t : Transaction} {update : ViewUpdate}

/-- What `update` says is what has become of `en` by the transaction that has left `next`. -/
structure ViewUpdate.Tells (update : ViewUpdate) (t : Transaction) (en next : Engine) : Prop where
  hoverClosed : update.hoverClosed = true ↔ en.hover.isSome = true ∧ next.hover = none
  popupClosed : update.popupClosed = true ↔
    en.gutter.popup.isSome = true ∧ next.gutter.popup = none
  panelClosed : update.panelClosed = true ↔ en.panel.isSome = true ∧ next.panel = none
  panel : update.panel.isSome = true ↔ next.panel.isSome = true
  textChanged : update.textChanged = true ↔ next.doc.version ≠ en.doc.version
  reportsReplaced : update.reportsReplaced = true ↔
    ∃ reports rule, .setReports reports rule ∈ t.effects
  version : update.version = next.store.version
  counts : next.store.version = en.store.version + 1 ↔ t.Acts
  rests : ¬ t.Acts → next.store.version = en.store.version

/-- An edit says of the pop-up whether it has closed it. -/
theorem carry_closes_iff (g : Gutter) (e : Edit) (before after : Document) :
    (g.carry e before after).2 = true ↔
      g.popup.isSome = true ∧ (g.carry e before after).1.popup = none := by
  rw [Gutter.carry, Bool.and_eq_true, Option.isNone_iff_eq_none]

/-- A pop-up that is open after an edit was open before. -/
theorem isSome_of_carry {g : Gutter} {e : Edit} {before after : Document}
    (h : (g.carry e before after).1.popup.isSome = true) : g.popup.isSome = true := by
  obtain ⟨p, hp⟩ := Option.isSome_iff_exists.mp h
  obtain ⟨old, hold, -⟩ := Option.bind_eq_some_iff.mp hp
  rw [hold]
  rfl

/-- A commit says of the pop-up whether it has closed it, by the edit or by new reports. -/
theorem commitGutter_closes_iff (en : Engine) (t : Transaction) (before : Document)
    (store : Store) : (en.commitGutter t before store).2 = true ↔
      en.gutter.popup.isSome = true ∧ (en.commitGutter t before store).1.popup = none := by
  unfold commitGutter
  cases t.change with
  | none =>
    cases t.setsReports with
    | true => simp [Gutter.rebuild]
    | false =>
      refine iff_of_false Bool.false_ne_true fun ⟨shown, closed⟩ => ?_
      have hclosed : en.gutter.popup = none := closed
      rw [hclosed] at shown
      exact Bool.false_ne_true shown
  | some e =>
    have hcloses := carry_closes_iff en.gutter e before en.doc
    cases t.setsReports with
    | true =>
      simp only [Gutter.rebuild, if_true, Bool.or_eq_true, and_true, hcloses]
      constructor
      · rintro (⟨shown, -⟩ | stayed)
        · exact shown
        · exact isSome_of_carry stayed
      · intro shown
        cases hpopup : (en.gutter.carry e before en.doc).1.popup with
        | none => exact Or.inl ⟨shown, rfl⟩
        | some p => exact Or.inr rfl
    | false => exact hcloses

/-- A commit says of the tooltip whether it has closed it. -/
theorem commitHover_closes_iff (en : Engine) (t : Transaction) (before : Document) :
    (en.commitHover t before).2 = true ↔
      en.hover.isSome = true ∧ (en.commitHover t before).1 = none := by
  unfold commitHover
  cases en.hover with
  | none => simp
  | some h =>
    dsimp only
    split
    case isTrue => simp
    case isFalse => cases t.change <;> simp

/-- A commit says of the panel whether it has closed it, and what has happened in it if it is
there. -/
theorem commitPanel_tells (en : Engine) (store : Store) :
    ((en.commitPanel store).2.2 = true ↔
      en.panel.isSome = true ∧ (en.commitPanel store).1 = none) ∧
    ((en.commitPanel store).2.1.isSome = true ↔ (en.commitPanel store).1.isSome = true) := by
  unfold commitPanel
  cases store.panelOpen <;> cases en.panel <;> simp

/-- A commit updates the store and says what it has done to the views. -/
theorem eq_of_commit {before : Document} (h : en.commit t before = .ok (next, update)) :
    ∃ store, en.store.update t en.doc = .ok store ∧ next = en.committed t before store ∧
      update =
        { version := store.version, textChanged := t.changesText, reportsReplaced := t.setsReports,
          panel := (en.commitPanel store).2.1, panelClosed := (en.commitPanel store).2.2,
          hoverClosed := (en.commitHover t before).2,
          popupClosed := (en.commitGutter t before store).2 } := by
  unfold commit at h
  split at h
  case h_1 => simp at h
  case h_2 store hstore =>
    obtain ⟨rfl, rfl⟩ := Prod.mk.inj (Except.ok.inj h)
    exact ⟨store, hstore, rfl, rfl⟩

/-- The update of a commit tells what has become of the engine, which may have another document,
another timer and other keys to give out by the time of the commit. -/
theorem tells_of_commit {doc before : Document} {debounce : Debounce} {nextKey : Nat}
    (hdoc : t.changesText = true ↔ doc.version ≠ en.doc.version)
    (h : commit { en with doc, debounce, nextKey } t before = .ok (next, update)) :
    update.Tells t en next := by
  obtain ⟨store, hupdate, rfl, rfl⟩ := eq_of_commit h
  obtain ⟨counts, rests⟩ := Store.version_of_update hupdate
  have hcounts : store.version = en.store.version + 1 → t.Acts := by
    intro hversion
    by_contra idle
    have hsame : store.version = en.store.version := rests idle
    omega
  obtain ⟨panelClosed, panel⟩ := commitPanel_tells { en with doc, debounce, nextKey } store
  exact {
    hoverClosed := commitHover_closes_iff _ t before
    popupClosed := commitGutter_closes_iff _ t before store
    panelClosed := panelClosed
    panel := panel
    textChanged := hdoc
    reportsReplaced := Transaction.setsReports_iff
    version := rfl
    counts := ⟨hcounts, counts⟩
    rests := rests }

/-- The update of a dispatch tells what has become of the engine. -/
theorem tells_of_dispatch {now : Nat} (h : en.dispatch t now = .ok (next, .ok update)) :
    update.Tells t en next := by
  rw [dispatch_eq] at h
  cases hedited : en.edited t with
  | error error =>
    rw [hedited] at h
    exact absurd (Prod.mk.inj (Except.ok.inj h)).2 nofun
  | ok doc =>
    rw [hedited] at h
    obtain ⟨⟨next', update'⟩, hcommit, heq⟩ := exists_of_map_eq_ok h
    obtain ⟨rfl, hupdate⟩ := Prod.mk.inj heq
    obtain rfl := Except.ok.inj hupdate
    refine tells_of_commit ⟨fun changes => ?_, fun moved => ?_⟩ hcommit
    · rw [version_of_edited changes hedited]
      exact Nat.succ_ne_self _
    · by_contra keeps
      exact moved (congrArg Document.version (eq_of_edited keeps hedited))

/-- The update of an applied completion tells what has become of the engine. -/
theorem tells_of_complete {ticket : Ticket} {batches : List Batch}
    (h : en.complete ticket batches = .ok (next, .applied update)) :
    update.Tells (.ofReports (en.takeIn (.ofBatches en.doc batches)).2) en next := by
  unfold complete at h
  split at h
  case isTrue => exact absurd (Prod.mk.inj (Except.ok.inj h)).2 nofun
  case isFalse =>
    split at h
    case isTrue => exact absurd (Prod.mk.inj (Except.ok.inj h)).2 nofun
    case isFalse =>
      obtain ⟨⟨next', update'⟩, hcommit, heq⟩ := exists_of_map_eq_ok h
      obtain ⟨rfl, hupdate⟩ := Prod.mk.inj heq
      obtain rfl := Verdict.applied.inj hupdate
      exact tells_of_commit (iff_of_false Bool.false_ne_true (absurd rfl)) hcommit

/-- The update of an applied completion tells what has become of the engine, also when the results
were gathered from several sources. -/
theorem tells_of_completeGathered {g : Gather Batch}
    (h : en.completeGathered g = .ok (next, some (.applied update))) :
    ∃ reports, update.Tells (.ofReports reports) en next := by
  unfold completeGathered at h
  split at h
  case h_1 => exact absurd (Prod.mk.inj (Except.ok.inj h)).2 nofun
  case h_2 =>
    obtain ⟨⟨next', verdict⟩, hcomplete, heq⟩ := exists_of_map_eq_ok h
    obtain ⟨rfl, hverdict⟩ := Prod.mk.inj heq
    obtain rfl := Option.some.inj hverdict
    exact ⟨_, tells_of_complete hcomplete⟩

/-- In every engine, the update that answers a transaction, or that comes with applied results,
tells the truth. It says that the tooltip, the pop-up or the panel was closed exactly if it was open
before and is not there any more, and what has happened in the panel exactly if there is one. It
says that the text has changed exactly if the document has another version, and that the reports
were replaced exactly if some effect does that. Its version is that of the store, which has grown by
one if the transaction has an edit with a pass or an effect, and is the same otherwise. -/
theorem updates_tell_what_happened (en : Engine) :
    (∀ t now next update, en.dispatch t now = .ok (next, .ok update) → update.Tells t en next) ∧
    (∀ ticket batches next update, en.complete ticket batches = .ok (next, .applied update) →
      ∃ reports, update.Tells (.ofReports reports) en next) ∧
    (∀ g next update, en.completeGathered g = .ok (next, some (.applied update)) →
      ∃ reports, update.Tells (.ofReports reports) en next) :=
  ⟨fun _ _ _ _ => tells_of_dispatch, fun _ _ _ _ h => ⟨_, tells_of_complete h⟩,
    fun _ _ _ => tells_of_completeGathered⟩

/-- A pointer has opened the pop-up of the first line and the tooltip of the second. Then an edit in
the second line comes with effects that close the panel, select and open the panel again, and the
results for the edited text come after it, alone or gathered. -/
private theorem exists_updates_after_edit :
    let doc : Document := .ofText "main" ['a', 'b', '\n', 'c', 'd']
    let one : Report := ⟨.error ⟨"main", ⟨0, 2⟩⟩ "one", .host 0⟩
    let two : Report := ⟨.error ⟨"main", ⟨3, 5⟩⟩ "two", .host 1⟩
    let e : Edit := ⟨5, 6, [⟨5, [⟨⟨4, 4⟩, ['x']⟩]⟩]⟩
    let t : Transaction := ⟨some e, [.setPanel false, .select ⟨⟨3, 5⟩, two⟩, .setPanel true]⟩
    ∃ (filled en next last : Engine) (opened update applied : ViewUpdate),
      (attach doc .standard 0).dispatch
        ⟨none, [.setPanel true, .setReports [one, two] .first]⟩ 0 = .ok (filled, .ok opened) ∧
      en = (((filled.hoverAt 4 .after).gutterOver 0 0).1.gutterPoll 300).1 ∧
      (en.hover.isSome = true ∧ en.gutter.popup.isSome = true) ∧
      en.dispatch t 400 = .ok (next, .ok update) ∧
      (next.hover = none ∧ next.gutter.popup.isSome = true ∧ next.panel.isSome = true) ∧
      next.complete ⟨0, 1⟩ [.empty] = .ok (last, .applied applied) ∧
      next.completeGathered ⟨⟨0, 1⟩, [some .empty]⟩ = .ok (last, some (.applied applied)) ∧
      last.gutter.popup = none :=
  ⟨_, _, _, _, _, _, _, rfl, rfl, ⟨rfl, rfl⟩, rfl, ⟨rfl, rfl, rfl⟩, rfl, rfl, rfl⟩

/-- The edit closes the tooltip, and neither the pop-up nor the panel in the end; the results close
the pop-up. -/
theorem updates_tell_what_happened_after_edit :
    let two : Report := ⟨.error ⟨"main", ⟨3, 5⟩⟩ "two", .host 1⟩
    let e : Edit := ⟨5, 6, [⟨5, [⟨⟨4, 4⟩, ['x']⟩]⟩]⟩
    let t : Transaction := ⟨some e, [.setPanel false, .select ⟨⟨3, 5⟩, two⟩, .setPanel true]⟩
    ∃ (en next last : Engine) (update applied : ViewUpdate),
      en.dispatch t 400 = .ok (next, .ok update) ∧
      next.complete ⟨0, 1⟩ [.empty] = .ok (last, .applied applied) ∧
      next.completeGathered ⟨⟨0, 1⟩, [some .empty]⟩ = .ok (last, some (.applied applied)) ∧
      update.hoverClosed = true ∧ update.popupClosed = false ∧ update.panel.isSome = true ∧
      update.version = en.store.version + 1 ∧
      applied.popupClosed = true ∧ applied.reportsReplaced = true ∧
      applied.version = update.version + 1 := by
  intro two e t
  obtain ⟨_, en, next, last, _, update, applied, -, -, ⟨hhover, -⟩, hdispatch,
    ⟨hclosed, hstays, hpanel⟩, hcomplete, hgathered, hgone⟩ := exists_updates_after_edit
  obtain ⟨dispatched, completed, gathered⟩ := updates_tell_what_happened next
  have told := (updates_tell_what_happened en).1 t 400 next update hdispatch
  obtain ⟨reports, toldAgain⟩ := completed ⟨0, 1⟩ [.empty] last applied hcomplete
  obtain ⟨same, toldGathered⟩ := gathered ⟨⟨0, 1⟩, [some .empty]⟩ last applied hgathered
  have hkeeps : update.popupClosed = false := by
    refine Bool.eq_false_iff.mpr fun closed => ?_
    rw [(told.popupClosed.mp closed).2] at hstays
    exact Bool.false_ne_true hstays
  have hedits : t.Acts := Or.inl ⟨e, rfl, rfl⟩
  have hreplaces : (Transaction.ofReports reports).Acts := Or.inr (List.cons_ne_nil _ _)
  refine ⟨en, next, last, update, applied, hdispatch, hcomplete, hgathered,
    told.hoverClosed.mpr ⟨hhover, hclosed⟩, hkeeps, told.panel.mpr hpanel,
    told.version.trans (told.counts.mpr hedits), toldGathered.popupClosed.mpr ⟨hstays, hgone⟩,
    toldGathered.reportsReplaced.mpr ⟨same, .first, List.mem_cons_self⟩, ?_⟩
  rw [toldAgain.version, toldAgain.counts.mpr hreplaces, told.version]

end Engine

end Marginalia
