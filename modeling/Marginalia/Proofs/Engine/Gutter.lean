import Marginalia.Proofs.Engine.Run

/-!
# The gutter follows the document

After every operation of a run the gutter is sound for the current document, whatever the
operations are and in whatever order they come. Only a commit moves the document: it carries the
gutter along with the edit, and makes new markers when the reports are replaced. An edit that the
document refuses leaves both alone, and every other operation leaves the markers on their lines.
-/

namespace Marginalia.Engine

variable {en : Engine}

/-- The edit that an operation comes with, if it comes with one. -/
def Operation.edit? (op : Operation) : Option Edit := op.transaction?.bind (·.edit)

/-- An operation that dispatches nothing has no edit that could not be made. -/
theorem Operation.built_of_bare (op : Operation) (bare : op.transaction? = none) :
    ∀ e, op.edit? = some e → e.Built := by
  intro e hedit
  rw [Operation.edit?, bare] at hedit
  contradiction

/-- An edit of the host is the edit that it was made as. -/
theorem Operation.built_of_edit {e : Edit} (built : e.Built) (now : Nat) :
    ∀ e', (Operation.edit e now).edit? = some e' → e'.Built := by
  intro e' hedit
  obtain rfl := Option.some.inj hedit
  exact built

/-- A commit leaves a gutter that is sound for the document that the transaction leads to. -/
theorem sound_commitGutter {t : Transaction} {doc : Document}
    (sound : en.gutter.Sound en.doc.text) (built : ∀ e, t.edit = some e → e.Built)
    (made : en.edited t = .ok doc) (found : Engine) (hgutter : found.gutter = en.gutter)
    (hdoc : found.doc = doc) (store : Store) :
    (found.commitGutter t en.doc store).1.Sound doc.text := by
  unfold commitGutter
  unfold edited at made
  rw [hgutter, hdoc]
  cases hchange : t.change with
  | none =>
    rw [hchange] at made
    obtain rfl := Except.ok.inj made
    dsimp only
    split
    case isTrue => exact Gutter.sound_rebuild _ store en.doc _
    case isFalse => exact sound
  | some e =>
    rw [hchange] at made
    have formed := (built e (Option.eq_some_of_filter_eq_some hchange)).wellFormed
    have fits := (Document.apply_eq_ok_iff.mp made).1
    dsimp only
    split
    case isTrue => exact Gutter.sound_rebuild (en.gutter.carry e en.doc doc).1 store doc _
    case isFalse => exact sound.carry formed fits doc

/-- An operation keeps the gutter sound for the document. -/
theorem gutter_sound_of_perform {cursor : Extent} {op : Operation} {reply : Reply Answer}
    (sound : en.gutter.Sound en.doc.text) (built : ∀ e, op.edit? = some e → e.Built)
    (h : en.perform cursor op = .ok reply) :
    reply.engine.gutter.Sound reply.engine.doc.text := by
  cases outcome en cursor op with
  | dispatched t now carries is =>
    rw [is] at h
    obtain ⟨⟨next, answer⟩, hdispatch, rfl⟩ := exists_of_map_eq_ok h
    rcases dispatch_cases hdispatch with ⟨rfl, -⟩ | ⟨doc, store, update, hedited, -, -, rfl⟩
    · exact sound
    · rw [Operation.edit?, carries] at built
      exact sound_commitGutter sound built hedited (en.moved t doc now) rfl rfl store
  | acted bare stays acts =>
    rw [h] at acts
    rcases acts.engine_cases with hsame | ⟨key, effect, store, -, -, hnext⟩
    · rw [hsame]
      exact sound
    · have bare : ∀ e, (⟨none, [effect]⟩ : Transaction).edit = some e → e.Built := nofun
      rw [hnext]
      exact sound_commitGutter sound bare rfl { en with nextKey := key } rfl rfl store
  | detached left answer is =>
    obtain rfl := Except.ok.inj (is.symm.trans h)
    exact sound.of_keeps (Gutter.keeps_cancel _)
  | waited bare stays debounce gutter hover options answer continues keeps rests is =>
    obtain rfl := Except.ok.inj (is.symm.trans h)
    exact sound.of_keeps keeps

/-- A run keeps the gutter sound for the document. -/
theorem Run.gutter_sound {start : Engine} {events : List Event} (ran : Run start events en)
    (sound : start.gutter.Sound start.doc.text)
    (built : ∀ ev ∈ events, ∀ e, ev.operation.edit? = some e → e.Built) :
    en.gutter.Sound en.doc.text := by
  induction ran with
  | nil => exact sound
  | step earlier performed ih =>
    have hearlier := ih fun ev hev => built ev (List.mem_append_left _ hev)
    have hlast := built _ (List.mem_append_right _ List.mem_cons_self)
    exact gutter_sound_of_perform hearlier hlast performed

/-- After every operation of a run from the start the markers stand at starts of lines of the
document, in the order of the lines and at most one on each. Every marker has reports and shows the
worst of their severities. While a pop-up is open there is a marker on its line. -/
theorem gutter_marks_lines_once {doc : Document} {options : Options} {now : Nat}
    {events : List Event} (ran : Run (attach doc options now) events en)
    (built : ∀ ev ∈ events, ∀ e, ev.operation.edit? = some e → e.Built) :
    (en.gutter.markers.Pairwise fun a b => a.lineStart < b.lineStart) ∧
      (∀ m ∈ en.gutter.markers, (∃ line ∈ en.doc.text.lines, line.start = m.lineStart) ∧
        m.reports ≠ [] ∧ (∃ r ∈ m.reports, r.severity = m.severity) ∧
        ∀ r ∈ m.reports, r.severity ≤ m.severity) ∧
      ∀ p, en.gutter.popup = some p → ∃ m ∈ en.gutter.markers, m.lineStart = p.lineStart := by
  have sound := ran.gutter_sound (Gutter.sound_empty doc.text) built
  refine ⟨sound.ascends, fun m hm => ?_, sound.anchored⟩
  obtain ⟨placed, worst⟩ := sound.markers m hm
  obtain ⟨r, hr, hseverity⟩ := worst.found
  exact ⟨placed, List.ne_nil_of_mem hr, ⟨r, hr, hseverity⟩, worst.bounds⟩

/-- Three lines have markers, the pop-up of the last one opens, and then an edit takes away the
text between a carriage return and a line feed, which joins the first two lines. -/
private theorem exists_gutter_after_joining :
    let doc : Document := .ofText "main" ['a', '\r', 'x', '\n', 'b', '\n', 'c']
    let hint : Report := ⟨⟨⟨"main", ⟨0, 1⟩⟩, .hint, "hint", none, [], none⟩, .host 0⟩
    let wrong : Report := ⟨.error ⟨"main", ⟨2, 3⟩⟩ "wrong", .host 1⟩
    let last : Report := ⟨.error ⟨"main", ⟨6, 7⟩⟩ "last", .host 2⟩
    let e : Edit := ⟨7, 6, [⟨7, [⟨⟨2, 3⟩, []⟩]⟩]⟩
    ∃ filled pointed opened made,
      (attach doc .standard 0).perform ⟨0, 0⟩ (.setReports [hint, wrong, last] 0) = .ok filled ∧
      filled.engine.perform ⟨0, 0⟩ (.gutterOver 6 0) = .ok pointed ∧
      pointed.engine.perform ⟨0, 0⟩ (.gutterPoll 300) = .ok opened ∧
      opened.engine.perform ⟨0, 0⟩ (.edit e 400) = .ok made ∧
      made.engine.doc.text = ['a', '\r', '\n', 'b', '\n', 'c'] ∧
      made.engine.gutter =
        ⟨[⟨0, .error, [hint, wrong], none⟩, ⟨5, .error, [last], none⟩], some ⟨5, [last]⟩⟩ :=
  ⟨_, _, _, _, rfl, rfl, rfl, rfl, rfl, rfl⟩

/-- The markers of the joined lines have become one, and the pop-up has moved with its marker. -/
theorem gutter_marks_lines_once_after_joining :
    let doc : Document := .ofText "main" ['a', '\r', 'x', '\n', 'b', '\n', 'c']
    let hint : Report := ⟨⟨⟨"main", ⟨0, 1⟩⟩, .hint, "hint", none, [], none⟩, .host 0⟩
    let wrong : Report := ⟨.error ⟨"main", ⟨2, 3⟩⟩ "wrong", .host 1⟩
    let last : Report := ⟨.error ⟨"main", ⟨6, 7⟩⟩ "last", .host 2⟩
    let e : Edit := ⟨7, 6, [⟨7, [⟨⟨2, 3⟩, []⟩]⟩]⟩
    ∃ events en, events.map (·.operation) =
        [.setReports [hint, wrong, last] 0, .gutterOver 6 0, .gutterPoll 300, .edit e 400] ∧
      Run (attach doc .standard 0) events en ∧
      (∀ ev ∈ events, ∀ e, ev.operation.edit? = some e → e.Built) ∧
      en.gutter.popup = some ⟨5, [last]⟩ ∧ ∃ m ∈ en.gutter.markers, m.lineStart = 5 := by
  intro doc hint wrong last e
  obtain ⟨filled, pointed, opened, made, hfilled, hover, hopened, hmade, -, hgutter⟩ :=
    exists_gutter_after_joining
  have ran := (((Run.nil.step hfilled).step hover).step hopened).step hmade
  have hbuilt : e.Built := by
    have made : Edit.ofSplices 7 [⟨⟨2, 3⟩, []⟩] = .ok e := rfl
    exact .ofSplices made
  let ops : List Operation :=
    [.setReports [hint, wrong, last] 0, .gutterOver 6 0, .gutterPoll 300, .edit e 400]
  have built : ∀ op ∈ ops, ∀ e, op.edit? = some e → e.Built := by
    intro op hop e hedit
    simp only [ops, List.mem_cons, List.not_mem_nil, or_false] at hop
    rcases hop with rfl | rfl | rfl | rfl
    · simp [Operation.edit?, Operation.transaction?] at hedit
    · simp [Operation.edit?, Operation.transaction?] at hedit
    · simp [Operation.edit?, Operation.transaction?] at hedit
    · obtain rfl := Option.some.inj hedit
      exact hbuilt
  have hpopup : made.engine.gutter.popup = some ⟨5, [last]⟩ := by rw [hgutter]
  refine ⟨_, _, rfl, ran, ?_, hpopup, (gutter_marks_lines_once ran ?_).2.2 _ hpopup⟩
  · exact fun ev hev => built ev.operation (List.mem_map_of_mem hev)
  · exact fun ev hev => built ev.operation (List.mem_map_of_mem hev)

end Marginalia.Engine
