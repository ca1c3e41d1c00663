import Marginalia.Proofs.Engine.Navigation
import Marginalia.Proofs.Engine.Soundness
import Marginalia.Proofs.Store.Selection
import Marginalia.Proofs.View.PanelKeys

/-!
# Moving in the panel

A key or a click in the panel comes to an index of the list. The report that is listed there is
looked up in the store, which has it, since the panel shows the store; the engine moves to its
annotation, and the panel, brought in line with the store, has the report selected. So the index
comes back as the selected one, where no report is listed twice, and keys walk along the list as
they are told to. A panel without a selected item takes no clicks.
-/

namespace Marginalia.Engine

open Store (selectionOf)
open Panel (Trail Key Made)

variable {en start last : Engine} {events : List Event} {p final : Panel} {a : Annotation}
  {i j index : Nat} {keys : List Key} {indices : List Nat}

/-- Throughout a run all annotations of one report are alike, if they were at first. -/
theorem Run.onePlace (ran : Run start events en) (alike : start.store.OnePlace) :
    en.store.OnePlace := by
  induction ran with
  | nil => exact alike
  | step earlier performed ih =>
    rcases commits_of_perform performed with
      ⟨hstore, -, -⟩ | ⟨found, t, before, store, hfound, -, hstore, hnext⟩
    · rw [hstore]
      exact ih
    · rw [hnext]
      rw [← hfound] at ih
      exact ih.update hstore

/-- The engine has a panel that shows its store. -/
structure Displays (en : Engine) (p : Panel) : Prop where
  settled : en.Settled
  alike : en.store.OnePlace
  shown : en.panel = some p
  shows : p.Shows en.store

/-- Runs lead to engines whose panels show their stores. -/
theorem Run.displays {doc : Document} {options : Options} {begun : Nat}
    (ran : Run (attach doc options begun) events en) (shown : en.panel = some p) :
    en.Displays p where
  settled := ran.settled
  alike := ran.onePlace fun _ ha => absurd ha List.not_mem_nil
  shown := shown
  shows := (ran.panelFollows (panelFollows_attach doc options begun)).shows p shown

/-- The reply selects the item of the panel at an index: it moves to the annotation of the report
that is listed there, which has no other one. The panel lists the same reports then, and has the
first item of that report selected. -/
structure Picks (en : Engine) (p : Panel) (index : Nat) (a : Annotation) (reply : Reply Bool)
    (next : Panel) : Prop where
  listed : (p.items.map (·.report))[index]? = some a.report
  current : ∀ b ∈ en.store.annotations, b.report = a.report → b = a
  moves : en.MovesTo a reply
  shown : reply.engine.panel = some next
  lists : next.items.map (·.report) = p.items.map (·.report)
  marked : next.selectedIndex = next.items.findIdx? (·.report == a.report)

/-- Keys that are pressed one after another, and the items that are selected after each. -/
inductive Walks : Engine → Panel → List Key → List Nat → Engine → Panel → Prop where
  | nil {en : Engine} {p : Panel} : Walks en p [] [] en p
  | step {en last : Engine} {p next final : Panel} {key : Key} {keys : List Key} {index : Nat}
      {indices : List Nat} {a : Annotation} {reply : Reply Bool}
      (pressed : en.panelKey key = .ok reply) (picks : en.Picks p index a reply next)
      (selected : next.selectedIndex = some index)
      (rest : Walks reply.engine next keys indices last final) :
      Walks en p (key :: keys) (index :: indices) last final

/-- The panel of an engine goes on showing the store after a move. -/
theorem Displays.selecting (displays : en.Displays p) (ha : a ∈ en.store.annotations) :
    ∃ next, (en.selecting (selectionOf a)).Displays next := by
  have hpanel : (en.selecting (selectionOf a)).panel =
      some (p.sync (en.selecting (selectionOf a)).store).1 := by
    rw [Engine.selecting, displays.shown]
    rfl
  exact ⟨_, displays.settled.selecting ha, displays.alike, hpanel, Panel.shows_sync p _⟩

/-- Selecting an item goes through while some item is selected. -/
theorem exists_panelSelect (displays : en.Displays p) (marked : p.selectedIndex.isSome)
    (inside : index < p.items.length) : ∃ a reply next, en.panelSelect index = .ok reply ∧
      en.Picks p index a reply next ∧ reply.engine.Displays next := by
  have hitem : p.items[index]? = some p.items[index] := List.getElem?_eq_getElem inside
  have hlisted : p.items[index].report ∈ en.store.reports := by
    rw [← displays.shows.lists]
    exact List.mem_map_of_mem (List.getElem_mem inside)
  obtain ⟨a, ha, hreport, hfound⟩ := Store.exists_firstFrom_of_mem hlisted
  have htarget : en.panelTarget index = some (selectionOf a) := by
    obtain ⟨i, hi⟩ := Option.isSome_iff_exists.mp marked
    rw [panelTarget, displays.shown, Option.bind_eq_bind, Option.bind_some, hi,
      Option.bind_eq_bind, Option.bind_some, hitem]
    exact hfound
  obtain ⟨reply, moved, arrived, hnext⟩ := exists_moveTo displays.settled ha
  obtain ⟨next, hdisplays⟩ := displays.selecting ha
  rw [← hnext] at hdisplays
  have hselect : en.panelSelect index = .ok reply := by rw [panelSelect, htarget, moved]
  refine ⟨a, reply, next, hselect, ⟨?_, fun b hb heq => ?_, arrived, hdisplays.shown, ?_, ?_⟩,
    hdisplays⟩
  · rw [List.getElem?_map, hitem, Option.map_some, hreport]
  · exact displays.alike b hb a ha heq
  · rw [hdisplays.shows.lists, displays.shows.lists, Store.reports, arrived.annotations]
    rfl
  · rw [hdisplays.shows.chosen, arrived.selected]
    rfl

/-- Where no report is listed twice, the item that a reply selects is the one at the index. -/
theorem Picks.selectedIndex {reply : Reply Bool} {next : Panel}
    (picks : en.Picks p index a reply next) (different : (p.items.map (·.report)).Nodup) :
    next.selectedIndex = some index := by
  obtain ⟨hindex, hreport⟩ := List.getElem?_eq_some_iff.mp picks.listed
  have hfirst : (p.items.map (·.report)).findIdx? (· == a.report) = some index := by
    rw [List.findIdx?_eq_some_iff_getElem]
    refine ⟨hindex, beq_of_eq hreport, fun k hk => ?_⟩
    rw [beq_iff_eq, ← hreport, different.getElem_inj_iff]
    exact Nat.ne_of_lt hk
  rw [picks.marked, ← hfirst, ← picks.lists, List.findIdx?_map]
  rfl

/-- A key that moves along the list selects the item that it leads to. -/
theorem exists_panelKey (displays : en.Displays p) (marked : p.selectedIndex = some i) {key : Key}
    {target : Int} (leads : key.along? p.items.length i = some target) :
    ∃ (j : Nat) (a : Annotation) (reply : Reply Bool) (next : Panel), target = j ∧
      en.panelKey key = .ok reply ∧ en.Picks p j a reply next ∧ reply.engine.Displays next := by
  obtain ⟨j, htarget, inside, hrequest⟩ := Panel.exists_request?_of_along? marked leads
  have hmarked : p.selectedIndex.isSome := Option.isSome_of_eq_some marked
  obtain ⟨a, reply, next, hselect, picks, hdisplays⟩ :=
    exists_panelSelect displays hmarked inside
  refine ⟨j, a, reply, next, htarget, ?_, picks, hdisplays⟩
  rw [panelKey, displays.shown, Option.bind_some, hrequest]
  change (en.panelSelect j).map (fun r => { r with answer := true }) = .ok reply
  rw [hselect, ← picks.moves.answered]
  rfl

/-- Keys that move along the list of different reports walk from item to item. -/
theorem exists_walks (displays : en.Displays p) (different : (p.items.map (·.report)).Nodup)
    (marked : p.selectedIndex = some i) (trail : Trail p.items.length i keys indices) :
    ∃ last final, Walks en p keys indices last final := by
  generalize hcount : p.items.length = count at trail
  induction trail generalizing en p with
  | nil => exact ⟨en, p, .nil⟩
  | @cons i j key keys indices leads rest ih =>
    rw [← hcount] at leads
    obtain ⟨j', a, reply, next, htarget, pressed, picks, hdisplays⟩ :=
      exists_panelKey displays marked leads
    obtain rfl := Int.ofNat.inj htarget
    have selected := picks.selectedIndex different
    -- the next panel lists the same reports, so the trail goes on along a list of that length
    rw [← picks.lists] at different
    have hlength : next.items.length = count := by
      rw [← hcount, ← List.length_map (·.report), picks.lists, List.length_map]
    obtain ⟨last, final, walks⟩ := ih hdisplays different selected hlength
    exact ⟨last, final, .step pressed picks selected walks⟩

/-- After a walk the item at its last index is selected, and so is the annotation of its report. -/
theorem Walks.arrives (walks : Walks en p keys indices last final)
    (h : indices.getLast? = some j) : final.selectedIndex = some j ∧
      ∃ a ∈ en.store.annotations, (p.items.map (·.report))[j]? = some a.report ∧
        last.store.selected = some (selectionOf a) := by
  induction walks with
  | nil => contradiction
  | @step en last p next final key keys index indices a reply pressed picks selected rest ih =>
    cases rest with
    | nil =>
      obtain rfl := Option.some.inj h
      exact ⟨selected, a, picks.moves.held, picks.listed, picks.moves.selected⟩
    | step =>
      rw [List.getLast?_cons_cons] at h
      rw [← picks.moves.annotations, ← picks.lists]
      exact ih h

/-- The report that a panel has selected is listed at the selected index. -/
theorem Displays.getElem?_of_selectedIndex (displays : en.Displays p)
    (marked : p.selectedIndex = some i) : ∃ selection, en.store.selected = some selection ∧
      (p.items.map (·.report))[i]? = some selection.report := by
  obtain ⟨selection, hselected, hindex⟩ :=
    Option.bind_eq_some_iff.mp (displays.shows.chosen.symm.trans marked)
  obtain ⟨hi, hreport, -⟩ := List.findIdx?_eq_some_iff_getElem.mp hindex
  refine ⟨selection, hselected, ?_⟩
  rw [List.getElem?_map, List.getElem?_eq_getElem hi, Option.map_some, eq_of_beq hreport]

/-- A key down and a key up after it lead back to the selected report. What the store has selected
then is what it had selected before, unless that was not the place of an annotation. -/
theorem exists_walks_down_up (displays : en.Displays p)
    (different : (p.items.map (·.report)).Nodup) (marked : p.selectedIndex = some i) {down up : Key}
    (hdown : down.IsDown) (hup : up.IsUp) :
    ∃ last final, Walks en p [down, up] [(i + 1) % p.items.length, i] last final ∧
      last.store.selected.map (·.report) = en.store.selected.map (·.report) ∧
      (last.store.selected = en.store.selected ↔ en.store.Chosen) := by
  have trail := Panel.trail_down_up hdown hup (Panel.lt_of_selectedIndex marked)
  obtain ⟨last, final, walks⟩ := exists_walks displays different marked trail
  obtain ⟨-, a, ha, hlisted, hlast⟩ := walks.arrives rfl
  obtain ⟨selection, hselected, hfirst⟩ := displays.getElem?_of_selectedIndex marked
  have hreport : a.report = selection.report := Option.some.inj (hlisted.symm.trans hfirst)
  refine ⟨last, final, walks, ?_, fun hsame => ?_, fun chosen => ?_⟩
  · rw [hlast, hselected, Option.map_some, Option.map_some, ← hreport]
    rfl
  · intro other hother
    rw [← hsame, hlast] at hother
    exact ⟨a, ha, Option.some.inj hother⟩
  · obtain ⟨b, hb, rfl⟩ := chosen selection hselected
    rw [hlast, hselected, displays.alike a ha b hb hreport]

/-- In every engine that a run leads to, with a panel that lists different reports and has the one
at `i` selected: each key that moves along the list selects the item that it leads to, on the circle
of all items or at the ends, and moves to the annotation of its report. A key down and a key up
lead back to the selected report, and to what the store had selected if that was at the place of an
annotation, as it is after operations that a host can come with. As many keys down as there are
items lead to each of them once, in order. In every panel, open or not, nothing stops a key from
being worked out, and what it asks for is there. -/
theorem panel_keys_walk_round :
    (∀ {doc : Document} {options : Options} {begun : Nat} {events : List Event} {en : Engine}
      {p : Panel} {i : Nat}, Run (attach doc options begun) events en → en.panel = some p →
      (p.items.map (·.report)).Nodup → p.selectedIndex = some i →
      (∀ (key : Key) target, key.along? p.items.length i = some target →
        ∃ (j : Nat) (a : Annotation) (reply : Reply Bool) (next : Panel), target = j ∧
          en.panelKey key = .ok reply ∧ en.Picks p j a reply next ∧
          next.selectedIndex = some j) ∧
      (∀ down up : Key, down.IsDown → up.IsUp →
        ∃ last final, Walks en p [down, up] [(i + 1) % p.items.length, i] last final ∧
          last.store.selected.map (·.report) = en.store.selected.map (·.report) ∧
          (last.store.selected = en.store.selected ↔ en.store.Chosen)) ∧
      ((∀ ev ∈ events, ev.before.Allows ev.operation) → en.store.Chosen) ∧
      ∀ keys : List Key, (∀ key ∈ keys, key.IsDown) → keys.length = p.items.length →
        ∃ last final,
          Walks en p keys ((List.range p.items.length).rotate (i + 1)) last final) ∧
    (∀ (p : Panel) (key : Key), p.guardedRequest? key = some (p.request? key)) ∧
    ∀ p : Panel, Made p → ∀ (key : Key) request, p.request? key = some request →
      request.Names p := by
  refine ⟨?_, Panel.guardedRequest?_eq,
    fun p made key request => Panel.names_of_request? made.keyed⟩
  intro doc options begun events en p i ran shown different marked
  have displays := ran.displays shown
  refine ⟨fun key target leads => ?_, fun down up => exists_walks_down_up displays different marked,
    fun allowed => (ran.sound (Store.sound_empty doc.length) allowed).chosen,
    fun keys downs hcount => ?_⟩
  · obtain ⟨j, a, reply, next, htarget, pressed, picks, -⟩ := exists_panelKey displays marked leads
    exact ⟨j, a, reply, next, htarget, pressed, picks, picks.selectedIndex different⟩
  · have trail := Panel.trail_round downs i
    rw [hcount] at trail
    exact exists_walks displays different marked trail

/-- From the first of three reports, three keys down go round the list, and a key up goes to the
last report. -/
theorem panel_keys_walk_round_three_reports :
    let doc : Document := .ofText "main" ['a', 'b', 'c', 'd']
    let first : Report := ⟨.error ⟨"main", ⟨0, 1⟩⟩ "first", .host 0⟩
    let second : Report := ⟨.error ⟨"main", ⟨1, 1⟩⟩ "second", .host 1⟩
    let third : Report := ⟨.error ⟨"main", ⟨2, 4⟩⟩ "third", .host 2⟩
    let fill : Transaction := ⟨none, [.setReports [third, first, second] .first, .setPanel true]⟩
    ∃ events en p, events.map (·.operation) = [.dispatch fill 0] ∧
      Run (attach doc .standard 0) events en ∧ en.panel = some p ∧
      p.items.map (·.report) = [first, second, third] ∧ p.selectedIndex = some 0 ∧
      (∃ last final, Walks en p [.arrowDown, .pageDown, .arrowDown] [1, 2, 0] last final) ∧
      ∃ a reply next, en.panelKey .pageUp = .ok reply ∧ en.Picks p 2 a reply next := by
  intro doc first second third fill
  obtain ⟨filled, p, hfilled, hp, hreports, hindex⟩ : ∃ filled p,
      (attach doc .standard 0).perform ⟨0, 0⟩ (.dispatch fill 0) = .ok filled ∧
      filled.engine.panel = some p ∧ p.items.map (·.report) = [first, second, third] ∧
      p.selectedIndex = some 0 :=
    ⟨_, _, rfl, rfl, by decide +kernel, by decide +kernel⟩
  have ran := Run.nil.step hfilled
  have different : (p.items.map (·.report)).Nodup := by
    rw [hreports]
    decide
  have hlength : p.items.length = 3 := by rw [← List.length_map (·.report), hreports]; rfl
  obtain ⟨along, -, -, round⟩ := panel_keys_walk_round.1 ran hp different hindex
  rw [hlength] at along round
  obtain ⟨j, a, reply, next, htarget, pressed, picks, -⟩ := along .pageUp 2 rfl
  obtain rfl := Int.ofNat.inj htarget
  refine ⟨_, _, p, rfl, ran, hp, hreports, hindex, ?_, a, reply, next, pressed, picks⟩
  exact round [.arrowDown, .pageDown, .arrowDown] (by simp [Key.IsDown]) rfl

/-- A panel without a selected item takes no clicks. -/
theorem panelClick_of_unmarked (shown : en.panel = some p) (unmarked : p.selectedIndex = none)
    (index : Nat) : en.panelClick index = .ok ⟨en, false, []⟩ := by
  rw [panelClick, panelSelect, panelTarget, shown, Option.bind_eq_bind, Option.bind_some, unmarked]
  rfl

/-- In every engine that a run leads to, with a panel: something is selected in the panel exactly if
the store has a report selected. Then a click on any item selects it: the answer is true, the store
has the report of the item selected at its current place, and the editor is told to select that.
While nothing is selected a click on an item answers false, and changes nothing. -/
theorem panel_click_selects {doc : Document} {options : Options} {begun : Nat}
    (ran : Run (attach doc options begun) events en) (shown : en.panel = some p)
    (inside : index < p.items.length) :
    p.selectedIndex.isSome = en.store.selected.isSome ∧
    (p.selectedIndex.isSome → ∃ a reply next, en.panelClick index = .ok reply ∧
      en.Picks p index a reply next) ∧
    (p.selectedIndex = none → en.panelClick index = .ok ⟨en, false, []⟩) := by
  have displays := ran.displays shown
  refine ⟨displays.shows.isSome_selectedIndex displays.settled.valid.held, fun marked => ?_,
    fun unmarked => panelClick_of_unmarked shown unmarked index⟩
  obtain ⟨a, reply, next, hselect, picks, -⟩ := exists_panelSelect displays marked inside
  exact ⟨a, reply, next, hselect, picks⟩

/-- A click on the last of three items, of which the first two list one report twice. -/
theorem panel_click_selects_last :
    let doc : Document := .ofText "main" ['a', 'b', 'c', 'd']
    let twice : Report := ⟨.error ⟨"main", ⟨0, 1⟩⟩ "twice", .host 0⟩
    let last : Report := ⟨.error ⟨"main", ⟨2, 4⟩⟩ "last", .host 1⟩
    let fill : Transaction := ⟨none, [.setReports [twice, last, twice] .first, .setPanel true]⟩
    ∃ events en p, events.map (·.operation) = [.dispatch fill 0] ∧
      Run (attach doc .standard 0) events en ∧ en.panel = some p ∧ 2 < p.items.length ∧
      p.selectedIndex.isSome ∧
      ∃ a reply next, en.panelClick 2 = .ok reply ∧ en.Picks p 2 a reply next := by
  intro doc twice last fill
  obtain ⟨filled, p, hfilled, hp, hlength, hmarked⟩ : ∃ filled p,
      (attach doc .standard 0).perform ⟨0, 0⟩ (.dispatch fill 0) = .ok filled ∧
      filled.engine.panel = some p ∧ p.items.length = 3 ∧ p.selectedIndex.isSome :=
    ⟨_, _, rfl, rfl, by decide +kernel, by decide +kernel⟩
  have ran := Run.nil.step hfilled
  have inside : 2 < p.items.length := by rw [hlength]; decide
  have clicked := (panel_click_selects ran hp inside).2.1 hmarked
  exact ⟨_, _, p, rfl, ran, hp, inside, hmarked, clicked⟩

/-- When the text of the selected report is deleted and no report starts behind it, the report that
is still listed cannot be clicked: the answer is false and nothing is selected. -/
theorem panel_click_refused_after_deletion :
    let doc : Document := .ofText "main" ['a', 'b', 'c', 'd']
    let first : Report := ⟨.error ⟨"main", ⟨0, 1⟩⟩ "first", .host 0⟩
    let last : Report := ⟨.error ⟨"main", ⟨2, 4⟩⟩ "last", .host 1⟩
    let fill : Transaction :=
      ⟨none, [.setReports [first, last] .first, .setPanel true, .select ⟨⟨2, 4⟩, last⟩]⟩
    let e : Edit := ⟨4, 2, [⟨4, [⟨⟨2, 4⟩, []⟩]⟩]⟩
    ∃ events en p, events.map (·.operation) = [.dispatch fill 0, .edit e 1] ∧
      Run (attach doc .standard 0) events en ∧ en.panel = some p ∧
      p.items.map (·.report) = [first] ∧ en.panelClick 0 = .ok ⟨en, false, []⟩ := by
  intro doc first last fill e
  obtain ⟨filled, made, p, hfilled, hmade, hp, hreports, unmarked⟩ : ∃ filled made p,
      (attach doc .standard 0).perform ⟨0, 0⟩ (.dispatch fill 0) = .ok filled ∧
      filled.engine.perform ⟨0, 0⟩ (.edit e 1) = .ok made ∧ made.engine.panel = some p ∧
      p.items.map (·.report) = [first] ∧ p.selectedIndex = none :=
    ⟨_, _, _, rfl, rfl, rfl, by decide +kernel, by decide +kernel⟩
  have ran := (Run.nil.step hfilled).step hmade
  exact ⟨_, _, p, rfl, ran, hp, hreports, panelClick_of_unmarked hp unmarked 0⟩

end Marginalia.Engine
