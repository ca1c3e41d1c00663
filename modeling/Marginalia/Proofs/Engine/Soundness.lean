import Marginalia.Proofs.Document
import Marginalia.Proofs.Engine.Run

/-!
# Runs do not fault

The check of the store passes after every operation of a run, whatever the operations are and in
whatever order they come, as long as the transactions of the host select only what they find. The
invariant is that the store is sound for the current document. An edit that the document refuses
leaves both alone; one that it takes moves both to the same length.
-/

namespace Marginalia.Engine

variable {en : Engine} {t : Transaction}

/-- A transaction that a host can come with: the edit is made by the constructors of edits, as
all are, and each selection is of an annotation of the store that the effect finds. -/
structure Admits (en : Engine) (t : Transaction) : Prop where
  built : ∀ e, t.edit = some e → e.Built
  offered : ∀ doc, en.edited t = .ok doc → (en.store.edited t).OffersEach doc t.effects

/-- An operation that a host can come with, which only restricts transactions. -/
def Allows (en : Engine) (op : Operation) : Prop := ∀ t, op.transaction? = some t → en.Admits t

/-- A commit goes through and leaves a sound store if its effects do. -/
theorem exists_commit_of_sound (en : Engine) (before : Document)
    (h : (t.effects.foldl (Store.perform en.doc) (en.store.edited t)).Sound en.doc.length) :
    ∃ r, en.commit t before = .ok r ∧ r.1.store.Sound r.1.doc.length := by
  have hsound := Store.sound_advance h
  have hupdate := Store.update_eq_ok_iff.mpr ⟨hsound.valid, rfl⟩
  obtain ⟨update, hcommit⟩ := exists_commit before hupdate
  exact ⟨_, hcommit, hsound⟩

/-- Committing an effect that a sound store offers keeps it sound. -/
theorem exists_commitEffects (en : Engine) (sound : en.store.Sound en.doc.length)
    {effect : Effect} (offered : en.store.Offers effect) :
    ∃ r, en.commitEffects [effect] = .ok r ∧ r.1.store.Sound r.1.doc.length :=
  exists_commit_of_sound en en.doc (sound.perform offered)

/-- A transaction that is taken leaves the document and the store alone until its effects, or moves
both through an edit for the length of the document. -/
theorem edited_cases {doc : Document} (built : ∀ e, t.edit = some e → e.Built)
    (made : en.edited t = .ok doc) :
    (doc = en.doc ∧ en.store.edited t = en.store) ∨
    ∃ e : Edit, e.WellFormed ∧ en.doc.length = e.lengthBefore ∧ doc.length = e.lengthAfter ∧
      en.store.edited t = en.store.carry e := by
  unfold edited at made
  unfold Store.edited
  cases hchange : t.change with
  | none =>
    rw [hchange] at made
    exact Or.inl ⟨(Except.ok.inj made).symm, rfl⟩
  | some e =>
    rw [hchange] at made
    have formed := (built e (Transaction.change_eq_some_iff.mp hchange).1).wellFormed
    exact Or.inr ⟨e, formed, (Document.apply_eq_ok_iff.mp made).1,
      Document.length_of_apply formed made, rfl⟩

/-- The edit of a transaction moves the store along with the document. -/
theorem sound_edited {doc : Document} (sound : en.store.Sound en.doc.length)
    (built : ∀ e, t.edit = some e → e.Built) (made : en.edited t = .ok doc) :
    (en.store.edited t).Sound doc.length := by
  rcases edited_cases built made with ⟨rfl, hstore⟩ | ⟨e, formed, hbefore, hafter, hstore⟩
  · rw [hstore]
    exact sound
  · rw [hstore, hafter]
    exact Store.sound_carry formed (hbefore ▸ sound.valid.inside)

/-- Dispatching an admitted transaction keeps the store sound, also when the edit is refused. -/
theorem exists_dispatch (sound : en.store.Sound en.doc.length) (admitted : en.Admits t)
    (now : Nat) : ∃ r, en.dispatch t now = .ok r ∧ r.1.store.Sound r.1.doc.length := by
  rw [dispatch_eq]
  cases hedited : en.edited t with
  | error error => exact ⟨_, rfl, sound⟩
  | ok doc =>
    have hperformed :=
      (sound_edited sound admitted.built hedited).foldl_perform (admitted.offered doc hedited)
    obtain ⟨r, hr, hsound⟩ := exists_commit_of_sound (en.moved t doc now) en.doc hperformed
    exact ⟨_, congrArg (Except.map _) hr, hsound⟩

/-- What acts goes through and keeps the store sound. -/
theorem Acts.exists_sound {α : Type} {result : Except Fault (Reply α)} (h : en.Acts result)
    (sound : en.store.Sound en.doc.length) :
    ∃ r, result = .ok r ∧ r.engine.store.Sound r.engine.doc.length := by
  rcases h with ⟨r, rfl, rfl⟩ | ⟨key, effect, offered, heq⟩
  · exact ⟨r, rfl, sound⟩
  · obtain ⟨committed, hcommit, hsound⟩ :=
      exists_commitEffects { en with nextKey := key } sound offered
    rw [hcommit] at heq
    cases result with
    | error fault => exact absurd heq nofun
    | ok r =>
      have hengine : r.engine = committed.1 := Except.ok.inj heq
      rw [← hengine] at hsound
      exact ⟨r, rfl, hsound⟩

/-- An allowed operation on a sound engine goes through and leaves it sound. -/
theorem exists_perform (sound : en.store.Sound en.doc.length) (cursor : Extent) {op : Operation}
    (allowed : en.Allows op) :
    ∃ reply, en.perform cursor op = .ok reply ∧
      reply.engine.store.Sound reply.engine.doc.length := by
  cases outcome en cursor op with
  | dispatched t now carries is =>
    obtain ⟨r, hr, hsound⟩ := exists_dispatch sound (allowed t carries) now
    rw [is, hr]
    exact ⟨_, rfl, hsound⟩
  | acted bare stays acts => exact acts.exists_sound sound
  | detached left answer is => exact ⟨_, is, sound⟩
  | waited bare stays debounce gutter hover options answer continues keeps rests is =>
    exact ⟨_, is, sound⟩

/-- A run of allowed operations goes on with an allowed one. -/
theorem forall_allows_append {events : List Event} {op : Operation}
    (h : ∀ ev ∈ events, ev.before.Allows ev.operation) (allowed : en.Allows op)
    (cursor : Extent) (reply : Reply Answer) :
    ∀ ev ∈ events ++ [⟨en, cursor, op, reply⟩], ev.before.Allows ev.operation :=
  List.forall_mem_append.mpr ⟨h, List.forall_mem_singleton.mpr allowed⟩

/-- Allowed operations keep a sound engine sound. -/
theorem Run.sound {start : Engine} {events : List Event} (ran : Run start events en)
    (sound : start.store.Sound start.doc.length)
    (allowed : ∀ ev ∈ events, ev.before.Allows ev.operation) :
    en.store.Sound en.doc.length := by
  induction ran with
  | nil => exact sound
  | @step events en cursor op reply earlier performed ih =>
    have hearlier := ih fun ev hev => allowed ev (List.mem_append_left _ hev)
    have hlast : en.Allows op := allowed _ (List.mem_append_right _ List.mem_cons_self)
    obtain ⟨reply', hreply, hsound⟩ := exists_perform hearlier cursor hlast
    obtain rfl := Except.ok.inj (performed.symm.trans hreply)
    exact hsound

/-- Throughout a run from the start, of operations that a host can come with, the store is sound
for the document and passes the check, and every such operation that may follow goes through. -/
theorem run_never_faults {doc : Document} {options : Options} {now : Nat} {events : List Event}
    (ran : Run (attach doc options now) events en)
    (allowed : ∀ ev ∈ events, ev.before.Allows ev.operation) :
    en.store.Sound en.doc.length ∧ en.store.fault? en.doc.length = none ∧
      ∀ cursor op, en.Allows op → ∃ reply, en.perform cursor op = .ok reply ∧
        Run (attach doc options now) (events ++ [⟨en, cursor, op, reply⟩]) reply.engine ∧
        reply.engine.store.Sound reply.engine.doc.length := by
  have hsound := ran.sound (Store.sound_empty doc.length) allowed
  refine ⟨hsound, Store.fault?_eq_none_iff.mpr hsound.valid, ?_⟩
  intro cursor op hop
  obtain ⟨reply, hreply, hnext⟩ := exists_perform hsound cursor hop
  exact ⟨reply, hreply, .step ran hreply, hnext⟩

/-- A run in which the host replaces the reports, selects the second one and then edits. -/
theorem run_never_faults_select_edit :
    let doc : Document := .ofText "main" ['a', 'b', 'c', 'd']
    let first : Report := ⟨.error ⟨"main", ⟨0, 1⟩⟩ "first", .host 0⟩
    let second : Report := ⟨.error ⟨"main", ⟨2, 4⟩⟩ "second", .host 1⟩
    let select : Transaction :=
      ⟨none, [.setReports [first, second] .first, .select ⟨⟨2, 4⟩, second⟩]⟩
    let e : Edit := ⟨4, 3, [⟨4, [⟨⟨0, 2⟩, ['x']⟩]⟩]⟩
    ∃ events en, events.map (·.operation) = [.dispatch select 0, .edit e 1] ∧
      Run (attach doc .standard 0) events en ∧
      (∀ ev ∈ events, ev.before.Allows ev.operation) ∧ en.store.Sound en.doc.length := by
  intro doc first second select e
  have hsecond : Store.Among ((attach doc .standard 0).store.perform doc
      (.setReports [first, second] .first)).annotations ⟨⟨2, 4⟩, second⟩ :=
    ⟨⟨⟨2, 4⟩, .mark, second⟩, by decide, rfl⟩
  have hselect : (attach doc .standard 0).Allows (.dispatch select 0) := by
    intro t ht
    obtain rfl := Option.some.inj ht
    refine ⟨nofun, fun after hafter => ?_⟩
    obtain rfl := Except.ok.inj hafter
    exact ⟨trivial, hsecond, trivial⟩
  have hedit (en : Engine) : en.Allows (.edit e 1) := by
    intro t ht
    obtain rfl := Option.some.inj ht
    refine ⟨fun made hmade => ?_, fun _ _ => trivial⟩
    obtain rfl := Option.some.inj hmade
    have made : Edit.ofSplices 4 [⟨⟨0, 2⟩, ['x']⟩] = .ok e := rfl
    exact .ofSplices made
  have allowed : ∀ ev ∈ ([] : List Event), ev.before.Allows ev.operation :=
    fun _ h => absurd h List.not_mem_nil
  have begun : Run (attach doc .standard 0) [] (attach doc .standard 0) := .nil
  obtain ⟨selected, -, ran, -⟩ := (run_never_faults begun allowed).2.2 ⟨0, 0⟩ _ hselect
  have allowed := forall_allows_append allowed hselect ⟨0, 0⟩ selected
  have hlast := hedit selected.engine
  obtain ⟨reply, -, ran, hsound⟩ := (run_never_faults ran allowed).2.2 ⟨0, 0⟩ _ hlast
  exact ⟨_, _, rfl, ran, forall_allows_append allowed hlast _ _, hsound⟩

end Marginalia.Engine
