import Marginalia.Proofs.Edit.InPlace
import Marginalia.Proofs.Engine.Freshness
import Marginalia.Proofs.Store.Check

/-!
# Transactions are taken whole or not at all

An engine compares the length of the document with the one that an edit was made for, and with that
everything is decided. An edit for another length is refused before anything has changed. One that
is taken is made to its last splice, and the document goes on to its next version. After that only
the effects can fail, and only by a selection of what the store does not hold. The store of every
engine that a run leads to passes its check, whatever the host has asked for.
-/

namespace Marginalia.Engine

variable {en start : Engine} {t : Transaction} {events : List Event}

/-- An operation leaves a store that passes the check of the document, if it was so before. -/
theorem valid_of_perform {cursor : Extent} {op : Operation} {reply : Reply Answer}
    (valid : en.store.Valid en.doc.length) (h : en.perform cursor op = .ok reply) :
    reply.engine.store.Valid reply.engine.doc.length := by
  rcases commits_of_perform h with
    ⟨hstore, hdoc, -⟩ | ⟨found, t, before, store, -, -, hstore, hnext⟩
  · rw [hstore, hdoc]
    exact valid
  · rw [hnext]
    exact Store.valid_of_update hstore

/-- Throughout a run the store passes the check of the document, if it did at first. -/
theorem Run.valid (ran : Run start events en) (valid : start.store.Valid start.doc.length) :
    en.store.Valid en.doc.length := by
  induction ran with
  | nil => exact valid
  | step earlier performed ih => exact valid_of_perform ih performed

/-- The transaction changes the text by `e`, and `e` was made for another length than that of the
document. -/
def Misfits (en : Engine) (t : Transaction) (e : Edit) : Prop :=
  t.edit = some e ∧ e.isEmpty = false ∧ e.lengthBefore ≠ en.doc.length

/-- Exactly the edits for another length are refused, with the two lengths. -/
theorem edited_eq_error_iff {error : Edit.Error} : en.edited t = .error error ↔
    ∃ e, en.Misfits t e ∧ error = .lengthMismatch e.lengthBefore en.doc.length := by
  rw [edited]
  cases hchange : t.change with
  | none =>
    simp only [reduceCtorEq, false_iff]
    rintro ⟨e, ⟨carries, changes, -⟩, -⟩
    rw [Transaction.change_eq_some carries changes] at hchange
    contradiction
  | some e =>
    obtain ⟨carries, changes⟩ := Transaction.change_eq_some_iff.mp hchange
    apply Document.apply_eq_error_iff.trans
    constructor
    · rintro ⟨hlength, rfl⟩
      exact ⟨e, ⟨carries, changes, hlength⟩, rfl⟩
    · rintro ⟨e', ⟨carries', -, hlength⟩, rfl⟩
      obtain rfl := Option.some.inj (carries.symm.trans carries')
      exact ⟨hlength, rfl⟩

/-- A dispatch answers with an error exactly if the edit is refused, and then the engine is the one
that it was. -/
theorem dispatch_eq_error_iff {now : Nat} {next : Engine} {error : Edit.Error} :
    en.dispatch t now = .ok (next, .error error) ↔ next = en ∧ en.edited t = .error error := by
  rw [dispatch_eq]
  cases hedited : en.edited t with
  | error refused =>
    dsimp only
    rw [Except.ok.injEq, Prod.mk.injEq, Except.error.injEq, Except.error.injEq, eq_comm]
  | ok doc =>
    refine iff_of_false (fun h => ?_) fun h => absurd h.2 nofun
    obtain ⟨r, -, hr⟩ := exists_of_map_eq_ok h
    exact absurd (Prod.mk.inj hr).2 nofun

/-- A dispatch that is answered leaves the document that the effects have found. -/
theorem doc_of_dispatch {doc : Document} {now : Nat} {next : Engine}
    {answer : Except Edit.Error ViewUpdate} (made : en.edited t = .ok doc)
    (h : en.dispatch t now = .ok (next, answer)) : next.doc = doc := by
  rcases dispatch_cases h with ⟨-, error, rfl⟩ | ⟨found, store, update, hfound, -, -, rfl⟩
  · have hrefused := (dispatch_eq_error_iff.mp h).2
    rw [made] at hrefused
    contradiction
  · exact Except.ok.inj (hfound.symm.trans made)

/-- A dispatch is without an answer only if the edit is taken and the effects come to a store that
does not pass the check. -/
theorem of_dispatch_eq_fault {now : Nat} {fault : Fault}
    (h : en.dispatch t now = .error fault) :
    ∃ doc, en.edited t = .ok doc ∧ en.store.update t doc = .error fault := by
  rw [dispatch_eq] at h
  cases hedited : en.edited t with
  | error refused =>
    rw [hedited] at h
    exact absurd h nofun
  | ok doc =>
    refine ⟨doc, rfl, ?_⟩
    rw [hedited] at h
    unfold commit at h
    cases hupdate : en.store.update t doc with
    | ok store => simp [hupdate, Except.map] at h
    | error found => simpa [hupdate, Except.map] using h

/-- The edit of a transaction moves a valid store along with the document. -/
theorem valid_edited {doc : Document} (valid : en.store.Valid en.doc.length)
    (built : ∀ e, t.edit = some e → e.Built) (made : en.edited t = .ok doc) :
    (en.store.edited t).Valid doc.length := by
  rcases edited_cases built made with ⟨rfl, hstore⟩ | ⟨e, formed, hbefore, hafter, hstore⟩
  · rw [hstore]
    exact valid
  · rw [hstore, hafter]
    exact (Store.sound_carry formed (hbefore ▸ valid.inside)).valid

/-- In every engine that a run leads to, a transaction with any edit that can be made is answered
with an error exactly if the edit changes the text and was made for another length than that of the
document. The error names the two lengths, and nothing of the engine has changed. Any other edit
lies in the text with each splice of each pass and is made to its end. The document then has the
next version if the edit has a pass, and the same text and version if not. Only the effects can be
at fault, when they select a report that the store does not hold in the end. -/
theorem dispatch_takes_all_or_nothing {doc : Document} {options : Options} {begun : Nat} (now : Nat)
    (ran : Run (attach doc options begun) events en) (built : ∀ e, t.edit = some e → e.Built) :
    (∀ next error, en.dispatch t now = .ok (next, .error error) ↔ next = en ∧
      ∃ e, en.Misfits t e ∧ error = .lengthMismatch e.lengthBefore en.doc.length) ∧
    ((∀ e, ¬ en.Misfits t e) →
      (∀ e, t.edit = some e → e.isEmpty = false → e.StaysInside en.doc.text ∧
        ∃ text, e.madeInPlace? en.doc.text = some text ∧ ∀ next answer,
          en.dispatch t now = .ok (next, answer) → next.doc.text = text ∧
            next.doc.version = en.doc.version + 1) ∧
      ((∀ e, t.edit = some e → e.isEmpty = true) → ∀ next answer,
        en.dispatch t now = .ok (next, answer) → next.doc = en.doc) ∧
      (∃ after, en.edited t = .ok after ∧ ∀ fault, en.dispatch t now = .error fault →
        fault = .selectionMissing ∧ ∃ selection, .select selection ∈ t.effects ∧
          selection.report ∉ (en.store.advance t after).reports)) := by
  refine ⟨fun next error => ?_, fun fits => ⟨fun e carries changes => ?_, ?_, ?_⟩⟩
  · rw [dispatch_eq_error_iff, edited_eq_error_iff]
  · have formed := (built e carries).wellFormed
    have hlength : en.doc.text.length = e.lengthBefore :=
      Decidable.not_not.mp fun hne => fits e ⟨carries, changes, Ne.symm hne⟩
    obtain ⟨after, hafter⟩ := Document.exists_apply hlength
    have made : en.edited t = .ok after := by
      rw [edited, Transaction.change_eq_some carries changes]
      exact hafter
    refine ⟨Edit.staysInside_of_wellFormed formed hlength, _,
      Edit.madeInPlace?_eq formed hlength, fun next answer h => ?_⟩
    rw [doc_of_dispatch made h]
    refine ⟨?_, Document.version_of_apply hafter changes⟩
    rw [(Document.apply_eq_ok_iff.mp hafter).2]
  · intro idle next answer h
    have hchange : t.change = none := by
      rw [Option.eq_none_iff_forall_ne_some]
      intro e hchange
      obtain ⟨carries, changes⟩ := Transaction.change_eq_some_iff.mp hchange
      rw [idle e carries] at changes
      contradiction
    have made : en.edited t = .ok en.doc := by rw [edited, hchange]
    exact doc_of_dispatch made h
  · cases hedited : en.edited t with
    | error error =>
      obtain ⟨e, misfits, -⟩ := edited_eq_error_iff.mp hedited
      exact absurd misfits (fits e)
    | ok after =>
      refine ⟨after, rfl, fun fault h => ?_⟩
      obtain ⟨found, hfound, hupdate⟩ := of_dispatch_eq_fault h
      obtain rfl := Except.ok.inj (hedited.symm.trans hfound)
      have valid := ran.valid (Store.sound_empty doc.length).valid
      exact Store.of_update_eq_error (valid_edited valid built hedited) hupdate

/-- An engine whose document has been edited refuses the same edit when it comes again, and takes an
edit of two passes. -/
theorem dispatch_takes_all_or_nothing_edit_again :
    let doc : Document := .ofText "main" ['a', 'b', 'c', 'd']
    let once : Edit := ⟨4, 5, [⟨4, [⟨⟨0, 0⟩, ['x']⟩]⟩]⟩
    let twice : Edit := ⟨5, 3, [⟨5, [⟨⟨1, 3⟩, []⟩]⟩, ⟨3, [⟨⟨0, 1⟩, ['y']⟩]⟩]⟩
    ∃ events en, Run (attach doc .standard 0) events en ∧ once.Built ∧ twice.Built ∧
      en.Misfits (.ofEdit once) once ∧
      en.dispatch (.ofEdit once) 2 = .ok (en, .error (.lengthMismatch 4 5)) ∧
      twice.StaysInside en.doc.text ∧ ∃ next update,
        en.dispatch (.ofEdit twice) 2 = .ok (next, .ok update) ∧
          next.doc.text = ['y', 'c', 'd'] ∧ next.doc.version = 2 := by
  intro doc once twice
  have honce : Edit.ofSplice 4 ⟨⟨0, 0⟩, ['x']⟩ = .ok once := rfl
  have hdeleted : Edit.ofSplice 5 ⟨⟨1, 3⟩, []⟩ = .ok ⟨5, 3, [⟨5, [⟨⟨1, 3⟩, []⟩]⟩]⟩ := rfl
  have hreplaced : Edit.ofSplice 3 ⟨⟨0, 1⟩, ['y']⟩ = .ok ⟨3, 3, [⟨3, [⟨⟨0, 1⟩, ['y']⟩]⟩]⟩ := rfl
  have htwice : twice.Built := .andThen (.ofSplice hdeleted) (.ofSplice hreplaced) rfl
  have built {made : Edit} (h : made.Built) :
      ∀ e, (Transaction.ofEdit made).edit = some e → e.Built := by
    intro e he
    obtain rfl := Option.some.inj he
    exact h
  obtain ⟨reply, performed, hdoc⟩ : ∃ reply,
      (attach doc .standard 0).perform ⟨0, 0⟩ (.edit once 1) = .ok reply ∧
        reply.engine.doc = ⟨"main", ['x', 'a', 'b', 'c', 'd'], 1⟩ := ⟨_, rfl, rfl⟩
  have ran := Run.nil.step performed
  have misfits : reply.engine.Misfits (.ofEdit once) once := by
    refine ⟨rfl, rfl, ?_⟩
    rw [hdoc]
    decide
  have fits : ∀ e, ¬ reply.engine.Misfits (.ofEdit twice) e := by
    rintro e ⟨he, -, hlength⟩
    obtain rfl := Option.some.inj he
    rw [hdoc] at hlength
    exact hlength rfl
  obtain ⟨refused, -⟩ := dispatch_takes_all_or_nothing 2 ran (built (.ofSplice honce))
  obtain ⟨accepted, taken⟩ := dispatch_takes_all_or_nothing 2 ran (built htwice)
  obtain ⟨changes, -, after, -, faults⟩ := taken fits
  obtain ⟨inside, text, htext, done⟩ := changes twice rfl rfl
  have hrefused := (refused reply.engine (.lengthMismatch 4 5)).mpr
    ⟨rfl, once, misfits, by rw [hdoc]; rfl⟩
  refine ⟨_, reply.engine, ran, .ofSplice honce, htwice, misfits, hrefused, inside, ?_⟩
  cases hdispatch : reply.engine.dispatch (.ofEdit twice) 2 with
  | error fault =>
    obtain ⟨-, selection, hselection, -⟩ := faults fault hdispatch
    exact absurd hselection List.not_mem_nil
  | ok result =>
    obtain ⟨next, answer⟩ := result
    cases answer with
    | error error =>
      obtain ⟨-, e, hmisfits, -⟩ := (accepted next error).mp hdispatch
      exact absurd hmisfits (fits e)
    | ok update =>
      obtain ⟨hnext, hversion⟩ := done next _ hdispatch
      rw [hdoc] at htext hversion
      obtain rfl := Option.some.inj htext
      exact ⟨next, update, rfl, hnext, hversion⟩

end Marginalia.Engine
