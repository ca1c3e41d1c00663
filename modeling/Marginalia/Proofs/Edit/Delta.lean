import Marginalia.Proofs.Edit.InTurn

/-!
# Deltas, step by step

A delta means what its steps do one after another: each takes away as many characters as it names,
at its start in the text that the steps before it leave, and puts its own there. A delta is an edit
exactly if every step fits the text that it finds and the last text has the announced length. The
edit then acts on texts as the steps do in turn, and on positions as one edit for each step. The
stop of a step never goes past the greatest offset, so that a step is known not to fit only while
the lengths stay below it.
-/

namespace Marginalia

namespace Edit

variable {length final : Nat} {s : Splice}

/-- A splice that fits the text is an edit that makes the replacement, if there is one to make. -/
theorem exists_ofSplice (hordered : s.extent.start ≤ s.extent.stop)
    (hfits : s.extent.stop ≤ length) :
    ∃ part, ofSplice length s = .ok part ∧
      part.lengthAfter = length + s.text.length - s.removedLength ∧
      ∀ t : Text, part.passes.foldl (fun t p => p.apply t) t =
        t.replace s.extent.start s.extent.stop s.text := by
  cases hidle : s.isIdle with
  | false => exact ⟨_, ofSplice_eq_ok hordered hfits hidle, rfl, fun _ => rfl⟩
  | true =>
    have herror : s.error? length = none := Splice.error?_eq_none_iff.mpr ⟨hordered, hfits⟩
    have made : ofSplice length s = .ok (identity length) := by
      simp [ofSplice, ofSplices, Pass.ofSplices, herror, sortByExtent, insertByExtent, hidle,
        Splice.join, Except.map, Pass.lengthAfter, identity]
    have htext := Splice.text_eq_nil_of_isIdle hidle
    simp only [Splice.isIdle, Extent.isEmpty, Bool.and_eq_true, beq_iff_eq] at hidle
    refine ⟨identity length, made, ?_, fun t => ?_⟩
    · rw [Splice.removedLength, ← hidle.1, htext, Nat.sub_self]
      rfl
    · rw [← hidle.1, htext, Text.replace, List.append_nil, List.take_append_drop]
      rfl

/-- A splice that reaches past the end of the text is no edit of it. -/
theorem ofSplice_eq_error (hordered : s.extent.start ≤ s.extent.stop)
    (hpast : length < s.extent.stop) :
    ofSplice length s = .error (.outOfBounds s.extent length) := by
  have herror : s.error? length = some (.outOfBounds s.extent length) := by
    rw [Splice.error?, if_neg (Nat.not_lt_of_le hordered), if_pos hpast]
  simp [ofSplice, ofSplices, Pass.ofSplices, herror, Except.map]

/-- The image under the passes of several edits is the image under one after another. -/
theorem image_flatMap (parts : List Edit) (side : Side) (pos : Nat) :
    image ⟨length, final, parts.flatMap (·.passes)⟩ side pos =
      parts.foldl (fun pos part => part.image side pos) pos := List.foldl_flatMap

/-- The passes of several edits lose the positions that one of them loses. -/
theorem image?_flatMap (parts : List Edit) (side : Side) (pos : Nat) :
    image? ⟨length, final, parts.flatMap (·.passes)⟩ side pos =
      parts.foldlM (fun pos part => part.image? side pos) pos := by
  induction parts generalizing pos with
  | nil => rfl
  | cons part rest ih =>
    rw [image?, List.flatMap_cons, List.foldlM_append, List.foldlM_cons]
    exact congrArg _ (funext ih)

end Edit

namespace Delta

namespace Step

/-- The step as a splice, with a stop that may go past the greatest offset. -/
def splice (s : Step) : Splice := ⟨⟨s.start, s.start + s.removedLength⟩, s.inserted⟩

/-- The length that the step leaves of a text of `length` characters, if there is as much to take
away at its start. -/
def lengthAfter? (length : Nat) (s : Step) : Option Nat :=
  if s.start + s.removedLength ≤ length then
    some (length - s.removedLength + s.inserted.length)
  else none

/-- The text that the step leaves: at its start, characters are taken away and its own put in. -/
def run (t : Text) (s : Step) : Text :=
  t.take s.start ++ s.inserted ++ (t.drop s.start).drop s.removedLength

variable {length next : Nat} {s : Step}

/-- A step that fits the text leaves a length. -/
theorem lengthAfter?_eq_some_iff : s.lengthAfter? length = some next ↔
    s.start + s.removedLength ≤ length ∧ length - s.removedLength + s.inserted.length = next := by
  simp [lengthAfter?]

/-- A step that does not fit the text leaves no length. -/
theorem lengthAfter?_eq_none_iff :
    s.lengthAfter? length = none ↔ length < s.start + s.removedLength := by
  simp [lengthAfter?]

/-- A step that stops by the greatest offset is the splice of its own extent. -/
theorem toSplice_eq (h : s.start + s.removedLength ≤ greatestOffset) : s.toSplice = s.splice := by
  rw [toSplice, stop, Nat.min_eq_left h, splice]

/-- A step that fits is an edit of the text that it finds and does what the step does. -/
theorem exists_ofSplice (hlength : length < greatestOffset)
    (fits : s.lengthAfter? length = some next) :
    ∃ part, Edit.ofSplice length s.splice = .ok part ∧
      Edit.ofSplice length s.toSplice = .ok part ∧ part.lengthAfter = next := by
  obtain ⟨hstop, hnext⟩ := lengthAfter?_eq_some_iff.mp fits
  obtain ⟨part, made, hafter, -⟩ :=
    Edit.exists_ofSplice (s := s.splice) (Nat.le_add_right _ _) hstop
  have hremoved : s.splice.removedLength = s.removedLength := Nat.add_sub_cancel_left _ _
  have hinserted : s.splice.text.length = s.inserted.length := rfl
  exact ⟨part, made, by rw [toSplice_eq (by omega), made], by omega⟩

/-- The edit that a step makes by itself gives the text that the step leaves. -/
theorem foldl_apply_of_ofSplice {part : Edit} (made : Edit.ofSplice length s.splice = .ok part)
    (fits : s.lengthAfter? length = some next) (t : Text) :
    part.passes.foldl (fun t p => p.apply t) t = s.run t := by
  obtain ⟨other, hother, -, htext⟩ := Edit.exists_ofSplice (s := s.splice) (Nat.le_add_right _ _)
    (lengthAfter?_eq_some_iff.mp fits).1
  obtain rfl : part = other := Except.ok.inj (made.symm.trans hother)
  rw [htext, run, List.drop_drop]
  rfl

/-- A step that does not fit is no edit of the text that it finds. -/
theorem ofSplice_eq_error (hlength : length < greatestOffset) (hstart : s.start ≤ greatestOffset)
    (unfit : length < s.start + s.removedLength) :
    Edit.ofSplice length s.toSplice = .error (.outOfBounds ⟨s.start, s.stop⟩ length) := by
  have hordered : s.start ≤ s.stop := Nat.le_min.mpr ⟨Nat.le_add_right _ _, hstart⟩
  have hpast : length < s.stop := Nat.lt_min.mpr ⟨unfit, hlength⟩
  exact Edit.ofSplice_eq_error hordered hpast

end Step

/-- The length that steps lead to from a text of `length` characters, if each fits the text that it
finds. -/
def lengthThrough? (length : Nat) (steps : List Step) : Option Nat :=
  steps.foldlM Step.lengthAfter? length

/-- The lengths that steps come by from `length` on, as far as they fit. -/
def lengths (length : Nat) : List Step → List Nat
  | [] => [length]
  | s :: rest =>
    match s.lengthAfter? length with
    | none => [length]
    | some next => length :: lengths next rest

/-- The text that steps lead to. -/
def run (t : Text) (steps : List Step) : Text := steps.foldl Step.run t

/-- Edits of one splice each that do what steps do, each an edit of the text that its step finds. -/
inductive Singly : Nat → List Step → List Edit → Prop where
  | nil (length : Nat) : Singly length [] []
  | cons {length next : Nat} {s : Step} {part : Edit} {rest : List Step} {parts : List Edit}
      (made : Edit.ofSplice length s.splice = .ok part) (fits : s.lengthAfter? length = some next)
      (behind : Singly next rest parts) : Singly length (s :: rest) (part :: parts)

variable {length n final : Nat} {s : Step} {done rest steps more : List Step}
  {e whole : Edit} {parts : List Edit}

/-- The first length is the one that the steps begin with. -/
theorem mem_lengths (length : Nat) (steps : List Step) : length ∈ lengths length steps := by
  cases steps with
  | nil => exact List.mem_cons_self
  | cons s rest =>
    rw [lengths]
    split <;> exact List.mem_cons_self

/-- What the steps behind the first come by, the steps come by. -/
theorem mem_lengths_cons {next : Nat} (fits : s.lengthAfter? length = some next)
    (h : n ∈ lengths next rest) : n ∈ lengths length (s :: rest) := by
  rw [lengths, fits]
  exact List.mem_cons_of_mem _ h

/-- What steps come by, more steps come by. -/
theorem mem_lengths_append (h : n ∈ lengths length done) : n ∈ lengths length (done ++ more) := by
  induction done generalizing length with
  | nil =>
    obtain rfl := List.mem_singleton.mp h
    exact mem_lengths _ _
  | cons s rest ih =>
    rw [lengths] at h
    rw [List.cons_append, lengths]
    cases hfirst : s.lengthAfter? length with
    | none => simpa [hfirst] using h
    | some next =>
      rw [hfirst] at h
      cases List.mem_cons.mp h with
      | inl hfirst =>
        rw [hfirst]
        exact List.mem_cons_self
      | inr hrest => exact List.mem_cons_of_mem _ (ih hrest)

/-- Where steps that fit lead to, they come by. -/
theorem mem_lengths_of_lengthThrough? (h : lengthThrough? length steps = some n) :
    n ∈ lengths length steps := by
  induction steps generalizing length with
  | nil =>
    obtain rfl : length = n := Option.some.inj h
    exact mem_lengths _ _
  | cons s rest ih =>
    rw [lengthThrough?, List.foldlM_cons] at h
    obtain ⟨next, fits, hrest⟩ := Option.bind_eq_some_iff.mp h
    exact mem_lengths_cons fits (ih hrest)

/-- Steps lead nowhere exactly if there is a first one that does not fit the text that it finds. -/
theorem lengthThrough?_eq_none_iff : lengthThrough? length steps = none ↔
    ∃ done s rest n, steps = done ++ s :: rest ∧ lengthThrough? length done = some n ∧
      n < s.start + s.removedLength := by
  constructor
  · intro h
    induction steps generalizing length with
    | nil => simp [lengthThrough?] at h
    | cons s rest ih =>
      rw [lengthThrough?, List.foldlM_cons] at h
      cases hfirst : s.lengthAfter? length with
      | none => exact ⟨[], s, rest, length, rfl, rfl, Step.lengthAfter?_eq_none_iff.mp hfirst⟩
      | some next =>
        rw [hfirst] at h
        obtain ⟨done, other, behind, n, rfl, hdone, unfit⟩ := ih h
        have hmore : lengthThrough? length (s :: done) = some n := by
          rw [lengthThrough?, List.foldlM_cons, hfirst]
          exact hdone
        exact ⟨s :: done, other, behind, n, rfl, hmore, unfit⟩
  · rintro ⟨done, s, rest, n, rfl, hdone, unfit⟩
    rw [lengthThrough?] at hdone ⊢
    rw [List.foldlM_append, hdone, Option.bind_eq_bind, Option.bind_some, List.foldlM_cons,
      Step.lengthAfter?_eq_none_iff.mpr unfit]
    rfl

/-- Steps are appended one part after the other. -/
theorem appendSteps_append (h : appendSteps e done = .ok whole) :
    appendSteps e (done ++ more) = appendSteps whole more := by
  induction done generalizing e with
  | nil =>
    obtain rfl : e = whole := Except.ok.inj h
    rfl
  | cons s rest ih =>
    rw [List.cons_append, appendSteps]
    rw [appendSteps] at h
    cases hfirst : Edit.ofSplice e.lengthAfter s.toSplice with
    | error error => simp [hfirst] at h
    | ok next =>
      rw [hfirst] at h
      exact ih h

/-- Steps that fit are appended, each as the edit that it makes by itself. -/
theorem exists_appendSteps (below : ∀ n ∈ lengths e.lengthAfter steps, n < greatestOffset)
    (h : lengthThrough? e.lengthAfter steps = some final) :
    ∃ parts, Singly e.lengthAfter steps parts ∧
      appendSteps e steps = .ok ⟨e.lengthBefore, final, e.passes ++ parts.flatMap (·.passes)⟩ := by
  induction steps generalizing e with
  | nil =>
    obtain rfl : e.lengthAfter = final := Option.some.inj h
    exact ⟨[], .nil _, by simp [appendSteps]⟩
  | cons s rest ih =>
    rw [lengthThrough?, List.foldlM_cons] at h
    obtain ⟨next, fits, hrest⟩ := Option.bind_eq_some_iff.mp h
    obtain ⟨part, halone, made, rfl⟩ := Step.exists_ofSplice (below _ (mem_lengths _ _)) fits
    obtain ⟨parts, singly, happend⟩ :=
      ih (e := ⟨e.lengthBefore, part.lengthAfter, e.passes ++ part.passes⟩)
        (fun n hn => below n (mem_lengths_cons fits hn)) hrest
    refine ⟨part :: parts, .cons halone fits singly, ?_⟩
    rw [appendSteps, made]
    dsimp only
    rw [happend, List.flatMap_cons, List.append_assoc]

/-- The first step that does not fit is what a delta fails at. -/
theorem appendSteps_eq_error
    (below : ∀ n ∈ lengths e.lengthAfter (done ++ s :: rest), n < greatestOffset)
    (hdone : lengthThrough? e.lengthAfter done = some n) (hstart : s.start ≤ greatestOffset)
    (unfit : n < s.start + s.removedLength) :
    appendSteps e (done ++ s :: rest) = .error (.outOfBounds ⟨s.start, s.stop⟩ n) := by
  obtain ⟨parts, -, happend⟩ := exists_appendSteps
    (fun n hn => below n (mem_lengths_append hn)) hdone
  have hlength := below n (mem_lengths_append (mem_lengths_of_lengthThrough? hdone))
  rw [appendSteps_append happend, appendSteps, Step.ofSplice_eq_error hlength hstart unfit]

/-- Edits of one splice each give the text that the steps lead to. -/
theorem Singly.foldl_apply (h : Singly length steps parts) (t : Text) :
    (parts.flatMap (·.passes)).foldl (fun t p => p.apply t) t = run t steps := by
  induction h generalizing t with
  | nil => rfl
  | cons made fits _ ih =>
    rw [List.flatMap_cons, List.foldl_append, Step.foldl_apply_of_ofSplice made fits, ih]
    rfl

section Converted

variable {d : Delta} (below : ∀ n ∈ lengths d.before d.steps, n < greatestOffset)

include below

/-- A delta whose steps fit is an edit if it announces the length that they lead to. -/
theorem exists_toEdit (h : lengthThrough? d.before d.steps = some final) :
    ∃ parts, Singly d.before d.steps parts ∧
      d.toEdit = if final = d.after then .ok ⟨d.before, final, parts.flatMap (·.passes)⟩
        else .error (.lengthMismatch d.after final) := by
  obtain ⟨parts, singly, happend⟩ := exists_appendSteps (e := .identity d.before) below h
  refine ⟨parts, singly, ?_⟩
  rw [toEdit, happend]
  rfl

variable (words : ∀ s ∈ d.steps, s.start ≤ greatestOffset)

include words

/-- A delta fails at its first step that does not fit. -/
theorem toEdit_of_unfit (hsteps : d.steps = done ++ s :: rest)
    (hdone : lengthThrough? d.before done = some n) (unfit : n < s.start + s.removedLength) :
    d.toEdit = .error (.outOfBounds ⟨s.start, s.stop⟩ n) := by
  rw [hsteps] at below words
  have hstart := words s (List.mem_append_right _ List.mem_cons_self)
  have happend := appendSteps_eq_error (e := .identity d.before) below hdone hstart unfit
  rw [toEdit, hsteps, happend]

/-- A delta that is an edit has steps that fit and lead to the announced length, and is the edit of
what each of them is by itself. -/
theorem of_toEdit_eq_ok (made : d.toEdit = .ok e) :
    lengthThrough? d.before d.steps = some d.after ∧ ∃ parts, Singly d.before d.steps parts ∧
      e = ⟨d.before, d.after, parts.flatMap (·.passes)⟩ := by
  cases hthrough : lengthThrough? d.before d.steps with
  | none =>
    obtain ⟨done, s, rest, n, hsteps, hdone, unfit⟩ := lengthThrough?_eq_none_iff.mp hthrough
    rw [toEdit_of_unfit below words hsteps hdone unfit] at made
    exact absurd made nofun
  | some final =>
    obtain ⟨parts, singly, hedit⟩ := exists_toEdit below hthrough
    rw [hedit] at made
    split at made
    case isTrue hafter =>
      obtain rfl := Except.ok.inj made
      exact ⟨congrArg some hafter, parts, singly, by rw [hafter]⟩
    case isFalse => exact absurd made nofun

/-- The error of a delta names its first step that does not fit, with the length that the step
finds, or the length that the steps lead to. -/
theorem toEdit_eq_error_iff (error : Edit.Error) : d.toEdit = .error error ↔
    (∃ done s rest n, d.steps = done ++ s :: rest ∧ lengthThrough? d.before done = some n ∧
      n < s.start + s.removedLength ∧ error = .outOfBounds ⟨s.start, s.stop⟩ n) ∨
    ∃ n, lengthThrough? d.before d.steps = some n ∧ n ≠ d.after ∧
      error = .lengthMismatch d.after n := by
  constructor
  · intro failed
    cases hthrough : lengthThrough? d.before d.steps with
    | none =>
      obtain ⟨done, s, rest, n, hsteps, hdone, unfit⟩ := lengthThrough?_eq_none_iff.mp hthrough
      rw [toEdit_of_unfit below words hsteps hdone unfit] at failed
      exact Or.inl ⟨done, s, rest, n, hsteps, hdone, unfit, (Except.error.inj failed).symm⟩
    | some final =>
      obtain ⟨parts, -, hedit⟩ := exists_toEdit below hthrough
      rw [hedit] at failed
      split at failed
      case isTrue => exact absurd failed nofun
      case isFalse hafter => exact Or.inr ⟨final, rfl, hafter, (Except.error.inj failed).symm⟩
  · rintro (⟨done, s, rest, n, hsteps, hdone, unfit, rfl⟩ | ⟨n, hthrough, hafter, rfl⟩)
    · exact toEdit_of_unfit below words hsteps hdone unfit
    · obtain ⟨parts, -, hedit⟩ := exists_toEdit below hthrough
      rw [hedit, if_neg hafter]

end Converted

/-- A delta is an edit exactly if each of its steps fits the text that it finds and the last text
has the announced length. The edit gives the text that the steps give in turn, and carries positions
as one edit for each step. Otherwise the delta fails at the first step that does not fit, with the
length that the step finds, or at the length that the steps lead to. -/
theorem toEdit_runs_steps {d : Delta}
    (below : ∀ n ∈ lengths d.before d.steps, n < greatestOffset)
    (words : ∀ s ∈ d.steps, s.start ≤ greatestOffset) :
    ((∃ e, d.toEdit = .ok e) ↔ lengthThrough? d.before d.steps = some d.after) ∧
    (∀ e, d.toEdit = .ok e →
      (∀ t : Text, t.length = d.before → e.apply t = .ok (run t d.steps)) ∧
      ∃ parts, Singly d.before d.steps parts ∧ ∀ side pos,
        e.image? side pos = parts.foldlM (fun pos part => part.image? side pos) pos ∧
        e.image side pos = parts.foldl (fun pos part => part.image side pos) pos) ∧
    ∀ error, d.toEdit = .error error ↔
      (∃ done s rest n, d.steps = done ++ s :: rest ∧ lengthThrough? d.before done = some n ∧
        n < s.start + s.removedLength ∧ error = .outOfBounds ⟨s.start, s.stop⟩ n) ∨
      ∃ n, lengthThrough? d.before d.steps = some n ∧ n ≠ d.after ∧
        error = .lengthMismatch d.after n := by
  refine ⟨?_, ?_, toEdit_eq_error_iff below words⟩
  · constructor
    · rintro ⟨e, made⟩
      exact (of_toEdit_eq_ok below words made).1
    · intro hthrough
      obtain ⟨parts, -, hedit⟩ := exists_toEdit below hthrough
      exact ⟨_, hedit.trans (if_pos rfl)⟩
  · intro e made
    obtain ⟨-, parts, singly, rfl⟩ := of_toEdit_eq_ok below words made
    refine ⟨fun t ht => ?_, parts, singly, fun side pos => ⟨?_, ?_⟩⟩
    · rw [Edit.apply, if_pos ht, singly.foldl_apply]
    · exact Edit.image?_flatMap parts side pos
    · exact Edit.image_flatMap parts side pos

/-- A delta of three steps, of which the second does nothing and the third finds what the first has
put in. -/
theorem toEdit_runs_steps_of_three :
    let d : Delta := ⟨4, 3, [⟨1, ['b'], ['x', 'y']⟩, ⟨5, [], []⟩, ⟨2, ['y', 'c'], []⟩]⟩
    (∀ n ∈ lengths d.before d.steps, n < greatestOffset) ∧
      (∀ s ∈ d.steps, s.start ≤ greatestOffset) ∧
      ∃ e, d.toEdit = .ok e ∧ e.apply ['a', 'b', 'c', 'd'] = .ok ['a', 'x', 'd'] ∧
        ∀ after ≠ 3, Delta.toEdit ⟨4, after, d.steps⟩ = .error (.lengthMismatch after 3) := by
  intro d
  have below : ∀ n ∈ lengths d.before d.steps, n < greatestOffset := by decide
  have words : ∀ s ∈ d.steps, s.start ≤ greatestOffset := by decide
  obtain ⟨hmade, hruns, -⟩ := toEdit_runs_steps below words
  obtain ⟨e, made⟩ := hmade.mpr rfl
  have happly := (hruns e made).1 ['a', 'b', 'c', 'd'] rfl
  refine ⟨below, words, e, made, happly, fun after hafter => ?_⟩
  obtain ⟨-, -, hfails⟩ := toEdit_runs_steps (d := ⟨4, after, d.steps⟩) below words
  exact (hfails _).mpr (Or.inr ⟨3, rfl, hafter.symm, rfl⟩)

end Delta

end Marginalia
