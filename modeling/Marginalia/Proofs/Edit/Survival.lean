import Marginalia.Proofs.Edit.Weave

/-!
# Characters that survive an edit

A character survives an edit when every pass spares it at the index where it stands by then. The
two ways in which an edit acts agree on survivors: the offset at which the position of one comes
to stand, after inserted text, is where the character is found in the edited text, and the
position behind it comes to stand directly behind it, before inserted text. Both keep the order
of survivors. The index after a pass is counted from the splices, so that neither way is the
measure of the other.
-/

namespace Marginalia

namespace Pass

/-- Every pass spares the character at index `i`, at the index where it stands by then. -/
def SparedBy : List Pass → Nat → Prop
  | [], _ => True
  | p :: rest, i => p.Spares i ∧ SparedBy rest (p.indexAfter i)

instance decidableSparedBy : (passes : List Pass) → (i : Nat) → Decidable (SparedBy passes i)
  | [], _ => isTrue trivial
  | p :: rest, i =>
    have := decidableSparedBy rest (p.indexAfter i)
    inferInstanceAs (Decidable (p.Spares i ∧ SparedBy rest (p.indexAfter i)))

/-- The index of a character after passes that spare it. -/
def indexThrough (passes : List Pass) (i : Nat) : Nat :=
  passes.foldl (fun i p => p.indexAfter i) i

namespace Chain

variable {length final i j : Nat} {passes : List Pass}

/-- A chain leads from a text of its first length to one of its last. -/
theorem length_foldl_apply (h : Chain length passes final) {t : Text} (ht : t.length = length) :
    (passes.foldl (fun t p => p.apply t) t).length = final := by
  induction h generalizing t with
  | nil => exact ht
  | cons first _ ih => exact ih (length_apply first ht)

/-- A character that the passes spare stays inside the text. -/
theorem indexThrough_lt (h : Chain length passes final) (hi : i < length)
    (spared : SparedBy passes i) : indexThrough passes i < final := by
  induction h generalizing i with
  | nil => exact hi
  | cons first _ ih => exact ih (indexAfter_lt first hi spared.1) spared.2

/-- A character that the passes spare stands at its index in the text after them. -/
theorem getElem?_foldl_apply (h : Chain length passes final) {t : Text} (ht : t.length = length)
    (hi : i < length) (spared : SparedBy passes i) :
    (passes.foldl (fun t p => p.apply t) t)[indexThrough passes i]? = t[i]? := by
  induction h generalizing t i with
  | nil => rfl
  | cons first _ ih =>
    have hrest := ih (length_apply first ht) (indexAfter_lt first hi spared.1) spared.2
    exact hrest.trans (getElem?_apply first ht hi spared.1)

/-- The position of a spared character comes to stand, after inserted text, at its index. -/
theorem foldlM_landing_after (h : Chain length passes final) (hi : i < length)
    (spared : SparedBy passes i) :
    passes.foldlM (fun pos p => (p.landing pos).on? .after) i = some (indexThrough passes i) := by
  induction h generalizing i with
  | nil => rfl
  | @cons p rest _ first _ ih =>
    have hlanding : (p.landing i).on? .after = some (p.indexAfter i) := by
      rw [Landing.on?, landing_lost_of_spares first spared.1 (Or.inl rfl), Landing.on,
        landing_after_of_spares first hi spared.1]
      rfl
    rw [List.foldlM_cons, hlanding]
    exact ih (indexAfter_lt first hi spared.1) spared.2

/-- The position behind a spared character comes to stand, before inserted text, behind its
index. -/
theorem foldlM_landing_before_succ (h : Chain length passes final) (hi : i < length)
    (spared : SparedBy passes i) :
    passes.foldlM (fun pos p => (p.landing pos).on? .before) (i + 1) =
      some (indexThrough passes i + 1) := by
  induction h generalizing i with
  | nil => rfl
  | @cons p rest _ first _ ih =>
    have hlanding : (p.landing (i + 1)).on? .before = some (p.indexAfter i + 1) := by
      rw [Landing.on?, landing_lost_of_spares first spared.1 (Or.inr rfl), Landing.on,
        landing_before_succ_of_spares first hi spared.1]
      rfl
    rw [List.foldlM_cons, hlanding]
    exact ih (indexAfter_lt first hi spared.1) spared.2

/-- Spared characters keep their order. -/
theorem indexThrough_lt_indexThrough (h : Chain length passes final) (hij : i < j)
    (hj : j < length) (hi : SparedBy passes i) (spared : SparedBy passes j) :
    indexThrough passes i < indexThrough passes j := by
  induction h generalizing i j with
  | nil => exact hij
  | @cons p rest _ first _ ih =>
    have hbefore := (lt_iff_lt_landing_before first (by omega) hi.1 j).mp hij
    have hsides := landing_before_le_after p j
    rw [landing_after_of_spares first hj spared.1] at hsides
    have hlt : p.indexAfter i < p.indexAfter j := by omega
    exact ih hlt (indexAfter_lt first hj spared.1) hi.2 spared.2

end Chain

end Pass

namespace Edit

/-- The character at index `i` of the old text survives every pass of the edit. -/
def Survives (e : Edit) (i : Nat) : Prop := Pass.SparedBy e.passes i

instance (e : Edit) (i : Nat) : Decidable (e.Survives i) :=
  inferInstanceAs (Decidable (Pass.SparedBy e.passes i))

/-- The index in the edited text of a character that survives. -/
def indexAfter (e : Edit) (i : Nat) : Nat := Pass.indexThrough e.passes i

variable {e : Edit} {i : Nat}

/-- The position of a survivor comes to stand at its index. -/
theorem image?_after_of_survives (h : e.WellFormed) (hi : i < e.lengthBefore)
    (survives : e.Survives i) : e.image? .after i = some (e.indexAfter i) :=
  Pass.Chain.foldlM_landing_after h hi survives

/-- The position behind a survivor comes to stand behind its index. -/
theorem image?_before_succ_of_survives (h : e.WellFormed) (hi : i < e.lengthBefore)
    (survives : e.Survives i) : e.image? .before (i + 1) = some (e.indexAfter i + 1) :=
  Pass.Chain.foldlM_landing_before_succ h hi survives

/-- A text of the right length can be edited, and the result has the announced length. -/
theorem exists_apply (h : e.WellFormed) {t : Text} (ht : t.length = e.lengthBefore) :
    ∃ after, e.apply t = .ok after ∧ after.length = e.lengthAfter := by
  refine ⟨e.passes.foldl (fun t p => p.apply t) t, ?_, Pass.Chain.length_foldl_apply h ht⟩
  rw [apply, if_pos ht]

/-- A survivor is found at its index in the edited text. -/
theorem getElem?_of_apply (h : e.WellFormed) {t after : Text} (ht : t.length = e.lengthBefore)
    (made : e.apply t = .ok after) (hi : i < e.lengthBefore) (survives : e.Survives i) :
    after[e.indexAfter i]? = t[i]? := by
  rw [apply, if_pos ht, Except.ok.injEq] at made
  rw [← made]
  exact Pass.Chain.getElem?_foldl_apply h ht hi survives

/-- Text and positions agree on every survivor, for every edit that can be made: the edited text
has the announced length, holds each survivor where its position comes to stand, and keeps the
order of survivors. -/
theorem apply_agrees_with_image (built : e.Built) {t : Text} (ht : t.length = e.lengthBefore) :
    ∃ after, e.apply t = .ok after ∧ after.length = e.lengthAfter ∧
      (∀ i < t.length, e.Survives i → ∃ q, e.image? .after i = some q ∧
        e.image? .before (i + 1) = some (q + 1) ∧ q < after.length ∧ after[q]? = t[i]?) ∧
      ∀ i j q r, i < j → j < t.length → e.Survives i → e.Survives j →
        e.image? .after i = some q → e.image? .after j = some r → q < r := by
  have h := built.wellFormed
  obtain ⟨after, made, hlength⟩ := exists_apply h ht
  refine ⟨after, made, hlength, ?_, ?_⟩
  · intro i hi survives
    rw [ht] at hi
    refine ⟨e.indexAfter i, image?_after_of_survives h hi survives,
      image?_before_succ_of_survives h hi survives, ?_, getElem?_of_apply h ht made hi survives⟩
    rw [hlength]
    exact Pass.Chain.indexThrough_lt h hi survives
  · intro i j q r hij hj hsurvives survives hq hr
    rw [ht] at hj
    rw [image?_after_of_survives h (by omega) hsurvives, Option.some.injEq] at hq
    rw [image?_after_of_survives h hj survives, Option.some.injEq] at hr
    rw [← hq, ← hr]
    exact Pass.Chain.indexThrough_lt_indexThrough h hij hj hsurvives survives

/-- The agreement for two passes, of which the first inserts at a replaced extent. -/
theorem apply_agrees_with_image_two_passes :
    let first : Pass := ⟨6, [⟨⟨1, 1⟩, ['x']⟩, ⟨⟨1, 3⟩, ['y', 'z']⟩]⟩
    let second : Pass := ⟨7, [⟨⟨0, 1⟩, []⟩, ⟨⟨7, 7⟩, ['!']⟩]⟩
    let e : Edit := ⟨6, 7, [first, second]⟩
    e.Built ∧ e.Survives 3 ∧ ∃ after, e.apply ['a', 'b', 'c', 'd', 'e', 'f'] = .ok after ∧
      ∃ q, e.image? .after 3 = some q ∧ after[q]? = some 'd' := by
  intro first second e
  have hfirst : ofSplices 6 [⟨⟨1, 3⟩, ['y', 'z']⟩, ⟨⟨1, 1⟩, ['x']⟩] = .ok ⟨6, 7, [first]⟩ :=
    rfl
  have hsecond : ofSplices 7 [⟨⟨0, 1⟩, []⟩, ⟨⟨7, 7⟩, ['!']⟩] = .ok ⟨7, 7, [second]⟩ := rfl
  have built : e.Built := .andThen (.ofSplices hfirst) (.ofSplices hsecond) rfl
  have survives : e.Survives 3 := by decide
  obtain ⟨after, made, -, agree, -⟩ :=
    apply_agrees_with_image built (t := ['a', 'b', 'c', 'd', 'e', 'f']) rfl
  obtain ⟨q, hq, -, -, hchar⟩ := agree 3 (by decide) survives
  exact ⟨built, survives, after, made, q, hq, hchar⟩

end Edit

end Marginalia
