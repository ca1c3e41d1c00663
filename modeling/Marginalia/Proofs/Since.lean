import Mathlib.Data.List.Induction

/-!
# Since

Inputs take a state along, one after another. That an input did `P` and none since then did `Q` is
said of each input in the state that it found. What `P` brings about and `Q` alone undoes is so in
the end exactly if `P` has happened and `Q` has not since.
-/

namespace Marginalia

variable {State Input : Type} {step : State → Input → State} {P Q : State → Input → Prop}
  {start : State} {inputs : List Input}

/-- In the course of `inputs` from `start` on one input did `P`, and none behind it did `Q`. -/
def Since (step : State → Input → State) (P Q : State → Input → Prop) (start : State)
    (inputs : List Input) : Prop :=
  ∃ earlier x later, inputs = earlier ++ x :: later ∧ P (earlier.foldl step start) x ∧
    ∀ between y rest, later = between ++ y :: rest →
      ¬ Q ((earlier ++ x :: between).foldl step start) y

/-- Without inputs nothing has happened. -/
theorem not_since_nil : ¬ Since step P Q start [] := by
  rintro ⟨earlier, x, later, hinputs, -⟩
  simp at hinputs

/-- The last input did `P` itself, or it did not do `Q` and the others have left it at `P`. -/
theorem since_append_singleton {y : Input} : Since step P Q start (inputs ++ [y]) ↔
    P (inputs.foldl step start) y ∨
      Since step P Q start inputs ∧ ¬ Q (inputs.foldl step start) y := by
  constructor
  · rintro ⟨earlier, x, later, hinputs, hdid, hkept⟩
    rcases later.eq_nil_or_concat with rfl | ⟨later, last, rfl⟩
    · obtain ⟨rfl, hlast⟩ := List.append_inj' hinputs rfl
      obtain rfl := List.singleton_inj.mp hlast
      exact Or.inl hdid
    · rw [List.concat_eq_append, ← List.cons_append, ← List.append_assoc] at hinputs
      obtain ⟨rfl, hlast⟩ := List.append_inj' hinputs rfl
      obtain rfl := List.singleton_inj.mp hlast
      refine Or.inr ⟨⟨earlier, x, later, rfl, hdid, fun between z rest hlater => ?_⟩, ?_⟩
      · refine hkept between z (rest ++ [y]) ?_
        rw [hlater, List.concat_eq_append, List.append_assoc, List.cons_append]
      · exact hkept later y [] List.concat_eq_append
  · rintro (hdid | ⟨⟨earlier, x, later, rfl, hdid, hkept⟩, hlast⟩)
    · exact ⟨inputs, y, [], rfl, hdid, fun between z rest hnil => by simp at hnil⟩
    · refine ⟨earlier, x, later ++ [y], by simp, hdid, fun between z rest hlater => ?_⟩
      rcases rest.eq_nil_or_concat with rfl | ⟨rest, last, rfl⟩
      · obtain ⟨rfl, hz⟩ := List.append_inj' hlater rfl
        obtain rfl := List.singleton_inj.mp hz
        exact hlast
      · rw [List.concat_eq_append, ← List.cons_append, ← List.append_assoc] at hlater
        exact hkept between z rest (List.append_inj' hlater rfl).1

/-- What only `P` brings about, and `Q` undoes, comes from a `P` with no `Q` since. -/
theorem since_of_steps {R : State → Prop} (begun : ¬ R start)
    (steps : ∀ earlier y, earlier ++ [y] <+: inputs → R (step (earlier.foldl step start) y) →
      P (earlier.foldl step start) y ∨
        R (earlier.foldl step start) ∧ ¬ Q (earlier.foldl step start) y)
    (h : R (inputs.foldl step start)) : Since step P Q start inputs := by
  induction inputs using List.reverseRecOn with
  | nil => exact absurd h begun
  | append_singleton earlier y ih =>
    rw [List.foldl_append, List.foldl_cons, List.foldl_nil] at h
    refine since_append_singleton.mpr ((steps earlier y (List.prefix_refl _) h).imp_right ?_)
    rintro ⟨hearlier, hkept⟩
    exact ⟨ih (fun first z hfirst => steps first z (hfirst.trans (List.prefix_append _ _)))
      hearlier, hkept⟩

/-- What `P` brings about and `Q` alone undoes is there exactly after a `P` with no `Q` since. -/
theorem iff_since_of_steps {R : State → Prop} (begun : ¬ R start)
    (steps : ∀ earlier y, earlier ++ [y] <+: inputs →
      (R (step (earlier.foldl step start) y) ↔ P (earlier.foldl step start) y ∨
        R (earlier.foldl step start) ∧ ¬ Q (earlier.foldl step start) y)) :
    R (inputs.foldl step start) ↔ Since step P Q start inputs := by
  induction inputs using List.reverseRecOn with
  | nil => exact iff_of_false begun not_since_nil
  | append_singleton earlier y ih =>
    have hearlier := ih fun first z hfirst => steps first z (hfirst.trans (List.prefix_append _ _))
    rw [since_append_singleton, ← hearlier, List.foldl_append, List.foldl_cons, List.foldl_nil]
    exact steps earlier y (List.prefix_refl _)

end Marginalia
