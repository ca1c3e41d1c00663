import Marginalia.Report.Rendering

/-!
# Access keys are given out greedily

The letters that are taken when an action gets its key are those of the actions in front of it, so a
key can be told from its name and the keys before it: it is the first letter of the name that none
of them is, in either case, and there is no key exactly if they are all taken. No letter is
therefore held twice, and asking for the holder of a letter finds the only one. The buttons of a
report in the panel show these keys, each at a place in the name where it stands.
-/

namespace Marginalia

namespace AccessKey

variable {taken : List Char} {keys : List (Option Char)} {names : List String} {i j : Nat}
  {c d : Char}

/-- Some action in front of index `i` holds the letter `c`, in either case. -/
def HeldBefore (keys : List (Option Char)) (i : Nat) (c : Char) : Prop :=
  ∃ j < i, ∃ k, keys[j]? = some (some k) ∧ sameLetter k c = true

/-- The first ASCII letter of the name that is not held is `c`. -/
def FirstFree (held : Char → Prop) (name : List Char) (c : Char) : Prop :=
  ∃ front back, name = front ++ c :: back ∧ c.isAlpha = true ∧ ¬ held c ∧
    ∀ d ∈ front, d.isAlpha = true → held d

/-- Being one letter in either case goes both ways. -/
theorem sameLetter_comm : sameLetter c d = sameLetter d c := Bool.beq_comm

/-- A letter is found for a name exactly if it is the first of the name that is free. -/
theorem firstFree_eq_some_iff {name : List Char} : firstFree taken name = some c ↔
    FirstFree (fun d => ∃ k ∈ taken, sameLetter k d = true) name c := by
  unfold firstFree FirstFree
  rw [List.find?_eq_some_iff_append]
  simp only [Bool.and_eq_true, Bool.not_eq_true', List.any_eq_false, Bool.not_eq_true,
    Bool.and_eq_false_imp, Bool.not_eq_false', List.any_eq_true, not_exists, not_and]
  constructor
  · rintro ⟨⟨halpha, hfree⟩, front, back, hname, hfront⟩
    exact ⟨front, back, hname, halpha, hfree, hfront⟩
  · rintro ⟨front, back, hname, halpha, hfree, hfront⟩
    exact ⟨⟨halpha, hfree⟩, front, back, hname, hfront⟩

/-- No letter is found for a name exactly if all its letters are taken. -/
theorem firstFree_eq_none_iff {name : List Char} : firstFree taken name = none ↔
    ∀ c ∈ name, c.isAlpha = true → ∃ k ∈ taken, sameLetter k c = true := by
  simp [firstFree]

/-- The key of an action is the first letter of its name that is free when those of the actions in
front of it are taken. -/
theorem getElem?_assignFrom (taken : List Char) (names : List String) (i : Nat) :
    (assignFrom taken names)[i]? = names[i]?.map fun name => firstFree
      ((((assignFrom taken names).take i).filterMap id).reverse ++ taken) name.toList := by
  induction names generalizing taken i with
  | nil => rfl
  | cons name rest ih =>
    unfold assignFrom
    cases hkey : firstFree taken name.toList with
    | none =>
      cases i with
      | zero => simp [hkey]
      | succ i => simpa using ih taken i
    | some c =>
      cases i with
      | zero => simp [hkey]
      | succ i => simpa using ih (c :: taken) i

/-- The keys in front of index `i` are those that the actions in front of it hold. -/
theorem exists_mem_take_iff (keys : List (Option Char)) (i : Nat) (c : Char) :
    (∃ k ∈ ((keys.take i).filterMap id).reverse ++ [], sameLetter k c = true) ↔
      HeldBefore keys i c := by
  have hmem (k : Char) :
      k ∈ ((keys.take i).filterMap id).reverse ++ [] ↔ ∃ j < i, keys[j]? = some (some k) := by
    simp only [List.append_nil, List.mem_reverse, List.mem_filterMap, id_eq, exists_eq_right]
    rw [List.mem_iff_getElem?]
    simp only [List.getElem?_take]
    refine exists_congr fun j => ?_
    by_cases hj : j < i <;> simp [hj]
  simp only [hmem, HeldBefore]
  constructor
  · rintro ⟨k, ⟨j, hj, hk⟩, hsame⟩
    exact ⟨j, hj, k, hk, hsame⟩
  · rintro ⟨j, hj, k, hk, hsame⟩
    exact ⟨k, ⟨j, hj, hk⟩, hsame⟩

/-- The key of a name is the first of its letters that no name in front of it holds, and there is
none exactly if each of its letters is held. -/
theorem key_iff {name : String} (h : names[i]? = some name) :
    (∀ c, (assign names)[i]? = some (some c) ↔
      FirstFree (HeldBefore (assign names) i) name.toList c) ∧
    ((assign names)[i]? = some none ↔
      ∀ c ∈ name.toList, c.isAlpha = true → HeldBefore (assign names) i c) := by
  have hkey : (assign names)[i]? =
      some (firstFree ((((assign names).take i).filterMap id).reverse ++ []) name.toList) := by
    rw [assign, getElem?_assignFrom, h, Option.map_some]
  simp only [hkey, Option.some.injEq, firstFree_eq_some_iff, firstFree_eq_none_iff,
    exists_mem_take_iff, implies_true, true_and]

/-- Whoever has a key has a name with it. -/
theorem exists_name_of_key (h : (assign names)[i]? = some (some c)) :
    ∃ name, names[i]? = some name ∧
      FirstFree (HeldBefore (assign names) i) name.toList c := by
  have hi : i < names.length := by
    rw [← length_assignFrom [] names]
    exact (List.getElem?_eq_some_iff.mp h).1
  have hname := List.getElem?_eq_getElem hi
  exact ⟨names[i], hname, ((key_iff hname).1 c).mp h⟩

/-- No letter is held by two, in either case. -/
theorem eq_of_sameLetter (hi : (assign names)[i]? = some (some c))
    (hj : (assign names)[j]? = some (some d)) (same : sameLetter c d = true) : i = j := by
  have apart {i j : Nat} {c d : Char} (hi : (assign names)[i]? = some (some c))
      (hj : (assign names)[j]? = some (some d)) (same : sameLetter c d = true) : ¬ i < j := by
    intro hlt
    obtain ⟨-, -, -, -, -, -, free, -⟩ := exists_name_of_key hj
    exact free ⟨i, hlt, c, hi, same⟩
  have hle := apart hi hj same
  have hge := apart hj hi (sameLetter_comm.trans same)
  omega

/-- The holder of a letter is the one whose key it is, in either case. -/
theorem holder?_eq_some_iff : holder? (assign names) c = some i ↔
    ∃ k, (assign names)[i]? = some (some k) ∧ sameLetter k c = true := by
  unfold holder?
  rw [List.findIdx?_eq_some_iff_getElem]
  constructor
  · rintro ⟨hi, hheld, -⟩
    split at hheld
    case h_1 k hk => exact ⟨k, List.getElem?_eq_some_iff.mpr ⟨hi, hk⟩, hheld⟩
    case h_2 => exact absurd hheld Bool.false_ne_true
  · rintro ⟨k, hk, hheld⟩
    obtain ⟨hi, hget⟩ := List.getElem?_eq_some_iff.mp hk
    refine ⟨hi, by rw [hget]; exact hheld, fun j hj => ?_⟩
    split
    case h_1 other hother =>
      intro hsame
      have hsecond : (assign names)[j]? = some (some other) :=
        List.getElem?_eq_some_iff.mpr ⟨Nat.lt_trans hj hi, hother⟩
      have hboth : sameLetter other k = true := by
        rw [sameLetter, beq_iff_eq] at *
        exact hsame.trans hheld.symm
      exact absurd (eq_of_sameLetter hsecond hk hboth) (Nat.ne_of_lt hj)
    case h_2 => exact Bool.false_ne_true

/-- A letter is without a holder exactly if no key is that letter. -/
theorem holder?_eq_none_iff : holder? (assign names) c = none ↔
    ∀ (i : Nat) k, (assign names)[i]? = some (some k) → sameLetter k c = false := by
  rw [Option.eq_none_iff_forall_ne_some]
  simp only [Ne, holder?_eq_some_iff, not_exists, not_and, Bool.not_eq_true]

end AccessKey

namespace Rendering

/-- A button shows the place of its key in its name, if the key is in the name. -/
theorem exists_keyIndex {action : Action} {c : Char} (h : c ∈ action.name.toList) :
    ∃ n, (button action (some c)).keyIndex = some n ∧ action.name.toList[n]? = some c := by
  have hfound : (action.name.toList.findIdx? (· == c)).isSome = true := by
    rw [List.findIdx?_isSome, List.any_eq_true]
    exact ⟨c, h, beq_self_eq_true c⟩
  obtain ⟨n, hn⟩ := Option.isSome_iff_exists.mp hfound
  obtain ⟨hlt, hget, -⟩ := List.findIdx?_eq_some_iff_getElem.mp hn
  exact ⟨n, hn, List.getElem?_eq_some_iff.mpr ⟨hlt, beq_iff_eq.mp hget⟩⟩

/-- Buttons have the names of their actions and the keys that are given to them. -/
theorem names_and_keys_of_buttons {actions : List Action} {keys : List (Option Char)}
    (h : keys.length = actions.length) :
    (List.zipWith button actions keys).map (·.name) = actions.map (·.name) ∧
      (List.zipWith button actions keys).map (·.key) = keys := by
  induction actions generalizing keys with
  | nil =>
    obtain rfl := List.length_eq_zero_iff.mp h
    exact ⟨rfl, rfl⟩
  | cons a rest ih =>
    cases keys with
    | nil => simp at h
    | cons key more =>
      obtain ⟨hnames, hkeys⟩ := ih (Nat.succ.inj h)
      exact ⟨congrArg (a.name :: ·) hnames, congrArg (key :: ·) hkeys⟩

/-- Each button is that of an action with the key of the same place. -/
theorem exists_of_mem_buttons {actions : List Action} {keys : List (Option Char)} {b : Button}
    (h : b ∈ List.zipWith button actions keys) :
    ∃ (i : Nat) (a : Action) (key : Option Char),
      actions[i]? = some a ∧ keys[i]? = some key ∧ b = button a key := by
  obtain ⟨i, hi, rfl⟩ := List.getElem_of_mem h
  obtain ⟨hactions, hkeys⟩ := Nat.lt_min.mp (List.length_zipWith ▸ hi)
  exact ⟨i, actions[i], keys[i], List.getElem?_eq_getElem hactions, List.getElem?_eq_getElem hkeys,
    List.getElem_zipWith⟩

end Rendering

namespace AccessKey

open Rendering (ofReport)

/-- Each action of a list has an entry of its own among the keys. Its key is the first ASCII letter
of its name that no action in front of it holds, in either case, and it has none exactly if every
ASCII letter of its name is held. No two actions hold one letter. Asking for a letter in either case
finds the action that holds it, and none exactly if no action does. The buttons of a report in the
panel have the names and keys of its actions, and the place that a button shows for its key is one
where the key stands in the name. -/
theorem keys_are_greedy_and_found (actions : List Action) :
    let keys := ofActions actions
    keys.length = actions.length ∧
      (∀ (i : Nat) a, actions[i]? = some a →
        (∀ c, keys[i]? = some (some c) ↔ FirstFree (HeldBefore keys i) a.name.toList c) ∧
        (keys[i]? = some none ↔ ∀ c ∈ a.name.toList, c.isAlpha = true → HeldBefore keys i c)) ∧
      (∀ (i j : Nat) c d, keys[i]? = some (some c) → keys[j]? = some (some d) →
        sameLetter c d = true → i = j) ∧
      (∀ c, (∀ i, holder? keys c = some i ↔
          ∃ k, keys[i]? = some (some k) ∧ sameLetter k c = true) ∧
        (holder? keys c = none ↔
          ∀ (i : Nat) k, keys[i]? = some (some k) → sameLetter k c = false)) ∧
      ∀ r : Report, r.actions = actions →
        (ofReport true r).buttons.map (·.name) = actions.map (·.name) ∧
        (ofReport true r).buttons.map (·.key) = keys ∧
        ∀ b ∈ (ofReport true r).buttons, ∀ c, b.key = some c →
          ∃ n, b.keyIndex = some n ∧ b.name.toList[n]? = some c := by
  intro keys
  have hlength : keys.length = actions.length :=
    (length_assignFrom [] _).trans (List.length_map _)
  have hname {i : Nat} {a : Action} (ha : actions[i]? = some a) :
      (actions.map (·.name))[i]? = some a.name := by rw [List.getElem?_map, ha, Option.map_some]
  refine ⟨hlength, fun i a ha => key_iff (hname ha), fun i j c d => eq_of_sameLetter,
    fun c => ⟨fun i => holder?_eq_some_iff, holder?_eq_none_iff⟩, ?_⟩
  rintro r rfl
  obtain ⟨hnames, hkeys⟩ := Rendering.names_and_keys_of_buttons hlength
  refine ⟨hnames, hkeys, fun b hb c hc => ?_⟩
  obtain ⟨i, a, key, ha, hkey, rfl⟩ := Rendering.exists_of_mem_buttons hb
  obtain rfl : key = some c := hc
  obtain ⟨name, hfound, front, back, hletters, -⟩ := exists_name_of_key hkey
  obtain rfl := Option.some.inj ((hname ha).symm.trans hfound)
  exact Rendering.exists_keyIndex (hletters ▸ List.mem_append_right _ List.mem_cons_self)

/-- An umlaut is no key, a capital letter takes the small one with it, and all letters of the last
name are held. -/
theorem keys_are_greedy_and_found_of_four :
    let actions : List Action :=
      [⟨"Ä-Remove", .select⟩, ⟨"rename", .select⟩, ⟨"Én", .select⟩, ⟨"ERN!", .select⟩]
    let keys := ofActions actions
    keys = [some 'R', some 'e', some 'n', none] ∧
      FirstFree (HeldBefore keys 1) "rename".toList 'e' ∧
      (∀ c ∈ "ERN!".toList, c.isAlpha = true → HeldBefore keys 3 c) ∧
      (∀ i, keys[i]? = some (some 'n') → i = 2) ∧
      holder? keys 'E' = some 1 ∧ holder? keys 'm' = none ∧
      ∃ n, (Rendering.button ⟨"rename", .select⟩ (some 'e')).keyIndex = some n ∧
        "rename".toList[n]? = some 'e' := by
  intro actions keys
  let r : Report := ⟨⟨⟨"main", ⟨0, 1⟩⟩, .error, "bad", none, actions, none⟩, .host 0⟩
  obtain ⟨-, greedy, distinct, found, shown⟩ := keys_are_greedy_and_found actions
  have hkeys : keys = [some 'R', some 'e', some 'n', none] := by decide
  have hsecond : keys[1]? = some (some 'e') := by rw [hkeys]; rfl
  have hthird : keys[2]? = some (some 'n') := by rw [hkeys]; rfl
  have hfourth : keys[3]? = some none := by rw [hkeys]; rfl
  have hfree : ∀ (i : Nat) k, keys[i]? = some (some k) → sameLetter k 'm' = false := by
    intro i k hk
    have hmem : some k ∈ [some 'R', some 'e', some 'n', none] := hkeys ▸ List.mem_of_getElem? hk
    simp only [List.mem_cons, Option.some.injEq, reduceCtorEq, List.not_mem_nil, or_false] at hmem
    rcases hmem with rfl | rfl | rfl <;> decide
  have hbutton : Rendering.button ⟨"rename", .select⟩ (some 'e') ∈ (ofReport true r).buttons := by
    decide
  exact ⟨hkeys, ((greedy 1 ⟨"rename", .select⟩ rfl).1 'e').mp hsecond,
    ((greedy 3 ⟨"ERN!", .select⟩ rfl).2).mp hfourth,
    fun i hi => distinct i 2 'n' 'n' hi hthird (by decide),
    ((found 'E').1 1).mpr ⟨'e', hsecond, by decide⟩, (found 'm').2.mpr hfree,
    (shown r rfl).2.2 _ hbutton 'e' rfl⟩

end AccessKey

end Marginalia
