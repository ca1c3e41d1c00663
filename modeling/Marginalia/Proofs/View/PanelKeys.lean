import Mathlib.Data.List.Rotate
import Marginalia.Proofs.View.Panel

/-!
# What panel keys ask for

No key divides by zero, takes one from nothing or reads an item that is not there: the lengths that
it divides by are those of panels with a selected item. What a key asks for names what is there. The
items around the selected one form a circle, so that keys down and up undo each other, and as many
keys down as there are items lead to each of them.
-/

namespace Marginalia.Panel

variable {p : Panel} {key : Key} {keys : List Key} {count i j : Nat}

/-- The remainder of a division, unless it is by zero. -/
def rem? (a b : Nat) : Option Nat := if b = 0 then none else some (a % b)

/-- One less, unless there is nothing to take it from. -/
def pred? (a : Nat) : Option Nat := if a = 0 then none else some (a - 1)

/-- What a letter asks for while the item at `index` is selected, unless there is no such item. -/
def guardedLetter? (p : Panel) (c : Char) (index : Nat) : Option Request :=
  p.items[index]?.map fun item =>
    match AccessKey.holder? item.keys c with
    | some action => .invoke index action
    | none => .consume

/-- What a key asks for, unless to work it out one has to divide by zero, take one from nothing or
read an item that is not there. -/
def guardedRequest? (p : Panel) : Key → Option (Option Request)
  | .escape => some (some .close)
  | .arrowUp | .pageUp =>
    p.selectedIndex.mapM fun i =>
      ((pred? (i + p.items.length)).bind (rem? · p.items.length)).map .select
  | .arrowDown | .pageDown =>
    p.selectedIndex.mapM fun i => (rem? (i + 1) p.items.length).map .select
  | .home => some (some (if p.items.isEmpty then .consume else .select 0))
  | .endKey =>
    if p.items.isEmpty then some (some .consume)
    else (pred? p.items.length).map fun index => some (.select index)
  | .enter => some (some .focusDocument)
  | .letter c => p.selectedIndex.mapM (p.guardedLetter? c)

/-- There is a remainder of a division by a positive number. -/
theorem rem?_of_pos (a : Nat) {b : Nat} (h : 0 < b) : rem? a b = some (a % b) :=
  if_neg (Nat.ne_of_gt h)

/-- A positive number has one that is one less. -/
theorem pred?_of_pos {a : Nat} (h : 0 < a) : pred? a = some (a - 1) := if_neg (Nat.ne_of_gt h)

/-- A list that is not empty has a first index. -/
theorem length_pos_of_not_isEmpty {items : List Item} (h : ¬items.isEmpty) : 0 < items.length :=
  List.length_pos_iff.mpr (mt List.isEmpty_iff.mpr h)

/-- The selected item is one of the items. -/
theorem lt_of_selectedIndex (h : p.selectedIndex = some i) : i < p.items.length :=
  (List.findIdx?_eq_some_iff_getElem.mp h).1

/-- A letter reads the item at an index of the list. -/
theorem guardedLetter?_of_lt (c : Char) (h : i < p.items.length) :
    p.guardedLetter? c i = some (p.letterRequest c i) := by
  rw [guardedLetter?, letterRequest, List.getElem?_eq_getElem h]
  rfl

/-- What is worked out for the selected item can be worked out without harm if it can be for each
index of the list. -/
theorem mapM_selectedIndex {guarded : Nat → Option Request} {plain : Nat → Request}
    (h : ∀ i < p.items.length, guarded i = some (plain i)) :
    p.selectedIndex.mapM guarded = some (p.selectedIndex.map plain) := by
  cases hindex : p.selectedIndex with
  | none => rfl
  | some i =>
    rw [Option.mapM_some, h i (lt_of_selectedIndex hindex)]
    rfl

/-- Nothing stops a key from being worked out. -/
theorem guardedRequest?_eq (p : Panel) (key : Key) :
    p.guardedRequest? key = some (p.request? key) := by
  have up : ∀ i < p.items.length,
      ((pred? (i + p.items.length)).bind (rem? · p.items.length)).map Request.select =
        some (.select ((i + p.items.length - 1) % p.items.length)) := by
    intro i hi
    rw [pred?_of_pos (by omega), Option.bind_some, rem?_of_pos _ (Nat.zero_lt_of_lt hi)]
    rfl
  have down : ∀ i < p.items.length, (rem? (i + 1) p.items.length).map Request.select =
      some (.select ((i + 1) % p.items.length)) := by
    intro i hi
    rw [rem?_of_pos _ (Nat.zero_lt_of_lt hi)]
    rfl
  cases key with
  | escape | home | enter => rfl
  | arrowUp | pageUp => exact mapM_selectedIndex up
  | arrowDown | pageDown => exact mapM_selectedIndex down
  | letter c => exact mapM_selectedIndex fun i => guardedLetter?_of_lt c
  | endKey =>
    rw [guardedRequest?, request?]
    split
    case isTrue => rfl
    case isFalse h =>
      rw [pred?_of_pos (length_pos_of_not_isEmpty h)]
      rfl

/-- The panels that there are: one without items, and what a panel becomes when it is brought in
line with a store. -/
inductive Made : Panel → Prop where
  | empty : Made .empty
  | sync {p : Panel} (made : p.Made) (s : Store) : Made (p.sync s).1

/-- Each item carries the keys of the actions of its report. -/
def Keyed (items : List Item) : Prop :=
  ∀ item ∈ items, item.keys = AccessKey.ofActions item.report.actions

/-- A step of a patch leaves the items with the keys of their actions. -/
theorem keyed_patchStep (keyed : Keyed p.items) (step : ListPatch.Step Report) :
    Keyed (p.patchStep step).1.items := by
  intro item hitem
  rw [items_patchStep] at hitem
  cases step with
  | insert index r =>
    rcases List.eq_or_mem_of_mem_insertIdx hitem with rfl | hold
    · rfl
    · exact keyed item hold
  | remove index => exact keyed item (List.mem_of_mem_eraseIdx hitem)

/-- A patch leaves the items with the keys of their actions. -/
theorem keyed_patch (keyed : Keyed p.items) (steps : List (ListPatch.Step Report)) :
    Keyed (p.patch steps).1.items := by
  induction steps generalizing p with
  | nil => exact keyed
  | cons step rest ih => exact ih (keyed_patchStep keyed step)

/-- Marking leaves the items with the keys of their actions. -/
theorem keyed_markSelected {items : List Item} (keyed : Keyed items) (selected : Option Report) :
    Keyed (markSelected selected items) := by
  let f : Item → List (Option Char) × Report := fun item => (item.keys, item.report)
  have hpairs : (markSelected selected items).map f = items.map f :=
    map_markSelected f (fun _ _ => rfl) items
  intro item hitem
  have hpair := List.mem_map_of_mem (f := f) hitem
  rw [hpairs] at hpair
  obtain ⟨old, hold, heq⟩ := List.mem_map.mp hpair
  obtain ⟨hkeys, hreport⟩ := Prod.mk.inj heq
  rw [← hkeys, ← hreport]
  exact keyed old hold

/-- All panels have items with the keys of their actions. -/
theorem Made.keyed (made : p.Made) : Keyed p.items := by
  induction made with
  | empty => exact fun item h => absurd h List.not_mem_nil
  | sync made s ih => exact keyed_markSelected (keyed_patch ih _) _

/-- What a request names is there: an item of the panel, and an action of the report of an item. -/
def Request.Names (p : Panel) : Request → Prop
  | .select index => index < p.items.length
  | .invoke index action =>
    ∃ item, p.items[index]? = some item ∧ action < item.report.actions.length
  | .close | .focusDocument | .consume => True

/-- Whoever holds a letter is one of the actions. -/
theorem lt_of_holder? {actions : List Action} {c : Char} {action : Nat}
    (h : AccessKey.holder? (AccessKey.ofActions actions) c = some action) :
    action < actions.length := by
  have hlength : (AccessKey.ofActions actions).length = actions.length := by
    rw [AccessKey.ofActions, AccessKey.assign, AccessKey.length_assignFrom, List.length_map]
  rw [← hlength]
  exact (List.findIdx?_eq_some_iff_getElem.mp h).1

/-- What a letter asks for is there. -/
theorem names_letterRequest (keyed : Keyed p.items) (c : Char) (i : Nat) :
    (p.letterRequest c i).Names p := by
  unfold letterRequest
  split
  case h_1 => trivial
  case h_2 item hitem =>
    split
    case h_1 action haction =>
      rw [keyed item (List.mem_of_getElem? hitem)] at haction
      exact ⟨item, hitem, lt_of_holder? haction⟩
    case h_2 => trivial

/-- What a key asks for is there. -/
theorem names_of_request? (keyed : Keyed p.items) {request : Request}
    (h : p.request? key = some request) : request.Names p := by
  have within {f : Nat → Request} (hrequest : p.selectedIndex.map f = some request)
      (hf : ∀ i < p.items.length, (f i).Names p) : request.Names p := by
    obtain ⟨i, hi, rfl⟩ := Option.map_eq_some_iff.mp hrequest
    exact hf i (lt_of_selectedIndex hi)
  cases key with
  | escape | enter => obtain rfl := Option.some.inj h; trivial
  | arrowUp | pageUp => exact within h fun i hi => Nat.mod_lt _ (Nat.zero_lt_of_lt hi)
  | arrowDown | pageDown => exact within h fun i hi => Nat.mod_lt _ (Nat.zero_lt_of_lt hi)
  | letter c => exact within h fun i _ => names_letterRequest keyed c i
  | home =>
    obtain rfl := Option.some.inj h
    split
    case isTrue => trivial
    case isFalse h => exact length_pos_of_not_isEmpty h
  | endKey =>
    obtain rfl := Option.some.inj h
    split
    case isTrue => trivial
    case isFalse h => exact Nat.sub_one_lt (Nat.ne_of_gt (length_pos_of_not_isEmpty h))

/-- The keys that move to the next item. -/
def Key.IsDown (key : Key) : Prop := key = .arrowDown ∨ key = .pageDown

/-- The keys that move to the item before. -/
def Key.IsUp (key : Key) : Prop := key = .arrowUp ∨ key = .pageUp

/-- Where a key that moves along the list leads from the item at `index`: to the next one or the
one before on the circle of all items, to the first or to the last. -/
def Key.along? (count index : Nat) : Key → Option Int
  | .arrowDown | .pageDown => some ((index + 1 : Int) % count)
  | .arrowUp | .pageUp => some ((index - 1 : Int) % count)
  | .home => some 0
  | .endKey => some (count - 1)
  | .escape | .enter | .letter _ => none

/-- Keys that move along the list from the item at an index, one after another, with the items that
they lead to. -/
inductive Trail (count : Nat) : Nat → List Key → List Nat → Prop where
  | nil {i : Nat} : Trail count i [] []
  | cons {i j : Nat} {key : Key} {keys : List Key} {indices : List Nat}
      (leads : key.along? count i = some (j : Int)) (rest : Trail count j keys indices) :
      Trail count i (key :: keys) (j :: indices)

/-- A key that moves along the list leads to an item of it, and asks to select that. -/
theorem exists_request?_of_along? (h : p.selectedIndex = some i) {target : Int}
    (leads : key.along? p.items.length i = some target) :
    ∃ j : Nat, target = j ∧ j < p.items.length ∧ p.request? key = some (.select j) := by
  have hi := lt_of_selectedIndex h
  have hpos : 0 < p.items.length := Nat.zero_lt_of_lt hi
  have hsome : p.items.isEmpty = false :=
    List.isEmpty_eq_false_iff.mpr (List.ne_nil_of_length_pos hpos)
  cases key with
  | escape | enter | letter c => contradiction
  | arrowDown | pageDown =>
    obtain rfl := Option.some.inj leads
    refine ⟨(i + 1) % p.items.length, by push_cast; rfl, Nat.mod_lt _ hpos, ?_⟩
    rw [request?, h]
    rfl
  | arrowUp | pageUp =>
    obtain rfl := Option.some.inj leads
    refine ⟨(i + p.items.length - 1) % p.items.length, ?_, Nat.mod_lt _ hpos, ?_⟩
    · -- the length is added so that nothing is taken from zero; it does not count on the circle
      have hround : ((i + p.items.length - 1 : Nat) : Int) = (i - 1) + p.items.length := by omega
      rw [Int.natCast_emod, hround, Int.add_emod_right]
    · rw [request?, h]
      rfl
  | home =>
    obtain rfl := Option.some.inj leads
    refine ⟨0, rfl, hpos, ?_⟩
    rw [request?, hsome]
    rfl
  | endKey =>
    obtain rfl := Option.some.inj leads
    refine ⟨p.items.length - 1, by omega, by omega, ?_⟩
    rw [request?, hsome]
    rfl

/-- A key down leads to the next item. -/
theorem Key.IsDown.along? (down : key.IsDown) (count i : Nat) :
    key.along? count i = some (((i + 1) % count : Nat) : Int) := by
  rcases down with rfl | rfl <;> simp [Key.along?]

/-- A key up leads back from the next item. -/
theorem Key.IsUp.along?_succ (up : key.IsUp) (hi : i < count) :
    key.along? count ((i + 1) % count) = some (i : Int) := by
  have hback : ((((i + 1) % count : Nat) : Int) - 1) % count = i := by
    rw [Int.natCast_emod, Int.emod_sub_emod, Int.natCast_add, Int.natCast_one, Int.add_sub_cancel]
    exact Int.emod_eq_of_lt (Int.natCast_nonneg i) (Int.ofNat_lt.mpr hi)
  rcases up with rfl | rfl <;> exact congrArg some hback

/-- A key down and a key up lead back. -/
theorem trail_down_up {down up : Key} (hdown : down.IsDown) (hup : up.IsUp) (hi : i < count) :
    Trail count i [down, up] [(i + 1) % count, i] :=
  .cons (hdown.along? count i) (.cons (hup.along?_succ hi) .nil)

/-- Keys down lead from item to item. -/
theorem trail_downs (downs : ∀ key ∈ keys, key.IsDown) (count i : Nat) :
    Trail count i keys ((List.range keys.length).map fun k => (i + 1 + k) % count) := by
  induction keys generalizing i with
  | nil => exact .nil
  | cons key keys ih =>
    rw [List.length_cons, List.range_succ_eq_map, List.map_cons, List.map_map]
    obtain ⟨down, downs⟩ := List.forall_mem_cons.mp downs
    refine .cons (down.along? count i) ?_
    -- the trail goes on from an index that is reduced already
    convert ih downs ((i + 1) % count) using 2
    funext k
    rw [Function.comp_apply, Nat.add_assoc ((i + 1) % count), Nat.mod_add_mod]
    congr 1
    omega

/-- As many keys down as there are items lead once round all items. -/
theorem trail_round (downs : ∀ key ∈ keys, key.IsDown) (i : Nat) :
    Trail keys.length i keys ((List.range keys.length).rotate (i + 1)) := by
  convert trail_downs downs keys.length i using 1
  refine List.ext_getElem (by simp) fun k _ _ => ?_
  simp [List.getElem_rotate, Nat.add_comm k]

end Marginalia.Panel
