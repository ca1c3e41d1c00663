import Mathlib.Data.List.Cycle
import Mathlib.Data.List.Dedup
import Marginalia.Proofs.Extent
import Marginalia.Store.Navigation

/-!
# Going from report to report

Several annotations can stand at one place, and the editor may have anything selected. What a move
finds is said by the order of extents alone: the nearest annotation on the one side, and past the
end the one at the other end. Going forward, this leads through all places and round again from
wherever it begins. Going backward, the last annotation counts as reached already when it starts
where the editor is, wherever it stops. So the way back goes round exactly if the annotations do
not all start at one offset, and otherwise it ends at the first place.
-/

namespace Marginalia

/-- What is found first in an ordered list comes before all else that was looked for. -/
theorem rel_of_find? {α : Type} {R : α → α → Prop} {p : α → Bool} {xs : List α} {x y : α}
    (ordered : xs.Pairwise R) (self : ∀ x, R x x) (found : xs.find? p = some x) (hy : y ∈ xs)
    (holds : p y = true) : R x y := by
  obtain ⟨-, before, after, rfl, hbefore⟩ := List.find?_eq_some_iff_append.mp found
  rcases List.mem_append.mp hy with hmem | hmem
  · simpa [holds] using hbefore y hmem
  · rcases List.mem_cons.mp hmem with rfl | hmem
    · exact self y
    · exact List.rel_of_pairwise_cons (List.pairwise_append.mp ordered).2.1 hmem

namespace Store

variable {annotations : List Annotation} {cursor e first last : Extent}
  {before after : List Extent}

/-- The extents at which there are annotations, each of them once. -/
def places (annotations : List Annotation) : List Extent := (annotations.map (·.extent)).dedup

/-- A move from one selected extent finds an annotation at another. -/
def Leads (move : Extent → Option Annotation) (e e' : Extent) : Prop :=
  ∃ a, move e = some a ∧ a.extent = e'

/-- What there is to find going forward: the least annotation above, and if none is above, the first
one. -/
structure Ahead (annotations : List Annotation) (cursor : Extent) (a : Annotation) : Prop where
  above : (∃ b ∈ annotations, cursor < b.extent) →
    cursor < a.extent ∧ ∀ b ∈ annotations, cursor < b.extent → a.extent ≤ b.extent
  round : (∀ b ∈ annotations, ¬ cursor < b.extent) → annotations.head? = some a

/-- What there is to find going backward: the greatest annotation below, and if none is below, the
last one unless the editor is there. So nothing is found only by an editor at the last place of
all, or if there are no annotations. -/
structure FindsBack (annotations : List Annotation) (cursor : Extent)
    (target : Option Annotation) : Prop where
  below : (∃ b ∈ annotations, b.extent < cursor) → ∃ a ∈ annotations, target = some a ∧
    a.extent < cursor ∧ ∀ b ∈ annotations, b.extent < cursor → b.extent ≤ a.extent
  round : (∀ b ∈ annotations, cursor ≤ b.extent) → ∀ last, annotations.getLast? = some last →
    last.extent ≠ cursor → target = some last
  stays : target = none → ∀ last, annotations.getLast? = some last →
    last.extent = cursor ∧ ∀ b ∈ annotations, cursor ≤ b.extent

/-- All annotations start where the editor is and none stops before it does, but one is at another
place. -/
structure Cornered (annotations : List Annotation) (cursor : Extent) : Prop where
  within : ∀ a ∈ annotations, a.extent.start = cursor.start ∧ cursor.stop ≤ a.extent.stop
  elsewhere : ∃ a ∈ annotations, a.extent ≠ cursor

/-- The places are those of the annotations. -/
theorem mem_places_iff : e ∈ places annotations ↔ ∃ a ∈ annotations, a.extent = e := by
  rw [places, List.mem_dedup, List.mem_map]

/-- An annotation stands at one of the places. -/
theorem extent_mem_places {a : Annotation} (h : a ∈ annotations) :
    a.extent ∈ places annotations := mem_places_iff.mpr ⟨a, h, rfl⟩

/-- Nothing is above the cursor, so going forward begins again. -/
theorem following_of_not_above (h : ∀ b ∈ annotations, ¬ cursor < b.extent) :
    following annotations cursor = annotations.head?.filter (·.extent != cursor) := by
  have hnone : annotations.find? (cursor < ·.extent) = none := by simpa using h
  rw [following, hnone]
  rfl

/-- Nothing is below the cursor, so going backward begins again. -/
theorem preceding_of_not_below (h : ∀ b ∈ annotations, cursor ≤ b.extent) :
    preceding annotations cursor =
      annotations.getLast?.filter (·.extent.start != cursor.start) := by
  have hnone : annotations.reverse.find? (·.extent < cursor) = none := by
    simpa [Extent.not_lt] using h
  rw [preceding, hnone]
  rfl

/-- Where there is an annotation, there is a first one. -/
theorem exists_head? {a : Annotation} (h : a ∈ annotations) : ∃ b, annotations.head? = some b :=
  ⟨_, List.head?_eq_some_head (List.ne_nil_of_mem h)⟩

/-- Where there is an annotation, there is a last one. -/
theorem exists_getLast? {a : Annotation} (h : a ∈ annotations) :
    ∃ b, annotations.getLast? = some b :=
  ⟨_, List.getLast?_eq_some_getLast (List.ne_nil_of_mem h)⟩

section Ascending

variable (ascends : annotations.Pairwise fun a b => a.extent ≤ b.extent)

include ascends

/-- Going forward finds the least annotation above. -/
theorem exists_following_of_above (h : ∃ b ∈ annotations, cursor < b.extent) :
    ∃ a ∈ annotations, following annotations cursor = some a ∧ cursor < a.extent ∧
      ∀ b ∈ annotations, cursor < b.extent → a.extent ≤ b.extent := by
  obtain ⟨a, ha⟩ : ∃ a, annotations.find? (cursor < ·.extent) = some a := by
    rw [← Option.isSome_iff_exists, List.find?_isSome]
    simpa using h
  refine ⟨a, List.mem_of_find?_eq_some ha, by rw [following, ha]; rfl, ?_, ?_⟩
  · simpa using List.find?_some ha
  · intro b hb habove
    have hfirst := rel_of_find? ascends (fun a => Extent.le_refl a.extent) ha hb
    exact hfirst (by simpa using habove)

/-- From a place without annotations, going forward finds what is ahead. -/
theorem exists_following_of_notMem (away : cursor ∉ places annotations)
    (hne : annotations ≠ []) :
    ∃ a, following annotations cursor = some a ∧ Ahead annotations cursor a := by
  by_cases habove : ∃ b ∈ annotations, cursor < b.extent
  · obtain ⟨a, -, found, hlt, hleast⟩ := exists_following_of_above ascends habove
    obtain ⟨b, hb, hcursor⟩ := habove
    exact ⟨a, found, fun _ => ⟨hlt, hleast⟩, fun hnone => absurd hcursor (hnone b hb)⟩
  · obtain ⟨first, hfirst⟩ : ∃ first, annotations.head? = some first :=
      ⟨_, List.head?_eq_some_head hne⟩
    have hnone : ∀ b ∈ annotations, ¬ cursor < b.extent := fun b hb hlt => habove ⟨b, hb, hlt⟩
    have helsewhere : first.extent ≠ cursor := fun heq =>
      away (heq ▸ extent_mem_places (List.mem_of_head? hfirst))
    refine ⟨first, ?_, fun h => absurd h habove, fun _ => hfirst⟩
    rw [following_of_not_above hnone, hfirst, Option.filter_some_pos (by simpa using helsewhere)]

/-- Going backward finds the greatest annotation below. -/
theorem exists_preceding_of_below (h : ∃ b ∈ annotations, b.extent < cursor) :
    ∃ a ∈ annotations, preceding annotations cursor = some a ∧ a.extent < cursor ∧
      ∀ b ∈ annotations, b.extent < cursor → b.extent ≤ a.extent := by
  obtain ⟨a, ha⟩ : ∃ a, annotations.reverse.find? (·.extent < cursor) = some a := by
    rw [← Option.isSome_iff_exists, List.find?_isSome]
    simpa using h
  refine ⟨a, List.mem_reverse.mp (List.mem_of_find?_eq_some ha), by rw [preceding, ha]; rfl, ?_, ?_⟩
  · simpa using List.find?_some ha
  · intro b hb hbelow
    have hfirst := rel_of_find? (List.pairwise_reverse.mpr ascends)
      (fun a => Extent.le_refl a.extent) ha (List.mem_reverse.mpr hb)
    exact hfirst (by simpa using hbelow)

/-- The first annotation is below all others. -/
theorem extent_head_le {a b : Annotation} (ha : annotations.head? = some a)
    (hb : b ∈ annotations) : a.extent ≤ b.extent := by
  obtain ⟨rest, rfl⟩ := List.head?_eq_some_iff.mp ha
  rcases List.mem_cons.mp hb with rfl | hb
  · exact Extent.le_refl _
  · exact List.rel_of_pairwise_cons ascends hb

/-- The last annotation is above all others. -/
theorem le_extent_getLast {a b : Annotation} (ha : annotations.getLast? = some a)
    (hb : b ∈ annotations) : b.extent ≤ a.extent := by
  rw [List.getLast?_eq_head?_reverse] at ha
  obtain ⟨rest, hrest⟩ := List.head?_eq_some_iff.mp ha
  have hb := List.mem_reverse.mpr hb
  have descends := List.pairwise_reverse.mpr ascends
  rw [hrest] at hb descends
  rcases List.mem_cons.mp hb with rfl | hb
  · exact Extent.le_refl _
  · exact List.rel_of_pairwise_cons descends hb

/-- Going backward finds nothing exactly if all annotations start where the editor is, and none
stops before it does. -/
theorem preceding_eq_none_iff : preceding annotations cursor = none ↔
    ∀ a ∈ annotations, a.extent.start = cursor.start ∧ cursor.stop ≤ a.extent.stop := by
  by_cases hbelow : ∃ b ∈ annotations, b.extent < cursor
  · obtain ⟨a, -, ha, -⟩ := exists_preceding_of_below ascends hbelow
    obtain ⟨b, hb, hlt⟩ := hbelow
    refine iff_of_false (by simp [ha]) fun h => ?_
    have hstarts := h b hb
    rw [Extent.lt_def] at hlt
    omega
  · have hnone : ∀ b ∈ annotations, cursor ≤ b.extent := fun b hb =>
      Extent.not_lt.mp fun hlt => hbelow ⟨b, hb, hlt⟩
    rw [preceding_of_not_below hnone, Option.filter_eq_none_iff]
    constructor
    · intro h a ha
      obtain ⟨last, hlast⟩ := exists_getLast? ha
      have hstart : last.extent.start = cursor.start := by simpa using h last hlast
      have hle := le_extent_getLast ascends hlast ha
      have hcursor := hnone a ha
      rw [Extent.le_def] at hle hcursor
      omega
    · intro h last hlast
      simpa using (h last (List.mem_of_getLast? hlast)).1

/-- Each place is below those after it. -/
theorem places_pairwise : (places annotations).Pairwise (· < ·) := by
  have hle : (annotations.map (·.extent)).Pairwise (· ≤ ·) := List.pairwise_map.mpr ascends
  have hsorted := (hle.sublist (List.dedup_sublist _)).and (List.nodup_dedup _)
  exact hsorted.imp fun h => Extent.lt_of_le_of_ne h.1 h.2

/-- The place of the first annotation is the first place. -/
theorem extent_head_eq {a : Annotation} {rest : List Extent} (ha : annotations.head? = some a)
    (hplaces : places annotations = first :: rest) : a.extent = first := by
  obtain ⟨b, hb, rfl⟩ : ∃ b ∈ annotations, b.extent = first :=
    mem_places_iff.mp (by simp [hplaces])
  have hmem := extent_mem_places (List.mem_of_head? ha)
  have hordered := places_pairwise ascends
  rw [hplaces] at hmem hordered
  refine Extent.le_antisymm (extent_head_le ascends ha hb) ?_
  rcases List.mem_cons.mp hmem with heq | hmem
  · rw [heq]
    exact Extent.le_refl _
  · exact Extent.le_of_lt (List.rel_of_pairwise_cons hordered hmem)

/-- The place of the last annotation is the last place. -/
theorem extent_getLast_eq {a : Annotation} {front : List Extent}
    (ha : annotations.getLast? = some a) (hplaces : places annotations = front ++ [last]) :
    a.extent = last := by
  obtain ⟨b, hb, rfl⟩ : ∃ b ∈ annotations, b.extent = last :=
    mem_places_iff.mp (by simp [hplaces])
  have hmem := extent_mem_places (List.mem_of_getLast? ha)
  have hordered := places_pairwise ascends
  rw [hplaces] at hmem hordered
  refine Extent.le_antisymm ?_ (le_extent_getLast ascends ha hb)
  rcases List.mem_append.mp hmem with hmem | hmem
  · exact Extent.le_of_lt ((List.pairwise_append.mp hordered).2.2 _ hmem _ List.mem_cons_self)
  · rw [List.mem_singleton.mp hmem]
    exact Extent.le_refl _

/-- The first annotation is at the first place and the last one at the last, with all others between
them. -/
theorem exists_ends (hfirst : (places annotations).head? = some first)
    (hlast : (places annotations).getLast? = some last) :
    ∃ a b, annotations.head? = some a ∧ annotations.getLast? = some b ∧ a.extent = first ∧
      b.extent = last ∧ ∀ c ∈ annotations, first ≤ c.extent ∧ c.extent ≤ last := by
  obtain ⟨rest, hrest⟩ := List.head?_eq_some_iff.mp hfirst
  obtain ⟨front, hfront⟩ := List.getLast?_eq_some_iff.mp hlast
  obtain ⟨c, hc, -⟩ := mem_places_iff.mp (List.mem_of_head? hfirst)
  obtain ⟨a, ha⟩ := exists_head? hc
  obtain ⟨b, hb⟩ := exists_getLast? hc
  obtain rfl := extent_head_eq ascends ha hrest
  obtain rfl := extent_getLast_eq ascends hb hfront
  refine ⟨a, b, ha, hb, rfl, rfl, fun c hc => ?_⟩
  exact ⟨extent_head_le ascends ha hc, le_extent_getLast ascends hb hc⟩

/-- There is no annotation between two neighbouring places. -/
theorem le_or_le_of_neighbours {a : Annotation} {next : Extent} (ha : a ∈ annotations)
    (hplaces : places annotations = before ++ e :: next :: after) :
    a.extent ≤ e ∨ next ≤ a.extent := by
  have hmem := extent_mem_places ha
  have hordered := places_pairwise ascends
  rw [hplaces] at hmem hordered
  obtain ⟨-, hbehind, hbefore⟩ := List.pairwise_append.mp hordered
  rcases List.mem_append.mp hmem with hmem | hmem
  · exact Or.inl (Extent.le_of_lt (hbefore _ hmem e List.mem_cons_self))
  · rcases List.mem_cons.mp hmem with heq | hmem
    · exact Or.inl (heq ▸ Extent.le_refl _)
    · rcases List.mem_cons.mp hmem with heq | hmem
      · exact Or.inr (heq ▸ Extent.le_refl _)
      · exact Or.inr (Extent.le_of_lt (List.rel_of_pairwise_cons hbehind.of_cons hmem))

/-- Going forward leads from each place to the next one. -/
theorem isChain_following :
    (places annotations).IsChain (Leads (following annotations)) := by
  rw [List.isChain_iff_forall_rel_of_append_cons_cons]
  intro e next before after hplaces
  have hordered := places_pairwise ascends
  rw [hplaces] at hordered
  have hlt : e < next :=
    List.rel_of_pairwise_cons (List.pairwise_append.mp hordered).2.1 List.mem_cons_self
  obtain ⟨b, hb, rfl⟩ : ∃ b ∈ annotations, b.extent = next :=
    mem_places_iff.mp (by simp [hplaces])
  obtain ⟨a, ha, hfound, habove, hleast⟩ := exists_following_of_above ascends ⟨b, hb, hlt⟩
  refine ⟨a, hfound, Extent.le_antisymm (hleast b hb hlt) ?_⟩
  exact (le_or_le_of_neighbours ascends ha hplaces).resolve_left (Extent.not_le.mpr habove)

/-- Going backward leads from each place to the one before. -/
theorem isChain_preceding :
    (places annotations).reverse.IsChain (Leads (preceding annotations)) := by
  rw [List.isChain_reverse, List.isChain_iff_forall_rel_of_append_cons_cons]
  intro e next before after hplaces
  have hordered := places_pairwise ascends
  rw [hplaces] at hordered
  have hlt : e < next :=
    List.rel_of_pairwise_cons (List.pairwise_append.mp hordered).2.1 List.mem_cons_self
  obtain ⟨b, hb, rfl⟩ : ∃ b ∈ annotations, b.extent = e :=
    mem_places_iff.mp (by simp [hplaces])
  obtain ⟨a, ha, hfound, hbelow, hgreatest⟩ := exists_preceding_of_below ascends ⟨b, hb, hlt⟩
  refine ⟨a, hfound, Extent.le_antisymm ?_ (hgreatest b hb hlt)⟩
  exact (le_or_le_of_neighbours ascends ha hplaces).resolve_right (Extent.not_le.mpr hbelow)

/-- Going forward from the last place leads to the first one. -/
theorem leads_following_round (hfirst : (places annotations).head? = some first)
    (hlast : (places annotations).getLast? = some last) (hne : first ≠ last) :
    Leads (following annotations) last first := by
  obtain ⟨a, -, ha, -, hplace, -, between⟩ := exists_ends ascends hfirst hlast
  have hnone : ∀ c ∈ annotations, ¬ last < c.extent := fun c hc =>
    Extent.not_lt.mpr (between c hc).2
  refine ⟨a, ?_, hplace⟩
  rw [following_of_not_above hnone, ha, Option.filter_some_pos (by simpa [hplace] using hne)]

/-- Going backward from the first place leads to the last one if that has another start. -/
theorem leads_preceding_round_iff (hfirst : (places annotations).head? = some first)
    (hlast : (places annotations).getLast? = some last) :
    Leads (preceding annotations) first last ↔ last.start ≠ first.start := by
  obtain ⟨-, b, -, hb, -, hplace, between⟩ := exists_ends ascends hfirst hlast
  have hnone : ∀ c ∈ annotations, first ≤ c.extent := fun c hc => (between c hc).1
  rw [Leads, preceding_of_not_below hnone, hb, Option.filter_some, hplace]
  by_cases hstart : last.start = first.start
  · simp [hstart]
  · simp [hstart, hplace]

/-- Of several places, the first is below the last. -/
theorem exists_first_lt_last (several : 1 < (places annotations).length) :
    ∃ first last, (places annotations).head? = some first ∧
      (places annotations).getLast? = some last ∧ first < last := by
  have hordered := places_pairwise ascends
  rcases hplaces : places annotations with _ | ⟨first, _ | ⟨second, rest⟩⟩
  · simp [hplaces] at several
  · simp [hplaces] at several
  · obtain ⟨last, hlast⟩ : ∃ last, (second :: rest).getLast? = some last :=
      Option.isSome_iff_exists.mp (by simp)
    rw [hplaces] at hordered
    refine ⟨first, last, rfl, by rw [List.getLast?_cons_cons, hlast], ?_⟩
    exact List.rel_of_pairwise_cons hordered (List.mem_of_getLast? hlast)

/-- All annotations start between the first place and the last one. -/
theorem starts_differ_iff (hfirst : (places annotations).head? = some first)
    (hlast : (places annotations).getLast? = some last) : last.start ≠ first.start ↔
      ∃ a ∈ annotations, ∃ b ∈ annotations, a.extent.start ≠ b.extent.start := by
  obtain ⟨a, b, ha, hb, rfl, rfl, between⟩ := exists_ends ascends hfirst hlast
  constructor
  · exact fun h => ⟨b, List.mem_of_getLast? hb, a, List.mem_of_head? ha, h⟩
  · rintro ⟨c, hc, d, hd, hne⟩ hsame
    obtain ⟨hc, hc'⟩ := between c hc
    obtain ⟨hd, hd'⟩ := between d hd
    rw [Extent.le_def] at hc hc' hd hd'
    omega

/-- The editor is cornered exactly if going backward finds nothing although there is an annotation
elsewhere. -/
theorem cornered_iff : Cornered annotations cursor ↔
    preceding annotations cursor = none ∧ ∃ a ∈ annotations, a.extent ≠ cursor := by
  rw [preceding_eq_none_iff ascends]
  exact ⟨fun h => ⟨h.within, h.elsewhere⟩, fun h => ⟨h.1, h.2⟩⟩

/-- Going backward finds what there is to find unless the editor is cornered. -/
theorem findsBack_preceding_iff :
    FindsBack annotations cursor (preceding annotations cursor) ↔
      ¬ Cornered annotations cursor := by
  rw [cornered_iff ascends]
  constructor
  · rintro ⟨-, -, stays⟩ ⟨hnone, a, ha, hne⟩
    obtain ⟨last, hlast⟩ := exists_getLast? ha
    obtain ⟨hplace, habove⟩ := stays hnone last hlast
    exact hne (Extent.le_antisymm (hplace ▸ le_extent_getLast ascends hlast ha) (habove a ha))
  · intro h
    refine ⟨exists_preceding_of_below ascends, fun hnone last hlast hne => ?_,
      fun hnone last hlast => ?_⟩
    · rw [preceding_of_not_below hnone, hlast] at h ⊢
      refine Option.filter_eq_some_iff.mpr ⟨rfl, ?_⟩
      by_contra hsame
      exact h ⟨Option.filter_some_neg (by simpa using hsame), last, List.mem_of_getLast? hlast, hne⟩
    · have hall := (preceding_eq_none_iff ascends).mp hnone
      refine ⟨Decidable.not_not.mp fun hne => h ⟨hnone, last, List.mem_of_getLast? hlast, hne⟩,
        fun b hb => ?_⟩
      have hb := hall b hb
      rw [Extent.le_def]
      omega

end Ascending

section Round

variable {R : Extent → Extent → Prop} {cycle : List Extent}

/-- A way round goes from each place of a list to the next and from the last to the first. -/
theorem chain_iff (hfirst : cycle.head? = some first) (hlast : cycle.getLast? = some last) :
    Cycle.Chain R (cycle : Cycle Extent) ↔ cycle.IsChain R ∧ R last first := by
  obtain ⟨rest, rfl⟩ := List.head?_eq_some_iff.mp hfirst
  rw [Cycle.chain_coe_cons, ← List.cons_append, List.isChain_append]
  simp [hlast]

/-- A way round can begin at each of its places. -/
theorem chain_append_cons_iff : Cycle.Chain R (before ++ e :: after : List Extent) ↔
    (e :: (after ++ before ++ [e])).IsChain R := by
  have hturned : ((before ++ e :: after : List Extent) : Cycle Extent) =
      ((e :: (after ++ before) : List Extent) : Cycle Extent) :=
    Cycle.coe_eq_coe.mpr List.isRotated_append
  rw [hturned, Cycle.chain_coe_cons]

end Round

/-- A place that is not alone is one of several. -/
theorem one_lt_length_places (hplaces : places annotations = before ++ e :: after)
    (others : after ++ before ≠ []) : 1 < (places annotations).length := by
  have hpos := List.length_pos_iff.mpr others
  simp only [hplaces, List.length_append, List.length_cons] at hpos ⊢
  omega

section Ascending

variable (ascends : annotations.Pairwise fun a b => a.extent ≤ b.extent)

include ascends

/-- Going forward goes round all places. -/
theorem chain_following (several : 1 < (places annotations).length) :
    Cycle.Chain (Leads (following annotations)) (places annotations) := by
  obtain ⟨first, last, hfirst, hlast, hlt⟩ := exists_first_lt_last ascends several
  rw [chain_iff hfirst hlast]
  refine ⟨isChain_following ascends, leads_following_round ascends hfirst hlast ?_⟩
  rintro rfl
  exact Extent.lt_irrefl first hlt

/-- Going backward goes round all places unless they have one start. -/
theorem chain_preceding_iff (several : 1 < (places annotations).length) :
    Cycle.Chain (Leads (preceding annotations)) (places annotations).reverse ↔
      ∃ a ∈ annotations, ∃ b ∈ annotations, a.extent.start ≠ b.extent.start := by
  obtain ⟨first, last, hfirst, hlast, -⟩ := exists_first_lt_last ascends several
  rw [chain_iff (List.head?_reverse.trans hlast) (List.getLast?_reverse.trans hfirst),
    leads_preceding_round_iff ascends hfirst hlast, starts_differ_iff ascends hfirst hlast]
  exact and_iff_right (isChain_preceding ascends)

/-- At a single place there is nothing to go to. -/
theorem moves_eq_none_of_alone (alone : places annotations = [e]) :
    following annotations e = none ∧ preceding annotations e = none := by
  have hsame : ∀ a ∈ annotations, a.extent = e := fun a ha => by
    simpa [alone] using extent_mem_places ha
  constructor
  · rw [following_of_not_above fun b hb => hsame b hb ▸ Extent.lt_irrefl _,
      Option.filter_eq_none_iff]
    intro a ha
    simpa using hsame a (List.mem_of_head? ha)
  · rw [preceding_eq_none_iff ascends]
    intro a ha
    rw [hsame a ha]
    exact ⟨rfl, Nat.le_refl _⟩

/-- Going forward from one of several places leads through those above and then through those below
it. -/
theorem isChain_following_round (hplaces : places annotations = before ++ e :: after)
    (others : after ++ before ≠ []) :
    (e :: (after ++ before ++ [e])).IsChain (Leads (following annotations)) := by
  rw [← chain_append_cons_iff, ← hplaces]
  exact chain_following ascends (one_lt_length_places hplaces others)

/-- Going backward leads through the same places the other way round, unless all have one start. -/
theorem isChain_preceding_round_iff (hplaces : places annotations = before ++ e :: after)
    (others : after ++ before ≠ []) :
    (e :: ((after ++ before).reverse ++ [e])).IsChain (Leads (preceding annotations)) ↔
      ∃ a ∈ annotations, ∃ b ∈ annotations, a.extent.start ≠ b.extent.start := by
  have hback : (places annotations).reverse = after.reverse ++ e :: before.reverse := by
    simp [hplaces]
  rw [List.reverse_append, ← chain_append_cons_iff, ← hback]
  exact chain_preceding_iff ascends (one_lt_length_places hplaces others)

/-- In a list of annotations in order, with the editor anywhere, going backward finds the greatest
annotation below it, or else the last one, exactly if the editor is not cornered. It finds nothing
if it is. From each of several places, going forward leads once through the places above, then
through those below, and comes back. Going backward leads through the same places the other way
round exactly if the annotations do not all start at one offset. At a single place both find
nothing. -/
theorem preceding_goes_round_iff :
    (∀ cursor, (FindsBack annotations cursor (preceding annotations cursor) ↔
        ¬ Cornered annotations cursor) ∧
      (Cornered annotations cursor → preceding annotations cursor = none)) ∧
    ∀ before e after, places annotations = before ++ e :: after →
      (after ++ before = [] → following annotations e = none ∧ preceding annotations e = none) ∧
      (after ++ before ≠ [] →
        (e :: (after ++ before ++ [e])).IsChain (Leads (following annotations)) ∧
        ((e :: ((after ++ before).reverse ++ [e])).IsChain (Leads (preceding annotations)) ↔
          ∃ a ∈ annotations, ∃ b ∈ annotations, a.extent.start ≠ b.extent.start)) := by
  constructor
  · intro cursor
    exact ⟨findsBack_preceding_iff ascends, fun h => ((cornered_iff ascends).mp h).1⟩
  · intro before e after hplaces
    refine ⟨fun alone => ?_, fun others => ⟨isChain_following_round ascends hplaces others,
      isChain_preceding_round_iff ascends hplaces others⟩⟩
    obtain ⟨rfl, rfl⟩ := List.append_eq_nil_iff.mp alone
    exact moves_eq_none_of_alone ascends hplaces

end Ascending

/-- Two of three places start alike, one of them with two annotations. The way back from the first
place leads through the last one. -/
theorem preceding_goes_round_iff_three_places :
    let r (n : Nat) : Report := ⟨.error ⟨"main", ⟨0, 5⟩⟩ "wrong", .host n⟩
    let annotations : List Annotation := [⟨⟨0, 2⟩, .mark, r 0⟩, ⟨⟨0, 5⟩, .mark, r 1⟩,
      ⟨⟨0, 5⟩, .mark, r 2⟩, ⟨⟨3, 3⟩, .point, r 3⟩]
    (annotations.Pairwise fun a b => a.extent ≤ b.extent) ∧
      FindsBack annotations ⟨0, 0⟩ (some ⟨⟨3, 3⟩, .point, r 3⟩) ∧
      [⟨0, 2⟩, ⟨3, 3⟩, ⟨0, 5⟩, ⟨0, 2⟩].IsChain (Leads (preceding annotations)) := by
  intro r annotations
  have ascends : annotations.Pairwise fun a b => a.extent ≤ b.extent := by decide
  obtain ⟨finds, round⟩ := preceding_goes_round_iff ascends
  have free : ¬ Cornered annotations ⟨0, 0⟩ := fun h => by
    simpa using (h.within ⟨⟨3, 3⟩, .point, r 3⟩ (by simp [annotations])).1
  refine ⟨ascends, (finds ⟨0, 0⟩).1.mpr free, ?_⟩
  exact ((round [] ⟨0, 2⟩ [⟨0, 5⟩, ⟨3, 3⟩] (by decide)).2 nofun).2.mpr
    ⟨_, List.mem_cons_self, ⟨⟨3, 3⟩, .point, r 3⟩, by simp [annotations], nofun⟩

/-- Two annotations start alike. Going backward from the first one finds nothing, and does not lead
on to the other. -/
theorem preceding_stops_at_first :
    let r (n : Nat) : Report := ⟨.error ⟨"main", ⟨0, 5⟩⟩ "wrong", .host n⟩
    let annotations : List Annotation := [⟨⟨0, 2⟩, .mark, r 0⟩, ⟨⟨0, 5⟩, .mark, r 1⟩]
    (annotations.Pairwise fun a b => a.extent ≤ b.extent) ∧
      preceding annotations ⟨0, 2⟩ = none ∧
      ¬ FindsBack annotations ⟨0, 2⟩ (preceding annotations ⟨0, 2⟩) ∧
      [⟨0, 2⟩, ⟨0, 5⟩, ⟨0, 2⟩].IsChain (Leads (following annotations)) ∧
      ¬ [⟨0, 2⟩, ⟨0, 5⟩, ⟨0, 2⟩].IsChain (Leads (preceding annotations)) := by
  intro r annotations
  have ascends : annotations.Pairwise fun a b => a.extent ≤ b.extent := by decide
  have hnone : preceding annotations ⟨0, 2⟩ = none := by decide
  refine ⟨ascends, hnone, fun finds => ?_, ?_, fun chain => ?_⟩
  · exact absurd (finds.stays hnone ⟨⟨0, 5⟩, .mark, r 1⟩ rfl).1 (by decide)
  · exact .cons_cons ⟨_, rfl, rfl⟩ (.cons_cons ⟨_, rfl, rfl⟩ (.singleton _))
  · obtain ⟨a, ha, -⟩ := (List.isChain_cons_cons.mp chain).1
    simp [hnone] at ha

end Store

end Marginalia
