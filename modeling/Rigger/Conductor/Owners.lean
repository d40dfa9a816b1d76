import Rigger.Conductor.Baseline
import Rigger.Conductor.Harvests

/-!
# The owners of a criterion

What serves a criterion after a harvest: its baseline until a unit is added for it, then the added
units that no later addition for it outranked.  An addition of an earlier episode than the owners'
removes none of them, and stands beside them (`owned_by_two_episodes`); where the additions come in
the order of their episodes, those of the latest one own the criterion.
-/

namespace Rigger.Conductor.Proposed

open Lib

namespace Planning
variable (c : Planning) (ds : List Dated)

/-- The additions for a criterion. -/
def arrivalsFor (k : String) : List Dated := (c.arrivals ds).filter fun x =>
    c.reading.serves x.2 == k

/-- An addition for the criterion that no later one outranked. -/
def Owns (k : String) (x : Dated) : Prop :=
  x ∈ c.arrivalsFor ds k ∧ ¬Removed (c.Beats (orderOf (taken ds))) (c.arrivals ds) x

def Serves (stages : Stages) (k name : String) : Prop :=
  ∃ st, stages[name]? = some st ∧ st.criterionId = k

/-- The additions for the criterion come in the order of their episodes, and every proposal of a
unit of it is of the episode that added the unit. -/
structure InOrder (k : String) : Prop where
  sorted : (c.arrivalsFor ds k).Pairwise fun x y =>
    tier (orderOf (taken ds)) x.2.episode ≤ tier (orderOf (taken ds)) y.2.episode
  steady : ∀ x ∈ c.arrivalsFor ds k, ∀ u ∈ taken ds, u.id = x.2.id → u.episode = x.2.episode

/-- Who serves a criterion, over the additions of the log: its baseline until one is added for it,
then the additions no later one outranked; in order, those of the latest episode. -/
structure Owned (stages : Stages) (k : String) : Prop where
  single : ∀ name name', Serves c.baseStages k name → Serves c.baseStages k name' → name = name'
  baseline : c.arrivalsFor ds k = [] → ∀ name, Serves stages k name ↔ Serves c.baseStages k name
  units : c.arrivalsFor ds k ≠ [] → ∀ name, Serves stages k name ↔ ∃ x,
    c.Owns ds k x ∧ x.2.id = name
  latest : c.arrivalsFor ds k ≠ [] → c.InOrder ds k → ∃ x ∈ c.arrivalsFor ds k,
    (∀ y ∈ c.arrivalsFor ds k,
      tier (orderOf (taken ds)) y.2.episode ≤ tier (orderOf (taken ds)) x.2.episode) ∧
    ∀ name, Serves stages k name ↔ ∃ y ∈ c.arrivalsFor ds k,
      y.2.episode = x.2.episode ∧ y.2.id = name

/-- What an act's harvest meets where no unit has started: no stage of a criterion has ended, and no
proposal has the name of a baseline that another takes over. -/
structure Quiet (w : World) (a : Act) : Prop where
  undisturbed : c.Undisturbed w a
  baselines : ∀ d ds, c.before w a = some (d, ds) → ∀ name st, c.baseStages[name]? = some st →
    st.baseline = true → d.ended name = false

variable {c} {ds : List Dated} {stages : Stages} {proposed : Finset String} {k : String}

/-! ## The stages of the start -/

theorem base_single (hk : k ≠ "") {name name' : String} (h : Serves c.baseStages k name)
    (h' : Serves c.baseStages k name') : name = name' := by
  obtain ⟨st, hst, rfl⟩ := h
  obtain ⟨st', hst', hid⟩ := h'
  rcases c.baseStages_cases hst with hauthored | ⟨t, needs, i, criterion, hi, rfl, rfl⟩
  · exact absurd (c.workflow.authored _ _ hauthored).2.1 hk
  · rcases c.baseStages_cases hst' with hauthored | ⟨t', needs', j, criterion', hj, rfl, rfl⟩
    · rw [(c.workflow.authored _ _ hauthored).2.1] at hid
      exact absurd hid.symm hk
    · have hij : j + 1 = i + 1 := criterionStableId_inj hid
      obtain rfl : j = i := by omega
      rw [hi] at hj
      cases hj
      rfl

/-! ## After the additions -/

theorem tier_inj {order : List String} {a b : String} (hb : b ∈ order)
    (h : tier order a = tier order b) : a = b := by
  unfold tier at h
  cases ha : a.isEmpty <;> cases hb' : b.isEmpty <;> simp only [ha, hb', if_true] at h
  · have hidx : order.idxOf b = order.idxOf a := by simpa using h.symm
    exact ((List.idxOf_inj hb).1 hidx).symm
  · cases h
  · cases h
  · rw [String.isEmpty_iff] at ha hb'
    rw [ha, hb']

variable {x : Dated}

theorem mem_arrivalsFor :
    x ∈ c.arrivalsFor ds k ↔ x ∈ c.arrivals ds ∧ c.reading.serves x.2 = k := by
  unfold arrivalsFor
  rw [List.mem_filter, beq_iff_eq]

theorem nodup_arrivals : (c.arrivals ds).Nodup :=
  (List.Nodup.of_map _ (nodup_firsts_map ds)).filter _

theorem owns_iff : c.Owns ds k x ↔
    x ∈ c.arrivalsFor ds k ∧ ¬Removed (c.Beats (orderOf (taken ds))) (c.arrivalsFor ds k) x := by
  unfold Owns
  refine and_congr_right fun hx => not_congr ?_
  have hserves := (mem_arrivalsFor.1 hx).2
  refine (removed_filter (fun y hbeats => ?_) ?_).symm
  · rw [beq_iff_eq, hbeats.1, hserves]
  · rw [beq_iff_eq, hserves]

theorem exists_owns (h : c.arrivalsFor ds k ≠ []) : ∃ x, c.Owns ds k x := by
  obtain ⟨before, x, hlast⟩ := (List.eq_nil_or_concat _).resolve_left h
  have hnodup : (c.arrivalsFor ds k).Nodup := nodup_arrivals.filter _
  rw [List.concat_eq_append] at hlast
  rw [hlast] at hnodup
  refine ⟨x, owns_iff.2 ⟨?_, ?_⟩⟩
  · rw [hlast]
    exact List.mem_append_cons_self
  · rw [hlast]
    exact not_removed_getLast hnodup

variable {log : List Event}

/-- In order, an addition beats the earlier ones of its criterion that are of an earlier episode. -/
theorem InOrder.beats_iff (h : c.InOrder ds k) (hk : k ≠ "") (htaken : taken ds = proposals log)
    {y : Dated} (hx : x ∈ c.arrivalsFor ds k) (hy : y ∈ c.arrivalsFor ds k)
    (hknows : Knows log x y) :
    c.Beats (orderOf (taken ds)) y x ↔
      tier (orderOf (taken ds)) x.2.episode < tier (orderOf (taken ds)) y.2.episode := by
  obtain ⟨us, hfinal, hmem, hus⟩ := hknows
  obtain ⟨harrival, hserves⟩ := mem_arrivalsFor.1 hx
  have hid : x.2.id ≠ "" := (adds_iff.1 (mem_of_mem_arrivals harrival).2).1
  have hepisode : y.1.final x.2.id = some x.2.episode := by
    rw [hfinal]
    refine finalEpisode_of_forall hmem hid fun v hv hsame => ?_
    exact h.steady x hx v (htaken ▸ hus hv) hsame
  unfold Beats
  rw [hepisode, Option.getD_some, yields_iff, (mem_arrivalsFor.1 hy).2, hserves]
  exact ⟨fun hbeats => hbeats.2.2, fun hlt => ⟨rfl, hk, hlt⟩⟩

theorem InOrder.owns_iff (h : c.InOrder ds k) (hk : k ≠ "") (htagged : Tagged log ds)
    (htaken : taken ds = proposals log) : c.Owns ds k x ↔
      x ∈ c.arrivalsFor ds k ∧ ∀ y ∈ c.arrivalsFor ds k,
        tier (orderOf (taken ds)) y.2.episode ≤ tier (orderOf (taken ds)) x.2.episode := by
  rw [Planning.owns_iff]
  refine and_congr_right fun hx => ?_
  have hsub : (c.arrivalsFor ds k).Sublist ds :=
    List.filter_sublist.trans (List.filter_sublist.trans (firsts_sublist ds))
  have hknows : (c.arrivalsFor ds k).Pairwise (Knows log) := htagged.knows.sublist hsub
  refine not_removed_iff_of_sorted ?_ h.sorted hx
  exact hknows.imp_of_mem fun ha hb hab => h.beats_iff hk htaken ha hb hab

namespace Harvested

theorem serves_baseline (h : c.Harvested ds stages proposed) (hk : k ≠ "")
    (hnone : c.arrivalsFor ds k = []) (name : String) :
    Serves stages k name ↔ Serves c.baseStages k name := by
  have hout : ∀ x ∈ c.arrivals ds, c.reading.serves x.2 ≠ k := by
    intro x hx hserves
    have hmem := mem_arrivalsFor.2 ⟨hx, hserves⟩
    rw [hnone] at hmem
    cases hmem
  constructor
  · rintro ⟨st, hst, hserves⟩
    cases hbase : c.baseStages[name]? with
    | some base =>
      by_cases hvacated : c.Vacated ds name
      · rw [h.vacated name hvacated] at hst
        cases hst
      · rw [h.kept name base hbase hvacated] at hst
        cases hst
        exact ⟨st, hbase, hserves⟩
    | none =>
      have hcontains : c.baseStages.contains name = false := by
        rw [Std.ExtTreeMap.contains_eq_isSome_getElem?, hbase]
        rfl
      obtain ⟨x, hx, -, -, rfl⟩ := (h.unit name hcontains st).1 hst
      rw [tended_criterionId] at hserves
      exact absurd hserves (hout x hx)
  · rintro ⟨st, hst, rfl⟩
    refine ⟨st, h.kept name st hst ?_, rfl⟩
    rintro ⟨st', hst', -, x, hx, hserves, -⟩
    rw [hst] at hst'
    cases hst'
    exact hout x hx hserves

theorem vacated_of_arrival (hcalm : c.Calm ds) (hk : k ≠ "") (hsome : c.arrivalsFor ds k ≠ [])
    {name : String} (hbase : Serves c.baseStages k name) : c.Vacated ds name := by
  obtain ⟨st, hst, hserves⟩ := hbase
  have hb : st.baseline = true := by
    by_contra hb
    rw [Bool.not_eq_true] at hb
    exact hk (hserves.symm.trans (c.authored_criterionId hst hb))
  obtain ⟨x, hx⟩ := List.exists_mem_of_ne_nil _ hsome
  obtain ⟨harrival, hx⟩ := mem_arrivalsFor.1 hx
  exact ⟨st, hst, hb, x, harrival, hx.trans hserves.symm,
    hcalm x (mem_of_mem_arrivals harrival).1 name st hst hb⟩

theorem serves_units (h : c.Harvested ds stages proposed) (hcalm : c.Calm ds) (hk : k ≠ "")
    (hsome : c.arrivalsFor ds k ≠ []) (name : String) :
    Serves stages k name ↔ ∃ x, c.Owns ds k x ∧ x.2.id = name := by
  constructor
  · rintro ⟨st, hst, hserves⟩
    cases hbase : c.baseStages[name]? with
    | some base =>
      have hnot : ¬c.Vacated ds name := by
        intro hvacated
        rw [h.vacated name hvacated] at hst
        cases hst
      rw [h.kept name base hbase hnot] at hst
      cases hst
      exact absurd (vacated_of_arrival hcalm hk hsome ⟨st, hbase, hserves⟩) hnot
    | none =>
      have hcontains : c.baseStages.contains name = false := by
        rw [Std.ExtTreeMap.contains_eq_isSome_getElem?, hbase]
        rfl
      obtain ⟨x, hx, hid, hnot, rfl⟩ := (h.unit name hcontains st).1 hst
      rw [tended_criterionId] at hserves
      exact ⟨x, ⟨mem_arrivalsFor.2 ⟨hx, hserves⟩, hnot⟩, hid⟩
  · rintro ⟨x, ⟨hx, hnot⟩, rfl⟩
    obtain ⟨harrival, hserves⟩ := mem_arrivalsFor.1 hx
    have hcontains := (adds_iff.1 (mem_of_mem_arrivals harrival).2).2.1
    refine ⟨c.tended ds x.2, (h.unit _ hcontains _).2 ⟨x, harrival, rfl, hnot, rfl⟩, ?_⟩
    rw [tended_criterionId, hserves]

theorem owned {log : List Event} (h : c.Harvested ds stages proposed) (hcalm : c.Calm ds)
    (htagged : Tagged log ds) (htaken : taken ds = proposals log) (hk : k ≠ "") :
    c.Owned ds stages k where
  single _ _ := base_single hk
  baseline hnone := h.serves_baseline hk hnone
  units hsome := h.serves_units hcalm hk hsome
  latest hsome horder := by
    obtain ⟨x, hx⟩ := exists_owns hsome
    obtain ⟨hmem, hmax⟩ := (horder.owns_iff hk htagged htaken).1 hx
    refine ⟨x, hmem, hmax, fun name => ?_⟩
    rw [h.serves_units hcalm hk hsome name]
    constructor
    · rintro ⟨y, hy, rfl⟩
      obtain ⟨hymem, hymax⟩ := (horder.owns_iff hk htagged htaken).1 hy
      have htier := le_antisymm (hmax y hymem) (hymax x hmem)
      have hmet : x.2.episode ∈ orderOf (taken ds) :=
        mem_orderOf (List.mem_map_of_mem (mem_of_mem_arrivals (mem_arrivalsFor.1 hmem).1).1)
      exact ⟨y, hymem, tier_inj hmet htier, rfl⟩
    · rintro ⟨y, hymem, hepisode, rfl⟩
      refine ⟨y, (horder.owns_iff hk htagged htaken).2 ⟨hymem, ?_⟩, rfl⟩
      rwa [hepisode]

/-- A criterion that has a stage at the start, or that a unit is added for, has one. -/
theorem exists_serves (h : c.Harvested ds stages proposed) (hcalm : c.Calm ds) (hk : k ≠ "")
    (hstart : (∃ name, Serves c.baseStages k name) ∨ c.arrivalsFor ds k ≠ []) :
    ∃ name, Serves stages k name := by
  by_cases hnone : c.arrivalsFor ds k = []
  · obtain ⟨name, hname⟩ := hstart.resolve_right (not_not.2 hnone)
    exact ⟨name, (h.serves_baseline hk hnone name).2 hname⟩
  · obtain ⟨x, hx⟩ := exists_owns hnone
    exact ⟨x.2.id, (h.serves_units hcalm hk hnone _).2 ⟨x, hx, rfl⟩⟩

end Harvested

/-! ## Over a run -/

theorem Quiet.calm {w : World} {a : Act} (ha : c.Quiet w a) (h : c.Calm w.harvested) :
    c.Calm (c.step w a).harvested := by
  cases hbefore : c.before w a with
  | none =>
    cases a with
    | emit events => exact h
    | resume integrated terminal => cases hbefore
    | harvest integrated terminal =>
      rw [c.step_of_none hbefore]
      exact h
  | some pair =>
    obtain ⟨d, ds⟩ := pair
    rw [c.step_of_before hbefore]
    exact (calm_of_before h hbefore).later (ha.baselines d ds hbefore)

theorem arrivalsFor_append (more : List Dated) (h : c.arrivalsFor ds k ≠ []) :
    c.arrivalsFor (ds ++ more) k ≠ [] := by
  obtain ⟨x, hx⟩ := List.exists_mem_of_ne_nil _ h
  obtain ⟨rest, hrest⟩ := arrivals_append (c := c) ds more
  refine List.ne_nil_of_mem (a := x) ?_
  rw [mem_arrivalsFor, hrest] at *
  exact ⟨List.mem_append_left _ hx.1, hx.2⟩

/-- After every harvest of a run in which no unit has started, each criterion is owned, and one that
had a stage before the harvest has one after it. -/
theorem owned_after_harvest (c : Planning) (hland : ∀ st, c.landed st = false) (acts : List Act)
    (a : Act) (h : Along c.step c.Quiet World.new (acts ++ [a])) (d : Dag) (ds : List Dated)
    (hbefore : c.before (run c.step World.new acts) a = some (d, ds)) (k : String) (hk : k ≠ "") :
    ∃ d', (run c.step World.new (acts ++ [a])).process = some d' ∧
      c.Owned (run c.step World.new (acts ++ [a])).harvested d'.stages k ∧
      ((∃ name, Serves d.stages k name) → ∃ name, Serves d'.stages k name) := by
  obtain ⟨hacts, ha⟩ := along_append.1 h
  have hsound : c.Sound (run c.step World.new acts) :=
    run_sound hland (hacts.imp fun _ _ hquiet => hquiet.undisturbed)
  have hcalm : c.Calm (run c.step World.new acts).harvested := by
    refine run_invariant_along (I := fun w => c.Calm w.harvested)
      (fun _ _ ha hw => ha.calm hw) hacts ?_
    intro x hx
    cases hx
  rw [run_append, run_cons, run_nil, c.step_of_before hbefore]
  generalize run c.step World.new acts = w at *
  obtain ⟨htagged, hinv⟩ := harvested_of_before hsound hbefore
  have hcalm := calm_of_before hcalm hbefore
  have hnext := hcalm.later (w := w) (ha.1.baselines d ds hbefore)
  obtain ⟨hidle, hfree⟩ := ha.1.undisturbed d ds hbefore
  obtain ⟨hinv', -, -⟩ := hinv.later htagged hland hidle hfree rfl
  refine ⟨_, rfl, hinv'.owned hnext (htagged.harvest d) (taken_fresher htagged.head) hk, ?_⟩
  rintro ⟨name, hname⟩
  refine hinv'.exists_serves hnext hk ?_
  by_cases hnone : c.arrivalsFor ds k = []
  · exact Or.inl ⟨name, (hinv.serves_baseline hk hnone name).1 hname⟩
  · exact Or.inr (arrivalsFor_append _ hnone)

end Planning

/-- An addition of no episode, logged after one of a named episode. -/
def lateLegacyEvents : List Event :=
  [proposalEvent "u-early" "plan/implementer#0" "the parser is total",
    proposalEvent "u-late" "" "the parser is total"]

/-- Two additions of two episodes serve one criterion. -/
theorem owned_by_two_episodes :
    (run oneCriterion.step World.new [.emit lateLegacyEvents, .resume ∅ ∅]).process.map
      (fun d => d.stages.toList.map fun st => (st.1, st.2.criterionId, st.2.episode)) =
        some [("u-early", criterionStableId 1 "the parser is total", "plan/implementer#0"),
          ("u-late", criterionStableId 1 "the parser is total", "")] := by
  decide +kernel

/-- The process that took `u-one` up harvests `u-two`, which owns the criterion then. -/
theorem owned_after_harvest_split : ∃ d',
    (run oneCriterion.step World.new (splitActs ++ [.harvest ∅ ∅])).process = some d' ∧
    stageNames d' = ["u-two"] ∧
    oneCriterion.Owned (run oneCriterion.step World.new (splitActs ++ [.harvest ∅ ∅])).harvested
      d'.stages (criterionStableId 1 "the parser is total") ∧
    ∃ name, Planning.Serves d'.stages (criterionStableId 1 "the parser is total") name := by
  have hquiet : Along oneCriterion.step oneCriterion.Quiet World.new
      (splitActs ++ [.harvest ∅ ∅]) :=
    Planning.along_plain single_refines (fun _ => rfl) (fun _ _ ha hw =>
      ⟨(hw.steady single_refines ha).1, fun _ _ hbefore name _ _ _ => ha.ended hbefore name⟩)
      plain_splitActs
  obtain ⟨d', hd', howned, hkept⟩ := Planning.owned_after_harvest oneCriterion (fun _ => rfl) _ _
    hquiet _ _ rfl (criterionStableId 1 "the parser is total") (criterionStableId_ne_empty _ _)
  have hnames : (run oneCriterion.step World.new (splitActs ++ [.harvest ∅ ∅])).process.map
      stageNames = some ["u-two"] := by decide +kernel
  rw [hd'] at hnames
  exact ⟨d', hd', Option.some.inj hnames, howned,
    hkept ⟨"u-one", Option.map_eq_some_iff.1 (by decide +kernel)⟩⟩

end Rigger.Conductor.Proposed
