import Rigger.Conductor.Refining

/-!
# Who owns a criterion

While no proposed unit has ended, what the harvests of a process leave is a function of the
proposals they took up, each with what the harvest that took it up read: the final episodes of its
log, and the stages that had ended (`Tag`).  `Harvested` is that function: which stages of the
start stand, and which units, each refined by every proposal of its id.
-/

namespace Rigger.Conductor.Proposed

open Lib

/-! ## The stages of the start -/

namespace Planning
variable (c : Planning) {name : String} {st : Stage}

/-- A stage of the start is the workflow's own, or the unit of the criterion at one position. -/
theorem baseStages_cases (h : c.baseStages[name]? = some st) :
    c.workflow.stages[name]? = some st ∨ ∃ template needs i criterion,
      c.criteria[i]? = some criterion ∧ name = unitSlug (i + 1) criterion ∧
        st = baselineUnit template needs (i + 1) criterion := by
  unfold baseStages at h
  split at h
  · exact Or.inl h
  · split at h
    · exact Or.inl h
    · next template _ =>
      have hkept : ∀ (units : List (String × Stage)) (stages : Stages),
          (units.foldl (fun stages unit => stages.insertIfNew unit.1 unit.2) stages)[name]? =
            some st → stages[name]? = some st ∨ (name, st) ∈ units := by
        intro units
        induction units with
        | nil => exact fun stages hst => Or.inl hst
        | cons unit units ih =>
          intro stages hst
          rcases ih _ hst with hst | hst
          · rw [Std.ExtTreeMap.getElem?_insertIfNew] at hst
            split at hst
            · next hcmp =>
              cases hst
              obtain rfl := Std.LawfulEqCmp.eq_of_compare hcmp.1
              exact Or.inr List.mem_cons_self
            · exact Or.inl hst
          · exact Or.inr (List.mem_cons_of_mem _ hst)
      rcases hkept _ _ h with hst | hunit
      · rw [Std.ExtTreeMap.getElem?_erase] at hst
        split at hst
        · cases hst
        · exact Or.inl hst
      · obtain ⟨i, hi, hunit⟩ := List.mem_mapIdx.1 hunit
        cases hunit
        exact Or.inr ⟨_, _, i, _, List.getElem?_eq_getElem hi, rfl, rfl⟩

theorem baseline_ne_empty (h : c.baseStages[name]? = some st) (hb : st.baseline = true) :
    st.criterionId ≠ "" := by
  rcases c.baseStages_cases h with hauthored | ⟨template, needs, i, criterion, -, -, rfl⟩
  · rw [(c.workflow.authored _ _ hauthored).1] at hb
    cases hb
  · exact criterionStableId_ne_empty _ _

theorem authored_criterionId (h : c.baseStages[name]? = some st) (hb : st.baseline = false) :
    st.criterionId = "" := by
  rcases c.baseStages_cases h with hauthored | ⟨template, needs, i, criterion, -, -, rfl⟩
  · exact (c.workflow.authored _ _ hauthored).2.1
  · cases hb

/-! ## What the harvests of a process leave -/

/-- What a harvest reads of the proposals it takes up: the final episodes of its log, and which
stages have ended. -/
structure Tag where
  final : String → Option String
  ended : String → Bool

abbrev Dated := Tag × UnitProposed

/-- What every harvest of the run reads alike. -/
def reading : Harvest := c.harvest [] (c.fresh ∅ ∅)

def taken (ds : List Dated) : List UnitProposed := ds.map Prod.snd

/-- Whether a proposal of a new id adds a unit. -/
def adds (u : UnitProposed) : Bool :=
  u.id != "" && !c.baseStages.contains u.id && (c.criteria.isEmpty || !Harvest.blank u)

/-- The proposals that added a unit: the first of their ids. -/
def arrivals (ds : List Dated) : List Dated :=
  (firsts (fun x => x.2.id) ds).filter fun x => c.adds x.2

/-- An addition takes a criterion over from one of an earlier episode. -/
def Beats (order : List String) (x y : Dated) : Prop :=
  c.reading.serves x.2 = c.reading.serves y.2 ∧ c.reading.serves y.2 ≠ "" ∧
    yields order ((x.1.final y.2.id).getD "") x.2.episode = true

/-- The baseline was there to take over as an addition for its criterion came. -/
def Vacated (ds : List Dated) (name : String) : Prop :=
  ∃ st, c.baseStages[name]? = some st ∧ st.baseline = true ∧
    ∃ x ∈ c.arrivals ds, c.reading.serves x.2 = st.criterionId ∧ x.1.ended name = false

/-- A unit's stage, as the proposals of its id leave it. -/
def tended (ds : List Dated) (u : UnitProposed) : Stage :=
  refineAll c.reading (c.reading.stageOf u) ((taken ds).filter fun v => v.id == u.id)

structure Harvested (ds : List Dated) (stages : Stages) (proposed : Finset String) : Prop where
  proposed : ∀ id, id ∈ proposed ↔ id ≠ "" ∧ c.baseStages.contains id = false ∧
    id ∈ (taken ds).map UnitProposed.id
  kept : ∀ name st, c.baseStages[name]? = some st → ¬c.Vacated ds name → stages[name]? = some st
  vacated : ∀ name, c.Vacated ds name → stages[name]? = none
  unit : ∀ name, c.baseStages.contains name = false → ∀ st, stages[name]? = some st ↔
    ∃ x ∈ c.arrivals ds, x.2.id = name ∧
      ¬Removed (c.Beats (orderOf (taken ds))) (c.arrivals ds) x ∧ st = c.tended ds x.2

variable {c} {ds : List Dated} {x : Dated} {stages : Stages} {proposed : Finset String}

theorem taken_concat (ds : List Dated) (x : Dated) : taken (ds ++ [x]) = taken ds ++ [x.2] := by
  rw [taken, List.map_append]
  rfl

theorem mem_ids_iff {id : String} :
    id ∈ (taken ds).map UnitProposed.id ↔ id ∈ ds.map fun x => x.2.id := by
  rw [taken, List.map_map]
  rfl

theorem arrivals_concat : c.arrivals (ds ++ [x]) = c.arrivals ds ++
    if x.2.id ∈ (taken ds).map UnitProposed.id ∨ c.adds x.2 = false then [] else [x] := by
  unfold arrivals
  rw [firsts_concat, List.filter_append]
  congr 1
  by_cases hseen : x.2.id ∈ ds.map fun x => x.2.id
  · rw [if_pos hseen, if_pos (Or.inl (mem_ids_iff.2 hseen))]
    rfl
  · rw [if_neg hseen]
    cases hadds : c.adds x.2 with
    | false => simp [hadds]
    | true =>
      have hnot : ¬(x.2.id ∈ (taken ds).map UnitProposed.id ∨ true = false) := by
        rintro (h | h)
        · exact hseen (mem_ids_iff.1 h)
        · cases h
      rw [if_neg hnot]
      simp [hadds]

theorem mem_of_mem_arrivals (h : x ∈ c.arrivals ds) : x ∈ ds ∧ c.adds x.2 = true := by
  obtain ⟨hfirst, hadds⟩ := List.mem_filter.1 h
  exact ⟨mem_of_mem_firsts hfirst, hadds⟩

theorem adds_iff {u : UnitProposed} : c.adds u = true ↔ u.id ≠ "" ∧
    c.baseStages.contains u.id = false ∧ (!c.criteria.isEmpty && Harvest.blank u) = false := by
  unfold adds
  cases c.baseStages.contains u.id <;> cases c.criteria.isEmpty <;> cases Harvest.blank u <;> simp

theorem id_mem_of_mem_arrivals (h : x ∈ c.arrivals ds) :
    x.2.id ∈ (taken ds).map UnitProposed.id :=
  mem_ids_iff.2 (List.mem_map_of_mem (mem_of_mem_arrivals h).1)

theorem tended_concat (u : UnitProposed) : c.tended (ds ++ [x]) u =
    if x.2.id = u.id then c.reading.refine (c.tended ds u) x.2 else c.tended ds u := by
  unfold tended
  rw [taken_concat, List.filter_append]
  by_cases hid : x.2.id = u.id
  · rw [if_pos hid, List.filter_cons_of_pos (by simpa using hid), List.filter_nil, refineAll_concat]
  · rw [if_neg hid, List.filter_cons_of_neg (by simpa using hid), List.filter_nil, List.append_nil]

@[simp] theorem tended_criterionId (u : UnitProposed) :
    (c.tended ds u).criterionId = c.reading.serves u := by
  unfold tended
  rw [refineAll_criterionId]
  rfl

@[simp] theorem tended_baseline (u : UnitProposed) : (c.tended ds u).baseline = false := by
  unfold tended
  rw [refineAll_baseline]
  rfl

theorem removed_concat_order (y : Dated) :
    Removed (c.Beats (orderOf (taken (ds ++ [x])))) (c.arrivals ds) y ↔
      Removed (c.Beats (orderOf (taken ds))) (c.arrivals ds) y := by
  refine removed_congr fun a _ b hb => ?_
  have hmem : b.2.episode ∈ orderOf (taken ds) :=
    mem_orderOf (List.mem_map_of_mem (mem_of_mem_arrivals hb).1)
  have hprefix : orderOf (taken ds) <+: orderOf (taken (ds ++ [x])) := by
    rw [taken_concat, orderOf_concat]
    exact prefix_meet _ _
  unfold Beats
  rw [yields_grown hprefix hmem]

namespace Harvested

theorem fresh : c.Harvested [] c.baseStages ∅ where
  proposed id := by simp [taken]
  kept _ _ hst _ := hst
  vacated name := by
    rintro ⟨st, -, -, x, hx, -⟩
    cases hx
  unit name hname st := by
    constructor
    · intro hst
      rw [Std.ExtTreeMap.contains_eq_isSome_getElem?, hst] at hname
      cases hname
    · rintro ⟨x, hx, -⟩
      cases hx

/-- A proposal that adds nothing refines the stage of its id, or leaves all stages. -/
theorem refined (h : c.Harvested ds stages proposed) {stages' : Stages} {proposed' : Finset String}
    (harrivals : c.arrivals (ds ++ [x]) = c.arrivals ds)
    (hbase : ∀ name, c.baseStages.contains name = true → stages'[name]? = stages[name]?)
    (hunit : ∀ name, c.baseStages.contains name = false → stages'[name]? =
      if x.2.id = name then (stages[name]?).map (c.reading.refine · x.2) else stages[name]?)
    (hproposed : ∀ id, id ∈ proposed' ↔ id ∈ proposed ∨
      id = x.2.id ∧ id ≠ "" ∧ c.baseStages.contains id = false) :
    c.Harvested (ds ++ [x]) stages' proposed' := by
  have hvacated : ∀ name, c.Vacated (ds ++ [x]) name ↔ c.Vacated ds name := by
    intro name
    unfold Vacated
    rw [harrivals]
  refine ⟨fun id => ?_, fun name st hst hnot => ?_, fun name hname => ?_, fun name hname st => ?_⟩
  · rw [hproposed, h.proposed, taken_concat, List.map_append, List.mem_append, List.map_cons,
      List.map_nil, List.mem_singleton]
    tauto
  · have hcontains : c.baseStages.contains name = true := by
      rw [Std.ExtTreeMap.contains_eq_isSome_getElem?, hst]
      rfl
    rw [hbase name hcontains]
    exact h.kept name st hst (mt (hvacated name).2 hnot)
  · have hname := (hvacated name).1 hname
    obtain ⟨st, hst, -⟩ := id hname
    have hcontains : c.baseStages.contains name = true := by
      rw [Std.ExtTreeMap.contains_eq_isSome_getElem?, hst]
      rfl
    rw [hbase name hcontains]
    exact h.vacated name hname
  · rw [hunit name hname, harrivals]
    by_cases hid : x.2.id = name
    · rw [if_pos hid, Option.map_eq_some_iff]
      constructor
      · rintro ⟨st', hst', rfl⟩
        obtain ⟨y, hy, hyname, hnot, rfl⟩ := (h.unit name hname st').1 hst'
        refine ⟨y, hy, hyname, mt (removed_concat_order y).1 hnot, ?_⟩
        rw [tended_concat, if_pos (hid.trans hyname.symm)]
      · rintro ⟨y, hy, hyname, hnot, rfl⟩
        refine ⟨c.tended ds y.2, (h.unit name hname _).2 ⟨y, hy, hyname, ?_, rfl⟩, ?_⟩
        · exact mt (removed_concat_order y).2 hnot
        · rw [tended_concat, if_pos (hid.trans hyname.symm)]
    · rw [if_neg hid, h.unit name hname]
      constructor
      · rintro ⟨y, hy, hyname, hnot, rfl⟩
        refine ⟨y, hy, hyname, mt (removed_concat_order y).1 hnot, ?_⟩
        rw [tended_concat, if_neg fun hc => hid (hc.trans hyname)]
      · rintro ⟨y, hy, hyname, hnot, rfl⟩
        refine ⟨y, hy, hyname, mt (removed_concat_order y).2 hnot, ?_⟩
        rw [tended_concat, if_neg fun hc => hid (hc.trans hyname)]

section
variable {d : Dag}

/-- What the harvest that takes up `x` reads of the units before it: it knows a final episode of
each, and none of them has ended. -/
structure Reads (c : Planning) (ds : List Dated) (x : Dated) (d : Dag) : Prop where
  ended : ∀ id, x.1.ended id = d.ended id
  idle : ∀ y ∈ ds ++ [x], c.baseStages.contains y.2.id = false → d.ended y.2.id = false
  final : ∀ y ∈ ds, y.2.id ≠ "" → (x.1.final y.2.id).isSome = true
  free : ¬c.Vacated (ds ++ [x]) x.2.id

variable {name : String}

theorem takes_authored {st : Stage} (hst : c.baseStages[name]? = some st) (hb : st.baseline = false)
    (order : List String) : (c.reading.reads x.1.final).takes order d x.2 name st = false := by
  rw [← Bool.not_eq_true, takes_iff]
  rintro ⟨hne, -, hserves, -⟩
  rw [c.authored_criterionId hst hb] at hserves
  exact hne hserves.symm

theorem takes_baseline {st : Stage} (hst : c.baseStages[name]? = some st) (hb : st.baseline = true)
    (order : List String) :
    (c.reading.reads x.1.final).takes order d x.2 name st = true ↔
      c.reading.serves x.2 = st.criterionId ∧ d.ended name = false := by
  rw [takes_iff, serves_reads]
  constructor
  · rintro ⟨-, hended, hserves, -⟩
    exact ⟨hserves.symm, hended⟩
  · rintro ⟨hserves, hended⟩
    refine ⟨?_, hended, hserves.symm, Or.inl hb⟩
    rw [hserves]
    exact c.baseline_ne_empty hst hb

theorem takes_unit (hreads : Reads c ds x d) {y : Dated} (hy : y ∈ c.arrivals ds)
    (order : List String) :
    (c.reading.reads x.1.final).takes order d x.2 y.2.id (c.tended ds y.2) = true ↔
      c.Beats order x y := by
  obtain ⟨hmem, hadds⟩ := mem_of_mem_arrivals hy
  obtain ⟨hid, hnotbase, -⟩ := adds_iff.1 hadds
  obtain ⟨ep, hep⟩ := Option.isSome_iff_exists.1 (hreads.final y hmem hid)
  have hended := hreads.idle y (List.mem_append_left _ hmem) hnotbase
  rw [takes_iff, serves_reads, final_reads, tended_criterionId, tended_baseline, hep,
    Option.getD_some]
  unfold Beats
  rw [hep, Option.getD_some]
  constructor
  · rintro ⟨hne, -, hserves, hb | hyields⟩
    · cases hb
    · refine ⟨hserves.symm, ?_, hyields⟩
      rwa [hserves]
  · rintro ⟨hserves, hne, hyields⟩
    refine ⟨?_, hended, hserves.symm, Or.inr hyields⟩
    rwa [hserves]

theorem arrivals_added (hadds : c.adds x.2 = true)
    (hnew : x.2.id ∉ (taken ds).map UnitProposed.id) :
    c.arrivals (ds ++ [x]) = c.arrivals ds ++ [x] := by
  rw [arrivals_concat, if_neg]
  rintro (hc | hc)
  · exact hnew hc
  · rw [hadds] at hc
    cases hc

/-- An addition takes over the baseline of its criterion, where that has not ended. -/
theorem vacated_added (hreads : Reads c ds x d) (hadds : c.adds x.2 = true)
    (hnew : x.2.id ∉ (taken ds).map UnitProposed.id) (name : String) :
    c.Vacated (ds ++ [x]) name ↔ c.Vacated ds name ∨ ∃ st, c.baseStages[name]? = some st ∧
      st.baseline = true ∧ c.reading.serves x.2 = st.criterionId ∧ d.ended name = false := by
  unfold Vacated
  rw [arrivals_added hadds hnew, ← hreads.ended name]
  constructor
  · rintro ⟨st, hst, hb, y, hy, hserves, hended⟩
    rcases List.mem_append.1 hy with hy | hy
    · exact Or.inl ⟨st, hst, hb, y, hy, hserves, hended⟩
    · cases List.mem_singleton.1 hy
      exact Or.inr ⟨st, hst, hb, hserves, hended⟩
  · rintro (⟨st, hst, hb, y, hy, hserves, hended⟩ | ⟨st, hst, hb, hserves, hended⟩)
    · exact ⟨st, hst, hb, y, List.mem_append_left _ hy, hserves, hended⟩
    · exact ⟨st, hst, hb, x, List.mem_append_cons_self, hserves, hended⟩

theorem getElem?_added {order : List String} (hname : name ≠ x.2.id) :
    (((c.reading.reads x.1.final).superseded order d x.2).insert x.2.id
      (c.reading.stageOf x.2))[name]? = (d.stages[name]?).filter fun st =>
        !(c.reading.reads x.1.final).takes order d x.2 name st := by
  rw [Std.ExtTreeMap.getElem?_insert, if_neg, superseded_getElem?]
  rw [Std.LawfulEqCmp.compare_eq_iff_eq]
  exact fun hc => hname hc.symm

/-- A proposal that adds a unit leaves the stages it does not take over, and its own. -/
theorem added (h : c.Harvested ds d.stages d.proposed) (hreads : Reads c ds x d)
    (hadds : c.adds x.2 = true) (hnew : x.2.id ∉ (taken ds).map UnitProposed.id) :
    c.Harvested (ds ++ [x])
      (((c.reading.reads x.1.final).superseded (orderOf (taken (ds ++ [x]))) d x.2).insert
        x.2.id (c.reading.stageOf x.2)) (insert x.2.id d.proposed) := by
  obtain ⟨hid, hnotbase, -⟩ := adds_iff.1 hadds
  have harrivals := arrivals_added hadds hnew
  have hvacated := vacated_added hreads hadds hnew
  have hbasene : ∀ {name st}, c.baseStages[name]? = some st → name ≠ x.2.id := by
    rintro name st hst rfl
    rw [Std.ExtTreeMap.contains_eq_isSome_getElem?, hst] at hnotbase
    cases hnotbase
  refine ⟨fun id => ?_, fun name st hst hnot => ?_, fun name hname => ?_, fun name hname st => ?_⟩
  · rw [Finset.mem_insert, h.proposed, taken_concat, List.map_append, List.mem_append,
      List.map_cons,
      List.map_nil, List.mem_singleton]
    constructor
    · rintro (rfl | ⟨hne, hb, hmem⟩)
      · exact ⟨hid, hnotbase, Or.inr rfl⟩
      · exact ⟨hne, hb, Or.inl hmem⟩
    · rintro ⟨hne, hb, hmem | hmem⟩
      · exact Or.inr ⟨hne, hb, hmem⟩
      · exact Or.inl hmem
  · -- a stage of the start that nothing took over
    rw [hvacated, not_or] at hnot
    rw [getElem?_added (hbasene hst), h.kept name st hst hnot.1, Option.filter_some, if_pos]
    rw [Bool.not_eq_true']
    cases hb : st.baseline with
    | false => exact takes_authored hst hb _
    | true =>
      rw [← Bool.not_eq_true, takes_baseline hst hb]
      rintro ⟨hserves, hended⟩
      exact hnot.2 ⟨st, hst, hb, hserves, hended⟩
  · -- a baseline that was taken over, now or before
    by_cases hbefore : c.Vacated ds name
    · obtain ⟨st, hst, -⟩ := id hbefore
      rw [getElem?_added (hbasene hst), h.vacated name hbefore]
      rfl
    · obtain ⟨st, hst, hb, howned⟩ := ((hvacated name).1 hname).resolve_left hbefore
      rw [getElem?_added (hbasene hst), h.kept name st hst hbefore, Option.filter_some, if_neg]
      rw [(takes_baseline hst hb _).2 howned]
      exact Bool.false_ne_true
  · by_cases hname' : name = x.2.id
    · subst hname'
      have hnone : ∀ y ∈ c.arrivals ds, y.2.id ≠ x.2.id := by
        intro y hy hc
        exact hnew (hc ▸ id_mem_of_mem_arrivals hy)
      have hfirst : (taken ds).filter (fun v => v.id == x.2.id) = [] := by
        rw [List.filter_eq_nil_iff]
        intro v hv hc
        exact hnew (List.mem_map.2 ⟨v, hv, by simpa using hc⟩)
      have htended : c.tended (ds ++ [x]) x.2 = c.reading.stageOf x.2 := by
        rw [tended_concat, if_pos rfl, tended, hfirst]
        exact refine_stageOf _ _
      rw [Std.ExtTreeMap.getElem?_insert_self, harrivals, Option.some_inj]
      constructor
      · rintro rfl
        refine ⟨x, List.mem_append_cons_self, rfl, ?_, htended.symm⟩
        rw [removed_concat, not_or]
        exact ⟨fun hc => hnone x hc.mem rfl, fun hc => hnone x hc.1 rfl⟩
      · rintro ⟨y, hy, hyname, -, rfl⟩
        rcases List.mem_append.1 hy with hy | hy
        · exact absurd hyname (hnone y hy)
        · cases List.mem_singleton.1 hy
          exact htended.symm
    · rw [getElem?_added hname', Option.filter_eq_some_iff, h.unit name hname, harrivals]
      have htended : ∀ y : Dated, y.2.id = name → c.tended (ds ++ [x]) y.2 = c.tended ds y.2 := by
        intro y hyname
        rw [tended_concat, if_neg fun hc => hname' (hyname.symm.trans hc.symm)]
      constructor
      · rintro ⟨⟨y, hy, hyname, hnot, rfl⟩, hkept⟩
        refine ⟨y, List.mem_append_left _ hy, hyname, ?_, (htended y hyname).symm⟩
        rw [removed_concat, removed_concat_order, not_or]
        refine ⟨hnot, fun hc => ?_⟩
        subst hyname
        rw [(takes_unit hreads hy _).2 hc.2] at hkept
        cases hkept
      · rintro ⟨y, hy, hyname, hnot, rfl⟩
        rcases List.mem_append.1 hy with hy | hy
        · rw [removed_concat, removed_concat_order, not_or] at hnot
          refine ⟨⟨y, hy, hyname, hnot.1, htended y hyname⟩, ?_⟩
          rw [htended y hyname, Bool.not_eq_true', ← Bool.not_eq_true]
          subst hyname
          rw [takes_unit hreads hy]
          exact fun hc => hnot.2 ⟨hy, hc⟩
        · cases List.mem_singleton.1 hy
          exact absurd hyname.symm hname'

/-- A proposal that adds nothing and leaves the graph: its id names no unit that stands. -/
theorem left (h : c.Harvested ds d.stages d.proposed)
    (hnone : x.2.id ∈ (taken ds).map UnitProposed.id ∨ c.adds x.2 = false)
    (hgone : c.baseStages.contains x.2.id = false → d.stages[x.2.id]? = none)
    (hknown : x.2.id ≠ "" → c.baseStages.contains x.2.id = false → x.2.id ∈ d.proposed) :
    c.Harvested (ds ++ [x]) d.stages d.proposed := by
  refine h.refined ?_ (fun _ _ => rfl) (fun name hname => ?_) fun id => ?_
  · rw [arrivals_concat, if_pos hnone, List.append_nil]
  · split
    · next hid =>
      subst hid
      rw [hgone hname]
      rfl
    · rfl
  · constructor
    · exact Or.inl
    · rintro (hid | ⟨rfl, hne, hbase⟩)
      · exact hid
      · exact hknown hne hbase

/-- One proposal: what it adds, refines or leaves is what the proposals so far come to. -/
theorem take (h : c.Harvested ds d.stages d.proposed) (hreads : Reads c ds x d)
    (hland : ∀ st, c.landed st = false) {d' : Dag}
    (hd' : (c.reading.reads x.1.final).take (orderOf (taken (ds ++ [x]))) d x.2 = d') :
    c.Harvested (ds ++ [x]) d'.stages d'.proposed ∧ d'.integrated = d.integrated ∧
      d'.terminal = d.terminal := by
  unfold Harvest.take at hd'
  by_cases hid : x.2.id.isEmpty = true
  · rw [if_pos hid] at hd'
    have hempty : x.2.id = "" := by simpa using hid
    have hadds : c.adds x.2 = false := by
      rw [← Bool.not_eq_true, adds_iff]
      exact fun hc => hc.1 hempty
    subst hd'
    refine ⟨h.left (Or.inr hadds) (fun hbase => ?_) fun hne => absurd hempty hne, rfl, rfl⟩
    rw [← Option.not_isSome_iff_eq_none, Option.isSome_iff_exists]
    rintro ⟨st, hst⟩
    obtain ⟨y, hy, hyname, -⟩ := (h.unit _ hbase st).1 hst
    exact (adds_iff.1 (mem_of_mem_arrivals hy).2).1 (hyname.trans hempty)
  · have hne : x.2.id ≠ "" := by simpa using hid
    rw [if_neg hid] at hd'
    cases hbase : c.baseStages.contains x.2.id with
    | true =>
      -- the id of a stage of the start: reserved
      obtain ⟨st, hst⟩ := Option.isSome_iff_exists.1
        ((Std.ExtTreeMap.contains_eq_isSome_getElem?).symm.trans hbase)
      have hadds : c.adds x.2 = false := by
        rw [← Bool.not_eq_true, adds_iff, hbase]
        exact fun hc => Bool.false_ne_true hc.2.1.symm
      have hnot : ¬c.Vacated ds x.2.id := by
        intro hc
        refine hreads.free ?_
        unfold Vacated
        rw [arrivals_concat, if_pos (Or.inr hadds), List.append_nil]
        exact hc
      have hout : ¬(x.2.id ∈ d.proposed ∧ d.ended x.2.id = false) := by
        rw [h.proposed, hbase]
        exact fun hc => Bool.false_ne_true hc.1.2.1.symm
      rw [h.kept _ st hst hnot] at hd'
      simp only [if_neg hout] at hd'
      subst hd'
      refine ⟨h.left (Or.inr hadds) (fun hc => ?_) fun _ hc => ?_, rfl, rfl⟩
      · rw [hbase] at hc
        cases hc
      · rw [hbase] at hc
        cases hc
    | false =>
      have hidle := hreads.idle x List.mem_append_cons_self hbase
      by_cases hseen : x.2.id ∈ (taken ds).map UnitProposed.id
      · have hproposed : x.2.id ∈ d.proposed := (h.proposed _).2 ⟨hne, hbase, hseen⟩
        cases hst : d.stages[x.2.id]? with
        | none =>
          rw [hst] at hd'
          simp only [if_pos hproposed] at hd'
          subst hd'
          exact ⟨h.left (Or.inl hseen) (fun _ => hst) fun _ _ => hproposed, rfl, rfl⟩
        | some st =>
          rw [hst] at hd'
          simp only [if_pos (And.intro hproposed hidle), refine_reads] at hd'
          subst hd'
          refine ⟨h.refined ?_ (fun name hname => ?_) (fun name hname => ?_) fun id => ?_, rfl, rfl⟩
          · rw [arrivals_concat, if_pos (Or.inl hseen), List.append_nil]
          · rw [Std.ExtTreeMap.getElem?_insert, if_neg]
            rw [Std.LawfulEqCmp.compare_eq_iff_eq]
            rintro rfl
            rw [hbase] at hname
            cases hname
          · rw [Std.ExtTreeMap.getElem?_insert]
            simp only [Std.LawfulEqCmp.compare_eq_iff_eq]
            split
            · next hname' =>
              subst hname'
              rw [hst]
              rfl
            · rfl
          · constructor
            · exact Or.inl
            · rintro (hid | ⟨rfl, -, -⟩)
              · exact hid
              · exact hproposed
      · have hstage : d.stages[x.2.id]? = none := by
          rw [← Option.not_isSome_iff_eq_none, Option.isSome_iff_exists]
          rintro ⟨st, hst⟩
          obtain ⟨y, hy, hyname, -⟩ := (h.unit _ hbase st).1 hst
          exact hseen (hyname ▸ id_mem_of_mem_arrivals hy)
        have hproposed : x.2.id ∉ d.proposed := fun hc => hseen ((h.proposed _).1 hc).2.2
        rw [hstage] at hd'
        simp only [if_neg hproposed] at hd'
        cases hblank : !c.criteria.isEmpty && Harvest.blank x.2 with
        | true =>
          have hadds : c.adds x.2 = false := by
            rw [← Bool.not_eq_true, adds_iff, hblank]
            exact fun hc => Bool.false_ne_true hc.2.2.symm
          have hcriteria : (!(c.reading.reads x.1.final).criteria.isEmpty && Harvest.blank x.2) =
              true := hblank
          rw [if_pos hcriteria] at hd'
          subst hd'
          refine ⟨h.refined ?_ (fun _ _ => rfl) (fun name hname => ?_) fun id => ?_, rfl, rfl⟩
          · rw [arrivals_concat, if_pos (Or.inr hadds), List.append_nil]
          · split
            · next hname' =>
              subst hname'
              rw [hstage]
              rfl
            · rfl
          · rw [Finset.mem_insert]
            constructor
            · rintro (rfl | hmem)
              · exact Or.inr ⟨rfl, hne, hbase⟩
              · exact Or.inl hmem
            · rintro (hmem | ⟨rfl, -, -⟩)
              · exact Or.inr hmem
              · exact Or.inl rfl
        | false =>
          have hadds : c.adds x.2 = true := adds_iff.2 ⟨hne, hbase, hblank⟩
          have hcriteria : ¬(!(c.reading.reads x.1.final).criteria.isEmpty && Harvest.blank x.2) =
              true := by
            rw [Bool.not_eq_true]
            exact hblank
          have hlands : (decide (x.2.id ∉ d.terminal) &&
              (c.reading.reads x.1.final).landed ((c.reading.reads x.1.final).stageOf x.2)) =
                false := by
            rw [show (c.reading.reads x.1.final).landed _ = c.landed _ from rfl, hland,
              Bool.and_false]
          rw [if_neg hcriteria, Harvest.add, hlands, stageOf_reads] at hd'
          subst hd'
          exact ⟨h.added hreads hadds hseen, rfl, rfl⟩

end

end Harvested

end Planning

end Rigger.Conductor.Proposed
