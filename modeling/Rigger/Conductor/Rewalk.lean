import Rigger.Conductor.Ownership

/-!
# Walking the log again

Every harvest walks the whole log.  The proposals taken up before change nothing (`Retraced`), and
what the harvest takes up joins them (`Harvested.walk`).
-/

namespace Rigger.Conductor.Proposed

open Lib

namespace Planning
variable {c : Planning} {ds : List Dated} {x : Dated} {stages : Stages} {proposed : Finset String}

/-! ## The gate -/

/-- The first stage of a shape is one matter with the stages of that shape. -/
theorem firstStageNamed_congr {stages stages' : Stages} {shape : Stage → Bool}
    (h : ∀ name : String, (stages[name]?).filter shape = (stages'[name]?).filter shape) :
    firstStageNamed stages shape = firstStageNamed stages' shape := by
  have hfilter : stages.filter (fun _ st => shape st) = stages'.filter fun _ st => shape st := by
    refine Std.ExtTreeMap.ext_getElem? fun name => ?_
    rw [Std.ExtTreeMap.getElem?_filter', Std.ExtTreeMap.getElem?_filter']
    exact h name
  unfold firstStageNamed
  rw [← List.head?_filter, ← List.head?_filter,
    ← Std.ExtTreeMap.toList_filter (f := fun _ st => shape st),
    ← Std.ExtTreeMap.toList_filter (f := fun _ st => shape st), hfilter]

/-- A shape no unit has is that of the same stages after every harvest. -/
theorem Harvested.shape_eq (h : c.Harvested ds stages proposed) (shape : Stage → Bool)
    (hunit : ∀ st : Stage, st.adjudicator = "" → st.produces = "" → shape st = false) :
    firstStageNamed stages shape = firstStageNamed c.baseStages shape := by
  refine firstStageNamed_congr fun name => ?_
  cases hbase : c.baseStages[name]? with
  | some st =>
    by_cases hvacated : c.Vacated ds name
    · obtain ⟨st', hst', hb, -⟩ := id hvacated
      rw [hbase] at hst'
      cases hst'
      rw [h.vacated name hvacated, Option.filter_some, if_neg]
      · rfl
      · rcases c.baseStages_cases hbase with hauthored | ⟨template, needs, i, criterion, -, -, rfl⟩
        · rw [(c.workflow.authored _ _ hauthored).1] at hb
          cases hb
        · rw [hunit _ rfl rfl]
          exact Bool.false_ne_true
    · rw [h.kept name st hbase hvacated]
  | none =>
    have hcontains : c.baseStages.contains name = false := by
      rw [Std.ExtTreeMap.contains_eq_isSome_getElem?, hbase]
      rfl
    cases hst : stages[name]? with
    | none => rfl
    | some st =>
      obtain ⟨y, -, -, -, rfl⟩ := (h.unit name hcontains st).1 hst
      rw [Option.filter_some, if_neg]
      · rfl
      · rw [hunit]
        · exact Bool.false_ne_true
        · rw [tended, refineAll_adjudicator]
          rfl
        · rw [tended, refineAll_produces]
          rfl

theorem Harvested.gate_eq (h : c.Harvested ds stages proposed) :
    critiqueGateName stages = critiqueGateName c.baseStages := by
  have hproducer : firstStageNamed stages isProducer = firstStageNamed c.baseStages isProducer := by
    refine h.shape_eq isProducer fun st _ hproduces => ?_
    rw [isProducer, hproduces]
    rfl
  unfold critiqueGateName
  rw [hproducer]
  cases firstStageNamed c.baseStages isProducer with
  | none => rfl
  | some producer =>
    refine h.shape_eq (fun st => st.agent.isEmpty && !st.adjudicator.isEmpty &&
      st.needs.contains producer) fun st hadjudicator _ => ?_
    simp [hadjudicator]

/-- A harvest over what earlier ones left reads what they read, but for the final episodes. -/
theorem Harvested.harvest_eq {d : Dag} (h : c.Harvested ds d.stages d.proposed)
    (us : List UnitProposed) : c.harvest us d = c.reading.reads (finalEpisode us) := by
  unfold harvest
  rw [h.gate_eq]
  rfl

/-! ## Walking again -/

theorem arrivals_append (ds more : List Dated) : ∃ rest,
    c.arrivals (ds ++ more) = c.arrivals ds ++ rest := by
  induction more using List.reverseRecOn with
  | nil => exact ⟨[], by rw [List.append_nil, List.append_nil]⟩
  | append_singleton more x ih =>
    obtain ⟨rest, hrest⟩ := ih
    rw [← List.append_assoc, arrivals_concat, hrest, List.append_assoc]
    exact ⟨_, rfl⟩

variable {name : String}

theorem not_vacated_of_contains (hname : c.baseStages.contains name = false) :
    ¬c.Vacated ds name := by
  rintro ⟨st, hst, -⟩
  rw [Std.ExtTreeMap.contains_eq_isSome_getElem?, hst] at hname
  cases hname

theorem Vacated.mono (h : c.Vacated ds name) (more : List Dated) : c.Vacated (ds ++ more) name := by
  obtain ⟨st, hst, hb, x, hx, howned⟩ := h
  obtain ⟨rest, hrest⟩ := arrivals_append (c := c) ds more
  exact ⟨st, hst, hb, x, hrest ▸ List.mem_append_left _ hx, howned⟩

/-- What a walk over proposals taken up before leaves of the graph they came to: each unit refined
by its own among them. -/
structure Retraced (c : Planning) (d : Dag) (us : List UnitProposed) (d' : Dag) : Prop where
  proposed : d'.proposed = d.proposed
  integrated : d'.integrated = d.integrated
  terminal : d'.terminal = d.terminal
  stages : ∀ name : String, d'.stages[name]? =
    if name ∈ d.proposed then
      (d.stages[name]?).map fun st => refineAll c.reading st (us.filter fun u => u.id == name)
    else d.stages[name]?

namespace Retraced
variable {d d' : Dag} {us : List UnitProposed} {u : UnitProposed}

theorem start : Retraced c d [] d := by
  refine ⟨rfl, rfl, rfl, fun name => ?_⟩
  split
  · cases d.stages[name]? with
    | none => rfl
    | some st => rfl
  · rfl

theorem filter_of_ne {name : String} (hname : name ≠ u.id) :
    (us ++ [u]).filter (fun v => v.id == name) = us.filter fun v => v.id == name := by
  rw [List.filter_append, List.filter_cons_of_neg, List.filter_nil, List.append_nil]
  simpa using hname.symm

theorem left (h : Retraced c d us d') (hu : u.id ∉ d.proposed ∨ d.stages[u.id]? = none) :
    Retraced c d (us ++ [u]) d' := by
  refine ⟨h.proposed, h.integrated, h.terminal, fun name => ?_⟩
  rw [h.stages name]
  by_cases hname : name = u.id
  · subst hname
    rcases hu with hout | hgone
    · rw [if_neg hout, if_neg hout]
    · rw [hgone]
      rfl
  · rw [filter_of_ne hname]

theorem take (h : Retraced c d us d') (hinv : c.Harvested ds d.stages d.proposed)
    (hu : u ∈ taken ds)
    (hidle : c.baseStages.contains u.id = false → d.ended u.id = false)
    (hfree : ¬c.Vacated ds u.id) {final : String → Option String} {order : List String} {next : Dag}
    (hnext : (c.reading.reads final).take order d' u = next) : Retraced c d (us ++ [u]) next := by
  unfold Harvest.take at hnext
  by_cases hid : u.id.isEmpty = true
  · rw [if_pos hid] at hnext
    subst hnext
    refine h.left (Or.inl fun hc => ?_)
    exact ((hinv.proposed _).1 hc).1 (by simpa using hid)
  · have hne : u.id ≠ "" := by simpa using hid
    rw [if_neg hid] at hnext
    cases hbase : c.baseStages.contains u.id with
    | true =>
      obtain ⟨st, hst⟩ := Option.isSome_iff_exists.1
        ((Std.ExtTreeMap.contains_eq_isSome_getElem?).symm.trans hbase)
      have hout : u.id ∉ d.proposed := by
        rw [hinv.proposed, hbase]
        exact fun hc => Bool.false_ne_true hc.2.1.symm
      have hstands : d'.stages[u.id]? = some st := by
        rw [h.stages, if_neg hout]
        exact hinv.kept _ st hst hfree
      have hout' : ¬(u.id ∈ d'.proposed ∧ d'.ended u.id = false) := by
        rw [h.proposed]
        exact fun hc => hout hc.1
      rw [hstands] at hnext
      simp only [if_neg hout'] at hnext
      subst hnext
      exact h.left (Or.inl hout)
    | false =>
      have hmem : u.id ∈ d.proposed := (hinv.proposed _).2 ⟨hne, hbase, List.mem_map_of_mem hu⟩
      have hmem' : u.id ∈ d'.proposed := h.proposed ▸ hmem
      have hstage := h.stages u.id
      rw [if_pos hmem] at hstage
      cases hst : d.stages[u.id]? with
      | none =>
        rw [hst] at hstage
        rw [hstage] at hnext
        simp only [Option.map_none, if_pos hmem'] at hnext
        subst hnext
        exact h.left (Or.inr hst)
      | some st =>
        have hended : d'.ended u.id = false := by
          unfold Dag.ended
          rw [h.integrated, h.terminal]
          exact hidle hbase
        rw [hst] at hstage
        rw [hstage] at hnext
        simp only [Option.map_some, if_pos (And.intro hmem' hended), refine_reads] at hnext
        subst hnext
        refine ⟨h.proposed, h.integrated, h.terminal, fun name => ?_⟩
        rw [Std.ExtTreeMap.getElem?_insert]
        simp only [Std.LawfulEqCmp.compare_eq_iff_eq]
        by_cases hname : u.id = name
        · subst hname
          rw [if_pos rfl, if_pos hmem, hst, Option.map_some, List.filter_append,
            List.filter_cons_of_pos (by simp), List.filter_nil, refineAll_concat]
        · rw [if_neg hname, h.stages name, filter_of_ne (Ne.symm hname)]

end Retraced

theorem Harvested.rewalk {d : Dag} (h : c.Harvested ds d.stages d.proposed)
    (hidle : ∀ u ∈ taken ds, c.baseStages.contains u.id = false → d.ended u.id = false)
    (hfree : ∀ u ∈ taken ds, ¬c.Vacated ds u.id) (final : String → Option String) :
    ((taken ds).foldl (Walk.step (c.reading.reads final)) (Walk.start d)).order =
        orderOf (taken ds) ∧
      ((taken ds).foldl (Walk.step (c.reading.reads final)) (Walk.start d)).dag = d := by
  have hprefix : ∀ us, us ⊆ taken ds →
      (us.foldl (Walk.step (c.reading.reads final)) (Walk.start d)).order = orderOf us ∧
      Retraced c d us (us.foldl (Walk.step (c.reading.reads final)) (Walk.start d)).dag := by
    intro us
    induction us using List.reverseRecOn with
    | nil => exact fun _ => ⟨rfl, Retraced.start⟩
    | append_singleton us u ih =>
      intro hsub
      obtain ⟨horder, htraced⟩ := ih fun v hv => hsub (List.mem_append_left _ hv)
      have hu := hsub List.mem_append_cons_self
      rw [List.foldl_append, orderOf_concat, ← horder]
      exact ⟨rfl, htraced.take h hu (hidle u hu) (hfree u hu) rfl⟩
  obtain ⟨horder, htraced⟩ := hprefix (taken ds) fun _ hu => hu
  refine ⟨horder, ?_⟩
  have hstages :
    (((taken ds).foldl (Walk.step (c.reading.reads final)) (Walk.start d)).dag).stages =
      d.stages := by
    refine Std.ExtTreeMap.ext_getElem? fun name => ?_
    rw [htraced.stages name]
    split
    · next hmem =>
      cases hst : d.stages[name]? with
      | none => rfl
      | some st =>
        obtain ⟨y, -, hyname, -, rfl⟩ := (h.unit name ((h.proposed _).1 hmem).2.1 st).1 hst
        subst hyname
        rw [Option.map_some, tended, refineAll_idem]
    · rfl
  generalize ((taken ds).foldl (Walk.step (c.reading.reads final)) (Walk.start d)).dag = d' at *
  obtain ⟨stages', proposed', integrated', terminal'⟩ := d'
  obtain ⟨rfl, rfl, rfl⟩ := And.intro htraced.proposed
    (And.intro htraced.integrated htraced.terminal)
  cases hstages
  rfl

theorem Harvested.walk {d : Dag} (h : c.Harvested ds d.stages d.proposed)
    (hland : ∀ st, c.landed st = false) {more : List UnitProposed} {tag : Tag}
    (hfinal : tag.final = finalEpisode (taken ds ++ more)) (hended : tag.ended = d.ended)
    (hidle : ∀ u ∈ taken ds ++ more, c.baseStages.contains u.id = false → d.ended u.id = false)
    (hfree : ∀ u ∈ taken ds ++ more, ¬c.Vacated (ds ++ more.map (tag, ·)) u.id) {d' : Dag}
    (hd' : (c.walk (taken ds ++ more) d).dag = d') :
    c.Harvested (ds ++ more.map (tag, ·)) d'.stages d'.proposed ∧ d'.integrated = d.integrated ∧
      d'.terminal = d.terminal := by
  obtain ⟨horder, hdag⟩ := h.rewalk (fun u hu => hidle u (List.mem_append_left _ hu))
    (fun u hu hc => hfree u (List.mem_append_left _ hu) (hc.mono _)) tag.final
  rw [Planning.walk, h.harvest_eq, ← hfinal, List.foldl_append] at hd'
  generalize (taken ds).foldl (Walk.step (c.reading.reads tag.final)) (Walk.start d) = w at *
  subst hdag
  have hprefix : ∀ us rest, more = us ++ rest →
      (us.foldl (Walk.step (c.reading.reads tag.final)) w).order = orderOf (taken ds ++ us) ∧
      c.Harvested (ds ++ us.map (tag, ·))
        (us.foldl (Walk.step (c.reading.reads tag.final)) w).dag.stages
        (us.foldl (Walk.step (c.reading.reads tag.final)) w).dag.proposed ∧
      (us.foldl (Walk.step (c.reading.reads tag.final)) w).dag.integrated = w.dag.integrated ∧
      (us.foldl (Walk.step (c.reading.reads tag.final)) w).dag.terminal = w.dag.terminal := by
    intro us
    induction us using List.reverseRecOn with
    | nil =>
      intro rest _
      rw [List.map_nil, List.append_nil, List.append_nil]
      exact ⟨horder, h, rfl, rfl⟩
    | append_singleton us u ih =>
      intro rest hmore
      rw [List.append_assoc] at hmore
      obtain ⟨hbefore, hinv, hintegrated, hterminal⟩ := ih ([u] ++ rest) hmore
      rw [List.foldl_append]
      generalize us.foldl (Walk.step (c.reading.reads tag.final)) w = before at *
      have htaken : taken (ds ++ us.map (tag, ·)) = taken ds ++ us := by
        rw [taken, List.map_append, List.map_map]
        exact congrArg _ (List.map_id us)
      have hended' : before.dag.ended = w.dag.ended := by
        funext id
        unfold Dag.ended
        rw [hintegrated, hterminal]
      have hmem : ∀ y ∈ taken ds ++ us ++ [u], y ∈ taken ds ++ more := by
        intro y hy
        rw [hmore]
        simp only [List.mem_append] at hy ⊢
        tauto
      have hreads : Harvested.Reads c (ds ++ us.map (tag, ·)) (tag, u) before.dag :=
        { ended := fun id => by rw [hended', ← hended]
          idle := fun y hy => by
            have hy : y.2 ∈ taken ds ++ us ++ [u] := by
              rw [← htaken]
              exact taken_concat _ (tag, u) ▸ List.mem_map_of_mem hy
            rw [hended']
            exact hidle y.2 (hmem _ hy)
          final := fun y hy hne => by
            have hy : y.2 ∈ taken ds ++ us := by
              rw [← htaken]
              exact List.mem_map_of_mem hy
            rw [hfinal]
            exact finalEpisode_isSome (hmem _ (List.mem_append_left _ hy)) hne
          free := fun hc => by
            refine hfree u (hmem _ List.mem_append_cons_self) ?_
            rw [hmore, List.map_append, List.map_append, ← List.append_assoc, ← List.append_assoc]
            exact hc.mono _ }
      have hstep :
          meet before.order u.episode = orderOf (taken (ds ++ us.map (tag, ·) ++ [(tag, u)])) := by
        rw [hbefore, taken_concat, htaken, orderOf_concat]
      obtain ⟨hnext, hi, ht⟩ := hinv.take hreads hland rfl
      rw [← hstep] at hnext hi ht
      refine ⟨?_, ?_, hi.trans hintegrated, ht.trans hterminal⟩
      · rw [← List.append_assoc, orderOf_concat, ← hbefore]
        rfl
      · rw [List.map_append, ← List.append_assoc]
        exact hnext
  obtain ⟨-, hinv, hintegrated, hterminal⟩ := hprefix more [] (List.append_nil _).symm
  subst hd'
  exact ⟨hinv, hintegrated, hterminal⟩

end Planning

end Rigger.Conductor.Proposed
