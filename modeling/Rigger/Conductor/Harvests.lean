import Rigger.Conductor.Rewalk
import Rigger.Lib.Run

/-!
# Harvests over the processes of a run

The run's log grows; a process starts from the stages of the workflow and harvests the log as it
stands, and harvests it again between waves; the next process starts over.  Where every harvest is
`Steady`, the stages are those of one cold harvest (`harvested_eq_cold`); so they are, however the
log is cut, while no stage has ended and every unit is proposed by one episode (`steady_of_single`).
-/

namespace Rigger.Conductor.Proposed

open Lib

/-- `integrated` and `terminal` are the stages that have ended as the harvest is made. -/
inductive Act where
  | emit (events : List Event)
  | resume (integrated terminal : Finset String)
  | harvest (integrated terminal : Finset String)

/-- The log, the graph of the running process, and, of the proposals it took up, what the harvest
that took each of them up read. -/
structure World where
  log : List Event
  process : Option Dag
  harvested : List Planning.Dated

namespace World

def new : World := ⟨[], none, []⟩

end World

namespace Planning
variable (c : Planning)

/-- The proposals of the log the process has not taken up, tagged by a harvest over `d`. -/
def fresher (log : List Event) (ds : List Dated) (d : Dag) : List Dated :=
  ((proposals log).drop ds.length).map (⟨finalEpisode (proposals log), d.ended⟩, ·)

/-- A harvest of the log by a process whose graph is `d` and that took `ds` up before. -/
def harvestOver (w : World) (d : Dag) (ds : List Dated) : World :=
  { w with
    process := some (c.harvestProposed w.log d).1
    harvested := ds ++ fresher w.log ds d }

def step (w : World) : Act → World
  | .emit events => { w with log := w.log ++ events }
  | .resume integrated terminal => c.harvestOver w (c.fresh integrated terminal) []
  | .harvest integrated terminal =>
    match w.process with
    | some d =>
      c.harvestOver w { d with integrated := integrated, terminal := terminal } w.harvested
    | none => w

/-- The graph an act harvests over, and what was taken up before. -/
def before (w : World) : Act → Option (Dag × List Dated)
  | .emit _ => none
  | .resume integrated terminal => some (c.fresh integrated terminal, [])
  | .harvest integrated terminal =>
    w.process.map fun d => ({ d with integrated := integrated, terminal := terminal }, w.harvested)

variable {a : Act} {acts : List Act} {us : List UnitProposed}

theorem step_of_before {w : World} {d : Dag} {ds : List Dated} (h : c.before w a = some (d, ds)) :
    c.step w a = c.harvestOver w d ds := by
  cases a with
  | emit events => cases h
  | resume integrated terminal =>
    cases h
    rfl
  | harvest integrated terminal =>
    obtain ⟨d', hd', heq⟩ := Option.map_eq_some_iff.1 h
    cases heq
    show (match w.process with | some d => _ | none => _) = _
    rw [hd']

/-- A harvest before any process has started changes nothing. -/
theorem step_of_none {w : World} {integrated terminal : Finset String}
    (h : c.before w (.harvest integrated terminal) = none) :
    c.step w (.harvest integrated terminal) = w := by
  unfold step
  rw [Option.map_eq_none_iff.1 h]

/-- No proposed unit has ended as the act harvests. -/
def Unended (w : World) (d : Dag) : Prop :=
  ∀ u ∈ proposals w.log, c.baseStages.contains u.id = false → d.ended u.id = false

/-- No proposal has the name of a baseline that another proposal takes over. -/
def Free (w : World) (d : Dag) (ds : List Dated) : Prop :=
  ∀ u ∈ proposals w.log, ¬c.Vacated (ds ++ fresher w.log ds d) u.id

/-- The harvest that took up `y` read the final episodes of some log that holds `x`. -/
def Knows (log : List Event) (x y : Dated) : Prop :=
  ∃ us, y.1.final = finalEpisode us ∧ x.2 ∈ us ∧ us ⊆ proposals log

/-- What a process has taken up is the head of the log, each proposal by a harvest that knew those
before it. -/
structure Tagged (log : List Event) (ds : List Dated) : Prop where
  head : taken ds <+: proposals log
  knows : ds.Pairwise (Knows log)

/-- What holds of the process between harvests. -/
structure Sound (w : World) : Prop where
  tagged : Tagged w.log w.harvested
  process : ∀ d, w.process = some d → c.Harvested w.harvested d.stages d.proposed

variable {c} {w : World} {log : List Event} {d : Dag} {ds : List Dated}

theorem proposals_append (a b : List Event) : proposals (a ++ b) = proposals a ++ proposals b :=
  List.filterMap_append

theorem taken_append (a b : List Dated) : taken (a ++ b) = taken a ++ taken b := List.map_append

theorem taken_fresher (h : taken ds <+: proposals log) :
    taken (ds ++ fresher log ds d) = proposals log := by
  obtain ⟨rest, hrest⟩ := h
  have hlength : (taken ds).length = ds.length := List.length_map _
  have hdrop : (proposals log).drop ds.length = rest := by
    rw [← hrest, ← hlength, List.drop_left]
  rw [taken_append, fresher, hdrop, taken, taken, List.map_map, ← hrest]
  exact congrArg _ (List.map_id rest)

theorem Tagged.nil : Tagged log [] := ⟨List.nil_prefix, List.Pairwise.nil⟩

theorem Tagged.harvest (h : Tagged log ds) (d : Dag) : Tagged log (ds ++ fresher log ds d) := by
  have hknows : ∀ x ∈ ds ++ fresher log ds d, ∀ y ∈ fresher log ds d, Knows log x y := by
    intro x hx y hy
    obtain ⟨u, -, rfl⟩ := List.mem_map.1 hy
    refine ⟨proposals log, rfl, ?_, fun _ hu => hu⟩
    rw [← taken_fresher (d := d) h.head]
    exact List.mem_map_of_mem hx
  refine ⟨?_, List.pairwise_append.2 ⟨h.knows, ?_, fun x hx y hy => ?_⟩⟩
  · rw [taken_fresher h.head]
  · refine List.pairwise_of_forall_mem_list fun x hx y hy => ?_
    exact hknows x (List.mem_append_right _ hx) y hy
  · exact hknows x (List.mem_append_left _ hx) y hy

theorem Tagged.emit (h : Tagged log ds) (events : List Event) : Tagged (log ++ events) ds := by
  have hgrows : proposals log <+: proposals (log ++ events) := by
    rw [proposals_append]
    exact List.prefix_append _ _
  refine ⟨h.head.trans hgrows, h.knows.imp ?_⟩
  rintro x y ⟨us, hfinal, hx, hus⟩
  exact ⟨us, hfinal, hx, List.Subset.trans hus hgrows.subset⟩

/-- One harvest keeps what the proposals taken up come to. -/
theorem Harvested.later (h : c.Harvested ds d.stages d.proposed) (htagged : Tagged w.log ds)
    (hland : ∀ st, c.landed st = false) (hidle : c.Unended w d) (hfree : c.Free w d ds) {d' : Dag}
    (hd' : (c.harvestProposed w.log d).1 = d') :
    c.Harvested (ds ++ fresher w.log ds d) d'.stages d'.proposed ∧
      d'.integrated = d.integrated ∧ d'.terminal = d.terminal := by
  obtain ⟨rest, hrest⟩ := htagged.head
  have hlength : (taken ds).length = ds.length := List.length_map _
  have hdrop : (proposals w.log).drop ds.length = rest := by
    rw [← hrest, ← hlength, List.drop_left]
  unfold fresher
  unfold Unended at hidle
  unfold Free fresher at hfree
  unfold harvestProposed at hd'
  rw [hdrop, ← hrest] at hfree
  rw [← hrest] at hidle hd'
  rw [hdrop, ← hrest]
  exact h.walk hland rfl rfl hidle hfree hd'

theorem harvested_of_before (h : c.Sound w) (hbefore : c.before w a = some (d, ds)) :
    Tagged w.log ds ∧ c.Harvested ds d.stages d.proposed := by
  cases a with
  | emit events => cases hbefore
  | resume integrated terminal =>
    cases hbefore
    exact ⟨Tagged.nil, Harvested.fresh⟩
  | harvest integrated terminal =>
    obtain ⟨d', hd', heq⟩ := Option.map_eq_some_iff.1 hbefore
    cases heq
    exact ⟨h.tagged, h.process d' hd'⟩

theorem sound_new : c.Sound World.new where
  tagged := Tagged.nil
  process := nofun

/-- What an act's harvest meets: no proposed unit ended, and no proposal by the name of a baseline
taken over. -/
def Undisturbed (c : Planning) (w : World) (a : Act) : Prop :=
  ∀ d ds, c.before w a = some (d, ds) → c.Unended w d ∧ c.Free w d ds

theorem Sound.step (h : c.Sound w) (hland : ∀ st, c.landed st = false) (ha : c.Undisturbed w a) :
    c.Sound (c.step w a) := by
  cases hbefore : c.before w a with
  | none =>
    cases a with
    | emit events => exact ⟨h.tagged.emit events, h.process⟩
    | resume integrated terminal => cases hbefore
    | harvest integrated terminal =>
      rw [c.step_of_none hbefore]
      exact h
  | some pair =>
    obtain ⟨d, ds⟩ := pair
    obtain ⟨htagged, hinv⟩ := harvested_of_before h hbefore
    obtain ⟨hidle, hfree⟩ := ha d ds hbefore
    rw [c.step_of_before hbefore]
    refine ⟨htagged.harvest d, fun d' hd' => ?_⟩
    exact (hinv.later htagged hland hidle hfree (Option.some.inj hd')).1

theorem run_sound (hland : ∀ st, c.landed st = false)
    (h : Along c.step c.Undisturbed World.new acts) : c.Sound (run c.step World.new acts) :=
  run_invariant_along (fun _ _ ha hw => hw.step hland ha) h sound_new

/-! ## A cold harvest -/

/-- An addition that no later one of its criterion outranks. -/
def Stands (c : Planning) (ds : List Dated) (u : UnitProposed) : Prop :=
  ∃ x ∈ c.arrivals ds, x.2 = u ∧ ¬Removed (c.Beats (orderOf (taken ds))) (c.arrivals ds) x

/-- The proposals of the log as one harvest of a fresh process takes them up. -/
def cold (log : List Event) (d : Dag) : List Dated := fresher log [] d

/-- Judged by what the harvests that took them up read, the same additions stand, and the same
baselines are taken over, as judged by what the last one reads. -/
structure Agrees (c : Planning) (log : List Event) (d : Dag) (ds : List Dated) : Prop where
  units : ∀ u, c.Stands ds u ↔ c.Stands (cold log d) u
  baselines : ∀ name, c.Vacated ds name ↔ c.Vacated (cold log d) name

/-- What an act's harvest meets where its process leaves what a fresh one would. -/
def Steady (c : Planning) (w : World) (a : Act) : Prop :=
  c.Undisturbed w a ∧ ∀ d ds, c.before w a = some (d, ds) →
    c.Agrees w.log d (ds ++ fresher w.log ds d)

variable {proposed : Finset String} {name : String}

theorem Harvested.unit_iff {stages : Stages} (h : c.Harvested ds stages proposed)
    (hname : c.baseStages.contains name = false) (st : Stage) :
    stages[name]? = some st ↔ ∃ u, c.Stands ds u ∧ u.id = name ∧ st = c.tended ds u := by
  rw [h.unit name hname]
  constructor
  · rintro ⟨x, hx, hid, hnot, hst⟩
    exact ⟨x.2, ⟨x, hx, rfl, hnot⟩, hid, hst⟩
  · rintro ⟨u, ⟨x, hx, rfl, hnot⟩, hid, hst⟩
    exact ⟨x, hx, hid, hnot, hst⟩

/-- The stages are a function of the proposals taken up, of the additions that stand and of the
baselines taken over. -/
theorem Harvested.stages_eq {ds' : List Dated} {stages stages' : Stages} {proposed' : Finset String}
    (h : c.Harvested ds stages proposed) (h' : c.Harvested ds' stages' proposed')
    (htaken : taken ds = taken ds') (hunits : ∀ u, c.Stands ds u ↔ c.Stands ds' u)
    (hbaselines : ∀ name, c.Vacated ds name ↔ c.Vacated ds' name) : stages = stages' := by
  refine Std.ExtTreeMap.ext_getElem? fun name => ?_
  cases hbase : c.baseStages[name]? with
  | some st =>
    by_cases hvacated : c.Vacated ds name
    · rw [h.vacated name hvacated, h'.vacated name ((hbaselines name).1 hvacated)]
    · rw [h.kept name st hbase hvacated, h'.kept name st hbase (mt (hbaselines name).2 hvacated)]
  | none =>
    have hcontains : c.baseStages.contains name = false := by
      rw [Std.ExtTreeMap.contains_eq_isSome_getElem?, hbase]
      rfl
    have htended : ∀ u, c.tended ds u = c.tended ds' u := by
      intro u
      rw [tended, tended, htaken]
    refine Option.ext fun st => ?_
    rw [h.unit_iff hcontains, h'.unit_iff hcontains]
    simp only [hunits, htended]

/-- After every harvest of a process whose harvests are steady, the stages are those one harvest of
the whole log by a fresh process leaves, and harvesting again changes nothing. -/
theorem harvested_eq_cold (c : Planning) (hland : ∀ st, c.landed st = false) (acts : List Act)
    (a : Act) (h : Along c.step c.Steady World.new (acts ++ [a])) (d : Dag) (ds : List Dated)
    (hbefore : c.before (run c.step World.new acts) a = some (d, ds)) :
    ∃ d', (run c.step World.new (acts ++ [a])).process = some d' ∧
      d'.stages = (c.harvestProposed (run c.step World.new (acts ++ [a])).log
        (c.fresh d.integrated d.terminal)).1.stages ∧
      (c.harvestProposed (run c.step World.new (acts ++ [a])).log d').1 = d' := by
  obtain ⟨hacts, ha⟩ := along_append.1 h
  have hsound : c.Sound (run c.step World.new acts) :=
    run_sound hland (hacts.imp fun _ _ hsteady => hsteady.1)
  rw [run_append, run_cons, run_nil, c.step_of_before hbefore]
  generalize run c.step World.new acts = w at *
  obtain ⟨hundisturbed, hagrees⟩ := ha.1
  obtain ⟨htagged, hinv⟩ := harvested_of_before hsound hbefore
  obtain ⟨hidle, hfree⟩ := hundisturbed d ds hbefore
  have hagree := hagrees d ds hbefore
  obtain ⟨hnext, hintegrated, hterminal⟩ := hinv.later htagged hland hidle hfree rfl
  refine ⟨_, rfl, ?_, ?_⟩
  · have hcold : c.Free w (c.fresh d.integrated d.terminal) [] := by
      intro u hu hvacated
      exact hfree u hu ((hagree.baselines u.id).2 hvacated)
    have hfresh := Harvested.fresh.later
      (d := c.fresh d.integrated d.terminal) Tagged.nil hland hidle
      hcold rfl
    refine hnext.stages_eq hfresh.1 ?_ hagree.units hagree.baselines
    have hnil : taken ([] : List Dated) <+: proposals w.log := List.nil_prefix
    rw [taken_fresher htagged.head]
    exact (taken_fresher hnil).symm
  · show (c.harvestProposed w.log (c.harvestProposed w.log d).1).1 = _
    have hended : (c.harvestProposed w.log d).1.ended = d.ended := by
      funext id
      unfold Dag.ended
      rw [hintegrated, hterminal]
    generalize (c.harvestProposed w.log d).1 = d' at *
    obtain ⟨-, hagain⟩ := hnext.rewalk
      (fun u hu => by
        rw [taken_fresher htagged.head] at hu
        rw [hended]
        exact hidle u hu)
      (fun u hu => by
        rw [taken_fresher htagged.head] at hu
        exact hfree u hu) (finalEpisode (proposals w.log))
    rw [taken_fresher htagged.head] at hagain
    unfold harvestProposed walk
    rw [hnext.harvest_eq]
    exact hagain

/-! ## Where every cut agrees -/

/-- No harvest that took a proposal up met an ended baseline. -/
def Calm (c : Planning) (ds : List Dated) : Prop :=
  ∀ x ∈ ds, ∀ name st, c.baseStages[name]? = some st → st.baseline = true → x.1.ended name = false

/-- Every unit is proposed by one episode, and none has the name of a stage of the start. -/
structure Single (c : Planning) (us : List UnitProposed) : Prop where
  episode : ∀ u ∈ us, ∀ v ∈ us, v.id = u.id → v.episode = u.episode
  added : ∀ u ∈ us, c.baseStages.contains u.id = false

/-- An act that logs no proposals but these, or finds no stage ended. -/
def Plain (us : List UnitProposed) : Act → Prop
  | .emit events => proposals events ⊆ us
  | .resume integrated terminal => integrated = ∅ ∧ terminal = ∅
  | .harvest integrated terminal => integrated = ∅ ∧ terminal = ∅

/-- The proposals that add a unit. -/
def additions (c : Planning) (us : List UnitProposed) : List UnitProposed :=
  (firsts UnitProposed.id us).filter c.adds

/-- `Beats`, by the episodes of the two proposals. -/
def Outranks (c : Planning) (order : List String) (u v : UnitProposed) : Prop :=
  c.reading.serves u = c.reading.serves v ∧ c.reading.serves v ≠ "" ∧
    yields order v.episode u.episode = true

theorem finalEpisode_of_forall {u : UnitProposed} {episode : String} (hu : u ∈ us) (hid : u.id ≠ "")
    (h : ∀ v ∈ us, v.id = u.id → v.episode = episode) : finalEpisode us u.id = some episode := by
  obtain ⟨ep, hep⟩ := Option.isSome_iff_exists.1 (finalEpisode_isSome hu hid)
  obtain ⟨v, hv, rfl⟩ := Option.map_eq_some_iff.1 hep
  have hmem := List.mem_reverse.1 (List.mem_of_find?_eq_some hv)
  have hsame := List.find?_some hv
  rw [Bool.and_eq_true, beq_iff_eq] at hsame
  rw [hep, h v hmem hsame.2]

theorem arrivals_additions (ds : List Dated) :
    (c.arrivals ds).map Prod.snd = c.additions (taken ds) := by
  unfold arrivals additions taken
  induction ds using List.reverseRecOn with
  | nil => rfl
  | append_singleton ds x ih =>
    have hids : (ds.map Prod.snd).map UnitProposed.id = ds.map fun x => x.2.id := List.map_map
    rw [List.map_append, List.map_singleton, firsts_concat, firsts_concat, List.filter_append,
      List.filter_append, List.map_append, ih, hids]
    congr 1
    by_cases hmet : x.2.id ∈ ds.map fun x => x.2.id
    · rw [if_pos hmet, if_pos hmet]
      rfl
    · rw [if_neg hmet, if_neg hmet, List.filter_singleton, List.filter_singleton]
      cases c.adds x.2 <;> rfl

/-- Where every unit is proposed by one episode, which additions stand is a function of the log. -/
theorem Single.stands_iff (h : c.Single (proposals log)) (htagged : Tagged log ds)
    (htaken : taken ds = proposals log) (u : UnitProposed) :
    c.Stands ds u ↔ u ∈ c.additions (proposals log) ∧
      ¬Removed (c.Outranks (orderOf (proposals log))) (c.additions (proposals log)) u := by
  have hinj : ∀ x ∈ c.arrivals ds, ∀ y ∈ c.arrivals ds, x.2 = y.2 → x = y := by
    intro x hx y hy heq
    exact List.inj_on_of_nodup_map (nodup_firsts_map ds) (List.mem_filter.1 hx).1
      (List.mem_filter.1 hy).1 (congrArg UnitProposed.id heq)
  have hsub : (c.arrivals ds).Sublist ds := List.filter_sublist.trans (firsts_sublist ds)
  have hpairs : (c.arrivals ds).Pairwise fun x y =>
      (c.Beats (orderOf (taken ds)) y x ↔ c.Outranks (orderOf (proposals log)) y.2 x.2) := by
    refine (htagged.knows.sublist hsub).imp_of_mem fun {x y} hx _ hknows => ?_
    obtain ⟨us, hfinal, hmem, hus⟩ := hknows
    have hid : x.2.id ≠ "" := (adds_iff.1 (mem_of_mem_arrivals hx).2).1
    have hepisode : y.1.final x.2.id = some x.2.episode := by
      rw [hfinal]
      exact finalEpisode_of_forall hmem hid fun v hv => h.episode x.2 (hus hmem) v (hus hv)
    unfold Beats Outranks
    rw [hepisode, Option.getD_some, htaken]
  rw [← htaken, ← arrivals_additions ds, htaken]
  constructor
  · rintro ⟨x, hx, rfl, hnot⟩
    exact ⟨List.mem_map_of_mem hx, fun hremoved => hnot ((removed_map hinj hpairs hx).1 hremoved)⟩
  · rintro ⟨hu, hnot⟩
    obtain ⟨x, hx, rfl⟩ := List.mem_map.1 hu
    exact ⟨x, hx, rfl, fun hremoved => hnot ((removed_map hinj hpairs hx).2 hremoved)⟩

theorem vacated_iff_of_calm (h : c.Calm ds) : c.Vacated ds name ↔
    ∃ st, c.baseStages[name]? = some st ∧ st.baseline = true ∧
      ∃ u ∈ c.additions (taken ds), c.reading.serves u = st.criterionId := by
  refine exists_congr fun st => and_congr_right fun hst => and_congr_right fun hb => ?_
  rw [← arrivals_additions]
  constructor
  · rintro ⟨x, hx, hserves, -⟩
    exact ⟨x.2, List.mem_map_of_mem hx, hserves⟩
  · rintro ⟨u, hu, hserves⟩
    obtain ⟨x, hx, rfl⟩ := List.mem_map.1 hu
    exact ⟨x, hx, hserves, h x (mem_of_mem_arrivals hx).1 name st hst hb⟩

theorem Calm.later (h : c.Calm ds) {w : World} {d : Dag} (hcalm : ∀ name st,
    c.baseStages[name]? = some st → st.baseline = true → d.ended name = false) :
    c.Calm (ds ++ fresher w.log ds d) := by
  intro x hx name st hst hb
  rcases List.mem_append.1 hx with hx | hx
  · exact h x hx name st hst hb
  · obtain ⟨u, -, rfl⟩ := List.mem_map.1 hx
    exact hcalm name st hst hb

theorem calm_of_before {w : World} (h : c.Calm w.harvested) {d : Dag}
    (hbefore : c.before w a = some (d, ds)) : c.Calm ds := by
  cases a with
  | emit events => cases hbefore
  | resume integrated terminal =>
    cases hbefore
    intro x hx
    cases hx
  | harvest integrated terminal =>
    obtain ⟨d', -, heq⟩ := Option.map_eq_some_iff.1 hbefore
    cases heq
    exact h

theorem Plain.ended (h : Plain us a) (hbefore : c.before w a = some (d, ds)) (name : String) :
    d.ended name = false := by
  cases a with
  | emit events => cases hbefore
  | resume integrated terminal =>
    cases hbefore
    obtain ⟨rfl, rfl⟩ := h
    simp [Dag.ended, Planning.fresh]
  | harvest integrated terminal =>
    obtain ⟨d', -, heq⟩ := Option.map_eq_some_iff.1 hbefore
    cases heq
    obtain ⟨rfl, rfl⟩ := h
    simp [Dag.ended]

/-- What a run of such acts keeps. -/
structure Regular (c : Planning) (us : List UnitProposed) (w : World) : Prop where
  logged : proposals w.log ⊆ us
  calm : c.Calm w.harvested
  sound : c.Sound w

theorem Regular.steady (hsingle : c.Single us) (h : c.Regular us w) (ha : Plain us a) :
    c.Steady w a := by
  have hlog : c.Single (proposals w.log) :=
    ⟨fun u hu v hv => hsingle.episode u (h.logged hu) v (h.logged hv),
      fun u hu => hsingle.added u (h.logged hu)⟩
  refine ⟨fun d ds hbefore => ⟨fun u _ _ => ha.ended hbefore u.id, fun u hu =>
    not_vacated_of_contains (hlog.added u hu)⟩, fun d ds hbefore => ?_⟩
  have htagged := (harvested_of_before h.sound hbefore).1
  have hended : ∀ name st, c.baseStages[name]? = some st → st.baseline = true →
      d.ended name = false := fun name _ _ _ => ha.ended hbefore name
  have hnone : taken ([] : List Dated) <+: proposals w.log := List.nil_prefix
  have hcold : taken (cold w.log d) = proposals w.log := taken_fresher hnone
  have hwhole := taken_fresher (d := d) htagged.head
  have hcoldTagged : Tagged w.log (cold w.log d) := Tagged.nil.harvest d
  have hnil : c.Calm [] := nofun
  have hcoldCalm : c.Calm (cold w.log d) := hnil.later hended
  refine ⟨fun u => ?_, fun name => ?_⟩
  · rw [hlog.stands_iff (htagged.harvest d) hwhole, hlog.stands_iff hcoldTagged hcold]
  · rw [vacated_iff_of_calm ((calm_of_before h.calm hbefore).later hended),
      vacated_iff_of_calm hcoldCalm, hwhole, hcold]

theorem Regular.step (hsingle : c.Single us) (hland : ∀ st, c.landed st = false)
    (h : c.Regular us w) (ha : Plain us a) : c.Regular us (c.step w a) := by
  refine ⟨?_, ?_, h.sound.step hland (h.steady hsingle ha).1⟩
  · cases hbefore : c.before w a with
    | some pair =>
      rw [c.step_of_before hbefore]
      exact h.logged
    | none =>
      cases a with
      | emit events =>
        show proposals (w.log ++ events) ⊆ us
        rw [proposals_append]
        exact List.append_subset.2 ⟨h.logged, ha⟩
      | resume integrated terminal => cases hbefore
      | harvest integrated terminal =>
        rw [c.step_of_none hbefore]
        exact h.logged
  · cases hbefore : c.before w a with
    | some pair =>
      rw [c.step_of_before hbefore]
      exact (calm_of_before h.calm hbefore).later fun name _ _ _ => ha.ended hbefore name
    | none =>
      cases a with
      | emit events => exact h.calm
      | resume integrated terminal => cases hbefore
      | harvest integrated terminal =>
        rw [c.step_of_none hbefore]
        exact h.calm

/-- What holds of every such act in a regular state holds along such a run. -/
theorem along_plain (hsingle : c.Single us) (hland : ∀ st, c.landed st = false)
    {Q : World → Act → Prop} (hQ : ∀ w a, Plain us a → c.Regular us w → Q w a)
    (hacts : ∀ a ∈ acts, Plain us a) : Along c.step Q World.new acts := by
  have hnew : c.Regular us World.new := ⟨List.nil_subset _, nofun, sound_new⟩
  exact along_of_invariant (fun _ _ ha hw => hw.step hsingle hland ha) hQ (along_of_forall hacts)
    hnew

/-- Where no stage has ended and every unit is proposed by one episode, by a name of its own, every
harvest of every process is steady, however the log is cut. -/
theorem steady_of_single (hsingle : c.Single us) (hland : ∀ st, c.landed st = false)
    (hacts : ∀ a ∈ acts, Plain us a) : Along c.step c.Steady World.new acts :=
  along_plain hsingle hland (fun _ _ ha hw => hw.steady hsingle ha) hacts

end Planning

/-! ## A refine of a unit already superseded -/

/-- A workflow of one fan-out template. -/
def fanOutWorkflow : Workflow where
  stages := Std.ExtTreeMap.ofList [("implement",
    { Stage.default with name := "implement", agent := "dev", strategy := "fan-out" })]
  authored name st h := by
    rw [Std.ExtTreeMap.ofList_singleton, Std.ExtTreeMap.getElem?_insert] at h
    split at h
    · cases h
      exact ⟨rfl, rfl, rfl, rfl⟩
    · cases h

def oneCriterion : Planning := ⟨fanOutWorkflow, ["the parser is total"], fun _ => false⟩

def proposalEvent (id spawn criterion : String) : Event :=
  (Event.new ("", 0) typeUnitProposed
    (.json (.obj [("id", .str id), ("criterion", .str criterion)]))).withMeta metaSpawn spawn

/-- The replan supersedes `u-one` by `u-two`, and once that is harvested proposes `u-one` again. -/
def refineEvents : List Event :=
  [proposalEvent "u-one" "plan/implementer#0" "the parser is total",
    proposalEvent "u-two" "plan/replan#1" "the parser is total"]

def lateRefine : Event := proposalEvent "u-one" "plan/replan#1" ""

/-- A proposal by the name of the baseline, which the next one takes over. -/
def namesakeEvents : List Event :=
  [proposalEvent "unit-1-the-parser-is-total" "plan/implementer#0" "the parser is total",
    proposalEvent "u-two" "plan/implementer#0" "the parser is total"]

def stageNames (d : Dag) : List String := d.stages.toList.map Prod.fst

/-- The process that harvested before the refine keeps `u-two` alone; a fresh one keeps both.  And a
second harvest of one log adds the stage the first one skipped. -/
theorem harvested_apart_from_cold :
    ((run oneCriterion.step World.new [.emit refineEvents, .resume ∅ ∅, .emit [lateRefine],
        .harvest ∅ ∅]).process.map stageNames) = some ["u-two"] ∧
      stageNames (oneCriterion.harvestProposed (refineEvents ++ [lateRefine])
        (oneCriterion.fresh ∅ ∅)).1 = ["u-one", "u-two"] ∧
      ((run oneCriterion.step World.new [.emit namesakeEvents, .resume ∅ ∅]).process.map
        stageNames) = some ["u-two"] ∧
      ((run oneCriterion.step World.new [.emit namesakeEvents, .resume ∅ ∅,
        .harvest ∅ ∅]).process.map stageNames) = some ["u-two", "unit-1-the-parser-is-total"] := by
  decide +kernel

/-- Each proposal is harvested as it is logged: the process that a harvest took `u-one` up in
harvests `u-two`. -/
def splitActs : List Act :=
  [.emit (refineEvents.take 1), .resume ∅ ∅, .emit (refineEvents.drop 1)]

theorem single_refines : oneCriterion.Single (proposals refineEvents) := by
  constructor <;> decide +kernel

theorem plain_splitActs : ∀ a ∈ splitActs ++ [.harvest ∅ ∅],
    Planning.Plain (proposals refineEvents) a := by
  intro a ha
  simp only [splitActs, List.cons_append, List.nil_append, List.mem_cons, List.not_mem_nil,
    or_false] at ha
  rcases ha with rfl | rfl | rfl | rfl
  · exact ((List.take_sublist 1 _).filterMap _).subset
  · exact ⟨rfl, rfl⟩
  · exact ((List.drop_sublist 1 _).filterMap _).subset
  · exact ⟨rfl, rfl⟩

/-- The two harvests leave what one cold harvest of both proposals leaves. -/
theorem harvested_eq_cold_split : ∃ d ds d',
    oneCriterion.before (run oneCriterion.step World.new splitActs) (.harvest ∅ ∅) = some (d, ds) ∧
    stageNames d = ["u-one"] ∧
    (run oneCriterion.step World.new (splitActs ++ [.harvest ∅ ∅])).process = some d' ∧
    d'.stages = (oneCriterion.harvestProposed refineEvents
      (oneCriterion.fresh d.integrated d.terminal)).1.stages ∧
    (oneCriterion.harvestProposed refineEvents d').1 = d' := by
  have hsteady := Planning.steady_of_single single_refines (fun _ => rfl) plain_splitActs
  have hlog : (run oneCriterion.step World.new (splitActs ++ [.harvest ∅ ∅])).log = refineEvents :=
    rfl
  obtain ⟨d', hd', hcold, hagain⟩ := Planning.harvested_eq_cold oneCriterion (fun _ => rfl) _ _
    hsteady _ _ rfl
  rw [hlog] at hcold hagain
  exact ⟨_, _, d', rfl, by decide +kernel, hd', hcold, hagain⟩

end Rigger.Conductor.Proposed
