import Rigger.Conductor.Harvests
import Rigger.Conductor.Sanitize

/-!
# The branches of a run's stages

Which names a log can make stages of, in any cut of it over the harvests of a run (`Named`), and
when no two of them share a branch.  The units of the criteria never do (`idWords_unitSlug_inj`);
a proposed id, or a stage of the workflow, may have the words of another name.
-/

namespace Rigger.Conductor.Proposed

open Lib

/-! ## The names of a walk -/

section
variable {h : Harvest} {order : List String} {d : Dag} {u : UnitProposed}

/-- Whether a proposal of a new id is of no criterion while the spec has some. -/
def Harvest.skips (h : Harvest) (u : UnitProposed) : Bool := !h.criteria.isEmpty && Harvest.blank u

variable {name : String}

theorem superseded_contains (hname : (h.superseded order d u).contains name = true) :
    d.stages.contains name = true := by
  unfold Harvest.superseded at hname
  split at hname
  · rw [Std.ExtTreeMap.contains_eq_isSome_getElem?, Std.ExtTreeMap.getElem?_filter'] at hname
    rw [Std.ExtTreeMap.contains_eq_isSome_getElem?]
    cases hst : d.stages[name]? with
    | none =>
      rw [hst] at hname
      cases hname
    | some st => rfl
  · exact hname

/-- A proposal makes no stage but one of its own id, and that where the id is new. -/
theorem take_contains (hname : (h.take order d u).stages.contains name = true) :
    d.stages.contains name = true ∨
      name = u.id ∧ u.id ≠ "" ∧ u.id ∉ d.proposed ∧ h.skips u = false := by
  unfold Harvest.take at hname
  split at hname
  · exact Or.inl hname
  · next hid =>
    split at hname
    · next st hst =>
      split at hname
      · rw [Std.ExtTreeMap.contains_insert, Bool.or_eq_true, beq_iff_eq,
          Std.LawfulEqCmp.compare_eq_iff_eq] at hname
        rcases hname with rfl | hname
        · refine Or.inl ?_
          rw [Std.ExtTreeMap.contains_eq_isSome_getElem?, hst]
          rfl
        · exact Or.inl hname
      · exact Or.inl hname
    · split at hname
      · exact Or.inl hname
      · next hnew =>
        split at hname
        · exact Or.inl hname
        · next hskips =>
          change ((h.superseded order d u).insert u.id (h.stageOf u)).contains name = true at hname
          rw [Std.ExtTreeMap.contains_insert, Bool.or_eq_true, beq_iff_eq,
            Std.LawfulEqCmp.compare_eq_iff_eq] at hname
          rcases hname with rfl | hname
          · refine Or.inr ⟨rfl, by simpa using hid, hnew, ?_⟩
            rw [← Bool.not_eq_true]
            exact hskips
          · exact Or.inl (superseded_contains hname)

/-- A proposal of a new id that serves a criterion is a stage once it is met. -/
theorem contains_take (hid : u.id ≠ "") (hnew : u.id ∉ d.proposed) (hskips : h.skips u = false) :
    (h.take order d u).stages.contains u.id = true := by
  have hempty : ¬u.id.isEmpty = true := by simpa using hid
  have hskips : ¬(!h.criteria.isEmpty && Harvest.blank u) = true := by
    rw [Bool.not_eq_true]
    exact hskips
  unfold Harvest.take
  rw [if_neg hempty]
  cases hst : d.stages[u.id]? with
  | some st =>
    have hskip : ¬(u.id ∈ d.proposed ∧ d.ended u.id = false) := fun hc => hnew hc.1
    simp only [if_neg hskip]
    rw [Std.ExtTreeMap.contains_eq_isSome_getElem?, hst]
    rfl
  | none =>
    simp only [if_neg hnew, if_neg hskips]
    show ((h.superseded order d u).insert u.id (h.stageOf u)).contains u.id = true
    rw [Std.ExtTreeMap.contains_insert_self]

theorem mem_take_proposed {id : String} : id ∈ (h.take order d u).proposed ↔
    id ∈ d.proposed ∨ id = u.id ∧ u.id ≠ "" ∧ d.stages[u.id]? = none := by
  unfold Harvest.take
  split
  · next hid =>
    have hempty : u.id = "" := by simpa using hid
    simp [hempty]
  · next hid =>
    have hne : u.id ≠ "" := by simpa using hid
    split
    · next st hst =>
      split <;> simp [hst]
    · next hst =>
      split
      · next hmem =>
        constructor
        · exact Or.inl
        · rintro (hid | ⟨rfl, -⟩)
          · exact hid
          · exact hmem
      · split
        · rw [Finset.mem_insert, or_comm]
          simp [hne, hst]
        · show id ∈ insert u.id d.proposed ↔ _
          rw [Finset.mem_insert, or_comm]
          simp [hne, hst]

end

/-! ## The names of a run -/

namespace Planning
variable (c : Planning)

/-- A stage of the start, or a proposal that adds a unit and is the first of its id. -/
def Named (us : List UnitProposed) (name : String) : Prop :=
  c.baseStages.contains name = true ∨
    ∃ u ∈ firsts UnitProposed.id us, u.id = name ∧ c.adds u = true

/-- The unit of a criterion. -/
def Criterial (name : String) : Prop :=
  ∃ st, c.baseStages[name]? = some st ∧ st.baseline = true

/-- A graph whose process took up `us`, and nothing else. -/
structure Known (us : List UnitProposed) (d : Dag) : Prop where
  named : ∀ name, d.stages.contains name = true → c.Named us name
  proposed : ∀ id ∈ d.proposed, id ∈ us.map UnitProposed.id
  met : ∀ u ∈ us, u.id ≠ "" → c.baseStages.contains u.id = false → u.id ∈ d.proposed

/-- A name that is a stage of the running process at some point of the run. -/
def Flies (acts : List Act) (name : String) : Prop :=
  ∃ before after d, acts = before ++ after ∧ (run c.step World.new before).process = some d ∧
    d.stages.contains name = true

variable {c} {us : List UnitProposed} {u : UnitProposed} {d : Dag} {name : String}

theorem firsts_concat_of_mem (hu : u.id ∈ us.map UnitProposed.id) :
    firsts UnitProposed.id (us ++ [u]) = firsts UnitProposed.id us := by
  rw [firsts_concat, if_pos hu, List.append_nil]

theorem Named.append (h : c.Named us name) (more : List UnitProposed) : c.Named
    (us ++ more) name := by
  rcases h with h | ⟨v, hv, hid, hadds⟩
  · exact Or.inl h
  · refine Or.inr ⟨v, ?_, hid, hadds⟩
    induction more using List.reverseRecOn with
    | nil => rwa [List.append_nil]
    | append_singleton more w ih =>
      rw [← List.append_assoc, firsts_concat]
      exact List.mem_append_left _ ih

theorem Known.of_mem (h : c.Known us d) (hname : d.stages.contains name = true) :
    c.baseStages.contains name = true ∨ name ∈ d.proposed := by
  rcases h.named name hname with hbase | ⟨v, hv, rfl, hadds⟩
  · exact Or.inl hbase
  · obtain ⟨hid, hbase, -⟩ := adds_iff.1 hadds
    exact Or.inr (h.met v (mem_of_mem_firsts hv) hid hbase)

theorem Known.take (h : c.Known us d) {g : Harvest} (hcriteria : g.criteria = c.criteria)
    (order : List String) : c.Known (us ++ [u]) (g.take order d u) := by
  refine ⟨fun name hname => ?_, fun id hid => ?_, fun v hv hne hbase => ?_⟩
  · rcases take_contains hname with hname | ⟨rfl, hid, hnew, hskips⟩
    · exact (h.named name hname).append [u]
    · cases hbase : c.baseStages.contains u.id with
      | true => exact Or.inl hbase
      | false =>
        have hfirst : u.id ∉ us.map UnitProposed.id := by
          intro hmem
          obtain ⟨v, hv, hsame⟩ := List.mem_map.1 hmem
          exact hnew (hsame ▸ h.met v hv (hsame ▸ hid) (hsame ▸ hbase))
        refine Or.inr ⟨u, ?_, rfl, adds_iff.2 ⟨hid, hbase, ?_⟩⟩
        · rw [firsts_concat, if_neg hfirst]
          exact List.mem_append_cons_self
        · rwa [← hcriteria]
  · rw [List.map_append, List.mem_append]
    rcases mem_take_proposed.1 hid with hid | ⟨rfl, -⟩
    · exact Or.inl (h.proposed id hid)
    · exact Or.inr List.mem_cons_self
  · rw [mem_take_proposed]
    rcases List.mem_append.1 hv with hv | hv
    · exact Or.inl (h.met v hv hne hbase)
    · cases List.mem_singleton.1 hv
      cases hst : d.stages[u.id]? with
      | none => exact Or.inr ⟨rfl, hne, rfl⟩
      | some st =>
        have hcontains : d.stages.contains u.id = true := by
          rw [Std.ExtTreeMap.contains_eq_isSome_getElem?, hst]
          rfl
        refine Or.inl ((h.of_mem hcontains).resolve_left ?_)
        rw [hbase]
        exact Bool.false_ne_true

theorem Known.of_seen (h : c.Known (us ++ [u]) d) (hu : u ∈ us) : c.Known us d := by
  have hid : u.id ∈ us.map UnitProposed.id := List.mem_map_of_mem hu
  refine ⟨fun name hname => ?_, fun id hmem => ?_, fun v hv => h.met v (List.mem_append_left _ hv)⟩
  · have hnamed := h.named name hname
    unfold Named at hnamed
    rwa [firsts_concat_of_mem hid] at hnamed
  · rcases List.mem_append.1 (List.map_append ▸ h.proposed id hmem) with hmem | hmem
    · exact hmem
    · cases List.mem_singleton.1 hmem
      exact hid

section
variable {g : Harvest} (hcriteria : g.criteria = c.criteria)
include hcriteria

theorem Known.rewalk {seen : List UnitProposed} (hseen : seen ⊆ us) {w : Walk}
    (h : c.Known us w.dag) :
    c.Known us (seen.foldl (Walk.step g) w).dag := by
  induction seen generalizing w with
  | nil => exact h
  | cons u seen ih =>
    obtain ⟨hu, hseen⟩ := List.cons_subset.1 hseen
    exact ih hseen ((h.take hcriteria _).of_seen hu)

theorem Known.walk {w : Walk} (h : c.Known us w.dag) (more : List UnitProposed) :
    c.Known (us ++ more) (more.foldl (Walk.step g) w).dag := by
  induction more using List.reverseRecOn with
  | nil => rwa [List.append_nil]
  | append_singleton more u ih =>
    rw [List.foldl_append, ← List.append_assoc]
    exact ih.take hcriteria _

end

variable {log events : List Event}

theorem Known.harvest (h : c.Known us d) (hus : us <+: proposals log) :
    c.Known (proposals log) (c.harvestProposed log d).1 := by
  obtain ⟨more, hmore⟩ := hus
  unfold harvestProposed Planning.walk
  rw [← hmore, List.foldl_append]
  have hstart : c.Known us (Walk.start d).dag := h
  exact (hstart.rewalk rfl fun _ hu => hu).walk rfl more

theorem Known.fresh (integrated terminal : Finset String) : c.Known []
    (c.fresh integrated terminal) where
  named _ hname := Or.inl hname
  proposed _ hid := absurd hid (Finset.notMem_empty _)
  met _ hu := absurd hu List.not_mem_nil

/-- The running process took up a head of the log. -/
def Settled (c : Planning) (w : World) : Prop :=
  ∀ d, w.process = some d → ∃ us, us <+: proposals w.log ∧ c.Known us d

theorem Settled.step {w : World} (h : c.Settled w) (a : Act) : c.Settled (c.step w a) := by
  cases a with
  | emit events =>
    intro d hd
    obtain ⟨us, hus, hknown⟩ := h d hd
    refine ⟨us, hus.trans ?_, hknown⟩
    show _ <+: proposals (w.log ++ events)
    rw [proposals_append]
    exact List.prefix_append _ _
  | resume integrated terminal =>
    intro d hd
    cases hd
    exact ⟨_, List.prefix_rfl, (Known.fresh integrated terminal).harvest List.nil_prefix⟩
  | harvest integrated terminal =>
    cases hprocess : w.process with
    | none => rwa [c.step_of_none (by rw [before, hprocess]; rfl)]
    | some d =>
      obtain ⟨us, hus, hknown⟩ := h d hprocess
      have hsame : c.Known us { d with integrated := integrated, terminal := terminal } :=
        ⟨hknown.named, hknown.proposed, hknown.met⟩
      rw [c.step_of_before (by rw [before, hprocess]; rfl)]
      rintro d' hd'
      cases hd'
      exact ⟨_, List.prefix_rfl, hsame.harvest hus⟩

theorem run_settled (acts : List Act) : c.Settled (run c.step World.new acts) := by
  refine run_invariant (fun _ a h => h.step a) ?_ acts
  intro d hd
  cases hd

theorem step_log (w : World) (a : Act) : w.log <+: (c.step w a).log := by
  cases a with
  | emit events => exact List.prefix_append _ _
  | resume integrated terminal => exact List.prefix_rfl
  | harvest integrated terminal =>
    cases hbefore : c.before w (.harvest integrated terminal) with
    | none => rw [c.step_of_none hbefore]
    | some pair =>
      obtain ⟨d, ds⟩ := pair
      rw [c.step_of_before hbefore]
      exact List.prefix_rfl

theorem run_log (w : World) (acts : List Act) : w.log <+: (run c.step w acts).log := by
  induction acts generalizing w with
  | nil => exact List.prefix_rfl
  | cons a acts ih => exact (step_log w a).trans (ih _)

theorem proposals_grow {a b : List Event} (h : a <+: b) : proposals a <+: proposals b := by
  obtain ⟨more, rfl⟩ := h
  rw [proposals_append]
  exact List.prefix_append _ _

/-- What is a stage at some point of a run over the log is named by the log. -/
theorem Flies.named {acts : List Act} (hlog : (run c.step World.new acts).log <+: events)
    (h : c.Flies acts name) : c.Named (proposals events) name := by
  obtain ⟨before, after, d, rfl, hd, hname⟩ := h
  obtain ⟨us, hus, hknown⟩ := run_settled before d hd
  have hgrows := run_log (c := c) (run c.step World.new before) after
  rw [run_append] at hlog
  obtain ⟨more, hmore⟩ := hus.trans (proposals_grow (hgrows.trans hlog))
  rw [← hmore]
  exact (hknown.named name hname).append more

/-! ## One harvest for every event -/

def stepwise (events : List Event) : List Act :=
  .resume ∅ ∅ :: events.flatMap fun e => [.emit [e], .harvest ∅ ∅]

theorem stepwise_append (a b : List Event) :
    stepwise (a ++ b) = stepwise a ++ b.flatMap fun e => [.emit [e], .harvest ∅ ∅] := by
  unfold stepwise
  rw [List.flatMap_append, List.cons_append]

theorem stepwise_log (events : List Event) :
    (run c.step World.new (stepwise events)).log = events ∧
      ∃ d, (run c.step World.new (stepwise events)).process = some d := by
  induction events using List.reverseRecOn with
  | nil => exact ⟨rfl, _, rfl⟩
  | append_singleton events e ih =>
    obtain ⟨hlog, d, hd⟩ := ih
    rw [stepwise_append, run_append]
    generalize run c.step World.new (stepwise events) = w at *
    have hstep : run c.step w ([e].flatMap fun e => [.emit [e], .harvest ∅ ∅]) =
        c.harvestOver { w with log := w.log ++ [e] } { d with integrated := ∅, terminal := ∅ }
          w.harvested := by
      show c.step { w with log := w.log ++ [e] } (.harvest ∅ ∅) = _
      exact c.step_of_before (by rw [before, hd]; rfl)
    rw [hstep]
    refine ⟨?_, _, rfl⟩
    show w.log ++ [e] = _
    rw [hlog]

theorem exists_of_mem_firsts (hu : u ∈ firsts UnitProposed.id (proposals log)) :
    ∃ pre e post, log = pre ++ e :: post ∧ UnitProposed.ofEvent e = some u ∧
      u.id ∉ (proposals pre).map UnitProposed.id := by
  induction log using List.reverseRecOn with
  | nil => cases hu
  | append_singleton log e ih =>
    rw [proposals_append] at hu
    cases he : UnitProposed.ofEvent e with
    | none =>
      have hnone : proposals [e] = [] := by simp [proposals, he]
      rw [hnone, List.append_nil] at hu
      obtain ⟨pre, e', post, rfl, hof, hfirst⟩ := ih hu
      exact ⟨pre, e', post ++ [e], by simp, hof, hfirst⟩
    | some v =>
      have hsome : proposals [e] = [v] := by simp [proposals, he]
      rw [hsome, firsts_concat, List.mem_append] at hu
      rcases hu with hu | hu
      · obtain ⟨pre, e', post, rfl, hof, hfirst⟩ := ih hu
        exact ⟨pre, e', post ++ [e], by simp, hof, hfirst⟩
      · split at hu
        · cases hu
        · next hfirst =>
          cases List.mem_singleton.1 hu
          exact ⟨log, e, [], rfl, he, hfirst⟩

/-- What the log names is a stage at some point of the run that harvests after every event. -/
theorem Named.flies (h : c.Named (proposals events) name) : c.Flies (stepwise events) name := by
  rcases h with hbase | ⟨u, hu, rfl, hadds⟩
  · exact ⟨[.resume ∅ ∅], _, _, rfl, rfl, hbase⟩
  · obtain ⟨hid, -, hskips⟩ := adds_iff.1 hadds
    obtain ⟨pre, e, post, rfl, hof, hfirst⟩ := exists_of_mem_firsts hu
    obtain ⟨hlog, d, hd⟩ := stepwise_log (c := c) pre
    obtain ⟨us, hus, hknown⟩ := run_settled (stepwise pre) d hd
    rw [hlog] at hus
    refine ⟨stepwise pre ++ [.emit [e], .harvest ∅ ∅],
      post.flatMap fun e => [.emit [e], .harvest ∅ ∅], ?_⟩
    rw [stepwise_append, List.flatMap_cons, run_append]
    generalize run c.step World.new (stepwise pre) = w at *
    have hsame : c.Known us { d with integrated := ∅, terminal := ∅ } :=
      ⟨hknown.named, hknown.proposed, hknown.met⟩
    have hstep : run c.step w [.emit [e], .harvest ∅ ∅] =
        c.harvestOver { w with log := w.log ++ [e] } { d with integrated := ∅, terminal := ∅ }
          w.harvested := by
      show c.step { w with log := w.log ++ [e] } (.harvest ∅ ∅) = _
      exact c.step_of_before (by rw [before, hd]; rfl)
    rw [hstep, hlog]
    refine ⟨_, by rw [List.append_assoc], rfl, ?_⟩
    have hproposals : proposals (pre ++ [e]) = proposals pre ++ [u] := by
      rw [proposals_append]
      simp [proposals, hof]
    unfold harvestProposed Planning.walk
    rw [hproposals, List.foldl_append]
    obtain ⟨more, hmore⟩ := hus
    have hwalked : c.Known (proposals pre) ((proposals pre).foldl
        (Walk.step (c.harvest (proposals pre ++ [u]) { d with integrated := ∅, terminal := ∅ }))
        (Walk.start { d with integrated := ∅, terminal := ∅ })).dag := by
      rw [← hmore, List.foldl_append]
      have hstart : c.Known us (Walk.start { d with integrated := ∅, terminal := ∅ }).dag := hsame
      exact (hstart.rewalk rfl fun _ hu => hu).walk rfl more
    refine contains_take hid (fun hmem => hfirst (hwalked.proposed _ hmem)) ?_
    exact hskips

/-! ## Shared branches -/

/-- No two stages of a run over the log share a branch or a worktree, and each branch is one git
takes. -/
def Separate (c : Planning) (events : List Event) : Prop :=
  ∀ acts, (run c.step World.new acts).log <+: events → ∀ a, c.Flies acts a →
    ValidRef (unitBranch a).toList ∧ ∀ b, c.Flies acts b → a ≠ b → unitBranch a ≠ unitBranch b ∧
      ∀ scratchRoot, unitWorktreeDir scratchRoot a ≠ unitWorktreeDir scratchRoot b

theorem criterial_eq {a b : String} (ha : c.Criterial a) (hb : c.Criterial b)
    (h : idWords a = idWords b) : a = b := by
  have hslug : ∀ {name}, c.Criterial name → ∃ i criterion, c.criteria[i]? = some criterion ∧
      name = unitSlug (i + 1) criterion := by
    rintro name ⟨st, hst, hbaseline⟩
    rcases c.baseStages_cases hst with hauthored | ⟨template, needs, i, criterion, hi, hname, -⟩
    · rw [(c.workflow.authored _ _ hauthored).1] at hbaseline
      cases hbaseline
    · exact ⟨i, criterion, hi, hname⟩
  obtain ⟨i, x, hi, rfl⟩ := hslug ha
  obtain ⟨j, y, hj, rfl⟩ := hslug hb
  obtain rfl : i = j := Nat.succ_injective (idWords_unitSlug_inj h)
  rw [hi] at hj
  cases hj
  rfl

/-- No two stages of any run over the log share a branch exactly if no two names of it that are not
both units of the criteria have the same words. -/
theorem separate_iff (c : Planning) (events : List Event) : c.Separate events ↔
    ∀ a b, c.Named (proposals events) a → c.Named (proposals events) b →
      ¬(c.Criterial a ∧ c.Criterial b) → a ≠ b → idWords a ≠ idWords b := by
  constructor
  · intro hseparate a b ha hb _ hne hwords
    have hlog : (run c.step World.new (stepwise events)).log <+: events := by
      rw [(stepwise_log events).1]
    obtain ⟨-, hothers⟩ := hseparate (stepwise events) hlog a ha.flies
    exact (hothers b hb.flies hne).1 (unitBranch_eq_iff.2 hwords)
  · intro hwords acts hlog a ha
    refine ⟨validRef_unitBranch a, fun b hb hne => ?_⟩
    have hne' : idWords a ≠ idWords b := by
      by_cases hcriterial : c.Criterial a ∧ c.Criterial b
      · exact fun h => hne (criterial_eq hcriterial.1 hcriterial.2 h)
      · exact hwords a b (ha.named hlog) (hb.named hlog) hcriterial hne
    exact ⟨mt unitBranch_eq_iff.1 hne', fun scratchRoot => mt unitWorktreeDir_eq_iff.1 hne'⟩

end Planning

/-- Two proposals of one episode for one criterion, whose ids differ in a blank. -/
def blankEvents : List Event :=
  [proposalEvent "parse-a" "plan/implementer#0" "the parser is total",
    proposalEvent "parse a" "plan/implementer#0" "the parser is total"]

/-- One harvest leaves both units, with one branch and one worktree. -/
theorem sharing_a_branch :
    (run oneCriterion.step World.new [.emit blankEvents, .resume ∅ ∅]).process.map stageNames =
        some ["parse a", "parse-a"] ∧
      unitBranch "parse a" = unitBranch "parse-a" ∧
      unitWorktreeDir "/scratch" "parse a" = unitWorktreeDir "/scratch" "parse-a" := by
  decide +kernel

end Rigger.Conductor.Proposed
