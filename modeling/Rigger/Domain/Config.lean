import Rigger.Conductor.Wave
import Rigger.Domain.Failure
import Rigger.Domain.ReviewPanel
import Rigger.Lib.Dfs

/-!
# The workflow (`Config::validate`, `find_cycle`)

`validate` refuses a workflow at its first fault: a malformed id or panel, a reference that names
nothing, a cycle of needs, a failure rule that does not convert, a gate whose tools are missing.
The cycle is found by a search in three colours.
-/

namespace Rigger

open Lib Conductor Failure

namespace Config

/-! ## Stages -/

structure StageDecl extends Conductor.Stage where
  adversary : String
  review : ReviewPanel

/-- Stages by name, in the order of their names. -/
abbrev StageDecls := Std.ExtTreeMap String StageDecl

/-- Each agent id of the stage's own fields, with its field. -/
def StageDecl.ownAgents (st : StageDecl) : List (String × String) :=
  let set (field id : String) : List (String × String) := if id.isEmpty then [] else [(field, id)]
  set "agent" st.agent ++ st.agents.map (("agents", ·)) ++ set "adversary" st.adversary ++
    set "adjudicator" st.adjudicator

def StageDecl.agentIds (st : StageDecl) : List String :=
  st.ownAgents.map Prod.snd ++ st.review.agentIds

/-! ## Cycles -/

def stageNeeds (stages : StageDecls) (n : String) : List String :=
  (stages[n]?.map fun st => st.needs).getD []

def findCycle (stages : StageDecls) (fuel : ℕ) : Option (Option String) :=
  Dfs.search (stageNeeds stages) fuel stages.keys ∅

/-- One stage of the map needs another. -/
def NeedsStage (stages : StageDecls) (x y : String) : Prop :=
  y ∈ stages ∧ ∃ st, stages[x]? = some st ∧ y ∈ st.needs

/-! ## Validation -/

/-- What validation reads beside the files: how a string is quoted, whether the build layer and a
pattern are usable, and where an executable is. -/
structure Host where
  debug : String → String
  buildLayerError : String → String → Option String
  regexError : String → Option String
  findExecutable : String → Option String

structure Gate where
  requires : List String

structure Workflow where
  name : String
  wrapper : String
  cacheDir : String
  review : ReviewPanel
  failureRules : List FailureRuleDef
  gates : Std.ExtTreeMap String Gate
  stages : StageDecls

end Config

structure Config where
  agents : Std.ExtTreeSet String
  workflow : Config.Workflow

namespace Config

structure ResolvedRequirement where
  name : String
  at_ : String

structure GateRequirements where
  gate : String
  requires : List ResolvedRequirement

def rejectRetiredKey (value key line why : String) : Except String Unit :=
  if (trim value).isEmpty then .ok ()
  else .error ("the workflow key " ++ quoted key ++ " is retired (" ++ why ++
    "): delete " ++ line ++
    " from your workflow.yml (config key: " ++ key ++ ")")
where
  quoted (s : String) : String := "`" ++ s ++ "`"

section
variable (host : Host) (c : Config)

/-- `check_agent_id` of an id, after the place that names it. -/
def checkAgent (place id : String) : Except String Unit :=
  refuse [(checkAgentId host.debug id).map (place ++ ·)]

def StageDecl.validateAgentIds (st : StageDecl) : Except String Unit :=
  refuse (st.ownAgents.map fun x => (checkAgentId host.debug x.2).map (x.1 ++ " " ++ ·))

/-- The error of a list whose first unknown id has it. -/
def checkKnown (known : String → Bool) (error : String → String) (ids : List String) :
    Except String Unit :=
  refuse (ids.map fun id => if known id then none else some (error id))

/-- The checks of one stage of the map. -/
def validateStage (name : String) (st : StageDecl) : Except String Unit := do
  let place := "stage " ++ host.debug name ++ " "
  checkKnown (c.workflow.stages.contains ·)
    (fun need => place ++ "needs unknown stage " ++ host.debug need) st.needs
  (st.validateAgentIds host).mapError (place ++ ·)
  (st.review.validateSteps host.debug).mapError (place ++ ·)
  checkKnown (c.agents.contains ·)
    (fun id => place ++ "references unknown agent " ++ host.debug id) st.agentIds
  checkKnown (c.workflow.gates.contains ·)
    (fun gate => place ++ "references unknown gate " ++ host.debug gate) st.gates
  st.review.validateDepth.mapError (place ++ ·)

/-- The checks before the search for a cycle. -/
def validateReferences : Except String Unit := do
  let wf := c.workflow
  refuse [host.buildLayerError wf.wrapper wf.cacheDir]
  rejectRetiredKey wf.name "name" "the `name:` line" "nothing reads it"
  c.agents.toList.forM (checkAgent host "agents ")
  (wf.review.validateSteps host.debug).mapError ("defaults." ++ ·)
  checkKnown (c.agents.contains ·)
    (fun id => "defaults.review references unknown agent " ++ host.debug id) wf.review.agentIds
  wf.review.validateDepth.mapError ("defaults." ++ ·)
  wf.stages.toList.forM fun x => c.validateStage host x.1 x.2

/-- The rules of `failure_taxonomy`; none stands for the default ones. -/
def Workflow.failureTaxonomy (wf : Workflow) : Except String (List FailureRule) :=
  wf.failureRules.mapM (FailureRuleDef.toRule host.debug host.regexError)

def resolveRequirements (gates : Std.ExtTreeMap String Gate) : Except String
    (List GateRequirements) :=
  gates.toList.mapM fun (gate, def_) => do
    let requires ← def_.requires.mapM fun name =>
      match host.findExecutable name with
      | some at_ => .ok (ResolvedRequirement.mk name at_)
      | none => .error ("gate " ++ host.debug gate ++ " requires " ++ host.debug name ++
          ", which is not an executable on PATH (config key: gates." ++ gate ++ ".requires)")
    pure ⟨gate, requires⟩

/-- What follows the search. -/
def afterSearch : Option String → Except String (List GateRequirements)
  | some cyc => .error ("workflow has a dependency cycle involving stage " ++ host.debug cyc)
  | none => do
    let _ ← c.workflow.failureTaxonomy host
    resolveRequirements host c.workflow.gates

def validate (fuel : ℕ) : Option (Except String (List GateRequirements)) :=
  match c.validateReferences host with
  | .error m => some (.error m)
  | .ok () => (findCycle c.workflow.stages fuel).map (c.afterSearch host)

end

/-! ## The search -/

section
variable {stages : StageDecls} {x y : String}

theorem mem_stageNeeds : y ∈ stageNeeds stages x ↔ ∃ st, stages[x]? = some st ∧ y ∈ st.needs := by
  unfold stageNeeds
  cases stages[x]? with
  | none => simp
  | some st => simp

theorem mem_of_needs (h : y ∈ stageNeeds stages x) : x ∈ stages := by
  obtain ⟨st, hst, -⟩ := mem_stageNeeds.1 h
  rw [Std.ExtTreeMap.mem_iff_isSome_getElem?, hst]
  rfl

theorem transGen_needsStage (h : Relation.TransGen (Dfs.Needs (stageNeeds stages)) x y)
    (hy : y ∈ stages) : Relation.TransGen (NeedsStage stages) x y := by
  induction h with
  | single hstep => exact .single ⟨hy, mem_stageNeeds.1 hstep⟩
  | tail _ hstep ih =>
    exact (ih (mem_of_needs hstep)).tail ⟨hy, mem_stageNeeds.1 hstep⟩

theorem cycle_iff : Relation.TransGen (Dfs.Needs (stageNeeds stages)) x x ↔
    Relation.TransGen (NeedsStage stages) x x := by
  constructor
  · intro h
    obtain ⟨y, hstep, -⟩ := Relation.TransGen.head'_iff.1 h
    exact transGen_needsStage h (mem_of_needs hstep)
  · intro h
    have hsub : NeedsStage stages ≤ Dfs.Needs (stageNeeds stages) :=
      fun a b hab => mem_stageNeeds.2 hab.2
    exact Relation.TransGen.mono hsub x x h

theorem mem_of_cycle (h : Relation.TransGen (NeedsStage stages) x x) : x ∈ stages := by
  obtain ⟨z, -, hlast⟩ := Relation.TransGen.tail'_iff.1 h
  exact hlast.1

/-- The stages and all their needs. -/
def nodes (stages : StageDecls) : List String :=
  stages.keys ++ stages.keys.flatMap (stageNeeds stages)

theorem stageNeeds_subset (x : String) : ∀ y ∈ stageNeeds stages x, y ∈ nodes stages := by
  intro y hy
  have hx : x ∈ stages.keys := Std.ExtTreeMap.mem_keys.2 (mem_of_needs hy)
  exact List.mem_append_right _ (List.mem_flatMap.2 ⟨x, hx, hy⟩)

theorem findCycle_found : ∃ found, Ends (findCycle stages) found ∧
    match found with
    | some bad => Relation.TransGen (NeedsStage stages) bad bad
    | none => ∃ order, order.Nodup ∧ Dfs.Ordered (stageNeeds stages) order ∧
        stages.keys ⊆ order := by
  obtain ⟨found, hends, hfound⟩ := Dfs.search_sound (@stageNeeds_subset stages)
    fun x (hx : x ∈ stages.keys) => List.mem_append_left _ hx
  refine ⟨found, hends, ?_⟩
  cases found with
  | some bad => exact cycle_iff.1 hfound
  | none => exact hfound

end

/-! ## Accepted workflows -/

/-- An order of the stages of the map in which each comes after all its needs. -/
structure Scheduled (stages : StageDecls) (order : List String) : Prop where
  nodup : order.Nodup
  mem : ∀ x, x ∈ order ↔ x ∈ stages
  after : ∀ before (x : String) after, order = before ++ x :: after → ∀ st, stages[x]? = some st →
    ∀ y ∈ st.needs, y ∈ before

/-- Where every need is a stage, what the search ordered is a schedule of them. -/
theorem Scheduled.of_ordered {stages : StageDecls} {order : List String} (hnodup : order.Nodup)
    (hordered : Dfs.Ordered (stageNeeds stages) order) (hkeys : stages.keys ⊆ order)
    (hknown : ∀ (x : String) st, stages[x]? = some st → ∀ y ∈ st.needs, y ∈ stages) :
    Scheduled stages (order.filter (stages.contains ·)) where
  nodup := hnodup.filter _
  mem x := by
    rw [List.mem_filter, Std.ExtTreeMap.contains_iff_mem]
    exact ⟨And.right, fun hx => ⟨hkeys (Std.ExtTreeMap.mem_keys.2 hx), hx⟩⟩
  after before x after heq st hst y hy := by
    obtain ⟨early, late, rfl, hearly, hlate⟩ := List.filter_eq_append_iff.1 heq
    obtain ⟨skipped, rest, rfl, hskipped, -, -⟩ := List.filter_eq_cons_iff.1 hlate
    have hmem := hordered (early ++ skipped) x rest (by simp) y (mem_stageNeeds.2 ⟨st, hst, hy⟩)
    have hystage : stages.contains y = true :=
      Std.ExtTreeMap.contains_iff_mem.2 (hknown x st hst y hy)
    rw [← hearly, List.mem_filter]
    refine ⟨(List.mem_append.1 hmem).resolve_right fun hskip => ?_, hystage⟩
    exact hskipped y hskip hystage

theorem checkKnown_eq_ok {known : String → Bool} {error : String → String} {ids : List String}
    (h : checkKnown known error ids = .ok ()) : ∀ id ∈ ids, known id = true := by
  intro id hid
  have hnone := refuse_eq_ok.1 h _ (List.mem_map_of_mem hid)
  split at hnone
  · assumption
  · cases hnone

theorem ok_of_forM {α : Type} {check : α → Except String Unit} {l : List α}
    (h : l.forM check = .ok ()) : ∀ x ∈ l, check x = .ok () := by
  induction l with
  | nil => simp
  | cons a l ih =>
    change (check a >>= fun _ => l.forM check) = .ok () at h
    cases ha : check a with
    | error m =>
      rw [ha] at h
      cases h
    | ok _ =>
      rw [ha] at h
      exact List.forall_mem_cons.2 ⟨ha, ih h⟩

theorem ok_of_bind {α β : Type} {x : Except String α} {f : α → Except String β} {b : β}
    (h : x >>= f = .ok b) : ∃ a, x = .ok a ∧ f a = .ok b := by
  cases x with
  | error m => cases h
  | ok a => exact ⟨a, rfl, h⟩

theorem known_of_validateReferences {host : Host} {c : Config}
    (h : c.validateReferences host = .ok ()) :
    ∀ (x : String) st, c.workflow.stages[x]? = some st → ∀ y ∈ st.needs, y ∈ c.workflow.stages := by
  intro x st hst
  unfold validateReferences at h
  obtain ⟨-, -, h⟩ := ok_of_bind h
  obtain ⟨-, -, h⟩ := ok_of_bind h
  obtain ⟨-, -, h⟩ := ok_of_bind h
  obtain ⟨-, -, h⟩ := ok_of_bind h
  obtain ⟨-, -, h⟩ := ok_of_bind h
  obtain ⟨-, -, h⟩ := ok_of_bind h
  have hstage := ok_of_forM h (x, st) (Std.ExtTreeMap.mem_toList_iff_getElem?_eq_some.2 hst)
  obtain ⟨_, hneeds, -⟩ := ok_of_bind hstage
  intro y hy
  exact Std.ExtTreeMap.contains_iff_mem.1 (checkKnown_eq_ok hneeds y hy)

/-- Validation ends with the refusal of its first checks, or with what follows the search. -/
theorem validate_ends (host : Host) (c : Config) :
    (∃ m, c.validateReferences host = .error m ∧ Ends (c.validate host) (.error m)) ∨
      c.validateReferences host = .ok () ∧ ∀ found, Ends (findCycle c.workflow.stages) found →
        Ends (c.validate host) (c.afterSearch host found) := by
  unfold validate
  cases hreferences : c.validateReferences host with
  | error m => exact .inl ⟨m, rfl, 0, fun _ _ => rfl⟩
  | ok _ =>
    refine .inr ⟨rfl, fun found ⟨enough, henough⟩ => ⟨enough, fun fuel hfuel => ?_⟩⟩
    dsimp only
    rw [henough fuel hfuel, Option.map_some]

/-- The search ends; it finds nothing exactly where no stage needs itself, through others of the map
or at once, and a stage it finds does; so validation ends, and the stages of a workflow it accepts
have an order in which each comes after all its needs. -/
theorem findCycle_sound :
    (∀ stages : StageDecls, ∃ found, Ends (findCycle stages) found ∧
      (found = none ↔ ∀ x, ¬Relation.TransGen (NeedsStage stages) x x) ∧
      ∀ x, found = some x → x ∈ stages ∧ Relation.TransGen (NeedsStage stages) x x) ∧
    ∀ (host : Host) (c : Config), (∃ answer, Ends (c.validate host) answer) ∧
      ∀ report, Ends (c.validate host) (.ok report) →
        ∃ order, Scheduled c.workflow.stages order := by
  refine ⟨fun stages => ?_, fun host c => ?_⟩
  · obtain ⟨found, hends, hfound⟩ := @findCycle_found stages
    refine ⟨found, hends, ?_⟩
    cases found with
    | some bad =>
      refine ⟨iff_of_false nofun fun hnone => hnone bad hfound, fun x hx => ?_⟩
      obtain rfl := Option.some.inj hx
      exact ⟨mem_of_cycle hfound, hfound⟩
    | none =>
      obtain ⟨order, hnodup, hordered, hkeys⟩ := hfound
      refine ⟨iff_of_true rfl fun x hcycle => ?_, nofun⟩
      have hmem := hkeys (Std.ExtTreeMap.mem_keys.2 (mem_of_cycle hcycle))
      exact hordered.acyclic hnodup hmem (cycle_iff.2 hcycle)
  · obtain ⟨found, hends, hfound⟩ := @findCycle_found c.workflow.stages
    rcases validate_ends host c with ⟨m, -, hrefused⟩ | ⟨hreferences, hafter⟩
    · refine ⟨⟨_, hrefused⟩, fun report haccepted => ?_⟩
      cases hrefused.unique haccepted
    · refine ⟨⟨_, hafter found hends⟩, fun report haccepted => ?_⟩
      have haccept := (hafter found hends).unique haccepted
      cases found with
      | some cyc => cases haccept
      | none =>
        obtain ⟨order, hnodup, hordered, hkeys⟩ := hfound
        exact ⟨_, Scheduled.of_ordered hnodup hordered hkeys
          (known_of_validateReferences hreferences)⟩

end Config

end Rigger
