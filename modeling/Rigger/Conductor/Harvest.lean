import Mathlib.Data.List.MinMax
import Rigger.Conductor.Wave

/-!
# Harvesting proposals (`rigger-conductor/src/conductor.rs`, `harvest_proposed`)

A harvest walks the run's `UnitProposed` events over the stage graph.  A proposal whose id is new
becomes a stage, and takes the place of the stages of its criterion that no later episode than its
own left there; one whose id is a proposed stage that has not ended refines that stage; any other
is skipped.

The episode a stage stands for is that of the last proposal of its id in the log
(`finalEpisode`), which the walk reads ahead of the proposals it has come to.
-/

namespace Rigger.Conductor.Proposed

open Lib

/-! ## Proposals -/

def typeUnitProposed : String := "UnitProposed"

/-- The metadata key of the spawn an event was emitted by. -/
def metaSpawn : String := "spawn"

structure UnitProposed where
  position : Nat
  id : String
  agent : String
  needs : List String
  coverage : String
  gates : List String
  criterionId : String
  episode : String
deriving DecidableEq

namespace UnitProposed

/-- `criterion` is an alias of the member `coverage`. -/
def aliased : Json → Json
  | .obj members => .obj (members.map fun m => if m.1 == "criterion" then ("coverage", m.2) else m)
  | v => v

def decode (position : Nat) (data : Data) : Option UnitProposed := do
  let [id, agent, needs, coverage, gates, criterionId, episode] ← (aliased (← data.value)).slots
    ["id", "agent", "needs", "coverage", "gates", "criterion_id", "episode"] | none
  pure
    { position := position
      id := ← Json.required Json.asStr id
      agent := ← Json.orDefault Json.asStr "" agent
      needs := ← Json.orDefault (Json.asList Json.asStr) [] needs
      coverage := ← Json.orDefault Json.asStr "" coverage
      gates := ← Json.orDefault (Json.asList Json.asStr) [] gates
      criterionId := ← Json.orDefault Json.asStr "" criterionId
      episode := ← Json.orDefault Json.asStr "" episode }

/-- The spawn stamped on the event names the episode before the payload does. -/
def ofEvent (e : Event) : Option UnitProposed :=
  if e.type_ = typeUnitProposed then
    (decode e.position e.data).map fun u =>
      match (e.meta_[metaSpawn]?).filter fun s => !s.isEmpty with
      | some spawn => { u with episode := spawn }
      | none => u
  else none

end UnitProposed

def proposals (events : List Event) : List UnitProposed := events.filterMap UnitProposed.ofEvent

/-- The episode of the last proposal of each id. -/
def finalEpisode (us : List UnitProposed) (id : String) : Option String :=
  (us.reverse.find? fun u => !u.id.isEmpty && u.id == id).map UnitProposed.episode

/-! ## Criteria -/

def normalizeCriterionId (id : String) : String :=
  trim (String.ofList (trimMatches (fun c => c == '[' || c == ']') (trim id).toList))

def partCoverage (criterion proposed : String) : String :=
  match criterionRemainder criterion proposed with
  | some rest => if rest.isEmpty then criterion else criterion ++ "\n\n" ++ rest
  | none => criterion

/-- The criterion whose id is echoed, else the longest that the text opens with, the first of equal
length. -/
def servedCriterion (criteria : List String) (coverage criterionId : String) :
    Option (String × Nat) :=
  let echoed := normalizeCriterionId criterionId
  (criteria.zipIdx.find? fun c => !echoed.isEmpty && echoed == criterionStableId (c.2 + 1) c.1).or
    ((criteria.zipIdx.filter fun c => (criterionRemainder c.1 coverage).isSome).argmax fun c =>
      (normalizeWs c.1).utf8ByteSize)

def resolveServedCriterion (criteria : List String) (coverage criterionId : String) :
    Option (String × String) :=
  if (trim coverage).isEmpty then none
  else
    (servedCriterion criteria coverage criterionId).map fun c =>
      (criterionStableId (c.2 + 1) c.1, partCoverage c.1 coverage)

/-! ## Needs and gates -/

@[irreducible] def withGateHold (needs : List String) (id : String)
    (gate : Option String) : List String :=
  match gate with
  | some g => if id != g && !needs.contains g then needs ++ [g] else needs
  | none => needs

@[irreducible] def unionGates (base additional : List String) : List String :=
  additional.foldl (fun gates g => if gates.contains g then gates else gates ++ [g]) base

/-! ## The walk -/

/-- The stage graph of a process: the stages, the ids it has taken up from the log, and those that
integrated or ended. -/
structure Dag where
  stages : Stages
  proposed : Finset String
  integrated : Finset String
  terminal : Finset String

def Dag.ended (d : Dag) (id : String) : Bool := decide (id ∈ d.integrated ∨ id ∈ d.terminal)

/-- What one harvest reads: the criteria, the template's gates, the gate that holds the fan-out,
each id's final episode, and whether an earlier run landed a stage's criterion. -/
structure Harvest where
  criteria : List String
  templateGates : List String
  gate : Option String
  final : String → Option String
  landed : Stage → Bool

/-- What a harvest records beside the stages. -/
inductive Signal where
  | refineRetarget (unit : String) (position : Nat)
  | noCriterion (unit : String)
  | unmatched (unit : String)
deriving DecidableEq

/-- The episodes met so far, in the order of their first event. -/
def meet (order : List String) (episode : String) : List String :=
  if episode ∈ order then order else order ++ [episode]

/-- Whether an owner of one episode yields to a proposal of another.  The legacy episode, which has
no name, is before every named one; an owner's episode that the walk has not met ranks last. -/
def yields (order : List String) (owner episode : String) : Bool :=
  if owner.isEmpty then !episode.isEmpty
  else if episode.isEmpty then false
  else decide (order.idxOf owner < order.idxOf episode)

namespace Harvest
variable (h : Harvest)

@[irreducible] def resolve (u : UnitProposed) : Option (String × String) :=
  resolveServedCriterion h.criteria u.coverage u.criterionId

def blank (u : UnitProposed) : Bool := (trim u.coverage).isEmpty

/-- The criterion and text a refine's own text resolves to; unmatched text stays raw. -/
def refinedText (u : UnitProposed) : Option (String × String) :=
  if blank u then none else some ((h.resolve u).getD ("", u.coverage))

/-- The text a refine gives a stage of the criterion. -/
@[irreducible] def textFor (criterionId : String) (u : UnitProposed) : Option String :=
  match h.refinedText u with
  | some (served, text) => if served = criterionId then some text else none
  | none => none

def refine (st : Stage) (u : UnitProposed) : Stage :=
  { st with
    needs := withGateHold u.needs u.id h.gate
    coverage := (h.textFor st.criterionId u).getD st.coverage
    gates := unionGates st.gates u.gates
    episode := if st.baseline then st.episode else u.episode }

/-- The criterion a proposal of a new id serves, empty where it serves none. -/
@[irreducible] def serves (u : UnitProposed) : String := ((h.resolve u).map Prod.fst).getD ""

def stageOf (u : UnitProposed) : Stage :=
  { Stage.default with
    name := u.id
    agent := u.agent
    needs := withGateHold u.needs u.id h.gate
    coverage := ((h.resolve u).map Prod.snd).getD u.coverage
    gates := unionGates h.templateGates u.gates
    criterionId := h.serves u
    episode := u.episode
    unmatchedFanoutProposal := !blank u && (h.resolve u).isNone && !h.criteria.isEmpty }

/-- Whether a stage yields its criterion to a proposal: it has not ended, and is its baseline or
stands for an earlier episode. -/
def priorOwner (order : List String) (d : Dag) (u : UnitProposed) (criterionId name : String)
    (st : Stage) : Bool :=
  !d.ended name && st.criterionId == criterionId &&
    (st.baseline || yields order ((h.final name).getD st.episode) u.episode)

/-- The stages once the owners that yield to `u` are removed. -/
def superseded (order : List String) (d : Dag) (u : UnitProposed) : Stages :=
  match h.resolve u with
  | some (criterionId, _) => d.stages.filter fun name st =>
    !h.priorOwner order d u criterionId name st
  | none => d.stages

def add (order : List String) (d : Dag) (u : UnitProposed) : Dag :=
  let lands := decide (u.id ∉ d.terminal) && h.landed (h.stageOf u)
  { stages := (h.superseded order d u).insert u.id (h.stageOf u)
    proposed := insert u.id d.proposed
    integrated := if lands then insert u.id d.integrated else d.integrated
    terminal := if lands then insert u.id d.terminal else d.terminal }

/-- What a proposal does to the graph, once its episode is met. -/
def take (order : List String) (d : Dag) (u : UnitProposed) : Dag :=
  if u.id.isEmpty then d
  else
    match d.stages[u.id]? with
    | some st =>
      if u.id ∈ d.proposed ∧ d.ended u.id = false then
        { d with stages := d.stages.insert u.id (h.refine st u) }
      else d
    | none =>
      if u.id ∈ d.proposed then d
      else if !h.criteria.isEmpty && blank u then { d with proposed := insert u.id d.proposed }
      else h.add order d u

/-- What a proposal has the harvest record. -/
def signal (d : Dag) (u : UnitProposed) : Option Signal :=
  if u.id.isEmpty then none
  else
    match d.stages[u.id]? with
    | some st =>
      if u.id ∈ d.proposed ∧ d.ended u.id = false then
        match h.refinedText u with
        | some (served, _) => if served = st.criterionId then none else some
          (.refineRetarget u.id u.position)
        | none => none
      else none
    | none =>
      if u.id ∈ d.proposed then none
      else if !h.criteria.isEmpty && blank u then some (.noCriterion u.id)
      else if (h.stageOf u).unmatchedFanoutProposal then some (.unmatched u.id)
      else none

end Harvest

/-- The walk's state: the episodes met, the graph, and what the harvest recorded. -/
structure Walk where
  order : List String
  dag : Dag
  signals : List Signal

namespace Walk

def start (d : Dag) : Walk := ⟨[], d, []⟩

def step (h : Harvest) (w : Walk) (u : UnitProposed) : Walk where
  order := meet w.order u.episode
  dag := h.take (meet w.order u.episode) w.dag u
  signals := w.signals ++ (h.signal w.dag u).toList

end Walk

/-! ## One harvest -/

/-- A workflow's stages: none carries what the conductor alone writes. -/
structure Workflow where
  stages : Stages
  authored : ∀ (name : String) (st : Stage), stages[name]? = some st →
    st.baseline = false ∧ st.criterionId = "" ∧ st.episode = "" ∧ st.unmatchedFanoutProposal = false

/-- What a run is started over. -/
structure Planning where
  workflow : Workflow
  criteria : List String
  landed : Stage → Bool

namespace Planning
variable (c : Planning)

def templateName : Option String := firstStageNamed c.workflow.stages isFanOutTemplate

/-- `template_gates`. -/
def templateGates : List String :=
  ((c.templateName.bind fun name => c.workflow.stages[name]?).map Stage.gates).getD []

/-- The stages of a run at its start: with criteria, the template gives way to one unit for each,
and a stage keeps its name. -/
def baseStages : Stages :=
  if c.criteria.isEmpty then c.workflow.stages
  else
    match c.templateName.bind fun name => (c.workflow.stages[name]?).map fun st => (name, st) with
    | none => c.workflow.stages
    | some (name, template) =>
      let authored := c.workflow.stages.erase name
      (baselineUnits template c.criteria (firstStageNamed authored isProducer)).foldl
        (fun stages unit => stages.insertIfNew unit.1 unit.2) authored

/-- The graph of a fresh process. -/
def fresh (integrated terminal : Finset String) : Dag := ⟨c.baseStages, ∅, integrated, terminal⟩

def harvest (us : List UnitProposed) (d : Dag) : Harvest where
  criteria := c.criteria
  templateGates := c.templateGates
  gate := critiqueGateName d.stages
  final := finalEpisode us
  landed := c.landed

def walk (us : List UnitProposed) (d : Dag) : Walk :=
    us.foldl (Walk.step (c.harvest us d)) (Walk.start d)

/-- `harvest_proposed`: the graph, and what is recorded. -/
def harvestProposed (events : List Event) (d : Dag) : Dag × List Signal :=
  let w := c.walk (proposals events) d
  (w.dag, w.signals)

end Planning

end Rigger.Conductor.Proposed
