import Rigger.Conductor.Wave
import Rigger.Lib.Run

/-!
# Co-scheduling in a wave (`rigger-conductor/src/conductor.rs`, `run_wave`)

A wave admits waiting stages while a thread and a slot are free and, where the co-scheduling rule
applies, while their radius conflicts with no unit in flight; then it takes the report of any
running stage and admits again.  A landing lets newly ready stages join and recomputes the radii.

The rule applies where a stage ready when the radii were computed asks for it, so a unit in flight
that asks is not kept apart from a later one that does not (`coscheduled_in_conflict`); `scheduled`
says what every run of waves keeps.
-/

namespace Rigger.Conductor

open Lib

def maxConcurrency : Nat := 4

/-- Two radii share a file, or one of them is empty. -/
def radiiConflict (a b : List String) : Bool :=
  a.isEmpty || b.isEmpty || b.any fun f => a.contains f

/-- What the workflow's defaults and the run's dependencies say of scheduling. -/
structure Scheduling where
  maxParallelUnits : Nat
  partition : String
  grounder : Bool
deriving DecidableEq

def Scheduling.requests (c : Scheduling) (st : Stage) : Bool :=
  eqIgnoreAsciiCase (if st.partition.isEmpty then c.partition else st.partition) "by-blast-radius"

abbrev Radii := String → Option (List String)

/-- What the log and the grounder answer for radii: the radius recorded of a unit, the one computed
of a stage, and whether the log could be read and written. -/
structure Ground where
  recorded : String → Option (List String)
  computed : String → List String
  readable : Bool

/-- A step's answer: it panics, fails, or returns. -/
inductive Answer (α : Type) where
  | panic
  | error
  | ok (a : α)

/-- `partition_requested`; indexing a name that is no stage panics. -/
def partitionRequested (c : Scheduling) (stages : Stages) (ready : List String) : Option Bool :=
  (ready.mapM fun name => stages[name]?).map fun sts => sts.any c.requests

/-- The safe radius of one unit, empty where nothing is known of it. -/
def safeRadius (stages : Stages) (g : Ground) (name : String) : List String :=
  match g.recorded name, stages[name]? with
  | some safe, _ => safe
  | none, some _ => g.computed name
  | none, none => []

def waveRadii (c : Scheduling) (stages : Stages) (ready : List String) (inFlight : Finset String)
    (g : Ground) : Answer (Option Radii) :=
  if !c.grounder then .ok none
  else
    match partitionRequested c stages ready with
    | none => .panic
    | some false => .ok none
    | some true =>
      if g.readable then
        .ok (some fun name =>
          if name ∈ ready ∨ name ∈ inFlight then some (safeRadius stages g name) else none)
      else .error

/-- Indexing a missing radius panics. -/
def admissible (name : String) (width : Nat) (running inFlight : Finset String)
    (radii : Option Radii) : Option Bool :=
  if maxConcurrency ≤ running.card then some false
  else if name ∈ inFlight then some true
  else if width ≠ 0 ∧ width ≤ inFlight.card then some false
  else
    match radii with
    | none => some true
    | some m =>
      if inFlight = ∅ then some true
      else (m name).map fun r =>
        decide (∀ other ∈ inFlight, (m other).any (fun ro => !radiiConflict r ro) = true)

structure Frontier where
  critiqueGate : Option String
  fanoutCriteria : FanoutCriteria
  fanoutTemplateGates : List (String × List String)

namespace Frontier

def ready (f : Frontier) (stages : Stages) (integrated terminal : Finset String) : List String :=
  waveReady stages integrated terminal f.critiqueGate f.fanoutCriteria

/-- Whether a stage without gates is a unit of a template with some. -/
def ungated (f : Frontier) (st : Stage) : Bool :=
  st.gates.isEmpty &&
    ((f.fanoutCriteria.any fun t => t.2.contains st.criterionId &&
        ((f.fanoutTemplateGates.lookup t.1).any fun gates => !gates.isEmpty)) ||
      (st.unmatchedFanoutProposal && f.fanoutTemplateGates.any fun t => !t.2.isEmpty))

/-- `assert_no_ungated_fanout_unit`. -/
def check (f : Frontier) (stages : Stages) (ready : List String) : Bool :=
  !ready.any fun name => (stages[name]?).any f.ungated

end Frontier

/-! ## The wave -/

/-- A stage that was started: the radii in force, the units in flight beside it, and the units the
queued compensations condemn. -/
structure Admission where
  unit : String
  stage : Stage
  radii : Option Radii
  inFlight : Finset String
  queued : List String

/-- `offers` lists what the wave was offered, each with whether it joined while the wave ran and the
compensations queued then; `admissions` lists every start of the process. -/
structure Wave where
  stages : Stages
  frontier : Frontier
  joins : Bool
  radii : Option Radii
  offered : Finset String
  waiting : List String
  running : Finset String
  admittedAny : Bool
  failed : Bool
  integrated : Finset String
  terminal : Finset String
  inFlight : Finset String
  queued : List String
  offers : List (String × Bool × List String)
  admissions : List Admission

/-- How a stage ended: `landed` and `passed` are `Ok(true)` and `Ok(false)`. -/
inductive Outcome where
  | landed
  | passed
  | parked
  | refused
  | halted
  | failed
deriving DecidableEq

/-- A running stage's report, with what the process finds as it settles it. -/
structure Report where
  name : String
  outcome : Outcome
  budgetSpent : Bool
  queued : List String
  ground : Ground

/-- What a wave is begun over.  Between waves the process harvests proposals and drains
compensations, so the stages and their standing are whatever those left. -/
structure Begin where
  stages : Stages
  integrated : Finset String
  terminal : Finset String
  frontier : Frontier
  joins : Bool
  queued : List String
  ground : Ground

def Begin.ready (b : Begin) : List String := b.frontier.ready b.stages b.integrated b.terminal

inductive Act where
  | begin_ (b : Begin)
  | report (r : Report)

namespace Wave

/-- A process before its first wave. -/
def idle (inFlight : Finset String) : Wave where
  stages := ∅
  frontier := ⟨none, [], []⟩
  joins := false
  radii := none
  offered := ∅
  waiting := []
  running := ∅
  admittedAny := false
  failed := false
  integrated := ∅
  terminal := ∅
  inFlight := inFlight
  queued := []
  offers := []
  admissions := []

def start (w : Wave) (name : String) (st : Stage) : Wave :=
  { w with
    admittedAny := true
    running := insert name w.running
    inFlight := insert name w.inFlight
    admissions := w.admissions ++ [⟨name, st, w.radii, w.inFlight, w.queued⟩] }

/-- One pass over the waiting stages; `waiting` collects those that stay. -/
def admitFrom (c : Scheduling) (w : Wave) : List String → Option Wave
  | [] => some w
  | name :: rest =>
    (admissible name c.maxParallelUnits w.running w.inFlight w.radii).bind fun admitted =>
      if admitted then (w.stages[name]?).bind fun st => (w.start name st).admitFrom c rest
      else { w with waiting := w.waiting ++ [name] }.admitFrom c rest

def admitWaiting (c : Scheduling) (w : Wave) : Option Wave :=
  { w with waiting := [] }.admitFrom c w.waiting

/-- `settle_stage`; the compensations queued are those the process holds once the stage ended. -/
def settle (w : Wave) (r : Report) : Wave :=
  { w with
    running := w.running.erase r.name
    terminal := insert r.name w.terminal
    inFlight := if r.outcome = .parked then insert r.name w.inFlight else w.inFlight.erase r.name
    integrated := if r.outcome = .landed then insert r.name w.integrated else w.integrated
    failed := w.failed || r.outcome = .halted || r.outcome = .failed
    queued := r.queued }

def fail (w : Wave) : Wave := { w with failed := true }

/-- The ready stages the wave was not offered. -/
def newlyReady (w : Wave) : List String :=
  (w.frontier.ready w.stages w.integrated w.terminal).filter fun name => decide (name ∉ w.offered)

def extend (w : Wave) (radii : Option Radii) (queued : List String) : Wave :=
  { w with
    radii := radii
    offered := w.offered ∪ w.newlyReady.toFinset
    waiting := w.waiting ++ w.newlyReady
    offers := w.offers ++ w.newlyReady.map fun name => (name, true, queued) }

/-- `landing_joins`. -/
def join (c : Scheduling) (w : Wave) (r : Report) : Option Wave :=
  if r.budgetSpent || !r.queued.isEmpty then some w
  else if w.newlyReady.isEmpty then some w
  else if !w.frontier.check w.stages w.newlyReady then some w.fail
  else
    match waveRadii c w.stages (w.frontier.ready w.stages w.integrated w.terminal) w.inFlight
      r.ground with
    | .panic => none
    | .error => some w.fail
    | .ok radii => some (w.extend radii r.queued)

/-- A landing in a wave that has met no error looks for stages to join. -/
def landed (c : Scheduling) (w : Wave) (r : Report) : Option Wave :=
  if r.outcome = .landed ∧ w.failed = false ∧ w.joins = true then w.join c r else some w

def report (c : Scheduling) (w : Wave) (r : Report) : Option Wave :=
  if r.name ∉ w.running then some w else ((w.settle r).landed c r).bind (admitWaiting c)

/-- A wave over what the run loop found ready, before its first admission. -/
def opened (b : Begin) (radii : Option Radii) (w : Wave) : Wave where
  stages := b.stages
  frontier := b.frontier
  joins := b.joins
  radii := radii
  offered := b.ready.toFinset
  waiting := b.ready
  running := ∅
  admittedAny := false
  failed := false
  integrated := b.integrated
  terminal := b.terminal
  inFlight := w.inFlight
  queued := b.queued
  offers := b.ready.map fun name => (name, false, b.queued)
  admissions := w.admissions

/-- The run loop begins a wave once the one before it has ended, over a ready set its check took. -/
def beginWave (c : Scheduling) (w : Wave) (b : Begin) : Option Wave :=
  if w.running ≠ ∅ ∨ b.ready = [] ∨ b.frontier.check b.stages b.ready = false then some w
  else
    match waveRadii c b.stages b.ready w.inFlight b.ground with
    | .panic => none
    | .error => some w
    | .ok radii => (opened b radii w).admitWaiting c

def step (c : Scheduling) (w : Wave) : Act → Option Wave
  | .begin_ b => w.beginWave c b
  | .report r => w.report c r

end Wave

end Rigger.Conductor
