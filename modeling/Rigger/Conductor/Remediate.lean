import Rigger.Conductor.Emit

/-!
# Bounded remediation (`safety.rs`, and the loops of `rigger-conductor/src/conductor.rs`)

A failed attempt is charged: its `UnitFailed` carries the count, and at the unit's bound a
`UnitEscalated` follows it.  Three loops do so, each from the count the log left: the stage of an
implemented unit, a standalone fan-out review, and the critique of a plan.  An outage of
infrastructure reruns the attempt under the next ordinal and charges nothing; an operator's grant
raises an escalated unit's bound to the attempts it made and those it grants.
-/

namespace Rigger.Conductor

open Lib Ledger

/-! ## The decision -/

inductive Decision where
  | retry
  | escalate
deriving DecidableEq

structure Remediation where
  decision : Decision
  attempts : Nat

def remediate (priorAttempts max : Nat) : Remediation where
  decision := if max ≤ priorAttempts + 1 then .escalate else .retry
  attempts := priorAttempts + 1

theorem remediate_escalates (priorAttempts max : Nat) :
    (remediate priorAttempts max).decision = .escalate ↔
      max ≤ (remediate priorAttempts max).attempts := by
  unfold remediate
  split <;> simp_all

def maxRetries : UInt32 := 3

/-- `stage_max_retries`: the stage's own bound, else the default one, else three; 0 is unset. -/
def stageMaxRetries (own defaults : UInt32) : UInt32 :=
  if own ≠ 0 then own else if defaults ≠ 0 then defaults else maxRetries

/-! ## Infrastructure reruns -/

def statusInfraRetry : String := "infra-retry"
def statusInfraHalt : String := "infra-halt"

def infraMarkKey (unit status : String) (attempt ordinal : Nat) : String :=
  unit ++ "/" ++ status ++ "#" ++ toString attempt ++ "~" ++ toString ordinal

def failedKey (unit : String) (attempt : Nat) : String := unit ++ "/failed#" ++ toString attempt

def specDefectEscalatedKey (gate : String) (attempt : Nat) : String :=
  gate ++ "/spec-defect-escalated#" ++ toString attempt

/-- The infra mark an event is of the unit, with its attempt (`unit_status_marks`). -/
def infraMark (unit : String) (e : Event) : Option (String × Nat) :=
  if e.type_ = typeUnitStatus then
    e.data.value.bind fun v =>
      if (v.get "id").bind Json.asStr = some unit then
        ((v.get "status").bind Json.asStr).bind fun status =>
          if status = statusInfraRetry ∨ status = statusInfraHalt then
            ((v.get "attempt").bind (Json.asUnsigned 64)).map fun attempt => (status, attempt)
          else none
      else none
  else none

structure InfraRetries where
  ordinal : Nat
  sinceHalt : Nat
deriving DecidableEq

def InfraRetries.after (infra : InfraRetries) (status : String) : InfraRetries :=
  if status = statusInfraRetry then ⟨infra.ordinal + 1, infra.sinceHalt + 1⟩
  else ⟨infra.ordinal, 0⟩

def InfraRetries.recorded (events : List Event) (unit : String) (attempt : Nat) : InfraRetries :=
  ((events.filterMap (infraMark unit)).filter fun m => m.2 = attempt).foldl
    (fun infra m => infra.after m.1) ⟨0, 0⟩

/-! ## Spawn ids -/

def roleImplementer : String := "implementer"

def conflictResolveBound : Nat := 3
def reviewerRespawnBound : Nat := 2

def implementerRetry (ordinal : Nat) : Nat := ordinal * (conflictResolveBound + 1)

/-- The first id of `review_retry_window`. -/
def reviewRetry (ordinal : Nat) : Nat := ordinal * (reviewerRespawnBound + 1)

def spawnId (unit role : String) (attempt : Nat) : String :=
  unit ++ "/" ++ role ++ "#" ++ toString attempt

def withRetry (base : String) (retry : Nat) : String :=
  if retry = 0 then base else base ++ "~retry" ++ toString retry

def spawnRetryId (unit role : String) (attempt retry : Nat) : String :=
  withRetry (spawnId unit role attempt) retry

/-! ## The stop on a defect of the spec -/

def specDefectHalt (spec : String) (upheld : List String) : String :=
  "amend the spec and relaunch: plan-critique found a spec defect in " ++
    (if spec.isEmpty then "the spec" else spec) ++ " (" ++
    (if upheld.isEmpty then "none upheld" else ", ".intercalate upheld) ++
    "); critique the amended spec, then start the run again"

theorem specDefectHalt_ne_empty (spec : String) (upheld : List String) :
    specDefectHalt spec upheld ≠ "" := by
  intro h
  have hlast := (String.append_eq_empty_iff.1 h).2
  exact absurd hlast (by decide)

/-! ## The loops -/

/-- Which loop remediates the unit. -/
inductive Loop where
  | implement
  | fanOut
  | planCritique
deriving DecidableEq

/-- A unit, its loop, the bounds its stage and the defaults set, and the limit of infra reruns. -/
structure Setup where
  unit : String
  loop : Loop
  own : UInt32
  defaults : UInt32
  infraLimit : Nat

def Setup.plain (u : Setup) : Nat := (stageMaxRetries u.own u.defaults).toNat

/-- `max_retries_for`, over the run state a process started from. -/
def Setup.maxRetriesFor (u : Setup) (prior : RunState) : Nat :=
  max (prior.unitAt u.unit).resumeBound u.plain

/-- The attempt a loop enters at: the implemented unit's is its effective one, but for its merge,
which goes on at the count the process started from. -/
def Setup.seed (u : Setup) (prior : RunState) (log : List Event) (reviewed : Bool) : Nat :=
  if u.loop = .implement ∧ reviewed = false then
    max (prior.unitAt u.unit).attempts
      ((gateVerdictHighWater ((log.filterMap gateVerdictOf).map Prod.fst) u.unit).getD 0)
  else (prior.unitAt u.unit).attempts

def Setup.infraAt (u : Setup) (events : List Event) (attempt : Nat) : InfraRetries :=
  match u.loop with
  | .implement => .recorded events u.unit attempt
  | .fanOut | .planCritique => ⟨0, 0⟩

/-- Where a loop stands: at its head, before its first attempt; in an attempt; past one that was
charged; or past one that halts on infrastructure. -/
inductive Place where
  | entered
  | running
  | charged (decision : Decision)
  | halting (detail : String)
deriving DecidableEq

/-- A loop, with the log it read when it was entered.  A `reviewed` one has only a merge left, that
of a unit approved before. -/
structure LoopState where
  reviewed : Bool
  events : List Event
  attempts : Nat
  infra : InfraRetries
  place : Place

/-- A process: the run state it started from, whether the unit is settled for it, and its loop. -/
structure Attempting where
  prior : RunState
  terminal : Bool
  loop : Option LoopState

/-- An attempt as a loop ran it, under the ordinal of its infra rerun. -/
structure Run where
  attempt : Nat
  ordinal : Nat
deriving DecidableEq

/-- The id the run's implementer spawns under. -/
def Run.implementer (unit : String) (r : Run) : String :=
  spawnRetryId unit roleImplementer r.attempt (implementerRetry r.ordinal)

/-- The id a reviewer of the run first spawns under. -/
def Run.reviewer (unit role : String) (r : Run) : String :=
  spawnRetryId unit role r.attempt (reviewRetry r.ordinal)

structure Trial where
  log : List Event
  proc : Option Attempting
  runs : List Run

def Trial.new : Trial := ⟨[], none, []⟩

inductive Move where
  | start
  /-- The process crashes, or ends with the unit parked. -/
  | exit
  | record (e : Event)
  | grant (mint : Mint) (attempts : Nat)
  /-- A wave schedules the unit. -/
  | enter (reviewed : Bool)
  | infra (mint : Mint) (detail : String)
  | fail (mint : Mint) (failure : PriorFailure) (cause sha : String)
  | pass (mint : Mint) (commit : String)
  /-- The loop goes on from its head, from a charged attempt or from a halt. -/
  | proceed (mint : Mint)
  /-- The critique of a plan stops on a defect of the spec. -/
  | stop (mint : Mint) (spec : String) (upheld : List String)

/-- The keys the unit's own remediation emits under: those of a charged attempt and of a rerun. -/
def ownKey (unit key : String) : Bool :=
  (stripPrefix (unit ++ "/failed#") key).isSome ||
    (stripPrefix (unit ++ "/infra-retry#") key).isSome

def metaWorktreeSha : String := "worktree_sha"

/-- Whether an event is a lifecycle event of the unit. -/
def names (unit : String) (e : Event) : Bool :=
  RunState.unitTypes.contains e.type_ && (RunState.unitEvent e).any fun p => p.1 == unit

/-- What anything but the unit's own remediation may record: an event of another unit, or the
start, a status or a gate verdict of the attempt that runs. -/
def recordable (unit : String) (running : Option Nat) (e : Event) : Bool :=
  folds e && (infraMark unit e).isNone &&
    (e.meta_[metaReplayKey]?.all fun key => !ownKey unit key) &&
    (!names unit e || (running.isSome && statusMoved unit e != some .escalated &&
      (e.type_ == typeUnitStarted || e.type_ == typeUnitStatus))) &&
    ((gateVerdictOf e).all fun x => unitOfGateKey x.1 != some unit ||
      running.any fun attempts => (gateKeyAttempt x.1).all (· ≤ attempts))

namespace Trial

variable (u : Setup) (w : Trial)

/-- `emit_keyed`. -/
def emitKeyed (mint : Mint) (key type_ : String) (body : Json) (extra : List (String × String)) :
    List Event :=
  (keyedEvent (seededKeys w.log) mint key type_ body extra).toList

def failedEvent (mint : Mint) (attempts : Nat) (failure : PriorFailure) (cause sha : String) :
    Event :=
  eventWithMeta mint typeUnitFailed (failure.failedBody u.unit attempts cause)
    [(metaWorktreeSha, sha)]

/-- The `UnitFailed` of an attempt: the implemented unit's has no key. -/
def failed (mint : Mint) (attempt : Nat) (failure : PriorFailure) (cause sha : String) :
    List Event :=
  let body := failure.failedBody u.unit (attempt + 1) cause
  match u.loop with
  | .implement => [failedEvent u mint (attempt + 1) failure cause sha]
  | .fanOut =>
    w.emitKeyed mint (failedKey u.unit attempt) typeUnitFailed body [(metaWorktreeSha, sha)]
  | .planCritique => w.emitKeyed mint (failedKey u.unit attempt) typeUnitFailed body []

def infraMarked (mint : Mint) (status : String) (l : LoopState) (detail : String) : List Event :=
  w.emitKeyed mint (infraMarkKey u.unit status l.attempts l.infra.ordinal) typeUnitStatus
    (.obj [("id", .str u.unit), ("status", .str status), ("attempt", .num l.attempts),
      ("evidence", .obj [(status, .str detail)])]) []

def integratedEvent (mint : Mint) (commit : String) : Event :=
  eventWithMeta mint typeUnitIntegrated (.obj [("id", .str u.unit), ("commit", .str commit)]) []

def escalatedEvent (mint : Mint) : Event :=
  eventWithMeta mint typeUnitEscalated (.obj [("id", .str u.unit)]) []

/-- `rigger resume-unit`. -/
def resumedEvent (mint : Mint) (granted : Nat) : Event :=
  eventWithMeta mint typeUnitResumed
    (.obj [("unit", .str u.unit), ("attempts_granted", .num granted), ("by", .str "operator")]) []

/-- The loop runs the attempt it stands at. -/
def running (p : Attempting) (l : LoopState) : Trial :=
  { w with
    proc := some { p with loop := some { l with place := .running } }
    runs := w.runs ++ [⟨l.attempts, l.infra.ordinal⟩] }

/-- The unit is settled for the process. -/
def settle (p : Attempting) (events : List Event) : Trial :=
  { w with log := w.log ++ events, proc := some { p with terminal := true, loop := none } }

def enter (p : Attempting) (reviewed : Bool) : Trial :=
  let attempts := u.seed p.prior w.log reviewed
  let l : LoopState := ⟨reviewed, w.log, attempts, u.infraAt w.log attempts, .entered⟩
  { w with proc := some { p with loop := some l } }

/-- `retry_infra_failure`, to its first mark. -/
def infra (p : Attempting) (l : LoopState) (mint : Mint) (detail : String) : Trial :=
  let marked := { w with log := w.log ++ w.infraMarked u mint statusInfraRetry l detail }
  if l.infra.sinceHalt < u.infraLimit then
    marked.running p { l with infra := l.infra.after statusInfraRetry }
  else { marked with proc := some { p with loop := some { l with place := .halting detail } } }

def fail (p : Attempting) (l : LoopState) (mint : Mint) (failure : PriorFailure)
    (cause sha : String) : Trial :=
  if l.reviewed then
    -- a merge that fails is charged, and no decision is taken
    w.settle p [failedEvent u mint (l.attempts + 1) failure cause sha]
  else
    let rem := remediate l.attempts (u.maxRetriesFor p.prior)
    let l' := { l with
      attempts := rem.attempts
      infra := u.infraAt l.events rem.attempts
      place := .charged rem.decision }
    { w with
      log := w.log ++ w.failed u mint l.attempts failure cause sha
      proc := some { p with loop := some l' } }

def proceed (p : Attempting) (l : LoopState) (mint : Mint) : Trial :=
  match l.place with
  | .running => w
  | .entered | .charged .retry => w.running p l
  | .charged .escalate => w.settle p [escalatedEvent u mint]
  | .halting detail =>
    { w with log := w.log ++ w.infraMarked u mint statusInfraHalt l detail, proc := none }

/-- `stopped_on_spec_defect`, at the head of a round that follows two rejects. -/
def stop (p : Attempting) (l : LoopState) (mint : Mint) (spec : String) (upheld : List String) :
    Trial :=
  let key := specDefectEscalatedKey u.unit (l.attempts - 1)
  if 2 ≤ l.attempts && !(seededKeys w.log).contains key then
    w.settle p (w.emitKeyed mint key typeUnitEscalated
      (.obj [("id", .str u.unit), ("reason", .str (specDefectHalt spec upheld))]) [])
  else w

def atHead (l : LoopState) : Bool :=
  match l.place with
  | .entered | .charged _ => true
  | .running | .halting _ => false

def step (a : Move) : Trial :=
  match a, w.proc with
  | .start, none =>
    { w with proc := (project w.log).map fun prior => ⟨prior, prior.isTerminal u.unit, none⟩ }
  | .exit, _ => { w with proc := none }
  | .record e, proc =>
    let attempts := (proc.bind Attempting.loop).bind fun l =>
      if l.place = .running then some l.attempts else none
    if recordable u.unit attempts e then { w with log := w.log ++ [e] } else w
  | .grant mint granted, _ =>
    -- the command takes a positive `u32` for a unit the run's fold holds escalated
    if 0 < granted && granted < 2 ^ 32 &&
        (project w.log).any fun run => (run.unitAt u.unit).status == .escalated then
      { w with log := w.log ++ [resumedEvent u mint granted] }
    else w
  | .enter reviewed, some p =>
    if !p.terminal && p.loop.isNone && (!reviewed || u.loop == .implement) then
      w.enter u p reviewed
    else w
  | .infra mint detail, some p =>
    match p.loop with
    | some l =>
      if u.loop = .implement ∧ l.place = .running then w.infra u p l mint detail else w
    | none => w
  | .fail mint failure cause sha, some p =>
    match p.loop with
    | some l => if l.place = .running then w.fail u p l mint failure cause sha else w
    | none => w
  | .pass mint commit, some p =>
    match p.loop with
    | some l => if l.place = .running then w.settle p [integratedEvent u mint commit] else w
    | none => w
  | .proceed mint, some p =>
    match p.loop with
    | some l => w.proceed u p l mint
    | none => w
  | .stop mint spec upheld, some p =>
    match p.loop with
    | some l =>
      if u.loop = .planCritique ∧ atHead l then w.stop u p l mint spec upheld else w
    | none => w
  | _, _ => w

end Trial

end Rigger.Conductor
