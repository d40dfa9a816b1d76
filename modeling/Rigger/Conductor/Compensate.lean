import Rigger.Conductor.Emit
import Rigger.Lib.Owed
import Rigger.Lib.Run

/-!
# The reverse gear (`rigger-conductor/src/conductor.rs`, `drain_compensations`)

A review that names another unit as the source of a defect queues a compensation: a mark in the log
and an entry in the process's queue.  A drain empties the queue and reverts what the log says each
target integrated.  A process that starts fills its queue with the marks no drain answers, paired by
count.

A drain may answer two marks of one target with one record and lets a mark of a target without
commits go unanswered, so a mark is left over for what the target integrates next
(`compensated_not_once`).  In a run where no unit integrates while it is owed a drain, what a drain
reverts was condemned after it was integrated (`compensated_once`).
-/

namespace Rigger.Conductor

open Lib Ledger

def metaCompensated : String := "compensated_commits"
def metaContradiction : String := "contradiction"
def metaCompensateTarget : String := "compensate_target"
def statusCompensationQueued : String := "compensation-queued"

/-- The `commit` of a unit that integrated no artifact. -/
def reviewOnlyNoArtifact : String := "(review-only: no integrated artifact)"

structure Compensation where
  target : String
  reason : String
deriving DecidableEq

def compensationQueuedKey (triggerer target : String) (attempt : Nat) : String :=
  triggerer ++ "/compensate-queued:" ++ target ++ "#" ++ toString attempt

/-! ## What the log says -/

/-- The compensation an event queues. -/
def markOf (e : Event) : Option Compensation :=
  e.meta_[metaCompensateTarget]?.map fun target =>
    ⟨target, e.meta_[metaContradiction]?.getD ""⟩

def bodyId (e : Event) : Option String := (e.data.value.bind (Json.get "id")).bind Json.asStr

/-- The unit whose compensation an event records as drained. -/
def drainOf (e : Event) : Option String :=
  if (markOf e).isNone && e.type_ == typeUnitFailed && e.meta_.contains metaCompensated then
    bodyId e
  else none

def marks (events : List Event) : List Compensation := events.filterMap markOf

def drained (events : List Event) (target : String) : Nat :=
  (events.filterMap drainOf).count target

/-- The first marks of a target answer its drains; the rest are pending. -/
def pendingCompensationsFromLog (priorEvents : List Event) : List Compensation :=
  owed Compensation.target (drained priorEvents) (fun _ => 0) (marks priorEvents)

/-- The commits the drains of a log record. -/
def compensatedCommitsFromLog (priorEvents : List Event) : List String :=
  (priorEvents.filter fun e => e.type_ == typeUnitFailed).flatMap fun e =>
    match e.meta_[metaCompensated]? with
    | some list => ((list.toList.splitOn ',').filter fun s => s ≠ []).map String.ofList
    | none => []

/-- The commits an integration landed: `shas` where it records them, else `commit`. -/
def eventCommits (v : Json) : List String :=
  match v.get "shas" with
  | some (.arr shas) => shas.filterMap Json.asStr
  | _ => ((v.get "commit").bind Json.asStr).toList

def commitsOf (e : Event) : List String := (e.data.value.map eventCommits).getD []

/-- The commits the unit's integrations landed, in the order of the log. -/
def integratedCommits (events : List Event) (unit : String) : List String :=
  (events.filter fun e => e.type_ == typeUnitIntegrated && bodyId e == some unit).flatMap commitsOf

/-- The commits to revert, newest first: none twice, none already compensated. -/
def commitsToCompensate (events : List Event) (already : List String) (unit : String) :
    List String :=
  ((integratedCommits events unit).foldl
    (fun commits commit =>
      if commit.isEmpty || commit == reviewOnlyNoArtifact || already.contains commit ||
        commits.contains commit then commits
      else commits ++ [commit]) []).reverse

/-! ## The run branch -/

/-- The commits a branch's history holds, and those it holds a revert of. -/
structure Branch where
  landed : List String
  reverts : List String
deriving DecidableEq

/-- The branch's tree still has the commit's change. -/
def Branch.carries (b : Branch) (commit : String) : Bool :=
  b.landed.contains commit && !b.reverts.contains commit

/-- `revert_on_base`: a commit whose change is gone leaves the branch where it is. -/
def Branch.revertOnBase (b : Branch) (commit : String) : Branch :=
  if b.carries commit then { b with reverts := b.reverts ++ [commit] } else b

/-- A commit is in a history once; merging it again lands nothing. -/
def Branch.land (b : Branch) (commit : String) : Branch :=
  if b.landed.contains commit then b else { b with landed := b.landed ++ [commit] }

/-! ## A process -/

/-- A target being rolled back: the commits still to revert, and those reverted. -/
structure Rollback where
  comp : Compensation
  todo : List String
  done : List String
deriving DecidableEq

/-- A drain under way: the rest of the queue it took, and the target it is at. -/
structure Drain where
  queued : List Compensation
  rollback : Option Rollback
deriving DecidableEq

/-- The part of a conductor's process the reverse gear reads and writes. -/
structure Process where
  prior : RunState
  replayedKeys : List String
  integrated : List String
  terminal : List String
  compensations : List Compensation
  compensatedCommits : List String
  compensationAttempts : List (String × Nat)
  compensationFeedback : List (String × String)
  drain : Option Drain

/-- A process starts from the run's log; none where the fold cannot read it. -/
def Process.start (priorEvents : List Event) : Option Process :=
  (project priorEvents).map fun prior =>
    { prior := prior
      replayedKeys := seededKeys priorEvents
      integrated := (prior.units.toList.filter fun u => u.2.status = .integrated).map fun u =>
        u.2.id
      terminal := (prior.units.toList.filter fun u => prior.isTerminal u.2.id).map fun u => u.2.id
      compensations := pendingCompensationsFromLog priorEvents
      compensatedCommits := compensatedCommitsFromLog priorEvents
      compensationAttempts := []
      compensationFeedback := priorEvents.filterMap fun e =>
        if e.type_ = typeUnitFailed then
          e.meta_[metaContradiction]?.bind fun reason => (bodyId e).map fun id => (id, reason)
        else none
      drain := none }

namespace Process

variable (p : Process)

/-- `prior_attempts`: the count the run-start fold left the unit at. -/
def priorAttempts (unit : String) : Nat := ((p.prior.units[unit]?).map Unit.attempts).getD 0

def countedAttempts (unit : String) : Nat :=
  max (p.priorAttempts unit)
    ((latest (fun x => if x.1 = unit then some x.2 else none) p.compensationAttempts).getD 0)

/-- The attempt a unit stands at: its counted one, or the highest it has a gate verdict at. -/
def effectiveAttempts (log : List Event) (unit : String) : Nat :=
  max (p.countedAttempts unit)
    ((gateVerdictHighWater ((log.filterMap gateVerdictOf).map Prod.fst) unit).getD 0)

end Process

/-! ## Steps -/

/-- The log and the branch outlive a process; one process runs at a time. -/
structure World where
  log : List Event
  branch : Branch
  proc : Option Process

def World.new : World := ⟨[], ⟨[], []⟩, none⟩

/-- A text git may name a commit by. -/
def isSha (text : String) : Bool :=
  text ≠ "" && text.toList.all fun c => c ∈ "0123456789abcdef".toList

structure Sha where
  text : String
  isSha : isSha text = true

/-- What a unit that integrates landed: no artifact, nothing, one commit, or a plan's commits. -/
inductive Landed where
  | noArtifact
  | nothing
  | commit (sha : Sha)
  | plan (shas : List Sha)

def Landed.body (unit : String) : Landed → Json
  | .noArtifact => .obj [("id", .str unit), ("commit", .str reviewOnlyNoArtifact)]
  | .nothing => .obj [("id", .str unit), ("commit", .str "")]
  | .commit sha => .obj [("id", .str unit), ("commit", .str sha.text)]
  | .plan shas =>
    .obj [("id", .str unit), ("commit", .str ((shas.getLast?.map Sha.text).getD "")),
      ("shas", .arr (shas.map fun sha => .str sha.text))]

/-- Neither a mark, nor a drain's record, nor an integration. -/
def isOther (e : Event) : Bool :=
  !e.meta_.contains metaCompensateTarget && !e.meta_.contains metaCompensated &&
    e.type_ != typeUnitIntegrated

inductive Action where
  /-- A process starts, where none runs. -/
  | start
  | crash
  /-- Anything else the run or an operator records. -/
  | other (e : Event)
  /-- Git lands a commit on the run branch. -/
  | land (sha : Sha)
  | integrate (mint : Mint) (unit : String) (landed : Landed)
  /-- A review of `triggerer` names `target`. -/
  | review (mint : Mint) (triggerer target reason : String) (attempt : Nat)
  /-- A wave is over: the drain takes the queue. -/
  | drain
  /-- The drain goes on to its next effect. -/
  | drainNext (mint : Mint)

namespace World

/-- `emit` of `UnitIntegrated`, and the unit put in the integrated and terminal sets. -/
def integrate (w : World) (p : Process) (mint : Mint) (unit : String) (landed : Landed) : World :=
  { w with
    log := w.log ++ [eventWithMeta mint typeUnitIntegrated (landed.body unit) []]
    proc := some
      { p with
        integrated := p.integrated ++ [unit]
        terminal := p.terminal ++ [unit] } }

def queuedBody (target reason : String) : Json :=
  .obj [("id", .str target), ("status", .str statusCompensationQueued),
    ("evidence", .obj [("compensation-queued", .str (trim reason))])]

/-- The mark is emitted once for its key; the queue takes the compensation each time. -/
def review (w : World) (p : Process) (mint : Mint) (triggerer target reason : String)
    (attempt : Nat) : World :=
  let key := compensationQueuedKey triggerer target attempt
  let mark := keyedEvent p.replayedKeys mint key typeUnitStatus (queuedBody target reason)
    [(metaCompensateTarget, target), (metaContradiction, trim reason)]
  { w with
    log := w.log ++ mark.toList
    proc := some
      { p with
        replayedKeys := if p.replayedKeys.contains key then p.replayedKeys
          else p.replayedKeys ++ [key]
        compensations := p.compensations ++ [⟨target, reason⟩] } }

/-- The record of a target rolled back. -/
def compensatedEvent (mint : Mint) (comp : Compensation) (reverted : List String)
    (attempts : Nat) : Event :=
  eventWithMeta mint typeUnitFailed (PriorFailure.none.failedBody comp.target attempts causeReject)
    [(metaCompensated, ",".intercalate reverted), (metaContradiction, trim comp.reason)]

/-- Every commit of the target is reverted: record it and re-enter the target. -/
def recordRollback (w : World) (p : Process) (mint : Mint) (queued : List Compensation)
    (comp : Compensation) (reverted : List String) : World :=
  let attempts := p.effectiveAttempts w.log comp.target + 1
  { w with
    log := w.log ++ [compensatedEvent mint comp reverted attempts]
    proc := some
      { p with
        compensatedCommits := p.compensatedCommits ++ reverted
        compensationAttempts := p.compensationAttempts ++ [(comp.target, attempts)]
        compensationFeedback := p.compensationFeedback ++ [(comp.target, comp.reason)]
        integrated := p.integrated.filter (· ≠ comp.target)
        terminal := p.terminal.filter (· ≠ comp.target)
        drain := some ⟨queued, none⟩ } }

/-- One effect of `drain_compensations`. -/
def drainNext (w : World) (p : Process) (mint : Mint) (d : Drain) : World :=
  match d.rollback, d.queued with
  | some ⟨comp, [], done⟩, queued => w.recordRollback p mint queued comp done
  | some ⟨comp, commit :: todo, done⟩, queued =>
    { w with
      branch := w.branch.revertOnBase commit
      proc := some { p with drain := some ⟨queued, some ⟨comp, todo, done ++ [commit]⟩⟩ } }
  | none, [] => { w with proc := some { p with drain := none } }
  | none, comp :: queued =>
    let commits := if p.integrated.contains comp.target then
      commitsToCompensate w.log p.compensatedCommits comp.target else []
    -- nothing of the target to revert: no record, and its marks stay as they are
    if commits.isEmpty then { w with proc := some { p with drain := some ⟨queued, none⟩ } }
    else { w with proc := some { p with drain := some ⟨queued, some ⟨comp, commits, []⟩⟩ } }

def step (w : World) (a : Action) : World :=
  match a, w.proc with
  | .start, none => { w with proc := Process.start w.log }
  | .crash, _ => { w with proc := none }
  | .other e, _ => if isOther e then { w with log := w.log ++ [e] } else w
  | .land sha, _ => { w with branch := w.branch.land sha.text }
  | .integrate mint unit landed, some p =>
    if p.drain.isNone then w.integrate p mint unit landed else w
  | .review mint triggerer target reason attempt, some p =>
    -- a verdict names no blank unit, and a unit never compensates itself
    if p.drain.isNone && target != "" && target != triggerer then
      w.review p mint triggerer target reason attempt
    else w
  | .drain, some p =>
    if p.drain.isNone then
      { w with proc := some { p with compensations := [], drain := some ⟨p.compensations, none⟩ } }
    else w
  | .drainNext mint, some p =>
    match p.drain with
    | some d => w.drainNext p mint d
    | none => w
  | _, _ => w

end World

end Rigger.Conductor
