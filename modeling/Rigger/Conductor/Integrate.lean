import Rigger.Conductor.Compensate
import Rigger.Lib.History

/-!
# Landing a unit (`rigger-conductor/src/conductor.rs`, `integrate_and_emit`)

A pass merges the run branch into the unit's worktree and fast-forwards the run branch to it.  The
landing is recorded with the commit it started from, its tree is gated again, and a red gate resets
the run branch to that commit.  A process that finds nothing of the unit to land takes the landing
the log records for the attempt and gates it again.

The lock is held from a pass that merges until the gate has spoken; it is dropped while an agent
resolves a conflict and while a regeneration runs.
-/

namespace Rigger.Conductor.Integrate

open Lib Ledger

def statusIntegrateTipMoved : String := "integrate-tip-moved"
def statusIntegrateLandingIntent : String := "integrate-landing-intent"
def statusIntegrateLanded : String := "integrate-landed"

def tipMovedPassBound : Nat := 8

/-! ## The rows of the log -/

/-- The pass of a landing, and the two commits its row names. -/
structure Landing where
  pass : Nat
  first : String
  second : String
deriving DecidableEq

abbrev Landings := String → Option Landing

def conflictRegenerateKey (unit : String) (attempt : Nat) : String :=
  unit ++ "#" ++ toString attempt

def integrateKey (row unit : String) (attempt pass : Nat) : String :=
  unit ++ "/" ++ row ++ "#" ++ toString attempt ++ "~" ++ toString pass

/-- The pass a replay key ends with, 0 where it names none. -/
def passOf (e : Event) : Nat :=
  ((e.meta_[metaReplayKey]?.bind fun key => rsplitOnceList '~' key.toList).bind fun p =>
    parseU32 p.2).getD 0

/-- `integrate_row`: the ledger key of a row, its status and its pass. -/
def integrateRow (e : Event) : Option (String × String × Nat × Json) :=
  if e.type_ = typeUnitStatus then do
    let v ← e.data.value
    let status ← (v.get "status").bind Json.asStr
    let id ← (v.get "id").bind Json.asStr
    -- `as u32` keeps the low 32 bits
    let attempt := ((v.get "attempt").bind (Json.asUnsigned 64)).getD 0 % 2 ^ 32
    pure (conflictRegenerateKey id attempt, status, passOf e, v)
  else none

def evidencePair (v : Json) (a b : String) : Option (String × String) := do
  let evidence ← v.get "evidence"
  let a ← (evidence.get a).bind Json.asStr
  let b ← (evidence.get b).bind Json.asStr
  pure (a, b)

/-- What a process knows of landings: those intended and not yet recorded, and those recorded. -/
structure Ledgers where
  pending : Landings
  landed : Landings

def Ledgers.empty : Ledgers := ⟨fun _ => none, fun _ => none⟩

def Ledgers.after (l : Ledgers) (e : Event) : Ledgers :=
  match integrateRow e with
  | none => l
  | some (key, status, pass, v) =>
    if status = statusIntegrateLandingIntent then
      match evidencePair v "unit_tip" "run_tip" with
      | some (unitTip, runTip) =>
        { l with pending := Function.update l.pending key (some ⟨pass, unitTip, runTip⟩) }
      | none => l
    else if status = statusIntegrateLanded then
      let l := { l with pending := Function.update l.pending key none }
      match evidencePair v "sha" "pre_merge" with
      | some (sha, preMerge) =>
        { l with landed := Function.update l.landed key (some ⟨pass, sha, preMerge⟩) }
      | none => l
    else l

def landingsFromLog (priorEvents : List Event) : Ledgers :=
  priorEvents.foldl Ledgers.after Ledgers.empty

/-- The body of an integrate row. -/
def rowBody (status unit : String) (attempt : Nat) (evidence : List (String × Json)) : Json :=
  .obj [("id", .str unit), ("status", .str status), ("attempt", .num attempt),
    ("evidence", .obj evidence)]

/-! ## The state -/

/-- A unit's worktree: the tip of its branch, and the commit a merge in progress takes in. -/
structure Worktree where
  head : String
  mergeHead : Option String
deriving DecidableEq

/-- Where a unit stands in the call that integrates it. -/
inductive Stage where
  /-- At the door, with the landing it takes as made. -/
  | entered (landed : Option Landing)
  /-- Before its next pass. -/
  | looping
  | merging (preMerge : String)
  | ready (commit preMerge : String)
  | intended (commit preMerge : String)
  | moved (commit preMerge : String)
  | landed (commit preMerge : String)
  | regating (commit preMerge : String)
  | rolledBack
  /-- The call is over, with the commit to record. -/
  | passed (commit : String)
deriving DecidableEq

structure Flight where
  attempt : Nat
  pass : Nat
  unitHeadBeforeMerge : String
  stage : Stage
deriving DecidableEq

structure Process where
  ledgers : Ledgers
  lock : Option String
  flights : String → Option Flight

/-- Who moved the run branch: a unit at an attempt, or anything that lands no unit. -/
abbrev Mover := Option (String × Nat)

/-- What outlives a process: the log, the commits, the run branch with the moves that led it to its
tip, and the worktrees. -/
structure Durable where
  log : List Event
  git : History String
  base : String
  tip : String
  moves : List (Moved Mover String)
  worktree : String → Worktree

structure World extends Durable where
  proc : Option Process

/-- The run branch stands at `base`, and so does every unit's. -/
def World.new (base : String) : World where
  log := []
  git := .root base
  base := base
  tip := base
  moves := []
  worktree := fun _ => ⟨base, none⟩
  proc := none

inductive Action where
  | start
  | crash
  | record (e : Event)
  /-- A commit on the run branch that lands no unit: an operator's, an amendment's, a revert. -/
  | outside (sha : String)
  /-- A unit's branch is cut at the run branch's tip. -/
  | branch (unit : String)
  /-- A commit in a unit's worktree, which ends a merge in progress. -/
  | work (unit sha : String)
  /-- The call that integrates a unit, which finds paths changed since its base or not, and owes a
  regeneration or not. -/
  | enter (unit : String) (attempt : Nat) (mint : Mint) (changed owed : Bool)
  | lock (unit : String) (mint : Mint)
  | pass (unit : String)
  | merge (unit : String) (conflict : Bool) (sha : String)
  | intend (unit : String) (mint : Mint)
  | land (unit : String) (mint : Mint)
  | recordLanded (unit : String) (mint : Mint)
  | settle (unit : String) (owed : Bool)
  | regate (unit : String) (pass : Bool)
  /-- The unit's branch is reset to where the call found it. -/
  | unwind (unit : String)
  /-- The call ends in an error, or parks. -/
  | leave (unit : String)
  | integrate (unit : String) (mint : Mint)

/-! ## The steps -/

/-- The commits a log records as integrated, and no compensation as reverted. -/
def Standing (log : List Event) (unit commit : String) : Prop :=
  commit ∈ integratedCommits log unit ∧ commit ≠ "" ∧ commit ≠ reviewOnlyNoArtifact ∧
    commit ∉ compensatedCommitsFromLog log

instance (log : List Event) (unit commit : String) : Decidable (Standing log unit commit) :=
  inferInstanceAs (Decidable (_ ∧ _ ∧ _ ∧ _))

def stands (log : List Event) (unit : String) : Bool :=
  (integratedCommits log unit).any fun commit => Standing log unit commit

namespace World

variable (w : World)

def flightOf (unit : String) : Option Flight := w.proc.bind fun p => p.flights unit

/-- The unit goes on to a stage of its call. -/
def toStage (p : Process) (unit : String) (f : Flight) (stage : Stage) : World :=
  let flights := Function.update p.flights unit (some { f with stage := stage })
  { w with proc := some { p with flights := flights } }

/-- The call is over for the unit, and its lock released. -/
def depart (p : Process) (unit : String) : World :=
  let lock := if p.lock = some unit then none else p.lock
  { w with proc := some { p with lock := lock, flights := Function.update p.flights unit none } }

/-- Whether a unit may take the lock, or has it. -/
def mayLock (p : Process) (unit : String) : Bool := p.lock.all (· == unit)

/-- `record_integrate_row`. -/
def emitRow (mint : Mint) (row status unit : String) (f : Flight)
    (evidence : List (String × Json)) :
    List Event :=
  (keyedEvent (seededKeys w.log) mint (integrateKey row unit f.attempt f.pass) typeUnitStatus
    (rowBody status unit f.attempt evidence) []).toList

/-- `record_landed`: the row, and the entry of this process. -/
def recordLandedRow (p : Process) (mint : Mint) (unit : String) (f : Flight)
    (pass : Nat) (sha preMerge : String) : World × Process :=
  let row := w.emitRow mint "landed" statusIntegrateLanded unit { f with pass := pass }
    [("sha", .str sha), ("pre_merge", .str preMerge)]
  let landed := Function.update p.ledgers.landed (conflictRegenerateKey unit f.attempt)
    (some ⟨pass, sha, preMerge⟩)
  ({ w with log := w.log ++ row }, { p with ledgers := { p.ledgers with landed := landed } })

/-- Drop the intent this process holds of the unit's attempt. -/
def clearPending (p : Process) (unit : String) (attempt : Nat) : Process :=
  let pending := Function.update p.ledgers.pending (conflictRegenerateKey unit attempt) none
  { p with ledgers := { p.ledgers with pending := pending } }

/-- `landed_at`: what a pass that merged nothing new landed at is the attempt's latest landing. -/
def landedAt (p : Process) (unit : String) (attempt : Nat) (merged mergedFrom : String) :
    String × String :=
  if merged ≠ "" then (merged, mergedFrom)
  else match p.ledgers.landed (conflictRegenerateKey unit attempt) with
    | some l => (l.first, l.second)
    | none => (merged, mergedFrom)

/-- The end of the merge loop: what landed is gated again, and nothing is where nothing landed. -/
def finish (p : Process) (unit : String) (f : Flight) (merged mergedFrom : String) : World :=
  let (commit, preMerge) := landedAt p unit f.attempt merged mergedFrom
  if commit ≠ "" then w.toStage p unit f (.regating commit preMerge)
  else w.toStage { p with lock := none } unit f (.passed "")

/-- `git reset --hard` on the run branch; an empty commit resets nothing. -/
def resetTo (sha : String) : World :=
  if sha = "" then w else { w with tip := sha, moves := movesTo sha w.moves }

def enter (p : Process) (unit : String) (attempt : Nat) (mint : Mint)
    (changed owed : Bool) : World :=
  let key := conflictRegenerateKey unit attempt
  let f : Flight := ⟨attempt, 0, (w.worktree unit).head, .looping⟩
  if changed then w.toStage p unit f (.entered none)
  else match p.ledgers.pending key with
    | none =>
      if owed then w.toStage p unit f (.entered none)
      else match p.ledgers.landed key with
        | some l => w.toStage p unit f (.entered (some l))
        | none => w.toStage p unit f (.passed "")
    | some l =>
      if owed then
        let (w', p') := w.recordLandedRow p mint unit f l.pass l.first l.second
        w'.toStage (clearPending p' unit attempt) unit f (.entered none)
      else w.toStage p unit f (.entered (some l))

/-- The lock is taken: a landing the call takes as made is recorded, and the merge loop skipped. -/
def lock (p : Process) (unit : String) (f : Flight) (mint : Mint)
    (taken : Option Landing) : World :=
  let f := { f with unitHeadBeforeMerge := (w.worktree unit).head }
  let p := { p with lock := some unit }
  match taken with
  | some l =>
    let (w', p') := w.recordLandedRow p mint unit f l.pass l.first l.second
    w'.finish (clearPending p' unit f.attempt) unit f l.first l.second
  | none => w.toStage p unit f .looping

/-- `merge_into_worktree`. -/
def merge (p : Process) (unit : String) (f : Flight) (preMerge : String) (conflict : Bool)
    (sha : String) : World :=
  let wt := w.worktree unit
  let conflicted := w.toStage { p with lock := none } unit f .looping
  let commit (parent : String) : World :=
    let w' :=
      { w with
        git := w.git.commit sha [wt.head, parent]
        worktree := Function.update w.worktree unit ⟨sha, none⟩ }
    w'.toStage p unit f (.ready sha preMerge)
  let fresh := sha ≠ "" && !w.git.made.contains sha
  match wt.mergeHead with
  | some parent => if conflict then conflicted else if fresh then commit parent else w
  | none =>
    if wt.head = w.tip then w.finish p unit f "" preMerge
    else if w.tip ∈ w.git.past wt.head then w.toStage p unit f (.ready wt.head preMerge)
    else if conflict then
      { conflicted with
        worktree := Function.update w.worktree unit ⟨wt.head, some w.tip⟩ }
    else if fresh then commit w.tip
    else w

/-- `Worktree::land`, fast-forward only. -/
def land (p : Process) (unit : String) (f : Flight) (mint : Mint)
    (commit preMerge : String) : World :=
  let head := (w.worktree unit).head
  if head ∈ w.git.past w.tip then w.toStage p unit f (.moved commit preMerge)
  else if w.tip ∈ w.git.past head then
    let move : Moved Mover String := ⟨some (unit, f.attempt), w.tip, head⟩
    { w with tip := head, moves := w.moves ++ [move] }.toStage p unit f (.moved commit preMerge)
  else
    let row := w.emitRow mint "tip-moved" statusIntegrateTipMoved unit f
      [("run_tip", .str preMerge), ("unit_tip", .str commit)]
    let w' := { w with log := w.log ++ row }
    if tipMovedPassBound ≤ f.pass then w'.depart p unit else w'.toStage p unit f .looping

/-- The gates have spoken on the tree of a landing. -/
def regate (p : Process) (unit : String) (f : Flight) (preMerge commit : String) (pass : Bool) :
    World :=
  if pass then w.toStage { p with lock := none } unit f (.passed commit)
  else (w.resetTo preMerge).toStage p unit f .rolledBack

def integratedEvent (mint : Mint) (unit commit : String) : Event :=
  eventWithMeta mint typeUnitIntegrated (.obj [("id", .str unit), ("commit", .str commit)]) []

/-- What the rest of the run may record: a unit's integration only where it lands on the run branch
by itself, in commits of its own. -/
def recordable (e : Event) : Bool :=
  e.type_ != typeUnitIntegrated ||
    ((bodyId e).all fun unit => (w.flightOf unit).isNone) &&
      (commitsOf e).all fun commit => commit.isEmpty || commit == reviewOnlyNoArtifact ||
        w.moves.any fun m => m.who.isNone && m.target == commit

/-- A unit's worktree is its own outside the passes of its call. -/
def isFree (unit : String) : Bool :=
  match (w.flightOf unit).map Flight.stage with
  | none | some (.entered _) | some .looping | some (.passed _) => true
  | some _ => false

def step (a : Action) : World :=
  match a, w.proc with
  | .start, none => { w with proc := some ⟨landingsFromLog w.log, none, fun _ => none⟩ }
  | .crash, _ => { w with proc := none }
  | .record e, _ => if w.recordable e then { w with log := w.log ++ [e] } else w
  | .outside sha, _ =>
    if sha ≠ "" && !w.git.made.contains sha then
      { w with
        git := w.git.commit sha [w.tip]
        tip := sha
        moves := w.moves ++ [⟨none, w.tip, sha⟩] }
    else w
  | .branch unit, _ =>
    if (w.flightOf unit).isNone then
      { w with worktree := Function.update w.worktree unit ⟨w.tip, none⟩ }
    else w
  | .work unit sha, _ =>
    let wt := w.worktree unit
    if w.isFree unit && sha ≠ "" && !w.git.made.contains sha then
      { w with
        git := w.git.commit sha (wt.head :: wt.mergeHead.toList)
        worktree := Function.update w.worktree unit ⟨sha, none⟩ }
    else w
  | .enter unit attempt mint changed owed, some p =>
    if (p.flights unit).isNone && !stands w.log unit then w.enter p unit attempt mint changed owed
    else w
  | .lock unit mint, some p =>
    match p.flights unit with
    | some ⟨attempt, pass, head, .entered taken⟩ =>
      if mayLock p unit then w.lock p unit ⟨attempt, pass, head, .looping⟩ mint taken else w
    | _ => w
  | .pass unit, some p =>
    match p.flights unit with
    | some ⟨attempt, pass, head, .looping⟩ =>
      if mayLock p unit then
        w.toStage { p with lock := some unit } unit ⟨attempt, pass + 1, head, .looping⟩
          (.merging w.tip)
      else w
    | _ => w
  | .merge unit conflict sha, some p =>
    match p.flights unit with
    | some f =>
      match f.stage with
      | .merging preMerge => w.merge p unit f preMerge conflict sha
      | _ => w
    | none => w
  | .intend unit mint, some p =>
    match p.flights unit with
    | some f =>
      match f.stage with
      | .ready commit preMerge =>
        let row := w.emitRow mint "landing-intent" statusIntegrateLandingIntent unit f
          [("unit_tip", .str commit), ("run_tip", .str preMerge)]
        { w with log := w.log ++ row }.toStage p unit f (.intended commit preMerge)
      | _ => w
    | none => w
  | .land unit mint, some p =>
    match p.flights unit with
    | some f =>
      match f.stage with
      | .intended commit preMerge => w.land p unit f mint commit preMerge
      | _ => w
    | none => w
  | .recordLanded unit mint, some p =>
    match p.flights unit with
    | some f =>
      match f.stage with
      | .moved commit preMerge =>
        let (w', p') := w.recordLandedRow p mint unit f f.pass commit preMerge
        w'.toStage p' unit f (.landed commit preMerge)
      | _ => w
    | none => w
  | .settle unit owed, some p =>
    match p.flights unit with
    | some f =>
      match f.stage with
      | .landed commit preMerge =>
        if owed then w.toStage { p with lock := none } unit f .looping
        else w.finish p unit f commit preMerge
      | _ => w
    | none => w
  | .regate unit pass, some p =>
    match p.flights unit with
    | some f =>
      match f.stage with
      | .regating commit preMerge => w.regate p unit f preMerge commit pass
      | _ => w
    | none => w
  | .unwind unit, some p =>
    match p.flights unit with
    | some f =>
      match f.stage with
      | .looping | .rolledBack =>
        { w with
          worktree := Function.update w.worktree unit ⟨f.unitHeadBeforeMerge, none⟩ }.depart p unit
      | _ => w
    | none => w
  | .leave unit, some p => w.depart p unit
  | .integrate unit mint, some p =>
    match p.flights unit with
    | some f =>
      match f.stage with
      | .passed commit =>
        { w with log := w.log ++ [integratedEvent mint unit commit] }.depart p unit
      | _ => w
    | none => w
  | _, _ => w

end World

end Rigger.Conductor.Integrate
