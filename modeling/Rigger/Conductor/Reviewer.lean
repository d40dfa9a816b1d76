import Rigger.Conductor.Attempts
import Rigger.Conductor.Budget
import Rigger.Conductor.GateOutcome
import Rigger.Conductor.Harvest
import Rigger.Domain.Agent
import Rigger.Domain.Verdicts
import Rigger.Driver.Replay
import Rigger.Lib.Retry

/-!
# A reviewer's round (`rigger-conductor/src/conductor.rs`, `run_reviewer`)

A round spawns one reviewer over the retry ids of its window until a spawn answers it.  A refused
record, a recorded error, a degenerate result and a gating result with no verdict line each ask for
the next id; everything else answers.  A driver is any function of the run it meets, so the events
other stages append stand in the run a spawn leaves.
-/

namespace Rigger.Conductor.Reviewer

open Lib hiding slice
open Agent Spawn Conditional
open Proposed (metaSpawn)
open Replay (SpawnCall)
open Review (lastVerdict verdictApproves Adjudicated verdictText isApprove)

/-! ## Texts -/

def budgetMarker : String := "\x01rigger:spawn-budget-exhausted\x01"
def degenerateMarker : String := "\x01rigger:reviewer-degenerate\x01"
def mismatchMarker : String := "\x01rigger:verdict-channel-mismatch\x01"
def spawnCrashMarker : String := "\x01rigger:spawn-crashed\x01"

def spawnCrash (message : String) : String := spawnCrashMarker ++ message

def outputTailChars : Nat := 600

def outputTail (output : String) : String :=
  let trimmed := (trim output).toList
  String.ofList (trimmed.drop (trimmed.length - outputTailChars))

/-! ## What a spawn is given -/

structure AgentDef where
  model : String
  modelLadder : List String
  tools : List String
  recurse : Bool
  maxWallClock : Option Nat
  bounded : ∀ secs ∈ maxWallClock, secs < 2 ^ 64

def isFanOutTool (tool : String) : Bool :=
  ["agent", "task"].contains (String.ofList (tool.toList.map Char.toLower))

def AgentDef.allowedTools (a : AgentDef) : List String :=
  if a.recurse then a.tools else a.tools.filter fun t => !isFanOutTool t

def AgentDef.modelForAttempt (a : AgentDef) (attempt : Nat) : String :=
  (a.modelLadder[min attempt (a.modelLadder.length - 1)]?).getD a.model

structure SpawnOpts where
  id : String
  unit : String
  stage : String
  attempt : Nat
  systemPrompt : String
  dir : String
  blastRadius : List String
  runId : String
  title : String
  env : List (String × String)
  reviews : List String
  resumedFrom : String
  resumeTask : String

/-- `spawn_request`. -/
def spawnRequest (agent : AgentDef) (prompt : String) (opts : SpawnOpts) : Request where
  id := opts.id
  unit := opts.unit
  stage := opts.stage
  prompt := prompt
  systemPrompt := opts.systemPrompt
  model := agent.modelForAttempt opts.attempt
  tools := agent.allowedTools
  dir := opts.dir
  blastRadius := opts.blastRadius
  maxWallClock := agent.maxWallClock
  title := opts.title
  reviews := opts.reviews
  cargoTargetDir := ((opts.env.find? fun v => v.1 == "CARGO_TARGET_DIR").map Prod.snd).getD ""

/-- What a process reads beside the run: how a text is quoted, which escapes its control characters,
what a line of an output parses to, the error of a recorded body that cannot be read, the agents,
the options of a spawn id, whether the worktree it runs in is there, and the mint of a keyed
event. -/
structure Host where
  debug : String → String
  escaped : ∀ s, '\x01' ∉ (debug s).toList
  line : String → Option Json
  unread : String
  agents : String → Option AgentDef
  spawnOpts : String → Except String SpawnOpts
  ensurePresent : String → Except String Unit
  mint : String → Mint

/-! ## The run a spawn meets -/

structure World where
  log : List Event
  replayedKeys : List String
  process : Budget.Process

structure AgentResult extends Replay.AgentResult where
  sessionId : String
  resumedFrom : String

/-- What a spawn leaves: the findings its callback counted, its result and the run. -/
structure Turn where
  findings : Nat
  result : Except String AgentResult
  world : World

abbrev Driver := World → AgentDef → String → SpawnOpts → Turn

/-! ## Sessions -/

def statusSpawnSession : String := "spawn-session"
def metaSessionId : String := "session_id"
def metaResumeRequested : String := "resume_requested"
def metaResumedFrom : String := "resumed_from"

/-- The attempt of a session mark of the role in a worktree. -/
def sessionMark (unit role dir : String) (e : Event) : Option Nat :=
  if e.type_ = Ledger.typeUnitStatus then
    e.data.value.bind fun v =>
      let field := fun key => (v.get key).bind Json.asStr
      if field "id" = some unit ∧ field "status" = some statusSpawnSession ∧
          field "dir" = some dir ∧ (e.meta_[metaSpawn]?).any (fun id => spawnRole id == role) then
        (v.get "attempt").bind (Json.asUnsigned 64)
      else none
  else none

/-- `recorded_session`: of the marks of earlier attempts, the last one of the latest attempt. -/
def recordedSession (events : List Event) (unit role : String) (attempt : Nat) (dir : String) :
    Option String :=
  let marks := (events.filterMap fun e => (sessionMark unit role dir e).map fun n => (n, e)).filter
    fun m => decide (m.1 < attempt)
  let latest := (marks.map Prod.fst).max?
  ((marks.filter fun m => some m.1 == latest).getLast?).bind fun m => m.2.meta_[metaSessionId]?

def sessionBody (opts : SpawnOpts) : Json :=
  .obj [("id", .str opts.unit), ("status", .str statusSpawnSession), ("attempt", .num opts.attempt),
    ("dir", .str opts.dir)]

/-- `record_session`. -/
def Host.recordSession (h : Host) (opts : SpawnOpts) (res : AgentResult) (w : World) : World :=
  if res.sessionId = "" then w
  else
    let key := opts.id ++ "/session"
    match keyedEvent w.replayedKeys (h.mint key) key Ledger.typeUnitStatus (sessionBody opts)
      [(metaSpawn, opts.id), (metaSessionId, res.sessionId),
      (metaResumeRequested, opts.resumedFrom),
        (metaResumedFrom, res.resumedFrom)] with
    | none => w
    | some ev => { w with log := w.log ++ [ev], replayedKeys := key :: w.replayedKeys }

/-! ## What is read of a spawn's end -/

inductive ReviewerOutput where
  | findings
  | verdict
  | roundVerdict
deriving DecidableEq

def causeInfraFault : String := "infra-fault"

def hasVerdictLine (line : String → Option Json) (output : String) : Bool :=
  (lastVerdict line output).isSome

/-- A reject blamed on infrastructure requires nothing. -/
def rejectsWithoutRequired (line : String → Option Json) (output : String) : Bool :=
  !verdictApproves line output &&
    (Adjudicated.parse line output).any fun a =>
      a.verdict.isSome && a.required.isEmpty && a.cause != some causeInfraFault

/-- The one line of the value's text reads back as the value. -/
def emittedVerdictApproves (v : Json) : Bool := (verdictText v).any isApprove

/-- `gating_spawn_emitted_approve`. -/
def emittedApprove (events : List Event) (id : String) : Bool :=
  events.any fun e => e.type_ == typeDecisionMade && e.meta_[metaSpawn]? == some id &&
    e.data.value.any emittedVerdictApproves

/-- `review_spawn_errored`. -/
def spawnErrored (events : List Event) (id : String) : Option Bool :=
  (resultOf events id).map fun r => r.any fun res => res.error != "" && !res.isLivenessFault

/-- `reviewer_result_is_degenerate`, none where a recorded body cannot be read. -/
def degenerate (line : String → Option Json) (output : ReviewerOutput) (id : String) (text : String)
    (findings : Nat) (events : List Event) : Option Bool :=
  if output = .roundVerdict ∧ rejectsWithoutRequired line text then some true
  else if ¬(trim text).isEmpty then some false
  else if output ≠ .findings then some true
  else if 0 < findings then some false
  else (resultOf events id).map Option.isNone

/-! ## The round -/

/-- Why a spawn's end asks for the next id. -/
inductive Why where
  | refused (note : String)
  | errored (message : String)
  | degenerate
  | verdictless
deriving DecidableEq

inductive Fate where
  | answered (a : Except String AgentResult)
  | redriven (why : Why)

structure Flags where
  verdictless : Bool
  refused : Option String
  errored : Option String
deriving DecidableEq

def Flags.new : Flags := ⟨false, none, none⟩

def Flags.after (f : Flags) : Why → Flags
  | .refused note => { f with refused := some note }
  | .errored message => { f with errored := some message }
  | .degenerate => f
  | .verdictless => { f with verdictless := true }

/-- `RefusedRecord::reruns`, with the note it keeps. -/
def Flags.reruns (f : Flags) (e : String) (retryLeft : Bool) : Option String :=
  if f.refused = none ∧ retryLeft ∧ carriesMarker e emitRefusedMarker then
    some ("Your previous run's record was refused: " ++
      String.ofList ((stripFailureMarker e).toList.rdropWhile (· == '.')) ++
      "; emit it again correctly.")
  else none

/-- `RefusedRecord::task`. -/
def Flags.task (f : Flags) (prompt : String) : String :=
  f.refused.elim prompt fun note => prompt ++ "\n\n" ++ note

/-- A call of `run_reviewer`; `resumeTask` is what a later round sends a resumed session. -/
structure Round where
  stage : String
  tier : String
  role : String
  agentId : String
  attempt : Nat
  ordinal : Nat
  output : ReviewerOutput
  prompt : String
  resumeTask : Option String

namespace Round

def firstRetry (r : Round) : Nat := (Word.reviewRetryWindow r.ordinal).1
def lastRetry (r : Round) : Nat := (Word.reviewRetryWindow r.ordinal).2

def window (r : Round) : List Nat := List.range' r.firstRetry (r.lastRetry + 1 - r.firstRetry)

def spawnId (r : Round) (retry : Nat) : String := spawnRetryId r.stage r.role r.attempt retry

section
variable (h : Host) (r : Round)

/-- How an error names the reviewer. -/
def named : String := "stage " ++ h.debug r.stage ++ " " ++ r.tier ++ " " ++ h.debug r.agentId

def failed (e : String) : String := r.named h ++ ": " ++ stripFailureMarker e

def unknownAgent : String :=
  "stage " ++ h.debug r.stage ++ " references unknown " ++ r.tier ++ " " ++ h.debug r.agentId

def budgetRefused : String := budgetMarker ++ " " ++ r.named h ++ ": spawn budget exhausted"

def verdictChannelMismatch : String :=
  mismatchMarker ++ r.named h ++
    " returned NO verdict line on its result output, yet emitted an " ++
    "approve-shaped verdict via rigger_emit during the spawn: the gate reads the result " ++
    "channel, not emitted events; end your output with the verdict line (e.g. " ++
    "\x7b\"verdict\":\"approve\"\x7d). The run halts and the unit is NOT charged a remediation " ++
    "attempt - a gating persona that records its verdict only as an emitted event is a " ++
    "configuration fault, not a reject. Fix the " ++
    h.debug r.agentId ++ " persona to end its output with the verdict line, then re-run."

def verdictlessReviewer (id output : String) : String :=
  mismatchMarker ++ r.named h ++
    ": the reviewer exited with no verdict line on spawn " ++ h.debug id ++
    " and its review has no re-drive left (a verdict-less result re-drives the review once). A " ++
    "verdict-less result is an infrastructure fault on the spawn, not a reject: the run halts " ++
    "and the unit is NOT charged a remediation attempt. A reviewer ends this way when its " ++
    "session closes while work it started is still running. Recover by recording the reviewer's " ++
    "verdict for the spawn with `rigger result " ++ h.debug id ++ " --supersede <output ending " ++
    "in the verdict line>`, then re-run. Its output ended: " ++ outputTail output

def degenerateReviewer : String :=
  degenerateMarker ++ r.named h ++ " returned empty/whitespace-only output on all " ++
    toString (reviewerRespawnBound + 1) ++ " spawns (its original spawn plus " ++
    toString reviewerRespawnBound ++
    " respawns): a degenerate reviewer result is an infrastructure " ++
    "failure, not a verdict - the run halts and the unit is NOT charged a remediation attempt. " ++
    "Recover by re-driving the reviewer and recording a SUBSTANTIVE result for one of its spawn " ++
    "ids over the empty one with `--supersede` (results are last-write-wins, and a plain record " ++
    "refuses to replace an ended spawn's result), e.g. `rigger result " ++
    h.debug (r.spawnId r.lastRetry) ++
    " --supersede <substantive output>`; then re-run. Re-running WITHOUT a corrected result " ++
    "replays the recorded empties and halts here again."

/-- What a spawn's error comes to; a park or a refusal is not looked up in the run. -/
def judgeError (flags : Flags) (retry : Nat) (e : String) (events : List Event) : Fate :=
  match flags.reruns e (retry < r.lastRetry) with
  | some note => .redriven (.refused note)
  | none =>
    if isParkedOrRefused e budgetMarker then .answered (.error (r.failed h e))
    else
      match spawnErrored events (r.spawnId retry) with
      | none => .answered (.error h.unread)
      | some true => .redriven (.errored (r.failed h e))
      | some false =>
        .answered (.error (if carriesMarker e emitRefusedMarker then r.failed h e
          else spawnCrash (r.failed h e)))

/-- What a spawn's result comes to; a gating one is a verdict only where a line of it carries
one. -/
def judgeResult (flags : Flags) (retry findings : Nat) (res : AgentResult)
    (events : List Event) : Fate :=
  match degenerate h.line r.output (r.spawnId retry) res.output findings events with
  | none => .answered (.error h.unread)
  | some true => .redriven .degenerate
  | some false =>
    if r.output ≠ .findings ∧ hasVerdictLine h.line res.output = false then
      if emittedApprove events (r.spawnId retry) then .answered
        (.error (r.verdictChannelMismatch h))
      else if flags.verdictless ∨ retry = r.lastRetry then
        .answered (.error (r.verdictlessReviewer h (r.spawnId retry) res.output))
      else .redriven .verdictless
    else .answered (.ok res)

/-- What the end of a spawn comes to. -/
def judge (flags : Flags) (retry : Nat) (turn : Turn) (events : List Event) : Fate :=
  match turn.result with
  | .ok res => r.judgeResult h flags retry turn.findings res events
  | .error e => r.judgeError h flags retry e events

/-- `continue_prior_session`. -/
def continuePriorSession (events : List Event) (opts : SpawnOpts) : SpawnOpts :=
  match r.resumeTask.filter fun t => !(trim t).isEmpty with
  | none => opts
  | some task =>
    match recordedSession events opts.unit r.role opts.attempt opts.dir with
    | none => opts
    | some prior => { opts with resumedFrom := prior, resumeTask := task }

/-- `reviewer_spawn_opts`, and for the round's first spawn the session it continues. -/
def opts (retry : Nat) (events : List Event) : Except String SpawnOpts :=
  (h.spawnOpts (r.spawnId retry)).map fun opts =>
    let opts := { opts with id := r.spawnId retry }
    if retry = r.firstRetry then r.continuePriorSession events opts else opts

end

end Round

/-- One id of the round: halted before its spawn, refused by the budget, or spawned, with what the
spawn left, the events its end was judged by and what it came to. -/
inductive Step where
  | halted (id : String)
  | refused (id : String)
  | spawned (id : String) (turn : Turn) (events : List Event) (fate : Fate)

structure State where
  world : World
  flags : Flags

section
variable (h : Host) (driver : Driver) (r : Round) (agent : AgentDef)

/-- The run a spawn leaves, with the session it ran as. -/
def Host.left (opts : SpawnOpts) (turn : Turn) : World :=
  match turn.result with
  | .ok res => h.recordSession opts res turn.world
  | .error _ => turn.world

/-- The spawn of an admitted id. -/
def Round.spawn (retry : Nat) (opts : SpawnOpts) (w : World) (flags : Flags) :
    Attempt State Step (Except String AgentResult) :=
  let turn := driver w agent (flags.task r.prompt) opts
  let world := h.left opts turn
  let events := slice world.log
  let fate := r.judge h flags retry turn events
  let step := Step.spawned (r.spawnId retry) turn events fate
  match fate with
  | .answered a => .answered step a ⟨world, flags⟩
  | .redriven why => .redriven step ⟨world, flags.after why⟩

/-- One pass of the loop. -/
def Round.attemptAt (retry : Nat) (s : State) : Attempt State Step (Except String AgentResult) :=
  match r.opts h retry (slice s.world.log) with
  | .error e => .answered (.halted (r.spawnId retry)) (.error e) s
  | .ok opts =>
    let (admitted, process) := s.world.process.reserveSpawn (r.spawnId retry)
    let world := { s.world with process := process }
    if admitted then
      match h.ensurePresent (r.spawnId retry) with
      | .error e => .answered (.halted (r.spawnId retry)) (.error e) ⟨world, s.flags⟩
      | .ok () => r.spawn h driver agent retry opts world s.flags
    else .answered (.refused (r.spawnId retry)) (.error (r.budgetRefused h)) ⟨world, s.flags⟩

/-- What a window whose ids are all spent comes to. -/
def Round.spent (s : State) : Except String AgentResult :=
  .error (s.flags.errored.elim (r.degenerateReviewer h) spawnCrash)

structure Ended where
  steps : List Step
  answer : Except String AgentResult
  world : World

def Round.runReviewer (w : World) : Ended :=
  match h.agents r.agentId with
  | none => ⟨[], .error (r.unknownAgent h), w⟩
  | some agent =>
    let run := retry (r.attemptAt h driver agent) (r.spent h) r.window ⟨w, .new⟩
    ⟨run.trace, run.answer, run.state.world⟩

end

/-! ## One attempt -/

section
variable {h : Host} {driver : Driver} {r : Round} {agent : AgentDef} {retry : Nat} {s s' : State}
  {t : Step} {flags : Flags} {events : List Event}

theorem spawn_redriven {opts : SpawnOpts} {w : World}
    (hspawn : r.spawn h driver agent retry opts w flags = .redriven t s') :
    ∃ turn events why, t = .spawned (r.spawnId retry) turn events (.redriven why) ∧
      r.judge h flags retry turn events = .redriven why ∧ s'.flags = flags.after why := by
  unfold Round.spawn at hspawn
  dsimp only at hspawn
  split at hspawn
  · cases hspawn
  · next why hfate =>
    cases hspawn
    exact ⟨_, _, why, by rw [hfate], hfate, rfl⟩

variable {a : Except String AgentResult} {turn : Turn}

theorem spawn_answered {opts : SpawnOpts} {w : World}
    (hspawn : r.spawn h driver agent retry opts w flags = .answered t a s') :
    ∃ turn events, t = .spawned (r.spawnId retry) turn events (.answered a) ∧
      r.judge h flags retry turn events = .answered a := by
  unfold Round.spawn at hspawn
  dsimp only at hspawn
  split at hspawn
  · next hfate =>
    cases hspawn
    exact ⟨_, _, by rw [hfate], hfate⟩
  · cases hspawn

theorem attemptAt_redriven (hattempt : r.attemptAt h driver agent retry s = .redriven t s') :
    ∃ turn events why, t = .spawned (r.spawnId retry) turn events (.redriven why) ∧
      r.judge h s.flags retry turn events = .redriven why ∧ s'.flags = s.flags.after why := by
  unfold Round.attemptAt at hattempt
  split at hattempt
  · cases hattempt
  · dsimp only at hattempt
    split at hattempt
    · split at hattempt
      · cases hattempt
      · exact spawn_redriven hattempt
    · cases hattempt

/-- An answer is a halt before the spawn, a refusal, or what the spawn's end was judged. -/
theorem attemptAt_answered (hattempt : r.attemptAt h driver agent retry s = .answered t a s') :
    (t = .halted (r.spawnId retry) ∧ ∃ e, a = .error e) ∨
      (t = .refused (r.spawnId retry) ∧ a = .error (r.budgetRefused h)) ∨
        ∃ turn events, t = .spawned (r.spawnId retry) turn events (.answered a) ∧
          r.judge h s.flags retry turn events = .answered a := by
  unfold Round.attemptAt at hattempt
  split at hattempt
  · next e he =>
    cases hattempt
    exact .inl ⟨rfl, e, rfl⟩
  · dsimp only at hattempt
    split at hattempt
    · split at hattempt
      · next e he =>
        cases hattempt
        exact .inl ⟨rfl, e, rfl⟩
      · exact .inr (.inr (spawn_answered hattempt))
    · cases hattempt
      exact .inr (.inl ⟨rfl, rfl⟩)

/-! ## What an end is judged -/

theorem judge_ok {res : AgentResult}
    (hjudge : r.judge h flags retry turn events = .answered (.ok res)) :
    turn.result = .ok res ∧
      degenerate h.line r.output (r.spawnId retry) res.output turn.findings events = some false ∧
        (r.output ≠ .findings → hasVerdictLine h.line res.output = true) := by
  unfold Round.judge at hjudge
  split at hjudge
  · next result hresult =>
    unfold Round.judgeResult at hjudge
    split at hjudge
    · cases hjudge
    · cases hjudge
    · next hdegenerate =>
      split at hjudge
      · split at hjudge
        · cases hjudge
        · split at hjudge <;> cases hjudge
      · next hverdict =>
        cases hjudge
        refine ⟨hresult, hdegenerate, fun hgating => ?_⟩
        by_contra hnone
        exact hverdict ⟨hgating, Bool.eq_false_iff.2 hnone⟩
  · unfold Round.judgeError at hjudge
    split at hjudge
    · cases hjudge
    · split at hjudge
      · cases hjudge
      · split at hjudge <;> cases hjudge

/-- Only a round that has met no verdict-less result meets one for another attempt. -/
theorem judge_verdictless (hjudge : r.judge h flags retry turn events = .redriven .verdictless) :
    flags.verdictless = false := by
  unfold Round.judge at hjudge
  split at hjudge
  · unfold Round.judgeResult at hjudge
    split at hjudge
    · cases hjudge
    · cases hjudge
    · split at hjudge
      · split at hjudge
        · cases hjudge
        · split at hjudge
          · cases hjudge
          · next hnone => exact Bool.eq_false_iff.2 fun h => hnone (.inl h)
      · cases hjudge
  · unfold Round.judgeError at hjudge
    split at hjudge
    · cases hjudge
    · split at hjudge
      · cases hjudge
      · split at hjudge <;> cases hjudge

/-- A park or a refusal of the budget answers at once, and keeps its marker. -/
theorem judge_parkedOrRefused {e : String} (hresult : turn.result = .error e)
    (hstops : isParkedOrRefused e budgetMarker = true)
    (hemit : carriesMarker e emitRefusedMarker = false) :
    r.judge h flags retry turn events = .answered (.error (r.failed h e)) := by
  have hnote : flags.reruns e (retry < r.lastRetry) = none := by
    unfold Flags.reruns
    rw [hemit, if_neg fun hall => Bool.noConfusion hall.2.2]
  unfold Round.judge
  rw [hresult]
  dsimp only
  rw [Round.judgeError, hnote]
  dsimp only
  rw [if_pos hstops]

end

end Rigger.Conductor.Reviewer
