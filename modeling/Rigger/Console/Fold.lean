import Rigger.Conductor.Attention
import Rigger.Domain.HoldSpans
import Rigger.Domain.Metrics

/-!
# The console's fold (`rigger-domain/src/blocker.rs`, `rigger-console/src/console/mod.rs`)

The state a run shows, from the run's events and the configured bound of remediation alone: the
units, the current blockers, what needs a person and one line.  It fails only where the ledger
cannot read an event (`fold_isSome`).

`line` parses one line of an output, trimmed.
-/

namespace Rigger

open Lib Ledger
open Conductor (AttentionEntry attentionHeld attentionHalted attentionKindRank awaitsFindingAudit
  typeBudgetExhausted)

def Ledger.Status.asStr : Ledger.Status → String
  | .pending => "pending"
  | .grounding => "grounding"
  | .red => "red"
  | .green => "green"
  | .verified => "verified"
  | .reviewed => "reviewed"
  | .integrated => "integrated"
  | .failed => "failed"
  | .escalated => "escalated"

/-- What a hold reads as to a person. -/
def Ledger.Hold.reason (h : Hold) : String :=
  if h.latest.action.isEmpty then h.latest.cause else h.latest.cause ++ " - " ++ h.latest.action

/-- `hold_attention`: none where a hold, or the release of one, does not decode. -/
def Ledger.holdAttention (spans : List HoldSpan) : Option (List AttentionEntry) :=
  spans.foldlM (fun entries span => do
    let hold ← span.hold
    let entries := entries ++ [.runScoped attentionHeld ("held - " ++ hold.reason)]
    match span.release with
    | none => pure entries
    | some release =>
      let heldFor ← release.heldForS
      pure (entries ++ [.runScoped Conductor.attentionReleased
        ("released after " ++ toString heldFor ++ "s")])) []

/-! ## Blockers (`blocker.rs`) -/

namespace Blocker

structure Budget where
  spent : ℕ
  cap : ℕ
deriving DecidableEq

inductive Kind where
  | building (attempt : ℕ)
  | reviewing
  | rejectRecurrence (n max : ℕ) (cause : String)
  | approvedNotIntegrated
  | escalated
  | resumed (by_ : String) (attemptsGranted : ℕ)
  | budget (b : Budget)
deriving DecidableEq

end Blocker

/-- One current-blocker line: the unit, or none for the run, and its kind. -/
structure Blocker where
  subject : String
  kind : Blocker.Kind
deriving DecidableEq

namespace Blocker

def runSubject : String := "run"

def Kind.line : Kind → String
  | .building attempt => "building (attempt " ++ toString attempt ++ ")"
  | .reviewing => "reviewing (gates green, awaiting adjudication)"
  | .rejectRecurrence n max cause =>
    "reject-recurrence #" ++ toString n ++ "/" ++ toString max ++ " (" ++ cause ++ ")"
  | .approvedNotIntegrated => "approved, not yet integrated (review passed; integration pending)"
  | .escalated => "escalated (awaiting a human)"
  | .resumed holder attemptsGranted =>
    "resumed by " ++ holder ++ " (" ++ toString attemptsGranted ++ " attempt(s) granted)"
  | .budget b => "budget spent " ++ toString b.spent ++ "/" ++ toString b.cap ++
    " (raise defaults.budget and resume)"

def fullLine (b : Blocker) : String :=
  (if b.subject.isEmpty then runSubject else b.subject) ++ ": " ++ b.kind.line

/-- The configured bound, the built-in one where it is not set. -/
def effectiveMaxRetries (configured : ℕ) : ℕ := if configured = 0 then 3 else configured

def causeUnknown : String := "unknown"

/-- The `budget` and the `spawns` of a `BudgetExhausted`. -/
def Budget.decode (data : Data) : Option Budget := do
  let [budget, spawns] ← (← data.value).slots ["budget", "spawns"] | none
  pure
    { cap := ← Json.orDefault (Json.asUnsigned 32) 0 budget
      spent := ← Json.orDefault (Json.asUnsigned 32) 0 spawns }

def lifecycleTypes : List String :=
  [typeUnitStarted, typeUnitStatus, typeUnitFailed, typeUnitEscalated, typeUnitIntegrated]

/-- The last exhaustion of the budget, unless a later event of a unit's life resolved it. -/
def budgetHalt (events : List Event) : Option Budget :=
  let budget := latest (fun e =>
    if e.type_ = typeBudgetExhausted then (Budget.decode e.data).map
      (e.position, ·) else none) events
  let lastLifecyclePos := (events.filter fun e => lifecycleTypes.contains e.type_).foldl
    (fun pos e => max pos e.position) 0
  (budget.filter fun b : ℕ × Budget => decide (lastLifecyclePos ≤ b.1)).map Prod.snd

/-- What blocks a unit; an integrated one is not blocked, and a grant in effect says so itself. -/
def kindOf (u : Ledger.Unit) (maxRetries : ℕ) : Option Kind :=
  if u.status = .integrated then none
  else
    match u.resumed with
    | some grant => some (.resumed grant.by_ grant.attemptsGranted)
    | none =>
      match u.status with
      | .integrated => none
      | .escalated => some .escalated
      | .failed => some (.rejectRecurrence u.attempts maxRetries
          (if u.cause.isEmpty then causeUnknown else u.cause))
      | .reviewed => some .approvedNotIntegrated
      | .verified => some .reviewing
      -- a release build's sum keeps the low 32 bits
      | .pending | .grounding | .red | .green => some (.building ((u.attempts + 1) % 2 ^ 32))

def classify (run : RunState) (budget : Option Budget) (maxRetries : ℕ) : List Blocker :=
  (budget.map fun b => ⟨"", .budget b⟩).toList ++
    run.units.toList.filterMap fun x => (kindOf x.2 maxRetries).map fun kind => ⟨x.1, kind⟩

def fromEvents (events : List Event) (configuredMaxRetries : ℕ) : Option (List Blocker) :=
  (project events).map fun run =>
    classify run (budgetHalt events) (effectiveMaxRetries configuredMaxRetries)

def lines (blockers : List Blocker) : List String := blockers.map fullLine

end Blocker

namespace Console

/-! ## The fold -/

abbrev UnitStatuses := List (String × String)

/-- What needs a person now. -/
def dock (run : RunState) (events : List Event) : List AttentionEntry :=
  let spans := holds events
  let held := if ((openSpan spans).bind HoldSpan.hold).any fun hold => hold.latest.needsPerson then
      ((holdAttention spans).bind List.getLast?).toList
    else []
  let escalated := ((run.units.toList.map Prod.snd).filter fun u => u.status == .escalated).map
    AttentionEntry.escalation
  let halted := ((Blocker.budgetHalt events).map fun b => AttentionEntry.runScoped attentionHalted
    ("budget spent " ++ toString b.spent ++ "/" ++ toString b.cap)).toList
  let audits := (run.units.toList.filter fun x => awaitsFindingAudit x.2).map fun x =>
    AttentionEntry.rejectRecurrence x.1 x.2.attempts
  (held ++ escalated ++ halted ++ audits).mergeSort fun a b =>
    decide (attentionKindRank a.kind ≤ attentionKindRank b.kind)

def statusline (run : RunState) (blockers : List Blocker)
    (needsYou : List AttentionEntry) : String :=
  let units := run.units.toList.map Prod.snd
  let total := units.length
  let landed := (units.filter fun u => u.status == .integrated).length
  let focus := ((units.find? fun u => !(u.status == .integrated || u.status == .escalated)).map
    Ledger.Unit.id).getD "-"
  let health := if needsYou.any fun entry => entry.kind != attentionHeld then "needs-you"
    else if run.hold.isSome then "held"
    else if !blockers.isEmpty then "working"
    else if 0 < total ∧ landed = total then "done"
    else "healthy"
  focus ++ " . " ++ toString landed ++ "/" ++ toString total ++ " units . " ++ health

end Console

structure ConsoleState where
  units : Console.UnitStatuses
  blockers : List String
  dock : List AttentionEntry
  statusline : String
  hold : Option Ledger.Hold

def ConsoleState.default : ConsoleState := ⟨[], [], [], "", none⟩

namespace Console

def fold (events : List Event) (configuredMaxRetries : ℕ) : Option ConsoleState := do
  let run ← project events
  let blockers ← Blocker.fromEvents events configuredMaxRetries
  let needsYou := dock run events
  pure
    { units := run.units.toList.map fun x => (x.1, x.2.status.asStr)
      blockers := Blocker.lines blockers
      dock := needsYou
      statusline := statusline run blockers needsYou
      hold := run.hold }

/-! ## The scrubber's track -/

def planCritiqueUnit : String := "plan-critique"

structure ScrubMark where
  position : ℕ
  kind : String
  color : String
  tall : Bool
  tooltip : String
deriving DecidableEq

structure ScrubTick where
  position : ℕ
  label : String
deriving DecidableEq

structure ScrubTrack where
  marks : List ScrubMark
  ticks : List ScrubTick
deriving DecidableEq

section
variable (line : String → Option Json)

/-- The mark of an adjudicator's verdict. -/
def verdictMark (e : Event) : Option ScrubMark := do
  let res ← Spawn.resultIn e
  let verdict ← (← Metrics.adjudication line res).verdict
  let unit := (Conductor.Attribution.unitOf res.id).getD ""
  let color ← if verdict = "approve" then some "green"
    else if verdict = "reject" then some "red" else none
  pure (if unit = planCritiqueUnit then
      ⟨e.position, "plan", "review", false, "plan critique: " ++ verdict⟩
    else ⟨e.position, "verdict", color, false, unit ++ ": " ++ verdict⟩)

def integrationMark (e : Event) : Option ScrubMark :=
  if e.type_ = typeUnitIntegrated then do
    let id ← ((← e.data.value).get "id").bind Json.asStr
    pure ⟨e.position, "integration", "accent", true, id ++ ": integrated"⟩
  else none

/-- A time before the epoch reads 0. -/
def unixSeconds (t : SystemTime) : ℕ := t.toNat / 1000000000

/-- `{hour_of_day:02}:00`. -/
def hourLabel (hour : ℕ) : String :=
  (if hour % 24 < 10 then "0" else "") ++ toString (hour % 24) ++ ":00"

/-- One tick where an event's hour is above that of the one before it; an event at the epoch has no
hour. -/
def hourTick (state : List ScrubTick × Option ℕ) (e : Event) : List ScrubTick × Option ℕ :=
  let secs := unixSeconds e.recordedAt
  if secs = 0 then state
  else
    let hour := secs / 3600
    (if state.2.any fun prev => decide (prev < hour) then
        state.1 ++ [⟨e.position, hourLabel hour⟩] else state.1, some hour)

def hourTicks (events : List Event) : List ScrubTick :=
  ((events.mergeSort fun a b => decide (a.position ≤ b.position)).foldl hourTick ([], none)).1

def scrubTrack (events : List Event) : ScrubTrack where
  marks := (events.filterMap fun e => (verdictMark line e).or (integrationMark e)).mergeSort
    fun a b => decide (a.position ≤ b.position)
  ticks := hourTicks events

end

/-! ## The palette -/

structure PaletteCommand where
  kind : String
  id : String
  label : String
deriving DecidableEq

def views : List (String × String) :=
  [("fleet", "Fleet"), ("theater", "Theater"), ("agents", "Agents"), ("court", "Courtroom"),
    ("map", "Knowledge"), ("plan", "Plan"), ("brief", "Briefing")]

/-- `recorded_lenient`: the last request of each id, passing over what does not decode. -/
def recordedLenient (events : List Event) : Std.ExtTreeMap String Spawn.Request :=
  collect ((events.filterMap Spawn.requestOf).map fun req => (req.id, req))

def paletteCommands (events : List Event) (units : UnitStatuses) : List PaletteCommand :=
  views.map (fun v => ⟨"view", v.1, v.2⟩) ++
    units.map (fun u => ⟨"courtroom", u.1, "Courtroom: " ++ u.1⟩) ++
    (recordedLenient events).toList.map (fun x => ⟨"agent", x.1, "Agent: " ++ x.1⟩) ++
    [⟨"live", "live", "Jump to live"⟩, ⟨"replay", "replay", "Replay from start"⟩]

/-! ## What the fold reads -/

theorem project_isSome (events : List Event) :
    (project events).isSome = true ↔ ∀ e ∈ events, folds e = true := by
  unfold project
  rw [Option.isSome_map]
  exact (RunState.foldlM_apply RunState.new events).1

theorem fold_isSome (events : List Event) (configuredMaxRetries : ℕ) :
    (fold events configuredMaxRetries).isSome = true ↔ ∀ e ∈ events, folds e = true := by
  rw [← project_isSome]
  unfold fold Blocker.fromEvents
  cases project events <;> rfl

end Console

end Rigger
