import Mathlib.Algebra.Order.Field.Rat
import Rigger.Conductor.Remediate
import Rigger.Conductor.RunWave
import Rigger.Conductor.SpawnIds
import Rigger.Domain.Verdicts
import Rigger.Lib.Grouped
import Rigger.Lib.Windows

/-!
# Operator metrics (`rigger-domain/src/metrics.rs`)

`project` folds a slice of the log in order and reads the counts, and the rates over them, off what
the fold has gathered.  The state of the fold is kept in the parts its arms touch: the units, the
findings, the verdicts of the adjudicators, and the spawns by window of run.

A rate is a rational number.  `line` parses one line of an output, trimmed.
-/

namespace Rigger

open Lib Spawn
open Conductor (radiiConflict metaWorktreeSha)
open Conductor.Attribution (ReviewKind reviewStepOf)
open Review (Adjudicated)

namespace Metrics

def typeBlastRadiusComputed : String := "BlastRadiusComputed"

def metaActor : String := "actor"

/-- No status of a unit: the rejection of one candidate of a speculation. -/
def statusSpeculationRejected : String := "speculation-rejected"

def fieldStr (e : Event) (key : String) : Option String :=
  (e.data.value.bind (Json.get key)).bind Json.asStr

def fieldStrVec (e : Event) (key : String) : List String :=
  (e.data.value.map (Adjudication.strArray key)).getD []

/-! ## Tiers and counts -/

def tier : ReviewKind → String
  | .lens => "lens"
  | .adversary => "adversary"
  | .adjudicator => roleAdjudicator

def reviewTier (spawnId : String) : Option String :=
  (reviewStepOf (spawnRole spawnId)).map fun step => tier step.1

/-- An adversary's step, bare or later, is of the adversary tier, every other actor a lens. -/
def actorTier (actor : String) : String :=
  if (reviewStepOf actor).any fun step => step.1 == .adversary then tier .adversary else tier .lens

structure GateCounts where
  pass : Nat
  fail : Nat

structure FindingCounts where
  raised : Nat
  upheld : Nat

structure TierCost where
  spawns : Nat
  upheld : Nat

structure SpawnTiming where
  count : Nat
  total : Int

/-- `*entry(key).or_default() += 1`. -/
def bump (m : Std.ExtTreeMap String Nat) (key : String) : Std.ExtTreeMap String Nat :=
  m.insert key (m[key]?.getD 0 + 1)

def ratio (num den : Nat) : ℚ := if den = 0 then 0 else num / den

/-! ## Units -/

structure UnitFold where
  started : Bool
  reviewOnly : Bool
  armed : Bool
  failed : Bool
  integrated : Bool
  escalated : Bool
  rejectedShas : Std.ExtTreeSet String
  lastRejectCause : Option String

def UnitFold.new : UnitFold where
  started := false
  reviewOnly := false
  armed := false
  failed := false
  integrated := false
  escalated := false
  rejectedShas := ∅
  lastRejectCause := none

/-- The sha a review judged, stamped on the event of its verdict. -/
def shaOf (e : Event) : Option String := e.meta_[metaWorktreeSha]?.filter (· ≠ "")

/-- The unit was rejected on the sha of the event, if it names one. -/
def UnitFold.rejectedAt (u : UnitFold) (e : Event) : UnitFold :=
  { u with rejectedShas := (shaOf e).elim u.rejectedShas fun sha => u.rejectedShas.insert sha }

/-- A failure of the unit is a rejection of its review. -/
def UnitFold.underReview (u : UnitFold) : Bool := u.started && (u.armed || u.reviewOnly)

/-- Integrated with no failure. -/
def UnitFold.cleanPass (u : UnitFold) : Bool := u.started && u.integrated && !u.failed

structure Reviews where
  units : Std.ExtTreeMap String UnitFold
  unitsStarted : Nat
  unitsEscalated : Nat
  reviewApprove : Nat
  reviewReject : Nat
  flipFlops : Nat
  rejectionsByCause : Std.ExtTreeMap String Nat
  escalationsByCause : Std.ExtTreeMap String Nat
  pendingCause : Std.ExtTreeMap String String

namespace Reviews

def empty : Reviews where
  units := ∅
  unitsStarted := 0
  unitsEscalated := 0
  reviewApprove := 0
  reviewReject := 0
  flipFlops := 0
  rejectionsByCause := ∅
  escalationsByCause := ∅
  pendingCause := ∅

variable (r : Reviews)

/-- `entry(id).or_default()`. -/
def unit (id : String) : UnitFold := r.units[id]?.getD .new

def put (id : String) (u : UnitFold) : Reviews := { r with units := r.units.insert id u }

def start (e : Event) : Reviews :=
  (fieldStr e "id").elim r fun id =>
    let u := r.unit id
    if u.started then r.put id u
    else
      { r.put id { u with
          started := true
          reviewOnly := ((fieldStr e "agent").getD "").isEmpty } with
        unitsStarted := r.unitsStarted + 1 }

/-- The unit's status, by what the event says. -/
def setStatus (e : Event) (id status : String) : Reviews :=
  let u := r.unit id
  if status = "verified" then r.put id { u with armed := true }
  else if status = "reviewed" ∧ u.started = true then
    { r.put id u with
      reviewApprove := r.reviewApprove + 1
      flipFlops := r.flipFlops + ((shaOf e).any u.rejectedShas.contains).toNat }
  else if status = statusSpeculationRejected ∧ u.started = true then
    { r.put id { u.rejectedAt e with failed := true } with reviewReject := r.reviewReject + 1 }
  else r.put id u

def status (e : Event) : Reviews :=
  (fieldStr e "id").elim r fun id => (fieldStr e "status").elim r (r.setStatus e id)

/-- A rejection takes the cause the verdict left for the unit. -/
def reject (e : Event) (id : String) : Reviews :=
  let u := { (r.unit id).rejectedAt e with failed := true, armed := false }
  (r.pendingCause[id]?).elim { r.put id u with reviewReject := r.reviewReject + 1 } fun cause =>
    { r.put id { u with lastRejectCause := some cause } with
      reviewReject := r.reviewReject + 1
      rejectionsByCause := bump r.rejectionsByCause cause
      pendingCause := r.pendingCause.erase id }

def fail (e : Event) : Reviews :=
  (fieldStr e "id").elim r fun id =>
    if (r.unit id).underReview then r.reject e id
    else r.put id { r.unit id with failed := true, armed := false }

def escalate (e : Event) : Reviews :=
  (fieldStr e "id").elim r fun id =>
    let u := r.unit id
    if u.escalated then r.put id u
    else
      { r.put id { u with escalated := true } with
        unitsEscalated := r.unitsEscalated + 1
        escalationsByCause := u.lastRejectCause.elim r.escalationsByCause
          (bump r.escalationsByCause) }

def integrate (e : Event) : Reviews :=
  (fieldStr e "id").elim r fun id => r.put id { r.unit id with integrated := true }

end Reviews

/-! ## Gates -/

structure GateVerdictView where
  gate : String
  pass : Bool
  artifact : String
  skipped : Bool

def GateVerdictView.decode (data : Data) : Option GateVerdictView := do
  let [gate, pass, artifact, skipped] ←
    (← data.value).slots ["gate", "pass", "artifact", "skipped"] | none
  pure
    { gate := ← Json.required Json.asStr gate
      pass := ← Json.orDefault Json.asBool false pass
      artifact := ← Json.orDefault Json.asStr "" artifact
      skipped := ← Json.orDefault Json.asBool false skipped }

/-- A verdict tagged with an artifact, or on a gate that was skipped, is no run of it. -/
def countGate (gates : Std.ExtTreeMap String GateCounts) (e : Event) :
    Std.ExtTreeMap String GateCounts :=
  (GateVerdictView.decode e.data).elim gates fun v =>
    if !v.artifact.isEmpty || v.skipped then gates
    else
      let counts := gates[v.gate]?.getD ⟨0, 0⟩
      gates.insert v.gate (if v.pass then { counts with pass := counts.pass + 1 }
        else { counts with fail := counts.fail + 1 })

/-! ## Findings -/

structure Findings where
  actor : Std.ExtTreeMap String String
  about : Std.ExtTreeMap String (List String)
  fileActors : Std.ExtTreeMap String (Std.ExtTreeSet String)

def Findings.empty : Findings := ⟨∅, ∅, ∅⟩

/-- Who raised the finding, by its stamp or else by its own word. -/
def raiser (e : Event) : String :=
  ((e.meta_[metaActor]?.filter (· ≠ "")).or ((fieldStr e "by").filter (· ≠ ""))).getD ""

def flag (actor : String) (fileActors : Std.ExtTreeMap String (Std.ExtTreeSet String))
    (file : String) : Std.ExtTreeMap String (Std.ExtTreeSet String) :=
  fileActors.insert file ((fileActors[file]?.getD ∅).insert actor)

/-- The first finding of an id stands. -/
def Findings.raise (f : Findings) (e : Event) : Findings :=
  (fieldStr e "id").elim f fun id =>
    if f.actor.contains id then f
    else
      let about := (fieldStrVec e "about").map referencedId
      { actor := f.actor.insert id (raiser e)
        about := f.about.insert id about
        fileActors := if (raiser e).isEmpty then f.fileActors
          else about.foldl (flag (raiser e)) f.fileActors }

/-! ## Verdicts -/

structure Verdicts where
  upheld : Std.ExtTreeSet String
  tierSpawns : Std.ExtTreeMap String Nat
  adjudications : Nat

def Verdicts.empty : Verdicts := ⟨∅, ∅, 0⟩

section
variable (line : String → Option Json)

/-- `SpawnResult::adjudication`. -/
def adjudication (res : Result) : Option Adjudicated :=
  if (reviewStepOf (spawnRole res.id)).any fun step => step.1 == .adjudicator then
    Adjudicated.parse line res.output
  else none

/-- The result of a review's spawn and the tier it ran in. -/
def reviewResult (e : Event) : Option (Result × String) :=
  (Result.decode e.data).bind fun res => (reviewTier res.id).map fun t => (res, t)

def Verdicts.record (v : Verdicts) (e : Event) : Verdicts :=
  (reviewResult e).elim v fun result =>
    let spawned := { v with tierSpawns := bump v.tierSpawns result.2 }
    (adjudication line result.1).elim spawned fun adj =>
      { spawned with
        adjudications := v.adjudications + 1
        upheld := adj.upheld.foldl (fun set id => set.insert id) v.upheld }

/-- The cause of a rejection waits for the failure it causes. -/
def Reviews.noteCause (r : Reviews) (e : Event) : Reviews :=
  (reviewResult e).elim r fun result =>
    ((adjudication line result.1).bind (·.cause)).elim r fun cause =>
      { r with pendingCause := r.pendingCause.insert (spawnUnit result.1.id) cause }

end

/-! ## Spawns -/

structure SpawnKey where
  window : Nat
  id : String
deriving DecidableEq

/-- The order of the pair. -/
instance : Ord SpawnKey := ⟨compareLex (compareOn SpawnKey.window) (compareOn SpawnKey.id)⟩

instance : Std.TransOrd SpawnKey :=
  inferInstanceAs (Std.TransCmp (compareLex (compareOn SpawnKey.window) (compareOn SpawnKey.id)))

instance : Std.LawfulEqOrd SpawnKey where
  eq_of_compare {a b} h := by
    have hboth : (compare a.window b.window).then (compare a.id b.id) = .eq := h
    rw [Ordering.then_eq_eq, Std.LawfulEqCmp.compare_eq_iff_eq, Std.LawfulEqCmp.compare_eq_iff_eq]
      at hboth
    cases a
    cases b
    simp_all

structure Windows where
  starts : List Nat
  requestedAt : Std.ExtTreeMap SpawnKey SystemTime

def Windows.empty : Windows := ⟨[0], ∅⟩

/-- The event opens a window. -/
def opensWindow (e : Event) : Bool := e.type_ == typeRunStarted && (RunStarted.decode e.data).isSome

/-- The first request of an id in a window stands. -/
def Windows.request (w : Windows) (e : Event) : Windows :=
  (Request.decode e.data).elim w fun req =>
    { w with requestedAt := w.requestedAt.insertIfNew ⟨w.starts.length - 1, req.id⟩ e.recordedAt }

variable {e : Event}

theorem opensWindow_eq_false (h : e.type_ ≠ typeRunStarted) : opensWindow e = false := by
  rw [opensWindow, beq_eq_false_iff_ne.2 h, Bool.false_and]

theorem type_of_opensWindow (h : opensWindow e = true) : e.type_ = typeRunStarted :=
  beq_iff_eq.1 (Bool.and_eq_true_iff.1 h).1

/-- What one event does to the windows. -/
def Windows.step (w : Windows) (i : Nat) (e : Event) : Windows :=
  if opensWindow e then { w with starts := w.starts ++ [i] }
  else if e.type_ = typeSpawnRequested then w.request e
  else w

theorem Windows.step_of_ne {w : Windows} {i : Nat} (hstart : e.type_ ≠ typeRunStarted)
    (hrequest : e.type_ ≠ typeSpawnRequested) : w.step i e = w := by
  rw [step, opensWindow_eq_false hstart, if_neg Bool.false_ne_true, if_neg hrequest]

/-! ## The fold -/

def recordedRadius (e : Event) : Option (String × List String) :=
  if e.type_ = typeBlastRadiusComputed then
    (fieldStr e "id").map fun id => (id, fieldStrVec e "safe")
  else none

structure Fold where
  reviews : Reviews
  gates : Std.ExtTreeMap String GateCounts
  findings : Findings
  verdicts : Verdicts
  windows : Windows
  blastRadii : Std.ExtTreeMap String (List String)

def Fold.empty : Fold := ⟨.empty, ∅, .empty, .empty, .empty, ∅⟩

section
variable (line : String → Option Json)

/-- The event at place `i`. -/
def Fold.step (s : Fold) (i : Nat) (e : Event) : Fold :=
  if e.type_ = Ledger.typeUnitStarted then { s with reviews := s.reviews.start e }
  else if e.type_ = Ledger.typeUnitStatus then { s with reviews := s.reviews.status e }
  else if e.type_ = Ledger.typeUnitFailed then { s with reviews := s.reviews.fail e }
  else if e.type_ = Ledger.typeUnitEscalated then { s with reviews := s.reviews.escalate e }
  else if e.type_ = Ledger.typeUnitIntegrated then { s with reviews := s.reviews.integrate e }
  else if e.type_ = typeGateVerdict then { s with gates := countGate s.gates e }
  else if e.type_ = typeReviewFinding then { s with findings := s.findings.raise e }
  else if opensWindow e then { s with windows :=
    { s.windows with starts := s.windows.starts ++ [i] } }
  else if e.type_ = typeSpawnRequested then { s with windows := s.windows.request e }
  else if e.type_ = typeSpawnResult then
    { s with verdicts := s.verdicts.record line e, reviews := s.reviews.noteCause line e }
  else if e.type_ = typeBlastRadiusComputed then
    { s with blastRadii := (recordedRadius e).elim s.blastRadii fun radius =>
        s.blastRadii.insert radius.1 radius.2 }
  else s

/-- What one event does to the reviews. -/
def Reviews.step (r : Reviews) (e : Event) : Reviews :=
  if e.type_ = Ledger.typeUnitStarted then r.start e
  else if e.type_ = Ledger.typeUnitStatus then r.status e
  else if e.type_ = Ledger.typeUnitFailed then r.fail e
  else if e.type_ = Ledger.typeUnitEscalated then r.escalate e
  else if e.type_ = Ledger.typeUnitIntegrated then r.integrate e
  else if e.type_ = typeSpawnResult then r.noteCause line e
  else r

def foldFrom (s : Fold) (i : Nat) : List Event → Fold
  | [] => s
  | e :: events => foldFrom (s.step line i e) (i + 1) events

def fold (events : List Event) : Fold := foldFrom line .empty 0 events

/-- What one event does to the windows and to the reviews. -/
theorem step_parts (s : Fold) (i : Nat) (e : Event) :
    (s.step line i e).windows = s.windows.step i e ∧
      (s.step line i e).reviews = s.reviews.step line e := by
  have hwindows : ∀ type_, e.type_ = type_ → type_ ≠ typeRunStarted → type_ ≠ typeSpawnRequested →
      s.windows = s.windows.step i e :=
    fun type_ htype hstart hrequest =>
      (Windows.step_of_ne (htype ▸ hstart) (htype ▸ hrequest)).symm
  unfold Fold.step Reviews.step
  by_cases hstarted : e.type_ = Ledger.typeUnitStarted
  · rw [if_pos hstarted, if_pos hstarted]
    exact ⟨hwindows _ hstarted (by decide) (by decide), rfl⟩
  rw [if_neg hstarted, if_neg hstarted]
  by_cases hstatus : e.type_ = Ledger.typeUnitStatus
  · rw [if_pos hstatus, if_pos hstatus]
    exact ⟨hwindows _ hstatus (by decide) (by decide), rfl⟩
  rw [if_neg hstatus, if_neg hstatus]
  by_cases hfailed : e.type_ = Ledger.typeUnitFailed
  · rw [if_pos hfailed, if_pos hfailed]
    exact ⟨hwindows _ hfailed (by decide) (by decide), rfl⟩
  rw [if_neg hfailed, if_neg hfailed]
  by_cases hescalated : e.type_ = Ledger.typeUnitEscalated
  · rw [if_pos hescalated, if_pos hescalated]
    exact ⟨hwindows _ hescalated (by decide) (by decide), rfl⟩
  rw [if_neg hescalated, if_neg hescalated]
  by_cases hintegrated : e.type_ = Ledger.typeUnitIntegrated
  · rw [if_pos hintegrated, if_pos hintegrated]
    exact ⟨hwindows _ hintegrated (by decide) (by decide), rfl⟩
  rw [if_neg hintegrated, if_neg hintegrated]
  by_cases hverdict : e.type_ = typeGateVerdict
  · rw [if_pos hverdict, if_neg (by rw [hverdict]; decide)]
    exact ⟨hwindows _ hverdict (by decide) (by decide), rfl⟩
  rw [if_neg hverdict]
  by_cases hfinding : e.type_ = typeReviewFinding
  · rw [if_pos hfinding, if_neg (by rw [hfinding]; decide)]
    exact ⟨hwindows _ hfinding (by decide) (by decide), rfl⟩
  rw [if_neg hfinding]
  by_cases hopens : opensWindow e = true
  · rw [if_pos hopens, if_neg (by rw [type_of_opensWindow hopens]; decide), Windows.step,
      if_pos hopens]
    exact ⟨rfl, rfl⟩
  rw [if_neg hopens]
  by_cases hrequest : e.type_ = typeSpawnRequested
  · rw [if_pos hrequest, if_neg (by rw [hrequest]; decide), Windows.step, if_neg hopens,
      if_pos hrequest]
    exact ⟨rfl, rfl⟩
  rw [if_neg hrequest]
  by_cases hresult : e.type_ = typeSpawnResult
  · rw [if_pos hresult, if_pos hresult]
    exact ⟨hwindows _ hresult (by decide) (by decide), rfl⟩
  rw [if_neg hresult, if_neg hresult]
  by_cases hradius : e.type_ = typeBlastRadiusComputed
  · rw [if_pos hradius]
    exact ⟨hwindows _ hradius (by decide) (by decide), rfl⟩
  · rw [if_neg hradius, Windows.step, if_neg hopens, if_neg hrequest]
    exact ⟨rfl, rfl⟩

theorem foldFrom_append (s : Fold) (i : Nat) (a b : List Event) :
    foldFrom line s i (a ++ b) = foldFrom line (foldFrom line s i a) (i + a.length) b := by
  induction a generalizing s i with
  | nil => rfl
  | cons e a ih =>
    rw [List.cons_append, foldFrom, ih, List.length_cons, Nat.add_assoc, Nat.add_comm 1]
    rfl

theorem fold_concat (events : List Event) (e : Event) :
    fold line (events ++ [e]) = (fold line events).step line events.length e := by
  unfold fold
  rw [foldFrom_append, Nat.zero_add]
  rfl

end

/-! ## Parallelism -/

/-- The first batch the item conflicts with no member of, or a batch of its own. -/
def placeIn (item : String × List String) :
    List (List (String × List String)) → List (List (String × List String))
  | [] => [[item]]
  | batch :: batches =>
    if batch.all fun member => !radiiConflict item.2 member.2 then (batch ++ [item]) :: batches
    else batch :: placeIn item batches

def partitionByBlastRadius (items : List (String × List String)) : List (List String) :=
  (items.foldl (fun batches item => placeIn item batches) []).map (·.map Prod.fst)

/-- The units that share a batch, over all of them. -/
def parallelismRetentionOf (radii : List (List String)) : Option ℚ :=
  if radii.isEmpty then none
  else
    let batches := partitionByBlastRadius (radii.zipIdx.map fun x => (toString x.2, x.1))
    some (((batches.filter (2 ≤ ·.length)).map List.length).sum / radii.length)

/-! ## What the fold comes to -/

structure ReviewQuality where
  flipFlops : Nat
  findingSurvival : Std.ExtTreeMap String FindingCounts
  overlapFiles : Nat
  findingFiles : Nat
  rejectionsByCause : Std.ExtTreeMap String Nat
  escalationsByCause : Std.ExtTreeMap String Nat
  adversaryOnly : FindingCounts
  tierCost : Std.ExtTreeMap String TierCost
  adjudications : Nat
  upheldUnattributed : Nat

end Metrics

open Metrics in
structure Metrics where
  unitsStarted : Nat
  firstPassClean : Nat
  gates : Std.ExtTreeMap String GateCounts
  unitsEscalated : Nat
  reviewApprove : Nat
  reviewReject : Nat
  reviewQuality : ReviewQuality
  parallelismRetention : Option ℚ
  groundedUnits : Nat
  emptyRadii : Nat
  spawnTiming : Std.ExtTreeMap String SpawnTiming
  unpairedSpawns : Nat

namespace Metrics

def FindingCounts.survival (c : FindingCounts) : ℚ := ratio c.upheld c.raised

namespace ReviewQuality
variable (q : ReviewQuality)

def lensOverlapRate : ℚ := ratio q.overlapFiles q.findingFiles

def adversaryPrecision : ℚ := q.adversaryOnly.survival

end ReviewQuality

section
variable (m : Metrics)

def firstPassYield : ℚ := ratio m.firstPassClean m.unitsStarted

def escalationRate : ℚ := ratio m.unitsEscalated m.unitsStarted

def flipFlopRate : ℚ := ratio m.reviewQuality.flipFlops m.reviewReject

end

/-- When each window's latest result of an id was recorded. -/
def resultAt (starts : List Nat) (events : List Event) : Std.ExtTreeMap SpawnKey SystemTime :=
  collect ((slices starts events).zipIdx.flatMap fun window =>
    (latestResults window.1).toList.map fun result =>
      (⟨window.2, result.1⟩, result.2.recordedAt))

structure Timed where
  timing : Std.ExtTreeMap String SpawnTiming
  unpaired : Nat

/-- How long the spawn took, where its result was recorded after its request. -/
def pairedDuration (results : Std.ExtTreeMap SpawnKey SystemTime) (key : SpawnKey)
    (requestedAt : SystemTime) : Option Int :=
  results[key]?.bind fun result =>
    if requestedAt < result then some (result - requestedAt) else none

def Timed.add (results : Std.ExtTreeMap SpawnKey SystemTime) (t : Timed)
    (request : SpawnKey × SystemTime) : Timed :=
  (pairedDuration results request.1 request.2).elim { t with unpaired := t.unpaired + 1 }
    fun duration =>
      let role := spawnRole request.1.id
      let timing := t.timing[role]?.getD ⟨0, 0⟩
      { t with timing := t.timing.insert role ⟨timing.count + 1, timing.total + duration⟩ }

structure Survival where
  byActor : Std.ExtTreeMap String FindingCounts
  adversaryOnly : FindingCounts

def FindingCounts.count (c : FindingCounts) (isUpheld : Bool) : FindingCounts :=
  ⟨c.raised + 1, c.upheld + isUpheld.toNat⟩

namespace Findings

/-- A lens flagged one of the files of the finding too. -/
def sharedWithALens (f : Findings) (id : String) : Bool :=
  (f.about[id]?.getD []).any fun file => f.fileActors[file]?.any fun actors =>
    actors.toList.any fun a => !a.isEmpty && actorTier a == tier .lens

/-- The finding of an id and its actor. -/
def survive (f : Findings) (upheld : Std.ExtTreeSet String) (s : Survival)
    (finding : String × String) : Survival :=
  if finding.2.isEmpty then s
  else
    let isUpheld := upheld.contains finding.1
    { byActor := s.byActor.insert finding.2 ((s.byActor[finding.2]?.getD ⟨0, 0⟩).count isUpheld)
      adversaryOnly :=
        if actorTier finding.2 == tier .adversary && !f.sharedWithALens finding.1 then
          s.adversaryOnly.count isUpheld
        else s.adversaryOnly }

def survival (f : Findings) (upheld : Std.ExtTreeSet String) : Survival :=
  f.actor.toList.foldl (f.survive upheld) ⟨∅, ⟨0, 0⟩⟩

end Findings

def spendOn (m : Std.ExtTreeMap String TierCost) (spawns : String × Nat) :
    Std.ExtTreeMap String TierCost :=
  let cost := m[spawns.1]?.getD ⟨0, 0⟩
  m.insert spawns.1 { cost with spawns := spawns.2 }

def upholdIn (m : Std.ExtTreeMap String TierCost) (counts : String × FindingCounts) :
    Std.ExtTreeMap String TierCost :=
  let cost := m[actorTier counts.1]?.getD ⟨0, 0⟩
  m.insert (actorTier counts.1) { cost with upheld := cost.upheld + counts.2.upheld }

/-- Each tier's spawns, with the upheld findings of its actors. -/
def tierCost (tierSpawns : Std.ExtTreeMap String Nat)
    (byActor : Std.ExtTreeMap String FindingCounts) : Std.ExtTreeMap String TierCost :=
  let spawned := tierSpawns.toList.foldl spendOn ∅
  byActor.toList.foldl upholdIn spawned

def project (line : String → Option Json) (events : List Event) : Metrics :=
  let s := fold line events
  let radii := s.blastRadii.toList.map Prod.snd
  let results := resultAt s.windows.starts events
  let timed := s.windows.requestedAt.toList.foldl (Timed.add results) ⟨∅, 0⟩
  let survival := s.findings.survival s.verdicts.upheld
  { unitsStarted := s.reviews.unitsStarted
    firstPassClean := (s.reviews.units.toList.filter fun x => x.2.cleanPass).length
    gates := s.gates
    unitsEscalated := s.reviews.unitsEscalated
    reviewApprove := s.reviews.reviewApprove
    reviewReject := s.reviews.reviewReject
    reviewQuality :=
      { flipFlops := s.reviews.flipFlops
        findingSurvival := survival.byActor
        overlapFiles := (s.findings.fileActors.toList.filter fun x => 2 ≤ x.2.size).length
        findingFiles := s.findings.fileActors.size
        rejectionsByCause := s.reviews.rejectionsByCause
        escalationsByCause := s.reviews.escalationsByCause
        adversaryOnly := survival.adversaryOnly
        tierCost := tierCost s.verdicts.tierSpawns survival.byActor
        adjudications := s.verdicts.adjudications
        upheldUnattributed := (s.verdicts.upheld.toList.filter fun id =>
          (s.findings.actor[id]?.map String.isEmpty).getD true).length }
    parallelismRetention := parallelismRetentionOf radii
    groundedUnits := radii.length
    emptyRadii := (radii.filter List.isEmpty).length
    spawnTiming := timed.timing
    unpairedSpawns := timed.unpaired }

end Metrics

end Rigger
