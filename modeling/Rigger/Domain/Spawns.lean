import Rigger.Conductor.Emit
import Rigger.Domain.Spawn
import Rigger.Lib.Latest

/-!
# Spawn requests and results (`rigger-domain/src/spawn.rs`)

A spawn's id is a function of its unit, its role and its attempt.  A later result of an id displaces
an earlier one; a body that cannot be read carries no id, so the strict readers fail on it and the
lenient ones skip it.
-/

namespace Rigger.Spawn

open Lib

def typeSpawnRequested : String := "SpawnRequested"

def metaLivenessClass : String := "liveness_class"

def spawnId (unit role : String) (attempt : Nat) : String :=
  unit ++ "/" ++ role ++ "#" ++ toString attempt

structure Request where
  id : String
  unit : String
  stage : String
  prompt : String
  systemPrompt : String
  model : String
  tools : List String
  dir : String
  blastRadius : List String
  maxWallClock : Option Nat
  title : String
  reviews : List String
  cargoTargetDir : String

def requestFields : List String :=
  ["id", "unit", "stage", "prompt", "system_prompt", "model", "tools", "dir", "blast_radius",
    "max_wall_clock", "title", "reviews", "cargo_target_dir"]

def Request.decode (data : Data) : Option Request := do
  let [id, unit, stage, prompt, systemPrompt, model, tools, dir, blastRadius, maxWallClock, title,
    reviews, cargoTargetDir] ← (← data.value).slots requestFields | none
  pure
    { id := ← Json.required Json.asStr id
      unit := ← Json.required Json.asStr unit
      stage := ← Json.required Json.asStr stage
      prompt := ← Json.required Json.asStr prompt
      systemPrompt := ← Json.orDefault Json.asStr "" systemPrompt
      model := ← Json.orDefault Json.asStr "" model
      tools := ← Json.orDefault (Json.asList Json.asStr) [] tools
      dir := ← Json.orDefault Json.asStr "" dir
      blastRadius := ← Json.orDefault (Json.asList Json.asStr) [] blastRadius
      maxWallClock := ← Json.orDefault (Json.asOption (Json.asUnsigned 64)) none maxWallClock
      title := ← Json.orDefault Json.asStr "" title
      reviews := ← Json.orDefault (Json.asList Json.asStr) [] reviews
      cargoTargetDir := ← Json.orDefault Json.asStr "" cargoTargetDir }

/-- The members of a request on the wire. -/
def Request.fields (r : Request) : List (String × Option Json) :=
  [("id", some (.str r.id)), ("unit", some (.str r.unit)), ("stage", some (.str r.stage)),
    ("prompt", some (.str r.prompt)), ("system_prompt", Json.unlessEmpty r.systemPrompt),
    ("model", Json.unlessEmpty r.model), ("tools", Json.unlessNil r.tools),
    ("dir", Json.unlessEmpty r.dir), ("blast_radius", Json.unlessNil r.blastRadius),
    ("max_wall_clock", r.maxWallClock.map fun secs => .num secs),
    ("title", Json.unlessEmpty r.title), ("reviews", Json.unlessNil r.reviews),
    ("cargo_target_dir", Json.unlessEmpty r.cargoTargetDir)]

def Request.encode (r : Request) : Json := .obj (Json.members r.fields)

theorem Request.decode_encode {r : Request} (h : ∀ secs ∈ r.maxWallClock, secs < 2 ^ 64) :
    Request.decode (.json r.encode) = some r := by
  have hslots : r.encode.slots requestFields = some (r.fields.map Prod.snd) :=
    Json.slots_members (show (r.fields.map Prod.fst).Nodup from (by decide : requestFields.Nodup))
  have hbound := Json.orDefault_asUnsigned h
  unfold Request.decode
  show (r.encode.slots requestFields).bind _ = _
  rw [hslots]
  simp only [Request.fields, List.map_cons, List.map_nil, Option.bind_some, Json.required,
    Json.orDefault_unlessEmpty, Json.orDefault_unlessNil, hbound]
  rfl

structure Result where
  id : String
  output : String
  error : String
  meta_ : Json
deriving DecidableEq

def Result.decode (data : Data) : Option Result := do
  let [id, output, error, meta_] ← (← data.value).slots ["id", "output", "error", "meta"] | none
  pure
    { id := ← Json.required Json.asStr id
      output := ← Json.orDefault Json.asStr "" output
      error := ← Json.orDefault Json.asStr "" error
      meta_ := ← Json.orDefault some .null meta_ }

def Result.isLivenessFault (r : Result) : Bool := (r.meta_.get metaLivenessClass).isSome

/-- What a `SpawnRequested` of the log requests. -/
def requestOf (e : Event) : Option Request :=
  if e.type_ = typeSpawnRequested then Request.decode e.data else none

/-- What a `SpawnResult` of the log records. -/
def resultIn (e : Event) : Option Result :=
  if e.type_ = typeSpawnResult then Result.decode e.data else none

/-- An event of the type whose body its reader cannot decode. -/
def unreadable (type_ : String) (read : Event → Option α) (events : List Event) : Bool :=
  events.any fun e => e.type_ == type_ && (read e).isNone

/-- `requests`: one malformed body fails the whole read. -/
def requests (events : List Event) : Option (List Request) :=
  if unreadable typeSpawnRequested requestOf events then none else some (events.filterMap requestOf)

/-- `is_recorded`. -/
def isRecorded (events : List Event) (id : String) : Bool :=
  events.any fun e => (requestOf e).any fun r => r.id == id

/-- `latest_results_lenient`: the latest result of each id, an unreadable body skipped. -/
def latestResults (events : List Event) : Std.ExtTreeMap String Event :=
  collect (events.filterMap fun e => (resultIn e).map fun r => (r.id, e))

/-- `result_of`: the latest result of an id; a body that cannot be read fails the read. -/
def resultOf (events : List Event) (id : String) : Option (Option Result) :=
  if unreadable typeSpawnResult resultIn events then none
  else some ((latestResults events)[id]?.bind resultIn)

/-- `ended_by`: a liveness fault ends no spawn. -/
def endedBy (events : List Event) (id : String) : Option (Option Result) :=
  (resultOf events id).map fun r => r.filter fun res => !res.isLivenessFault

/-! ## The latest result of an id -/

variable {e : Event} {a b : List Event} {real : Result → Bool} {r : Option Result}

theorem resultIn_eq_some {r : Result} :
    resultIn e = some r ↔ e.type_ = typeSpawnResult ∧ Result.decode e.data = some r :=
  Option.ite_none_right_eq_some

/-- The event that records a result of an id. -/
def resultFor (id : String) (e : Event) : Option Event :=
  (resultIn e).bind fun r => if r.id = id then some e else none

theorem getElem?_latestResults (events : List Event) (id : String) :
    (latestResults events)[id]? = latest (resultFor id) events := by
  unfold latestResults
  rw [getElem?_collect, latest_filterMap]
  refine latest_congr fun e _ => ?_
  unfold resultFor
  cases resultIn e with
  | none => rfl
  | some r => rfl

variable {id : String} {events : List Event}

theorem resultFor_eq_some {e' : Event} :
    resultFor id e = some e' ↔ e' = e ∧ ∃ r, resultIn e = some r ∧ r.id = id := by
  unfold resultFor
  cases resultIn e with
  | none => simp
  | some r =>
    by_cases hid : r.id = id
    · simp [hid, eq_comm]
    · simp [hid]

theorem latestResults_filter (events : List Event) :
    latestResults (events.filter fun e => e.type_ == typeSpawnResult) = latestResults events := by
  unfold latestResults
  rw [List.filterMap_filter]
  refine congrArg collect (List.filterMap_congr fun e _ => ?_)
  by_cases htype : e.type_ = typeSpawnResult
  · exact if_pos (beq_iff_eq.2 htype)
  · rw [if_neg (fun h => htype (beq_iff_eq.1 h)), resultIn, if_neg htype]
    rfl

theorem latestResults_result (h : (latestResults events)[id]? = some e) :
    e ∈ events ∧ ∃ r, resultIn e = some r ∧ r.id = id := by
  rw [getElem?_latestResults] at h
  obtain ⟨before, x, after, rfl, hx, -⟩ := (latest_eq_some_iff _ _ _).1 h
  obtain ⟨rfl, hr⟩ := resultFor_eq_some.1 hx
  exact ⟨by simp, hr⟩

/-- Results of other ids, and bodies that cannot be read, leave an id's latest result. -/
theorem latestResults_append {later : List Event}
    (h : ∀ e ∈ later, ∀ r, resultIn e = some r → r.id ≠ id) :
    (latestResults (events ++ later))[id]? = (latestResults events)[id]? := by
  have hnone : latest (resultFor id) later = none := by
    refine (latest_eq_none_iff _ _).2 fun e he => ?_
    rw [Option.eq_none_iff_forall_ne_some]
    intro e' heq
    obtain ⟨-, r, hr, hid⟩ := resultFor_eq_some.1 heq
    exact h e he r hr hid
  rw [getElem?_latestResults, getElem?_latestResults, latest_append, hnone, Option.none_or]

/-- What the latest readable result of an id records. -/
def latestFor (id : String) (events : List Event) : Option Result :=
  latest (fun e => (resultIn e).filter fun r => r.id = id) events

theorem latestFor_append (id : String) (a b : List Event) :
    latestFor id (a ++ b) = (latestFor id b).or (latestFor id a) := latest_append _ _ _

theorem latestResults_bind (events : List Event) (id : String) :
    (latestResults events)[id]?.bind resultIn = latestFor id events := by
  unfold latestFor
  have hread : ∀ e, (resultIn e).filter (fun r => r.id = id) = (resultFor id e).bind resultIn := by
    intro e
    unfold resultFor
    cases hr : resultIn e with
    | none => rfl
    | some r =>
      by_cases hid : r.id = id
      · simp [hid, hr]
      · simp [hid]
  rw [getElem?_latestResults, latest_congr fun e _ => hread e]
  cases h : latest (resultFor id) events with
  | none =>
    refine ((latest_eq_none_iff _ _).2 fun e he => ?_).symm
    rw [(latest_eq_none_iff _ _).1 h e he, Option.bind_none]
  | some e =>
    obtain ⟨before, x, after, rfl, hx, -⟩ := (latest_eq_some_iff _ _ _).1 h
    obtain ⟨rfl, r, hr, -⟩ := resultFor_eq_some.1 hx
    rw [Option.bind_some, hr, latest_bind_answer h hr]

/-! ## Readers of what stands -/

/-- Every result body can be read. -/
def Readable (events : List Event) : Prop := unreadable typeSpawnResult resultIn events = false

theorem readable_append : Readable (a ++ b) ↔ Readable a ∧ Readable b := by
  unfold Readable unreadable
  rw [List.any_append, Bool.or_eq_false_iff]

theorem Readable.subset (h : Readable b) (hsub : ∀ e ∈ a, e ∈ b) : Readable a := by
  unfold Readable unreadable at h ⊢
  rw [List.any_eq_false] at h ⊢
  exact fun e he => h e (hsub e he)

/-- A strict reader of the latest result of an id that `real` takes. -/
def standing (real : Result → Bool) (events : List Event) (id : String) : Option (Option Result) :=
  if unreadable typeSpawnResult resultIn events then none
  else some ((latestFor id events).filter real)

theorem resultOf_eq : resultOf = standing fun _ => true := by
  funext events id
  unfold resultOf standing
  rw [latestResults_bind]
  cases latestFor id events <;> rfl

theorem endedBy_eq : endedBy = standing fun r => !r.isLivenessFault := by
  funext events id
  unfold endedBy resultOf standing
  rw [latestResults_bind]
  split <;> rfl

theorem standing_eq_some :
    standing real events id = some r ↔
      Readable events ∧ (latestFor id events).filter real = r := by
  unfold standing Readable
  cases unreadable typeSpawnResult resultIn events with
  | true => simp
  | false => simp

/-- Only results are read. -/
theorem standing_filter {keep : Event → Bool}
    (h : ∀ e ∈ events, e.type_ = typeSpawnResult → keep e = true) :
    standing real (events.filter keep) id = standing real events id := by
  have hdropped : ∀ e ∈ events, keep e = false → e.type_ ≠ typeSpawnResult := by
    intro e he hk htype
    rw [h e he htype] at hk
    cases hk
  have hreadable : unreadable typeSpawnResult resultIn (events.filter keep) =
      unreadable typeSpawnResult resultIn events := by
    unfold unreadable
    rw [List.any_filter, Bool.eq_iff_iff, List.any_eq_true, List.any_eq_true]
    refine exists_congr fun e => and_congr_right fun he => ?_
    cases hk : keep e with
    | true => rw [Bool.true_and]
    | false => simp [hdropped e he hk]
  have hlatest : latestFor id (events.filter keep) = latestFor id events := by
    unfold latestFor
    rw [latest_filter]
    refine latest_congr fun e he => ?_
    cases hk : keep e with
    | true => exact if_pos rfl
    | false =>
      rw [resultIn, if_neg (hdropped e he hk)]
      rfl
  unfold standing
  rw [hreadable, hlatest]

/-- A read that answers no result of an id met none; one that answers a result met it. -/
theorem resultOf_eq_some (h : resultOf events id = some r) :
    (r = none ∧ ∀ e ∈ events, ∀ res, resultIn e = some res → res.id ≠ id) ∨
      ∃ res, r = some res ∧ res.id = id ∧ ∃ e ∈ events, resultIn e = some res := by
  rw [resultOf_eq, standing_eq_some] at h
  obtain ⟨-, rfl⟩ := h
  cases hfound : latestFor id events with
  | none =>
    refine Or.inl ⟨rfl, fun e he res hres hid => ?_⟩
    have hnone := (latest_eq_none_iff _ _).1 hfound e he
    rw [hres, Option.filter_some, if_pos (decide_eq_true hid)] at hnone
    cases hnone
  | some res =>
    obtain ⟨before, e, after, hsplit, he, -⟩ := (latest_eq_some_iff _ _ _).1 hfound
    obtain ⟨hres, hid⟩ := Option.filter_eq_some_iff.1 he
    exact Or.inr ⟨res, rfl, of_decide_eq_true hid, e, by rw [hsplit]; simp, hres⟩

end Rigger.Spawn
