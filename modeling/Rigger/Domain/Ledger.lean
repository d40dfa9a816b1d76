import Rigger.Domain.Run

/-!
# The run ledger (`rigger-domain/src/ledger.rs`)

The durable run state, folded event by event from a run's slice.  A body the fold cannot decode
fails it.  `foldlM_apply` gives a unit's status and escalation reason after a fold as what the last
event that moves them says, which is all the spec-defect stop reads (`stopped_iff`).
-/

namespace Rigger

open Lib

def typeRunHeld : String := "RunHeld"
def typeRunReleased : String := "RunReleased"

/-- The `by` of an operator's hold. -/
def holdByOperator : String := "operator"

structure RunHeld where
  cause : String
  detail : String
  action : String
  needsPerson : Bool
  by_ : String
  model : String
deriving DecidableEq

def RunHeld.decode (data : Data) : Option RunHeld := do
  let [cause, detail, action, needsPerson, holder, model] ← (← data.value).slots
    ["cause", "detail", "action", "needs_person", "by", "model"] | none
  pure
    { cause := ← Json.orDefault Json.asStr "" cause
      detail := ← Json.orDefault Json.asStr "" detail
      action := ← Json.orDefault Json.asStr "" action
      needsPerson := ← Json.orDefault Json.asBool false needsPerson
      by_ := ← Json.orDefault Json.asStr "" holder
      model := ← Json.orDefault Json.asStr "" model }

namespace Ledger

/-! ## Units -/

inductive Status where
  | pending
  | grounding
  | red
  | green
  | verified
  | reviewed
  | integrated
  | failed
  | escalated
deriving DecidableEq

def Status.parse (s : String) : Option Status :=
  if s = "pending" then some .pending
  else if s = "grounding" then some .grounding
  else if s = "red" then some .red
  else if s = "green" then some .green
  else if s = "verified" then some .verified
  else if s = "reviewed" then some .reviewed
  else if s = "integrated" then some .integrated
  else if s = "failed" then some .failed
  else if s = "escalated" then some .escalated
  else none

structure RequiredItem where
  finding : String
  path : String
  correctness : Bool
  pattern : String
deriving DecidableEq

def RequiredItem.decode (v : Json) : Option RequiredItem := do
  let [finding, path, correctness, pattern] ←
    v.slots ["finding", "path", "correctness", "pattern"] | none
  pure
    { finding := ← Json.orDefault Json.asStr "" finding
      path := ← Json.orDefault Json.asStr "" path
      correctness := ← Json.orDefault Json.asBool false correctness
      pattern := ← Json.orDefault Json.asStr "" pattern }

structure ResumeGrant where
  by_ : String
  attemptsGranted : Nat
deriving DecidableEq

structure Unit where
  id : String
  specCriterion : String
  dependsOn : List String
  status : Status
  worktree : String
  branch : String
  evidence : Std.ExtTreeMap String String
  attempts : Nat
  commit : String
  cause : String
  gateEvidence : List String
  reviewReason : String
  required : List RequiredItem
  resumeBound : Nat
  resumed : Option ResumeGrant
  escalationReason : String

def Unit.new (id : String) : Unit where
  id := id
  specCriterion := ""
  dependsOn := []
  status := .pending
  worktree := ""
  branch := ""
  evidence := ∅
  attempts := 0
  commit := ""
  cause := ""
  gateEvidence := []
  reviewReason := ""
  required := []
  resumeBound := 0
  resumed := none
  escalationReason := ""

def Unit.specDefectReason (u : Unit) : Option String :=
  if u.status = .escalated ∧ u.escalationReason ≠ "" then some u.escalationReason else none

/-! ## Holds -/

/-- A run's open hold. -/
structure Hold where
  since : SystemTime
  operator : Bool
  latest : RunHeld
  revision : Int

def Hold.onHeld (open_ : Option Hold) (e : Event) : Option Hold :=
  (RunHeld.decode e.data).map fun latest =>
    { since := (open_.map Hold.since).getD e.validFrom
      operator := (open_.map Hold.operator).getD false || latest.by_ == holdByOperator
      latest := latest
      revision := e.revision }

/-! ## Bodies -/

def typeUnitStarted : String := "UnitStarted"
def typeUnitStatus : String := "UnitStatus"
def typeUnitFailed : String := "UnitFailed"
def typeUnitEscalated : String := "UnitEscalated"
def typeUnitResumed : String := "UnitResumed"
def typeUnitIntegrated : String := "UnitIntegrated"
def typeSpecDefect : String := "SpecDefect"
def typeDeferredGateFailed : String := "DeferredGateFailed"
def typeManualReview : String := "ManualReview"

structure RunStartedFold where
  run : String
  spec : String

def RunStartedFold.decode (data : Data) : Option RunStartedFold := do
  let [run, spec] ← (← data.value).slots ["run", "spec"] | none
  pure ⟨← Json.orDefault Json.asStr "" run, ← Json.orDefault Json.asStr "" spec⟩

structure UnitStarted where
  id : String
  specCriterion : String
  needs : List String
  worktree : String
  branch : String

def UnitStarted.decode (data : Data) : Option UnitStarted := do
  let [id, specCriterion, needs, worktree, branch] ← (← data.value).slots
    ["id", "spec_criterion", "needs", "worktree", "branch"] | none
  pure
    { id := ← Json.required Json.asStr id
      specCriterion := ← Json.orDefault Json.asStr "" specCriterion
      needs := ← Json.orDefault (Json.asList Json.asStr) [] needs
      worktree := ← Json.orDefault Json.asStr "" worktree
      branch := ← Json.orDefault Json.asStr "" branch }

structure UnitStatus where
  id : String
  status : String
  evidence : List (String × String)

/-- A map of strings reads an object, whatever its names. -/
def asStrings : Json → Option (List (String × String))
  | .obj members => members.mapM fun m => m.2.asStr.map fun value => (m.1, value)
  | _ => none

def UnitStatus.decode (data : Data) : Option UnitStatus := do
  let [id, status, evidence] ← (← data.value).slots ["id", "status", "evidence"] | none
  pure
    { id := ← Json.required Json.asStr id
      status := ← Json.required Json.asStr status
      evidence := ← Json.orDefault asStrings [] evidence }

structure UnitFailed where
  id : String
  attempts : Nat
  cause : String
  gateEvidence : List String
  reviewReason : String
  required : List RequiredItem

def UnitFailed.decode (data : Data) : Option UnitFailed := do
  let [id, attempts, cause, gateEvidence, reviewReason, required] ← (← data.value).slots
    ["id", "attempts", "cause", "gate_evidence", "review_reason", "required"] | none
  pure
    { id := ← Json.required Json.asStr id
      attempts := ← Json.orDefault (Json.asUnsigned 32) 0 attempts
      cause := ← Json.orDefault Json.asStr "" cause
      gateEvidence := ← Json.orDefault (Json.asList Json.asStr) [] gateEvidence
      reviewReason := ← Json.orDefault Json.asStr "" reviewReason
      required := ← Json.orDefault (Json.asList RequiredItem.decode) [] required }

structure UnitEscalated where
  id : String
  reason : String

def UnitEscalated.decode (data : Data) : Option UnitEscalated := do
  let [id, reason] ← (← data.value).slots ["id", "reason"] | none
  pure ⟨← Json.required Json.asStr id, ← Json.orDefault Json.asStr "" reason⟩

structure UnitResumed where
  unit : String
  attemptsGranted : Nat
  by_ : String

def UnitResumed.decode (data : Data) : Option UnitResumed := do
  let [unit, attemptsGranted, holder] ←
    (← data.value).slots ["unit", "attempts_granted", "by"] | none
  pure
    { unit := ← Json.required Json.asStr unit
      attemptsGranted := ← Json.orDefault (Json.asUnsigned 32) 0 attemptsGranted
      by_ := ← Json.orDefault Json.asStr "" holder }

structure UnitIntegrated where
  id : String
  commit : String

def UnitIntegrated.decode (data : Data) : Option UnitIntegrated := do
  let [id, commit] ← (← data.value).slots ["id", "commit"] | none
  pure ⟨← Json.required Json.asStr id, ← Json.orDefault Json.asStr "" commit⟩

structure ManualReview where
  unit : String
  id : String

def ManualReview.decode (data : Data) : Option ManualReview := do
  let [unit, id] ← (← data.value).slots ["unit", "id"] | none
  pure ⟨← Json.orDefault Json.asStr "" unit, ← Json.orDefault Json.asStr "" id⟩

/-! ## The run state -/

/-- What the fold writes; the facts of a live pass are stamped on it afterwards. -/
structure RunState where
  units : Std.ExtTreeMap String Unit
  specDefect : Bool
  deferredGateFailed : Bool
  manualReview : List String
  runId : String
  specPath : String
  hold : Option Hold

namespace RunState

def new : RunState := ⟨∅, false, false, [], "", "", none⟩

/-- Write one unit, a new one where the run has none of that id. -/
def writeUnit (s : RunState) (id : String) (write : Unit → Unit) : RunState :=
  { s with units := s.units.insert id (write (s.units[id]?.getD (Unit.new id))) }

/-- The unit a lifecycle event names, and what it writes there; none when its body does not
decode. -/
def unitEvent (e : Event) : Option (String × (Unit → Unit)) :=
  if e.type_ = typeUnitStarted then
    (UnitStarted.decode e.data).map fun p => (p.id, fun u =>
      { u with
        specCriterion := p.specCriterion
        dependsOn := p.needs
        worktree := p.worktree
        branch := p.branch
        status := .grounding })
  else if e.type_ = typeUnitStatus then
    (UnitStatus.decode e.data).map fun p => (p.id, fun u =>
      { u with
        status := (Status.parse p.status).getD u.status
        evidence := p.evidence.foldl (fun m x => m.insert x.1 x.2) u.evidence })
  else if e.type_ = typeUnitFailed then
    (UnitFailed.decode e.data).map fun p => (p.id, fun u =>
      { u with
        status := .failed
        attempts := p.attempts
        cause := p.cause
        gateEvidence := p.gateEvidence
        reviewReason := p.reviewReason
        required := p.required })
  else if e.type_ = typeUnitEscalated then
    (UnitEscalated.decode e.data).map fun p => (p.id, fun u =>
      { u with status := .escalated, escalationReason := p.reason, resumed := none })
  else if e.type_ = typeUnitResumed then
    (UnitResumed.decode e.data).map fun p => (p.unit, fun u =>
      { u with
        status := .failed
        -- a release build's sum keeps the low 32 bits
        resumeBound := (u.attempts + p.attemptsGranted) % 2 ^ 32
        resumed := some ⟨p.by_, p.attemptsGranted⟩ })
  else
    (UnitIntegrated.decode e.data).map fun p => (p.id, fun u =>
      { u with status := .integrated, commit := p.commit })

/-- The types of the events `unitEvent` reads. -/
def unitTypes : List String :=
  [typeUnitStarted, typeUnitStatus, typeUnitFailed, typeUnitEscalated, typeUnitResumed,
    typeUnitIntegrated]

/-- Fold one event; none where its body does not decode. -/
def apply (s : RunState) (e : Event) : Option RunState :=
  if e.type_ = typeRunStarted then
    (RunStartedFold.decode e.data).map fun p => { s with runId := p.run, specPath := p.spec }
  else if e.type_ = typeRunHeld then
    (Hold.onHeld s.hold e).map fun hold => { s with hold := some hold }
  else if e.type_ = typeRunReleased then some { s with hold := none }
  else if e.type_ ∈ unitTypes then (unitEvent e).map fun p => s.writeUnit p.1 p.2
  else if e.type_ = typeSpecDefect then some { s with specDefect := true }
  else if e.type_ = typeDeferredGateFailed then some { s with deferredGateFailed := true }
  else some s

def isTerminal (s : RunState) (id : String) : Bool :=
  match (s.units[id]?).map Unit.status with
  | some .integrated | some .escalated => true
  | _ => false

/-- Every unit is integrated, one at least, and no deferred gate failed. -/
def done (s : RunState) : Bool :=
  !s.deferredGateFailed && !s.units.isEmpty &&
    s.units.toList.all fun u => u.2.status = .integrated

/-- The first unit's reason, in the order of ids. -/
def specDefectReason (s : RunState) : Option String :=
  s.units.toList.findSome? fun x => x.2.specDefectReason

/-- The units a manual review names that are not terminal. -/
def foldManualReviewInbox (s : RunState) (events : List Event) : RunState :=
  let inbox := (events.filter fun e => e.type_ == typeManualReview).foldl
    (fun (inbox : Std.ExtTreeSet String) e =>
      match ManualReview.decode e.data with
      | none => inbox
      | some p =>
        let id := if p.unit.isEmpty then p.id else p.unit
        if !id.isEmpty && !s.isTerminal id then inbox.insert id else inbox) ∅
  { s with manualReview := inbox.toList }

end RunState

def project (events : List Event) : Option RunState :=
  (events.foldlM RunState.apply RunState.new).map fun s => s.foldManualReviewInbox events

/-! ## What one event moves -/

/-- Whether the fold can read an event. -/
def folds (e : Event) : Bool := (RunState.new.apply e).isSome

/-- The unit an event moves, and where to; a status no state is named by moves none. -/
def movedTo (e : Event) : Option (String × Status) :=
  if e.type_ = typeUnitStarted then (UnitStarted.decode e.data).map fun p => (p.id, .grounding)
  else if e.type_ = typeUnitStatus then
    (UnitStatus.decode e.data).bind fun p => (Status.parse p.status).map fun s => (p.id, s)
  else if e.type_ = typeUnitFailed then (UnitFailed.decode e.data).map fun p => (p.id, .failed)
  else if e.type_ = typeUnitEscalated then
    (UnitEscalated.decode e.data).map fun p => (p.id, .escalated)
  else if e.type_ = typeUnitResumed then (UnitResumed.decode e.data).map fun p => (p.unit, .failed)
  else if e.type_ = typeUnitIntegrated then
    (UnitIntegrated.decode e.data).map fun p => (p.id, .integrated)
  else none

/-- The unit an event escalates, and its reason. -/
def escalatedWith (e : Event) : Option (String × String) :=
  if e.type_ = typeUnitEscalated then (UnitEscalated.decode e.data).map fun p => (p.id, p.reason)
  else none

/-- What is said of one unit. -/
def ofUnit {α : Type} (unit : String) (said : Option (String × α)) : Option α :=
  said.bind fun m => if m.1 = unit then some m.2 else none

def statusMoved (unit : String) (e : Event) : Option Status := ofUnit unit (movedTo e)

def reasonGiven (unit : String) (e : Event) : Option String := ofUnit unit (escalatedWith e)

theorem ofUnit_eq {α : Type} {id : String} {said : Option (String × α)}
    (h : ∀ m ∈ said, m.1 = id) (unit : String) :
    ofUnit unit said = if id = unit then said.map Prod.snd else none := by
  cases said with
  | none => simp [ofUnit]
  | some m =>
    have hm : m.1 = id := h m rfl
    simp [ofUnit, hm]

variable {e : Event}

theorem movedTo_of_not_unit (htype : e.type_ ∉ RunState.unitTypes) :
    movedTo e = none ∧ escalatedWith e = none := by
  simp only [RunState.unitTypes, List.mem_cons, List.not_mem_nil, or_false, not_or] at htype
  simp [movedTo, escalatedWith, htype]

theorem movedTo_of_escalated (htype : e.type_ = typeUnitEscalated) :
    movedTo e = (UnitEscalated.decode e.data).map (fun p => (p.id, .escalated)) ∧
      escalatedWith e = (UnitEscalated.decode e.data).map fun p => (p.id, p.reason) := by
  unfold movedTo escalatedWith
  rw [htype]
  simp +decide only [if_true, if_false, and_self]

theorem movedTo_of_resumed (htype : e.type_ = typeUnitResumed) :
    movedTo e = (UnitResumed.decode e.data).map (fun p => (p.unit, .failed)) ∧
      escalatedWith e = none := by
  unfold movedTo escalatedWith
  rw [htype]
  simp +decide only [if_true, if_false, and_self]

namespace RunState

def statusOf (s : RunState) (unit : String) : Status :=
  ((s.units[unit]?).map Unit.status).getD .pending

def reasonOf (s : RunState) (unit : String) : String :=
  ((s.units[unit]?).map Unit.escalationReason).getD ""

theorem apply_isSome (s : RunState) (e : Event) : (s.apply e).isSome = folds e := by
  unfold folds apply Hold.onHeld
  repeat' split
  all_goals simp only [Option.isSome_map, Option.isSome_some]

variable {e : Event} {write : Unit → Unit} {s' s : RunState}

/-- What a lifecycle event writes is what it moves its unit to. -/
theorem unitEvent_writes {id : String} (htype : e.type_ ∈ unitTypes)
    (h : unitEvent e = some (id, write)) :
    (∀ m ∈ movedTo e, m.1 = id) ∧ (∀ m ∈ escalatedWith e, m.1 = id) ∧
      ∀ u, (write u).status = ((movedTo e).map Prod.snd).getD u.status ∧
        (write u).escalationReason = ((escalatedWith e).map Prod.snd).getD u.escalationReason := by
  simp only [unitTypes, List.mem_cons, List.not_mem_nil, or_false] at htype
  unfold unitEvent at h
  unfold movedTo escalatedWith
  rcases htype with ht | ht | ht | ht | ht | ht <;> rw [ht] at h ⊢ <;>
    simp +decide only [if_true, if_false] at h ⊢ <;>
    obtain ⟨p, hp, heq⟩ := Option.map_eq_some_iff.1 h <;> cases heq <;> rw [hp]
  case inr.inl => cases hs : Status.parse p.status <;> simp [hs]
  all_goals simp

theorem view_writeUnit (s : RunState) (id unit : String) (write : Unit → Unit) :
    (s.writeUnit id write).statusOf unit =
        (if id = unit then (write (s.units[unit]?.getD (Unit.new unit))).status
          else s.statusOf unit) ∧
      (s.writeUnit id write).reasonOf unit =
        (if id = unit then (write (s.units[unit]?.getD (Unit.new unit))).escalationReason
          else s.reasonOf unit) := by
  unfold writeUnit statusOf reasonOf
  by_cases hid : id = unit
  · subst hid
    simp
  · simp [Std.ExtTreeMap.getElem?_insert, hid]

/-- What an event does to the units: a lifecycle event writes the one it names, any other none. -/
theorem apply_units (h : s.apply e = some s') :
    (e.type_ ∈ unitTypes ∧ ∃ id write, unitEvent e = some (id, write) ∧ s' = s.writeUnit id write) ∨
      e.type_ ∉ unitTypes ∧ s'.units = s.units := by
  by_cases htype : e.type_ ∈ unitTypes
  · have hne : ∀ t ∈ unitTypes, t ≠ typeRunStarted ∧ t ≠ typeRunHeld ∧ t ≠ typeRunReleased := by
      decide
    obtain ⟨hstarted, hheld, hreleased⟩ := hne _ htype
    rw [apply, if_neg hstarted, if_neg hheld, if_neg hreleased, if_pos htype] at h
    obtain ⟨⟨id, write⟩, hwrite, rfl⟩ := Option.map_eq_some_iff.1 h
    exact .inl ⟨htype, id, write, hwrite, rfl⟩
  · refine .inr ⟨htype, ?_⟩
    unfold apply at h
    rw [if_neg htype] at h
    repeat' split at h
    all_goals first
      | cases h; rfl
      | obtain ⟨p, -, rfl⟩ := Option.map_eq_some_iff.1 h; rfl

theorem apply_unit (h : s.apply e = some s') (unit : String) :
    s'.statusOf unit = (statusMoved unit e).getD (s.statusOf unit) ∧
      s'.reasonOf unit = (reasonGiven unit e).getD (s.reasonOf unit) := by
  rcases apply_units h with ⟨htype, id, write, hwrite, rfl⟩ | ⟨htype, hunits⟩
  · obtain ⟨hmoved, hescalated, hwrites⟩ := unitEvent_writes htype hwrite
    obtain ⟨hstatus, hreason⟩ := view_writeUnit s id unit write
    rw [statusMoved, reasonGiven, ofUnit_eq hmoved, ofUnit_eq hescalated, hstatus, hreason]
    obtain ⟨hwstatus, hwreason⟩ := hwrites (s.units[unit]?.getD (Unit.new unit))
    by_cases hid : id = unit
    · rw [if_pos hid, if_pos hid, if_pos hid, if_pos hid, hwstatus, hwreason]
      unfold statusOf reasonOf
      cases s.units[unit]? <;> exact ⟨rfl, rfl⟩
    · rw [if_neg hid, if_neg hid, if_neg hid, if_neg hid]
      exact ⟨rfl, rfl⟩
  · -- no other event reads or writes a unit
    have hmoved := movedTo_of_not_unit htype
    rw [statusMoved, reasonGiven, hmoved.1, hmoved.2]
    unfold statusOf reasonOf
    rw [hunits]
    exact ⟨rfl, rfl⟩

/-- A run holds a stopped unit where one is escalated and its escalation gave a reason. -/
theorem specDefectReason_isSome (s : RunState) : s.specDefectReason.isSome = true ↔
    ∃ unit, s.statusOf unit = .escalated ∧ s.reasonOf unit ≠ "" := by
  have hreason : ∀ u : Unit, u.specDefectReason.isSome = true ↔
      u.status = .escalated ∧ u.escalationReason ≠ "" := fun u => by
    unfold Unit.specDefectReason
    split <;> simp_all
  rw [specDefectReason, List.findSome?_isSome_iff]
  constructor
  · rintro ⟨⟨id, u⟩, hu, hstopped⟩
    have hget := Std.ExtTreeMap.mem_toList_iff_getElem?_eq_some.1 hu
    refine ⟨id, ?_⟩
    rw [statusOf, reasonOf, hget]
    exact (hreason u).1 hstopped
  · rintro ⟨id, hstatus, hgiven⟩
    cases hget : s.units[id]? with
    | none =>
      rw [statusOf, hget] at hstatus
      cases hstatus
    | some u =>
      rw [statusOf, hget] at hstatus
      rw [reasonOf, hget] at hgiven
      exact ⟨(id, u), Std.ExtTreeMap.mem_toList_iff_getElem?_eq_some.2 hget,
        (hreason u).2 ⟨hstatus, hgiven⟩⟩

/-- The fold runs through where it can read every event, and leaves a unit where the last event
that moves it does. -/
theorem foldlM_apply (s : RunState) (events : List Event) :
    ((events.foldlM apply s).isSome = true ↔ ∀ e ∈ events, folds e = true) ∧
      ∀ s', events.foldlM apply s = some s' → ∀ unit,
        s'.statusOf unit = (latest (statusMoved unit) events).getD (s.statusOf unit) ∧
          s'.reasonOf unit = (latest (reasonGiven unit) events).getD (s.reasonOf unit) := by
  induction events generalizing s with
  | nil =>
    refine ⟨by simp, fun s' h unit => ?_⟩
    cases h
    exact ⟨rfl, rfl⟩
  | cons e events ih =>
    have hsome := apply_isSome s e
    cases happly : s.apply e with
    | none =>
      have hfolds : folds e = false := by rw [← hsome, happly]; rfl
      simp [happly, hfolds]
    | some s₁ =>
      have hfolds : folds e = true := by rw [← hsome, happly]; rfl
      obtain ⟨hread, hview⟩ := ih s₁
      rw [List.foldlM_cons, happly]
      refine ⟨?_, fun s' h unit => ?_⟩
      · show (events.foldlM apply s₁).isSome = true ↔ _
        rw [hread, List.forall_mem_cons, hfolds]
        simp
      · obtain ⟨hstatus, hreason⟩ := hview s' h unit
        obtain ⟨hstatus₁, hreason₁⟩ := apply_unit happly unit
        rw [hstatus, hreason, hstatus₁, hreason₁, latest_cons, latest_cons]
        constructor
        · cases latest (statusMoved unit) events <;> rfl
        · cases latest (reasonGiven unit) events <;> rfl

/-- The unit the fold holds of an id, a new one where it holds none. -/
def unitAt (s : RunState) (id : String) : Unit := s.units[id]?.getD (Unit.new id)

/-- What an event writes of a unit. -/
def written (id : String) (e : Event) : Unit → Unit :=
  if e.type_ ∈ unitTypes then
    match unitEvent e with
    | some p => if p.1 = id then p.2 else fun u => u
    | none => fun u => u
  else fun u => u

theorem unitAt_writeUnit (s : RunState) (id unit : String) (write : Unit → Unit) :
    (s.writeUnit id write).unitAt unit =
      if id = unit then write (s.unitAt unit) else s.unitAt unit := by
  unfold writeUnit unitAt
  by_cases hid : id = unit
  · subst hid
    simp
  · simp [Std.ExtTreeMap.getElem?_insert, hid]

theorem apply_unitAt (h : s.apply e = some s') (id : String) :
    s'.unitAt id = written id e (s.unitAt id) := by
  unfold written
  rcases apply_units h with ⟨htype, i, write, hwrite, rfl⟩ | ⟨htype, hunits⟩
  · rw [if_pos htype, hwrite, unitAt_writeUnit]
    show (if i = id then write (s.unitAt id) else s.unitAt id) = (if i = id then write else _) _
    split <;> rfl
  · rw [if_neg htype]
    unfold unitAt
    rw [hunits]

/-- The unit a failure charges, and the count it gives its attempts. -/
def charged (e : Event) : Option (String × Nat) :=
  if e.type_ = typeUnitFailed then
    (UnitFailed.decode e.data).map fun p => (p.id, p.attempts)
  else none

/-- The unit an operator resumes, and the attempts granted. -/
def granted (e : Event) : Option (String × Nat) :=
  if e.type_ = typeUnitResumed then
    (UnitResumed.decode e.data).map fun p => (p.unit, p.attemptsGranted)
  else none

theorem charged_of_not_unit (htype : e.type_ ∉ unitTypes) :
    charged e = none ∧ granted e = none := by
  simp only [unitTypes, List.mem_cons, List.not_mem_nil, or_false, not_or] at htype
  simp [charged, granted, htype]

theorem unitEvent_counts {id : String} (htype : e.type_ ∈ unitTypes)
    (h : unitEvent e = some (id, write)) :
    (∀ m ∈ charged e, m.1 = id) ∧ (∀ m ∈ granted e, m.1 = id) ∧
      ∀ u, (write u).attempts = ((charged e).map Prod.snd).getD u.attempts ∧
        (write u).resumeBound =
          ((granted e).map fun m => (u.attempts + m.2) % 2 ^ 32).getD u.resumeBound := by
  simp only [unitTypes, List.mem_cons, List.not_mem_nil, or_false] at htype
  unfold unitEvent at h
  unfold charged granted
  rcases htype with ht | ht | ht | ht | ht | ht <;> rw [ht] at h ⊢ <;>
    simp +decide only [if_true, if_false] at h ⊢ <;>
    obtain ⟨p, hp, heq⟩ := Option.map_eq_some_iff.1 h <;> cases heq
  case inr.inr.inl => simp [hp]
  case inr.inr.inr.inr.inl => simp [hp]
  all_goals simp

theorem unitEvent_eq_none (htype : e.type_ ∈ unitTypes) (h : unitEvent e = none) :
    movedTo e = none ∧ charged e = none ∧ granted e = none := by
  simp only [unitTypes, List.mem_cons, List.not_mem_nil, or_false] at htype
  unfold unitEvent at h
  unfold movedTo charged granted
  rcases htype with ht | ht | ht | ht | ht | ht <;> rw [ht] at h ⊢ <;>
    simp +decide only [if_true, if_false, Option.map_eq_none_iff] at h ⊢ <;> simp [h]

/-- What an event writes of a unit: its status, the count of its attempts and its bound. -/
theorem written_fields (id : String) (e : Event) (u : Unit) :
    (written id e u).status = (statusMoved id e).getD u.status ∧
      (written id e u).attempts = (ofUnit id (charged e)).getD u.attempts ∧
      (written id e u).resumeBound =
        ((ofUnit id (granted e)).map fun n => (u.attempts + n) % 2 ^ 32).getD u.resumeBound := by
  unfold written statusMoved
  by_cases htype : e.type_ ∈ unitTypes
  · rw [if_pos htype]
    cases hevent : unitEvent e with
    | none =>
      obtain ⟨hmoved, hcharged, hgranted⟩ := unitEvent_eq_none htype hevent
      rw [hmoved, hcharged, hgranted]
      exact ⟨rfl, rfl, rfl⟩
    | some p =>
      obtain ⟨i, write⟩ := p
      obtain ⟨hid, -, hwrites⟩ := unitEvent_writes htype hevent
      obtain ⟨hcharged, hgranted, hcounts⟩ := unitEvent_counts htype hevent
      rw [ofUnit_eq hid, ofUnit_eq hcharged, ofUnit_eq hgranted]
      by_cases hi : i = id
      · simp only [hi, if_true, Option.map_map]
        exact ⟨(hwrites u).1, (hcounts u).1, (hcounts u).2⟩
      · simp only [hi, if_false]
        exact ⟨rfl, rfl, rfl⟩
  · obtain ⟨hcharged, hgranted⟩ := charged_of_not_unit htype
    rw [if_neg htype, (movedTo_of_not_unit htype).1, hcharged, hgranted]
    exact ⟨rfl, rfl, rfl⟩

/-- Each unit is held under its id. -/
def Keyed (s : RunState) : Prop := ∀ (id : String) (u : Unit), s.units[id]? = some u → u.id = id

theorem unitEvent_id {id : String} (h : unitEvent e = some (id, write)) (u : Unit) :
    (write u).id = u.id := by
  unfold unitEvent at h
  repeat' split at h
  all_goals
    obtain ⟨p, -, heq⟩ := Option.map_eq_some_iff.1 h
    cases heq
    rfl

theorem Keyed.apply (hkeyed : s.Keyed) (h : s.apply e = some s') : s'.Keyed := by
  rcases apply_units h with ⟨-, i, write, hwrite, rfl⟩ | ⟨-, hunits⟩
  · intro id u hu
    unfold writeUnit at hu
    rw [Std.ExtTreeMap.getElem?_insert] at hu
    split at hu
    · next heq =>
      obtain rfl := Std.LawfulEqCmp.eq_of_compare heq
      rw [← Option.some.inj hu, unitEvent_id hwrite]
      cases hget : s.units[i]? with
      | none => rfl
      | some v => exact hkeyed i v hget
    · exact hkeyed id u hu
  · intro id u hu
    rw [hunits] at hu
    exact hkeyed id u hu

variable {events : List Event}

theorem keyed_foldlM (hkeyed : s.Keyed) (h : events.foldlM RunState.apply s = some s') :
    s'.Keyed := by
  induction events generalizing s with
  | nil =>
    cases h
    exact hkeyed
  | cons e events ih =>
    rw [List.foldlM_cons, Option.bind_eq_bind, Option.bind_eq_some_iff] at h
    obtain ⟨s₁, happly, hrest⟩ := h
    exact ih (hkeyed.apply happly) hrest

theorem keyed_new : RunState.new.Keyed := by
  intro id u hu
  unfold RunState.new at hu
  rw [Std.ExtTreeMap.getElem?_empty] at hu
  cases hu

theorem isTerminal_iff (s : RunState) (id : String) :
    s.isTerminal id = true ↔
      (s.unitAt id).status = .integrated ∨ (s.unitAt id).status = .escalated := by
  unfold isTerminal unitAt
  cases s.units[id]? with
  | none => simp [Unit.new]
  | some u => cases h : u.status <;> simp [h]

theorem apply_deferredGateFailed (h : s.apply e = some s')
    (hfailed : s.deferredGateFailed = true ∨ e.type_ = typeDeferredGateFailed) :
    s'.deferredGateFailed = true := by
  by_cases htype : e.type_ = typeDeferredGateFailed
  · unfold apply at h
    rw [htype] at h
    simp +decide only [if_false, if_true, Option.some.injEq] at h
    rw [← h]
  · have hfailed := hfailed.resolve_right htype
    unfold apply at h
    rw [if_neg htype] at h
    repeat' split at h
    all_goals first
      | cases h; exact hfailed
      | obtain ⟨p, -, rfl⟩ := Option.map_eq_some_iff.1 h; exact hfailed

theorem foldlM_deferredGateFailed (h : events.foldlM apply s = some s')
    (hfailed : s.deferredGateFailed = true ∨ ∃ e ∈ events, e.type_ = typeDeferredGateFailed) :
    s'.deferredGateFailed = true := by
  induction events generalizing s with
  | nil =>
    cases h
    simpa using hfailed
  | cons e events ih =>
    rw [List.foldlM_cons, Option.bind_eq_bind, Option.bind_eq_some_iff] at h
    obtain ⟨s₁, happly, hrest⟩ := h
    refine ih hrest ?_
    rcases hfailed with hfailed | ⟨x, hx, hfailed⟩
    · exact Or.inl (apply_deferredGateFailed happly (Or.inl hfailed))
    · rcases List.mem_cons.1 hx with rfl | hx
      · exact Or.inl (apply_deferredGateFailed happly (Or.inr hfailed))
      · exact Or.inr ⟨x, hx, hfailed⟩

end RunState

variable {events : List Event}

theorem keyed_project {run : RunState} (h : project events = some run) : run.Keyed := by
  obtain ⟨s, hfold, rfl⟩ := Option.map_eq_some_iff.1 h
  have hkeyed : s.Keyed := RunState.keyed_foldlM RunState.keyed_new hfold
  exact hkeyed

theorem not_done_of_deferredGateFailed {run : RunState} (h : project events = some run)
    (he : e ∈ events) (htype : e.type_ = typeDeferredGateFailed) : run.done = false := by
  obtain ⟨s, hfold, rfl⟩ := Option.map_eq_some_iff.1 h
  have hfailed := RunState.foldlM_deferredGateFailed hfold (Or.inr ⟨e, he, htype⟩)
  show (!s.deferredGateFailed && _ && _) = false
  rw [hfailed]
  rfl

/-- Every body decodes, and the last event that moves some unit leaves it escalated, for a reason
its last escalation gave. -/
def Stopped (events : List Event) : Prop :=
  (∀ e ∈ events, folds e = true) ∧ ∃ unit, latest (statusMoved unit) events = some .escalated ∧
    ∃ reason, latest (reasonGiven unit) events = some reason ∧ reason ≠ ""

theorem stopped_iff (events : List Event) :
    ((project events).any fun run => run.specDefectReason.isSome) = true ↔ Stopped events := by
  obtain ⟨hread, hview⟩ := RunState.foldlM_apply RunState.new events
  unfold project Stopped
  rw [← hread]
  cases hfold : events.foldlM RunState.apply RunState.new with
  | none => simp
  | some s =>
    have hstopped : ∀ unit, s.statusOf unit = .escalated ∧ s.reasonOf unit ≠ "" ↔
        latest (statusMoved unit) events = some .escalated ∧
          ∃ reason, latest (reasonGiven unit) events = some reason ∧ reason ≠ "" := by
      intro unit
      obtain ⟨hstatus, hreason⟩ := hview s hfold unit
      rw [hstatus, hreason]
      refine and_congr ?_ ?_
      · cases latest (statusMoved unit) events with
        | none => exact iff_of_false (by simp [RunState.statusOf, RunState.new]) (by simp)
        | some status => simp
      · cases latest (reasonGiven unit) events with
        | none => exact iff_of_false (fun h => h rfl) (by simp)
        | some reason => simp
    show ((s.foldManualReviewInbox events).specDefectReason.isSome) = true ↔ _
    rw [RunState.specDefectReason_isSome]
    simp only [Option.isSome_some, true_and]
    exact exists_congr hstopped

end Ledger

end Rigger
