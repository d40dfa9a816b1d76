import Rigger.Domain.Ledger

/-!
# The mint decision (`rigger-domain/src/run.rs`)

A command adopts the latest run or begins a new one.  Its callers hand the decision the whole run
stream or the three types it names; both answer the same but where the stop decides and an event of
another type lifts it, stops the fold or makes it again (`adoptedRun_mint_iff`).
-/

namespace Rigger

open Lib

namespace Run

/-- The types the mint decision is to read. -/
def mintDecisionTypes : List String :=
  [typeRunStarted, Ledger.typeUnitEscalated, Ledger.typeUnitResumed]

/-- The events of those types alone. -/
def mintDecision (events : List Event) : List Event :=
  events.filter fun e => mintDecisionTypes.contains e.type_

/-- The run a command adopts, none where it begins a new one. -/
def adoptedRun (events : List Event) (criteria : List String) (fresh bySpec : Bool) :
    Option RunStarted :=
  if fresh then none
  else
    let stopped := (Ledger.project (currentRun events)).any fun run => run.specDefectReason.isSome
    (latest events).filter fun run => run.criteria == criteria && !(bySpec && stopped)

/-- The command names a spec and would otherwise adopt the latest run. -/
def TurnsOnStop (events : List Event) (criteria : List String) (fresh bySpec : Bool) : Prop :=
  fresh = false ∧ bySpec = true ∧ ∃ run, latest events = some run ∧ run.criteria = criteria

/-- What an escalation or a resume says of a unit: the escalation's reason, none for a resume. -/
def ruling (unit : String) (e : Event) : Option (Option String) :=
  if e.type_ = Ledger.typeUnitEscalated then
    Ledger.ofUnit unit ((Ledger.UnitEscalated.decode e.data).map fun p => (p.id, some p.reason))
  else if e.type_ = Ledger.typeUnitResumed then
    Ledger.ofUnit unit ((Ledger.UnitResumed.decode e.data).map fun p => (p.unit, none))
  else none

/-- The bodies of the three types decode, and some unit's last escalation or resume is an
escalation for a reason. -/
def StoppedNarrowly (events : List Event) : Prop :=
  (∀ e ∈ events, mintDecisionTypes.contains e.type_ = true → Ledger.folds e = true) ∧
    ∃ unit reason, Lib.latest (ruling unit) events = some (some reason) ∧ reason ≠ ""

theorem moved_of_ruling (unit : String) (e : Event) :
    (if mintDecisionTypes.contains e.type_ then Ledger.statusMoved unit e else none) =
        (ruling unit e).map (fun r => if r.isSome then .escalated else .failed) ∧
      (if mintDecisionTypes.contains e.type_ then Ledger.reasonGiven unit e else none) =
        (ruling unit e).bind id := by
  unfold Ledger.statusMoved Ledger.reasonGiven
  by_cases hescalated : e.type_ = Ledger.typeUnitEscalated
  · have hmint : mintDecisionTypes.contains e.type_ = true := by
      rw [hescalated]
      decide
    obtain ⟨hmoved, hreason⟩ := Ledger.movedTo_of_escalated hescalated
    rw [if_pos hmint, if_pos hmint, hmoved, hreason, ruling, if_pos hescalated]
    cases Ledger.UnitEscalated.decode e.data with
    | none => exact ⟨rfl, rfl⟩
    | some p => by_cases hid : p.id = unit <;> simp [Ledger.ofUnit, hid]
  · by_cases hresumed : e.type_ = Ledger.typeUnitResumed
    · have hmint : mintDecisionTypes.contains e.type_ = true := by
        rw [hresumed]
        decide
      obtain ⟨hmoved, hreason⟩ := Ledger.movedTo_of_resumed hresumed
      rw [if_pos hmint, if_pos hmint, hmoved, hreason, ruling, if_neg hescalated, if_pos hresumed]
      cases Ledger.UnitResumed.decode e.data with
      | none => exact ⟨rfl, rfl⟩
      | some p => by_cases hid : p.unit = unit <;> simp [Ledger.ofUnit, hid]
    · rw [ruling, if_neg hescalated, if_neg hresumed]
      by_cases hstarted : e.type_ = typeRunStarted
      · have hunit : e.type_ ∉ Ledger.RunState.unitTypes := by
          rw [hstarted]
          decide
        obtain ⟨hmoved, hreason⟩ := Ledger.movedTo_of_not_unit hunit
        rw [hmoved, hreason]
        exact ⟨ite_self _, ite_self _⟩
      · have hmint : ¬mintDecisionTypes.contains e.type_ = true := by
          simp [mintDecisionTypes, hescalated, hresumed, hstarted]
        rw [if_neg hmint, if_neg hmint]
        exact ⟨rfl, rfl⟩

theorem stopped_mintDecision_iff (events : List Event) :
    Ledger.Stopped (mintDecision events) ↔ StoppedNarrowly events := by
  unfold Ledger.Stopped StoppedNarrowly mintDecision
  refine and_congr (by simp) (exists_congr fun unit => ?_)
  rw [latest_filter, latest_filter, latest_congr fun e _ => (moved_of_ruling unit e).1,
    latest_congr fun e _ => (moved_of_ruling unit e).2, latest_map_answer]
  constructor
  · rintro ⟨hmoved, reason, hreason, hne⟩
    obtain ⟨r, hr, hescalated⟩ := Option.map_eq_some_iff.1 hmoved
    cases r with
    | none => cases hescalated
    | some given =>
      -- the last ruling is the escalation that gave the reason
      have hgiven : Lib.latest (fun e => (ruling unit e).bind id) events = some given :=
        latest_bind_answer hr rfl
      rw [hgiven, Option.some.injEq] at hreason
      exact ⟨given, hr, hreason ▸ hne⟩
  · rintro ⟨reason, hr, hne⟩
    have hgiven : Lib.latest (fun e => (ruling unit e).bind id) events = some reason :=
      latest_bind_answer hr rfl
    exact ⟨by rw [hr]; rfl, reason, hgiven, hne⟩

/-! ### What another type does to the stop -/

/-- The three types stop, and the whole fold does not: an event it reads does not decode, or the
last move of every unit escalated for a reason is to another state. -/
def Lifted (events : List Event) : Prop :=
  StoppedNarrowly events ∧ ((∃ e ∈ events, Ledger.folds e = false) ∨
    ∀ unit reason, Lib.latest (Ledger.reasonGiven unit) events = some reason → reason ≠ "" →
      ∃ status, Lib.latest (Ledger.statusMoved unit) events = some status ∧ status ≠ .escalated)

/-- The three types do not stop, and the whole fold does: every escalation for a reason is resumed,
and the last move of a unit so escalated is a status that says it is escalated. -/
def Reescalated (events : List Event) : Prop :=
  (∀ e ∈ events, Ledger.folds e = true) ∧
    (∀ unit reason, Lib.latest (ruling unit) events = some (some reason) → reason = "") ∧
    ∃ unit reason, Lib.latest (Ledger.reasonGiven unit) events = some reason ∧ reason ≠ "" ∧
      Since (fun e => e.type_ = Ledger.typeUnitStatus ∧
          Ledger.statusMoved unit e = some .escalated)
        (fun e => Ledger.statusMoved unit e ≠ none) events

variable {unit : String} {e : Event}

theorem statusMoved_of_reasonGiven {reason : String} (h : Ledger.reasonGiven unit e = some reason) :
    e.type_ = Ledger.typeUnitEscalated ∧ Ledger.statusMoved unit e = some .escalated ∧
      ruling unit e = some (some reason) := by
  have htype : e.type_ = Ledger.typeUnitEscalated := by
    by_contra hne
    simp [Ledger.reasonGiven, Ledger.escalatedWith, hne, Ledger.ofUnit] at h
  obtain ⟨hmoved, hreason⟩ := Ledger.movedTo_of_escalated htype
  rw [Ledger.reasonGiven, hreason] at h
  refine ⟨htype, ?_⟩
  rw [Ledger.statusMoved, hmoved, ruling, if_pos htype]
  cases hp : Ledger.UnitEscalated.decode e.data with
  | none =>
    rw [hp] at h
    cases h
  | some p =>
    rw [hp] at h
    by_cases hid : p.id = unit <;> simp_all [Ledger.ofUnit]

theorem lifted_iff (events : List Event) :
    Lifted events ↔ StoppedNarrowly events ∧ ¬Ledger.Stopped events := by
  refine and_congr_right fun _ => ?_
  constructor
  · rintro (⟨e, he, hfolds⟩ | hmoved) ⟨hread, unit, hescalated, reason, hreason, hne⟩
    · rw [hread e he] at hfolds
      cases hfolds
    · obtain ⟨status, hstatus, hnot⟩ := hmoved unit reason hreason hne
      rw [hescalated] at hstatus
      exact hnot (Option.some.inj hstatus).symm
  · intro hnot
    by_cases hread : ∀ e ∈ events, Ledger.folds e = true
    · refine .inr fun unit reason hreason hne => ?_
      -- the escalation that gave the reason moved the unit, so some event did last
      obtain ⟨before, e, after, rfl, he, -⟩ := (latest_eq_some_iff _ _ _).1 hreason
      have hsome := (latest_isSome_iff (Ledger.statusMoved unit) (before ++ e :: after)).2
        ⟨e, by simp, by rw [(statusMoved_of_reasonGiven he).2.1]; rfl⟩
      obtain ⟨status, hstatus⟩ := Option.isSome_iff_exists.1 hsome
      refine ⟨status, hstatus, ?_⟩
      rintro rfl
      exact hnot ⟨hread, unit, hstatus, reason, hreason, hne⟩
    · simp only [not_forall, Bool.not_eq_true] at hread
      obtain ⟨e, he, hfolds⟩ := hread
      exact .inl ⟨e, he, hfolds⟩

theorem type_of_escalated (h : Ledger.statusMoved unit e = some .escalated) :
    e.type_ = Ledger.typeUnitEscalated ∨ e.type_ = Ledger.typeUnitStatus := by
  by_contra hnot
  rw [not_or] at hnot
  simp only [Ledger.statusMoved, Ledger.movedTo, hnot.1, hnot.2, if_false] at h
  obtain ⟨m, hm, hunit⟩ := Option.bind_eq_some_iff.1 h
  repeat' split at hm
  all_goals first | cases hm | (obtain ⟨p, -, rfl⟩ := Option.map_eq_some_iff.1 hm)
  all_goals
    split at hunit <;> cases hunit

theorem ruling_of_moved (h : Ledger.statusMoved unit e = none) : ruling unit e = none := by
  have hmoved := (moved_of_ruling unit e).1
  rw [h, ite_self] at hmoved
  exact Option.map_eq_none_iff.1 hmoved.symm

theorem reescalated_iff (events : List Event) :
    Reescalated events ↔ Ledger.Stopped events ∧ ¬StoppedNarrowly events := by
  constructor
  · rintro ⟨hread, hnone, unit, reason, hreason, hne, before, e, after, rfl, he, hafter⟩
    refine ⟨⟨hread, unit, ?_, reason, hreason, hne⟩, ?_⟩
    · exact (latest_eq_some_iff _ _ _).2 ⟨before, e, after, rfl, he.2, fun y hy =>
        not_not.1 (hafter y hy)⟩
    · rintro ⟨-, other, given, hruling, hgiven⟩
      exact hgiven (hnone other given hruling)
  · rintro ⟨⟨hread, unit, hescalated, reason, hreason, hne⟩, hnot⟩
    have hnone : ∀ unit reason, Lib.latest (ruling unit) events = some (some reason) →
        reason = "" := fun unit reason hruling => by
      by_contra hgiven
      exact hnot ⟨fun e he _ => hread e he, unit, reason, hruling, hgiven⟩
    refine ⟨hread, hnone, unit, reason, hreason, hne, ?_⟩
    obtain ⟨before, e, after, rfl, he, hafter⟩ := (latest_eq_some_iff _ _ _).1 hescalated
    refine ⟨before, e, after, rfl, ⟨?_, he⟩, fun y hy => not_not.2 (hafter y hy)⟩
    refine (type_of_escalated he).resolve_left fun htype => ?_
    -- the last move an escalation, it gives the last reason and is the last ruling
    obtain ⟨given, hgiven⟩ : ∃ given, Ledger.reasonGiven unit e = some given := by
      obtain ⟨hmoved, hwith⟩ := Ledger.movedTo_of_escalated htype
      rw [Ledger.statusMoved, hmoved] at he
      rw [Ledger.reasonGiven, hwith]
      cases hp : Ledger.UnitEscalated.decode e.data <;> simp_all [Ledger.ofUnit]
    have hlast : Lib.latest (Ledger.reasonGiven unit) (before ++ e :: after) = some given := by
      refine (latest_eq_some_iff _ _ _).2 ⟨before, e, after, rfl, hgiven, fun y hy => ?_⟩
      by_contra hsaid
      obtain ⟨other, hother⟩ := Option.ne_none_iff_exists'.1 hsaid
      have hmoved := (statusMoved_of_reasonGiven hother).2.1
      rw [hafter y hy] at hmoved
      cases hmoved
    rw [hreason, Option.some.injEq] at hlast
    refine hne (hnone unit reason ((latest_eq_some_iff _ _ _).2 ⟨before, e, after, rfl, ?_,
      fun y hy => ruling_of_moved (hafter y hy)⟩))
    rw [(statusMoved_of_reasonGiven hgiven).2.2, hlast]

/-- The decision is the same over the whole stream as over its three types, but where it turns on
the stop and another type lifts it, or makes it again, in the current run. -/
theorem adoptedRun_mint_iff (events : List Event) (criteria : List String) (fresh bySpec : Bool) :
    adoptedRun events criteria fresh bySpec =
        adoptedRun (mintDecision events) criteria fresh bySpec ↔
      ¬(TurnsOnStop events criteria fresh bySpec ∧
        (Lifted (currentRun events) ∨ Reescalated (currentRun events))) := by
  have hkeep : ∀ e, isRunStarted e = true → mintDecisionTypes.contains e.type_ = true := by
    intro e he
    rw [beq_iff_eq.1 he]
    decide
  obtain ⟨hlatest, hslice⟩ := currentRun_filter hkeep events
  have hnarrow : StoppedNarrowly (currentRun events) ↔ _ :=
    (stopped_mintDecision_iff _).symm.trans (Ledger.stopped_iff _).symm
  unfold adoptedRun TurnsOnStop
  rw [lifted_iff, reescalated_iff, ← Ledger.stopped_iff (currentRun events), hnarrow, mintDecision,
    hlatest, hslice, mintDecision]
  generalize (Ledger.project (currentRun events)).any _ = whole
  generalize (Ledger.project ((currentRun events).filter _)).any _ = narrow
  cases fresh with
  | true => simp
  | false =>
    cases bySpec with
    | false => simp
    | true =>
      cases latest events with
      | none => simp
      | some run =>
        by_cases hcriteria : run.criteria = criteria
        · cases whole <;> cases narrow <;> simp [hcriteria, Option.filter]
        · simp [hcriteria, Option.filter]

/-- A status that says `escalated` stops a resumed unit for the whole fold alone. -/
example :
    let log := [Event.new ("e1", 5) typeRunStarted (.json (.obj [("run", .str "r1")])),
      Event.new ("e2", 6) Ledger.typeUnitEscalated
        (.json (.obj [("id", .str "u"), ("reason", .str "amend the spec")])),
      Event.new ("e3", 7) Ledger.typeUnitResumed
        (.json (.obj [("unit", .str "u"), ("attempts_granted", .num 1), ("by", .str "op")])),
      Event.new ("e4", 8) Ledger.typeUnitStatus
        (.json (.obj [("id", .str "u"), ("status", .str "escalated")]))]
    adoptedRun log [] false true = none ∧ (adoptedRun (mintDecision log) [] false true).isSome := by
  decide

/-- A unit stopped on a spec defect, then integrated. -/
def integratedAfterStop : List Event :=
  [Event.new ("e1", 5) typeRunStarted (.json (.obj [("run", .str "r1")])),
    Event.new ("e2", 6) Ledger.typeUnitEscalated
      (.json (.obj [("id", .str "u"), ("reason", .str "amend the spec")])),
    Event.new ("e3", 7) Ledger.typeUnitIntegrated (.json (.obj [("id", .str "u")]))]

/-- Every body decodes, and the whole stream adopts the run the three types alone do not. -/
theorem integratedAfterStop_differs :
    (∀ e ∈ integratedAfterStop, Ledger.folds e = true ∧
      (e.type_ = typeRunStarted → (RunStarted.decode e.data).isSome = true)) ∧
    adoptedRun integratedAfterStop [] false true ≠
      adoptedRun (mintDecision integratedAfterStop) [] false true := by
  refine ⟨by decide, by decide⟩

end Run

end Rigger
