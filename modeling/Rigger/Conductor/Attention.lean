import Rigger.Conductor.Attempts
import Rigger.Driver.Liveness
import Rigger.Lib.Crossing

/-!
# What a call asks a person to look at (`rigger-conductor/src/conductor.rs`, `compute_attention`)

A conductor call answers the entries of what changed between the fold of the log at its start and
the fold at its end.  Cut anywhere into calls, a log's spawn count crosses into its final tenth
once, and a failing unit is told of once in a call that its attempts rose in.  Of a stay in
escalation that begins in a call and stands at its end the call tells, but where the unit was
escalated at the call's start too: two folds do not show what lies between them (`once_iff`).
-/

namespace Rigger.Conductor

open Lib Ledger

/-! ## Entries (`ledger.rs`, `blocker.rs`) -/

def attentionEscalated : String := "escalated"
def attentionHeld : String := "held"
def attentionReleased : String := "released"
def attentionSpecDefect : String := "spec-defect"
def attentionHalted : String := "halted"
def attentionRejectRecurrence : String := "reject-recurrence"
def attentionBudgetFinalTenth : String := "budget-final-tenth"
def attentionStalledFrontier : String := "stalled-frontier"

/-- The canonical order of kinds; an unknown kind is last. -/
def attentionKindRank (kind : String) : ℕ :=
  ([attentionHeld, attentionEscalated, attentionSpecDefect, attentionHalted,
    attentionRejectRecurrence, attentionBudgetFinalTenth, attentionStalledFrontier,
    attentionReleased].findIdx? fun k => k == kind).getD (2 ^ 64 - 1)

structure AttentionEntry where
  kind : String
  unit : String
  detail : String
deriving DecidableEq

namespace AttentionEntry

def runScoped (kind detail : String) : AttentionEntry := ⟨kind, "", detail⟩

def escalation (u : Ledger.Unit) : AttentionEntry :=
  match u.specDefectReason with
  | some reason => ⟨attentionSpecDefect, u.id, reason⟩
  | none => ⟨attentionEscalated, u.id, "escalated after exhausting remediation"⟩

def rejectRecurrence (unit : String) (attempts : ℕ) : AttentionEntry :=
  ⟨attentionRejectRecurrence, unit, toString attempts ++
    " failed attempts, the loop is still remediating - audit the findings (rigger-diagnose-churn)"⟩

end AttentionEntry

def rejectRecurrenceDiagnoseThreshold : ℕ := 3

/-- Whether the unit awaits an operator's finding audit. -/
def awaitsFindingAudit (u : Ledger.Unit) : Bool :=
  u.status == .failed && decide (rejectRecurrenceDiagnoseThreshold ≤ u.attempts) && u.resumed.isNone

def escalatedUnits (s : RunState) : List String :=
  ((s.units.toList.map Prod.snd).filter fun u => u.status == .escalated).map Unit.id

/-! ## Signals -/

section
variable (prior after : RunState)

def escalations : List AttentionEntry :=
  ((escalatedUnits after).filter fun id => !(escalatedUnits prior).contains id).filterMap fun id =>
    (after.units[id]?).map AttentionEntry.escalation

def halts (budgetHalt : Option String) (budgetCrossed : Bool) : List AttentionEntry :=
  if budgetCrossed then (budgetHalt.map (AttentionEntry.runScoped attentionHalted)).toList else []

def attemptsOf (s : RunState) (id : String) : ℕ := ((s.units[id]?).map Unit.attempts).getD 0

def rejects : List AttentionEntry :=
  after.units.toList.filterMap fun x =>
    if attemptsOf prior x.1 < x.2.attempts ∧ awaitsFindingAudit x.2 = true then
      some (.rejectRecurrence x.1 x.2.attempts)
    else none

/-- The count of spawns at which the budget's final tenth starts. -/
def finalTenth (budget : ℕ) : ℕ := budget - budget / 10

def tenths (budget beforeSpawns afterSpawns : ℕ) : List AttentionEntry :=
  if 0 < budget ∧ crossed (finalTenth budget) beforeSpawns afterSpawns = true then
    [.runScoped attentionBudgetFinalTenth
      (toString afterSpawns ++ "/" ++ toString budget ++ " spawns")]
  else []

def stalls (parkedUnits : Std.ExtTreeSet String) : List AttentionEntry :=
  parkedUnits.toList.filterMap fun id =>
    (after.units[id]?).bind fun u =>
      if attemptsOf prior id < u.attempts ∧ 2 < u.attempts then
        some ⟨attentionStalledFrontier, id, toString u.attempts ++
          " recorded results, still parked"⟩
      else none

def computeAttention (budgetHalt : Option String) (budget beforeSpawns afterSpawns : ℕ)
    (budgetCrossed : Bool) (parkedUnits : Std.ExtTreeSet String) : List AttentionEntry :=
  (escalations prior after ++ halts budgetHalt budgetCrossed ++ rejects prior after ++
    tenths budget beforeSpawns afterSpawns ++ stalls prior after parkedUnits).mergeSort
      fun a b => decide (attentionKindRank a.kind ≤ attentionKindRank b.kind)

end

/-! ## Calls -/

def typeBudgetExhausted : String := "BudgetExhausted"

/-- One conductor call, with what others append before it: the units it leaves parked, the new
spawns it admits and whether its breaker trips. -/
structure Call where
  between : List Event
  within : List Event
  parked : Std.ExtTreeSet String
  admitted : ℕ
  halted : Bool

/-- The distinct spawns recorded. -/
def spawnCount (events : List Event) : Option ℕ := (Liveness.recorded events).map fun m => m.size

def haltReason (halted : Bool) (spawns budget : ℕ) (run : RunState) : Option String :=
  if halted then
    some ("budget exhausted: " ++ toString spawns ++ "/" ++ toString budget ++ " spawns")
  else run.specDefectReason

/-- The entries of a call that started at the log `start`. -/
def settleRunState (budget : ℕ) (start : List Event) (c : Call) : Option (List AttentionEntry) := do
  let prior ← project start
  let after ← project (start ++ c.within)
  let baseSpawns ← spawnCount start
  let spawns := baseSpawns + c.admitted
  pure (computeAttention prior after (haltReason c.halted spawns budget after) budget baseSpawns
    spawns (c.halted && !start.any fun e => e.type_ == typeBudgetExhausted) c.parked)

/-- The calls, each with the log at its start. -/
def windows : List Event → List Call → List (List Event × Call)
  | _, [] => []
  | log, c :: rest => (log ++ c.between, c) :: windows (log ++ c.between ++ c.within) rest

/-- The entries of all calls of a run. -/
def answers (budget : ℕ) (calls : List Call) : Option (List (List AttentionEntry)) :=
  (windows [] calls).mapM fun w => settleRunState budget w.1 w.2

/-- The log that the calls cut. -/
def joined (calls : List Call) : List Event := calls.flatMap fun c => c.between ++ c.within

/-- A log the folds read, cut into calls: each spawn a call admits is recorded in it and none
between calls, and a breaker that trips has its event in the log. -/
structure Cut (calls : List Call) : Prop where
  folds : ∀ e ∈ joined calls, folds e = true
  requests : Spawn.unreadable Spawn.typeSpawnRequested Spawn.requestOf (joined calls) = false
  parks : ∀ c ∈ calls, ∀ e ∈ c.between, e.type_ ≠ Spawn.typeSpawnRequested
  counts : ∀ w ∈ windows [] calls, ∀ base, spawnCount w.1 = some base →
    spawnCount (w.1 ++ w.2.within) = some (base + w.2.admitted)
  trips : ∀ w ∈ windows [] calls, w.2.halted = true →
    ∃ e ∈ w.1 ++ w.2.within, e.type_ = typeBudgetExhausted

/-! ## Once per crossing -/

def escalatedAt (unit : String) (log : List Event) : Bool :=
  (project log).any fun run => run.statusOf unit == .escalated

/-- The stays of a unit in escalation that begin in a window of the log and stand at its end, by the
place at which they begin. -/
def staysBegun (unit : String) (start within : List Event) : List ℕ :=
  rises (fun i => escalatedAt unit (start ++ within.take i)) within.length

def attemptsAt (unit : String) (log : List Event) : ℕ :=
  ((project log).map fun run => attemptsOf run unit).getD 0

def isEscalationOf (unit : String) (e : AttentionEntry) : Bool :=
  (e.kind == attentionEscalated || e.kind == attentionSpecDefect) && e.unit == unit

def isOf (kind unit : String) (e : AttentionEntry) : Bool := e.kind == kind && e.unit == unit

/-- What a call that started at the log `start` tells of the units whose attempts rose, and over an
unchanged log. -/
structure Told (start : List Event) (c : Call) (told : List AttentionEntry) : Prop where
  rejected : ∀ unit, told.countP (isOf attentionRejectRecurrence unit) ≤ 1 ∧
    (0 < told.countP (isOf attentionRejectRecurrence unit) →
      attemptsAt unit start < attemptsAt unit (start ++ c.within))
  stalled : ∀ unit, told.countP (isOf attentionStalledFrontier unit) ≤ 1 ∧
    (0 < told.countP (isOf attentionStalledFrontier unit) →
      attemptsAt unit start < attemptsAt unit (start ++ c.within))
  unchanged : c.within = [] → told = []

/-- A property of every call's start, events and entries. -/
def EachCall (budget : ℕ) (calls : List Call)
    (P : List Event → Call → List AttentionEntry → Prop) : Prop :=
  ∀ w ∈ windows [] calls, ∀ told, settleRunState budget w.1 w.2 = some told → P w.1 w.2 told

/-- One escalation entry for each stay that begins in a call and stands at its end. -/
def EscalatedOnce (budget : ℕ) (calls : List Call) : Prop :=
  EachCall budget calls fun start c told => ∀ unit,
    told.countP (isEscalationOf unit) = (staysBegun unit start c.within).length

/-- All calls together tell one entry of the final tenth, where the spawns reach it. -/
def TenthOnce (budget : ℕ) (calls : List Call) : Prop :=
  ∃ entries count, answers budget calls = some entries ∧ spawnCount (joined calls) = some count ∧
    entries.flatten.countP (fun e => e.kind == attentionBudgetFinalTenth) =
      (decide (finalTenth budget ≤ count)).toNat

/-- A unit escalated at both ends of a call is so throughout it. -/
def NoReturn (calls : List Call) : Prop :=
  ∀ w ∈ windows [] calls, ∀ unit, escalatedAt unit w.1 = true →
    escalatedAt unit (w.1 ++ w.2.within) = true →
      ∀ i ≤ w.2.within.length, escalatedAt unit (w.1 ++ w.2.within.take i) = true

/-! ## What the fold holds -/

section
variable {s : RunState} {id : String}

theorem mem_escalatedUnits (hkeyed : s.Keyed) :
    id ∈ escalatedUnits s ↔ s.statusOf id = .escalated := by
  unfold escalatedUnits RunState.statusOf
  simp only [List.mem_map, List.mem_filter, beq_iff_eq]
  constructor
  · rintro ⟨u, ⟨⟨x, hx, rfl⟩, hstatus⟩, rfl⟩
    have hget := Std.ExtTreeMap.mem_toList_iff_getElem?_eq_some.1 hx
    rw [hkeyed x.1 x.2 hget, hget]
    exact hstatus
  · intro hstatus
    cases hget : s.units[id]? with
    | none =>
      rw [hget] at hstatus
      cases hstatus
    | some u =>
      rw [hget] at hstatus
      exact ⟨u, ⟨⟨(id, u), Std.ExtTreeMap.mem_toList_iff_getElem?_eq_some.2 hget, rfl⟩, hstatus⟩,
        hkeyed id u hget⟩

theorem attemptsOf_eq {u : Ledger.Unit} (h : s.units[id]? = some u) :
    attemptsOf s id = u.attempts := by
  unfold attemptsOf
  rw [h]
  rfl

theorem nodup_units (s : RunState) : (s.units.toList.map Prod.fst).Nodup := by
  rw [Std.ExtTreeMap.map_fst_toList_eq_keys]
  exact Std.ExtTreeMap.nodup_keys

theorem nodup_escalatedUnits (hkeyed : s.Keyed) : (escalatedUnits s).Nodup := by
  have hids : (s.units.toList.map Prod.snd).map Unit.id = s.units.toList.map Prod.fst := by
    rw [List.map_map]
    refine List.map_congr_left fun x hx => ?_
    exact hkeyed x.1 x.2 (Std.ExtTreeMap.mem_toList_iff_getElem?_eq_some.1 hx)
  have hnodup := nodup_units s
  rw [← hids] at hnodup
  exact hnodup.sublist (List.filter_sublist.map _)

end

/-! ## What each signal tells -/

section
variable {prior after : RunState}

theorem kind_escalation (u : Ledger.Unit) :
    (AttentionEntry.escalation u).kind = attentionEscalated ∨
      (AttentionEntry.escalation u).kind = attentionSpecDefect := by
  unfold AttentionEntry.escalation
  split
  · exact .inr rfl
  · exact .inl rfl

theorem unit_escalation (u : Ledger.Unit) : (AttentionEntry.escalation u).unit = u.id := by
  unfold AttentionEntry.escalation
  split <;> rfl

variable {e : AttentionEntry} {P : AttentionEntry → Bool} {l : List AttentionEntry}

theorem kind_escalations (h : e ∈ escalations prior after) :
    e.kind = attentionEscalated ∨ e.kind = attentionSpecDefect := by
  obtain ⟨id, -, he⟩ := List.mem_filterMap.1 h
  obtain ⟨u, -, rfl⟩ := Option.map_eq_some_iff.1 he
  exact kind_escalation u

theorem kind_halts {budgetHalt : Option String} {budgetCrossed : Bool}
    (h : e ∈ halts budgetHalt budgetCrossed) : e.kind = attentionHalted := by
  unfold halts at h
  split at h
  · obtain ⟨reason, -, rfl⟩ := Option.map_eq_some_iff.1 (Option.mem_toList.1 h)
    rfl
  · cases h

theorem kind_rejects (h : e ∈ rejects prior after) : e.kind = attentionRejectRecurrence := by
  obtain ⟨x, -, he⟩ := List.mem_filterMap.1 h
  split at he
  · cases he
    rfl
  · cases he

theorem kind_tenths {budget beforeSpawns afterSpawns : ℕ}
    (h : e ∈ tenths budget beforeSpawns afterSpawns) : e.kind = attentionBudgetFinalTenth := by
  unfold tenths at h
  split at h
  · rw [List.mem_singleton.1 h]
    rfl
  · cases h

theorem kind_stalls {parkedUnits : Std.ExtTreeSet String} (h : e ∈ stalls prior after parkedUnits) :
    e.kind = attentionStalledFrontier := by
  obtain ⟨id, -, he⟩ := List.mem_filterMap.1 h
  obtain ⟨u, -, he⟩ := Option.bind_eq_some_iff.1 he
  split at he
  · cases he
    rfl
  · cases he

variable {budgetHalt : Option String} {budget beforeSpawns afterSpawns : ℕ} {budgetCrossed : Bool}
  {parkedUnits : Std.ExtTreeSet String}

theorem countP_computeAttention (P : AttentionEntry → Bool) :
    (computeAttention prior after budgetHalt budget beforeSpawns afterSpawns budgetCrossed
        parkedUnits).countP P =
      (escalations prior after).countP P + (halts budgetHalt budgetCrossed).countP P +
        (rejects prior after).countP P + (tenths budget beforeSpawns afterSpawns).countP P +
        (stalls prior after parkedUnits).countP P := by
  unfold computeAttention
  rw [(List.mergeSort_perm _ _).countP_eq, List.countP_append, List.countP_append,
    List.countP_append,
    List.countP_append]

theorem countP_eq_zero_of_kind {kind : String} (hl : ∀ e ∈ l, e.kind = kind)
    (hP : ∀ e, P e = true → e.kind ≠ kind) : l.countP P = 0 :=
  List.countP_eq_zero.2 fun e he hPe => hP e hPe (hl e he)

theorem countP_escalations_eq_zero (hescalated : ∀ e, P e = true → e.kind ≠ attentionEscalated)
    (hdefect : ∀ e, P e = true → e.kind ≠ attentionSpecDefect) :
    (escalations prior after).countP P = 0 := by
  refine List.countP_eq_zero.2 fun e he hPe => ?_
  rcases kind_escalations he with hk | hk
  · exact hescalated e hPe hk
  · exact hdefect e hPe hk

/-! ## One entry of each unit -/

theorem countP_escalated (hprior : prior.Keyed) (hafter : after.Keyed) (unit : String) :
    let told := (computeAttention prior after budgetHalt budget beforeSpawns afterSpawns
      budgetCrossed parkedUnits).countP (isEscalationOf unit)
    told ≤ 1 ∧ (0 < told ↔
      after.statusOf unit = .escalated ∧ prior.statusOf unit ≠ .escalated) := by
  have hother : ∀ kind, kind ≠ attentionEscalated → kind ≠ attentionSpecDefect →
      ∀ e, isEscalationOf unit e = true → e.kind ≠ kind := by
    intro kind hescalated hdefect e he heq
    unfold isEscalationOf at he
    rw [Bool.and_eq_true, Bool.or_eq_true, beq_iff_eq, beq_iff_eq, heq] at he
    exact he.1.elim hescalated hdefect
  have hsame : (escalations prior after).countP (isEscalationOf unit) =
      (escalations prior after).countP fun e => decide (e.unit = unit) := by
    refine List.countP_congr fun e he => ?_
    unfold isEscalationOf
    rcases kind_escalations he with hk | hk <;> simp [hk]
  have hnodup : (((escalatedUnits after).filter fun id =>
      !(escalatedUnits prior).contains id).map fun id => id).Nodup := by
    rw [List.map_id']
    exact (nodup_escalatedUnits hafter).filter _
  have htag : ∀ id ∈ (escalatedUnits after).filter fun id => !(escalatedUnits prior).contains id,
      ∀ b ∈ (after.units[id]?).map AttentionEntry.escalation, b.unit = id := by
    intro id _ b hb
    obtain ⟨u, hu, rfl⟩ := Option.map_eq_some_iff.1 hb
    rw [unit_escalation, hafter id u hu]
  have hcount := countP_filterMap_of_key hnodup htag unit
  dsimp only
  rw [countP_computeAttention,
    countP_eq_zero_of_kind (fun _ => kind_halts) (hother _ (by decide) (by decide)),
    countP_eq_zero_of_kind (fun _ => kind_rejects) (hother _ (by decide) (by decide)),
    countP_eq_zero_of_kind (fun _ => kind_tenths) (hother _ (by decide) (by decide)),
    countP_eq_zero_of_kind (fun _ => kind_stalls) (hother _ (by decide) (by decide)), hsame]
  refine ⟨hcount.1, hcount.2.trans ⟨?_, ?_⟩⟩
  · rintro ⟨id, hid, rfl, -⟩
    rw [List.mem_filter, mem_escalatedUnits hafter, Bool.not_eq_true', List.contains_eq_mem,
      decide_eq_false_iff_not, mem_escalatedUnits hprior] at hid
    exact hid
  · rintro ⟨hstands, hnew⟩
    refine ⟨unit, ?_, rfl, ?_⟩
    · rw [List.mem_filter, mem_escalatedUnits hafter, Bool.not_eq_true', List.contains_eq_mem,
        decide_eq_false_iff_not, mem_escalatedUnits hprior]
      exact ⟨hstands, hnew⟩
    · rw [Option.isSome_map]
      unfold RunState.statusOf at hstands
      cases hget : after.units[unit]? with
      | none =>
        rw [hget] at hstands
        cases hstands
      | some u => rfl

theorem isOf_kind {kind unit : String} (h : isOf kind unit e = true) :
    e.kind = kind ∧ e.unit = unit := by
  unfold isOf at h
  rwa [Bool.and_eq_true, beq_iff_eq, beq_iff_eq] at h

theorem kind_ne {kind kind' unit : String} (hne : kind ≠ kind') (e : AttentionEntry)
    (he : isOf kind unit e = true) : e.kind ≠ kind' :=
  fun heq => hne ((isOf_kind he).1.symm.trans heq)

theorem countP_isOf {kind : String} (hl : ∀ e ∈ l, e.kind = kind) (unit : String) :
    l.countP (isOf kind unit) = l.countP fun e => decide (e.unit = unit) := by
  refine List.countP_congr fun e he => ?_
  unfold isOf
  simp [hl e he]

theorem countP_rejected (unit : String) :
    let told := (computeAttention prior after budgetHalt budget beforeSpawns afterSpawns
      budgetCrossed parkedUnits).countP (isOf attentionRejectRecurrence unit)
    told ≤ 1 ∧ (0 < told → attemptsOf prior unit < attemptsOf after unit) := by
  have htag : ∀ x ∈ after.units.toList, ∀ b ∈ (if attemptsOf prior x.1 < x.2.attempts ∧
      awaitsFindingAudit x.2 = true then some (AttentionEntry.rejectRecurrence x.1 x.2.attempts)
      else none), b.unit = x.1 := by
    intro x _ b hb
    split at hb
    · cases hb
      rfl
    · cases hb
  have hcount := countP_filterMap_of_key (nodup_units after) htag unit
  dsimp only
  rw [countP_computeAttention, countP_escalations_eq_zero (kind_ne (by decide))
    (kind_ne (by decide)),
    countP_eq_zero_of_kind (fun _ => kind_halts) (kind_ne (by decide)),
    countP_eq_zero_of_kind (fun _ => kind_tenths) (kind_ne (by decide)),
    countP_eq_zero_of_kind (fun _ => kind_stalls) (kind_ne (by decide)),
    countP_isOf (fun _ => kind_rejects), Nat.zero_add, Nat.add_zero]
  refine ⟨hcount.1, fun hpos => ?_⟩
  obtain ⟨x, hx, rfl, hsome⟩ := hcount.2.1 hpos
  have hget := Std.ExtTreeMap.mem_toList_iff_getElem?_eq_some.1 hx
  have hrose : attemptsOf prior x.1 < x.2.attempts := by
    by_contra hnot
    rw [if_neg fun h => hnot h.1] at hsome
    cases hsome
  rw [attemptsOf_eq hget]
  exact hrose

theorem countP_stalled (unit : String) :
    let told := (computeAttention prior after budgetHalt budget beforeSpawns afterSpawns
      budgetCrossed parkedUnits).countP (isOf attentionStalledFrontier unit)
    told ≤ 1 ∧ (0 < told → attemptsOf prior unit < attemptsOf after unit) := by
  have hnodup : (parkedUnits.toList.map fun id => id).Nodup := by
    rw [List.map_id']
    refine parkedUnits.distinct_toList.imp fun {a b} hab heq => hab ?_
    rw [heq]
    exact Std.ReflCmp.compare_self
  have htag : ∀ id ∈ parkedUnits.toList, ∀ b ∈ (after.units[id]?).bind fun u =>
      if attemptsOf prior id < u.attempts ∧ 2 < u.attempts then
        some (⟨attentionStalledFrontier, id,
          toString u.attempts ++ " recorded results, still parked"⟩ : AttentionEntry)
      else none, b.unit = id := by
    intro id _ b hb
    obtain ⟨u, -, hb⟩ := Option.bind_eq_some_iff.1 hb
    split at hb
    · cases hb
      rfl
    · cases hb
  have hcount := countP_filterMap_of_key hnodup htag unit
  dsimp only
  rw [countP_computeAttention, countP_escalations_eq_zero (kind_ne (by decide))
    (kind_ne (by decide)),
    countP_eq_zero_of_kind (fun _ => kind_halts) (kind_ne (by decide)),
    countP_eq_zero_of_kind (fun _ => kind_rejects) (kind_ne (by decide)),
    countP_eq_zero_of_kind (fun _ => kind_tenths) (kind_ne (by decide)),
    countP_isOf (fun _ => kind_stalls), Nat.zero_add]
  refine ⟨hcount.1, fun hpos => ?_⟩
  obtain ⟨id, -, rfl, hsome⟩ := hcount.2.1 hpos
  cases hget : after.units[id]? with
  | none =>
    rw [hget] at hsome
    cases hsome
  | some u =>
    rw [hget, Option.bind_some] at hsome
    have hrose : attemptsOf prior id < u.attempts := by
      by_contra hnot
      rw [if_neg fun h => hnot h.1] at hsome
      cases hsome
    rw [attemptsOf_eq hget]
    exact hrose

theorem countP_tenth (hbudget : 0 < budget) :
    (computeAttention prior after budgetHalt budget beforeSpawns afterSpawns budgetCrossed
        parkedUnits).countP (fun e => e.kind == attentionBudgetFinalTenth) =
      (crossed (finalTenth budget) beforeSpawns afterSpawns).toNat := by
  have hother : ∀ kind, attentionBudgetFinalTenth ≠ kind →
      ∀ e : AttentionEntry, (e.kind == attentionBudgetFinalTenth) = true → e.kind ≠ kind :=
    fun kind hne e he heq => hne ((beq_iff_eq.1 he).symm.trans heq)
  rw [countP_computeAttention, countP_escalations_eq_zero (hother _ (by decide))
    (hother _ (by decide)),
    countP_eq_zero_of_kind (fun _ => kind_halts) (hother _ (by decide)),
    countP_eq_zero_of_kind (fun _ => kind_rejects) (hother _ (by decide)),
    countP_eq_zero_of_kind (fun _ => kind_stalls) (hother _ (by decide))]
  unfold tenths
  cases hcrossed : crossed (finalTenth budget) beforeSpawns afterSpawns with
  | false => simp
  | true =>
    rw [if_pos ⟨hbudget, rfl⟩]
    rfl

theorem computeAttention_unchanged (s : RunState) (spawns : ℕ) :
    computeAttention s s budgetHalt budget spawns spawns false parkedUnits = [] := by
  have hescalations : escalations s s = [] := by
    unfold escalations
    rw [List.filter_eq_nil_iff.2 fun id hid => by simpa using hid, List.filterMap_nil]
  have hrejects : rejects s s = [] := by
    refine List.filterMap_eq_nil_iff.2 fun x hx => if_neg fun h => ?_
    rw [attemptsOf_eq (Std.ExtTreeMap.mem_toList_iff_getElem?_eq_some.1 hx)] at h
    exact Nat.lt_irrefl _ h.1
  have hstalls : stalls s s parkedUnits = [] := by
    refine List.filterMap_eq_nil_iff.2 fun id _ => ?_
    cases hget : s.units[id]? with
    | none => rfl
    | some u =>
      refine if_neg fun h => ?_
      rw [attemptsOf_eq hget] at h
      exact Nat.lt_irrefl _ h.1
  unfold computeAttention halts tenths
  rw [hescalations, hrejects, hstalls, crossed_eq_false_of_eq]
  simp

end

/-! ## The spawns recorded -/

theorem unreadable_append {α : Type} (type_ : String) (read : Event → Option α) (a b : List Event) :
    Spawn.unreadable type_ read (a ++ b) =
      (Spawn.unreadable type_ read a || Spawn.unreadable type_ read b) := by
  unfold Spawn.unreadable
  rw [List.any_append]

theorem spawnCount_eq {events : List Event}
    (h : Spawn.unreadable Spawn.typeSpawnRequested Spawn.requestOf events = false) :
    spawnCount events =
      some (collect ((events.filterMap Spawn.requestOf).map fun req => (req.id, req))).size := by
  unfold spawnCount Liveness.recorded Spawn.requests
  rw [h]
  rfl

theorem size_collect_append {β : Type} (a b : List (String × β)) :
    (collect a).size ≤ (collect (a ++ b)).size := by
  unfold collect
  rw [List.foldl_append]
  generalize a.foldl (fun m p => m.insert p.1 p.2) (∅ : Std.ExtTreeMap String β) = m
  induction b generalizing m with
  | nil => exact Nat.le_refl _
  | cons p b ih => exact Nat.le_trans Std.ExtTreeMap.size_le_size_insert (ih _)

variable {a b log : List Event}

theorem spawnCount_mono {n m : ℕ} (ha : spawnCount a = some n) (hb : spawnCount (a ++ b) = some m) :
    n ≤ m := by
  have hread : Spawn.unreadable Spawn.typeSpawnRequested Spawn.requestOf (a ++ b) = false := by
    unfold spawnCount Liveness.recorded Spawn.requests at hb
    by_contra hunread
    rw [if_pos (Bool.eq_true_of_not_eq_false hunread)] at hb
    cases hb
  have hboth := hread
  rw [unreadable_append, Bool.or_eq_false_iff] at hboth
  rw [spawnCount_eq hboth.1] at ha
  rw [spawnCount_eq hread, List.filterMap_append, List.map_append] at hb
  rw [← Option.some.inj ha, ← Option.some.inj hb]
  exact size_collect_append _ _

theorem spawnCount_of_none (h : ∀ e ∈ b, e.type_ ≠ Spawn.typeSpawnRequested) :
    spawnCount (a ++ b) = spawnCount a := by
  have hnone : b.filterMap Spawn.requestOf = [] :=
    List.filterMap_eq_nil_iff.2 fun e he => if_neg (h e he)
  have hread : Spawn.unreadable Spawn.typeSpawnRequested Spawn.requestOf b = false := by
    refine List.any_eq_false.2 fun e he => ?_
    simp [h e he]
  unfold spawnCount Liveness.recorded Spawn.requests
  rw [unreadable_append, hread, Bool.or_false, List.filterMap_append, hnone, List.append_nil]

/-! ## The windows of a cut -/

theorem windows_split {calls : List Call} {w : List Event × Call} (h : w ∈ windows log calls) :
    w.2 ∈ calls ∧ ∃ rest, log ++ joined calls = w.1 ++ (w.2.within ++ rest) := by
  induction calls generalizing log with
  | nil => cases h
  | cons c calls ih =>
    rcases List.mem_cons.1 h with rfl | h
    · exact ⟨List.mem_cons_self, joined calls, by simp [joined]⟩
    · obtain ⟨hmem, rest, hrest⟩ := ih h
      refine ⟨List.mem_cons_of_mem _ hmem, rest, ?_⟩
      rw [← hrest]
      simp [joined]

/-- What a call tells, given the folds at its ends. -/
theorem settleRunState_eq_some {budget : ℕ} {start : List Event} {c : Call} {prior after : RunState}
    {base : ℕ} (hprior : project start = some prior)
    (hafter : project (start ++ c.within) = some after)
    (hbase : spawnCount start = some base) :
    settleRunState budget start c = some (computeAttention prior after
      (haltReason c.halted (base + c.admitted) budget after) budget base (base + c.admitted)
      (c.halted && !start.any fun e => e.type_ == typeBudgetExhausted) c.parked) := by
  unfold settleRunState
  rw [hprior, hafter, hbase]
  rfl

theorem project_isSome (h : ∀ e ∈ log, folds e = true) : ∃ run, project log = some run := by
  obtain ⟨s, hs⟩ := Option.isSome_iff_exists.1 ((RunState.foldlM_apply RunState.new log).1.2 h)
  exact ⟨s.foldManualReviewInbox log, by rw [project, hs]; rfl⟩

section
variable {calls : List Call} (h : Cut calls)
include h

variable {w : List Event × Call} {budget : ℕ}

/-- The folds at the ends of a call. -/
theorem Cut.ends (hw : w ∈ windows [] calls) :
    ∃ prior after base, project w.1 = some prior ∧ project (w.1 ++ w.2.within) = some after ∧
      spawnCount w.1 = some base := by
  obtain ⟨-, rest, hsplit⟩ := windows_split hw
  rw [List.nil_append] at hsplit
  have hfolds := hsplit ▸ h.folds
  have hread := h.requests
  rw [hsplit, unreadable_append, Bool.or_eq_false_iff] at hread
  obtain ⟨prior, hprior⟩ := project_isSome fun e he => hfolds e (List.mem_append_left _ he)
  have hend : ∀ e ∈ w.1 ++ w.2.within, Ledger.folds e = true := by
    intro e he
    refine hfolds e ?_
    rw [← List.append_assoc]
    exact List.mem_append_left _ he
  obtain ⟨after, hafter⟩ := project_isSome hend
  exact ⟨prior, after, _, hprior, hafter, spawnCount_eq hread.1⟩

theorem Cut.unchanged (hw : w ∈ windows [] calls) {told : List AttentionEntry}
    (htold : settleRunState budget w.1 w.2 = some told) (hwithin : w.2.within = []) :
    told = [] := by
  obtain ⟨prior, after, base, hprior, hafter, hbase⟩ := h.ends hw
  have hadmitted := h.counts w hw base hbase
  rw [settleRunState_eq_some hprior hafter hbase] at htold
  rw [hwithin, List.append_nil, hprior] at hafter
  rw [hwithin, List.append_nil, hbase] at hadmitted
  have hcrossed : (w.2.halted && !w.1.any fun e => e.type_ == typeBudgetExhausted) = false := by
    cases hhalted : w.2.halted with
    | false => rfl
    | true =>
      obtain ⟨e, he, htype⟩ := h.trips w hw hhalted
      rw [hwithin, List.append_nil] at he
      have htripped : (w.1.any fun e => e.type_ == typeBudgetExhausted) = true :=
        List.any_eq_true.2 ⟨e, he, beq_iff_eq.2 htype⟩
      rw [htripped]
      rfl
  rw [← Option.some.inj htold, ← Option.some.inj hafter, hcrossed, ← Option.some.inj hadmitted]
  exact computeAttention_unchanged prior base

/-- A call tells of a failing unit once at most, where its attempts rose. -/
theorem Cut.told (hw : w ∈ windows [] calls) {told : List AttentionEntry}
    (htold : settleRunState budget w.1 w.2 = some told) : Told w.1 w.2 told := by
  obtain ⟨prior, after, base, hprior, hafter, hbase⟩ := h.ends hw
  have hunchanged := h.unchanged hw htold
  rw [settleRunState_eq_some hprior hafter hbase] at htold
  have htold := Option.some.inj htold
  have hattempts : ∀ unit, attemptsAt unit w.1 = attemptsOf prior unit ∧
      attemptsAt unit (w.1 ++ w.2.within) = attemptsOf after unit := by
    intro unit
    unfold attemptsAt
    rw [hprior, hafter]
    exact ⟨rfl, rfl⟩
  refine ⟨fun unit => ?_, fun unit => ?_, hunchanged⟩
  · rw [(hattempts unit).1, (hattempts unit).2, ← htold]
    exact countP_rejected unit
  · rw [(hattempts unit).1, (hattempts unit).2, ← htold]
    exact countP_stalled unit

/-- A call tells once of each stay of a unit that is not escalated at both its ends but for a part
of it. -/
theorem Cut.escalated_iff (hw : w ∈ windows [] calls) {told : List AttentionEntry}
    (htold : settleRunState budget w.1 w.2 = some told) (unit : String) :
    told.countP (isEscalationOf unit) = (staysBegun unit w.1 w.2.within).length ↔
      (escalatedAt unit w.1 = true → escalatedAt unit (w.1 ++ w.2.within) = true →
        ∀ i ≤ w.2.within.length, escalatedAt unit (w.1 ++ w.2.within.take i) = true) := by
  obtain ⟨prior, after, base, hprior, hafter, hbase⟩ := h.ends hw
  rw [settleRunState_eq_some hprior hafter hbase] at htold
  have htold := Option.some.inj htold
  have hstart : escalatedAt unit w.1 = true ↔ prior.statusOf unit = .escalated := by
    unfold escalatedAt
    rw [hprior]
    exact beq_iff_eq
  have hend : escalatedAt unit (w.1 ++ w.2.within) = true ↔ after.statusOf unit = .escalated := by
    unfold escalatedAt
    rw [hafter]
    exact beq_iff_eq
  have hcount : told.countP (isEscalationOf unit) ≤ 1 ∧ (0 < told.countP (isEscalationOf unit) ↔
      after.statusOf unit = .escalated ∧ prior.statusOf unit ≠ .escalated) := by
    rw [← htold]
    exact countP_escalated (keyed_project hprior) (keyed_project hafter) unit
  rw [ne_eq, ← hstart, ← hend] at hcount
  have hrises := eq_length_rises_iff
    (p := fun i => escalatedAt unit (w.1 ++ w.2.within.take i)) (n := w.2.within.length) hcount.1
  simp only [List.take_length, List.take_zero, List.append_nil] at hrises
  exact hrises hcount.2

theorem Cut.tenth (hw : w ∈ windows [] calls) (hbudget : 0 < budget) :
    ∃ told before after, settleRunState budget w.1 w.2 = some told ∧
      spawnCount w.1 = some before ∧ spawnCount (w.1 ++ w.2.within) = some after ∧
        told.countP (fun e => e.kind == attentionBudgetFinalTenth) =
          (crossed (finalTenth budget) before after).toNat := by
  obtain ⟨prior, after, base, hprior, hafter, hbase⟩ := h.ends hw
  exact ⟨_, base, base + w.2.admitted, settleRunState_eq_some hprior hafter hbase, hbase,
    h.counts w hw base hbase, countP_tenth hbudget⟩

end

/-- Over all calls the final tenth is told of where their spawns cross into it. -/
theorem tenth_windows {budget : ℕ} : ∀ {calls : List Call} {log : List Event},
    (∀ w ∈ windows log calls, ∃ told before after, settleRunState budget w.1 w.2 = some told ∧
      spawnCount w.1 = some before ∧ spawnCount (w.1 ++ w.2.within) = some after ∧
        told.countP (fun e => e.kind == attentionBudgetFinalTenth) =
          (crossed (finalTenth budget) before after).toNat) →
    (∀ c ∈ calls, ∀ e ∈ c.between, e.type_ ≠ Spawn.typeSpawnRequested) →
    ∀ {n m : ℕ}, spawnCount log = some n → spawnCount (log ++ joined calls) = some m →
      ∃ entries, (windows log calls).mapM (fun w => settleRunState budget w.1 w.2) = some entries ∧
        entries.flatten.countP (fun e => e.kind == attentionBudgetFinalTenth) =
          (crossed (finalTenth budget) n m).toNat
  | [], log, _, _, n, m, hn, hm => by
    rw [joined, List.flatMap_nil, List.append_nil, hn] at hm
    rw [← Option.some.inj hm, crossed_eq_false_of_eq]
    exact ⟨[], rfl, rfl⟩
  | c :: calls, log, hwindows, hbetween, n, m, hn, hm => by
    obtain ⟨told, before, after, htold, hbefore, hafter, hcount⟩ :=
      hwindows (log ++ c.between, c) List.mem_cons_self
    dsimp only at htold hbefore hafter
    rw [spawnCount_of_none (hbetween c List.mem_cons_self), hn] at hbefore
    obtain rfl := Option.some.inj hbefore
    have hjoined : log ++ joined (c :: calls) = (log ++ c.between ++ c.within) ++ joined calls := by
      simp [joined]
    rw [hjoined] at hm
    obtain ⟨entries, hentries, hrest⟩ := tenth_windows
      (fun w hw => hwindows w (List.mem_cons_of_mem _ hw))
      (fun c' hc' => hbetween c' (List.mem_cons_of_mem _ hc')) hafter hm
    refine ⟨told :: entries, ?_, ?_⟩
    · rw [windows, List.mapM_cons, htold, hentries]
      rfl
    · rw [List.flatten_cons, List.countP_append, hcount, hrest]
      have hle : n ≤ after := by
        have hstart : spawnCount (log ++ c.between) = some n := by
          rw [spawnCount_of_none (hbetween c List.mem_cons_self), hn]
        exact spawnCount_mono hstart hafter
      exact crossed_add hle (spawnCount_mono hafter hm)

/-! ## Once per crossing, or not -/

/-- The calls of a cut log tell once of the final tenth, and of a failing unit once at most where
its attempts rose; of each stay in escalation they tell once, unless a unit that is escalated at
both ends of a call left escalation within it. -/
theorem once_iff {calls : List Call} (h : Cut calls) {budget : ℕ} (hbudget : 0 < budget) :
    EachCall budget calls Told ∧ TenthOnce budget calls ∧
      (EscalatedOnce budget calls ↔ NoReturn calls) := by
  refine ⟨fun w hw told htold => h.told hw htold, ?_, fun hold w hw unit => ?_,
    fun hreturn w hw told htold unit => ?_⟩
  · have hjoined : spawnCount ([] ++ joined calls) = some (collect
        (((joined calls).filterMap Spawn.requestOf).map fun req => (req.id, req))).size :=
      spawnCount_eq h.requests
    obtain ⟨entries, hentries, htenth⟩ := tenth_windows (fun w hw => h.tenth hw hbudget) h.parks
      (show spawnCount [] = some 0 from rfl) hjoined
    refine ⟨entries, _, hentries, hjoined, ?_⟩
    have hpositive : 0 < finalTenth budget := by
      unfold finalTenth
      omega
    rw [htenth, crossed, decide_eq_true hpositive, Bool.true_and]
  · obtain ⟨prior, after, base, hprior, hafter, hbase⟩ := h.ends hw
    have htold : settleRunState budget w.1 w.2 = some _ :=
      settleRunState_eq_some hprior hafter hbase
    exact (h.escalated_iff hw htold unit).1 (hold w hw _ htold unit)
  · exact (h.escalated_iff hw htold unit).2 (hreturn w hw unit)

def requested : Event :=
  Event.new ("q", 0) Spawn.typeSpawnRequested (.json (.obj [("id", .str "u/implementer#0"),
    ("unit", .str "u"), ("stage", .str "u"), ("prompt", .str "fix")]))

/-- A unit escalates, is granted an attempt between two calls, and escalates again. -/
def grantedBetween : List Call :=
  [⟨[], [failedAt 3, escalatedUnit], ∅, 0, false⟩,
    ⟨[grantOf 1], [requested, failedAt 4, escalatedUnit], ∅, 1, false⟩]

/-- The same log, its second call started before the grant. -/
def grantedWithin : List Call :=
  [⟨[], [failedAt 3, escalatedUnit], ∅, 0, false⟩,
    ⟨[], [grantOf 1, requested, failedAt 4, escalatedUnit], ∅, 1, false⟩]

theorem cut_of_granted {between within : List Event} (hjoined : between ++ within =
      [grantOf 1, requested, failedAt 4, escalatedUnit])
    (hbetween : ∀ e ∈ between, e.type_ ≠ Spawn.typeSpawnRequested)
    (hstart : spawnCount ([failedAt 3, escalatedUnit] ++ between) = some 0) :
    Cut [⟨[], [failedAt 3, escalatedUnit], ∅, 0, false⟩, ⟨between, within, ∅, 1, false⟩] where
  folds := by
    simp only [joined, List.flatMap_cons, List.flatMap_nil, List.nil_append,
      List.append_nil, hjoined]
    decide +kernel
  requests := by
    simp only [joined, List.flatMap_cons, List.flatMap_nil, List.nil_append,
      List.append_nil, hjoined]
    decide +kernel
  parks := by
    intro c hc e he
    simp only [List.mem_cons, List.not_mem_nil, or_false] at hc
    rcases hc with rfl | rfl
    · cases he
    · exact hbetween e he
  counts := by
    intro w hw base hbase
    simp only [windows, List.nil_append, List.append_nil, List.mem_cons, List.not_mem_nil,
      or_false] at hw
    rcases hw with rfl | rfl
    · have hnone : spawnCount [] = some 0 := rfl
      rw [← Option.some.inj (hnone.symm.trans hbase)]
      decide +kernel
    · rw [hstart] at hbase
      rw [← Option.some.inj hbase, List.append_assoc, hjoined]
      show spawnCount ([failedAt 3, escalatedUnit] ++
        [grantOf 1, requested, failedAt 4, escalatedUnit]) = some 1
      decide +kernel
  trips := by
    intro w hw hhalted
    simp only [windows, List.nil_append, List.append_nil, List.mem_cons, List.not_mem_nil,
      or_false] at hw
    rcases hw with rfl | rfl <;> cases hhalted

theorem not_escalatedAt (h : (project log).map escalatedUnits = some []) (unit : String) :
    escalatedAt unit log = false := by
  obtain ⟨run, hrun, hnone⟩ := Option.map_eq_some_iff.1 h
  unfold escalatedAt
  rw [hrun, Option.any_some, beq_eq_false_iff_ne]
  intro hstatus
  have hmem := (mem_escalatedUnits (keyed_project hrun)).2 hstatus
  rw [hnone] at hmem
  cases hmem

/-- No call starts with the unit escalated, and each of the two escalations is told of. -/
theorem once_iff_grantedBetween : Cut grantedBetween ∧ EachCall 1 grantedBetween Told ∧
    TenthOnce 1 grantedBetween ∧ EscalatedOnce 1 grantedBetween ∧ NoReturn grantedBetween := by
  have hcut : Cut grantedBetween := cut_of_granted rfl (by decide) (by decide +kernel)
  have hreturn : NoReturn grantedBetween := by
    intro w hw unit hstart
    simp only [grantedBetween, windows, List.nil_append, List.append_nil, List.mem_cons,
      List.not_mem_nil, or_false] at hw
    rcases hw with rfl | rfl
    · rw [not_escalatedAt (by decide +kernel)] at hstart
      cases hstart
    · rw [not_escalatedAt (by decide +kernel)] at hstart
      cases hstart
  obtain ⟨htold, htenth, hiff⟩ := once_iff hcut (show 0 < 1 by decide)
  exact ⟨hcut, htold, htenth, hiff.2 hreturn, hreturn⟩

/-- The call that starts before the grant tells nothing of the second escalation. -/
theorem grantedWithin_untold :
    ¬∀ (budget : ℕ) (calls : List Call), 0 < budget → Cut calls → EscalatedOnce budget calls := by
  intro h
  have hcut : Cut grantedWithin := cut_of_granted rfl (by simp) (by decide +kernel)
  have hw : ([failedAt 3, escalatedUnit], (⟨[], [grantOf 1, requested, failedAt 4, escalatedUnit],
      ∅, 1, false⟩ : Call)) ∈ windows [] grantedWithin := List.mem_cons_of_mem _ List.mem_cons_self
  obtain ⟨told, -, -, htold, -⟩ := hcut.tenth hw (show 0 < 1 by decide)
  have htells := h 1 grantedWithin (by decide) hcut _ hw _ htold "u"
  have hthroughout := (hcut.escalated_iff hw htold "u").1 htells (by decide +kernel)
    (by decide +kernel) 1 (by decide)
  exact absurd hthroughout (by decide +kernel)

end Rigger.Conductor
