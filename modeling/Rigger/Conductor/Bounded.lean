import Rigger.Conductor.Remediate
import Rigger.Lib.Run

/-!
# Remediation is bounded

In every run in which no loop runs, on entry, an attempt its bound has used up, a unit makes at
most as many attempts as its bound and the operator's grants allow, makes exactly those before an
exhausted one is escalated, charges each of them once however often an outage reran it, and gives
an attempt a second spawn id only for such a rerun (`remediation_bounded`).  A crash between the
last `UnitFailed` and its `UnitEscalated` lets the next process run one attempt more
(`remediation_not_bounded`).

The count a loop stands at is the fold's count of the unit's failures, and the bound it was handed
is the fold's, as long as the unit is not settled (`Sound`).
-/

namespace Rigger.Conductor

open Lib Ledger

/-! ## What a log tells of the unit -/

/-- The unit as the fold leaves it. -/
def Setup.unitOf (u : Setup) (log : List Event) : Ledger.Unit :=
  log.foldl (fun x e => RunState.written u.unit e x) (Unit.new u.unit)

/-- The counts its failures charge, in order. -/
def Setup.charges (u : Setup) (log : List Event) : List Nat :=
  log.filterMap fun e => ofUnit u.unit (RunState.charged e)

/-- The attempts an operator granted it. -/
def Setup.granted (u : Setup) (log : List Event) : Nat :=
  (log.filterMap fun e => ofUnit u.unit (RunState.granted e)).sum

/-- The infra reruns recorded of an attempt. -/
def Setup.reruns (u : Setup) (log : List Event) (attempt : Nat) : Nat :=
  (InfraRetries.recorded log u.unit attempt).ordinal

/-- The log holds an escalation of the unit that gives a reason: a stop on a defect of the spec. -/
def Setup.Stopped (u : Setup) (log : List Event) : Prop :=
  ∃ e ∈ log, ∃ reason, reasonGiven u.unit e = some reason ∧ reason ≠ ""

/-- Remediation is bounded, as far as the trial went. -/
structure Trial.Bounded (u : Setup) (w : Trial) : Prop where
  within : ∀ r ∈ w.runs, r.attempt < u.plain + u.granted w.log
  exhausted : ¬u.Stopped w.log → (u.unitOf w.log).status = .escalated →
    ∀ k < u.plain + u.granted w.log, ∃ r ∈ w.runs, r.attempt = k
  charged : u.charges w.log = List.range' 1 (u.charges w.log).length
  run : ∀ k ∈ u.charges w.log, ∃ r ∈ w.runs, r.attempt + 1 = k
  reran : ∀ r ∈ w.runs, r.ordinal ≤ u.reruns w.log r.attempt
  spawned : ∀ r ∈ w.runs, ∀ r' ∈ w.runs, r.attempt = r'.attempt → u.reruns w.log r.attempt = 0 →
    r.implementer u.unit = r'.implementer u.unit ∧
      ∀ role, r.reviewer u.unit role = r'.reviewer u.unit role

section
variable {u : Setup}

theorem unitOf_concat (u : Setup) (log : List Event) (e : Event) :
    u.unitOf (log ++ [e]) = RunState.written u.unit e (u.unitOf log) := by
  simp [Setup.unitOf]

theorem charges_concat (u : Setup) (log : List Event) (e : Event) :
    u.charges (log ++ [e]) = u.charges log ++ (ofUnit u.unit (RunState.charged e)).toList := by
  rw [Setup.charges, List.filterMap_append]
  cases h : ofUnit u.unit (RunState.charged e) <;> simp [h, Setup.charges]

theorem granted_concat (u : Setup) (log : List Event) (e : Event) :
    u.granted (log ++ [e]) = u.granted log + (ofUnit u.unit (RunState.granted e)).getD 0 := by
  rw [Setup.granted, List.filterMap_append, List.sum_append]
  cases h : ofUnit u.unit (RunState.granted e) <;> simp [h, Setup.granted]

theorem recorded_concat (unit : String) (log : List Event) (e : Event) (attempt : Nat) :
    InfraRetries.recorded (log ++ [e]) unit attempt =
      match infraMark unit e with
      | some (status, k) =>
        if k = attempt then (InfraRetries.recorded log unit attempt).after status
        else InfraRetries.recorded log unit attempt
      | none => InfraRetries.recorded log unit attempt := by
  unfold InfraRetries.recorded
  rw [List.filterMap_append, List.filter_append, List.foldl_append]
  cases h : infraMark unit e with
  | none => simp [h]
  | some m => by_cases hm : m.2 = attempt <;> simp [h, hm]

theorem reruns_concat (u : Setup) (log : List Event) (e : Event) (attempt : Nat) :
    u.reruns (log ++ [e]) attempt = u.reruns log attempt +
      if infraMark u.unit e = some (statusInfraRetry, attempt) then 1 else 0 := by
  unfold Setup.reruns
  rw [recorded_concat]
  cases h : infraMark u.unit e with
  | none => simp
  | some m =>
    obtain ⟨status, k⟩ := m
    by_cases hk : k = attempt
    · subst hk
      by_cases hs : status = statusInfraRetry <;> simp [InfraRetries.after, hs]
    · simp [hk]

theorem reruns_le_append (u : Setup) (log more : List Event) (attempt : Nat) :
    u.reruns log attempt ≤ u.reruns (log ++ more) attempt := by
  induction more using List.reverseRecOn with
  | nil => rw [List.append_nil]
  | append_singleton more e ih =>
    rw [← List.append_assoc, reruns_concat]
    omega

theorem infraAt_le {events log : List Event} (h : events <+: log) (attempt : Nat) :
    (u.infraAt events attempt).ordinal ≤ u.reruns log attempt := by
  obtain ⟨more, rfl⟩ := h
  unfold Setup.infraAt
  split
  · exact reruns_le_append u events more attempt
  · exact Nat.zero_le _
  · exact Nat.zero_le _

/-- The state a process starts from holds the unit as the log leaves it. -/
theorem project_unitAt {log : List Event} {run : RunState} (h : project log = some run) :
    run.unitAt u.unit = u.unitOf log := by
  obtain ⟨s, hfold, rfl⟩ := Option.map_eq_some_iff.1 h
  have key : ∀ (log : List Event) (s₀ : RunState), log.foldlM RunState.apply s₀ = some s →
      s.unitAt u.unit = log.foldl (fun x e => RunState.written u.unit e x) (s₀.unitAt u.unit) := by
    intro log
    induction log with
    | nil => intro s₀ h; cases h; rfl
    | cons e log ih =>
      intro s₀ h
      rw [List.foldlM_cons, Option.bind_eq_bind, Option.bind_eq_some_iff] at h
      obtain ⟨s₁, happly, hrest⟩ := h
      rw [ih s₁ hrest, RunState.apply_unitAt happly, List.foldl_cons]
  show s.unitAt u.unit = _
  rw [key log RunState.new hfold]
  have hnew : RunState.new.unitAt u.unit = Unit.new u.unit := by
    simp [RunState.unitAt, RunState.new]
  rw [hnew]
  rfl

end

/-! ## Keys -/

theorem ownKey_failedKey (unit : String) (attempt : Nat) :
    ownKey unit (failedKey unit attempt) = true := by
  have h : stripPrefix (unit ++ "/failed#") (failedKey unit attempt) = some (toString attempt) :=
    stripPrefix_append _ _
  rw [ownKey, h]
  rfl

theorem ownKey_infraMarkKey (unit : String) (attempt ordinal : Nat) :
    ownKey unit (infraMarkKey unit statusInfraRetry attempt ordinal) = true := by
  have h : infraMarkKey unit statusInfraRetry attempt ordinal =
      unit ++ "/infra-retry#" ++ (toString attempt ++ "~" ++ toString ordinal) := by
    simp [infraMarkKey, statusInfraRetry, String.append_assoc]
  rw [ownKey, h, stripPrefix_append]
  simp

theorem failedKey_inj {unit : String} {a b : Nat} (h : failedKey unit a = failedKey unit b) :
    a = b := by
  have := congrArg (stripPrefix (unit ++ "/failed#")) h
  unfold failedKey at this
  rw [stripPrefix_append, stripPrefix_append] at this
  exact toString_nat_inj (Option.some.inj this)

theorem ownKey_append (unit rest : String) : ownKey unit (unit ++ rest) =
    ((stripPrefix "/failed#" rest).isSome || (stripPrefix "/infra-retry#" rest).isSome) := by
  rw [ownKey, stripPrefix_append_append, stripPrefix_append_append]

theorem not_ownKey_halt (unit : String) (attempt ordinal : Nat) :
    ownKey unit (infraMarkKey unit statusInfraHalt attempt ordinal) = false := by
  have h : infraMarkKey unit statusInfraHalt attempt ordinal =
      unit ++ ("/infra-halt#" ++ (toString attempt ++ "~" ++ toString ordinal)) := by
    simp [infraMarkKey, statusInfraHalt, String.append_assoc]
  rw [h, ownKey_append]
  unfold stripPrefix
  rw [String.toList_append]
  rfl

theorem not_ownKey_specDefect (gate : String) (attempt : Nat) :
    ownKey gate (specDefectEscalatedKey gate attempt) = false := by
  have h : specDefectEscalatedKey gate attempt =
      gate ++ ("/spec-defect-escalated#" ++ toString attempt) := String.append_assoc
  rw [h, ownKey_append]
  unfold stripPrefix
  rw [String.toList_append]
  rfl

theorem failedKey_ne_infraMarkKey (unit : String) (k attempt ordinal : Nat) :
    failedKey unit k ≠ infraMarkKey unit statusInfraRetry attempt ordinal := by
  have hfailed : failedKey unit k = unit ++ ("/failed#" ++ toString k) := String.append_assoc
  have hmark : infraMarkKey unit statusInfraRetry attempt ordinal =
      unit ++ ("/infra-retry#" ++ (toString attempt ++ "~" ++ toString ordinal)) := by
    simp [infraMarkKey, statusInfraRetry, String.append_assoc]
  intro h
  have hstrip := congrArg (stripPrefix (unit ++ "/failed#")) h
  rw [hfailed, hmark, stripPrefix_append_append, stripPrefix_append_append, stripPrefix_append]
    at hstrip
  unfold stripPrefix at hstrip
  rw [String.toList_append] at hstrip
  cases hstrip

theorem infraMarkKey_inj {unit status : String} {k k' o o' : Nat}
    (h : infraMarkKey unit status k o = infraMarkKey unit status k' o') : k = k' ∧ o = o' := by
  have hmark : ∀ k o, infraMarkKey unit status k o =
      unit ++ "/" ++ status ++ "#" ++ (toString k ++ String.singleton '~' ++ toString o) := by
    intro k o
    simp only [infraMarkKey, String.append_assoc]
    rfl
  have hstrip := congrArg (stripPrefix (unit ++ "/" ++ status ++ "#")) h
  rw [hmark, hmark, stripPrefix_append, stripPrefix_append, Option.some.injEq] at hstrip
  have hdigits : ∀ n : Nat, '~' ∉ (toString n).toList := by
    intro n hn
    have := List.all_eq_true.1 (all_isDigit_toString n) '~' hn
    revert this
    decide
  have hcut : ∀ k o : Nat, splitOnce '~' (toString k ++ String.singleton '~' ++ toString o) =
      some (toString k, toString o) := fun k o =>
    (splitOnce_eq_some_iff '~' _ _ _).2 ⟨rfl, hdigits k⟩
  have hsome := congrArg (splitOnce '~') hstrip
  rw [hcut, hcut, Option.some.injEq] at hsome
  obtain ⟨hk, ho⟩ := Prod.mk.inj hsome
  exact ⟨toString_nat_inj hk, toString_nat_inj ho⟩

/-! ## The counts -/

/-- A verdict of a gate of the unit, as far as an event records one, is of no attempt past `n`. -/
def VerdictWithin (u : Setup) (n : Nat) (e : Event) : Prop :=
  ∀ x a, gateVerdictOf e = some x → unitOfGateKey x.1 = some u.unit →
    gateKeyAttempt x.1 = some a → a ≤ n

/-- The counts of a log agree with the attempts that were made. -/
structure Counted (u : Setup) (log : List Event) (runs : List Run) : Prop where
  folds : ∀ e ∈ log, folds e = true
  attempts : (u.unitOf log).attempts ≤ u.plain + u.granted log
  bound : (u.unitOf log).resumeBound ≤ u.plain + u.granted log
  small : (u.unitOf log).resumeBound < 2 ^ 32
  charges : u.charges log = List.range' 1 (u.unitOf log).attempts
  within : ∀ r ∈ runs, r.attempt < u.plain + u.granted log
  made : ∀ k < (u.unitOf log).attempts, ∃ r ∈ runs, r.attempt = k
  reran : ∀ r ∈ runs, r.ordinal ≤ u.reruns log r.attempt
  verdicts : ∀ e ∈ log, VerdictWithin u (u.unitOf log).attempts e
  failed : ∀ k, failedKey u.unit k ∈ seededKeys log → k < (u.unitOf log).attempts
  marked : ∀ k o, infraMarkKey u.unit statusInfraRetry k o ∈ seededKeys log → o < u.reruns log k
  granted : ¬u.Stopped log → max (u.unitOf log).resumeBound u.plain = u.plain + u.granted log
  escalated : ¬u.Stopped log → (u.unitOf log).status = .escalated →
    (u.unitOf log).attempts = u.plain + u.granted log

section
variable {u : Setup} {log : List Event} {runs : List Run} {e : Event}

theorem stopped_concat (h : u.Stopped log) : u.Stopped (log ++ [e]) := by
  obtain ⟨x, hx, hreason⟩ := h
  exact ⟨x, List.mem_append_left _ hx, hreason⟩

theorem counted_nil : Counted u [] [] where
  folds := by simp
  attempts := Nat.zero_le _
  bound := Nat.zero_le _
  small := Nat.two_pow_pos 32
  charges := rfl
  within := by simp
  made := fun k hk => absurd hk (Nat.not_lt_zero k)
  reran := by simp
  verdicts := by simp
  failed := fun k hk => nomatch hk
  marked := fun k o hk => nomatch hk
  granted := fun _ => by simp [Setup.unitOf, Unit.new, Setup.granted]
  escalated := fun _ hstatus => nomatch hstatus

theorem folds_concat (h : ∀ e ∈ log, folds e = true) (he : folds e = true) :
    ∀ x ∈ log ++ [e], folds x = true := by
  intro x hx
  rcases List.mem_append.1 hx with hx | hx
  · exact h x hx
  · rw [List.mem_singleton.1 hx]
    exact he

theorem Counted.ran (h : Counted u log runs) {r : Run}
    (hattempt : r.attempt < u.plain + u.granted log)
    (hordinal : r.ordinal ≤ u.reruns log r.attempt) :
    Counted u log (runs ++ [r]) where
  folds := h.folds
  attempts := h.attempts
  bound := h.bound
  small := h.small
  charges := h.charges
  within := by simpa [or_imp, forall_and] using ⟨h.within, hattempt⟩
  made := fun k hk => (h.made k hk).imp fun x hx => ⟨List.mem_append_left _ hx.1, hx.2⟩
  reran := by simpa [or_imp, forall_and] using ⟨h.reran, hordinal⟩
  verdicts := h.verdicts
  failed := h.failed
  marked := h.marked
  granted := h.granted
  escalated := h.escalated

/-- What one event may add: a charge of the attempt the unit stands at, made and below its bound; a
grant to an exhausted unit that the sum of a `u32` holds; a rerun; and an escalation at the
bound. -/
structure Allowed (u : Setup) (log : List Event) (runs : List Run) (e : Event) : Prop where
  folds : folds e = true
  charge : ∀ n, ofUnit u.unit (RunState.charged e) = some n →
    n = (u.unitOf log).attempts + 1 ∧ (u.unitOf log).attempts < u.plain + u.granted log ∧
      ∃ r ∈ runs, r.attempt = (u.unitOf log).attempts
  grant : ∀ n, ofUnit u.unit (RunState.granted e) = some n →
    (u.unitOf log).attempts + n < 2 ^ 32 ∧
      (¬u.Stopped log → (u.unitOf log).attempts = u.plain + u.granted log)
  verdict : VerdictWithin u (u.unitOf log).attempts e
  escalates : statusMoved u.unit e = some .escalated → ¬u.Stopped (log ++ [e]) →
    (u.unitOf log).attempts = u.plain + u.granted log
  key : ∀ key, e.meta_[metaReplayKey]? = some key → ownKey u.unit key = true →
    (key = failedKey u.unit (u.unitOf log).attempts ∧
        (ofUnit u.unit (RunState.charged e)).isSome = true) ∨
      ∃ k o, key = infraMarkKey u.unit statusInfraRetry k o ∧ o ≤ u.reruns log k ∧
        infraMark u.unit e = some (statusInfraRetry, k)

theorem charged_moves {unit : String} {n : Nat} (h : ofUnit unit (RunState.charged e) = some n) :
    statusMoved unit e = some .failed ∧ ofUnit unit (RunState.granted e) = none := by
  unfold RunState.charged at h
  split at h
  case isTrue htype =>
    unfold statusMoved movedTo RunState.granted
    rw [htype]
    simp +decide only [if_true, if_false]
    cases hp : UnitFailed.decode e.data with
    | none => simp [hp, ofUnit] at h
    | some p =>
      simp only [hp, ofUnit, Option.map_some, Option.bind_some] at h ⊢
      split at h
      · exact ⟨if_pos ‹_›, rfl⟩
      · cases h
  case isFalse => cases h

theorem granted_moves {unit : String} {n : Nat} (h : ofUnit unit (RunState.granted e) = some n) :
    statusMoved unit e = some .failed := by
  unfold RunState.granted at h
  split at h
  case isTrue htype =>
    rw [statusMoved, (movedTo_of_resumed htype).1]
    cases hp : UnitResumed.decode e.data with
    | none => simp [hp, ofUnit] at h
    | some p =>
      simp only [hp, ofUnit, Option.map_some, Option.bind_some] at h ⊢
      split at h
      · exact if_pos ‹_›
      · cases h
  case isFalse => cases h

/-- The counts of a log with one event more, by what the event charges and grants. -/
theorem counts_concat (u : Setup) (log : List Event) (e : Event) :
    (∃ n, ofUnit u.unit (RunState.charged e) = some n ∧ (u.unitOf (log ++ [e])).attempts = n ∧
        (u.unitOf (log ++ [e])).resumeBound = (u.unitOf log).resumeBound ∧
        (u.unitOf (log ++ [e])).status = .failed ∧ u.granted (log ++ [e]) = u.granted log) ∨
      (∃ n, ofUnit u.unit (RunState.granted e) = some n ∧
        ofUnit u.unit (RunState.charged e) = none ∧
        (u.unitOf (log ++ [e])).attempts = (u.unitOf log).attempts ∧
        (u.unitOf (log ++ [e])).resumeBound = ((u.unitOf log).attempts + n) % 2 ^ 32 ∧
        (u.unitOf (log ++ [e])).status = .failed ∧ u.granted (log ++ [e]) = u.granted log + n) ∨
      (ofUnit u.unit (RunState.charged e) = none ∧
        (u.unitOf (log ++ [e])).attempts = (u.unitOf log).attempts ∧
        (u.unitOf (log ++ [e])).resumeBound = (u.unitOf log).resumeBound ∧
        (u.unitOf (log ++ [e])).status = (statusMoved u.unit e).getD (u.unitOf log).status ∧
        u.granted (log ++ [e]) = u.granted log) := by
  obtain ⟨hstatus, hattempts, hbound⟩ := RunState.written_fields u.unit e (u.unitOf log)
  rw [← unitOf_concat] at hstatus hattempts hbound
  have hsum := granted_concat u log e
  cases hcharge : ofUnit u.unit (RunState.charged e) with
  | some n =>
    obtain ⟨hmoved, hgrant⟩ := charged_moves hcharge
    rw [hmoved] at hstatus
    rw [hcharge] at hattempts
    rw [hgrant] at hbound hsum
    exact .inl ⟨n, rfl, hattempts, hbound, hstatus, hsum⟩
  | none =>
    rw [hcharge] at hattempts
    cases hgrant : ofUnit u.unit (RunState.granted e) with
    | some n =>
      rw [granted_moves hgrant] at hstatus
      rw [hgrant] at hbound hsum
      exact .inr (.inl ⟨n, rfl, rfl, hattempts, hbound, hstatus, hsum⟩)
    | none =>
      rw [hgrant] at hbound hsum
      exact .inr (.inr ⟨rfl, hattempts, hbound, hstatus, hsum⟩)

theorem Counted.concat (h : Counted u log runs) (ha : Allowed u log runs e) :
    Counted u (log ++ [e]) runs := by
  have hcounts := counts_concat u log e
  have hlast : (u.unitOf log).attempts ≤ (u.unitOf (log ++ [e])).attempts := by
    rcases hcounts with ⟨n, hn, heq, -⟩ | ⟨n, -, -, heq, -⟩ | ⟨-, heq, -⟩
    · rw [heq, (ha.charge n hn).1]
      omega
    · exact heq.ge
    · exact heq.ge
  have hsum : u.granted log ≤ u.granted (log ++ [e]) := by
    rw [granted_concat]
    omega
  have hreruns : ∀ k, u.reruns log k ≤ u.reruns (log ++ [e]) k := fun k =>
    reruns_le_append u log [e] k
  refine ⟨folds_concat h.folds ha.folds, ?_, ?_, ?_, ?_, ?_, ?_, ?_, ?_, ?_, ?_, ?_, ?_⟩
  · -- attempts
    rcases hcounts with ⟨n, hn, heq, -⟩ | ⟨n, -, -, heq, -⟩ | ⟨-, heq, -⟩
    · have hcharge := ha.charge n hn
      omega
    · have := h.attempts
      omega
    · have := h.attempts
      omega
  · -- bound
    rcases hcounts with ⟨n, -, -, heq, -⟩ | ⟨n, hn, -, -, heq, -, hg⟩ | ⟨-, -, heq, -⟩
    · have := h.bound
      omega
    · have := h.attempts
      rw [heq, Nat.mod_eq_of_lt (ha.grant n hn).1]
      omega
    · have := h.bound
      omega
  · -- small
    rcases hcounts with ⟨n, -, -, heq, -⟩ | ⟨n, -, -, -, heq, -⟩ | ⟨-, -, heq, -⟩
    · exact heq ▸ h.small
    · rw [heq]
      exact Nat.mod_lt _ (Nat.two_pow_pos 32)
    · exact heq ▸ h.small
  · -- charges
    rw [charges_concat]
    rcases hcounts with ⟨n, hn, heq, -⟩ | ⟨n, -, hn, heq, -⟩ | ⟨hn, heq, -⟩
    · rw [hn, heq, (ha.charge n hn).1, h.charges, List.range'_1_concat, Nat.add_comm 1]
      rfl
    · rw [hn, heq, h.charges]
      exact List.append_nil _
    · rw [hn, heq, h.charges]
      exact List.append_nil _
  · -- within
    intro r hr
    have := h.within r hr
    omega
  · -- made
    intro k hk
    rcases hcounts with ⟨n, hn, heq, -⟩ | ⟨n, -, -, heq, -⟩ | ⟨-, heq, -⟩
    · obtain ⟨hcount, -, hmade⟩ := ha.charge n hn
      rcases Nat.lt_or_ge k (u.unitOf log).attempts with hlt | hge
      · exact h.made k hlt
      · obtain rfl : k = (u.unitOf log).attempts := by omega
        exact hmade
    · exact h.made k (heq ▸ hk)
    · exact h.made k (heq ▸ hk)
  · -- reran
    exact fun r hr => (h.reran r hr).trans (hreruns r.attempt)
  · -- verdicts
    intro x hx y a hy hunit hattempt
    rcases List.mem_append.1 hx with hx | hx
    · exact (h.verdicts x hx y a hy hunit hattempt).trans hlast
    · rw [List.mem_singleton.1 hx] at hy
      exact (ha.verdict y a hy hunit hattempt).trans hlast
  · -- failed
    intro k hk
    rcases mem_seededKeys_concat hk with hk | hk
    · exact (h.failed k hk).trans_le hlast
    · rcases ha.key _ hk (ownKey_failedKey _ _) with ⟨hkey, hsome⟩ | ⟨k', o, hkey, -⟩
      · obtain ⟨n, hn⟩ := Option.isSome_iff_exists.1 hsome
        obtain ⟨n', hn', heq, -⟩ | ⟨n', -, hn', -⟩ | ⟨hn', -⟩ := hcounts
        · have hcharge := (ha.charge n' hn').1
          have := failedKey_inj hkey
          omega
        · rw [hn] at hn'
          cases hn'
        · rw [hn] at hn'
          cases hn'
      · exact absurd hkey (failedKey_ne_infraMarkKey _ _ _ _)
  · -- marked
    intro k o hk
    rcases mem_seededKeys_concat hk with hk | hk
    · exact (h.marked k o hk).trans_le (hreruns k)
    · rcases ha.key _ hk (ownKey_infraMarkKey _ _ _) with ⟨hkey, -⟩ | ⟨k', o', hkey, hle, hmark⟩
      · exact absurd hkey.symm (failedKey_ne_infraMarkKey _ _ _ _)
      · obtain ⟨rfl, rfl⟩ := infraMarkKey_inj hkey
        rw [reruns_concat, if_pos hmark]
        omega
  · -- granted
    intro hstopped
    have hexact := h.granted (mt stopped_concat hstopped)
    rcases hcounts with ⟨n, -, -, heq, -, hg⟩ | ⟨n, hn, -, -, heq, -, hg⟩ | ⟨-, -, heq, -, hg⟩
    · omega
    · obtain ⟨hlt, hat⟩ := ha.grant n hn
      have := hat (mt stopped_concat hstopped)
      rw [heq, Nat.mod_eq_of_lt hlt]
      omega
    · omega
  · -- escalated
    intro hstopped hesc
    rcases hcounts with ⟨n, -, -, -, hfailed, -⟩ | ⟨n, -, -, -, -, hfailed, -⟩ |
      ⟨-, heq, -, hstatus, hg⟩
    · rw [hfailed] at hesc
      cases hesc
    · rw [hfailed] at hesc
      cases hesc
    · rw [heq, hg]
      rw [hstatus] at hesc
      cases hmoved : statusMoved u.unit e with
      | none =>
        rw [hmoved] at hesc
        exact h.escalated (mt stopped_concat hstopped) hesc
      | some status =>
        rw [hmoved] at hesc
        exact ha.escalates (hmoved.trans (congrArg some hesc)) hstopped

end

/-! ## What the loops emit -/

theorem eventWithMeta_key {mint : Mint} {type_ : String} {body : Json}
    {extra : List (String × String)} {key k : String} (h : ∀ kv ∈ extra, kv.1 ≠ metaReplayKey)
    (hk : (eventWithMeta mint type_ body (extra ++ [(metaReplayKey, key)])).meta_[metaReplayKey]? =
      some k) : k = key := by
  rw [eventWithMeta_meta] at hk
  obtain ⟨init, kv, post, heq, hsome, -⟩ := (latest_eq_some_iff _ _ _).1 hk
  have hmem : kv ∈ extra ++ [(metaReplayKey, key)] := by simp [heq]
  split at hsome
  case isTrue hkey =>
    rcases List.mem_append.1 hmem with hmem | hmem
    · exact absurd hkey.1 (h kv hmem)
    · rw [List.mem_singleton] at hmem
      subst hmem
      exact (Option.some.inj hsome).symm
  case isFalse => cases hsome

theorem eventWithMeta_unkeyed (mint : Mint) (type_ : String) (body : Json)
    {extra : List (String × String)} (h : ∀ kv ∈ extra, kv.1 ≠ metaReplayKey) :
    (eventWithMeta mint type_ body extra).meta_[metaReplayKey]? = none := by
  rw [eventWithMeta_meta]
  refine (latest_eq_none_iff _ _).2 fun kv hkv => if_neg fun hkey => h kv hkv hkey.1

/-- A lifecycle event that decodes folds. -/
theorem folds_of_unitEvent {e : Event} {p : String × (Ledger.Unit → Ledger.Unit)}
    (htype : e.type_ ∈ RunState.unitTypes) (h : RunState.unitEvent e = some p) :
    folds e = true := by
  have hne : ∀ t ∈ RunState.unitTypes, t ≠ typeRunStarted ∧ t ≠ typeRunHeld ∧
      t ≠ typeRunReleased := by decide
  obtain ⟨hstarted, hheld, hreleased⟩ := hne _ htype
  rw [folds, RunState.apply, if_neg hstarted, if_neg hheld, if_neg hreleased, if_pos htype, h]
  rfl

theorem decode_requiredBody (r : RequiredItem) : RequiredItem.decode
    (requiredBody r) = some r := rfl

theorem asUnsigned_num {bits n : Nat} (h : n < 2 ^ bits) : Json.asUnsigned bits
    (.num n) = some n := by
  rw [Json.asUnsigned, if_pos ⟨Int.natCast_nonneg n, by exact_mod_cast h⟩, Int.toNat_natCast]

theorem decode_failed {v id attempts cause evidence reason required : Json}
    {failed : UnitFailed} (hslots : v.slots
      ["id", "attempts", "cause", "gate_evidence", "review_reason", "required"] =
      some [some id, some attempts, some cause, some evidence, some reason, some required])
    (hid : id.asStr = some failed.id) (hattempts : attempts.asUnsigned 32 = some failed.attempts)
    (hcause : cause.asStr = some failed.cause)
    (hevidence : Json.asList Json.asStr evidence = some failed.gateEvidence)
    (hreason : reason.asStr = some failed.reviewReason)
    (hrequired : Json.asList RequiredItem.decode required = some failed.required) :
    UnitFailed.decode (.json v) = some failed := by
  simp only [UnitFailed.decode, Data.value, Option.bind_eq_bind, Option.bind_some, hslots,
    Json.required, Json.orDefault, hid, hattempts, hcause, hevidence, hreason, hrequired,
    Option.pure_def]

theorem decode_resumed {v unit granted holder : Json} {resumed : UnitResumed}
    (hslots : v.slots ["unit", "attempts_granted", "by"] =
      some [some unit, some granted, some holder])
    (hunit : unit.asStr = some resumed.unit)
    (hgranted : granted.asUnsigned 32 = some resumed.attemptsGranted)
    (hholder : holder.asStr = some resumed.by_) : UnitResumed.decode (.json v) = some resumed := by
  simp only [UnitResumed.decode, Data.value, Option.bind_eq_bind, Option.bind_some, hslots,
    Json.required, Json.orDefault, hunit, hgranted, hholder, Option.pure_def]

theorem decode_failedBody (f : PriorFailure) (unit cause : String) {attempts : Nat}
    (h : attempts < 2 ^ 32) : UnitFailed.decode (.json (f.failedBody unit attempts cause)) =
      some ⟨unit, attempts, cause, f.gateEvidence, f.reviewReason, f.required⟩ := by
  have htext : ∀ text, Json.asStr (.str text) = some text := fun _ => rfl
  refine decode_failed rfl rfl (asUnsigned_num h) rfl ?_ rfl ?_
  · exact Json.mapM_map_eq_some htext _
  · exact Json.mapM_map_eq_some decode_requiredBody _

section
variable {u : Setup} {log : List Event} {runs : List Run} {e : Event} {unit : String}

theorem verdictWithin_of_unitType (htype : e.type_ ∈ RunState.unitTypes) (n : Nat) :
    VerdictWithin u n e := by
  intro x a hx
  have hne : ∀ t ∈ RunState.unitTypes, t ≠ typeGateVerdict := by decide
  rw [gateVerdictOf, if_neg (hne _ htype)] at hx
  cases hx

theorem not_charged (h : e.type_ ≠ typeUnitFailed) : ofUnit unit (RunState.charged e) = none := by
  rw [RunState.charged, if_neg h]
  rfl

theorem not_granted (h : e.type_ ≠ typeUnitResumed) : ofUnit unit (RunState.granted e) = none := by
  rw [RunState.granted, if_neg h]
  rfl

/-- A lifecycle event that neither charges nor grants. -/
theorem Allowed.of_kept {p : String × (Ledger.Unit → Ledger.Unit)}
    (htype : e.type_ ∈ RunState.unitTypes) (hread : RunState.unitEvent e = some p)
    (hfailed : e.type_ ≠ typeUnitFailed) (hresumed : e.type_ ≠ typeUnitResumed)
    (hescalates : statusMoved u.unit e = some .escalated → ¬u.Stopped (log ++ [e]) →
      (u.unitOf log).attempts = u.plain + u.granted log)
    (hkey : ∀ key, e.meta_[metaReplayKey]? = some key → ownKey u.unit key = true →
      ∃ k o, key = infraMarkKey u.unit statusInfraRetry k o ∧ o ≤ u.reruns log k ∧
        infraMark u.unit e = some (statusInfraRetry, k)) : Allowed u log runs e where
  folds := folds_of_unitEvent htype hread
  charge := fun n hn => by
    rw [not_charged hfailed] at hn
    cases hn
  grant := fun n hn => by
    rw [not_granted hresumed] at hn
    cases hn
  verdict := verdictWithin_of_unitType htype _
  escalates := hescalates
  key := fun key hk hown => .inr (hkey key hk hown)

theorem allowed_failed {mint : Mint} {failure : PriorFailure} {cause : String}
    {extra : List (String × String)} (hlt : (u.unitOf log).attempts < u.plain + u.granted log)
    (hsmall : (u.unitOf log).attempts + 1 < 2 ^ 32)
    (hmade : ∃ r ∈ runs, r.attempt = (u.unitOf log).attempts)
    (hkey : ∀ key, (eventWithMeta mint typeUnitFailed
        (failure.failedBody u.unit ((u.unitOf log).attempts + 1) cause) extra).meta_[
        metaReplayKey]? = some key → key = failedKey u.unit (u.unitOf log).attempts) :
    Allowed u log runs (eventWithMeta mint typeUnitFailed
      (failure.failedBody u.unit ((u.unitOf log).attempts + 1) cause) extra) := by
  generalize he : eventWithMeta mint typeUnitFailed
    (failure.failedBody u.unit ((u.unitOf log).attempts + 1) cause) extra = e at hkey ⊢
  have htype : e.type_ = typeUnitFailed := he ▸ eventWithMeta_type ..
  have hdata : e.data = .json (failure.failedBody u.unit ((u.unitOf log).attempts + 1) cause) :=
    he ▸ eventWithMeta_data ..
  have hdecode := decode_failedBody failure u.unit cause hsmall
  rw [← hdata] at hdecode
  have hmem : e.type_ ∈ RunState.unitTypes := by rw [htype]; decide
  have hcharged : ofUnit u.unit (RunState.charged e) = some ((u.unitOf log).attempts + 1) := by
    rw [RunState.charged, if_pos htype, hdecode]
    exact if_pos rfl
  have hread : (RunState.unitEvent e).isSome = true := by
    unfold RunState.unitEvent
    rw [htype, hdecode]
    rfl
  obtain ⟨p, hp⟩ := Option.isSome_iff_exists.1 hread
  obtain ⟨hmoved, hgrant⟩ := charged_moves hcharged
  refine ⟨folds_of_unitEvent hmem hp, ?_, ?_, verdictWithin_of_unitType hmem _, ?_, ?_⟩
  · intro n hn
    rw [hcharged, Option.some.injEq] at hn
    exact ⟨hn.symm, hlt, hmade⟩
  · intro n hn
    rw [hgrant] at hn
    cases hn
  · intro hescalated
    rw [hmoved] at hescalated
    cases hescalated
  · intro key hk _
    exact .inl ⟨hkey key hk, by rw [hcharged]; rfl⟩

theorem allowed_resumed {mint : Mint} {n : Nat} (hsmall : (u.unitOf log).attempts + n < 2 ^ 32)
    (hat : ¬u.Stopped log → (u.unitOf log).attempts = u.plain + u.granted log) :
    Allowed u log runs (Trial.resumedEvent u mint n) := by
  generalize he : Trial.resumedEvent u mint n = e
  have htype : e.type_ = typeUnitResumed := he ▸ eventWithMeta_type ..
  have hdata : e.data = .json (.obj [("unit", .str u.unit), ("attempts_granted", .num n),
      ("by", .str "operator")]) := he ▸ eventWithMeta_data ..
  have hdecode : UnitResumed.decode e.data = some ⟨u.unit, n, "operator"⟩ := by
    rw [hdata]
    exact decode_resumed rfl rfl (asUnsigned_num (by omega)) rfl
  have hmem : e.type_ ∈ RunState.unitTypes := by rw [htype]; decide
  have hgranted : ofUnit u.unit (RunState.granted e) = some n := by
    rw [RunState.granted, if_pos htype, hdecode]
    exact if_pos rfl
  have hread : (RunState.unitEvent e).isSome = true := by
    unfold RunState.unitEvent
    rw [htype, hdecode]
    rfl
  obtain ⟨p, hp⟩ := Option.isSome_iff_exists.1 hread
  have hkey : e.meta_[metaReplayKey]? = none := he ▸ eventWithMeta_unkeyed _ _ _ (by simp)
  refine ⟨folds_of_unitEvent hmem hp, ?_, ?_, verdictWithin_of_unitType hmem _, ?_, ?_⟩
  · intro m hm
    rw [not_charged (by rw [htype]; decide)] at hm
    cases hm
  · intro m hm
    rw [hgranted, Option.some.injEq] at hm
    exact ⟨hm ▸ hsmall, hat⟩
  · intro hescalated
    rw [granted_moves hgranted] at hescalated
    cases hescalated
  · intro key hk
    rw [hkey] at hk
    cases hk

theorem allowed_integrated (mint : Mint) (commit : String) :
    Allowed u log runs (Trial.integratedEvent u mint commit) := by
  generalize he : Trial.integratedEvent u mint commit = e
  have htype : e.type_ = typeUnitIntegrated := he ▸ eventWithMeta_type ..
  have hdata : e.data = .json (.obj [("id", .str u.unit), ("commit", .str commit)]) :=
    he ▸ eventWithMeta_data ..
  have hdecode : UnitIntegrated.decode e.data = some ⟨u.unit, commit⟩ := by
    rw [hdata]
    rfl
  have hread : (RunState.unitEvent e).isSome = true := by
    unfold RunState.unitEvent
    rw [htype, hdecode]
    rfl
  obtain ⟨p, hp⟩ := Option.isSome_iff_exists.1 hread
  have hkey : e.meta_[metaReplayKey]? = none := he ▸ eventWithMeta_unkeyed _ _ _ (by simp)
  refine .of_kept (by rw [htype]; decide) hp (by rw [htype]; decide) (by rw [htype]; decide) ?_ ?_
  · intro hescalated
    rw [statusMoved, movedTo, htype, hdecode] at hescalated
    simp +decide [ofUnit] at hescalated
  · intro key hk
    rw [hkey] at hk
    cases hk

theorem escalated_reads {reason : String} (htype : e.type_ = typeUnitEscalated)
    (hdecode : UnitEscalated.decode e.data = some ⟨u.unit, reason⟩)
    (hkey : ∀ key, e.meta_[metaReplayKey]? = some key → ownKey u.unit key = false)
    (hat : reason = "" → ¬u.Stopped log → (u.unitOf log).attempts = u.plain + u.granted log) :
    Allowed u log runs e := by
  have hread : (RunState.unitEvent e).isSome = true := by
    unfold RunState.unitEvent
    rw [htype, hdecode]
    rfl
  obtain ⟨p, hp⟩ := Option.isSome_iff_exists.1 hread
  have hreason : reasonGiven u.unit e = some reason := by
    rw [reasonGiven, (movedTo_of_escalated htype).2, hdecode]
    exact if_pos rfl
  refine .of_kept (by rw [htype]; decide) hp (by rw [htype]; decide) (by rw [htype]; decide) ?_ ?_
  · intro _ hstopped
    by_cases hempty : reason = ""
    · exact hat hempty (mt stopped_concat hstopped)
    · exact absurd ⟨e, by simp, reason, hreason, hempty⟩ hstopped
  · intro key hk hown
    rw [hkey key hk] at hown
    cases hown

theorem allowed_escalated (mint : Mint)
    (hat : ¬u.Stopped log → (u.unitOf log).attempts = u.plain + u.granted log) :
    Allowed u log runs (Trial.escalatedEvent u mint) := by
  have hdecode : UnitEscalated.decode (Trial.escalatedEvent u mint).data = some ⟨u.unit, ""⟩ := by
    rw [Trial.escalatedEvent, eventWithMeta_data]
    rfl
  refine escalated_reads (eventWithMeta_type ..) hdecode ?_ fun _ => hat
  · intro key hk
    rw [Trial.escalatedEvent, eventWithMeta_unkeyed _ _ _ (by simp)] at hk
    cases hk

theorem infraMark_of_members {status : String} {attempt : Nat} {v n : Json}
    (htype : e.type_ = typeUnitStatus) (hdata : e.data = .json v)
    (hunit : (v.get "id").bind Json.asStr = some unit)
    (hsaid : (v.get "status").bind Json.asStr = some status) (hget : v.get "attempt" = some n)
    (hattempt : n.asUnsigned 64 = some attempt)
    (hstatus : status = statusInfraRetry ∨ status = statusInfraHalt) :
    infraMark unit e = some (status, attempt) := by
  rw [infraMark, if_pos htype, hdata, Data.value, Option.bind_some, if_pos hunit, hsaid,
    Option.bind_some, if_pos hstatus, hget, Option.bind_some, hattempt]
  rfl

/-- A mark of an infra rerun or of a halt, of an attempt a `u64` holds. -/
theorem mark_reads {status detail : String} {attempt : Nat} (htype : e.type_ = typeUnitStatus)
    (hdata : e.data = .json (.obj [("id", .str u.unit),
      ("status", .str status), ("attempt", .num attempt),
      ("evidence", .obj [(status, .str detail)])]))
    (hstatus : status = statusInfraRetry ∨ status = statusInfraHalt) (hsmall : attempt < 2 ^ 64) :
    infraMark u.unit e = some (status, attempt) ∧ statusMoved u.unit e = none ∧
      (RunState.unitEvent e).isSome = true := by
  have hdecode : UnitStatus.decode e.data = some ⟨u.unit, status, [(status, detail)]⟩ := by
    rw [hdata]
    rfl
  refine ⟨?_, ?_, ?_⟩
  · exact infraMark_of_members htype hdata rfl rfl rfl (asUnsigned_num hsmall) hstatus
  · have hparse : Status.parse status = none := by
      rcases hstatus with rfl | rfl <;> decide
    rw [statusMoved, movedTo, htype, hdecode]
    simp +decide [ofUnit, hparse]
  · unfold RunState.unitEvent
    rw [htype, hdecode]
    rfl

end

/-! ## The process -/

/-- A loop stands at the count the log holds: below the bound its process was handed away from its
head, and at the bound once its decision is to escalate. -/
structure LoopState.Sound (u : Setup) (log : List Event) (p : Attempting)
    (l : LoopState) : Prop where
  attempts : l.attempts = (u.unitOf log).attempts
  infra : l.infra.ordinal ≤ u.reruns log l.attempts
  events : l.events <+: log
  running : Trial.atHead l = false → l.attempts < u.maxRetriesFor p.prior
  charged : ∀ d, l.place = .charged d → l.attempts ≤ u.maxRetriesFor p.prior ∧
    (d = .escalate ↔ u.maxRetriesFor p.prior ≤ l.attempts)

/-- While the unit is not settled, the bound and, before a loop, the count are the fold's. -/
structure Attempting.Sound (u : Setup) (log : List Event) (p : Attempting) : Prop where
  settled : p.terminal = true → p.loop = none
  live : p.terminal = false → (u.unitOf log).status ≠ .escalated ∧
    (p.prior.unitAt u.unit).resumeBound = (u.unitOf log).resumeBound ∧
    (p.loop = none → (p.prior.unitAt u.unit).attempts = (u.unitOf log).attempts)
  loop : ∀ l, p.loop = some l → l.Sound u log p

structure Trial.Sound (u : Setup) (w : Trial) : Prop where
  counted : Counted u w.log w.runs
  proc : ∀ p, w.proc = some p → p.Sound u w.log
  made : ∀ p l, w.proc = some p → p.loop = some l → atHead l = false →
    ∃ r ∈ w.runs, r.attempt = l.attempts

section
variable {u : Setup} {log : List Event} {runs : List Run}

theorem not_names {unit : String} {e : Event} (h : names unit e = false) :
    statusMoved unit e = none ∧ ofUnit unit (RunState.charged e) = none ∧
      ofUnit unit (RunState.granted e) = none := by
  unfold statusMoved
  by_cases htype : e.type_ ∈ RunState.unitTypes
  · cases hread : RunState.unitEvent e with
    | none =>
      obtain ⟨hmoved, hcharged, hgranted⟩ := RunState.unitEvent_eq_none htype hread
      rw [hmoved, hcharged, hgranted]
      exact ⟨rfl, rfl, rfl⟩
    | some p =>
      have hid : p.1 ≠ unit := by
        rintro rfl
        simp [names, hread, htype] at h
      rw [ofUnit_eq (RunState.unitEvent_writes htype hread).1,
        ofUnit_eq (RunState.unitEvent_counts htype hread).1,
        ofUnit_eq (RunState.unitEvent_counts htype hread).2.1, if_neg hid, if_neg hid, if_neg hid]
      exact ⟨rfl, rfl, rfl⟩
  · rw [(movedTo_of_not_unit htype).1, (RunState.charged_of_not_unit htype).1,
      (RunState.charged_of_not_unit htype).2]
    exact ⟨rfl, rfl, rfl⟩

variable {p : Attempting}

/-- An event that neither charges, grants nor escalates leaves a process as it was. -/
theorem Attempting.Sound.concat (h : p.Sound u log) {e : Event}
    (hmoved : statusMoved u.unit e ≠ some .escalated)
    (hcharge : ofUnit u.unit (RunState.charged e) = none)
    (hgrant : ofUnit u.unit (RunState.granted e) = none) : p.Sound u (log ++ [e]) := by
  obtain ⟨hstatus, hattempts, hbound⟩ := RunState.written_fields u.unit e (u.unitOf log)
  rw [← unitOf_concat] at hstatus hattempts hbound
  rw [hcharge, Option.getD_none] at hattempts
  rw [hgrant, Option.map_none, Option.getD_none] at hbound
  refine ⟨h.settled, fun hlive => ?_, fun l hl => ?_⟩
  · obtain ⟨hne, hresume, hcount⟩ := h.live hlive
    rw [hbound, hattempts, hstatus]
    refine ⟨?_, hresume, hcount⟩
    cases hm : statusMoved u.unit e with
    | none => exact hne
    | some status => exact fun heq => hmoved (hm.trans (congrArg some heq))
  · obtain ⟨hat, hinfra, hevents, hrunning, hcharged⟩ := h.loop l hl
    exact ⟨hat.trans hattempts.symm, hinfra.trans (reruns_le_append u log [e] _),
      hevents.trans (List.prefix_append _ _), hrunning, hcharged⟩

theorem Attempting.Sound.bound (h : p.Sound u log) (hc : Counted u log runs)
    (hlive : p.terminal = false) : u.maxRetriesFor p.prior ≤ u.plain + u.granted log := by
  have := hc.bound
  rw [Setup.maxRetriesFor, (h.live hlive).2.1]
  omega

theorem Attempting.Sound.small (h : p.Sound u log) (hc : Counted u log runs)
    (hlive : p.terminal = false) : u.maxRetriesFor p.prior < 2 ^ 32 := by
  have hsmall := hc.small
  have hplain : u.plain < 2 ^ 32 := UInt32.toNat_lt _
  rw [Setup.maxRetriesFor, (h.live hlive).2.1]
  omega

theorem attempting_sound_of_settled (hterminal : p.terminal = true) (hloop : p.loop = none) :
    p.Sound u log where
  settled := fun _ => hloop
  live := fun hlive => by
    rw [hterminal] at hlive
    cases hlive
  loop := fun l hl => by
    rw [hloop] at hl
    cases hl

theorem Counted.highWater_le (h : Counted u log runs) :
    (gateVerdictHighWater ((log.filterMap gateVerdictOf).map Prod.fst) u.unit).getD 0 ≤
      (u.unitOf log).attempts := by
  cases hmax : gateVerdictHighWater ((log.filterMap gateVerdictOf).map Prod.fst) u.unit with
  | none => exact Nat.zero_le _
  | some n =>
    obtain ⟨key, hkey, hattempt⟩ := List.mem_filterMap.1 (List.max?_mem hmax)
    obtain ⟨hmem, hunit⟩ := List.mem_filter.1 hkey
    obtain ⟨x, hx, rfl⟩ := List.mem_map.1 hmem
    obtain ⟨e, he, hverdict⟩ := List.mem_filterMap.1 hx
    exact h.verdicts e he x n hverdict (by simpa using hunit) hattempt

end

namespace Trial

variable {u : Setup} {w : Trial} {p : Attempting} {l : LoopState}

theorem sound_new : Trial.new.Sound u where
  counted := counted_nil
  proc := fun _ hp => nomatch hp
  made := fun _ _ hp => nomatch hp

theorem sound_start (h : w.Sound u) :
    ({ w with proc := (project w.log).map fun prior =>
      ⟨prior, prior.isTerminal u.unit, none⟩ } : Trial).Sound u where
  counted := h.counted
  proc := fun p hp => by
    obtain ⟨prior, hprior, rfl⟩ := Option.map_eq_some_iff.1 hp
    refine ⟨fun _ => rfl, fun hlive => ?_, fun l hl => nomatch hl⟩
    have hunit := project_unitAt (u := u) hprior
    have hterminal : ¬prior.isTerminal u.unit = true := by
      rw [show prior.isTerminal u.unit = false from hlive]
      decide
    rw [RunState.isTerminal_iff, hunit, not_or] at hterminal
    exact ⟨hterminal.2, by rw [hunit], fun _ => by rw [hunit]⟩
  made := fun p l hp hl => by
    obtain ⟨prior, -, rfl⟩ := Option.map_eq_some_iff.1 hp
    cases hl

theorem sound_record (h : w.Sound u) {e : Event}
    (he : recordable u.unit ((w.proc.bind Attempting.loop).bind fun l =>
      if l.place = .running then some l.attempts else none) e = true) :
    ({ w with log := w.log ++ [e] } : Trial).Sound u := by
  generalize hrun : ((w.proc.bind Attempting.loop).bind fun l =>
    if l.place = .running then some l.attempts else none) = running at he
  have hattempts : ∀ n, running = some n → n = (u.unitOf w.log).attempts := by
    rintro n rfl
    obtain ⟨l, hl, hn⟩ := Option.bind_eq_some_iff.1 hrun
    obtain ⟨p, hp, hloop⟩ := Option.bind_eq_some_iff.1 hl
    split at hn
    · exact (Option.some.inj hn).symm.trans ((h.proc p hp).loop l hloop).attempts
    · cases hn
  simp only [recordable, Bool.and_eq_true] at he
  obtain ⟨⟨⟨⟨hfolds, hinfra⟩, hkey⟩, hnames⟩, hverdict⟩ := he
  obtain ⟨hmoved, hcharge, hgrant⟩ : statusMoved u.unit e ≠ some .escalated ∧
      ofUnit u.unit (RunState.charged e) = none ∧ ofUnit u.unit (RunState.granted e) = none := by
    cases hn : names u.unit e with
    | false =>
      obtain ⟨hmoved, hcharge, hgrant⟩ := not_names hn
      rw [hmoved]
      exact ⟨nofun, hcharge, hgrant⟩
    | true =>
      rw [hn] at hnames
      simp only [Bool.not_true, Bool.false_or, Bool.and_eq_true, bne_iff_ne, ne_eq,
        Bool.or_eq_true, beq_iff_eq] at hnames
      obtain ⟨⟨-, hmoved⟩, htype⟩ := hnames
      refine ⟨hmoved, not_charged ?_, not_granted ?_⟩
      · rcases htype with ht | ht <;> rw [ht] <;> decide
      · rcases htype with ht | ht <;> rw [ht] <;> decide
  refine ⟨h.counted.concat ⟨hfolds, ?_, ?_, ?_, ?_, ?_⟩, fun p hp =>
    (h.proc p hp).concat hmoved hcharge hgrant, h.made⟩
  · intro n hn
    rw [hcharge] at hn
    cases hn
  · intro n hn
    rw [hgrant] at hn
    cases hn
  · intro x a hx hunit hattempt
    rw [hx] at hverdict
    simp only [Option.all_some, hunit, bne_self_eq_false, Bool.false_or, hattempt] at hverdict
    cases running with
    | none => cases hverdict
    | some n => exact hattempts n rfl ▸ of_decide_eq_true hverdict
  · exact fun hesc => absurd hesc hmoved
  · intro key hk hown
    rw [hk] at hkey
    simp [hown] at hkey

theorem sound_grant (h : w.Sound u) {mint : Mint} {granted : Nat} {run : RunState}
    (hrun : project w.log = some run) (hescalated : (run.unitAt u.unit).status = .escalated)
    (hclear : (run.unitAt u.unit).attempts + granted < 2 ^ 32) :
    ({ w with log := w.log ++ [resumedEvent u mint granted] } : Trial).Sound u where
  counted := by
    rw [project_unitAt hrun] at hescalated hclear
    exact h.counted.concat (allowed_resumed hclear fun hstopped =>
      h.counted.escalated hstopped hescalated)
  proc := fun p hp => by
    rw [project_unitAt hrun] at hescalated
    -- the unit is settled for a process that lives on
    cases hterminal : p.terminal with
    | true => exact attempting_sound_of_settled hterminal ((h.proc p hp).settled hterminal)
    | false => exact absurd hescalated ((h.proc p hp).live hterminal).1
  made := h.made

theorem sound_enter (h : w.Sound u) (hp : w.proc = some p) (hlive : p.terminal = false)
    (hloop : p.loop = none) (reviewed : Bool) : (w.enter u p reviewed).Sound u where
  counted := h.counted
  proc := fun p' hp' => by
    have hsound := h.proc p hp
    obtain ⟨hstatus, hbound, hcount⟩ := hsound.live hlive
    have hseed : u.seed p.prior w.log reviewed = (u.unitOf w.log).attempts := by
      have hle := h.counted.highWater_le
      unfold Setup.seed
      rw [hcount hloop]
      split
      · omega
      · rfl
    cases hp'
    refine ⟨fun hterminal => ?_, fun _ => ⟨hstatus, hbound, nofun⟩, fun l hl => ?_⟩
    · exact absurd (hlive.symm.trans hterminal) nofun
    · cases hl
      exact ⟨hseed, infraAt_le (List.prefix_refl _) _, List.prefix_refl _, nofun, nofun⟩
  made := fun p' l hp' hl haway => by
    cases hp'
    cases hl
    cases haway

theorem live_of_loop (h : w.Sound u) (hp : w.proc = some p) (hl : p.loop = some l) :
    p.terminal = false := by
  cases hterminal : p.terminal with
  | false => rfl
  | true =>
    have := (h.proc p hp).settled hterminal
    rw [hl] at this
    cases this

theorem sound_loop (h : w.Sound u) (hp : w.proc = some p) (hl : p.loop = some l) {l' : LoopState}
    (hl' : l'.Sound u w.log p) : ({ p with loop := some l' } : Attempting).Sound u w.log := by
  have hlive := live_of_loop h hp hl
  obtain ⟨hstatus, hbound, -⟩ := (h.proc p hp).live hlive
  refine ⟨fun hterminal => absurd (hlive.symm.trans hterminal) nofun,
    fun _ => ⟨hstatus, hbound, nofun⟩, fun _ hx => ?_⟩
  cases hx
  exact ⟨hl'.attempts, hl'.infra, hl'.events, hl'.running, hl'.charged⟩

theorem sound_running (h : w.Sound u) (hp : w.proc = some p) (hl : p.loop = some l) {l' : LoopState}
    (hat : l'.attempts = (u.unitOf w.log).attempts)
    (hinfra : l'.infra.ordinal ≤ u.reruns w.log l'.attempts) (hevents : l'.events <+: w.log)
    (hlt : l'.attempts < u.maxRetriesFor p.prior) : (w.running p l').Sound u where
  counted := by
    have hbound := (h.proc p hp).bound h.counted (live_of_loop h hp hl)
    exact h.counted.ran (hlt.trans_le hbound) hinfra
  proc := fun p' hp' => by
    cases hp'
    exact sound_loop h hp hl ⟨hat, hinfra, hevents, fun _ => hlt, nofun⟩
  made := fun p' x hp' hx _ => by
    cases hp'
    cases hx
    exact ⟨_, List.mem_concat_self, rfl⟩

theorem sound_settle (h : w.Sound u) {e : Event} (he : Allowed u w.log w.runs e) :
    (w.settle p [e]).Sound u where
  counted := h.counted.concat he
  proc := fun p' hp' => by
    cases hp'
    exact attempting_sound_of_settled rfl rfl
  made := fun p' l hp' hl => by
    cases hp'
    cases hl

theorem sound_marked (h : w.Sound u) (hp : w.proc = some p) (hl : p.loop = some l)
    (haway : atHead l = false) {status : String}
    (hstatus : status = statusInfraRetry ∨ status = statusInfraHalt) (mint : Mint)
    (detail : String) :
    ({ w with log := w.log ++ w.infraMarked u mint status l detail } : Trial).Sound u ∧
      (status = statusInfraRetry → l.infra.ordinal <
        u.reruns (w.log ++ w.infraMarked u mint status l detail) l.attempts) := by
  have hlive := live_of_loop h hp hl
  have hloop := (h.proc p hp).loop l hl
  have hsmall : l.attempts < 2 ^ 64 := by
    have := hloop.running haway
    have := (h.proc p hp).small h.counted hlive
    omega
  unfold infraMarked emitKeyed keyedEvent
  split
  case isTrue hheld =>
    rw [Option.toList_none, List.append_nil]
    refine ⟨h, ?_⟩
    rintro rfl
    exact h.counted.marked _ _ (List.contains_iff_mem.1 hheld)
  case isFalse =>
    rw [Option.toList_some]
    generalize he : eventWithMeta mint typeUnitStatus _ _ = e
    have htype : e.type_ = typeUnitStatus := he ▸ eventWithMeta_type ..
    obtain ⟨hmark, hmoved, hread⟩ :=
      mark_reads (u := u) htype (he ▸ eventWithMeta_data ..) hstatus hsmall
    obtain ⟨q, hq⟩ := Option.isSome_iff_exists.1 hread
    have hfailed : e.type_ ≠ typeUnitFailed := by rw [htype]; decide
    have hresumed : e.type_ ≠ typeUnitResumed := by rw [htype]; decide
    have hallowed : Allowed u w.log w.runs e := by
      refine .of_kept (by rw [htype]; decide) hq hfailed hresumed (fun hesc => ?_) ?_
      · rw [hmoved] at hesc
        cases hesc
      · intro key hk hown
        rw [← he] at hk
        have hkey := eventWithMeta_key (List.forall_mem_nil _) hk
        rcases hstatus with rfl | rfl
        · exact ⟨_, _, hkey, hloop.infra, hmark⟩
        · rw [hkey, not_ownKey_halt] at hown
          cases hown
    refine ⟨⟨h.counted.concat hallowed, fun p' hp' => ?_, h.made⟩, ?_⟩
    · refine (h.proc p' hp').concat ?_ (not_charged hfailed) (not_granted hresumed)
      rw [hmoved]
      exact nofun
    · rintro rfl
      have := hloop.infra
      rw [reruns_concat, if_pos hmark]
      omega

theorem sound_infra (h : w.Sound u) (hp : w.proc = some p) (hl : p.loop = some l)
    (hplace : l.place = .running) (mint : Mint) (detail : String) :
    (w.infra u p l mint detail).Sound u := by
  have haway : atHead l = false := by rw [atHead, hplace]
  obtain ⟨hmarked, hordinal⟩ := sound_marked h hp hl haway (.inl rfl) mint detail
  have hloop := (hmarked.proc p hp).loop l hl
  unfold infra
  dsimp only
  split
  · refine sound_running hmarked hp hl hloop.attempts ?_ hloop.events (hloop.running haway)
    exact hordinal rfl
  · refine ⟨hmarked.counted, fun p' hp' => ?_, fun p' x hp' hx _ => ?_⟩
    · cases hp'
      exact sound_loop hmarked hp hl ⟨hloop.attempts, hloop.infra, hloop.events,
        fun _ => hloop.running haway, nofun⟩
    · cases hp'
      cases hx
      exact h.made p l hp hl haway

theorem sound_proceed (h : w.Sound u) (hp : w.proc = some p) (hl : p.loop = some l) (mint : Mint)
    (hclear : l.place = .entered → l.attempts < u.maxRetriesFor p.prior) :
    (w.proceed u p l mint).Sound u := by
  have hloop := (h.proc p hp).loop l hl
  unfold proceed
  split
  next => exact h
  next hplace =>
    exact sound_running h hp hl hloop.attempts hloop.infra hloop.events (hclear hplace)
  next hplace =>
    obtain ⟨hle, hat⟩ := hloop.charged _ hplace
    refine sound_running h hp hl hloop.attempts hloop.infra hloop.events ?_
    exact Nat.lt_of_not_le fun hmax => nomatch hat.2 hmax
  next hplace =>
    obtain ⟨hle, hat⟩ := hloop.charged _ hplace
    refine sound_settle h (allowed_escalated mint fun hstopped => ?_)
    have hbound := ((h.proc p hp).live (live_of_loop h hp hl)).2.1
    have hgranted := h.counted.granted hstopped
    rw [← hloop.attempts, le_antisymm hle (hat.1 rfl), Setup.maxRetriesFor, hbound, hgranted]
  next detail hplace =>
    have haway : atHead l = false := by rw [atHead, hplace]
    obtain ⟨hmarked, -⟩ := sound_marked h hp hl haway (.inr rfl) mint detail
    exact ⟨hmarked.counted, fun _ hp' => (nomatch hp'), fun _ _ hp' => (nomatch hp')⟩

theorem allowed_charge (h : w.Sound u) (hp : w.proc = some p) (hl : p.loop = some l)
    (haway : atHead l = false) {mint : Mint} {failure : PriorFailure} {cause : String}
    {extra : List (String × String)} (hkey : ∀ key, (eventWithMeta mint typeUnitFailed
      (failure.failedBody u.unit (l.attempts + 1) cause) extra).meta_[metaReplayKey]? = some key →
        key = failedKey u.unit l.attempts) :
    Allowed u w.log w.runs (eventWithMeta mint typeUnitFailed
      (failure.failedBody u.unit (l.attempts + 1) cause) extra) := by
  have hlive := live_of_loop h hp hl
  have hloop := (h.proc p hp).loop l hl
  have hlt := hloop.running haway
  have hbound := (h.proc p hp).bound h.counted hlive
  have hsmall := (h.proc p hp).small h.counted hlive
  have hmade := h.made p l hp hl haway
  rw [hloop.attempts] at hlt hmade hkey ⊢
  exact allowed_failed (hlt.trans_le hbound) (by omega) hmade hkey

theorem charged_failed {e : Event} {failure : PriorFailure} {cause : String} {n : Nat}
    (htype : e.type_ = typeUnitFailed) (hdata : e.data = .json (failure.failedBody u.unit n cause))
    (hsmall : n < 2 ^ 32) : ofUnit u.unit (RunState.charged e) = some n := by
  rw [RunState.charged, if_pos htype, hdata, decode_failedBody failure u.unit cause hsmall]
  exact if_pos rfl

/-- A loop records the charge of its attempt: nothing was under its key before. -/
theorem failed_eq (h : w.Sound u) (hp : w.proc = some p) (hl : p.loop = some l) (mint : Mint)
    (failure : PriorFailure) (cause sha : String) :
    ∃ extra, w.failed u mint l.attempts failure cause sha =
        [eventWithMeta mint typeUnitFailed
        (failure.failedBody u.unit (l.attempts + 1) cause) extra] ∧
      ∀ key, (eventWithMeta mint typeUnitFailed
        (failure.failedBody u.unit (l.attempts + 1) cause) extra).meta_[metaReplayKey]? = some key →
          key = failedKey u.unit l.attempts := by
  have hfresh : (seededKeys w.log).contains (failedKey u.unit l.attempts) = false := by
    rw [List.contains_eq_mem, decide_eq_false_iff_not]
    intro hmem
    have := h.counted.failed _ hmem
    rw [((h.proc p hp).loop l hl).attempts] at this
    exact lt_irrefl _ this
  have hsha : ∀ kv ∈ [(metaWorktreeSha, sha)], kv.1 ≠ metaReplayKey := by
    intro kv hkv
    rw [List.mem_singleton.1 hkv]
    show metaWorktreeSha ≠ metaReplayKey
    decide
  unfold failed emitKeyed keyedEvent
  cases u.loop with
  | implement =>
    refine ⟨_, rfl, fun key hk => ?_⟩
    rw [eventWithMeta_unkeyed _ _ _ hsha] at hk
    cases hk
  | fanOut =>
    refine ⟨[(metaWorktreeSha, sha)] ++ [(metaReplayKey, failedKey u.unit l.attempts)], ?_,
      fun key hk => eventWithMeta_key hsha hk⟩
    dsimp only
    rw [hfresh]
    rfl
  | planCritique =>
    refine ⟨[] ++ [(metaReplayKey, failedKey u.unit l.attempts)], ?_,
      fun key hk => eventWithMeta_key (List.forall_mem_nil _) hk⟩
    dsimp only
    rw [hfresh]
    rfl

theorem sound_fail (h : w.Sound u) (hp : w.proc = some p) (hl : p.loop = some l)
    (hplace : l.place = .running) (mint : Mint) (failure : PriorFailure) (cause sha : String) :
    (w.fail u p l mint failure cause sha).Sound u := by
  have haway : atHead l = false := by rw [atHead, hplace]
  have hlive := live_of_loop h hp hl
  have hloop := (h.proc p hp).loop l hl
  have hlt := hloop.running haway
  have hsmall := (h.proc p hp).small h.counted hlive
  unfold fail
  split
  · refine sound_settle h (allowed_charge h hp hl haway fun key hk => ?_)
    rw [eventWithMeta_unkeyed] at hk
    · cases hk
    · intro kv hkv
      rw [List.mem_singleton.1 hkv]
      show metaWorktreeSha ≠ metaReplayKey
      decide
  · obtain ⟨extra, hfailed, hkey⟩ := failed_eq h hp hl mint failure cause sha
    have hallowed := allowed_charge h hp hl haway hkey
    have hcharged := charged_failed (u := u) (eventWithMeta_type mint typeUnitFailed
      (failure.failedBody u.unit (l.attempts + 1) cause) extra) (eventWithMeta_data ..) (by omega)
    dsimp only
    rw [hfailed]
    generalize eventWithMeta mint typeUnitFailed
      (failure.failedBody u.unit (l.attempts + 1) cause) extra = e at hallowed hcharged ⊢
    obtain ⟨hmoved, hgrant⟩ := charged_moves hcharged
    obtain ⟨hstatus, hattempts, hbound⟩ := RunState.written_fields u.unit e (u.unitOf w.log)
    rw [← unitOf_concat] at hstatus hattempts hbound
    rw [hcharged, Option.getD_some] at hattempts
    rw [hmoved, Option.getD_some] at hstatus
    rw [hgrant, Option.map_none, Option.getD_none] at hbound
    obtain ⟨-, hresume, -⟩ := (h.proc p hp).live hlive
    refine ⟨h.counted.concat hallowed, fun p' hp' => ?_, fun p' x hp' hx haway' => ?_⟩
    · cases hp'
      refine ⟨fun hterminal => absurd (hlive.symm.trans hterminal) nofun, fun _ => ⟨?_, ?_, nofun⟩,
        fun x hx => ?_⟩
      · rw [hstatus]
        exact nofun
      · rw [hbound, hresume]
      · cases hx
        refine ⟨hattempts.symm, ?_, hloop.events.trans (List.prefix_append _ _), nofun, ?_⟩
        · exact infraAt_le (hloop.events.trans (List.prefix_append _ _)) _
        · intro d hd
          cases hd
          exact ⟨hlt, remediate_escalates _ _⟩
    · cases hp'
      cases hx
      cases haway'

theorem sound_stop (h : w.Sound u) (mint : Mint) (spec : String) (upheld : List String) :
    (w.stop u p l mint spec upheld).Sound u := by
  unfold stop
  dsimp only
  split
  case isFalse => exact h
  case isTrue hfresh =>
    rw [Bool.and_eq_true, Bool.not_eq_true'] at hfresh
    unfold emitKeyed keyedEvent
    rw [hfresh.2]
    refine sound_settle h (escalated_reads (eventWithMeta_type ..)
      (?_ : UnitEscalated.decode _ = some ⟨u.unit, specDefectHalt spec upheld⟩) ?_ ?_)
    · rw [eventWithMeta_data]
      rfl
    · intro key hk
      rw [eventWithMeta_key (List.forall_mem_nil _) hk]
      exact not_ownKey_specDefect _ _
    · exact fun hempty => absurd hempty (specDefectHalt_ne_empty spec upheld)

end Trial

/-! ## Runs -/

/-- No loop runs the attempt it was entered at where its bound is used up, and a grant's sum is one
a `u32` holds. -/
def Clear (u : Setup) (w : Trial) (a : Move) : Prop :=
  match a with
  | .proceed _ => ∀ p ∈ w.proc, ∀ l ∈ p.loop, l.place = .entered →
      l.attempts < u.maxRetriesFor p.prior
  | .grant _ n => ∀ run ∈ project w.log, (run.unitAt u.unit).attempts + n < 2 ^ 32
  | _ => True

instance (u : Setup) (w : Trial) (a : Move) : Decidable (Clear u w a) := by
  unfold Clear
  split <;> infer_instance

theorem step_sound (u : Setup) (w : Trial) (a : Move) (hclear : Clear u w a) (h : w.Sound u) :
    (w.step u a).Sound u := by
  unfold Trial.step
  split
  next => exact Trial.sound_start h
  next => exact ⟨h.counted, fun _ hp => (nomatch hp), fun _ _ hp => (nomatch hp)⟩
  next e proc hproc =>
    dsimp only
    split
    next he => exact Trial.sound_record h he
    next => exact h
  next mint granted _ =>
    split
    next hgrant =>
      obtain ⟨run, hrun, hescalated⟩ := (Option.any_eq_true _ _).1 (Bool.and_eq_true_iff.1 hgrant).2
      exact Trial.sound_grant h hrun (by simpa using hescalated) (hclear run hrun)
    next => exact h
  next reviewed p hp =>
    split
    next henter =>
      simp only [Bool.and_eq_true, Bool.not_eq_true', Option.isNone_iff_eq_none] at henter
      exact Trial.sound_enter h hp henter.1.1 henter.1.2 reviewed
    next => exact h
  next mint detail p hp =>
    split
    next l hl =>
      split
      next hplace => exact Trial.sound_infra h hp hl hplace.2 mint detail
      next => exact h
    next => exact h
  next mint failure cause sha p hp =>
    split
    next l hl =>
      split
      next hplace => exact Trial.sound_fail h hp hl hplace mint failure cause sha
      next => exact h
    next => exact h
  next mint commit p hp =>
    split
    next l hl =>
      split
      next hplace => exact Trial.sound_settle h (allowed_integrated mint commit)
      next => exact h
    next => exact h
  next mint p hp =>
    split
    next l hl => exact Trial.sound_proceed h hp hl mint fun hplace => hclear p hp l hl hplace
    next => exact h
  next mint spec upheld p hp =>
    split
    next l hl =>
      split
      next => exact Trial.sound_stop h mint spec upheld
      next => exact h
    next => exact h
  next => exact h

theorem Trial.Sound.bounded {u : Setup} {w : Trial} (h : w.Sound u) : w.Bounded u where
  within := h.counted.within
  exhausted := fun hstopped hescalated k hk => by
    rw [← h.counted.escalated hstopped hescalated] at hk
    exact h.counted.made k hk
  charged := by rw [h.counted.charges, List.length_range']
  run := fun k hk => by
    rw [h.counted.charges, List.mem_range'_1] at hk
    obtain ⟨r, hr, hattempt⟩ := h.counted.made (k - 1) (by omega)
    exact ⟨r, hr, by omega⟩
  reran := h.counted.reran
  spawned := fun r hr r' hr' hattempt hnone => by
    have hfirst := h.counted.reran r hr
    have hsecond := h.counted.reran r' hr'
    rw [← hattempt] at hsecond
    have hordinal : r.ordinal = r'.ordinal := by omega
    unfold Run.implementer Run.reviewer
    rw [hattempt, hordinal]
    exact ⟨rfl, fun _ => rfl⟩

theorem remediation_bounded (u : Setup) {moves : List Move}
    (h : Along (Trial.step u) (Clear u) Trial.new moves) :
    (run (Trial.step u) Trial.new moves).Bounded u :=
  (run_invariant_along (step_sound u) h Trial.sound_new).bounded

/-- A review of a fan-out, with the bound neither its stage nor the defaults set. -/
def review : Setup := ⟨"u", .fanOut, 0, 0, 0⟩

def rejected : Move := .fail ("", 0) PriorFailure.none causeReject ""

def next : Move := .proceed ("", 0)

/-- Three rejects, the third of which is charged in the process that crashes. -/
def threeRejects : List Move :=
  [.start, .enter false, next, rejected, next, rejected, next, rejected]

/-- Escalated at its bound, granted one attempt, and escalated again. -/
def grantedOnce : List Move :=
  threeRejects ++ [next, .grant ("", 0) 1, .exit, .start, .enter false, next, rejected, next]

theorem grantedOnce_bounded : (run (Trial.step review) Trial.new grantedOnce).Bounded review :=
  remediation_bounded review (by decide +kernel)

/-- The process crashes before it escalates, and the next one runs the unit again. -/
def resumedAtBound : List Move := threeRejects ++ [.exit, .start, .enter false, next]

theorem remediation_not_bounded :
    ¬(run (Trial.step review) Trial.new resumedAtBound).Bounded review := by
  intro h
  have hpast : ((run (Trial.step review) Trial.new resumedAtBound).runs.any fun r =>
      review.plain + review.granted (run (Trial.step review) Trial.new resumedAtBound).log ≤
        r.attempt) = true := by decide +kernel
  obtain ⟨r, hr, hle⟩ := List.any_eq_true.1 hpast
  exact absurd (h.within r hr) (Nat.not_lt_of_le (of_decide_eq_true hle))

end Rigger.Conductor
