import Mathlib.Algebra.Ring.Nat
import Mathlib.Data.Finset.Card
import Mathlib.Data.List.Dedup
import Mathlib.Order.Lattice
import Rigger.Lib.Run

/-!
# The spawn budget (`rigger-conductor/src/conductor.rs`, `rigger-domain/src/{spawn,safety}.rs`)

A process seeds its count with the distinct spawn requests the run's log holds, charges every
admission of an id that was not among them, and refuses a new id once the count has reached the
budget.  A refusal, or a budget spent by this process, trips the breaker at the next boundary.

`reserve_within_budget`: over every run of processes that record what they park, the distinct ids
held by the log or admitted by the running process stay within the budget, or within what the log
held at the start.
-/

namespace Rigger.Conductor.Budget

open Lib

def budgetExhaustedKey : String := "budget-exhausted"
def taskAbortedKey : String := "task-aborted"

/-- What the breaker reads and writes of a run's log: the spawn requests the drivers park, by id,
and the two records of a halt. -/
inductive Entry where
  | spawnRequested (id : String)
  | budgetExhausted (budget spawns : UInt32)
  | taskAborted (reason : String)
  | other
deriving DecidableEq

namespace Entry

def request : Entry → Option String
  | spawnRequested id => some id
  | _ => none

/-- The replay key the entry is emitted under. -/
def key : Entry → Option String
  | budgetExhausted _ _ => some budgetExhaustedKey
  | taskAborted _ => some taskAbortedKey
  | _ => none

def isExhausted : Entry → Bool
  | budgetExhausted _ _ => true
  | _ => false

end Entry

/-- `spawn::recorded`: the distinct ids the log holds a request of. -/
def recorded (log : List Entry) : List String := (log.filterMap Entry.request).dedup

def exhaustions (log : List Entry) : Nat := log.countP Entry.isExhausted

/-- `safety::budget_exhausted`. -/
def budgetExhausted (threshold spent : Int) : Bool := 0 < threshold && threshold ≤ spent

/-- What a process keeps of the budget.  `admitted` lists the ids it charged, latest first. -/
structure Process where
  budget : UInt32
  baseSpawns : UInt32
  recordedSpawnIds : List String
  spawns : UInt32
  replayedKeys : List String
  budgetBroke : Bool
  budgetHalted : Bool
  admitted : List String

namespace Process

/-- The seed of a process that begins or resumes the run. -/
def seeded (budget : UInt32) (log : List Entry) : Process where
  budget := budget
  baseSpawns := (recorded log).length.toUInt32
  recordedSpawnIds := recorded log
  spawns := (recorded log).length.toUInt32
  replayedKeys := log.filterMap Entry.key
  budgetBroke := false
  budgetHalted := false
  admitted := []

def charge (p : Process) (id : String) : Process :=
  { p with spawns := p.spawns + 1, admitted := id :: p.admitted }

def reserveSpawn (p : Process) (id : String) : Bool × Process :=
  if p.recordedSpawnIds.contains id then (true, p)
  else if p.budget = 0 then (true, p.charge id)
  else if p.spawns < p.budget then (true, p.charge id)
  else (false, { p with budgetBroke := true })

def budgetTripped (p : Process) : Bool :=
  0 < p.budget && p.baseSpawns < p.spawns && budgetExhausted p.budget.toNat p.spawns.toNat

/-- `emit_keyed`: an entry whose key was emitted before is not appended. -/
def emitKeyed (p : Process) (log : List Entry) (e : Entry) : Process × List Entry :=
  match e.key with
  | none => (p, log ++ [e])
  | some key =>
    if p.replayedKeys.contains key then (p, log)
    else ({ p with replayedKeys := key :: p.replayedKeys }, log ++ [e])

def tripBudgetBreaker (p : Process) (log : List Entry) : Process × List Entry :=
  let (p, log) := { p with budgetHalted := true }.emitKeyed log (.budgetExhausted p.budget p.spawns)
  p.emitKeyed log (.taskAborted "spawn budget exhausted")

end Process

/-- The run's log and the process that drives it.  `admitted` lists the ids charged in the run by
any of its processes. -/
structure World where
  log : List Entry
  process : Option Process
  admitted : List String

/-- `start` begins or resumes the run under the workflow's budget, wherever the process before it
stopped; admissions of concurrent stages are atomic, so they interleave as `reserve`s.  `park` is a
driver recording the request of a spawn the process admitted; `boundary` is a place where the run
loop asks whether to trip. -/
inductive Act where
  | start (budget : UInt32)
  | reserve (id : String)
  | park (id : String)
  | boundary
  | write
deriving DecidableEq

def step (w : World) : Act → World
  | .start budget => { w with process := some (Process.seeded budget w.log) }
  | .reserve id =>
    match w.process with
    | none => w
    | some p =>
      let charged := if (p.reserveSpawn id).1 && !p.recordedSpawnIds.contains id then [id] else []
      { w with process := some (p.reserveSpawn id).2, admitted := charged ++ w.admitted }
  | .park id =>
    match w.process with
    | none => w
    | some p =>
      if id ∈ p.admitted ∧ id ∉ recorded w.log then { w with log := w.log ++ [.spawnRequested id] }
      else w
  | .boundary =>
    match w.process with
    | none => w
    | some p =>
      if p.budgetTripped || p.budgetBroke then
        { w with
          process := some (p.tripBudgetBreaker w.log).1
          log := (p.tripBudgetBreaker w.log).2 }
      else w
  | .write => { w with log := w.log ++ [.other] }

/-- The distinct ids whose request the log holds or that the running process admitted. -/
def World.held (w : World) : Finset String :=
  (recorded w.log).toFinset ∪ (w.process.elim [] Process.admitted).toFinset

/-! ## What the log holds -/

variable {id : String} {a : Act}

theorem mem_recorded {log : List Entry} : id ∈ recorded log ↔ .spawnRequested id ∈ log := by
  unfold recorded
  rw [List.mem_dedup, List.mem_filterMap]
  constructor
  · rintro ⟨e, he, hid⟩
    cases e with
    | spawnRequested id' =>
      cases hid
      exact he
    | budgetExhausted _ _ => cases hid
    | taskAborted _ => cases hid
    | other => cases hid
  · intro h
    exact ⟨_, h, rfl⟩

theorem recorded_append {log extra : List Entry} (hextra : ∀ e ∈ extra, e.request = none) :
    recorded (log ++ extra) = recorded log := by
  unfold recorded
  rw [List.filterMap_append, List.filterMap_eq_nil_iff.2 hextra, List.append_nil]

theorem card_recorded (log : List Entry) : (recorded log).toFinset.card = (recorded log).length :=
  List.toFinset_card_of_nodup (List.nodup_dedup _)

/-! ## Admissions -/

namespace Process

/-- A replay is free; a new id is charged while the budget lasts, and refused after it. -/
theorem reserveSpawn_cases (p : Process) (id : String) :
    (id ∈ p.recordedSpawnIds ∧ p.reserveSpawn id = (true, p)) ∨
      (id ∉ p.recordedSpawnIds ∧ (p.budget = 0 ∨ p.spawns < p.budget) ∧
        p.reserveSpawn id = (true, p.charge id)) ∨
      (id ∉ p.recordedSpawnIds ∧ p.reserveSpawn id = (false, { p with budgetBroke := true })) := by
  unfold reserveSpawn
  by_cases hrecorded : id ∈ p.recordedSpawnIds
  · exact Or.inl ⟨hrecorded, if_pos (List.contains_iff_mem.2 hrecorded)⟩
  · rw [if_neg fun h => hrecorded (List.contains_iff_mem.1 h)]
    by_cases hzero : p.budget = 0
    · exact Or.inr (Or.inl ⟨hrecorded, Or.inl hzero, if_pos hzero⟩)
    · rw [if_neg hzero]
      by_cases hroom : p.spawns < p.budget
      · exact Or.inr (Or.inl ⟨hrecorded, Or.inr hroom, if_pos hroom⟩)
      · exact Or.inr (Or.inr ⟨hrecorded, if_neg hroom⟩)

theorem reserveSpawn_of_mem {p : Process} {id : String} (h : id ∈ p.recordedSpawnIds) :
    p.reserveSpawn id = (true, p) := if_pos (List.contains_iff_mem.2 h)

/-- An emit leaves the count alone, and appends its entry at most once. -/
theorem emitKeyed_spec (p : Process) (log : List Entry) {e : Entry} {key : String}
    (hkey : e.key = some key) : ∃ keys extra,
    p.emitKeyed log e = ({ p with replayedKeys := keys }, log ++ extra) ∧ key ∈ keys ∧
      p.replayedKeys ⊆ keys ∧ extra = if key ∈ p.replayedKeys then [] else [e] := by
  unfold emitKeyed
  rw [hkey]
  by_cases h : key ∈ p.replayedKeys
  · refine ⟨p.replayedKeys, [], ?_, h, fun _ hk => hk, (if_pos h).symm⟩
    rw [List.append_nil]
    exact if_pos (List.contains_iff_mem.2 h)
  · refine ⟨key :: p.replayedKeys, [e], ?_, List.mem_cons_self, List.subset_cons_self _ _,
      (if_neg h).symm⟩
    exact if_neg fun hc => h (List.contains_iff_mem.1 hc)

/-- A trip moves neither the count nor what it is charged against, and records the halt at most
once. -/
theorem tripBudgetBreaker_spec (p : Process) (log : List Entry) : ∃ keys extra,
    p.tripBudgetBreaker log =
      ({ p with budgetHalted := true, replayedKeys := keys }, log ++ extra) ∧
      (∀ e ∈ extra, e.request = none) ∧ budgetExhaustedKey ∈ keys ∧ p.replayedKeys ⊆ keys ∧
      exhaustions extra = if budgetExhaustedKey ∈ p.replayedKeys then 0 else 1 := by
  obtain ⟨keys, first, hfirst, hkey, hkeys, hfirst'⟩ :=
    emitKeyed_spec { p with budgetHalted := true }
    log (e := .budgetExhausted p.budget p.spawns) rfl
  obtain ⟨keys', second, hsecond, -, hkeys', hsecond'⟩ := emitKeyed_spec
    { p with budgetHalted := true, replayedKeys := keys } (log ++ first)
    (e := .taskAborted "spawn budget exhausted") rfl
  refine ⟨keys', first ++ second, ?_, ?_, hkeys' hkey, fun _ hk => hkeys' (hkeys hk), ?_⟩
  · unfold tripBudgetBreaker
    rw [hfirst, ← List.append_assoc]
    exact hsecond
  · intro e he
    rw [hfirst', hsecond'] at he
    rcases List.mem_append.1 he with he | he
    · split at he
      · cases he
      · cases List.mem_singleton.1 he
        rfl
    · split at he
      · cases he
      · cases List.mem_singleton.1 he
        rfl
  · have habort : exhaustions second = 0 := by
      rw [hsecond']
      split
      · rfl
      · rfl
    have happend : exhaustions (first ++ second) = exhaustions first + exhaustions second :=
      List.countP_append
    rw [happend, habort, Nat.add_zero, hfirst']
    split
    · rfl
    · rfl

end Process

/-! ## The count stays within the budget -/

/-- A process's count is what it found recorded and what it charged, never past the budget unless
the log already was; every recorded request is one of the two. -/
structure Tallied (p : Process) (log : List Entry) : Prop where
  base : p.baseSpawns.toNat = p.recordedSpawnIds.length
  spawns : p.spawns.toNat = p.recordedSpawnIds.length + p.admitted.length
  within : p.spawns.toNat ≤ max p.recordedSpawnIds.length p.budget.toNat
  covered : ∀ id ∈ recorded log, id ∈ p.recordedSpawnIds ∨ id ∈ p.admitted

namespace Tallied

variable {p : Process} {log : List Entry}

theorem seeded {budget : UInt32} (hlog : (recorded log).length < 2 ^ 32) :
    Tallied (Process.seeded budget log) log where
  base := UInt32.toNat_ofNat_of_lt' hlog
  spawns := UInt32.toNat_ofNat_of_lt' hlog
  within := (UInt32.toNat_ofNat_of_lt' hlog).le.trans (le_max_left _ _)
  covered _ hid := Or.inl hid

theorem charge (h : Tallied p log) (hroom : p.spawns < p.budget) (id : String) :
    Tallied (p.charge id) log := by
  have hlt : p.spawns.toNat < p.budget.toNat := hroom
  have hnext : (p.spawns + 1).toNat = p.spawns.toNat + 1 := by
    rw [UInt32.toNat_add]
    exact Nat.mod_eq_of_lt (by have := p.budget.toNat_lt; simp; omega)
  exact
    { base := h.base
      spawns := by
        show (p.spawns + 1).toNat = p.recordedSpawnIds.length + (p.admitted.length + 1)
        rw [hnext, h.spawns, Nat.add_assoc]
      within := by
        show (p.spawns + 1).toNat ≤ _
        rw [hnext]
        exact (Nat.succ_le_of_lt hlt).trans (le_max_right _ _)
      covered := fun i hi => (h.covered i hi).imp_right (List.mem_cons_of_mem _) }

theorem append (h : Tallied p log) (extra : List Entry) (hextra : ∀ e ∈ extra, e.request = none) :
    Tallied p (log ++ extra) where
  base := h.base
  spawns := h.spawns
  within := h.within
  covered := by
    rw [recorded_append hextra]
    exact h.covered

theorem park (h : Tallied p log) {id : String} (hid : id ∈ p.admitted) :
    Tallied p (log ++ [.spawnRequested id]) := by
  refine ⟨h.base, h.spawns, h.within, fun i hi => ?_⟩
  rw [mem_recorded, List.mem_append, List.mem_singleton] at hi
  rcases hi with hi | hi
  · exact h.covered i (mem_recorded.2 hi)
  · cases hi
    exact Or.inr hid

theorem held_le (h : Tallied p log) :
    ((recorded log).toFinset ∪ p.admitted.toFinset).card ≤ p.spawns.toNat := by
  have hsub : (recorded log).toFinset ∪ p.admitted.toFinset ⊆
      p.recordedSpawnIds.toFinset ∪ p.admitted.toFinset := by
    intro id hid
    rw [Finset.mem_union, List.mem_toFinset, List.mem_toFinset] at hid ⊢
    exact hid.elim (h.covered id) Or.inr
  calc ((recorded log).toFinset ∪ p.admitted.toFinset).card
      ≤ (p.recordedSpawnIds.toFinset ∪ p.admitted.toFinset).card := Finset.card_le_card hsub
    _ ≤ p.recordedSpawnIds.toFinset.card + p.admitted.toFinset.card := Finset.card_union_le _ _
    _ ≤ p.recordedSpawnIds.length + p.admitted.length :=
      Nat.add_le_add (List.toFinset_card_le _) (List.toFinset_card_le _)
    _ = p.spawns.toNat := h.spawns.symm

end Tallied

/-! ## One step -/

/-- Every process runs under a budget that is not 0, and the ids held are at most `most`. -/
structure Kept (most : Nat) (w : World) : Prop where
  held : w.held.card ≤ most
  process : ∀ p, w.process = some p → p.budget ≠ 0 ∧ Tallied p w.log ∧
    max p.recordedSpawnIds.length p.budget.toNat ≤ most

namespace Kept

variable {most : Nat} {w : World} {p : Process}

theorem of_tallied (hw : w.process = some p) (hbudget : p.budget ≠ 0) (h : Tallied p w.log)
    (hmost : max p.recordedSpawnIds.length p.budget.toNat ≤ most) : Kept most w where
  held := by
    rw [World.held, hw]
    exact (h.held_le.trans h.within).trans hmost
  process q hq := by
    cases hw.symm.trans hq
    exact ⟨hbudget, h, hmost⟩

theorem recorded_le (h : Kept most w) : (recorded w.log).length ≤ most := by
  rw [← card_recorded]
  exact (Finset.card_le_card Finset.subset_union_left).trans h.held

theorem start (h : Kept most w) (hmost : most < 2 ^ 32) {budget : UInt32} (hbudget : budget ≠ 0)
    (hle : budget.toNat ≤ most) : Kept most (step w (.start budget)) := by
  refine of_tallied (p := Process.seeded budget w.log) rfl hbudget ?_ ?_
  · exact Tallied.seeded (Nat.lt_of_le_of_lt h.recorded_le hmost)
  · exact max_le h.recorded_le hle

theorem reserve (h : Kept most w) (id : String) : Kept most (step w (.reserve id)) := by
  cases hw : w.process with
  | none =>
    rw [show step w (.reserve id) = w by simp only [step, hw]]
    exact h
  | some p =>
    obtain ⟨hbudget, htally, hmost⟩ := h.process p hw
    have hstep : (step w (.reserve id)).process = some (p.reserveSpawn id).2 ∧
        (step w (.reserve id)).log = w.log := by simp only [step, hw, and_self]
    rcases p.reserveSpawn_cases id with ⟨-, heq⟩ | ⟨-, hroom, heq⟩ | ⟨-, heq⟩
    · rw [heq] at hstep
      exact of_tallied hstep.1 hbudget (hstep.2.symm ▸ htally) hmost
    · rw [heq] at hstep
      exact of_tallied hstep.1 hbudget
        (hstep.2.symm ▸ htally.charge (hroom.resolve_left hbudget) id) hmost
    · rw [heq] at hstep
      refine of_tallied hstep.1 hbudget (hstep.2.symm ▸ ?_) hmost
      exact ⟨htally.base, htally.spawns, htally.within, htally.covered⟩

theorem park (h : Kept most w) (id : String) : Kept most (step w (.park id)) := by
  cases hw : w.process with
  | none =>
    rw [show step w (.park id) = w by simp only [step, hw]]
    exact h
  | some p =>
    obtain ⟨hbudget, htally, hmost⟩ := h.process p hw
    by_cases hpark : id ∈ p.admitted ∧ id ∉ recorded w.log
    · rw [show step w (.park id) = { w with log := w.log ++ [.spawnRequested id] } by
        simp only [step, hw, if_pos hpark]]
      exact of_tallied hw hbudget (htally.park hpark.1) hmost
    · rw [show step w (.park id) = w by simp only [step, hw, if_neg hpark]]
      exact h

theorem boundary (h : Kept most w) : Kept most (step w .boundary) := by
  cases hw : w.process with
  | none =>
    rw [show step w .boundary = w by simp only [step, hw]]
    exact h
  | some p =>
    obtain ⟨hbudget, htally, hmost⟩ := h.process p hw
    cases htrip : p.budgetTripped || p.budgetBroke with
    | false =>
      rw [show step w .boundary = w by simp only [step, hw, htrip, Bool.false_eq_true, if_false]]
      exact h
    | true =>
      obtain ⟨keys, extra, heq, hextra, -⟩ := p.tripBudgetBreaker_spec w.log
      rw [show step w .boundary = { w with
          process := some { p with budgetHalted := true, replayedKeys := keys }
          log := w.log ++ extra } by simp only [step, hw, htrip, if_true, heq]]
      have happend := htally.append extra hextra
      exact of_tallied rfl hbudget
        ⟨happend.base, happend.spawns, happend.within, happend.covered⟩ hmost

theorem write (h : Kept most w) : Kept most (step w .write) := by
  cases hw : w.process with
  | none =>
    have hrecorded : recorded (w.log ++ [.other]) = recorded w.log :=
      recorded_append (by simp [Entry.request])
    refine ⟨?_, fun p hp => absurd (hw.symm.trans hp) nofun⟩
    show ((recorded (w.log ++ [.other])).toFinset ∪ _).card ≤ most
    rw [hrecorded]
    exact h.held
  | some p =>
    obtain ⟨hbudget, htally, hmost⟩ := h.process p hw
    exact of_tallied (w := step w .write) hw hbudget
      (htally.append [.other] (by simp [Entry.request])) hmost

end Kept

/-- The budget of a process the act starts is neither 0 nor past `most`. -/
def Act.Bounded (most : UInt32) : Act → Prop
  | .start budget => budget ≠ 0 ∧ budget ≤ most
  | _ => True

theorem Kept.step {most : Nat} {w : World} {bound : UInt32} (hbound : bound.toNat ≤ most)
    (hmost : most < 2 ^ 32) (ha : a.Bounded bound) (h : Kept most w) : Kept most (step w a) := by
  cases a with
  | start budget => exact h.start hmost ha.1 (Nat.le_trans ha.2 hbound)
  | reserve id => exact h.reserve id
  | park id => exact h.park id
  | boundary => exact h.boundary
  | write => exact h.write

/-! ## What a step leaves of a process -/

/-- Until the next start, a process keeps the ids it replays free and only gains replay keys. -/
theorem step_process {w : World} (ha : ∀ budget, a ≠ .start budget) {p : Process}
    (hw : w.process = some p) : ∃ p', (step w a).process = some p' ∧
      p'.recordedSpawnIds = p.recordedSpawnIds ∧ p.replayedKeys ⊆ p'.replayedKeys := by
  cases a with
  | start budget => exact absurd rfl (ha budget)
  | reserve id =>
    refine ⟨(p.reserveSpawn id).2, by simp only [step, hw], ?_⟩
    rcases p.reserveSpawn_cases id with ⟨-, heq⟩ | ⟨-, -, heq⟩ | ⟨-, heq⟩
    · rw [heq]
      exact ⟨rfl, fun _ hk => hk⟩
    · rw [heq]
      exact ⟨rfl, fun _ hk => hk⟩
    · rw [heq]
      exact ⟨rfl, fun _ hk => hk⟩
  | park id =>
    refine ⟨p, ?_, rfl, fun _ hk => hk⟩
    simp only [step, hw]
    split
    · rfl
    · exact hw
  | boundary =>
    cases htrip : p.budgetTripped || p.budgetBroke with
    | false =>
      refine ⟨p, ?_, rfl, fun _ hk => hk⟩
      simp only [step, hw, htrip, Bool.false_eq_true, if_false]
    | true =>
      obtain ⟨keys, extra, heq, -, -, hkeys, -⟩ := p.tripBudgetBreaker_spec w.log
      refine ⟨(p.tripBudgetBreaker w.log).1, by simp only [step, hw, htrip, if_true], ?_⟩
      rw [heq]
      exact ⟨rfl, hkeys⟩
  | write => exact ⟨p, hw, rfl, fun _ hk => hk⟩

/-- The halt is in the log at most `most` times, and a process that finds it there has its key. -/
structure Halted (most : Nat) (w : World) : Prop where
  count : exhaustions w.log ≤ most
  keyed : 0 < exhaustions w.log → ∀ p, w.process = some p → budgetExhaustedKey ∈ p.replayedKeys

theorem exhaustions_append (log extra : List Entry) :
    exhaustions (log ++ extra) = exhaustions log + exhaustions extra := List.countP_append

theorem mem_keys_of_exhaustions {log : List Entry} (h : 0 < exhaustions log) :
    budgetExhaustedKey ∈ log.filterMap Entry.key := by
  obtain ⟨e, he, hexhausted⟩ := List.countP_pos_iff.1 h
  refine List.mem_filterMap.2 ⟨e, he, ?_⟩
  cases e with
  | budgetExhausted _ _ => rfl
  | spawnRequested _ => cases hexhausted
  | taskAborted _ => cases hexhausted
  | other => cases hexhausted

/-- An act that appends no halt keeps the count of them, and with it the process's key. -/
theorem Halted.of_log {most : Nat} {w : World} (h : Halted most w)
    (ha : ∀ budget, a ≠ .start budget)
    (hlog : exhaustions (Budget.step w a).log = exhaustions w.log) :
    Halted most (Budget.step w a) := by
  refine ⟨hlog.trans_le h.count, fun hpos p hp => ?_⟩
  cases hw : w.process with
  | none =>
    have hnone : (Budget.step w a).process = none := by
      cases a with
      | start budget => exact absurd rfl (ha budget)
      | reserve id => simp only [Budget.step, hw]
      | park id => simp only [Budget.step, hw]
      | boundary => simp only [Budget.step, hw]
      | write => exact hw
    rw [hnone] at hp
    cases hp
  | some q =>
    obtain ⟨p', hp', -, hkeys⟩ := step_process ha hw
    cases hp'.symm.trans hp
    exact hkeys (h.keyed (hlog ▸ hpos) q hw)

theorem Halted.step {most : Nat} {w : World} (hmost : 1 ≤ most) (h : Halted most w) :
    Halted most (step w a) := by
  cases a with
  | start budget =>
    refine ⟨h.count, fun hpos p hp => ?_⟩
    cases hp
    exact mem_keys_of_exhaustions hpos
  | reserve id =>
    refine h.of_log nofun ?_
    cases hw : w.process with
    | none => simp only [Budget.step, hw]
    | some p => simp only [Budget.step, hw]
  | park id =>
    refine h.of_log nofun ?_
    cases hw : w.process with
    | none => simp only [Budget.step, hw]
    | some p =>
      simp only [Budget.step, hw]
      split
      · exact exhaustions_append w.log [.spawnRequested id]
      · rfl
  | boundary =>
    cases hw : w.process with
    | none => exact h.of_log nofun (by simp only [Budget.step, hw])
    | some p =>
      cases htrip : p.budgetTripped || p.budgetBroke with
      | false =>
        exact h.of_log nofun (by
          simp only [Budget.step, hw, htrip, Bool.false_eq_true, if_false])
      | true =>
        obtain ⟨keys, extra, heq, -, hkey, -, hcount⟩ := p.tripBudgetBreaker_spec w.log
        have hstep : Budget.step w .boundary = { w with
            process := some { p with budgetHalted := true, replayedKeys := keys }
            log := w.log ++ extra } := by simp only [Budget.step, hw, htrip, if_true, heq]
        rw [hstep]
        refine ⟨?_, fun _ q hq => ?_⟩
        · show exhaustions (w.log ++ extra) ≤ most
          rw [exhaustions_append, hcount]
          split
          · exact h.count
          · next hfresh =>
            have hzero : exhaustions w.log = 0 := by
              by_contra hpos
              exact hfresh (h.keyed (Nat.pos_of_ne_zero hpos) p hw)
            rw [hzero]
            exact hmost
        · cases hq
          exact hkey
  | write => exact h.of_log nofun (exhaustions_append w.log [.other])

/-! ## Runs -/

variable {acts : List Act}

theorem reserveSpawn_of_recorded {w : World} {budget : UInt32}
    (hacts : ∀ a ∈ acts, ∀ budget, a ≠ .start budget) {p : Process}
    (hp : (run step (step w (.start budget)) acts).process = some p) (hid : id ∈ recorded w.log) :
    p.reserveSpawn id = (true, p) := by
  have hkeeps : ∃ q, (run step (step w (.start budget)) acts).process = some q ∧
      q.recordedSpawnIds = recorded w.log := by
    refine run_invariant_along (P := fun (_ : World) a => ∀ budget, a ≠ Act.start budget)
      (I := fun w' : World => ∃ q, w'.process = some q ∧ q.recordedSpawnIds = recorded w.log) ?_
      (along_of_forall hacts) ⟨_, rfl, rfl⟩
    rintro w' a ha ⟨q, hq, hids⟩
    obtain ⟨q', hq', hids', -⟩ := step_process ha hq
    exact ⟨q', hq', hids'.trans hids⟩
  obtain ⟨q, hq, hids⟩ := hkeeps
  cases hq.symm.trans hp
  exact Process.reserveSpawn_of_mem (hids ▸ hid)

theorem run_halted {w : World} (hprocess : w.process = none) (acts : List Act) :
    Halted (max 1 (exhaustions w.log)) (run step w acts) :=
  run_invariant (fun _ _ h => h.step (le_max_left _ _))
    ⟨le_max_right _ _, fun _ _ hp => absurd (hprocess.symm.trans hp) nofun⟩ acts

theorem run_kept {w : World} {most : UInt32} (hprocess : w.process = none)
    (hlog : (recorded w.log).length < 2 ^ 32) (hacts : ∀ a ∈ acts, a.Bounded most) :
    Kept (max (recorded w.log).length most.toNat) (run step w acts) := by
  refine run_invariant_along (P := fun _ a => Act.Bounded most a) ?_ (along_of_forall hacts) ?_
  · intro w' a ha h
    exact h.step (le_max_right _ _) (max_lt hlog most.toNat_lt) ha
  · refine ⟨?_, fun p hp => absurd (hprocess.symm.trans hp) nofun⟩
    rw [World.held, hprocess]
    show ((recorded w.log).toFinset ∪ ∅).card ≤ _
    rw [Finset.union_empty, card_recorded]
    exact le_max_left _ _

/-- From a run whose log holds fewer than `2 ^ 32` requests, over every sequence of processes under
budgets of at most `most`, none 0: the distinct ids whose request the log holds or that the running
process admitted are at most the budget, or what the log held at first; an id recorded when the
running process began is admitted and not charged; and the halt is recorded once. -/
theorem reserve_within_budget {w : World} {acts : List Act} {most : UInt32}
    (hprocess : w.process = none) (hlog : (recorded w.log).length < 2 ^ 32)
    (hacts : ∀ a ∈ acts, a.Bounded most) :
    (run step w acts).held.card ≤ max (recorded w.log).length most.toNat ∧
      (∀ before budget after, acts = before ++ .start budget :: after →
        (∀ a ∈ after, ∀ budget, a ≠ .start budget) →
        ∀ p, (run step w acts).process = some p → ∀ id ∈ recorded (run step w before).log,
          p.reserveSpawn id = (true, p)) ∧
      exhaustions (run step w acts).log ≤ max 1 (exhaustions w.log) := by
  refine ⟨(run_kept hprocess hlog hacts).held, ?_, (run_halted hprocess acts).count⟩
  rintro before budget after rfl hafter p hp id hid
  rw [run_append, run_cons] at hp
  exact reserveSpawn_of_recorded hafter hp hid

/-- Two processes under a budget of one: the first parks its spawn, the second replays it and is
refused another. -/
def resumedActs : List Act :=
  [.start 1, .reserve "u/implementer#0", .park "u/implementer#0", .start 1,
    .reserve "u/implementer#0", .reserve "v/implementer#0", .boundary, .boundary]

theorem reserve_within_budget_resumed :
    (run step ⟨[], none, []⟩ resumedActs).held.card ≤ 1 ∧
      (∀ p, (run step ⟨[], none, []⟩ resumedActs).process = some p →
        p.reserveSpawn "u/implementer#0" = (true, p)) ∧
      exhaustions (run step ⟨[], none, []⟩ resumedActs).log ≤ 1 := by
  have hbounded : ∀ a ∈ resumedActs, a.Bounded 1 := by simp [resumedActs, Act.Bounded]
  have hempty : (recorded (World.mk [] none []).log).length < 2 ^ 32 := by decide
  have h := reserve_within_budget rfl hempty hbounded
  refine ⟨h.1, fun p hp => ?_, h.2.2⟩
  refine h.2.1 (resumedActs.take 3) 1 (resumedActs.drop 4) rfl ?_ p hp _ ?_
  · simp [resumedActs]
  · decide

/-- A budget of 0 admits every id; a process that parks nothing leaves the next one the whole
budget; and an id recorded by the running process is charged again, or refused. -/
theorem reserve_past_budget :
    (run step ⟨[], none, []⟩ [.start 0, .reserve "u/implementer#0"]).admitted.toFinset.card = 1 ∧
      (run step ⟨[], none, []⟩ [.start 1, .reserve "u/implementer#0", .start 1,
        .reserve "v/implementer#0"]).admitted.toFinset.card = 2 ∧
      "u/implementer#0" ∈ recorded (run step ⟨[], none, []⟩ [.start 1, .reserve "u/implementer#0",
        .park "u/implementer#0"]).log ∧
      (run step ⟨[], none, []⟩ [.start 1, .reserve "u/implementer#0",
        .park "u/implementer#0"]).process.map (fun p => (p.reserveSpawn "u/implementer#0").1) =
          some false := by
  decide +kernel

end Rigger.Conductor.Budget
