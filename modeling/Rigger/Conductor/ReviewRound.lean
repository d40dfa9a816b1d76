import Rigger.Conductor.Attribution
import Rigger.Conductor.Reviewer

/-!
# What a round answers (`rigger-conductor/src/conductor.rs`, `run_reviewer`)

Every attempt of a round met the flags the attempts before it left, so what a round answers is read
off its steps (`Round.Faithful`).
-/

namespace Rigger.Conductor.Reviewer

open Lib hiding slice
open Agent Spawn

/-! ## Steps -/

namespace Step

/-- The id a step spawned. -/
def spawnedId : Step → Option String
  | .spawned id .. => some id
  | _ => none

/-- Why a step asked for the next id. -/
def why : Step → Option Why
  | .spawned _ _ _ (.redriven why) => some why
  | _ => none

/-- The recorded error a step asked for the next id on. -/
def errored (t : Step) : Option String :=
  t.why.bind fun
    | .errored message => some message
    | _ => none

def verdictless (t : Step) : Bool := t.why == some .verdictless

end Step

def Flags.met (f : Flags) (t : Step) : Flags := t.why.elim f f.after

theorem errored_met (f : Flags) (steps : List Step) :
    (steps.foldl Flags.met f).errored = ((steps.filterMap Step.errored).getLast?).or f.errored := by
  induction steps using List.reverseRecOn with
  | nil => rfl
  | append_singleton steps t ih =>
    rw [List.foldl_append, List.foldl_cons, List.foldl_nil, List.filterMap_append]
    cases hwhy : t.why with
    | none =>
      have hnone : t.errored = none := by rw [Step.errored, hwhy]; rfl
      rw [Flags.met, hwhy, Option.elim_none, ih, List.filterMap_cons_none hnone, List.filterMap_nil,
        List.append_nil]
    | some why =>
      cases why with
      | errored message =>
        have hsome : t.errored = some message := by rw [Step.errored, hwhy]; rfl
        rw [Flags.met, hwhy, Option.elim_some, List.filterMap_cons_some hsome, List.filterMap_nil,
          List.getLast?_concat]
        rfl
      | _ =>
        have hnone : t.errored = none := by rw [Step.errored, hwhy]; rfl
        rw [Flags.met, hwhy, Option.elim_some, List.filterMap_cons_none hnone, List.filterMap_nil,
          List.append_nil, ← ih]
        rfl

theorem verdictless_met (f : Flags) (steps : List Step) :
    (steps.foldl Flags.met f).verdictless = (f.verdictless || steps.any Step.verdictless) := by
  induction steps generalizing f with
  | nil => rw [List.any_nil, Bool.or_false]; rfl
  | cons t steps ih =>
    have hmet : (f.met t).verdictless = (f.verdictless || t.verdictless) := by
      unfold Flags.met Step.verdictless
      cases hwhy : t.why with
      | none => simp
      | some why => cases why <;> simp [Flags.after]
    rw [List.foldl_cons, ih, hmet, List.any_cons, Bool.or_assoc]

/-! ## Runs -/

section
variable {h : Host} {driver : Driver} {r : Round} {agent : AgentDef} {is : List Nat} {s s' : State}
  {steps : List Step} {a : Except String AgentResult}

theorem flags_redriven {retry : Nat} {t : Step}
    (hattempt : r.attemptAt h driver agent retry s = .redriven t s') :
    s'.flags = s.flags.met t := by
  obtain ⟨turn, events, why, rfl, -, hflags⟩ := attemptAt_redriven hattempt
  exact hflags

variable (hrun : Runs (r.attemptAt h driver agent) (r.spent h) is s steps a s')
include hrun

theorem spawned_of_window : steps.filterMap Step.spawnedId <+: is.map r.spawnId := by
  refine hrun.labels (fun i s t a s' hans id hid => ?_) fun i s t s' hred => ?_
  · rcases attemptAt_answered hans with ⟨rfl, -⟩ | ⟨rfl, -⟩ | ⟨turn, events, rfl, -⟩
    · cases hid
    · cases hid
    · exact (Option.some_inj.1 hid).symm
  · obtain ⟨turn, events, why, rfl, -⟩ := attemptAt_redriven hred
    rfl

variable {before later : List Step} {id : String}

/-- What is judged of a step was judged by the flags the steps before it left. -/
theorem judged {turn : Turn} {events : List Event} {fate : Fate}
    (hsteps : steps = before ++ .spawned id turn events fate :: later) :
    ∃ retry ∈ is, id = r.spawnId retry ∧
      r.judge h (before.foldl Flags.met s.flags) retry turn events = fate ∧
        (fate = .answered a ∧ later = [] ∨ ∃ why, fate = .redriven why) := by
  obtain ⟨retry, hretry, s₁, hflags, hcase⟩ :=
    hrun.met State.flags Flags.met (fun _ _ _ _ => flags_redriven) hsteps
  rw [← hflags]
  rcases hcase with ⟨s₂, hred⟩ | ⟨hlast, hans⟩
  · obtain ⟨turn', events', why, heq, hjudge, -⟩ := attemptAt_redriven hred
    cases heq
    exact ⟨retry, hretry, rfl, hjudge, .inr ⟨why, rfl⟩⟩
  · rcases attemptAt_answered hans with ⟨heq, -⟩ | ⟨heq, -⟩ | ⟨turn', events', heq, hjudge⟩
    · cases heq
    · cases heq
    · cases heq
      exact ⟨retry, hretry, rfl, hjudge, .inl ⟨rfl, hlast⟩⟩

theorem refused_last (hsteps : steps = before ++ .refused id :: later) :
    later = [] ∧ a = .error (r.budgetRefused h) := by
  obtain ⟨retry, -, s₁, -, hcase⟩ :=
    hrun.met State.flags Flags.met (fun _ _ _ _ => flags_redriven) hsteps
  rcases hcase with ⟨s₂, hred⟩ | ⟨hlast, hans⟩
  · obtain ⟨turn, events, why, heq, -⟩ := attemptAt_redriven hred
    cases heq
  · rcases attemptAt_answered hans with ⟨heq, -⟩ | ⟨-, hanswer⟩ | ⟨turn, events, heq, -⟩
    · cases heq
    · exact ⟨hlast, hanswer⟩
    · cases heq

/-- A run ends at a step that asks for no other, or every step asked for another. -/
theorem ended : (∃ before t, steps = before ++ [t] ∧ t.why = none) ∨
    steps.length = is.length ∧ (∀ t ∈ steps, t.why ≠ none) ∧
      a = r.spent h s' ∧ s'.flags = steps.foldl Flags.met s.flags := by
  rcases hrun.ended State.flags Flags.met fun _ _ _ _ => flags_redriven with
    ⟨before, t, hsteps, i, -, s₁, -, hans⟩ | ⟨hlength, ha, hflags, hall⟩
  · refine .inl ⟨before, t, hsteps, ?_⟩
    rcases attemptAt_answered hans with ⟨rfl, -⟩ | ⟨rfl, -⟩ | ⟨turn, events, rfl, -⟩ <;> rfl
  · refine .inr ⟨hlength, fun t ht => ?_, ha, hflags⟩
    obtain ⟨i, s₁, s₂, hred⟩ := hall t ht
    obtain ⟨turn, events, why, rfl, -⟩ := attemptAt_redriven hred
    exact Option.some_ne_none why

/-- A result answers where the last spawn ended in it and it is a verdict. -/
theorem answered_ok {res : AgentResult} (hok : a = .ok res) : ∃ before retry turn events,
    steps = before ++ [.spawned (r.spawnId retry) turn events (.answered (.ok res))] ∧
      turn.result = .ok res ∧
      degenerate h.line r.output (r.spawnId retry) res.output turn.findings events = some false ∧
      (r.output ≠ .findings → hasVerdictLine h.line res.output = true) := by
  subst hok
  rcases hrun.ended State.flags Flags.met fun _ _ _ _ => flags_redriven with
    ⟨before, t, hsteps, retry, -, s₁, -, hans⟩ | ⟨-, ha, -⟩
  · rcases attemptAt_answered hans with ⟨-, e, he⟩ | ⟨-, he⟩ | ⟨turn, events, rfl, hjudge⟩
    · cases he
    · cases he
    · exact ⟨before, retry, turn, events, hsteps, judge_ok hjudge⟩
  · cases ha

end

/-! ## The round -/

theorem withRetry_inj {base : String} {a b : Nat}
    (heq : withRetry base a = withRetry base b) : a = b := by
  unfold withRetry at heq
  split at heq
  · split at heq
    · omega
    · have hlength := congrArg (fun s : String => s.toList.length) heq
      simp at hlength
  · split at heq
    · have hlength := congrArg (fun s : String => s.toList.length) heq
      simp at hlength
    · exact toString_nat_inj ((String.append_right_inj _).1 heq)

theorem nodup_window (r : Round) : (r.window.map r.spawnId).Nodup :=
  (List.nodup_range').map fun _ _ heq => withRetry_inj heq

/-- What a round's steps say of its answer. -/
structure Round.Faithful (h : Host) (r : Round) (run : Ended) : Prop where
  window : run.steps.filterMap Step.spawnedId <+: r.window.map r.spawnId
  once : (run.steps.filterMap Step.spawnedId).Nodup
  verdict : ∀ res, run.answer = .ok res → ∃ before retry turn events,
    run.steps = before ++ [.spawned (r.spawnId retry) turn events (.answered (.ok res))] ∧
      turn.result = .ok res ∧
      degenerate h.line r.output (r.spawnId retry) res.output turn.findings events = some false ∧
      (r.output ≠ .findings → hasVerdictLine h.line res.output = true)
  verdictless : run.steps.countP Step.verdictless ≤ 1
  stopped : ∀ before id turn events fate later e, run.steps = before ++
    .spawned id turn events fate :: later →
    turn.result = .error e → isParkedOrRefused e budgetMarker = true →
    carriesMarker e emitRefusedMarker = false → later = [] ∧ run.answer = .error (r.failed h e)
  refused : ∀ before id later, run.steps = before ++ .refused id :: later →
    later = [] ∧ run.answer = .error (r.budgetRefused h)
  /-- A window whose every step asked for another is spent. -/
  spent : (h.agents r.agentId).isSome = true → (∀ t ∈ run.steps, t.why ≠ none) →
    run.steps.length = r.window.length ∧
      run.answer =
      .error (((run.steps.filterMap Step.errored).getLast?).elim (r.degenerateReviewer h)
        spawnCrash)

theorem faithful_unknown (h : Host) (r : Round) (w : World) (hagent : h.agents r.agentId = none) :
    r.Faithful h ⟨[], .error (r.unknownAgent h), w⟩ where
  window := List.nil_prefix
  once := List.nodup_nil
  verdict _ hres := by cases hres
  verdictless := Nat.zero_le 1
  stopped _ _ _ _ _ _ _ hsteps := by simp at hsteps
  refused _ _ _ hsteps := by simp at hsteps
  spent hknown := by simp [hagent] at hknown

section
variable {h : Host} {driver : Driver} {r : Round} {agent : AgentDef} {is : List Nat} {s s' : State}
  {steps : List Step} {a : Except String AgentResult}
  (hrun : Runs (r.attemptAt h driver agent) (r.spent h) is s steps a s')
include hrun

theorem countP_verdictless : steps.countP Step.verdictless ≤ 1 := by
  refine countP_le_one fun before t later hsteps ht => ?_
  cases t with
  | halted id => cases ht
  | refused id => cases ht
  | spawned id turn events fate =>
    cases fate with
    | answered a => cases ht
    | redriven why =>
      have hwhy : why = .verdictless := by simpa [Step.verdictless, Step.why] using ht
      subst hwhy
      obtain ⟨retry, -, -, hjudge, -⟩ := judged hrun hsteps
      have hnone := judge_verdictless hjudge
      rw [verdictless_met, Bool.or_eq_false_iff] at hnone
      exact hnone.2

theorem stopped_last {before later : List Step} {id : String} {turn : Turn} {events : List Event}
    {fate : Fate} {e : String} (hsteps : steps = before ++ .spawned id turn events fate :: later)
    (hresult : turn.result = .error e) (hstops : isParkedOrRefused e budgetMarker = true)
    (hemit : carriesMarker e emitRefusedMarker = false) : later = [] ∧
    a = .error (r.failed h e) := by
  obtain ⟨retry, -, -, hjudge, hcase⟩ := judged hrun hsteps
  rw [judge_parkedOrRefused hresult hstops hemit] at hjudge
  rcases hcase with ⟨hfate, hlast⟩ | ⟨why, hfate⟩
  · rw [hfate] at hjudge
    cases hjudge
    exact ⟨hlast, rfl⟩
  · rw [hfate] at hjudge
    cases hjudge

/-- A window whose every step asked for another is spent, and its last recorded error is the
crash. -/
theorem spent_answer (hflags : s.flags = .new) (hall : ∀ t ∈ steps, t.why ≠ none) :
    steps.length = is.length ∧ a = .error (((steps.filterMap Step.errored).getLast?).elim
      (r.degenerateReviewer h) spawnCrash) := by
  rcases ended hrun with ⟨before, t, rfl, hnone⟩ | ⟨hlength, -, rfl, hends⟩
  · exact absurd hnone (hall t List.mem_append_cons_self)
  · refine ⟨hlength, ?_⟩
    rw [Round.spent, hends, errored_met, hflags, Flags.new, Option.or_none]

end

theorem faithful_runReviewer (h : Host) (driver : Driver) (r : Round) (w : World) :
    r.Faithful h (r.runReviewer h driver w) := by
  unfold Round.runReviewer
  split
  · next hagent => exact faithful_unknown h r w hagent
  · next agent hagent =>
    have hrun : Runs (r.attemptAt h driver agent) (r.spent h) r.window (⟨w, .new⟩ : State) _ _ _ :=
      runs_retry r.window _
    exact {
      window := spawned_of_window hrun
      once := (nodup_window r).sublist (spawned_of_window hrun).sublist
      verdict _ hres := answered_ok hrun hres
      verdictless := countP_verdictless hrun
      stopped _ _ _ _ _ _ _ hsteps := stopped_last hrun hsteps
      refused _ _ _ hsteps := refused_last hrun hsteps
      spent _ hall := spent_answer hrun rfl hall }

end Rigger.Conductor.Reviewer
