import Mathlib.Data.Prod.Lex
import Mathlib.Data.String.Basic
import Rigger.Domain.Spawns
import Rigger.Lib.Alert
import Rigger.Lib.Grouped

/-!
# The watchdog (`rigger-domain/src/watch.rs`)

A poll folds the run's events and the probes of its caller into anomalies, one at most of each
signal and subject, and the watcher tells those it did not tell at the same magnitude at the poll
before.
-/

namespace Rigger.Watch

open Lib Ledger Spawn

/-! ## Inputs and answers -/

inductive Signal where
  | escalated
  | specDefect
  | deadDriver
  | dashNotServing
  | rejectRecurrence
  | frontierStall
  | storeIntegrity
  | ciRed
deriving DecidableEq

/-- The place of a signal in the order anomalies are listed in. -/
def Signal.place : Signal → Nat
  | escalated => 0
  | specDefect => 1
  | deadDriver => 2
  | dashNotServing => 3
  | rejectRecurrence => 4
  | frontierStall => 5
  | storeIntegrity => 6
  | ciRed => 7

structure Anomaly where
  signal : Signal
  subject : String
  magnitude : Nat
  detail : String
deriving DecidableEq

def Anomaly.key (a : Anomaly) : Signal × String := (a.signal, a.subject)

inductive DashProbe where
  | notRecorded
  | serving
  | notServing (pid : Option Nat) (port : Nat)
  | unresponsive (pid : Option Nat) (port windowMs : Nat)
  | probeFailed (pid : Option Nat) (port : Nat) (error : String)

inductive CiProbe where
  | noRunTip
  | unpushed
  | unknown (reason : String)
  | pending
  | green
  | red (sha : String) (checks : List String)

structure WatchInputs where
  runEvents : List Event
  now : SystemTime
  lastEventAt : Option SystemTime
  stepLockFree : Bool
  waveLivenessAges : Std.ExtTreeMap String Nat
  dash : DashProbe
  runStartedAt : Option SystemTime
  dashBreadcrumbWrittenAt : Option SystemTime
  dashAttemptedThisRun : Bool
  ci : CiProbe

/-! ## What the events say -/

def rejectRecurrenceDiagnoseThreshold : Nat := 3
def frontierStallThreshold : Nat := 3

def deadDriverQuietBound : Int := 3600 * 1000000000
def deadDriverHeartbeatBound : Nat := 30 * 60

/-- The cause of a failure of the unit; one that is empty reads as unknown. -/
def failedCause (unit : String) (e : Event) : Option String := do
  if e.type_ = typeUnitFailed then
    let [id, cause] ← (← e.data.value).slots ["id", "cause"] | none
    let id ← Json.required Json.asStr id
    let cause ← Json.orDefault Json.asStr "" cause
    if id = unit then some (if cause = "" then "unknown" else cause) else none
  else none

/-- `reject_recurrence_streak`: the last cause, and how often it came in a row. -/
def rejectRecurrenceStreak (events : List Event) (unit : String) : String × Nat :=
  (events.filterMap (failedCause unit)).foldl
    (fun acc cause => if 0 < acc.2 ∧ cause = acc.1 then (acc.1, acc.2 + 1) else (cause, 1)) ("", 0)

/-- `spawn_result_counts`. -/
def spawnResultCounts (events : List Event) : Std.ExtTreeMap String Nat :=
  gather compare (fun n _ => n + 1) 0
    (events.filterMap fun e => (resultIn e).map fun r => (r.id, ()))

structure OrderAcc where
  stream : String
  maxRevision : Int
  rows : Nat

def OrderAcc.row (acc : OrderAcc) (revision : Int) : OrderAcc :=
  if revision ≤ acc.maxRevision then { acc with rows := acc.rows + 1 }
  else { acc with maxRevision := revision }

def orderStep (accs : List OrderAcc) (e : Event) : List OrderAcc :=
  let opened := if accs.any fun acc => acc.stream = e.stream then accs
    else accs ++ [⟨e.stream, noStream, 0⟩]
  opened.map fun acc => if acc.stream = e.stream then acc.row e.revision else acc

/-- `order_signatures`: the streams some row of which does not exceed the revisions before it, with
how many do not. -/
def orderSignatures (events : List Event) : List OrderAcc :=
  (events.foldl orderStep []).filter fun acc => 0 < acc.rows

/-! ## Signals -/

section
variable (run : RunState) (inputs : WatchInputs)

def escalations : List Anomaly :=
  run.units.toList.filterMap fun x =>
    if x.2.status = .escalated then
      some (x.2.specDefectReason.elim ⟨.escalated, x.1, 0, "escalated - awaiting a human"⟩
        fun reason => ⟨.specDefect, x.1, 0, reason⟩)
    else none

def recurrences : List Anomaly :=
  run.units.toList.filterMap fun x =>
    let (cause, streak) := rejectRecurrenceStreak inputs.runEvents x.1
    if x.2.status = .failed ∧ rejectRecurrenceDiagnoseThreshold ≤ streak then
      some ⟨.rejectRecurrence, x.1, streak,
        "reject-recurrence #" ++ toString streak ++ " (cause: " ++ cause ++ ")"⟩
    else none

def stalls : List Anomaly :=
  (spawnResultCounts inputs.runEvents).toList.filterMap fun x =>
    if frontierStallThreshold ≤ x.2 then
      some ⟨.frontierStall, x.1, x.2, toString x.2 ++ " recorded results without the run advancing"⟩
    else none

/-- The log quiet, the step lock free and every heartbeat stale; a run that is done is quiet. -/
def driverDead : Bool :=
  !run.done && (inputs.lastEventAt.any fun t =>
    decide (t ≤ inputs.now ∧ deadDriverQuietBound ≤ inputs.now - t)) && inputs.stepLockFree &&
    (inputs.waveLivenessAges.toList.all fun x => decide (deadDriverHeartbeatBound < x.2))

def deadDrivers : List Anomaly :=
  if driverDead run inputs then
    [⟨.deadDriver, "run", 0, "store quiet an hour, no step or run holds the step lock, every " ++
      "heartbeat stale past 30m"⟩]
  else []

/-- `dash_anomaly_detail`. -/
def dashAnomalyDetail : DashProbe → Option String
  | .notRecorded => none
  | .serving => none
  | .unresponsive pid port windowMs =>
    some ("dash on port " ++ toString port ++ named pid ++ " did not answer within " ++
      toString windowMs ++ "ms - busy, not dead")
  | .probeFailed pid port error =>
    some ("dash on port " ++ toString port ++ named pid ++ " could not be probed: " ++ error ++
      " - unknown, not dead")
  | .notServing (some pid) port =>
    some ("marker names dead pid " ++ toString pid ++ " on port " ++ toString port)
  | .notServing none port =>
    some ("recorded dash.url port " ++ toString port ++
      " does not answer (no matching marker, no pid)")
where
  named (pid : Option Nat) : String := pid.elim "" fun pid => " (pid " ++ toString pid ++ ")"

/-- A breadcrumb an earlier run left. -/
def breadcrumbPredatesThisRun : Bool :=
  !inputs.dashAttemptedThisRun &&
    inputs.dashBreadcrumbWrittenAt.any fun written =>
      inputs.runStartedAt.any fun started => decide (written < started)

def dashesDown : List Anomaly :=
  if run.done || breadcrumbPredatesThisRun inputs then []
  else (dashAnomalyDetail inputs.dash).toList.map fun detail => ⟨.dashNotServing, "dash", 0, detail⟩

def redChecks : List Anomaly :=
  match inputs.ci with
  | .red sha checks =>
    [⟨.ciRed, sha, checks.length % 2 ^ 32, toString checks.length ++
      " check(s) failed on the run tip: " ++ ", ".intercalate checks⟩]
  | _ => []

def disordered : List Anomaly :=
  (orderSignatures inputs.runEvents).map fun acc =>
    ⟨.storeIntegrity, acc.stream, acc.rows % 2 ^ 32,
      toString acc.rows ++ " row(s) where position order and revision order disagree"⟩

end

def found (inputs : WatchInputs) : List Anomaly :=
  let run := (project inputs.runEvents).getD .new
  escalations run ++ recurrences run inputs ++ stalls inputs ++ deadDrivers run inputs ++
    dashesDown run inputs ++ redChecks inputs ++ disordered inputs

/-- In the order of their signals, then of their subjects. -/
def detect (inputs : WatchInputs) : List Anomaly :=
  (found inputs).mergeSort fun a b =>
    decide (toLex (a.signal.place, a.subject) ≤ toLex (b.signal.place, b.subject))

/-! ## Alerts -/

/-- What the last poll left, by signal and subject. -/
structure Dedup where
  seen : List ((Signal × String) × Nat)

namespace Dedup

def new : Dedup := ⟨[]⟩

def get (d : Dedup) (key : Signal × String) : Option Nat :=
  latest (fun x => if x.1 = key then some x.2 else none) d.seen

/-- The anomalies to print, and what is remembered of them all. -/
def step (d : Dedup) (current : List Anomaly) : List Anomaly × Dedup :=
  (current.filter fun a => d.get a.key != some a.magnitude,
    ⟨current.map fun a => (a.key, a.magnitude)⟩)

/-- What a watcher prints poll after poll. -/
def alerts (d : Dedup) : List (List Anomaly) → List (List Anomaly)
  | [] => []
  | current :: later => (d.step current).1 :: (d.step current).2.alerts later

end Dedup

/-! ## One anomaly of each signal and subject -/

/-- Of these signals, and no key twice. -/
structure Told (signals : List Signal) (as : List Anomaly) : Prop where
  signal : ∀ a ∈ as, a.signal ∈ signals
  keys : (as.map Anomaly.key).Nodup

variable {ss : List Signal} {as : List Anomaly}

theorem Told.append {ts : List Signal} {bs : List Anomaly} (has : Told ss as) (hbs : Told ts bs)
    (hapart : ∀ s ∈ ss, s ∉ ts) : Told (ss ++ ts) (as ++ bs) := by
  refine ⟨fun a ha => ?_, ?_⟩
  · rw [List.mem_append] at ha ⊢
    exact ha.imp (has.signal a) (hbs.signal a)
  · rw [List.map_append, List.nodup_append]
    refine ⟨has.keys, hbs.keys, ?_⟩
    intro x hx y hy heq
    obtain ⟨a, ha, rfl⟩ := List.mem_map.1 hx
    obtain ⟨b, hb, rfl⟩ := List.mem_map.1 hy
    have hsignal : a.signal = b.signal := (Prod.mk.inj heq).1
    exact hapart _ (has.signal a ha) (hsignal ▸ hbs.signal b hb)

theorem told_of_length_le (h : as.length ≤ 1) (hsignal : ∀ a ∈ as, a.signal ∈ ss) : Told ss as := by
  refine ⟨hsignal, ?_⟩
  match as, h with
  | [], _ => exact List.nodup_nil
  | [a], _ => exact List.nodup_singleton _

/-- The entries of a map, each under its own key. -/
theorem told_filterMap {β : Type} (m : Std.ExtTreeMap String β) {f : String × β → Option Anomaly}
    (hf : ∀ x a, f x = some a → a.subject = x.1 ∧ a.signal ∈ ss) :
    Told ss (m.toList.filterMap f) := by
  refine ⟨fun a ha => ?_, ?_⟩
  · obtain ⟨x, -, hx⟩ := List.mem_filterMap.1 ha
    exact (hf x a hx).2
  · refine List.pairwise_map.2 (List.pairwise_filterMap.2 ?_)
    refine (Std.ExtTreeMap.distinct_keys_toList (t := m)).imp fun hne a ha b hb hab => hne ?_
    have hsubject : a.subject = b.subject := (Prod.mk.inj hab).2
    rw [(hf _ a ha).1, (hf _ b hb).1] at hsubject
    exact Std.LawfulEqCmp.compare_eq_iff_eq.2 hsubject

theorem told_escalations (run : RunState) : Told [.escalated, .specDefect] (escalations run) := by
  refine told_filterMap _ fun x a ha => ?_
  obtain ⟨-, hsome⟩ := Option.ite_none_right_eq_some.1 ha
  rw [← Option.some.inj hsome]
  cases x.2.specDefectReason with
  | none => exact ⟨rfl, List.mem_cons_self⟩
  | some reason => exact ⟨rfl, List.mem_cons_of_mem _ List.mem_cons_self⟩

theorem told_recurrences (run : RunState) (inputs : WatchInputs) :
    Told [.rejectRecurrence] (recurrences run inputs) := by
  refine told_filterMap _ fun x a ha => ?_
  obtain ⟨-, hsome⟩ := Option.ite_none_right_eq_some.1 ha
  rw [← Option.some.inj hsome]
  exact ⟨rfl, List.mem_cons_self⟩

theorem told_stalls (inputs : WatchInputs) : Told [.frontierStall] (stalls inputs) := by
  refine told_filterMap _ fun x a ha => ?_
  obtain ⟨-, hsome⟩ := Option.ite_none_right_eq_some.1 ha
  rw [← Option.some.inj hsome]
  exact ⟨rfl, List.mem_cons_self⟩

theorem told_deadDrivers (run : RunState) (inputs : WatchInputs) :
    Told [.deadDriver] (deadDrivers run inputs) := by
  unfold deadDrivers
  split
  · exact told_of_length_le (Nat.le_refl 1) (by simp)
  · exact told_of_length_le (Nat.zero_le 1) (by simp)

theorem told_dashesDown (run : RunState) (inputs : WatchInputs) :
    Told [.dashNotServing] (dashesDown run inputs) := by
  unfold dashesDown
  split
  · exact told_of_length_le (Nat.zero_le 1) (by simp)
  · cases dashAnomalyDetail inputs.dash with
    | none => exact told_of_length_le (Nat.zero_le 1) (by simp)
    | some detail => exact told_of_length_le (Nat.le_refl 1) (by simp)

theorem told_redChecks (inputs : WatchInputs) : Told [.ciRed] (redChecks inputs) := by
  unfold redChecks
  split
  · exact told_of_length_le (Nat.le_refl 1) (by simp)
  · exact told_of_length_le (Nat.zero_le 1) (by simp)

theorem nodup_orderSteps (events : List Event) (accs : List OrderAcc)
    (h : (accs.map OrderAcc.stream).Nodup) :
    ((events.foldl orderStep accs).map OrderAcc.stream).Nodup := by
  induction events generalizing accs with
  | nil => exact h
  | cons e events ih =>
    refine ih _ ?_
    have hstream : ∀ acc : OrderAcc,
        (if acc.stream = e.stream then acc.row e.revision else acc).stream = acc.stream := by
      intro acc
      unfold OrderAcc.row
      split
      · split <;> rfl
      · rfl
    unfold orderStep
    rw [List.map_map]
    show (List.map (fun acc => OrderAcc.stream (if acc.stream = e.stream then _ else acc)) _).Nodup
    rw [List.map_congr_left fun acc _ => hstream acc]
    split
    · exact h
    · next hnew =>
      rw [List.map_append, List.nodup_append]
      refine ⟨h, List.nodup_singleton _, ?_⟩
      rintro x hx y hy rfl
      obtain ⟨acc, hacc, rfl⟩ := List.mem_map.1 hx
      rw [List.map_singleton, List.mem_singleton] at hy
      exact hnew (List.any_eq_true.2 ⟨acc, hacc, decide_eq_true hy⟩)

theorem told_disordered (inputs : WatchInputs) : Told [.storeIntegrity] (disordered inputs) := by
  unfold disordered orderSignatures
  refine ⟨fun a ha => ?_, ?_⟩
  · obtain ⟨acc, -, rfl⟩ := List.mem_map.1 ha
    exact List.mem_cons_self
  · have hstreams := List.pairwise_map.1 (nodup_orderSteps inputs.runEvents [] List.nodup_nil)
    refine List.pairwise_map.2 (List.pairwise_map.2 ?_)
    exact (hstreams.filter _).imp fun hne heq => hne (Prod.mk.inj heq).2

theorem told_found (inputs : WatchInputs) : ∃ signals, Told signals (found inputs) := by
  unfold found
  exact ⟨_, ((((((told_escalations _).append (told_recurrences _ inputs) (by decide)).append
    (told_stalls inputs) (by decide)).append (told_deadDrivers _ inputs) (by decide)).append
    (told_dashesDown _ inputs) (by decide)).append (told_redChecks inputs) (by decide)).append
    (told_disordered inputs) (by decide)⟩

theorem nodup_detect (inputs : WatchInputs) : ((detect inputs).map Anomaly.key).Nodup := by
  obtain ⟨_, htold⟩ := told_found inputs
  exact ((List.mergeSort_perm _ _).map _).nodup_iff.2 htold.keys

/-! ## A watcher's run -/

namespace Dedup

theorem get_step (d : Dedup) (current : List Anomaly) (key : Signal × String) :
    (d.step current).2.get key = remembered Anomaly.key Anomaly.magnitude current key := by
  unfold step get remembered latest
  rw [List.filterMap_map]
  rfl

/-- A watcher that remembers the poll `before` prints the changes of each poll after it. -/
theorem alerts_eq {d : Dedup} (before : List Anomaly)
    (hd : ∀ key, d.get key = remembered Anomaly.key Anomaly.magnitude before key)
    (polls : List (List Anomaly)) : d.alerts polls =
      ((before :: polls).zip polls).map fun t => changes Anomaly.key Anomaly.magnitude t.1 t.2 := by
  induction polls generalizing d before with
  | nil => rfl
  | cons current later ih =>
    rw [alerts, ih current (d.get_step current), List.zip_cons_cons, List.map_cons]
    refine congrArg (· :: _) ?_
    exact List.filter_congr fun a _ => by rw [hd]

end Dedup

/-- The news of a poll: the anomalies the poll before it had not, or had at a lesser magnitude. -/
def newsOf (before now : List Anomaly) : List Anomaly :=
    news Anomaly.key Anomaly.magnitude before now

/-- At no poll is an anomaly of the poll before it there at a lesser magnitude. -/
def NoFall (polls : List (List Anomaly)) : Prop :=
  ∀ t ∈ turns polls, ∀ a ∈ t.2, ∀ b ∈ t.1, b.key = a.key → b.magnitude ≤ a.magnitude

/-- Of any polls: none answers two anomalies of one signal and subject, and what is printed at each
is its news just where no magnitude falls from one to the next. -/
theorem alerts_are_news_iff (polls : List WatchInputs) :
    (∀ inputs ∈ polls, ((detect inputs).map Anomaly.key).Nodup) ∧
      (Dedup.new.alerts (polls.map detect) =
        (turns (polls.map detect)).map (fun t => newsOf t.1 t.2) ↔
        NoFall (polls.map detect)) := by
  refine ⟨fun inputs _ => nodup_detect inputs, ?_⟩
  have hbefore : ∀ t ∈ turns (polls.map detect), (t.1.map Anomaly.key).Nodup := by
    intro t ht
    rcases List.mem_cons.1 (List.of_mem_zip ht).1 with hnil | hmem
    · rw [hnil]
      exact List.nodup_nil
    · obtain ⟨inputs, -, hinputs⟩ := List.mem_map.1 hmem
      rw [← hinputs]
      exact nodup_detect inputs
  rw [Dedup.alerts_eq [] fun _ => rfl]
  unfold NoFall
  refine List.map_inj_left.trans (forall₂_congr fun t ht => ?_)
  exact changes_eq_news_iff (hbefore t ht)

/-! ## A magnitude that falls -/

def redAt (checks : List String) : WatchInputs where
  runEvents := []
  now := 0
  lastEventAt := none
  stepLockFree := false
  waveLivenessAges := ∅
  dash := .notRecorded
  runStartedAt := none
  dashBreadcrumbWrittenAt := none
  dashAttemptedThisRun := false
  ci := .red "c0ffee" checks

/-- Of two red checks one is read green at the next poll, and the other is printed again. -/
theorem fall_is_printed :
    Dedup.new.alerts ([redAt ["build", "test"], redAt ["test"]].map detect) ≠
      (turns ([redAt ["build", "test"], redAt ["test"]].map detect)).map fun t =>
        newsOf t.1 t.2 := by
  have hfound : ∀ checks : List String, found (redAt checks) = redChecks (redAt checks) := by
    intro checks
    rfl
  have hdetect : ∀ checks : List String, detect (redAt checks) = redChecks (redAt checks) := by
    intro checks
    rw [detect, hfound]
    exact List.mergeSort_singleton _
  rw [List.map_cons, List.map_singleton, hdetect, hdetect]
  decide

end Rigger.Watch
