import Rigger.Domain.Run
import Rigger.Lib.Merge
import Rigger.Store.Runs

/-!
# The narrow run read (`rigger-domain/src/run/read.rs`)

`readRun` makes three calls to a store other clients append to: the boundary lookup, the read of
the carried-over events and the read from the boundary on.  What it merges them into is a prefix of
the stream's log (`readRun_prefixRead`): every event from the boundary to the head the last read
saw, perception left out, and the carried-over events before it.
-/

namespace Rigger

open Lib

/-- The knowledge a fold consults across runs. -/
def carryOverTypes : List String := [typeDecisionMade, typeLessonLearned, typeReviewFinding]

def isPerception (e : Event) : Bool := perceptionTypes.contains e.type_

def isCarriedOver (e : Event) : Bool := carryOverTypes.contains e.type_

/-- A log with perception removed. -/
def unperceived (events : List Event) : List Event := events.filter fun e => !isPerception e

namespace Store

/-- The narrow read, its store calls meeting the log as `first`, `second` and `third`. -/
def readRun (first second third : Store) (stream : String) : List Event :=
  match first.lastPosition stream typeRunStarted with
  | none => second.readStreamTyped stream 0 (.except perceptionTypes)
  | some boundary =>
    merge Event.position (second.readStreamTyped stream 0 (.only carryOverTypes))
      (third.readStreamTyped stream boundary (.except perceptionTypes))

/-- The log the last call meets; with no run started the second is the last. -/
def lastMet (first second third : Store) (stream : String) : Store :=
  match first.lastPosition stream typeRunStarted with
  | none => second
  | some _ => third

/-- Where the stream's newest boundary stands, its start without one. -/
def boundaryPosition (s : Store) (stream : String) : Nat :=
  ((((s.log stream).filter isRunStarted).getLast?).map Event.position).getD 0

/-- `answer` is the log from `boundary` on without perception, and its carried-over events before,
each once and in log order; a run's folds answer over it what they answer over the whole log. -/
structure PrefixRead (log : List Event) (boundary : Nat) (answer : List Event) : Prop where
  sorted : answer.Pairwise fun a b => a.position < b.position
  mem_iff : ∀ e, e ∈ answer ↔ e ∈ log ∧
    ((boundary ≤ e.position ∧ isPerception e = false) ∨
      (e.position < boundary ∧ isCarriedOver e = true))
  currentRun : Run.currentRun answer = Run.currentRun (unperceived log)
  currentRunId : Run.currentRunId answer = Run.currentRunId (unperceived log)
  keptHolder : (∀ e ∈ log, isRunStarted e = true → (RunStarted.decode e.data).isSome = true) →
    (∀ e ∈ log, isRunStarted e = true → e.position < boundary →
      (RunStarted.decode e.data).map RunStarted.run ≠ Run.currentRunId (unperceived log)) →
    ∀ id, Run.keptHolder answer id = Run.keptHolder (unperceived log) id

/-- What the read keeps of the log, for a boundary at a position. -/
def narrowed (boundary : Nat) (e : Event) : Bool :=
  if boundary ≤ e.position then !isPerception e else isCarriedOver e

/-- Nothing of the stream lies before its event of revision 0. -/
def Anchored (s : Store) (stream : String) : Prop :=
  ∀ r ∈ s.streamRows stream, r.2.revision ≤ 0 → ∀ x ∈ s.streamRows stream, r.1 ≤ x.1

theorem Ordered.anchored {s : Store} (h : s.Ordered) (stream : String) : s.Anchored stream := by
  intro r hr hrev x hx
  have hpos := h.nonneg x (mem_streamRows.1 hx).1
  have hordered := (sorted_streamRows s stream).and h.increasing_streamRows
  obtain ⟨before, after, hsplit⟩ := List.append_of_mem hr
  rw [hsplit] at hx hordered
  rcases List.mem_append.1 hx with hx | hx
  · have := (List.pairwise_append.1 hordered).2.2 x hx r List.mem_cons_self
    omega
  · rcases List.mem_cons.1 hx with rfl | hx
    · exact Nat.le_refl _
    · have := (List.pairwise_cons.1 (List.pairwise_append.1 hordered).2.1).1 x hx
      omega

/-! ## The three calls -/

section
variable {s : Store} {stream : String}

theorem sorted_log (s : Store) (stream : String) :
    (s.log stream).Pairwise fun a b => a.position < b.position :=
  List.pairwise_map.2 (sorted_streamRows s stream)

variable {r : Row}

theorem eq_of_revision {x : Row} (hr : r ∈ s.streamRows stream) (hx : x ∈ s.streamRows stream)
    (h : r.2.revision = x.2.revision) : r = x := by
  obtain ⟨hr, hrstream⟩ := mem_streamRows.1 hr
  obtain ⟨hx, hxstream⟩ := mem_streamRows.1 hx
  refine List.inj_on_of_nodup_map (f := fun r : Row => r.2.index) (List.pairwise_map.2 s.unique)
    hr hx ?_
  show (r.2.stream, r.2.revision) = (x.2.stream, x.2.revision)
  rw [hrstream, hxstream, h]

theorem typedReadStart_of_mem (hr : r ∈ s.streamRows stream) :
    s.typedReadStart stream r.2.revision = some r.1 := by
  have hmem : ∀ x : Row, x ∈ ((s.streamRows stream).filter fun x =>
      decide (r.2.revision ≤ x.2.revision)).insertionSort (fun a b => a.2.revision ≤ b.2.revision) ↔
        x ∈ s.streamRows stream ∧ r.2.revision ≤ x.2.revision := by
    intro x
    rw [List.mem_insertionSort, List.mem_filter, decide_eq_true_eq]
  have hsorted := sorted_insertionSort (fun r : Row => r.2.revision)
    ((s.streamRows stream).filter fun x => decide (r.2.revision ≤ x.2.revision))
  have hself := (hmem r).2 ⟨hr, le_refl _⟩
  unfold typedReadStart
  cases hsort : ((s.streamRows stream).filter fun x =>
      decide (r.2.revision ≤ x.2.revision)).insertionSort fun a b =>
        a.2.revision ≤ b.2.revision with
  | nil =>
    rw [hsort] at hself
    cases hself
  | cons x rows =>
    rw [hsort] at hmem hsorted hself
    obtain ⟨hx, hge⟩ := (hmem x).1 List.mem_cons_self
    have hle : x.2.revision ≤ r.2.revision := by
      rcases List.mem_cons.1 hself with rfl | hself
      · exact le_refl _
      · exact (List.pairwise_cons.1 hsorted).1 r hself
    rw [eq_of_revision hr hx (le_antisymm hge hle)]
    rfl

theorem readStreamTyped_zero (s : Store) (stream : String) (selection : TypeSelection) :
    s.readStreamTyped stream 0 selection =
      (s.log stream).filter fun e => selection.selects e.type_ := by
  rw [log, List.filter_map]
  rfl

theorem readStreamTyped_of_mem (hr : r ∈ s.streamRows stream)
    (hanchored : r.2.revision ≤ 0 → ∀ x ∈ s.streamRows stream, r.1 ≤ x.1)
    (selection : TypeSelection) : s.readStreamTyped stream r.2.revision selection =
      (s.log stream).filter fun e => decide (r.1 ≤ e.position) && selection.selects e.type_ := by
  unfold readStreamTyped
  rw [log, List.filter_map]
  by_cases hrev : 0 < r.2.revision
  · rw [if_pos hrev, typedReadStart_of_mem hr]
    rfl
  · rw [if_neg hrev]
    refine congrArg _ (List.filter_congr fun x hx => ?_)
    have hfirst : r.1 ≤ x.1 := hanchored (Int.not_lt.1 hrev) x hx
    show (decide (0 ≤ x.1) && _) = (decide (r.1 ≤ x.1) && _)
    rw [decide_eq_true (Nat.zero_le x.1), decide_eq_true hfirst]
    rfl

theorem lastPosition_eq_none (h : s.lastPosition stream typeRunStarted = none) :
    s.boundaryPosition stream = 0 := by
  unfold lastPosition at h
  rw [Option.map_eq_none_iff, List.getLast?_eq_none_iff] at h
  have hnone : (s.log stream).filter isRunStarted = [] := by
    rw [log, List.filter_map]
    exact List.map_eq_nil_iff.2 h
  rw [boundaryPosition, hnone]
  rfl

theorem lastPosition_eq_some {revision : Int}
    (h : s.lastPosition stream typeRunStarted = some revision) :
    ∃ r ∈ s.streamRows stream, isRunStarted (rowToEvent r) = true ∧ r.2.revision = revision ∧
      s.boundaryPosition stream = r.1 := by
  unfold lastPosition at h
  obtain ⟨r, hlast, hrev⟩ := Option.map_eq_some_iff.1 h
  obtain ⟨hr, htype⟩ := List.mem_filter.1 (List.mem_of_getLast? hlast)
  refine ⟨r, hr, htype, hrev, ?_⟩
  have hlog : (s.log stream).filter isRunStarted =
      ((s.streamRows stream).filter fun r => r.2.type_ == typeRunStarted).map rowToEvent := by
    rw [log, List.filter_map]
    rfl
  rw [boundaryPosition, hlog, List.getLast?_map, hlast]
  rfl

end

theorem not_perception_of_carriedOver {e : Event} (h : isCarriedOver e = true) :
    isPerception e = false := by
  have hall : ∀ type_ ∈ carryOverTypes, perceptionTypes.contains type_ = false := by decide
  exact hall e.type_ (List.contains_iff_mem.1 h)

variable {t : Store}

theorem log_grows {s : Store} (h : s.rows <+: t.rows) (stream : String) :
    s.log stream <+: t.log stream :=
  (h.filter _).map rowToEvent

theorem Anchored.of_grown {s : Store} {stream : String} (h : s.Anchored stream)
    (hgrown : s.rows <+: t.rows) {r : Row} (hr : r ∈ s.streamRows stream)
    (hrev : r.2.revision ≤ 0) :
    ∀ x ∈ t.streamRows stream, r.1 ≤ x.1 := by
  intro x hx
  obtain ⟨new, hnew⟩ : s.streamRows stream <+: t.streamRows stream := hgrown.filter _
  have hsorted := sorted_streamRows t stream
  rw [← hnew] at hx hsorted
  rcases List.mem_append.1 hx with hx | hx
  · exact h r hr hrev x hx
  · exact Nat.le_of_lt ((List.pairwise_append.1 hsorted).2.2 r hr x hx)

theorem mem_log_of_before {s : Store} {stream : String} (hgrown : s.rows <+: t.rows) {r : Row}
    (hr : r ∈ s.streamRows stream) {e : Event} (he : e ∈ t.log stream) (hlt : e.position < r.1) :
    e ∈ s.log stream := by
  obtain ⟨new, hnew⟩ := log_grows hgrown stream
  have hsorted := sorted_log t stream
  rw [← hnew] at he hsorted
  refine (List.mem_append.1 he).resolve_right fun hlate => ?_
  have hcross : r.1 < e.position :=
    (List.pairwise_append.1 hsorted).2.2 _ (List.mem_map_of_mem hr) e hlate
  omega

/-- Whatever is appended between its calls, the read answers what it keeps of the last log met. -/
theorem readRun_eq {first second third : Store} {stream : String}
    (hanchored : first.Anchored stream) (hsecond : first.rows <+: second.rows)
    (hthird : second.rows <+: third.rows) : readRun first second third stream =
      ((lastMet first second third stream).log stream).filter
        (narrowed (first.boundaryPosition stream)) := by
  unfold readRun lastMet
  cases hlast : first.lastPosition stream typeRunStarted with
  | none =>
    rw [lastPosition_eq_none hlast]
    exact readStreamTyped_zero second stream _
  | some revision =>
    obtain ⟨r, hr, -, rfl, hboundary⟩ := lastPosition_eq_some hlast
    have hrsecond : r ∈ second.streamRows stream := (hsecond.filter _).subset hr
    have hrthird : r ∈ third.streamRows stream := (hthird.filter _).subset hrsecond
    rw [hboundary]
    show merge Event.position _ (third.readStreamTyped stream r.2.revision _) = _
    rw [readStreamTyped_zero, readStreamTyped_of_mem hrthird fun hrev =>
      hanchored.of_grown (hsecond.trans hthird) hr hrev]
    apply merge_eq ((sorted_log third stream).sublist List.filter_sublist)
    intro e
    rw [List.mem_filter, List.mem_filter, List.mem_filter, narrowed]
    constructor
    · rintro ⟨he, hkept⟩
      by_cases hpos : r.1 ≤ e.position
      · rw [if_pos hpos] at hkept
        exact Or.inr ⟨he, by rw [decide_eq_true hpos]; exact hkept⟩
      · rw [if_neg hpos] at hkept
        exact Or.inl ⟨mem_log_of_before hthird hrsecond he (Nat.lt_of_not_le hpos), hkept⟩
    · rintro (⟨he, hcarried⟩ | ⟨he, hkept⟩)
      · refine ⟨(log_grows hthird stream).subset he, ?_⟩
        by_cases hpos : r.1 ≤ e.position
        · rw [if_pos hpos, not_perception_of_carriedOver hcarried]
          rfl
        · rw [if_neg hpos]
          exact hcarried
      · obtain ⟨hpos, hkept⟩ := Bool.and_eq_true_iff.1 hkept
        rw [if_pos (of_decide_eq_true hpos)]
        exact ⟨he, hkept⟩

/-! ## What a run's folds answer over it -/

section
variable {log : List Event} {boundary : Nat}

theorem prefixRead_zero (hs : log.Pairwise fun a b => a.position < b.position) :
    PrefixRead log 0 (log.filter (narrowed 0)) := by
  have hall : log.filter (narrowed 0) = unperceived log :=
    List.filter_congr fun e _ => if_pos (Nat.zero_le _)
  refine ⟨hs.sublist List.filter_sublist, fun e => ?_, ?_, ?_, fun _ _ id => ?_⟩
  · rw [List.mem_filter, narrowed, if_pos (Nat.zero_le _), Bool.not_eq_true']
    simp
  · rw [hall]
  · rw [hall]
  · rw [hall]

variable {started : Event} {before after : List Event}

theorem filter_narrowed
    (hs : (before ++ started :: after).Pairwise fun a b => a.position < b.position) :
    (before ++ started :: after).filter (narrowed started.position) =
      before.filter isCarriedOver ++ unperceived (started :: after) := by
  obtain ⟨-, htail, hcross⟩ := List.pairwise_append.1 hs
  rw [List.filter_append]
  congr 1
  · refine List.filter_congr fun e he => if_neg (Nat.not_le.2 ?_)
    exact hcross e he started List.mem_cons_self
  · refine List.filter_congr fun e he => if_pos ?_
    rcases List.mem_cons.1 he with rfl | he
    · exact Nat.le_refl _
    · exact Nat.le_of_lt ((List.pairwise_cons.1 htail).1 e he)

theorem unperceived_started (h : isRunStarted started = true) (after : List Event) :
    unperceived (started :: after) = started :: unperceived after := by
  have hkept : isPerception started = false := by
    rw [isPerception, beq_iff_eq.1 h]
    decide
  rw [unperceived, List.filter_cons, hkept]
  rfl

theorem latest_lessonOf_filter {keep : Event → Bool}
    (hkeep : ∀ e : Event, e.type_ = typeLessonLearned → keep e = true) (id : String)
    (events : List Event) :
    latest (Run.lessonOf id) (events.filter keep) = latest (Run.lessonOf id) events := by
  rw [latest_filter]
  apply latest_congr
  intro e _
  by_cases hlesson : e.type_ = typeLessonLearned
  · rw [hkeep e hlesson, if_pos rfl]
  · rw [Run.lessonOf, if_neg hlesson, ite_self]

/-- Over the carried-over events alone, the earlier part of a log keeps what it keeps in whole. -/
theorem keptHolder_carried (hstarted : isRunStarted started = true)
    (hdecodes : ∀ e ∈ started :: after, isRunStarted e = true →
      (RunStarted.decode e.data).isSome = true) (hfresh : ∀ e ∈ before, isRunStarted e = true →
      (RunStarted.decode e.data).map RunStarted.run ≠ Run.currentRunId (started :: after))
    (id : String) :
    Run.keptHolder (before.filter isCarriedOver ++ started :: after) id =
      Run.keptHolder (unperceived before ++ started :: after) id := by
  obtain ⟨body, hbody⟩ := Option.isSome_iff_exists.1
    (hdecodes started List.mem_cons_self hstarted)
  have hactive := Run.currentRunId_isSome ⟨started, List.mem_cons_self, hstarted⟩ hdecodes
  rw [Run.keptHolder_append hstarted hbody hactive _ id,
    Run.keptHolder_append hstarted hbody hactive _ id]
  · congr 1
    rw [unperceived, latest_lessonOf_filter _ id before, latest_lessonOf_filter _ id before]
    · intro e hlesson
      rw [isPerception, hlesson]
      decide
    · intro e hlesson
      rw [isCarriedOver, hlesson]
      decide
  · intro e he hearlier earlier hdecode heq
    refine hfresh e (List.mem_of_mem_filter he) hearlier ?_
    rw [hdecode]
    exact heq.symm
  · intro e he hearlier
    have hcarried := (List.mem_filter.1 he).2
    rw [isCarriedOver, beq_iff_eq.1 hearlier] at hcarried
    exact absurd hcarried (by decide)

theorem prefixRead_started
    (hs : (before ++ started :: after).Pairwise fun a b => a.position < b.position)
    (hstarted : isRunStarted started = true) :
    PrefixRead (before ++ started :: after) started.position
      ((before ++ started :: after).filter (narrowed started.position)) := by
  have hwhole : unperceived (before ++ started :: after) =
      unperceived before ++ started :: unperceived after := by
    rw [unperceived, List.filter_append]
    exact congrArg _ (unperceived_started hstarted after)
  have hboundary : ∃ e ∈ started :: unperceived after, isRunStarted e = true :=
    ⟨started, List.mem_cons_self, hstarted⟩
  have hcurrent := Run.currentRun_append (before.filter isCarriedOver) hboundary
  have hcurrent' := Run.currentRun_append (unperceived before) hboundary
  have hid : Run.currentRunId (unperceived before ++ started :: unperceived after) =
      Run.currentRunId (started :: unperceived after) := congrArg (Option.map _) hcurrent'.1
  refine ⟨hs.sublist List.filter_sublist, fun e => ?_, ?_, ?_, fun hdecodes hfresh id => ?_⟩
  · rw [List.mem_filter, narrowed]
    apply and_congr_right
    intro _
    by_cases hpos : started.position ≤ e.position
    · rw [if_pos hpos, Bool.not_eq_true']
      simp [hpos, Nat.not_lt.2 hpos]
    · rw [if_neg hpos]
      simp [hpos, Nat.lt_of_not_le hpos]
  · rw [filter_narrowed hs, unperceived_started hstarted, hwhole, hcurrent.2, hcurrent'.2]
  · rw [filter_narrowed hs, unperceived_started hstarted, hwhole, Run.currentRunId,
      Run.currentRunId, hcurrent.1, hcurrent'.1]
  · have hmem : ∀ e ∈ started :: unperceived after, e ∈ before ++ started :: after := by
      intro e he
      rw [← unperceived_started hstarted] at he
      exact List.mem_append_right _ (List.mem_of_mem_filter he)
    rw [filter_narrowed hs, unperceived_started hstarted, hwhole]
    apply keptHolder_carried hstarted fun e he => hdecodes e (hmem e he)
    intro e he hearlier
    have hlt := (List.pairwise_append.1 hs).2.2 e he started List.mem_cons_self
    have hne := hfresh e (List.mem_append_left _ he) hearlier hlt
    rwa [hwhole, hid] at hne

end

/-- The answer of the narrow read, whatever other clients append between its calls. -/
theorem readRun_prefixRead {s : Store} {stream : String} (h : s.Anchored stream)
    {between between' : List Call} (hbetween : ∀ call ∈ between, call.isAppend = true)
    (hbetween' : ∀ call ∈ between', call.isAppend = true) :
    PrefixRead
      ((lastMet s (run exec s between) (run exec (run exec s between) between') stream).log stream)
      (s.boundaryPosition stream)
      (readRun s (run exec s between) (run exec (run exec s between) between') stream) := by
  have hsecond := rows_run_grows s hbetween
  have hthird := rows_run_grows (run exec s between) hbetween'
  rw [readRun_eq h hsecond hthird, lastMet]
  cases hlast : s.lastPosition stream typeRunStarted with
  | none =>
    rw [lastPosition_eq_none hlast]
    exact prefixRead_zero (sorted_log _ stream)
  | some revision =>
    obtain ⟨r, hr, hstarted, -, hboundary⟩ := lastPosition_eq_some hlast
    have hmem : rowToEvent r ∈ (run exec (run exec s between) between').log stream :=
      (log_grows (hsecond.trans hthird) stream).subset (List.mem_map_of_mem hr)
    obtain ⟨before, after, hsplit⟩ := List.append_of_mem hmem
    have hsorted := sorted_log (run exec (run exec s between) between') stream
    rw [hsplit] at hsorted
    rw [hboundary]
    show PrefixRead ((run exec (run exec s between) between').log stream) (rowToEvent r).position
      (((run exec (run exec s between) between').log stream).filter
        (narrowed (rowToEvent r).position))
    rw [hsplit]
    exact prefixRead_started hsorted hstarted

/-- A run's events: its start, a decision and a lesson. -/
def runEvents (run decision : String) : List Event :=
  [Event.new ("e1", 5) typeRunStarted (.json (.obj [("run", .str run)])),
    Event.new ("e2", 6) typeDecisionMade (.json (.obj [("id", .str decision)])),
    Event.new ("e3", 7) typeLessonLearned (.json (.obj [("id", .str "y")]))]

def appendRun (run decision : String) : Call := .append "run" .any (runEvents run decision) 8

/-- Two runs, and a third one begun between the calls. -/
theorem readRun_prefixRead_begun :
    let s := run exec empty [appendRun "r1" "x", appendRun "r2" "x"]
    let second := run exec s [appendRun "r3" "z"]
    let third := run exec second [appendRun "r3" "w"]
    PrefixRead ((lastMet s second third "run").log "run") (s.boundaryPosition "run")
        (readRun s second third "run") ∧
      ∀ id, Run.keptHolder (readRun s second third "run") id =
        Run.keptHolder (unperceived ((lastMet s second third "run").log "run")) id := by
  intro s second third
  have h : PrefixRead ((lastMet s second third "run").log "run") (s.boundaryPosition "run")
      (readRun s second third "run") :=
    readRun_prefixRead ((ordered_run ordered_empty _).anchored "run") (by decide) (by decide)
  exact ⟨h, h.keptHolder (by decide) (by decide)⟩

/-- A run begun again under its own id. -/
def repeatedRun : Store := run exec empty [appendRun "r1" "x", appendRun "r1" "z"]

/-- The whole log keeps the earlier decision, the narrow read does not. -/
theorem readRun_repeatedRun : repeatedRun.Ordered ∧
    (∀ e ∈ repeatedRun.log "run", isRunStarted e = true →
      (RunStarted.decode e.data).isSome = true) ∧
    Run.keptHolder (readRun repeatedRun repeatedRun repeatedRun "run") "x" ≠
      Run.keptHolder (unperceived ((lastMet repeatedRun repeatedRun repeatedRun "run").log "run"))
        "x" := by
  refine ⟨ordered_run ordered_empty _, by decide, by decide⟩

end Store

end Rigger
