import Rigger.Domain.Event
import Rigger.Lib.Stable

/-!
# The failed closes of a run's launches (`rigger-domain/src/progress.rs`)

A launch is closed by a record that says how it ended and, where its writer read it, at which
revision of the run's stream.  A close without one takes the revision of the last close before it.
The closes are sorted by it, stably, and counted from the end back to a completed one or to one
before the release: `counting` says what a close appended to the log does to the count, which closes
a completed one ends and that a later release counts no more.
-/

namespace Rigger.Progress

open Lib

/-! ## Launch records -/

def typeSpawnLaunched : String := "SpawnLaunched"

def endedCompleted : String := "completed"

def endedInterrupted : String := "interrupted"

def endedFault : String := "fault"

def endedStopped : String := "stopped"

structure SpawnLaunched where
  spawn : String
  launch : Nat
  sessionId : String
  resumedFrom : Option String
  started : Nat
  ended : Option String
  class_ : Option String
  revision : Option Int
  dir : String
deriving DecidableEq

def SpawnLaunched.isOpen (launch : SpawnLaunched) : Bool := launch.ended.isNone

def SpawnLaunched.stampedAt (launch : SpawnLaunched) (revision : Option Int) : SpawnLaunched :=
  { launch with revision := revision }

def SpawnLaunched.decode (data : Data) : Option SpawnLaunched := do
  let [spawn, launch, sessionId, resumedFrom, started, ended, class_, revision, dir] ←
    (← data.value).slots ["spawn", "launch", "session_id", "resumed_from", "started",
    "ended", "class",
      "revision", "dir"] | none
  pure
    { spawn := ← Json.required Json.asStr spawn
      launch := ← Json.required (Json.asUnsigned 32) launch
      sessionId := ← Json.required Json.asStr sessionId
      resumedFrom := ← Json.orDefault (Json.asOption Json.asStr) none resumedFrom
      started := ← Json.required (Json.asUnsigned 64) started
      ended := ← Json.orDefault (Json.asOption Json.asStr) none ended
      class_ := ← Json.orDefault (Json.asOption Json.asStr) none class_
      revision := ← Json.orDefault (Json.asOption (Json.asSigned 63)) none revision
      dir := ← Json.orDefault Json.asStr "" dir }

def decodeLaunch (e : Event) : Option SpawnLaunched :=
  if e.type_ = typeSpawnLaunched then SpawnLaunched.decode e.data else none

def decodedLaunches (progressEvents : List Event) : List (Event × SpawnLaunched) :=
  progressEvents.filterMap fun e => (decodeLaunch e).map fun launch => (e, launch)

/-! ## The count -/

/-- The order of `Option`: none is before every revision. -/
def stampLe (a b : Option Int) : Bool := a.all fun x => b.any fun y => decide (x ≤ y)

def closedAfterRelease (close release : Option Int) : Bool := stampLe release close

/-- Each close with its revision, or the one of the close before it. -/
def stamped (last : Option Int) : List SpawnLaunched → List SpawnLaunched
  | [] => []
  | close :: closes =>
    close.stampedAt (close.revision.or last) :: stamped (close.revision.or last) closes

def closes (progressEvents : List Event) : List SpawnLaunched :=
  ((decodedLaunches progressEvents).map Prod.snd).filter fun launch => !launch.isOpen

def byRevision (a b : SpawnLaunched) : Bool := stampLe a.revision b.revision

/-- The test of `take_while`. -/
def goesOn (released : Option Int) (close : SpawnLaunched) : Bool :=
  close.ended != some endedCompleted && closedAfterRelease close.revision released

def isFailed (close : SpawnLaunched) : Bool :=
  close.ended == some endedFault || close.ended == some endedStopped

def failedClosesSince (progressEvents : List Event) (released : Option Int) : Nat :=
  ((((stamped none (closes progressEvents)).mergeSort byRevision).reverse.takeWhile
    (goesOn released)).filter isFailed).length

/-! ## What it is for -/

/-- The closes with the stamps they are ordered by, in the log's order. -/
def effective (progressEvents : List Event) : List SpawnLaunched :=
  stamped none (closes progressEvents)

/-- The stamp of a close written next. -/
def stampNext (progressEvents : List Event) (close : SpawnLaunched) : Option Int :=
  close.revision.or ((effective progressEvents).getLast?.bind SpawnLaunched.revision)

/-- The closes counted, each with its place in the log. -/
def counted (progressEvents : List Event) (released : Option Int) : List (SpawnLaunched × Nat) :=
  (((sortedAt byRevision (effective progressEvents)).reverse.takeWhile
    fun x => goesOn released x.1).filter fun x => isFailed x.1)

theorem length_counted (progressEvents : List Event) (released : Option Int) :
    (counted progressEvents released).length = failedClosesSince progressEvents released := by
  unfold failedClosesSince
  rw [← map_sortedAt, ← List.map_reverse, List.takeWhile_map, List.filter_map, List.length_map]
  rfl

theorem stampLe_trans {a b c : Option Int} (h : stampLe a b = true) (h' : stampLe b c = true) :
    stampLe a c = true := by
  cases a with
  | none => rfl
  | some x =>
    cases b with
    | none => cases h
    | some y =>
      cases c with
      | none => cases h'
      | some z => exact decide_eq_true (Int.le_trans (of_decide_eq_true h) (of_decide_eq_true h'))

theorem stampLe_total (a b : Option Int) : (stampLe a b || stampLe b a) = true := by
  cases a with
  | none => rfl
  | some x =>
    cases b with
    | none => rfl
    | some y =>
      rw [Bool.or_eq_true]
      exact (Int.le_total x y).imp decide_eq_true decide_eq_true

theorem byRevision_trans (a b c : SpawnLaunched) (h : byRevision a b = true)
    (h' : byRevision b c = true) : byRevision a c = true := stampLe_trans h h'

theorem byRevision_total (a b : SpawnLaunched) : (byRevision a b || byRevision b a) = true :=
  stampLe_total _ _

theorem stamped_concat (last : Option Int) (l : List SpawnLaunched) (close : SpawnLaunched) :
    stamped last (l ++ [close]) = stamped last l ++ [close.stampedAt (close.revision.or
      (((stamped last l).getLast?.map SpawnLaunched.revision).getD last))] := by
  induction l generalizing last with
  | nil => rfl
  | cons x l ih =>
    rw [List.cons_append, stamped, ih, stamped, List.cons_append]
    cases hl : stamped (x.revision.or last) l with
    | nil => rfl
    | cons y m =>
      obtain ⟨z, hz⟩ := Option.isSome_iff_exists.1 (List.getLast?_isSome.2 (List.cons_ne_nil y m))
      rw [List.getLast?_cons_cons, hz]
      rfl

theorem closes_concat {progressEvents : List Event} {e : Event} {close : SpawnLaunched}
    (he : decodeLaunch e = some close) (hclosed : close.isOpen = false) :
    closes (progressEvents ++ [e]) = closes progressEvents ++ [close] := by
  unfold closes decodedLaunches
  rw [List.filterMap_append, List.map_append, List.filter_append]
  simp [he, hclosed]

theorem effective_concat {progressEvents : List Event} {e : Event} {close : SpawnLaunched}
    (he : decodeLaunch e = some close) (hclosed : close.isOpen = false) :
    effective (progressEvents ++ [e]) =
      effective progressEvents ++ [close.stampedAt (stampNext progressEvents close)] := by
  unfold effective
  rw [closes_concat he hclosed, stamped_concat]
  have hlast :
    ((stamped none (closes progressEvents)).getLast?.map SpawnLaunched.revision).getD none =
      (stamped none (closes progressEvents)).getLast?.bind SpawnLaunched.revision := by
    cases (stamped none (closes progressEvents)).getLast? <;> rfl
  rw [hlast]
  rfl

/-! ## Appended closes, completed ones and releases -/

theorem sorted_concat {progressEvents : List Event} {e : Event} {close : SpawnLaunched}
    (he : decodeLaunch e = some close) (hclosed : close.isOpen = false)
    (hlast : ∀ x ∈ effective progressEvents,
      stampLe x.revision (stampNext progressEvents close) = true) :
    (sortedAt byRevision (effective (progressEvents ++ [e]))).reverse =
      (close.stampedAt (stampNext progressEvents close),
        (effective progressEvents).length) ::
        (sortedAt byRevision (effective progressEvents)).reverse := by
  rw [effective_concat he hclosed, sortedAt_concat byRevision_trans byRevision_total,
    List.reverse_append]
  · rfl
  · intro x hx
    exact hlast x hx

theorem counted_eq_nil {progressEvents : List Event} {released : Option Int}
    (h : ∀ x ∈ effective progressEvents, closedAfterRelease x.revision released = false) :
    counted progressEvents released = [] := by
  have hstop : (sortedAt byRevision (effective progressEvents)).reverse.takeWhile
      (fun x => goesOn released x.1) = [] := by
    rw [List.takeWhile_eq_nil_iff]
    intro hlt
    have hmem := List.mem_reverse.1 (List.getElem_mem hlt)
    have hstop : ∀ x ∈ sortedAt byRevision (effective progressEvents),
        goesOn released x.1 = false := by
      intro x hx
      rw [goesOn, h x.1 (List.mem_of_getElem? ((mem_sortedAt byRevision).1 hx)), Bool.and_false]
    exact Bool.not_eq_true _ ▸ hstop _ hmem
  rw [counted, hstop]
  rfl

section
variable {progressEvents : List Event} {released : Option Int} {e : Event} {close : SpawnLaunched}
  (he : decodeLaunch e = some close)
  (hlast : ∀ x ∈ effective progressEvents,
    stampLe x.revision (stampNext progressEvents close) = true)
include he hlast

theorem failedClosesSince_concat (hclosed : close.isOpen = false) :
    failedClosesSince (progressEvents ++ [e]) released =
      if goesOn released (close.stampedAt (stampNext progressEvents close)) then
        (if isFailed close then 1 else 0) + failedClosesSince progressEvents released
      else 0 := by
  rw [← length_counted, ← length_counted, counted, sorted_concat he hclosed hlast]
  by_cases h : goesOn released (close.stampedAt (stampNext progressEvents close)) = true
  · rw [if_pos h, List.takeWhile_cons]
    dsimp only
    rw [if_pos h]
    have hsame : isFailed (close.stampedAt (stampNext progressEvents close)) = isFailed close := rfl
    rw [List.filter_cons]
    dsimp only
    rw [hsame]
    by_cases hfailed : isFailed close = true
    · rw [if_pos hfailed, if_pos hfailed, List.length_cons, Nat.add_comm]
      rfl
    · rw [if_neg hfailed, if_neg hfailed, Nat.zero_add]
      rfl
  · rw [if_neg h, List.takeWhile_cons]
    dsimp only
    rw [if_neg h]
    rfl

theorem failedClosesSince_completed (h : close.ended = some endedCompleted) :
    failedClosesSince (progressEvents ++ [e]) released = 0 := by
  have hclosed : close.isOpen = false := by rw [SpawnLaunched.isOpen, h]; rfl
  have hstop : goesOn released (close.stampedAt (stampNext progressEvents close)) = false := by
    have hended :
      (close.stampedAt (stampNext progressEvents close)).ended = some endedCompleted := h
    rw [goesOn, hended, bne_self_eq_false, Bool.false_and]
  rw [failedClosesSince_concat he hlast hclosed, hstop]
  rfl

/-- A close that is not completed: where it stops the count every close is before the release. -/
theorem failedClosesSince_of_ne (hclosed : close.isOpen = false)
    (h : close.ended ≠ some endedCompleted) :
    failedClosesSince (progressEvents ++ [e]) released =
      (if isFailed close && closedAfterRelease (stampNext progressEvents
      close) released then 1 else 0) +
        failedClosesSince progressEvents released := by
  have hgoes : goesOn released (close.stampedAt (stampNext progressEvents close)) =
      closedAfterRelease (stampNext progressEvents close) released := by
    have hended : (close.stampedAt (stampNext progressEvents close)).ended = close.ended := rfl
    rw [goesOn, hended, bne_iff_ne.2 h, Bool.true_and]
    rfl
  rw [failedClosesSince_concat he hlast hclosed, hgoes]
  by_cases hafter : closedAfterRelease (stampNext progressEvents close) released = true
  · rw [if_pos hafter, hafter, Bool.and_true]
  · have hbefore : ∀ x ∈ effective progressEvents,
        closedAfterRelease x.revision released = false := by
      intro x hx
      refine eq_false_of_ne_true fun h => hafter ?_
      exact stampLe_trans h (hlast x hx)
    rw [if_neg hafter, eq_false_of_ne_true hafter, Bool.and_false, ← length_counted progressEvents,
      counted_eq_nil hbefore]
    rfl

end

/-- A completed close ends the count of each close before it that is not stamped above it. -/
theorem not_counted {progressEvents : List Event} {released : Option Int} {i j : Nat}
    {x close : SpawnLaunched} (hclose : (effective progressEvents)[j]? = some close)
    (hended : close.ended = some endedCompleted) (hij : i < j)
    (hle : stampLe x.revision close.revision = true) :
    (x, i) ∉ counted progressEvents released := by
  intro hmem
  have hne : ¬List.zipIdxLE byRevision (close, j) (x, i) = true := by
    rw [zipIdxLE_iff]
    rintro ⟨-, hplace⟩
    have := hplace hle
    omega
  have hgoes := of_mem_takeWhile_reverse (pairwise_sortedAt byRevision_trans byRevision_total _)
    (List.mem_of_mem_filter hmem) ((mem_sortedAt byRevision).2 hclose) hne
  have hstop : goesOn released close = false := by
    rw [goesOn, hended, bne_self_eq_false, Bool.false_and]
  rw [hstop] at hgoes
  exact Bool.false_ne_true hgoes

theorem failedClosesSince_anti (progressEvents : List Event) {released released' : Option Int}
    (h : stampLe released released' = true) :
    failedClosesSince progressEvents released' ≤ failedClosesSince progressEvents released := by
  unfold failedClosesSince
  refine ((takeWhile_sublist (fun x hx => ?_) _).filter _).length_le
  unfold goesOn closedAfterRelease at hx ⊢
  rw [Bool.and_eq_true] at hx ⊢
  exact ⟨hx.1, stampLe_trans h hx.2⟩

/-! ## The count as a whole -/

/-- What the count does, for closes no stamp of the log is above. -/
structure Counting (progressEvents : List Event) (released : Option Int) : Prop where
  appended : ∀ e close, decodeLaunch e = some close → close.isOpen = false →
    (∀ x ∈ effective progressEvents, stampLe x.revision (stampNext progressEvents close) = true) →
    (close.ended = some endedCompleted →
      failedClosesSince (progressEvents ++ [e]) released = 0) ∧
    (close.ended = some endedInterrupted → failedClosesSince (progressEvents ++ [e]) released =
      failedClosesSince progressEvents released) ∧
    (close.ended = some endedFault ∨ close.ended = some endedStopped →
      closedAfterRelease (stampNext progressEvents close) released = true →
      failedClosesSince (progressEvents ++ [e]) released =
        failedClosesSince progressEvents released + 1)
  length : (counted progressEvents released).length = failedClosesSince progressEvents released
  ends : ∀ (i j : Nat) (x close : SpawnLaunched), (effective progressEvents)[j]? = some close →
    close.ended = some endedCompleted → i < j → stampLe x.revision close.revision = true →
    (x, i) ∉ counted progressEvents released
  anti : ∀ released', stampLe released released' = true →
    failedClosesSince progressEvents released' ≤ failedClosesSince progressEvents released

theorem counting (progressEvents : List Event) (released : Option Int) :
    Counting progressEvents released where
  appended e close he hclosed hlast := by
    refine ⟨failedClosesSince_completed he hlast, fun hended => ?_, fun hended hafter => ?_⟩
    · have hne : close.ended ≠ some endedCompleted := by
        rw [hended]
        decide
      have hfailed : isFailed close = false := by
        rw [isFailed, hended]
        decide
      rw [failedClosesSince_of_ne he hlast hclosed hne, hfailed]
      exact Nat.zero_add _
    · have hfailed : isFailed close = true := by
        rw [isFailed]
        rcases hended with hended | hended <;> rw [hended] <;> decide
      have hne : close.ended ≠ some endedCompleted := by
        rcases hended with hended | hended <;> rw [hended] <;> decide
      rw [failedClosesSince_of_ne he hlast hclosed hne, hfailed, hafter]
      exact Nat.add_comm _ _
  length := length_counted progressEvents released
  ends _ _ _ _ hclose hended hij hle := not_counted hclose hended hij hle
  anti _ h := failedClosesSince_anti progressEvents h

def closeEvent (id ended : String) (revision : Option Int) : Event :=
  Event.new (id, 0) typeSpawnLaunched (.json (.obj ([("spawn", .str "u/implementer#0"),
    ("launch", .num 0), ("session_id", .str id), ("started", .num 0), ("ended", .str ended)] ++
    (revision.map fun n => ("revision", Json.num n)).toList)))

/-- Two faults written with their stamps out of order. -/
def outOfOrder : List Event :=
  [closeEvent "a" endedFault (some 5), closeEvent "b" endedFault (some 3)]

/-- A completed close without a stamp takes the last one and is sorted below the first fault, and so
is one with a stamp of its own: both leave the fault counted. -/
theorem completed_below : failedClosesSince
    (outOfOrder ++ [closeEvent "c" endedCompleted none]) none = 1 ∧
    failedClosesSince [closeEvent "a" endedFault (some 5),
    closeEvent "c" endedCompleted (some 4)] none =
      1 ∧
    ¬(∀ progressEvents released e close, decodeLaunch e = some close →
      close.ended = some endedCompleted → (close.revision = none ∨
        ∀ x ∈ effective progressEvents, stampLe x.revision close.revision = true) →
      failedClosesSince (progressEvents ++ [e]) released = 0) := by
  have hclosed : effective (outOfOrder ++ [closeEvent "c" endedCompleted none]) =
      [⟨"u/implementer#0", 0, "a", none, 0, some endedFault, none, some 5, ""⟩,
        ⟨"u/implementer#0", 0, "b", none, 0, some endedFault, none, some 3, ""⟩,
        ⟨"u/implementer#0", 0, "c", none, 0, some endedCompleted, none, some 3, ""⟩] := by
    decide +kernel
  have hclosed' : effective [closeEvent "a" endedFault (some 5),
    closeEvent "c" endedCompleted (some 4)] =
      [⟨"u/implementer#0", 0, "a", none, 0, some endedFault, none, some 5, ""⟩,
        ⟨"u/implementer#0", 0, "c", none, 0, some endedCompleted, none, some 4, ""⟩] := by
    decide +kernel
  have hunstamped : failedClosesSince
      (outOfOrder ++ [closeEvent "c" endedCompleted none]) none = 1 := by
    rw [effective] at hclosed
    rw [failedClosesSince, hclosed]
    simp [List.mergeSort, byRevision, stampLe, goesOn, closedAfterRelease, isFailed, endedFault,
      endedCompleted, endedStopped]
  have hstamped : failedClosesSince
      [closeEvent "a" endedFault (some 5), closeEvent "c" endedCompleted (some 4)] none = 1 := by
    rw [effective] at hclosed'
    rw [failedClosesSince, hclosed']
    simp [List.mergeSort, byRevision, stampLe, goesOn, closedAfterRelease, isFailed, endedFault,
      endedCompleted, endedStopped]
  refine ⟨hunstamped, hstamped, fun h => ?_⟩
  have hzero := h outOfOrder none (closeEvent "c" endedCompleted none)
    ⟨"u/implementer#0", 0, "c", none, 0, some endedCompleted, none, none, ""⟩
    (by decide +kernel) rfl
    (.inl rfl)
  rw [hunstamped] at hzero
  exact absurd hzero (by decide)

end Rigger.Progress
