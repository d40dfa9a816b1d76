import Rigger.Domain.Run

/-!
# What the run-closure rule reads (`rigger-domain/src/run.rs`)

A cold rebuild of the graph keeps the events of `runClosureTypes` while it folds a log, and asks
`supersededGraphNodes` and `supersededEdgeBoundary` of those alone.  Both answer what they answer
over the whole log (`superseded_closure`): the attribution is by index, but what it says of a record
is not.
-/

namespace Rigger.Run

open Lib

def runClosureTypes : List String := [typeRunStarted, typeDecisionMade, typeReviewFinding]

def inClosure (e : Event) : Bool := runClosureTypes.contains e.type_

/-- The nanoseconds of the active run's start; none where no run has started. -/
def supersededEdgeBoundary (events : List Event) : Option Int :=
  ((currentRun events).head?.filter isRunStarted).map fun e => toNanos e.validFrom

theorem isRunStarted_inClosure (e : Event) (h : isRunStarted e = true) : inClosure e = true := by
  rw [inClosure, beq_iff_eq.1 h]
  decide

theorem supersededEdgeBoundary_filter (events : List Event) :
    supersededEdgeBoundary (events.filter inClosure) = supersededEdgeBoundary events := by
  unfold supersededEdgeBoundary
  rcases boundary_cases events with hnone | ⟨before, boundary, after, rfl, hboundary, hafter⟩
  · -- without a boundary the slice is the whole log, whose first event starts no run
    have hfiltered : ∀ e ∈ events.filter inClosure, isRunStarted e = false :=
      fun e he => hnone e (List.mem_of_mem_filter he)
    have hno : ∀ l : List Event, (∀ e ∈ l, isRunStarted e = false) →
        l.head?.filter isRunStarted = none := by
      intro l hl
      cases l with
      | nil => rfl
      | cons e l => simp [hl e List.mem_cons_self]
    rw [currentRun_of_none hnone, currentRun_of_none hfiltered, hno _ hnone, hno _ hfiltered]
  · rw [(currentRun_filter isRunStarted_inClosure _).2, currentRun_of_boundary hboundary hafter,
      List.filter_cons_of_pos (isRunStarted_inClosure boundary hboundary), List.head?_cons,
      List.head?_cons]

/-- The records of the closure's types are attributed alike; a lesson alone is left out. -/
theorem attributed_filter (current : Option String) (events : List Event) :
    attributed current (events.filter inClosure) =
      (attributed current events).filter fun a => a.2 != .lesson := by
  induction events generalizing current with
  | nil => rfl
  | cons e events ih =>
    by_cases hstarted : e.type_ = typeRunStarted
    · have hin : inClosure e = true := isRunStarted_inClosure e (beq_iff_eq.2 hstarted)
      rw [List.filter_cons_of_pos hin, attributed, attributed, if_pos hstarted, if_pos hstarted]
      exact ih _
    · by_cases hlesson : e.type_ = typeLessonLearned
      · have hin : inClosure e = false := by
          rw [inClosure, hlesson]
          decide
        have hrun : runOf current e = some .lesson := by rw [runOf, if_pos hlesson]
        rw [List.filter_cons_of_neg (by simp [hin]), attributed, if_neg hstarted, hrun]
        exact ih current
      · by_cases hrecord : e.type_ = typeDecisionMade ∨ e.type_ = typeReviewFinding
        · have hin : inClosure e = true := by
            unfold inClosure
            rcases hrecord with h | h <;> rw [h] <;> decide
          have hrun : runOf current e = some (windowOf current) := by
            rw [runOf, if_neg hlesson, if_pos hrecord]
          have hwindow : (windowOf current != .lesson) = true := by cases current <;> rfl
          rw [List.filter_cons_of_pos hin, attributed, attributed, if_neg hstarted, if_neg hstarted,
            hrun]
          show (e, windowOf current) :: _ = ((e, windowOf current) :: _).filter _
          rw [List.filter_cons, if_pos hwindow, ih current]
        · have hin : inClosure e = false := by
            simp only [not_or] at hrecord
            simp [inClosure, runClosureTypes, hstarted, hrecord.1, hrecord.2]
          have hrun : runOf current e = none := by rw [runOf, if_neg hlesson, if_neg hrecord]
          rw [List.filter_cons_of_neg (by simp [hin]), attributed, if_neg hstarted, hrun]
          exact ih current

theorem recorded_iff (events : List Event) (id : String) (p : RunOf → Bool) :
    Recorded events id p ↔
      ∃ a ∈ attributed none events, p a.2 = true ∧ graphNodeId a.1 = some id := by
  have hsame := attributeFrom_eq none [] events
  rw [List.length_nil, List.nil_append] at hsame
  have hmem : ∀ x : Option Event × RunOf,
      (∃ a ∈ runAttribution events, (events[a.1]?, a.2) = x) ↔
        ∃ a ∈ attributed none events, (some a.1, a.2) = x := by
    intro x
    rw [← List.mem_map, ← List.mem_map, runAttribution, hsame]
  constructor
  · rintro ⟨a, ha, hp, hid⟩
    obtain ⟨b, hb, heq⟩ := (hmem _).1 ⟨a, ha, rfl⟩
    obtain ⟨hevent, hrun⟩ := Prod.mk.inj heq
    refine ⟨b, hb, by rw [hrun]; exact hp, ?_⟩
    rw [← hevent, Option.bind_some] at hid
    exact hid
  · rintro ⟨b, hb, hp, hid⟩
    obtain ⟨a, ha, heq⟩ := (hmem _).2 ⟨b, hb, rfl⟩
    obtain ⟨hevent, hrun⟩ := Prod.mk.inj heq
    refine ⟨a, ha, by rw [hrun]; exact hp, ?_⟩
    rw [hevent]
    exact hid

theorem recorded_filter {p : RunOf → Bool} (hp : p .lesson = false) (events : List Event)
    (id : String) : Recorded (events.filter inClosure) id p ↔ Recorded events id p := by
  rw [recorded_iff, recorded_iff, attributed_filter]
  refine exists_congr fun a => ?_
  rw [List.mem_filter, bne_iff_ne]
  refine ⟨fun ⟨⟨ha, _⟩, h⟩ => ⟨ha, h⟩, fun ⟨ha, hpa, h⟩ => ⟨⟨ha, fun hlesson => ?_⟩, hpa, h⟩⟩
  rw [hlesson, hp] at hpa
  cases hpa

theorem currentRunId_filter (events : List Event) :
    currentRunId (events.filter inClosure) = currentRunId events := by
  rw [currentRunId, currentRunId, (currentRun_filter isRunStarted_inClosure events).1]

theorem disposed_filter (events : List Event) :
    (runAttribution (events.filter inClosure)).foldl
        (disposeStep (events.filter inClosure) (currentRunId events)) (∅, ∅) =
      (runAttribution events).foldl (disposeStep events (currentRunId events)) (∅, ∅) := by
  have hboth := fun id => mem_disposed (events.filter inClosure) id (currentRunId events)
    (runAttribution (events.filter inClosure)) (∅, ∅)
  have hwhole := fun id => mem_disposed events id (currentRunId events)
    (runAttribution events) (∅, ∅)
  refine Prod.ext ?_ ?_
  · ext id
    rw [(hboth id).1, (hwhole id).1]
    exact or_congr_right (recorded_filter (by cases currentRunId events <;> rfl) events id)
  · ext id
    rw [(hboth id).2, (hwhole id).2]
    exact or_congr_right (recorded_filter rfl events id)

/-- The prune a rebuild derives from the closure's events is the one the whole log says. -/
theorem superseded_closure (events : List Event) :
    supersededGraphNodes (events.filter inClosure) = supersededGraphNodes events ∧
      supersededEdgeBoundary (events.filter inClosure) = supersededEdgeBoundary events := by
  refine ⟨?_, supersededEdgeBoundary_filter events⟩
  unfold supersededGraphNodes
  dsimp only
  rw [currentRunId_filter, disposed_filter]

end Rigger.Run
