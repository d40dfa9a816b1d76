import Rigger.Domain.Contextgraph
import Rigger.Lib.Latest

/-!
# Run scoping (`rigger-domain/src/run.rs`)

A run is the slice of the run stream from its `RunStarted` on.  `runAttribution` places every
decision and finding in the run whose window holds it; `keptHolder` reads the record that holds a
graph node from it, `supersededGraphNodes` the nodes a reset drops.  The two disagree exactly where
a lesson shares its id with a dead record that no live one repeats (`keptHolder_kept_iff`).
-/

namespace Rigger

open Lib

def typeRunStarted : String := "RunStarted"

/-- The body of a run's first event; `base` travels in its metadata and decodes empty. -/
structure RunStarted where
  run : String
  criteria : List String
  definition : String
  base : String
  baseTip : String
  spec : String
deriving DecidableEq

def RunStarted.decode (data : Data) : Option RunStarted := do
  let [run, criteria, definition, baseTip, spec] ←
    (← data.value).slots ["run", "criteria", "definition", "base_tip", "spec"] | none
  pure
    { run := ← Json.required Json.asStr run
      criteria := ← Json.orDefault (Json.asList Json.asStr) [] criteria
      definition := ← Json.orDefault Json.asStr "" definition
      base := ""
      baseTip := ← Json.orDefault Json.asStr "" baseTip
      spec := ← Json.orDefault Json.asStr "" spec }

def isRunStarted (e : Event) : Bool := e.type_ == typeRunStarted

/-- The id a graph node is folded under; a missing or empty one is none. -/
def graphNodeId (e : Event) : Option String :=
  ((e.data.value.bind (Json.get "id")).bind Json.asStr).filter fun id => !id.isEmpty

inductive RunOf where
  | run (id : String)
  | preBoundary
  | lesson
deriving DecidableEq

def RunOf.isLive (active : Option String) : RunOf → Bool
  | .run id => active == some id
  | .preBoundary => active.isNone
  | .lesson => false

namespace Run

/-- The latest run's body. -/
def latest (events : List Event) : Option RunStarted :=
  (events.reverse.find? isRunStarted).bind fun e => RunStarted.decode e.data

/-- `rposition`. -/
def lastBoundary (events : List Event) : Option Nat :=
  (events.reverse.findIdx? isRunStarted).map fun i => events.length - 1 - i

def currentRun (events : List Event) : List Event :=
  match lastBoundary events with
  | some i => events.drop i
  | none => events

def currentRunId (events : List Event) : Option String := (latest events).map RunStarted.run

/-! ## Boundaries -/

/-- A stream with no boundary, or cut at its last one. -/
theorem boundary_cases (events : List Event) : (∀ e ∈ events, isRunStarted e = false) ∨
    ∃ before boundary after, events = before ++ boundary :: after ∧
      isRunStarted boundary = true ∧ ∀ e ∈ after, isRunStarted e = false := by
  induction events using List.reverseRecOn with
  | nil => exact Or.inl (by simp)
  | append_singleton events e ih =>
    cases he : isRunStarted e with
    | true => exact Or.inr ⟨events, e, [], rfl, he, by simp⟩
    | false =>
      rcases ih with hnone | ⟨before, boundary, after, rfl, hboundary, hafter⟩
      · apply Or.inl
        intro x hx
        rcases List.mem_append.1 hx with hx | hx
        · exact hnone x hx
        · rw [List.mem_singleton.1 hx, he]
      · refine Or.inr ⟨before, boundary, after ++ [e], by simp, hboundary, fun x hx => ?_⟩
        rcases List.mem_append.1 hx with hx | hx
        · exact hafter x hx
        · rw [List.mem_singleton.1 hx, he]

section
variable {before after : List Event} {boundary : Event}

theorem find?_boundary (hboundary : isRunStarted boundary = true)
    (hafter : ∀ e ∈ after, isRunStarted e = false) :
    (before ++ boundary :: after).reverse.find? isRunStarted = some boundary := by
  rw [List.reverse_append, List.reverse_cons, List.append_assoc, List.find?_append,
    List.find?_eq_none.2, Option.none_or, List.find?_append, List.find?_singleton, hboundary]
  · rfl
  · intro e he
    rw [hafter e (List.mem_reverse.1 he)]
    exact Bool.false_ne_true

theorem currentRun_of_boundary (hboundary : isRunStarted boundary = true)
    (hafter : ∀ e ∈ after, isRunStarted e = false) :
    currentRun (before ++ boundary :: after) = boundary :: after := by
  have hindex :
      (before ++ boundary :: after).reverse.findIdx? isRunStarted = some after.length := by
    have hnone : after.reverse.findIdx? isRunStarted = none :=
      List.findIdx?_eq_none_iff.2 fun e he => hafter e (List.mem_reverse.1 he)
    rw [List.reverse_append, List.reverse_cons, List.append_assoc, List.findIdx?_append, hnone,
      Option.none_or, List.singleton_append, List.findIdx?_cons, hboundary]
    simp
  rw [currentRun, lastBoundary, hindex]
  simp

theorem currentRun_of_none {events : List Event} (h : ∀ e ∈ events, isRunStarted e = false) :
    currentRun events = events := by
  have hindex : events.reverse.findIdx? isRunStarted = none := by
    rw [List.findIdx?_eq_none_iff]
    exact fun e he => h e (List.mem_reverse.1 he)
  rw [currentRun, lastBoundary, hindex]
  rfl

end

/-- What lies before a boundary is not read. -/
theorem currentRun_append (before : List Event) {events : List Event}
    (h : ∃ e ∈ events, isRunStarted e = true) : latest (before ++ events) = latest events ∧
      currentRun (before ++ events) = currentRun events := by
  rcases boundary_cases events with hnone | ⟨init, boundary, after, rfl, hboundary, hafter⟩
  · obtain ⟨e, he, hstarted⟩ := h
    rw [hnone e he] at hstarted
    cases hstarted
  · rw [← List.append_assoc, latest, latest, find?_boundary hboundary hafter,
      find?_boundary hboundary hafter, currentRun_of_boundary hboundary hafter,
      currentRun_of_boundary hboundary hafter]
    exact ⟨rfl, rfl⟩

theorem currentRunId_isSome {events : List Event} (h : ∃ e ∈ events, isRunStarted e = true)
    (hdecodes : ∀ e ∈ events, isRunStarted e = true → (RunStarted.decode e.data).isSome = true) :
    (currentRunId events).isSome = true := by
  rcases boundary_cases events with hnone | ⟨before, boundary, after, rfl, hboundary, hafter⟩
  · obtain ⟨e, he, hstarted⟩ := h
    rw [hnone e he] at hstarted
    cases hstarted
  · rw [currentRunId, latest, find?_boundary hboundary hafter, Option.isSome_map]
    exact hdecodes boundary (by simp) hboundary

/-- A read that keeps the boundaries keeps the latest run and cuts its slice alike. -/
theorem currentRun_filter {keep : Event → Bool} (hkeep : ∀ e, isRunStarted e = true → keep e = true)
    (events : List Event) : latest (events.filter keep) = latest events ∧
      currentRun (events.filter keep) = (currentRun events).filter keep := by
  rcases boundary_cases events with hnone | ⟨before, boundary, after, rfl, hboundary, hafter⟩
  · have hnone' : ∀ e ∈ events.filter keep, isRunStarted e = false :=
      fun e he => hnone e (List.mem_of_mem_filter he)
    rw [currentRun_of_none hnone, currentRun_of_none hnone', latest, latest,
      List.find?_eq_none.2 fun e he => by rw [hnone' e (List.mem_reverse.1 he)]; simp,
      List.find?_eq_none.2 fun e he => by rw [hnone e (List.mem_reverse.1 he)]; simp]
    exact ⟨rfl, rfl⟩
  · have hafter' : ∀ e ∈ after.filter keep, isRunStarted e = false :=
      fun e he => hafter e (List.mem_of_mem_filter he)
    rw [List.filter_append, List.filter_cons, hkeep boundary hboundary, if_pos rfl, latest, latest,
      find?_boundary hboundary hafter, find?_boundary hboundary hafter',
      currentRun_of_boundary hboundary hafter, currentRun_of_boundary hboundary hafter',
      List.filter_cons, hkeep boundary hboundary, if_pos rfl]
    exact ⟨rfl, rfl⟩

/-! ## Attribution -/

/-- The run in force after an event. -/
def advance (current : Option String) (e : Event) : Option String :=
  match RunStarted.decode e.data with
  | some started => some started.run
  | none => current

def windowOf : Option String → RunOf
  | some id => .run id
  | none => .preBoundary

/-- Where one event belongs, in the window of the run in force. -/
def runOf (current : Option String) (e : Event) : Option RunOf :=
  if e.type_ = typeLessonLearned then some .lesson
  else if e.type_ = typeDecisionMade ∨ e.type_ = typeReviewFinding then some (windowOf current)
  else none

/-- The fold from index `i` on, in index order. -/
def attributeFrom (current : Option String) (i : Nat) : List Event → List (Nat × RunOf)
  | [] => []
  | e :: events =>
    if e.type_ = typeRunStarted then attributeFrom (advance current e) (i + 1) events
    else
      match runOf current e with
      | some runOf => (i, runOf) :: attributeFrom current (i + 1) events
      | none => attributeFrom current (i + 1) events

def runAttribution (events : List Event) : List (Nat × RunOf) := attributeFrom none 0 events

/-- The ids to drop and the ids to keep, after one attributed event. -/
def disposeStep (events : List Event) (active : Option String)
    (sets : Std.ExtTreeSet String × Std.ExtTreeSet String) (a : Nat × RunOf) :
    Std.ExtTreeSet String × Std.ExtTreeSet String :=
  if a.2 = .lesson then sets
  else
    match events[a.1]?.bind graphNodeId with
    | none => sets
    | some id =>
      if a.2.isLive active then (sets.1, sets.2.insert id) else (sets.1.insert id, sets.2)

/-- The nodes a reset drops: those of dead records that no live record repeats. -/
def supersededGraphNodes (events : List Event) : List String :=
  let active := currentRunId events
  let (dropCandidates, keep) := (runAttribution events).foldl (disposeStep events active) (∅, ∅)
  dropCandidates.toList.filter fun id => !keep.contains id

/-- The latest record a reset keeps that holds graph node `id`. -/
def keptHolder (events : List Event) (id : String) : Option Event :=
  let active := currentRunId events
  (((runAttribution events).reverse.filter fun a => a.2.isLive active || a.2 == .lesson).filterMap
    fun a => events[a.1]?).find? fun e => graphNodeId e == some id

/-- A record of graph node `id` that is attributed as `p` asks. -/
def Recorded (events : List Event) (id : String) (p : RunOf → Bool) : Prop :=
  ∃ a ∈ runAttribution events, p a.2 = true ∧ events[a.1]?.bind graphNodeId = some id

/-- A record of neither the active run nor a lesson. -/
def dead (active : Option String) (runOf : RunOf) : Bool := !runOf.isLive active && runOf != .lesson

section
variable (events : List Event) (id : String)

theorem mem_disposed (active : Option String) (attribution : List (Nat × RunOf))
    (sets : Std.ExtTreeSet String × Std.ExtTreeSet String) :
    (id ∈ (attribution.foldl (disposeStep events active) sets).1 ↔ id ∈ sets.1 ∨
        ∃ a ∈ attribution, dead active a.2 = true ∧ events[a.1]?.bind graphNodeId = some id) ∧
      (id ∈ (attribution.foldl (disposeStep events active) sets).2 ↔ id ∈ sets.2 ∨
        ∃ a ∈ attribution, a.2.isLive active = true ∧
          events[a.1]?.bind graphNodeId = some id) := by
  induction attribution generalizing sets with
  | nil => simp
  | cons a attribution ih =>
    obtain ⟨hdrop, hkeep⟩ := ih (disposeStep events active sets a)
    rw [List.foldl_cons, hdrop, hkeep]
    simp only [List.mem_cons, exists_eq_or_imp, ← or_assoc]
    unfold disposeStep
    by_cases hlesson : a.2 = .lesson
    · rw [if_pos hlesson, hlesson]
      simp [dead, RunOf.isLive]
    · rw [if_neg hlesson]
      cases hid : events[a.1]?.bind graphNodeId with
      | none => simp
      | some x =>
        have hinsert : ∀ s : Std.ExtTreeSet String, id ∈ s.insert x ↔ id ∈ s ∨ x = id := by
          intro s
          rw [Std.ExtTreeSet.mem_insert, Std.LawfulEqCmp.compare_eq_iff_eq, or_comm]
        cases hlive : a.2.isLive active <;> simp [dead, hlive, hlesson, hinsert]

theorem mem_supersededGraphNodes : id ∈ supersededGraphNodes events ↔
    Recorded events id (dead (currentRunId events)) ∧
      ¬Recorded events id (RunOf.isLive (currentRunId events)) := by
  obtain ⟨hdrop, hkeep⟩ := mem_disposed events id (currentRunId events) (runAttribution events)
    (∅, ∅)
  unfold supersededGraphNodes Recorded
  rw [List.mem_filter, Std.ExtTreeSet.mem_toList, hdrop, Bool.not_eq_true', ← Bool.not_eq_true,
    Std.ExtTreeSet.contains_iff_mem, hkeep]
  simp

theorem keptHolder_isSome_iff : (∃ e, keptHolder events id = some e) ↔
    Recorded events id (RunOf.isLive (currentRunId events)) ∨
      Recorded events id (· == .lesson) := by
  unfold keptHolder Recorded
  rw [← Option.isSome_iff_exists, List.find?_isSome]
  simp only [List.mem_filterMap, List.mem_filter, List.mem_reverse, Bool.or_eq_true, beq_iff_eq]
  constructor
  · rintro ⟨e, ⟨a, ⟨ha, hkept⟩, he⟩, hid⟩
    have hnode : events[a.1]?.bind graphNodeId = some id := by rw [he]; exact hid
    exact hkept.imp (fun h => ⟨a, ha, h, hnode⟩) fun h => ⟨a, ha, h, hnode⟩
  · intro h
    obtain ⟨a, ha, hkept, hnode⟩ : ∃ a ∈ runAttribution events,
        (a.2.isLive (currentRunId events) = true ∨ a.2 = .lesson) ∧
          events[a.1]?.bind graphNodeId = some id := by
      rcases h with ⟨a, ha, hlive, hnode⟩ | ⟨a, ha, hlesson, hnode⟩
      · exact ⟨a, ha, Or.inl hlive, hnode⟩
      · exact ⟨a, ha, Or.inr hlesson, hnode⟩
    obtain ⟨e, he, hid⟩ := Option.bind_eq_some_iff.1 hnode
    exact ⟨e, ⟨a, ⟨ha, hkept⟩, he⟩, hid⟩

/-- A reset spares the node of the record that holds it, exactly unless a lesson shares the id of a
dead record and no live record carries it. -/
theorem keptHolder_kept_iff :
    (∀ e, keptHolder events id = some e → id ∉ supersededGraphNodes events) ↔
      ¬(Recorded events id (· == .lesson) ∧ Recorded events id (dead (currentRunId events)) ∧
        ¬Recorded events id (RunOf.isLive (currentRunId events))) := by
  rw [← not_iff_not, not_not]
  simp only [not_forall, not_not, exists_prop, exists_and_right]
  rw [keptHolder_isSome_iff, mem_supersededGraphNodes]
  constructor
  · rintro ⟨hkept, hdead, hlive⟩
    exact ⟨hkept.resolve_left hlive, hdead, hlive⟩
  · rintro ⟨hlesson, hdead, hlive⟩
    exact ⟨Or.inr hlesson, hdead, hlive⟩

end

/-- A decision of a closed run, and a lesson of the active one under the same id. -/
def reusedIdEvents : List Event :=
  [{ Event.new ("e1", 5) typeRunStarted (.json (.obj [("run", .str "r1")])) with position := 1 },
    { Event.new ("e2", 6) typeDecisionMade (.json (.obj [("id", .str "x")])) with position := 2 },
    { Event.new ("e3", 7) typeRunStarted (.json (.obj [("run", .str "r2")])) with position := 3 },
    { Event.new ("e4", 8) typeLessonLearned (.json (.obj [("id", .str "x")])) with position := 4 }]

/-- The reset drops the node the lesson holds. -/
theorem reusedId_dropped :
    (∀ e ∈ reusedIdEvents, e.type_ = typeRunStarted → (RunStarted.decode e.data).isSome = true) ∧
      ∃ e, keptHolder reusedIdEvents "x" = some e ∧ e.type_ = typeLessonLearned ∧
        "x" ∈ supersededGraphNodes reusedIdEvents := by
  refine ⟨by decide, { Event.new ("e4", 8) typeLessonLearned (.json (.obj [("id", .str "x")])) with
    position := 4 }, by decide, rfl, by decide⟩

/-! ## Kept records across a boundary -/

/-- The attribution, with the records themselves in place of their indices. -/
def attributed (current : Option String) : List Event → List (Event × RunOf)
  | [] => []
  | e :: events =>
    if e.type_ = typeRunStarted then attributed (advance current e) events
    else
      match runOf current e with
      | some runOf => (e, runOf) :: attributed current events
      | none => attributed current events

/-- The record, where it holds `id` and the active run keeps it. -/
def heldBy (active : Option String) (id : String) (a : Event × RunOf) : Option Event :=
  if a.2.isLive active || a.2 == .lesson then some a.1 |>.filter fun e => graphNodeId e == some id
  else none

/-- The event, where it is a lesson that holds `id`. -/
def lessonOf (id : String) (e : Event) : Option Event :=
  if e.type_ = typeLessonLearned then some e |>.filter fun e => graphNodeId e == some id else none

theorem attributeFrom_eq (current : Option String) (before events : List Event) :
    (attributeFrom current before.length events).map
        (fun a => ((before ++ events)[a.1]?, a.2)) =
      (attributed current events).map fun a => (some a.1, a.2) := by
  induction events generalizing current before with
  | nil => rfl
  | cons e events ih =>
    have hnext : ∀ current : Option String,
        (attributeFrom current (before.length + 1) events).map
            (fun a => ((before ++ e :: events)[a.1]?, a.2)) =
          (attributed current events).map fun a => (some a.1, a.2) := by
      intro current
      have h := ih current (before ++ [e])
      rw [List.length_append, List.length_singleton, List.append_assoc, List.singleton_append] at h
      exact h
    unfold attributeFrom attributed
    by_cases hstarted : e.type_ = typeRunStarted
    · rw [if_pos hstarted, if_pos hstarted]
      exact hnext _
    · rw [if_neg hstarted, if_neg hstarted]
      cases runOf current e with
      | none => exact hnext current
      | some runOf =>
        show (_, _) :: _ = (_, _) :: _
        rw [hnext current, List.getElem?_append_right (Nat.le_refl _), Nat.sub_self]
        rfl

theorem keptHolder_eq (events : List Event) (id : String) : keptHolder events id =
    Lib.latest (heldBy (currentRunId events) id) (attributed none events) := by
  let held : Option Event × RunOf → Option Event := fun a =>
    if a.2.isLive (currentRunId events) || a.2 == .lesson then
      a.1.filter fun e => graphNodeId e == some id
    else none
  have hleft : keptHolder events id =
      Lib.latest held ((runAttribution events).map fun a => (events[a.1]?, a.2)) := by
    rw [latest_map, Lib.latest, keptHolder, List.filter_reverse, List.filterMap_reverse,
      ← List.head?_filter, List.filter_reverse, List.head?_reverse, List.filter_filterMap,
      List.filterMap_filter]
  have hright : Lib.latest (heldBy (currentRunId events) id) (attributed none events) =
      Lib.latest held ((attributed none events).map fun a => (some a.1, a.2)) := by
    rw [latest_map]
    rfl
  have hsame := attributeFrom_eq none [] events
  rw [List.length_nil, List.nil_append] at hsame
  rw [hleft, hright, runAttribution, hsame]

theorem attributed_append (current : Option String) (before events : List Event) :
    attributed current (before ++ events) = attributed current before ++
      attributed (before.foldl (fun c e => if e.type_ = typeRunStarted then advance c e else c)
        current) events := by
  induction before generalizing current with
  | nil => rfl
  | cons e before ih =>
    rw [List.cons_append, List.foldl_cons, attributed, attributed]
    by_cases hstarted : e.type_ = typeRunStarted
    · rw [if_pos hstarted, if_pos hstarted, if_pos hstarted, ih]
    · rw [if_neg hstarted, if_neg hstarted, if_neg hstarted]
      cases runOf current e with
      | none => exact ih current
      | some runOf => exact congrArg _ (ih current)

/-- Before every boundary of the active run, the lessons alone are kept. -/
theorem held_of_dead {active current : Option String}
    (hcurrent : (windowOf current).isLive active = false) (before : List Event)
    (hbefore : ∀ e ∈ before, isRunStarted e = true →
      ∀ started, RunStarted.decode e.data = some started → active ≠ some started.run)
    (id : String) :
    (attributed current before).filterMap (heldBy active id) = before.filterMap (lessonOf id) := by
  induction before generalizing current with
  | nil => rfl
  | cons e before ih =>
    have hrest := fun x hx => hbefore x (List.mem_cons_of_mem e hx)
    unfold attributed
    by_cases hstarted : e.type_ = typeRunStarted
    · have hlesson : lessonOf id e = none := by
        rw [lessonOf, hstarted]
        rfl
      rw [if_pos hstarted, List.filterMap_cons, hlesson]
      refine ih ?_ hrest
      unfold advance
      cases hdecode : RunStarted.decode e.data with
      | none => exact hcurrent
      | some started =>
        have hne := hbefore e List.mem_cons_self (beq_iff_eq.2 hstarted) started hdecode
        exact beq_eq_false_iff_ne.2 hne
    · rw [if_neg hstarted]
      unfold runOf
      by_cases hlesson : e.type_ = typeLessonLearned
      · rw [if_pos hlesson]
        show ((e, RunOf.lesson) :: _).filterMap _ = _
        rw [List.filterMap_cons, List.filterMap_cons, ih hcurrent hrest]
        have hheld : heldBy active id (e, .lesson) = lessonOf id e := by
          rw [heldBy, lessonOf, if_pos hlesson]
          rfl
        rw [hheld]
      · have hnone : lessonOf id e = none := if_neg hlesson
        rw [if_neg hlesson, List.filterMap_cons, hnone]
        by_cases hrecord : e.type_ = typeDecisionMade ∨ e.type_ = typeReviewFinding
        · rw [if_pos hrecord]
          show ((e, windowOf current) :: _).filterMap _ = _
          have hheld : heldBy active id (e, windowOf current) = none := by
            rw [heldBy, hcurrent]
            cases current <;> rfl
          rw [List.filterMap_cons, hheld]
          exact ih hcurrent hrest
        · rw [if_neg hrecord]
          exact ih hcurrent hrest

/-- Behind a boundary that decodes, what the earlier part adds to the kept records is its
lessons, unless the active run began there too. -/
theorem keptHolder_append {before events : List Event} {boundary : Event} {started : RunStarted}
    (hboundary : isRunStarted boundary = true)
    (hdecode : RunStarted.decode boundary.data = some started)
    (hactive : (currentRunId (boundary :: events)).isSome = true)
    (hbefore : ∀ e ∈ before, isRunStarted e = true → ∀ earlier,
      RunStarted.decode e.data = some earlier →
        currentRunId (boundary :: events) ≠ some earlier.run) (id : String) :
    keptHolder (before ++ boundary :: events) id =
      (Lib.latest (heldBy (currentRunId (boundary :: events)) id)
        (attributed none (boundary :: events))).or (Lib.latest (lessonOf id) before) := by
  have hrun : currentRunId (before ++ boundary :: events) = currentRunId (boundary :: events) := by
    rw [currentRunId, (currentRun_append before ⟨boundary, List.mem_cons_self, hboundary⟩).1]
    rfl
  have hstarted : boundary.type_ = typeRunStarted := beq_iff_eq.1 hboundary
  have hwindow : ∀ current : Option String, attributed current (boundary :: events) =
      attributed none (boundary :: events) := by
    intro current
    rw [attributed, attributed, if_pos hstarted, if_pos hstarted, advance, advance, hdecode]
  have hdead : (windowOf none).isLive (currentRunId (boundary :: events)) = false := by
    obtain ⟨run, hsome⟩ := Option.isSome_iff_exists.1 hactive
    rw [hsome]
    rfl
  rw [keptHolder_eq, hrun, attributed_append, latest_append, hwindow]
  congr 1
  rw [Lib.latest, held_of_dead hdead before hbefore]
  rfl

end Run

end Rigger
