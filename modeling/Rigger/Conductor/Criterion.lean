import Rigger.Conductor.Compensate
import Rigger.Domain.Run
import Rigger.Lib.Attempt

/-!
# One criterion across runs (`rigger-conductor/src/conductor.rs`, `criterion_history`)

A unit that serves a criterion an earlier run of the spec already landed is not built again
(`landedCriterionUnit`); one whose criterion was left abandoned adopts the abandoned unit's branch
(`priorCriterionUnit`).  Both read one fold of the log, in which an integration or a compensation
acts on its unit's most recent start.

The fold keeps a standing integration when its unit starts again, so an attempt that restarted a
unit and never integrated it reads as landed (`landed_though_restarted`); `latest_attempt_decides`
says where the two answers are the latest attempt's.
-/

namespace Rigger.Conductor

open Lib

/-! ## The spec of a run -/

/-- `Path::file_stem`. -/
def fileStem (path : String) : String :=
  match ((path.toList.splitOn '/').filter fun part => part ≠ [] ∧ part ≠ ['.']).getLast? with
  | none => ""
  | some name =>
    if name = ['.', '.'] then ""
    else
      match rsplitOnceList '.' name with
      | some ([], _) => String.ofList name
      | some (stem, _) => String.ofList stem
      | none => String.ofList name

/-- A run of characters a git ref refuses becomes one hyphen; `lastDash` says whether the last
character written is one that stands for such a run. -/
def refSafe (lastDash : Bool) : List Char → List Char
  | [] => []
  | c :: cs =>
    if c.isAlphanum || c == '-' || c == '_' || c == '.' then c :: refSafe false cs
    else if lastDash then refSafe true cs
    else '-' :: refSafe true cs

/-- `ledger::spec_stem`. -/
def specStem (specPath : String) : String :=
  String.ofList
    (trimMatches (fun c => c == '-' || c == '.') (refSafe false (fileStem specPath).toList))

/-- `run::current_run_spec_path`. -/
def currentRunSpecPath (events : List Event) : String :=
  ((Run.latest events).map RunStarted.spec).getD ""

def currentRunSpec (events : List Event) : String := specStem (currentRunSpecPath events)

/-! ## The probes -/

structure StartedCriterionProbe where
  id : String
  criterionId : String
deriving DecidableEq

def StartedCriterionProbe.decode (data : Data) : Option StartedCriterionProbe := do
  let [id, criterionId] ← (← data.value).slots ["id", "criterion_id"] | none
  pure ⟨← Json.required Json.asStr id, ← Json.orDefault Json.asStr "" criterionId⟩

/-- `landedFrom` is the earlier commit of a unit that landed with no spawn. -/
structure IntegratedProbe where
  id : String
  commit : String
  landedFrom : Option String
deriving DecidableEq

def landedFromProbe (v : Json) : Option String := do
  let [commit] ← v.slots ["commit"] | none
  Json.orDefault Json.asStr "" commit

def IntegratedProbe.decode (data : Data) : Option IntegratedProbe := do
  let [id, commit, landedFrom] ← (← data.value).slots ["id", "commit", "landed_from"] | none
  pure
    { id := ← Json.required Json.asStr id
      commit := ← Json.orDefault Json.asStr "" commit
      landedFrom := ← Json.orDefault (Json.asOption landedFromProbe) none landedFrom }

/-- The commit an integration put on its run branch, empty where there is none. -/
def IntegratedProbe.branchCommit (p : IntegratedProbe) : String :=
  if p.commit = reviewOnlyNoArtifact then p.landedFrom.getD "" else p.commit

/-! ## The fold -/

/-- `starts` are the units that served the criterion, each with its run; `standing` are the commits
of those whose integration stands. -/
structure CriterionHistory where
  starts : List (String × String)
  standing : Std.ExtTreeMap String String

/-- The fold's state: the window's spec and run, and whether each unit's latest start served. -/
structure Window where
  spec : String
  run : String
  serves : Std.ExtTreeMap String Bool
  history : CriterionHistory

def probeOf (e : Event) : Option StartedCriterionProbe :=
  (StartedCriterionProbe.decode e.data).filter fun u => !u.id.isEmpty

def isCompensation (e : Event) : Bool :=
  e.type_ == Ledger.typeUnitFailed && (e.meta_[metaCompensated]?.any fun c => !c.isEmpty)

section
variable (criterionId targetSpec : String)

def Window.step (w : Window) (e : Event) : Window :=
  if e.type_ = typeRunStarted then
    match RunStarted.decode e.data with
    | some rs => { w with spec := specStem rs.spec, run := rs.run }
    | none => w
  else if e.type_ = Ledger.typeUnitStarted then
    match probeOf e with
    | some u =>
      let served := u.criterionId == criterionId && w.spec == targetSpec
      { w with
        serves := w.serves.insert u.id served
        history := { w.history with
          starts := if served then w.history.starts ++ [(u.id, w.run)] else w.history.starts } }
    | none => w
  else if e.type_ = Ledger.typeUnitIntegrated then
    match (IntegratedProbe.decode e.data).filter fun u => w.serves[u.id]? == some true with
    | some u =>
      { w with history := { w.history with
          standing := w.history.standing.insert u.id u.branchCommit } }
    | none => w
  else if isCompensation e then
    match (probeOf e).filter fun u => w.serves[u.id]? == some true with
    | some u => { w with history := { w.history with standing := w.history.standing.erase u.id } }
    | none => w
  else w

def Window.new : Window := ⟨"", "", ∅, ⟨[], ∅⟩⟩

def criterionHistory (events : List Event) : CriterionHistory :=
  (events.foldl (Window.step criterionId targetSpec) Window.new).history

end

/-! ## The two decisions -/

def priorCriterionUnit (events : List Event) (criterionId thisUnit : String) : Option String :=
  if criterionId.isEmpty then none
  else
    let history := criterionHistory criterionId (currentRunSpec events) events
    (history.starts.reverse.find? fun s => s.1 != thisUnit).bind fun candidate =>
      if history.standing.contains candidate.1 then none else some candidate.1

structure LandedCriterion where
  unit : String
  run : String
  commits : List String
deriving DecidableEq

/-- Whether the unit already started in the current run. -/
def startedHere (events : List Event) (thisUnit : String) : Bool :=
  (Run.currentRun events).any fun e => e.type_ == Ledger.typeUnitStarted &&
    (StartedCriterionProbe.decode e.data).any fun u => u.id == thisUnit

/-- The events before the current run's. -/
def earlierRuns (events : List Event) : List Event :=
  events.take (events.length - (Run.currentRun events).length)

def landedCriterionUnit (events : List Event) (criterionId thisUnit : String) :
    Option LandedCriterion :=
  let spec := currentRunSpec events
  if criterionId.isEmpty || spec.isEmpty then none
  else if startedHere events thisUnit then none
  else do
    let history := criterionHistory criterionId spec (earlierRuns events)
    let (unit, run) ← history.starts.getLast?
    let commits ← (history.starts.filter fun s => s.2 == run).mapM fun s => history.standing[s.1]?
    pure ⟨unit, run, commits⟩

/-! ## The log of one criterion -/

/-- A start carries whether it served the criterion under the spec, and its run; an outcome is the
commit of an integration, or none for a compensation. -/
abbrev Deed := Happening String (Bool × String) (Option String)

/-- The spec and run of the window an event leaves. -/
def windowAfter (window : String × String) (e : Event) : String × String :=
  if e.type_ = typeRunStarted then
    match RunStarted.decode e.data with
    | some rs => (specStem rs.spec, rs.run)
    | none => window
  else window

section
variable (criterionId targetSpec : String)

def deedOf (window : String × String) (e : Event) : Option Deed :=
  if e.type_ = typeRunStarted then none
  else if e.type_ = Ledger.typeUnitStarted then
    (probeOf e).map fun u =>
      .start u.id (u.criterionId == criterionId && window.1 == targetSpec, window.2)
  else if e.type_ = Ledger.typeUnitIntegrated then
    (IntegratedProbe.decode e.data).map fun u => .outcome u.id (some u.branchCommit)
  else if isCompensation e then (probeOf e).map fun u => .outcome u.id none
  else none

def deedsFrom (window : String × String) : List Event → List Deed
  | [] => []
  | e :: events =>
    (deedOf criterionId targetSpec window e).toList ++ deedsFrom (windowAfter window e) events

def deeds (events : List Event) : List Deed := deedsFrom criterionId targetSpec ("", "") events

end

/-- The units whose start served the criterion, each with its run. -/
def served (ds : List Deed) : List (String × String) :=
  ds.filterMap fun d =>
    match d with
    | .start id (true, run) => some (id, run)
    | _ => none

/-- The commit of the unit's integration since its last start for the criterion, unless it was
reverted. -/
def landing (ds : List Deed) (id : String) : Option String :=
  (Happening.fresh Prod.fst id ds).getLast?.join

/-- What the last integration or compensation of any of the unit's starts for the criterion left. -/
def lastWord (ds : List Deed) (id : String) : Option String :=
  (Happening.outcomes Prod.fst id ds).getLast?.join

/-- The unit started for the criterion again while an integration of it stood, and was neither
integrated nor compensated since. -/
def Restarted (ds : List Deed) (id : String) : Prop :=
  Happening.fresh Prod.fst id ds = [] ∧ (Happening.before Prod.fst id ds).getLast?.join ≠ none

theorem lastWord_start (ds : List Deed) (id other : String) (tag : Bool × String) :
    lastWord (ds ++ [.start id tag]) other = lastWord ds other := by
  unfold lastWord
  rw [Happening.outcomes_concat]
  show (_ ++ []).getLast?.join = _
  rw [List.append_nil]

theorem lastWord_outcome (ds : List Deed) (id other : String) (o : Option String) :
    lastWord (ds ++ [.outcome id o]) other =
      if id = other ∧ Happening.inForce Prod.fst other false ds = true then o
      else lastWord ds other := by
  unfold lastWord
  rw [Happening.outcomes_concat]
  show (_ ++ if id = other ∧ _ then [o] else []).getLast?.join = _
  split
  · rw [List.getLast?_concat]
    rfl
  · rw [List.append_nil]

variable {ds : List Deed} {id : String}

theorem lastWord_eq_landing (h : ¬Restarted ds id) : lastWord ds id = landing ds id := by
  unfold lastWord landing
  rw [Happening.getLast?_outcomes]
  cases hfresh : (Happening.fresh Prod.fst id ds).getLast? with
  | some o => rfl
  | none =>
    have hnil := List.getLast?_eq_none_iff.1 hfresh
    by_contra hbefore
    exact h ⟨hnil, hbefore⟩

theorem landing_of_restarted (h : Restarted ds id) : landing ds id = none := by
  unfold landing
  rw [h.1]
  rfl

theorem lastWord_of_restarted (h : Restarted ds id) : lastWord ds id ≠ none := by
  unfold lastWord
  rw [Happening.getLast?_outcomes, h.1]
  exact h.2

theorem lastWord_of_landing {commit : String} (h : landing ds id = some commit) :
    lastWord ds id = some commit := by
  by_cases hrestarted : Restarted ds id
  · rw [landing_of_restarted hrestarted] at h
    cases h
  · rw [lastWord_eq_landing hrestarted, h]

/-! ## What the fold keeps -/

section
variable {criterionId targetSpec : String}

def windowOfEvents (events : List Event) : String × String := events.foldl windowAfter ("", "")

theorem deedsFrom_append (window : String × String) (a b : List Event) :
    deedsFrom criterionId targetSpec window (a ++ b) =
      deedsFrom criterionId targetSpec window a ++
        deedsFrom criterionId targetSpec (a.foldl windowAfter window) b := by
  induction a generalizing window with
  | nil => rfl
  | cons e a ih =>
    show _ ++ deedsFrom _ _ _ (a ++ b) = _ ++ deedsFrom _ _ _ a ++ _
    rw [ih, List.append_assoc]
    rfl

theorem deeds_concat (events : List Event) (e : Event) :
    deeds criterionId targetSpec (events ++ [e]) = deeds criterionId targetSpec events ++
      (deedOf criterionId targetSpec (windowOfEvents events) e).toList := by
  show deedsFrom _ _ _ (events ++ [e]) = _
  rw [deedsFrom_append]
  show _ ++ ((deedOf _ _ _ e).toList ++ []) = _
  rw [List.append_nil]
  rfl

theorem served_append (a b : List Deed) : served (a ++ b) = served a ++ served b :=
  List.filterMap_append

/-- What the fold's state is of the events it walked. -/
structure Walked (criterionId targetSpec : String) (events : List Event) (w : Window) : Prop where
  window : (w.spec, w.run) = windowOfEvents events
  starts : w.history.starts = served (deeds criterionId targetSpec events)
  serves : ∀ id, (w.serves[id]? == some true) =
    Happening.inForce Prod.fst id false (deeds criterionId targetSpec events)
  standing : ∀ id, w.history.standing[id]? = lastWord (deeds criterionId targetSpec events) id

/-- An outcome writes the standing commit of its unit, or erases it. -/
def writeStanding (standing : Std.ExtTreeMap String String) (id : String) :
    Option String → Std.ExtTreeMap String String
  | some commit => standing.insert id commit
  | none => standing.erase id

theorem getElem?_writeStanding (standing : Std.ExtTreeMap String String) (id other : String)
    (o : Option String) :
    (writeStanding standing id o)[other]? = if id = other then o else standing[other]? := by
  cases o with
  | some commit => simp [writeStanding, Std.ExtTreeMap.getElem?_insert]
  | none => simp [writeStanding, Std.ExtTreeMap.getElem?_erase]

/-- What one event does to the fold: nothing but move the window, start a unit, or write what its
latest start, if it serves, left standing. -/
theorem step_cases (w : Window) (e : Event) :
    (deedOf criterionId targetSpec (w.spec, w.run) e = none ∧
      (w.step criterionId targetSpec e).serves = w.serves ∧
      (w.step criterionId targetSpec e).history = w.history ∧
      ((w.step criterionId targetSpec e).spec, (w.step criterionId targetSpec e).run) =
        windowAfter (w.spec, w.run) e) ∨
    (windowAfter (w.spec, w.run) e = (w.spec, w.run) ∧ ∃ id serves,
      deedOf criterionId targetSpec (w.spec, w.run) e = some (.start id (serves, w.run)) ∧
      w.step criterionId targetSpec e =
        { w with
          serves := w.serves.insert id serves
          history := { w.history with
            starts := if serves then w.history.starts ++ [(id, w.run)] else w.history.starts } }) ∨
    (windowAfter (w.spec, w.run) e = (w.spec, w.run) ∧ ∃ id o,
      deedOf criterionId targetSpec (w.spec, w.run) e = some (.outcome id o) ∧
      w.step criterionId targetSpec e =
        if w.serves[id]? == some true then
          { w with history := { w.history with
              standing := writeStanding w.history.standing id o } }
        else w) := by
  unfold deedOf windowAfter Window.step
  by_cases hrun : e.type_ = typeRunStarted
  · left
    simp only [hrun, if_true]
    cases RunStarted.decode e.data with
    | none => exact ⟨trivial, rfl, rfl, rfl⟩
    | some rs => exact ⟨trivial, rfl, rfl, rfl⟩
  · simp only [hrun, if_false]
    by_cases hstarted : e.type_ = Ledger.typeUnitStarted
    · simp only [hstarted, if_true]
      cases probeOf e with
      | none => exact Or.inl ⟨rfl, rfl, rfl, rfl⟩
      | some u => exact Or.inr (Or.inl ⟨trivial, u.id, _, rfl, rfl⟩)
    · simp only [hstarted, if_false]
      by_cases hintegrated : e.type_ = Ledger.typeUnitIntegrated
      · simp only [hintegrated, if_true]
        cases IntegratedProbe.decode e.data with
        | none => exact Or.inl ⟨rfl, rfl, rfl, rfl⟩
        | some u =>
          refine Or.inr (Or.inr ⟨trivial, u.id, some u.branchCommit, rfl, ?_⟩)
          cases hserves : w.serves[u.id]? == some true with
          | true => simp only [Option.filter_some, hserves, if_true, writeStanding]
          | false => simp only [Option.filter_some, hserves, Bool.false_eq_true, if_false]
      · simp only [hintegrated, if_false]
        by_cases hcompensation : isCompensation e = true
        · simp only [hcompensation, if_true]
          cases probeOf e with
          | none => exact Or.inl ⟨rfl, rfl, rfl, rfl⟩
          | some u =>
            refine Or.inr (Or.inr ⟨trivial, u.id, none, rfl, ?_⟩)
            cases hserves : w.serves[u.id]? == some true with
            | true => simp only [Option.filter_some, hserves, if_true, writeStanding]
            | false => simp only [Option.filter_some, hserves, Bool.false_eq_true, if_false]
        · simp only [hcompensation]
          exact Or.inl ⟨rfl, rfl, rfl, rfl⟩

theorem windowOfEvents_concat (events : List Event) (e : Event) :
    windowOfEvents (events ++ [e]) = windowAfter (windowOfEvents events) e := List.foldl_concat ..

theorem Walked.new : Walked criterionId targetSpec [] Window.new where
  window := rfl
  starts := rfl
  serves id := by
    show ((∅ : Std.ExtTreeMap String Bool)[id]? == some true) = false
    rw [Std.ExtTreeMap.getElem?_empty]
    rfl
  standing _ := Std.ExtTreeMap.getElem?_empty

theorem Walked.step {events : List Event} {w : Window} (h : Walked criterionId targetSpec events w)
    (e : Event) :
    Walked criterionId targetSpec (events ++ [e]) (w.step criterionId targetSpec e) := by
  have hdeeds : deeds criterionId targetSpec (events ++ [e]) = _ := deeds_concat events e
  rw [← h.window] at hdeeds
  have hwindow := windowOfEvents_concat events e
  rw [← h.window] at hwindow
  rcases step_cases w e with ⟨hdeed, hserves, hhistory, hnext⟩ | ⟨hkept, id, serves, hdeed, hstep⟩ |
    ⟨hkept, id, o, hdeed, hstep⟩
  · rw [hdeed, Option.toList_none, List.append_nil] at hdeeds
    exact
      { window := hnext.trans hwindow.symm
        starts := by rw [hhistory, hdeeds, h.starts]
        serves := by rw [hserves, hdeeds]; exact h.serves
        standing := by rw [hhistory, hdeeds]; exact h.standing }
  · rw [hdeed, Option.toList_some] at hdeeds
    rw [hstep]
    refine ⟨by rw [hwindow, hkept], ?_, fun other => ?_, fun other => ?_⟩
    · rw [hdeeds, served_append, ← h.starts]
      cases serves with
      | true => rfl
      | false => exact (List.append_nil _).symm
    · rw [hdeeds, Happening.inForce_append, ← h.serves other]
      show ((w.serves.insert id serves)[other]? == some true) = if id = other then serves else _
      have hinsert : (w.serves.insert id serves)[other]? =
          if id = other then some serves else w.serves[other]? := by
        simp [Std.ExtTreeMap.getElem?_insert]
      rw [hinsert]
      by_cases hid : id = other
      · rw [if_pos hid, if_pos hid]
        cases serves with
        | true => rfl
        | false => rfl
      · rw [if_neg hid, if_neg hid]
    · rw [hdeeds, lastWord_start]
      exact h.standing other
  · rw [hdeed, Option.toList_some] at hdeeds
    rw [hstep]
    have hserves : (w.serves[id]? == some true) = true ↔ Happening.inForce Prod.fst id false
        (deeds criterionId targetSpec events) = true := by rw [h.serves]
    have hstanding : ∀ other, (if w.serves[id]? == some true then
        writeStanding w.history.standing id o else w.history.standing)[other]? =
        lastWord (deeds criterionId targetSpec (events ++ [e])) other := by
      intro other
      rw [hdeeds, lastWord_outcome, ← h.standing other]
      by_cases hforce : (w.serves[id]? == some true) = true
      · simp only [hforce, if_true]
        rw [getElem?_writeStanding]
        by_cases hid : id = other
        · subst hid
          rw [if_pos rfl, if_pos ⟨rfl, hserves.1 hforce⟩]
        · rw [if_neg hid, if_neg fun hc => hid hc.1]
      · simp only [hforce, Bool.false_eq_true, if_false]
        refine (if_neg ?_).symm
        rintro ⟨rfl, hc⟩
        exact hforce (hserves.2 hc)
    have hstarts : w.history.starts =
        served (deeds criterionId targetSpec (events ++ [e])) := by
      rw [hdeeds, served_append, h.starts]
      exact (List.append_nil _).symm
    have hforce : ∀ other, (w.serves[other]? == some true) = Happening.inForce Prod.fst other false
        (deeds criterionId targetSpec (events ++ [e])) := by
      intro other
      rw [hdeeds, Happening.inForce_append]
      exact h.serves other
    by_cases hwrites : (w.serves[id]? == some true) = true
    · rw [if_pos hwrites]
      simp only [hwrites, if_true] at hstanding
      exact ⟨by rw [hwindow, hkept], hstarts, hforce, hstanding⟩
    · rw [if_neg hwrites]
      simp only [hwrites, Bool.false_eq_true, if_false] at hstanding
      exact ⟨by rw [hwindow, hkept], hstarts, hforce, hstanding⟩

theorem walked (events : List Event) :
    Walked criterionId targetSpec events
      (events.foldl (Window.step criterionId targetSpec) Window.new) := by
  induction events using List.reverseRecOn with
  | nil => exact Walked.new
  | append_singleton events e ih =>
    rw [List.foldl_concat]
    exact ih.step e

theorem criterionHistory_starts (events : List Event) :
    (criterionHistory criterionId targetSpec events).starts =
      served (deeds criterionId targetSpec events) := (walked events).starts

theorem criterionHistory_standing (events : List Event) (id : String) :
    (criterionHistory criterionId targetSpec events).standing[id]? =
      lastWord (deeds criterionId targetSpec events) id := (walked events).standing id

end

/-! ## The latest attempt -/

/-- The criterion's deeds of every run, and those of the runs before the current one. -/
def deedsOf (events : List Event) (criterionId : String) : List Deed :=
  deeds criterionId (currentRunSpec events) events

def deedsBefore (events : List Event) (criterionId : String) : List Deed :=
  deeds criterionId (currentRunSpec events) (earlierRuns events)

/-- The units of an attempt, the starts of its run. -/
def attempt (ds : List Deed) (run : String) : List String :=
  ((served ds).filter fun s => s.2 == run).map Prod.fst

/-- The most recent unit of the criterion other than `thisUnit`. -/
def latestOther (ds : List Deed) (thisUnit : String) : Option String :=
  ((served ds).reverse.find? fun s => s.1 != thisUnit).map Prod.fst

/-- `l` is what the latest attempt landed: its last start and, of every unit of it, the commit of
the integration that stands of that start. -/
structure AttemptLanded (ds : List Deed) (l : LandedCriterion) : Prop where
  latest : (served ds).getLast? = some (l.unit, l.run)
  landed : (attempt ds l.run).map (landing ds) = l.commits.map some

/-- The unit's criterion and spec have an id, and the run has not started it. -/
structure Undecided (events : List Event) (criterionId thisUnit : String) : Prop where
  criterion : criterionId ≠ ""
  spec : currentRunSpec events ≠ ""
  started : startedHere events thisUnit = false

/-- Both answers are those of the latest attempt. -/
structure Decides (events : List Event) (criterionId thisUnit : String) : Prop where
  landed : ∀ l, landedCriterionUnit events criterionId thisUnit = some l ↔
    Undecided events criterionId thisUnit ∧ AttemptLanded (deedsBefore events criterionId) l
  prior : ∀ u, priorCriterionUnit events criterionId thisUnit = some u ↔ criterionId ≠ "" ∧
    latestOther (deedsOf events criterionId) thisUnit = some u ∧
      landing (deedsOf events criterionId) u = none

/-- No unit of the latest attempt was restarted over an integration that stood, or another unit of
it ended on no integration; and the latest other unit was not so restarted. -/
structure NoneRestarted (events : List Event) (criterionId thisUnit : String) : Prop where
  landed : Undecided events criterionId thisUnit → ∀ unit run,
    (served (deedsBefore events criterionId)).getLast? = some (unit, run) →
      (∃ id ∈ attempt (deedsBefore events criterionId) run,
        lastWord (deedsBefore events criterionId) id = none) ∨
      ∀ id ∈ attempt (deedsBefore events criterionId) run,
        ¬Restarted (deedsBefore events criterionId) id
  prior : criterionId ≠ "" → ∀ u, latestOther (deedsOf events criterionId) thisUnit = some u →
    ¬Restarted (deedsOf events criterionId) u

section
variable {events : List Event} {criterionId thisUnit : String}

theorem landedCriterionUnit_eq_some (l : LandedCriterion) :
    landedCriterionUnit events criterionId thisUnit = some l ↔
      Undecided events criterionId thisUnit ∧
        (served (deedsBefore events criterionId)).getLast? = some (l.unit, l.run) ∧
        (attempt (deedsBefore events criterionId) l.run).map
          (lastWord (deedsBefore events criterionId)) = l.commits.map some := by
  have hmap : ∀ run, ((served (deedsBefore events criterionId)).filter fun s => s.2 == run).map
      (fun s => (criterionHistory criterionId (currentRunSpec events)
        (earlierRuns events)).standing[s.1]?) =
      (attempt (deedsBefore events criterionId) run).map
        (lastWord (deedsBefore events criterionId)) := by
    intro run
    rw [attempt, List.map_map]
    exact List.map_congr_left fun s _ => criterionHistory_standing _ _
  unfold landedCriterionUnit
  rw [Option.ite_none_left_eq_some, Option.ite_none_left_eq_some]
  simp only [Option.bind_eq_bind, Option.bind_eq_some_iff, criterionHistory_starts, Option.pure_def]
  constructor
  · rintro ⟨hids, hstarted, ⟨unit, run⟩, hlast, commits, hcommits, hl⟩
    cases hl
    refine ⟨⟨?_, ?_, by simpa using hstarted⟩, hlast, ?_⟩
    · rintro rfl
      exact hids rfl
    · intro hspec
      rw [hspec] at hids
      exact hids (Bool.or_true _)
    · rw [← hmap]
      exact mapM_eq_some_iff.1 hcommits
  · rintro ⟨⟨hcriterion, hspec, hstarted⟩, hlast, hcommits⟩
    refine ⟨by simp [hcriterion, hspec], by simp [hstarted], (l.unit, l.run), hlast, l.commits, ?_,
      rfl⟩
    exact mapM_eq_some_iff.2 ((hmap l.run).trans hcommits)

theorem priorCriterionUnit_eq_some (u : String) :
    priorCriterionUnit events criterionId thisUnit = some u ↔ criterionId ≠ "" ∧
      latestOther (deedsOf events criterionId) thisUnit = some u ∧
        lastWord (deedsOf events criterionId) u = none := by
  have hcontains : ∀ id,
    (criterionHistory criterionId (currentRunSpec events) events).standing.contains
      id = (lastWord (deedsOf events criterionId) id).isSome := by
    intro id
    rw [deedsOf, ← criterionHistory_standing]
    exact Std.ExtTreeMap.contains_eq_isSome_getElem?
  unfold priorCriterionUnit
  rw [Option.ite_none_left_eq_some]
  simp only [Option.bind_eq_some_iff, criterionHistory_starts, hcontains]
  constructor
  · rintro ⟨hcriterion, candidate, hfind, hstands⟩
    rw [Option.ite_none_left_eq_some] at hstands
    obtain ⟨hword, hu⟩ := hstands
    cases hu
    refine ⟨?_, by rw [latestOther, deedsOf, hfind]; rfl, by simpa using hword⟩
    rintro rfl
    exact hcriterion rfl
  · rintro ⟨hcriterion, hother, hword⟩
    obtain ⟨s, hfind, rfl⟩ := Option.map_eq_some_iff.1 hother
    exact ⟨by simp [hcriterion], s, hfind, if_neg (by simp [hword])⟩

variable {l : LandedCriterion}

/-- An attempt whose every unit stands integrated by its last start reads so. -/
theorem map_lastWord_of_lands {ds : List Deed} (h : AttemptLanded ds l) :
    (attempt ds l.run).map (lastWord ds) = l.commits.map some := by
  rw [← h.landed]
  refine List.map_congr_left fun id hid => ?_
  have hmem : landing ds id ∈ l.commits.map some := h.landed ▸ List.mem_map_of_mem hid
  obtain ⟨commit, -, hcommit⟩ := List.mem_map.1 hmem
  rw [← hcommit, lastWord_of_landing hcommit.symm]

/-- Where no unit was restarted over what stood, what reads as landed is. -/
theorem lands_iff {ds : List Deed} (hfresh : (served ds).getLast? = some (l.unit, l.run) →
      (∃ id ∈ attempt ds l.run, lastWord ds id = none) ∨
        ∀ id ∈ attempt ds l.run, ¬Restarted ds id) :
    AttemptLanded ds l ↔ (served ds).getLast? = some (l.unit, l.run) ∧
      (attempt ds l.run).map (lastWord ds) = l.commits.map some := by
  constructor
  · intro h
    exact ⟨h.latest, map_lastWord_of_lands h⟩
  · rintro ⟨hlatest, hwords⟩
    refine ⟨hlatest, ?_⟩
    rw [← hwords]
    refine List.map_congr_left fun id hid => ?_
    rcases hfresh hlatest with ⟨open_, hopen, hnone⟩ | hfresh
    · have hmem : none ∈ l.commits.map some := by
        rw [← hwords, ← hnone]
        exact List.mem_map_of_mem hopen
      obtain ⟨commit, -, hcommit⟩ := List.mem_map.1 hmem
      cases hcommit
    · exact (lastWord_eq_landing (hfresh id hid)).symm

/-- Both answers are the latest attempt's exactly where no unit was restarted over an integration
that stood and left as it was. -/
theorem latest_attempt_decides (events : List Event) (criterionId thisUnit : String) :
    Decides events criterionId thisUnit ↔ NoneRestarted events criterionId thisUnit := by
  constructor
  · intro h
    refine ⟨fun hundecided unit run hlast => ?_, fun hcriterion u hother hrestarted => ?_⟩
    · rw [or_iff_not_imp_left]
      intro hall id hid hrestarted
      have hwords : (attempt (deedsBefore events criterionId) run).map
          (lastWord (deedsBefore events criterionId)) =
          ((attempt (deedsBefore events criterionId) run).map fun id =>
            (lastWord (deedsBefore events criterionId) id).getD "").map some := by
        rw [List.map_map]
        refine List.map_congr_left fun other hother => ?_
        obtain ⟨commit, hcommit⟩ := Option.ne_none_iff_exists'.1 fun hnone =>
          hall ⟨other, hother, hnone⟩
        rw [Function.comp_apply, hcommit]
        rfl
      have hanswer := (landedCriterionUnit_eq_some ⟨unit, run, _⟩).2 ⟨hundecided, hlast, hwords⟩
      have hlanded := ((h.landed _).1 hanswer).2.landed
      have hmem := hlanded ▸ List.mem_map_of_mem (f := landing (deedsBefore events criterionId)) hid
      obtain ⟨commit, -, hcommit⟩ := List.mem_map.1 hmem
      rw [landing_of_restarted hrestarted] at hcommit
      cases hcommit
    · have hanswer := (h.prior u).2 ⟨hcriterion, hother, landing_of_restarted hrestarted⟩
      exact lastWord_of_restarted hrestarted ((priorCriterionUnit_eq_some u).1 hanswer).2.2
  · intro h
    refine ⟨fun l => ?_, fun u => ?_⟩
    · rw [landedCriterionUnit_eq_some]
      refine and_congr_right fun hundecided => (lands_iff fun hlast => ?_).symm
      exact h.landed hundecided l.unit l.run hlast
    · rw [priorCriterionUnit_eq_some]
      refine and_congr_right fun hcriterion => and_congr_right fun hother => ?_
      rw [lastWord_eq_landing (h.prior hcriterion u hother)]

end

/-! ## A restarted unit -/

def runStartedEvent (run spec : String) : Event :=
  Event.new ("", 0) typeRunStarted (.json (.obj [("run", .str run), ("spec", .str spec)]))

def unitStartedEvent (id criterionId : String) : Event :=
  Event.new ("", 0) Ledger.typeUnitStarted
    (.json (.obj [("id", .str id), ("criterion_id", .str criterionId)]))

def unitIntegratedEvent (id commit : String) : Event :=
  Event.new ("", 0) Ledger.typeUnitIntegrated
    (.json (.obj [("id", .str id), ("commit", .str commit)]))

/-- The first run lands the criterion; the second starts the same unit on it again, and is
abandoned. -/
def restartedLog : List Event :=
  [runStartedEvent "r1" "specs/1.md", unitStartedEvent "parse" "c1",
    unitIntegratedEvent "parse" "a1",
    runStartedEvent "r2" "specs/1.md", unitStartedEvent "parse" "c1",
    runStartedEvent "r3" "specs/1.md"]

theorem restartedLog_answers :
    landedCriterionUnit restartedLog "c1" "other" = some ⟨"parse", "r2", ["a1"]⟩ ∧
      (attempt (deedsBefore restartedLog "c1") "r2").map (landing (deedsBefore restartedLog "c1")) =
        [none] ∧
      priorCriterionUnit restartedLog "c1" "other" = none := by
  decide +kernel

/-- The third run reads the criterion as landed by the second, which never integrated it, and
leaves the abandoned work unadopted. -/
theorem landed_though_restarted :
    landedCriterionUnit restartedLog "c1" "other" = some ⟨"parse", "r2", ["a1"]⟩ ∧
      priorCriterionUnit restartedLog "c1" "other" = none ∧ ¬Decides restartedLog "c1" "other" := by
  obtain ⟨hlanded, hattempt, hprior⟩ := restartedLog_answers
  refine ⟨hlanded, hprior, fun h => ?_⟩
  have hlands := ((h.landed _).1 hlanded).2.landed
  rw [hattempt] at hlands
  cases hlands

end Rigger.Conductor
