import Rigger.Domain.Hold
import Rigger.Domain.Spawns
import Rigger.Store.RunRead

/-!
# What the conditional writers decide (`rigger-store-sqlite/src/run_store.rs`, `spawn_store.rs`)

Every conditional writer of the run stream decides an event over the current run as it reads it,
then over what landed behind the read, of the types it reads, folded into what it carries.  `Knows`
says what a call carries of the log it read last, from the boundary it looked up on.  A decision
answers what it would answer anew on the log from that boundary on (`known_first`, `known_again`),
and that is its answer on the current run's slice (`decision_slice`, `decision_nothing`) where the
hold kept from the boundary on is the slice's (`HoldKept`).
-/

namespace Rigger.Conditional

open Lib Ledger Spawn

/-- The run stream. -/
def stream : String := "run"

/-- A fresh id and the clock's reading. -/
abbrev Mint := String × SystemTime

inductive Call where
  | sighting (cause detail model : String) (mint : Mint)
  | failedProbe (category : String) (mint : Mint)
  | release (by_ : String) (now : SystemTime) (mint : Mint)
  | releaseProbed (probed : Int) (now : SystemTime) (mint : Mint)
  | holdByOperator (reason : String) (mint : Mint)
  | ifAbsent (res : Result) (mint : Mint)
  | unlessEnded (res : Result) (mint : Mint)

/-- What a call carries from one decision to the next: the state the hold writers fold, and the
events `hold_by_operator` has read. -/
structure Carried where
  state : RunState
  readSoFar : List Event

def Carried.new : Carried := ⟨RunState.new, []⟩

def heldEvent (mint : Mint) (body : RunHeld) : Event :=
    Event.new mint typeRunHeld (.json body.encode)

/-- `released_by`. -/
def releasedBy (by_ : String) (hold : Hold) (now : SystemTime) (mint : Mint) : Event :=
  Event.new mint typeRunReleased
    (.json (.obj [("by", .str by_), ("held_for_s", .num (heldForS hold.since now))]))

/-- `SpawnResult` on the wire, empty fields left out. -/
def resultEvent (mint : Mint) (res : Result) : Event :=
  Event.new mint typeSpawnResult (.json (.obj ([("id", .str res.id)] ++
    (if res.output = "" then [] else [("output", .str res.output)]) ++
    (if res.error = "" then [] else [("error", .str res.error)]) ++
    (if res.meta_ = .null then [] else [("meta", res.meta_)]))))

/-- `append_on_hold`'s decision: the hold events of a read folded into the state, then `decide`. -/
def onHold (decide : Option Hold → Option Event) (carried : Carried) (read : List Event) :
    Option (Carried × Option Event) :=
  (foldHolds carried.state read).map fun state => ({ carried with state }, decide state.hold)

/-- `record_result_unless`'s decision. -/
def onResult (standing : List Event → String → Option (Option Result)) (res : Result) (mint : Mint)
    (carried : Carried) (read : List Event) : Option (Carried × Option Event) :=
  (standing read res.id).map fun r =>
    (carried, if r.isSome then none else some (resultEvent mint res))

/-- `hold_by_operator`'s decision; a re-read starts at the pinned revision, already read. -/
def onOperator (reason : String) (mint : Mint) (carried : Carried) (read : List Event) :
    Option (Carried × Option Event) :=
  let seen := carried.readSoFar.getLast?.map Event.revision
  let landed := read.filter fun e => seen.all fun seen => decide (seen < e.revision)
  let readSoFar := carried.readSoFar ++ landed
  let events := Run.currentRun readSoFar
  (project events).map fun run =>
    ({ carried with readSoFar },
      match Run.currentRunId events with
      | none => none
      | some _ =>
        if run.done then none
        else
          let model := (run.hold.map fun hold => hold.latest.model).getD ""
          some (heldEvent mint { heldBy operator "" holdByOperator model with action := reason }))

/-- The decision of a call over a read; none where it cannot read a body. -/
def consider : Call → Carried → List Event → Option (Carried × Option Event)
  | .sighting cause detail model mint =>
    let body := heldBy cause detail holdByHost model
    onHold fun hold => if Hold.movedBy hold body then some (heldEvent mint body) else none
  | .failedProbe category mint =>
    onHold fun hold => hold.bind fun h =>
      let body := heldBy category category holdByProbe h.latest.model
      if Hold.movedBy (some h) body then some (heldEvent mint body) else none
  | .release by_ now mint => onHold fun hold => hold.map fun h => releasedBy by_ h now mint
  | .releaseProbed probed now mint =>
    onHold fun hold => (hold.filter fun h => h.revision == probed).map fun h =>
      releasedBy holdByProbe h now mint
  | .holdByOperator reason mint => onOperator reason mint
  | .ifAbsent res mint => onResult resultOf res mint
  | .unlessEnded res mint => onResult endedBy res mint

/-- A call that folds the run's hold. -/
def Call.writesHold : Call → Bool
  | .sighting .. | .failedProbe .. | .release .. | .releaseProbed .. => true
  | .holdByOperator .. | .ifAbsent .. | .unlessEnded .. => false

def Call.readsResults : Call → Bool
  | .ifAbsent .. | .unlessEnded .. => true
  | .sighting .. | .failedProbe .. | .release .. | .releaseProbed .. | .holdByOperator .. => false

/-- The types a call reads of what landed behind its read. -/
def landed : Call → TypeSelection
  | .holdByOperator .. => .except perceptionTypes
  | .ifAbsent .. | .unlessEnded .. => .only [typeSpawnResult]
  | _ => .only holdTypes

/-- The current run's slice of a log, as every reader of it takes it. -/
def slice (log : List Event) : List Event := Run.currentRun (unperceived log)

/-- What a call's decision answers on a run's slice. -/
def decision (call : Call) (events : List Event) : Option (Option Event) :=
  (consider call .new events).map Prod.snd

/-! ## The log from a boundary on -/

/-- The log from a position on. -/
def since (b : Nat) (log : List Event) : List Event := log.filter fun e => decide (b ≤ e.position)

/-- `b` is 0, or the position of a run's first event in the log. -/
def Cut (b : Nat) (log : List Event) : Prop :=
  b = 0 ∨ ∃ before boundary after, log = before ++ boundary :: after ∧
    isRunStarted boundary = true ∧ boundary.position = b

/-- Positions and revisions grow along a stream. -/
def Sorted (log : List Event) : Prop :=
  log.Pairwise fun a b => a.position < b.position ∧ a.revision < b.revision

section
variable {b : Nat} {log more : List Event}

theorem since_zero (log : List Event) : since 0 log = log :=
  List.filter_eq_self.2 fun _ _ => decide_eq_true (Nat.zero_le _)

theorem Cut.append (h : Cut b log) : Cut b (log ++ more) := by
  rcases h with h | ⟨before, boundary, after, rfl, hboundary, hpos⟩
  · exact Or.inl h
  · exact Or.inr ⟨before, boundary, after ++ more, by simp, hboundary, hpos⟩

theorem Cut.since_eq {before after : List Event} {boundary : Event} (hs : Sorted log)
    (h : log = before ++ boundary :: after) (hpos : boundary.position = b) :
    since b log = boundary :: after := by
  subst h hpos
  have hpair := List.pairwise_append.1 hs
  unfold since
  rw [List.filter_append]
  have hbefore : before.filter (fun e => decide (boundary.position ≤ e.position)) = [] := by
    refine List.filter_eq_nil_iff.2 fun e he => ?_
    have := (hpair.2.2 e he boundary List.mem_cons_self).1
    simp only [decide_eq_true_eq]
    omega
  have hafter : (boundary :: after).filter (fun e => decide (boundary.position ≤ e.position)) =
      boundary :: after := by
    refine List.filter_eq_self.2 fun e he => ?_
    rcases List.mem_cons.1 he with rfl | he
    · exact decide_eq_true (Nat.le_refl _)
    · exact decide_eq_true (Nat.le_of_lt ((List.pairwise_cons.1 hpair.2.1).1 e he).1)
  rw [hbefore, hafter, List.nil_append]

variable {e : Event}

theorem Cut.le_of_landed (h : Cut b log) (hs : Sorted (log ++ more)) (he : e ∈ more) :
    b ≤ e.position := by
  rcases h with rfl | ⟨before, boundary, after, rfl, -, rfl⟩
  · exact Nat.zero_le _
  · exact Nat.le_of_lt ((List.pairwise_append.1 hs).2.2 boundary (by simp) e he).1

theorem since_append_of_le {p : Nat} (h : ∀ e ∈ more, p ≤ e.position) :
    since p (log ++ more) = since p log ++ more := by
  unfold since
  rw [List.filter_append, List.filter_eq_self.2 fun e he => decide_eq_true (h e he)]

theorem Cut.since_append (h : Cut b log) (hs : Sorted (log ++ more)) :
    since b (log ++ more) = since b log ++ more :=
  since_append_of_le fun _ he => h.le_of_landed hs he

theorem unperceived_append (a c : List Event) :
    unperceived (a ++ c) = unperceived a ++ unperceived c :=
  List.filter_append _ _

/-- The current run's slice is read from a boundary on. -/
theorem Cut.slice_eq (h : Cut b log) (hs : Sorted log) : slice (since b log) = slice log := by
  rcases h with rfl | ⟨before, boundary, after, hlog, hboundary, hpos⟩
  · rw [since_zero]
  · rw [Cut.since_eq hs hlog hpos, hlog]
    unfold slice
    rw [unperceived_append, Store.unperceived_started hboundary]
    exact (Run.currentRun_append _ ⟨boundary, List.mem_cons_self, hboundary⟩).2.symm

theorem mem_currentRun {events : List Event} (h : e ∈ Run.currentRun events) : e ∈ events := by
  unfold Run.currentRun at h
  split at h
  · exact List.mem_of_mem_drop h
  · exact h

theorem currentRun_landed (events : List Event) {c : List Event}
    (hc : ∀ e ∈ c, isRunStarted e = false) :
    Run.currentRun (events ++ c) = Run.currentRun events ++ c := by
  rcases Run.boundary_cases events with hnone | ⟨before, boundary, after, rfl, hboundary, hafter⟩
  · have hall : ∀ e ∈ events ++ c, isRunStarted e = false := by
      intro e he
      exact (List.mem_append.1 he).elim (hnone e) (hc e)
    rw [Run.currentRun_of_none hnone, Run.currentRun_of_none hall]
  · have hall : ∀ e ∈ after ++ c, isRunStarted e = false := by
      intro e he
      exact (List.mem_append.1 he).elim (hafter e) (hc e)
    rw [Run.currentRun_of_boundary hboundary hafter, List.append_assoc, List.cons_append,
      Run.currentRun_of_boundary hboundary hall]

theorem slice_landed (log : List Event) (h : ∀ e ∈ more, isRunStarted e = false) :
    slice (log ++ more) = slice log ++ unperceived more := by
  unfold slice
  rw [unperceived_append]
  exact currentRun_landed _ fun e he => h e (List.mem_of_mem_filter he)

theorem slice_started (log : List Event) (h : isRunStarted e = true) :
    slice (log ++ [e]) = [e] := by
  have hnone : ∀ x ∈ ([] : List Event), isRunStarted x = false := fun x hx => by cases hx
  unfold slice
  rw [unperceived_append, show unperceived [e] = [e] from Store.unperceived_started h []]
  exact Run.currentRun_of_boundary h hnone

theorem currentRun_currentRun (events : List Event) :
    Run.currentRun (Run.currentRun events) = Run.currentRun events := by
  rcases Run.boundary_cases events with hnone | ⟨before, boundary, after, rfl, hboundary, hafter⟩
  · rw [Run.currentRun_of_none hnone, Run.currentRun_of_none hnone]
  · rw [Run.currentRun_of_boundary hboundary hafter]
    show Run.currentRun ([] ++ boundary :: after) = boundary :: after
    exact Run.currentRun_of_boundary hboundary hafter

theorem exists_cut (log : List Event) : ∃ b, Cut b log ∧ (Sorted log →
    slice log = unperceived (since b log)) ∧
      (((log.filter isRunStarted).getLast?.map Event.position).getD 0) = b := by
  rcases Run.boundary_cases log with hnone | ⟨before, boundary, after, rfl, hboundary, hafter⟩
  · have hfilter : log.filter isRunStarted = [] :=
      List.filter_eq_nil_iff.2 fun e he => by rw [hnone e he]; exact Bool.false_ne_true
    refine ⟨0, Or.inl rfl, fun _ => ?_, by rw [hfilter]; rfl⟩
    rw [since_zero]
    exact Run.currentRun_of_none fun e he => hnone e (List.mem_of_mem_filter he)
  · have hfilter : (before ++ boundary :: after).filter isRunStarted =
        before.filter isRunStarted ++ [boundary] := by
      have hnone : after.filter isRunStarted = [] :=
        List.filter_eq_nil_iff.2 fun e he => by rw [hafter e he]; exact Bool.false_ne_true
      rw [List.filter_append, List.filter_cons_of_pos hboundary, hnone]
    refine ⟨boundary.position, Or.inr ⟨before, boundary, after, rfl, hboundary, rfl⟩,
      fun hs => ?_, ?_⟩
    · rw [Cut.since_eq hs rfl rfl, Store.unperceived_started hboundary]
      unfold slice
      rw [unperceived_append, Store.unperceived_started hboundary]
      exact Run.currentRun_of_boundary hboundary fun e he => hafter e (List.mem_of_mem_filter he)
    · rw [hfilter, List.getLast?_concat]
      rfl

theorem Sorted.positions (h : Sorted log) : log.Pairwise fun a b => a.position < b.position :=
  h.imp And.left

theorem since_split {p : Nat} (hs : Sorted log) (h : b ≤ p) :
    ∃ early, since b log = early ++ since p log := by
  induction log with
  | nil => exact ⟨[], rfl⟩
  | cons e log ih =>
    obtain ⟨hfirst, hrest⟩ := List.pairwise_cons.1 hs
    obtain ⟨early, hearly⟩ := ih hrest
    by_cases hp : p ≤ e.position
    · refine ⟨[], ?_⟩
      have hall : ∀ q, q ≤ e.position → since q (e :: log) = e :: log := by
        intro q hq
        refine List.filter_eq_self.2 fun x hx => decide_eq_true ?_
        rcases List.mem_cons.1 hx with rfl | hx
        · exact hq
        · exact Nat.le_of_lt (Nat.lt_of_le_of_lt hq (hfirst x hx).1)
      rw [hall p hp, hall b (Nat.le_trans h hp), List.nil_append]
    · have hdrop : since p (e :: log) = since p log :=
        List.filter_cons_of_neg (by simp only [decide_eq_true_eq]; exact hp)
      rw [hdrop]
      by_cases hb : b ≤ e.position
      · refine ⟨e :: early, ?_⟩
        have hkeep : since b (e :: log) = e :: since b log :=
          List.filter_cons_of_pos (decide_eq_true hb)
        rw [hkeep, hearly, List.cons_append]
      · have hdrop' : since b (e :: log) = since b log :=
          List.filter_cons_of_neg (by simp only [decide_eq_true_eq]; exact hb)
        exact ⟨early, hdrop'.trans hearly⟩

/-- The narrow read is of the run's slice, as far as a type neither perception nor carried over
goes. -/
theorem filter_narrowed_since {keep : Event → Bool}
    (hkeep : ∀ e, keep e = true → isPerception e = false ∧ isCarriedOver e = false) :
    (log.filter (Store.narrowed b)).filter keep = (since b log).filter keep := by
  unfold since
  rw [List.filter_filter, List.filter_filter]
  refine List.filter_congr fun e _ => ?_
  cases hk : keep e with
  | false => rfl
  | true =>
    unfold Store.narrowed
    by_cases hb : b ≤ e.position
    · rw [if_pos hb, (hkeep e hk).1, decide_eq_true hb]
      rfl
    · rw [if_neg hb, (hkeep e hk).2, decide_eq_false hb]

theorem Cut.currentRun_narrowed (h : Cut b log) (hs : Sorted log) :
    Run.currentRun (log.filter (Store.narrowed b)) = slice log := by
  rcases h with rfl | ⟨before, boundary, after, rfl, hboundary, rfl⟩
  · exact (Store.prefixRead_zero hs.positions).currentRun
  · exact (Store.prefixRead_started hs.positions hboundary).currentRun

end

/-! ## The holds -/

section
variable {b p : Nat} {seen more log : List Event} {decide : Option Hold → Option Event}
  {carried carried' : Carried} {o : Option Event}

theorem isHoldEvent_kept {e : Event} (h : isHoldEvent e = true) :
    isPerception e = false ∧ isCarriedOver e = false := by
  have hall : ∀ type_ ∈ holdTypes, perceptionTypes.contains type_ = false ∧
      carryOverTypes.contains type_ = false := by decide
  exact hall e.type_ (List.contains_iff_mem.1 h)

theorem holdFold_isHoldEvent (hold : Option Hold) (events : List Event) :
    holdFold hold (events.filter isHoldEvent) = holdFold hold events :=
  holdFold_filter (fun _ h => h) hold events

theorem holdFold_unperceived (hold : Option Hold) (events : List Event) :
    holdFold hold (unperceived events) = holdFold hold events :=
  holdFold_filter (fun _ h => by rw [(isHoldEvent_kept h).1]; rfl) hold events

theorem onHold_eq_some (h : onHold decide carried seen = some (carried', o)) :
    holdFold carried.state.hold seen = some carried'.state.hold ∧
    decide carried'.state.hold = o := by
  obtain ⟨state, hstate, heq⟩ := Option.map_eq_some_iff.1 h
  cases heq
  exact ⟨by rw [← foldHolds_hold, hstate]; rfl, rfl⟩

theorem onHold_new (events : List Event) :
    (onHold decide .new events).map Prod.snd = (holdFold none events).map decide := by
  unfold onHold
  rw [Option.map_map, show (none : Option Hold) = RunState.new.hold from rfl, ← foldHolds_hold,
    Option.map_map]
  rfl

theorem onHold_first (h : onHold decide .new (log.filter (Store.narrowed b)) = some (carried, o)) :
    holdFold none (since b log) = some carried.state.hold ∧ decide carried.state.hold = o := by
  obtain ⟨hfold, ho⟩ := onHold_eq_some h
  rw [← holdFold_isHoldEvent, filter_narrowed_since fun _ => isHoldEvent_kept,
    holdFold_isHoldEvent] at hfold
  exact ⟨hfold, ho⟩

theorem onHold_again (hs : Sorted (seen ++ more)) (hb : Cut b seen) (hp : b ≤ p)
    (hmore : ∀ e ∈ more, p ≤ e.position)
    (hseen : holdFold none (since b seen) = some carried.state.hold)
    (h : onHold decide carried ((seen ++ more).filter fun e =>
      Decidable.decide (p ≤ e.position) && (TypeSelection.only holdTypes).selects e.type_) =
        some (carried', o)) :
    holdFold none (since b (seen ++ more)) = some carried'.state.hold ∧
      decide carried'.state.hold = o := by
  obtain ⟨hfold, ho⟩ := onHold_eq_some h
  refine ⟨?_, ho⟩
  have hread : (seen ++ more).filter (fun e =>
      Decidable.decide (p ≤ e.position) && (TypeSelection.only holdTypes).selects e.type_) =
      (since p (seen ++ more)).filter isHoldEvent := by
    unfold since
    rw [List.filter_filter]
    exact List.filter_congr fun e _ => Bool.and_comm _ _
  rw [hread, holdFold_isHoldEvent, since_append_of_le hmore, holdFold_append] at hfold
  obtain ⟨early, hearly⟩ := since_split (List.pairwise_append.1 hs).1 hp
  rw [hearly, holdFold_append] at hseen
  obtain ⟨hold, -, hlate⟩ := Option.bind_eq_some_iff.1 hseen
  rw [holdFold_again hlate, Option.bind_some] at hfold
  rw [hb.since_append hs, hearly, holdFold_append, holdFold_append, hseen, Option.bind_some, hfold]

end

/-! ## The results -/

section
variable {b p : Nat} {seen more log : List Event} {real : Result → Bool} {id : String}

theorem isResult_kept {e : Event} (h : (e.type_ == typeSpawnResult) = true) :
    isPerception e = false ∧ isCarriedOver e = false := by
  rw [isPerception, isCarriedOver, beq_iff_eq.1 h]
  decide

theorem standing_isResult (events : List Event) :
    standing real (events.filter fun e => e.type_ == typeSpawnResult) id =
      standing real events id :=
  standing_filter fun _ _ h => beq_iff_eq.2 h

theorem standing_unperceived (events : List Event) :
    standing real (unperceived events) id = standing real events id :=
  standing_filter fun _ _ h => by rw [(isResult_kept (beq_iff_eq.2 h)).1]; rfl

theorem standing_first :
    standing real (log.filter (Store.narrowed b)) id = standing real (since b log) id := by
  rw [← standing_isResult, filter_narrowed_since fun _ => isResult_kept, standing_isResult]

/-- With nothing standing in the part seen, a reread tail answers for the whole. -/
theorem standing_again {r : Option Result} (hs : Sorted (seen ++ more)) (hb : Cut b seen)
    (hp : b ≤ p) (hmore : ∀ e ∈ more, p ≤ e.position)
    (hseen : standing real (since b seen) id = some none)
    (h : standing real ((seen ++ more).filter fun e =>
      decide (p ≤ e.position) && (TypeSelection.only [typeSpawnResult]).selects e.type_)
        id = some r) :
    standing real (since b (seen ++ more)) id = some r := by
  have hread : (seen ++ more).filter (fun e =>
      decide (p ≤ e.position) && (TypeSelection.only [typeSpawnResult]).selects e.type_) =
      (since p (seen ++ more)).filter fun e => e.type_ == typeSpawnResult := by
    unfold since
    rw [List.filter_filter]
    refine List.filter_congr fun e _ => ?_
    rw [TypeSelection.selects, List.contains_cons, List.contains_nil, Bool.or_false, Bool.and_comm]
  rw [hread, standing_isResult, since_append_of_le hmore] at h
  obtain ⟨early, hearly⟩ := since_split (List.pairwise_append.1 hs).1 hp
  obtain ⟨hreadable, hnone⟩ := standing_eq_some.1 hseen
  obtain ⟨hlate, hr⟩ := standing_eq_some.1 h
  rw [hb.since_append hs]
  refine standing_eq_some.2 ⟨readable_append.2 ⟨hreadable, (readable_append.1 hlate).2⟩, ?_⟩
  rw [hearly, latestFor_append] at hnone
  rw [latestFor_append] at hr ⊢
  rw [hearly, latestFor_append]
  cases hmore : latestFor id more with
  | some found =>
    rw [hmore] at hr
    exact hr
  | none =>
    rw [hmore, Option.none_or] at hr
    rw [Option.none_or, hnone]
    cases hagain : latestFor id (since p seen) with
    | some found =>
      rw [hagain, Option.some_or] at hnone
      rw [hagain, hnone] at hr
      exact hr
    | none =>
      rw [hagain] at hr
      exact hr

/-- What stands in a run's slice stands in a longer one, and what does not stand in it does not in
a part that ends it. -/
theorem latestFor_slice (hb : Cut b log) (hs : Sorted log) {found : Result}
    (h : latestFor id (slice log) = some found) :
    latestFor id (unperceived (since b log)) = some found := by
  have hslice : slice log = Run.currentRun (unperceived (since b log)) := (hb.slice_eq hs).symm
  rcases Run.boundary_cases (unperceived (since b log)) with hnone | ⟨before, boundary, after,
    hsplit, hboundary, hafter⟩
  · rw [hslice, Run.currentRun_of_none hnone] at h
    exact h
  · rw [hslice, hsplit, Run.currentRun_of_boundary hboundary hafter] at h
    rw [hsplit, latestFor_append, h, Option.some_or]

end

/-! ## The operator's hold -/

section
variable {b p : Nat} {seen more log : List Event} {reason : String} {mint : Mint}
  {carried carried' : Carried} {o : Option Event}

/-- What a decision adds to the events read so far. -/
def unseen (carried : Carried) (read : List Event) : List Event :=
  read.filter fun e => (carried.readSoFar.getLast?.map Event.revision).all fun seen =>
    decide (seen < e.revision)

theorem decision_currentRun (events : List Event) :
    decision (.holdByOperator reason mint) (Run.currentRun events) =
      decision (.holdByOperator reason mint) events := by
  have hread : ∀ l : List Event, l.filter (fun e => (none : Option Int).all fun seen =>
      decide (seen < e.revision)) = l := fun l => List.filter_eq_self.2 fun _ _ => rfl
  change ((onOperator reason mint .new _).map Prod.snd) =
    (onOperator reason mint .new _).map Prod.snd
  unfold onOperator
  dsimp only [Carried.new, List.getLast?_nil, Option.map_none, List.nil_append]
  rw [hread, hread, currentRun_currentRun, Option.map_map, Option.map_map]
  rfl

theorem onOperator_eq_some {read : List Event}
    (h : onOperator reason mint carried read = some (carried', o)) :
    carried'.readSoFar = carried.readSoFar ++ unseen carried read ∧
      decision (.holdByOperator reason mint) carried'.readSoFar = some o := by
  obtain ⟨run, hrun, heq⟩ := Option.map_eq_some_iff.1 h
  cases heq
  refine ⟨rfl, ?_⟩
  have hread : ∀ l : List Event, l.filter (fun e => (none : Option Int).all fun seen =>
      decide (seen < e.revision)) = l := fun l => List.filter_eq_self.2 fun _ _ => rfl
  change ((onOperator reason mint .new _).map Prod.snd) = _
  unfold onOperator
  dsimp only [Carried.new, List.getLast?_nil, Option.map_none, List.nil_append]
  rw [hread, hrun]
  rfl

/-- Over the log from a boundary on it decides as over the current run's slice. -/
theorem decision_operator (hb : Cut b log) (hs : Sorted log) {events : List Event}
    (h : Run.currentRun events = slice log) :
    decision (.holdByOperator reason mint) events =
      decision (.holdByOperator reason mint) (unperceived (since b log)) := by
  rw [← decision_currentRun, ← decision_currentRun (unperceived _), h, ← hb.slice_eq hs]
  rfl

theorem onOperator_first (hb : Cut b log) (hs : Sorted log)
    (h : onOperator reason mint .new (log.filter (Store.narrowed b)) = some (carried, o)) :
    carried.readSoFar = log.filter (Store.narrowed b) ∧
      decision (.holdByOperator reason mint) (unperceived (since b log)) = some o := by
  obtain ⟨hread, hdecision⟩ := onOperator_eq_some h
  have hall : unseen .new (log.filter (Store.narrowed b)) = log.filter (Store.narrowed b) :=
    List.filter_eq_self.2 fun _ _ => rfl
  have hread : carried.readSoFar = log.filter (Store.narrowed b) := hread.trans hall
  rw [hread] at hdecision
  exact ⟨hread, (decision_operator hb hs (hb.currentRun_narrowed hs)).symm.trans hdecision⟩

theorem onOperator_again (hs : Sorted (seen ++ more)) (hb : Cut b seen) (hp : b ≤ p)
    (hmore : ∀ e ∈ more, p ≤ e.position)
    (hseen : carried.readSoFar = seen.filter (Store.narrowed b))
    (h : onOperator reason mint carried ((seen ++ more).filter fun e =>
      decide (p ≤ e.position) && (TypeSelection.except perceptionTypes).selects e.type_) =
        some (carried', o)) :
    carried'.readSoFar = (seen ++ more).filter (Store.narrowed b) ∧
      decision (.holdByOperator reason mint) (unperceived (since b (seen ++ more))) = some o := by
  obtain ⟨hread, hdecision⟩ := onOperator_eq_some h
  obtain ⟨hsortedSeen, -, hcross⟩ := List.pairwise_append.1 hs
  have hkept : ∀ e, p ≤ e.position →
      (TypeSelection.except perceptionTypes).selects e.type_ = Store.narrowed b e := by
    intro e he
    unfold Store.narrowed
    rw [if_pos (Nat.le_trans hp he)]
    rfl
  have hnew : unseen carried ((seen ++ more).filter fun e => decide (p ≤ e.position) &&
      (TypeSelection.except perceptionTypes).selects e.type_) = more.filter (Store.narrowed b) := by
    unfold unseen
    rw [hseen, List.filter_append, List.filter_append]
    have hpast : (seen.filter fun e => decide (p ≤ e.position) &&
        (TypeSelection.except perceptionTypes).selects e.type_).filter
          (fun e => ((seen.filter (Store.narrowed b)).getLast?.map Event.revision).all fun seen =>
            decide (seen < e.revision)) = [] := by
      refine List.filter_eq_nil_iff.2 fun e he => ?_
      obtain ⟨he, hsel⟩ := List.mem_filter.1 he
      obtain ⟨hpos, hsel⟩ := Bool.and_eq_true_iff.1 hsel
      have hpos := of_decide_eq_true hpos
      rw [hkept e hpos] at hsel
      have hmem : e ∈ seen.filter (Store.narrowed b) := List.mem_filter.2 ⟨he, hsel⟩
      obtain ⟨init, last, hlast⟩ := (List.eq_nil_or_concat _).resolve_left (List.ne_nil_of_mem hmem)
      rw [List.concat_eq_append] at hlast
      have hsorted : Sorted (init ++ [last]) := hlast ▸ hsortedSeen.sublist List.filter_sublist
      have hle : e.revision ≤ last.revision := by
        rw [hlast] at hmem
        rcases List.mem_append.1 hmem with hmem | hmem
        · exact Int.le_of_lt ((List.pairwise_append.1 hsorted).2.2 e hmem last (by simp)).2
        · rw [List.mem_singleton.1 hmem]
      rw [hlast, List.getLast?_concat, Option.map_some, Option.all_some, decide_eq_true_eq]
      omega
    have hlate : (more.filter fun e => decide (p ≤ e.position) &&
        (TypeSelection.except perceptionTypes).selects e.type_).filter
          (fun e => ((seen.filter (Store.narrowed b)).getLast?.map Event.revision).all fun seen =>
            decide (seen < e.revision)) = more.filter (Store.narrowed b) := by
      rw [List.filter_filter]
      refine List.filter_congr fun e he => ?_
      have hpos := hmore e he
      rw [hkept e hpos, decide_eq_true hpos, Bool.true_and]
      have hpast : ((seen.filter (Store.narrowed b)).getLast?.map Event.revision).all (fun seen =>
          decide (seen < e.revision)) = true := by
        rw [Option.all_eq_true]
        intro revision hrevision
        obtain ⟨last, hlast, rfl⟩ := Option.map_eq_some_iff.1 hrevision
        have hmem := (List.mem_filter.1 (List.mem_of_getLast? hlast)).1
        exact decide_eq_true (hcross last hmem e he).2
      rw [hpast, Bool.true_and]
    rw [hpast, hlate, List.nil_append]
  rw [hnew, hseen, ← List.filter_append] at hread
  rw [hread] at hdecision
  exact ⟨hread,
    (decision_operator hb.append hs (hb.append.currentRun_narrowed hs)).symm.trans hdecision⟩

end

/-! ## What a call carries -/

/-- What a call carries of a log, from the boundary it looked up on. -/
def Knows (b : Nat) (log : List Event) (carried : Carried) : Call → Prop
  | .holdByOperator .. => carried.readSoFar = log.filter (Store.narrowed b)
  | .ifAbsent res _ => resultOf (since b log) res.id = some none
  | .unlessEnded res _ => endedBy (since b log) res.id = some none
  | _ => holdFold none (since b log) = some carried.state.hold

section
variable {b p : Nat} {seen more log : List Event} {carried carried' : Carried} {o : Option Event}
  {call : Call} {res : Result} {mint : Mint}

theorem consider_onHold (h : call.writesHold = true) :
    landed call = .only holdTypes ∧ ∃ decide, consider call = onHold decide := by
  cases call with
  | sighting | failedProbe | release | releaseProbed =>
    unfold consider
    exact ⟨rfl, _, rfl⟩
  | holdByOperator | ifAbsent | unlessEnded => cases h

theorem decision_onHold {decide : Option Hold → Option Event}
    (h : holdFold none (since b log) = some carried.state.hold ∧ decide carried.state.hold = o) :
    (onHold decide .new (unperceived (since b log))).map Prod.snd = some o := by
  rw [onHold_new, holdFold_unperceived, h.1, ← h.2]
  rfl

theorem onResult_eq_some {standing : List Event → String → Option (Option Result)}
    {read : List Event} (h : onResult standing res mint carried read = some (carried', o)) :
    ∃ r, standing read res.id = some r ∧
    o = if r.isSome then none else some (resultEvent mint res) := by
  obtain ⟨r, hr, heq⟩ := Option.map_eq_some_iff.1 h
  cases heq
  exact ⟨r, hr, rfl⟩

theorem decision_onResult {real : Result → Bool} {r : Option Result}
    (hr : standing real (since b log) res.id = some r)
    (ho : o = if r.isSome then none else some (resultEvent mint res)) :
    (onResult (standing real) res mint .new (unperceived (since b log))).map Prod.snd = some o ∧
      (o.isSome = true → standing real (since b log) res.id = some none) := by
  unfold onResult
  rw [standing_unperceived, hr, ho]
  refine ⟨rfl, ?_⟩
  cases r with
  | none => exact fun _ => rfl
  | some found => exact fun h => by cases h

theorem known_first (hb : Cut b log) (hs : Sorted log)
    (h : consider call .new (log.filter (Store.narrowed b)) = some (carried, o)) :
    decision call (unperceived (since b log)) = some o ∧
      (o.isSome = true → Knows b log carried call) := by
  have hresult : ∀ real res mint, onResult (standing real) res mint .new
      (log.filter (Store.narrowed b)) = some (carried, o) →
      (onResult (standing real) res mint .new (unperceived (since b log))).map Prod.snd = some o ∧
        (o.isSome = true → standing real (since b log) res.id = some none) := by
    intro real res mint h
    obtain ⟨r, hr, ho⟩ := onResult_eq_some h
    exact decision_onResult (standing_first.symm.trans hr) ho
  have hhold : call.writesHold = true → decision call (unperceived (since b log)) = some o ∧
      (o.isSome = true → holdFold none (since b log) = some carried.state.hold) := by
    intro hw
    obtain ⟨-, decide, hdecide⟩ := consider_onHold hw
    unfold decision
    rw [hdecide] at h ⊢
    exact ⟨decision_onHold (onHold_first h), fun _ => (onHold_first h).1⟩
  cases call with
  | sighting | failedProbe | release | releaseProbed => exact hhold rfl
  | holdByOperator =>
    obtain ⟨hread, hdecision⟩ := onOperator_first hb hs h
    exact ⟨hdecision, fun _ => hread⟩
  | ifAbsent res mint =>
    unfold decision Knows
    unfold consider at h ⊢
    rw [resultOf_eq] at h ⊢
    exact hresult _ res mint h
  | unlessEnded res mint =>
    unfold decision Knows
    unfold consider at h ⊢
    rw [endedBy_eq] at h ⊢
    exact hresult _ res mint h

theorem known_again (hs : Sorted (seen ++ more)) (hb : Cut b seen) (hp : b ≤ p)
    (hmore : ∀ e ∈ more, p ≤ e.position) (hseen : Knows b seen carried call)
    (h : consider call carried ((seen ++ more).filter fun e =>
      decide (p ≤ e.position) && (landed call).selects e.type_) = some (carried', o)) :
    decision call (unperceived (since b (seen ++ more))) = some o ∧
      (o.isSome = true → Knows b (seen ++ more) carried' call) := by
  have hresult : ∀ real res mint, standing real (since b seen) res.id = some none →
      onResult (standing real) res mint carried ((seen ++ more).filter fun e =>
        decide (p ≤ e.position) && (TypeSelection.only [typeSpawnResult]).selects e.type_) =
          some (carried', o) →
      (onResult (standing real) res mint .new (unperceived (since b (seen ++ more)))).map Prod.snd =
          some o ∧
        (o.isSome = true → standing real (since b (seen ++ more)) res.id = some none) := by
    intro real res mint hseen h
    obtain ⟨r, hr, ho⟩ := onResult_eq_some h
    exact decision_onResult (standing_again hs hb hp hmore hseen hr) ho
  have hhold : call.writesHold = true → holdFold none (since b seen) = some carried.state.hold →
      decision call (unperceived (since b (seen ++ more))) = some o ∧
        (o.isSome = true → holdFold none (since b (seen ++ more)) = some carried'.state.hold) := by
    intro hw hseen
    obtain ⟨hlanded, decide, hdecide⟩ := consider_onHold hw
    unfold decision
    rw [hdecide] at h ⊢
    rw [hlanded] at h
    have hknown := onHold_again hs hb hp hmore hseen h
    exact ⟨decision_onHold hknown, fun _ => hknown.1⟩
  cases call with
  | sighting | failedProbe | release | releaseProbed => exact hhold rfl hseen
  | holdByOperator =>
    obtain ⟨hread, hdecision⟩ := onOperator_again hs hb hp hmore hseen h
    exact ⟨hdecision, fun _ => hread⟩
  | ifAbsent res mint =>
    unfold decision Knows
    unfold Knows at hseen
    unfold consider at h ⊢
    rw [resultOf_eq] at h hseen ⊢
    exact hresult _ res mint hseen h
  | unlessEnded res mint =>
    unfold decision Knows
    unfold Knows at hseen
    unfold consider at h ⊢
    rw [endedBy_eq] at h hseen ⊢
    exact hresult _ res mint hseen h

end

/-! ## What a decision answers on the slice -/

/-- The run's hold is open. -/
def HoldOpen (log : List Event) : Prop := ∃ hold, holdFold none (slice log) = some (some hold)

/-- The hold of the log from a boundary on is the one of the run's slice. -/
def HoldKept (b : Nat) (log : List Event) : Prop :=
  ∀ hold, holdFold none (since b log) = some hold → holdFold none (slice log) = some hold

section
variable {b : Nat} {log : List Event} {call : Call} {ev : Event}

theorem HoldKept.of_slice (h : slice log = unperceived (since b log)) : HoldKept b log := by
  intro hold hhold
  rw [h, holdFold_unperceived]
  exact hhold

theorem HoldKept.landed {e : Event} (h : HoldKept b log) (hb : Cut b log) (hs : Sorted (log ++ [e]))
    (hopen : isRunStarted e = true → ¬HoldOpen log) : HoldKept b (log ++ [e]) := by
  intro hold hhold
  rw [hb.since_append hs, holdFold_append] at hhold
  obtain ⟨hold', hbefore, he⟩ := Option.bind_eq_some_iff.1 hhold
  have hslice := h hold' hbefore
  cases hstarted : isRunStarted e with
  | false =>
    have hmore : ∀ x ∈ [e], isRunStarted x = false := by
      intro x hx
      rw [List.mem_singleton.1 hx]
      exact hstarted
    rw [slice_landed log hmore, holdFold_append, hslice, Option.bind_some, holdFold_unperceived]
    exact he
  | true =>
    cases hold' with
    | some hold' => exact absurd ⟨hold', hslice⟩ (hopen hstarted)
    | none =>
      rw [slice_started log hstarted]
      exact he

theorem decision_hold (h : call.writesHold = true) :
    ∃ decide, ∀ events, decision call events = (holdFold none events).map decide := by
  obtain ⟨-, decide, hdecide⟩ := consider_onHold h
  refine ⟨decide, fun events => ?_⟩
  unfold decision
  rw [hdecide]
  exact onHold_new events

theorem decision_slice_hold {o : Option Event} (hw : call.writesHold = true) (h : HoldKept b log)
    (ho : decision call (unperceived (since b log)) = some o) :
    decision call (slice log) = some o := by
  obtain ⟨decide, hdecide⟩ := decision_hold hw
  rw [hdecide, holdFold_unperceived] at ho
  obtain ⟨hold, hhold, hdecision⟩ := Option.map_eq_some_iff.1 ho
  rw [hdecide, h hold hhold]
  exact congrArg some hdecision

theorem onResult_new (real : Result → Bool) (res : Result) (mint : Mint) (events : List Event) :
    (onResult (standing real) res mint .new events).map Prod.snd =
      (standing real events res.id).map fun r =>
        if r.isSome then none else some (resultEvent mint res) := by
  unfold onResult
  rw [Option.map_map]
  rfl

theorem slice_subset (hb : Cut b log) (hs : Sorted log) {e : Event} (he : e ∈ slice log) :
    e ∈ unperceived (since b log) := by
  rw [← hb.slice_eq hs] at he
  exact mem_currentRun he

variable {real : Result → Bool} {id : String} {moments : List (List Event)} {events : List Event}

/-- What does not stand from a boundary on does not stand in the slice. -/
theorem standing_slice (hb : Cut b log) (hs : Sorted log)
    (h : standing real (unperceived (since b log)) id = some none) :
    standing real (slice log) id = some none := by
  obtain ⟨hreadable, hnone⟩ := standing_eq_some.1 h
  refine standing_eq_some.2 ⟨hreadable.subset fun e he => slice_subset hb hs he, ?_⟩
  cases hfound : latestFor id (slice log) with
  | none => rfl
  | some found => rwa [latestFor_slice hb hs hfound] at hnone

/-- What stands from a boundary on stood in the slice of a moment its result was in. -/
theorem standing_moment {found : Result} (hs : Sorted log)
    (hmoments : ∀ e ∈ since b log, e.type_ = typeSpawnResult →
      ∃ m ∈ moments, m <+: log ∧ Cut b m ∧ e ∈ slice m)
    (h : standing real (unperceived (since b log)) id = some (some found)) :
    ∃ m ∈ moments, standing real (slice m) id = some (some found) := by
  obtain ⟨hreadable, hfound⟩ := standing_eq_some.1 h
  obtain ⟨hlatest, hreal⟩ := Option.filter_eq_some_iff.1 hfound
  obtain ⟨before, e, after, hsplit, he, hafter⟩ := (latest_eq_some_iff _ _ _).1 hlatest
  have hmem : e ∈ since b log := by
    have : e ∈ unperceived (since b log) := by rw [hsplit]; simp
    exact List.mem_of_mem_filter this
  obtain ⟨hres, -⟩ := Option.filter_eq_some_iff.1 he
  obtain ⟨m, hm, hgrown, hcut, hin⟩ := hmoments e hmem (resultIn_eq_some.1 hres).1
  obtain ⟨later, rfl⟩ := hgrown
  have hsm : Sorted m := (List.pairwise_append.1 hs).1
  have hsub : ∀ x ∈ slice m, x ∈ unperceived (since b (m ++ later)) := by
    intro x hx
    rw [hcut.since_append hs, unperceived_append]
    exact List.mem_append_left _ (slice_subset hcut hsm hx)
  refine ⟨m, hm, standing_eq_some.2 ⟨hreadable.subset hsub, ?_⟩⟩
  obtain ⟨early, late, hslice⟩ := List.append_of_mem hin
  have hlate : latestFor id (slice m) = some found := by
    refine (latest_eq_some_iff _ _ _).2 ⟨early, e, late, hslice, he, fun x hx => ?_⟩
    have hsortedSlice : Sorted (slice m) := by
      unfold slice Run.currentRun
      split
      · exact (hsm.sublist List.filter_sublist).sublist (List.drop_sublist _ _)
      · exact hsm.sublist List.filter_sublist
    have hsortedSince : Sorted (unperceived (since b (m ++ later))) :=
      (hs.sublist List.filter_sublist).sublist List.filter_sublist
    rw [hslice] at hsortedSlice
    have hlt := ((List.pairwise_cons.1 (List.pairwise_append.1 hsortedSlice).2.1).1 x hx).1
    have hx' := hsub x (by rw [hslice]; simp [hx])
    rw [hsplit] at hx' hsortedSince
    rcases List.mem_append.1 hx' with hx' | hx'
    · have := ((List.pairwise_append.1 hsortedSince).2.2 x hx' e List.mem_cons_self).1
      omega
    · rcases List.mem_cons.1 hx' with rfl | hx'
      · omega
      · exact hafter x hx'
  rw [hlate, Option.filter_some, if_pos hreal]

/-- What a call appends: the release of an open hold, a host's or a probe's `RunHeld` that moves the
hold, the operator's, or a result. -/
theorem decision_appends (h : decision call events = some (some ev)) :
    (ev.type_ = typeRunReleased ∧ ∃ hold, holdFold none events = some (some hold)) ∨
    (∃ mint body hold, ev = heldEvent mint body ∧ holdFold none events = some hold ∧
      Hold.movedBy hold body = true) ∨
    (∃ mint body, ev = heldEvent mint body ∧ body.by_ = holdByOperator) ∨
    ∃ mint res, ev = resultEvent mint res := by
  obtain ⟨⟨carried, o⟩, hconsider, rfl⟩ := Option.map_eq_some_iff.1 h
  unfold consider at hconsider
  have hresult : ∀ standing res mint,
    onResult standing res mint .new events = some (carried, some ev) →
      ∃ mint res, ev = resultEvent mint res := by
    intro standing res mint h
    obtain ⟨r, -, ho⟩ := onResult_eq_some h
    cases r with
    | some found => cases ho
    | none => exact ⟨mint, res, Option.some.inj ho⟩
  cases call with
  | sighting cause detail model mint =>
    obtain ⟨hfold, hdecide⟩ := onHold_eq_some hconsider
    obtain ⟨hmoved, heq⟩ := Option.ite_none_right_eq_some.1 hdecide
    exact Or.inr (Or.inl ⟨mint, _, _, (Option.some.inj heq).symm, hfold, hmoved⟩)
  | failedProbe category mint =>
    obtain ⟨hfold, hdecide⟩ := onHold_eq_some hconsider
    obtain ⟨hold, hhold, hdecide⟩ := Option.bind_eq_some_iff.1 hdecide
    obtain ⟨hmoved, heq⟩ := Option.ite_none_right_eq_some.1 hdecide
    exact Or.inr (Or.inl ⟨mint, _, _, (Option.some.inj heq).symm, hhold ▸ hfold, hmoved⟩)
  | release by_ now mint =>
    obtain ⟨hfold, hdecide⟩ := onHold_eq_some hconsider
    obtain ⟨hold, hhold, rfl⟩ := Option.map_eq_some_iff.1 hdecide
    exact Or.inl ⟨rfl, hold, hhold ▸ hfold⟩
  | releaseProbed probed now mint =>
    obtain ⟨hfold, hdecide⟩ := onHold_eq_some hconsider
    obtain ⟨hold, hhold, rfl⟩ := Option.map_eq_some_iff.1 hdecide
    exact Or.inl ⟨rfl, hold, (Option.filter_eq_some_iff.1 hhold).1 ▸ hfold⟩
  | holdByOperator reason mint =>
    obtain ⟨run, -, heq⟩ := Option.map_eq_some_iff.1 hconsider
    have hev := congrArg Prod.snd heq
    dsimp only at hev
    split at hev
    · cases hev
    · split at hev
      · cases hev
      · exact Or.inr (Or.inr (Or.inl ⟨mint, _, (Option.some.inj hev).symm, rfl⟩))
  | ifAbsent res mint => exact Or.inr (Or.inr (Or.inr (hresult _ res mint hconsider)))
  | unlessEnded res mint => exact Or.inr (Or.inr (Or.inr (hresult _ res mint hconsider)))

theorem decision_started (h : decision call events = some (some ev)) : isRunStarted ev = false := by
  have htype : ev.type_ = typeRunReleased ∨ ev.type_ = typeRunHeld ∨
      ev.type_ = typeSpawnResult := by
    rcases decision_appends h with ⟨htype, -⟩ | ⟨mint, body, hold, rfl, -⟩ | ⟨mint, body, rfl, -⟩ |
      ⟨mint, res, rfl⟩
    · exact Or.inl htype
    · exact Or.inr (Or.inl rfl)
    · exact Or.inr (Or.inl rfl)
    · exact Or.inr (Or.inr rfl)
  unfold isRunStarted
  rcases htype with htype | htype | htype <;> rw [htype] <;> decide

/-- The event a call appends is what its decision answers on the slice. -/
theorem decision_slice (hb : Cut b log) (hs : Sorted log)
    (hkept : call.writesHold = true → HoldKept b log)
    (h : decision call (unperceived (since b log)) = some (some ev)) :
    decision call (slice log) = some (some ev) := by
  have hresult : ∀ real res mint,
      (onResult (standing real) res mint .new (unperceived (since b log))).map Prod.snd =
      some (some ev) →
      (onResult (standing real) res mint .new (slice log)).map Prod.snd = some (some ev) := by
    intro real res mint h
    rw [onResult_new] at h ⊢
    obtain ⟨r, hr, heq⟩ := Option.map_eq_some_iff.1 h
    cases r with
    | some found => cases heq
    | none =>
      rw [standing_slice hb hs hr]
      exact congrArg some heq
  cases call with
  | sighting | failedProbe | release | releaseProbed => exact decision_slice_hold rfl (hkept rfl) h
  | holdByOperator =>
    rw [decision_operator hb hs]
    · exact h
    · exact currentRun_currentRun _
  | ifAbsent res mint =>
    unfold decision at h ⊢
    unfold consider at h ⊢
    rw [resultOf_eq] at h ⊢
    exact hresult _ res mint h
  | unlessEnded res mint =>
    unfold decision at h ⊢
    unfold consider at h ⊢
    rw [endedBy_eq] at h ⊢
    exact hresult _ res mint h

/-- A call with nothing to append was so answered on the slice of a moment. -/
theorem decision_nothing (hb : Cut b log) (hs : Sorted log)
    (hkept : call.writesHold = true → HoldKept b log) (hlog : log ∈ moments)
    (hmoments : call.readsResults = true → ∀ e ∈ since b log, e.type_ = typeSpawnResult →
      ∃ m ∈ moments, m <+: log ∧ Cut b m ∧ e ∈ slice m)
    (h : decision call (unperceived (since b log)) = some none) :
    ∃ m ∈ moments, decision call (slice m) = some none := by
  have hresult : call.readsResults = true → ∀ real res mint,
      (onResult (standing real) res mint .new (unperceived (since b log))).map
      Prod.snd = some none →
      ∃ m ∈ moments,
      (onResult (standing real) res mint .new (slice m)).map Prod.snd = some none := by
    intro hreads real res mint h
    rw [onResult_new] at h
    obtain ⟨r, hr, heq⟩ := Option.map_eq_some_iff.1 h
    cases r with
    | none => cases heq
    | some found =>
      obtain ⟨m, hm, hstanding⟩ := standing_moment hs (hmoments hreads) hr
      refine ⟨m, hm, ?_⟩
      rw [onResult_new, hstanding]
      rfl
  cases call with
  | sighting | failedProbe | release | releaseProbed =>
    exact ⟨log, hlog, decision_slice_hold rfl (hkept rfl) h⟩
  | holdByOperator =>
    refine ⟨log, hlog, ?_⟩
    rw [decision_operator hb hs]
    · exact h
    · exact currentRun_currentRun _
  | ifAbsent res mint =>
    unfold decision at h ⊢
    unfold consider at h ⊢
    rw [resultOf_eq] at h ⊢
    exact hresult rfl _ res mint h
  | unlessEnded res mint =>
    unfold decision at h ⊢
    unfold consider at h ⊢
    rw [endedBy_eq] at h ⊢
    exact hresult rfl _ res mint h

end

end Rigger.Conditional
