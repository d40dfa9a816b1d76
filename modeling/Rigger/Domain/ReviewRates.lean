import Mathlib.Tactic.Positivity
import Rigger.Domain.Metrics
import Rigger.Lib.Matched
import Rigger.Lib.Run
import Rigger.Lib.Tally

/-!
# Review metrics are rates (`rigger-domain/src/metrics.rs`)

Each count that a rate divides is counted in another arm of the fold than what it divides by.  The
units' flags and the causes' counts stay within their totals in every log whose lifecycle events
follow a start of their unit.  A flip-flop is counted at every approval on a sha the unit was once
rejected on, so one rejection can be counted twice (`twiceApproved_flips`); the flip-flops stay
within the rejections where each reverses a rejection of its own (`project_inRange`).
-/

namespace Rigger

open Lib
open Conductor (metaWorktreeSha)

namespace Metrics

/-! ## The reviews along the log -/

section
variable (line : String → Option Json)

theorem reviews_fold (events : List Event) :
    (fold line events).reviews = run (Reviews.step line) .empty events := by
  induction events using List.reverseRecOn with
  | nil => rfl
  | append_singleton events e ih =>
    rw [fold_concat, (step_parts ..).2, ih, run_append]
    rfl

end

/-! ## Starts -/

/-- The unit the event starts. -/
def startOf (e : Event) : Option String :=
  if e.type_ = Ledger.typeUnitStarted then fieldStr e "id" else none

/-- The unit whose lifecycle the event goes on with. -/
def lifecycleOf (e : Event) : Option String :=
  if e.type_ ∈ [Ledger.typeUnitStatus, Ledger.typeUnitFailed, Ledger.typeUnitEscalated,
    Ledger.typeUnitIntegrated] then fieldStr e "id"
  else none

/-- Each unit's lifecycle events follow a start of it. -/
def FollowStarts (events : List Event) : Prop :=
  ∀ before e after, events = before ++ e :: after →
    ∀ id, lifecycleOf e = some id → ∃ s ∈ before, startOf s = some id

/-- The unit the event goes on with is started. -/
def Reviews.Started (r : Reviews) (e : Event) : Prop :=
  ∀ id, lifecycleOf e = some id → (r.unit id).started = true

section
variable {r : Reviews} {id : String} {u : UnitFold}

theorem unit_put (r : Reviews) (id : String) (u : UnitFold) (j : String) :
    (r.put id u).unit j = if id = j then u else r.unit j := by
  unfold Reviews.unit Reviews.put
  rw [Std.ExtTreeMap.getElem?_insert]
  by_cases hj : id = j
  · rw [if_pos (Std.LawfulEqCmp.compare_eq_iff_eq.2 hj), if_pos hj, Option.getD_some]
  · rw [if_neg fun h => hj (Std.LawfulEqCmp.compare_eq_iff_eq.1 h), if_neg hj]

theorem any_unit (r : Reviews) (id : String) {p : UnitFold → Bool} (h : p .new = false) :
    r.units[id]?.any p = p (r.unit id) := by
  unfold Reviews.unit
  cases r.units[id]? with
  | none => exact h.symm
  | some u => rfl

section
variable {p : UnitFold → Bool} (hp : p .new = false)
include hp

theorem holders_put (h : p u = p (r.unit id)) : holders p (r.put id u).units = holders p r.units :=
  holders_insert_of_same (h.trans (any_unit r id hp).symm)

theorem card_holders_put (h : p u = true) (hold : ¬p (r.unit id) = true) :
    (holders p (r.put id u).units).card = (holders p r.units).card + 1 :=
  card_holders_insert h ((any_unit r id hp).trans (Bool.eq_false_of_not_eq_true hold))

end

/-- The counts of units and of causes are those of the flags and of the totals. -/
structure Reviews.Counted (r : Reviews) : Prop where
  started : r.unitsStarted = (holders UnitFold.started r.units).card
  escalated : r.unitsEscalated = (holders UnitFold.escalated r.units).card
  rejections : total r.rejectionsByCause ≤ r.reviewReject
  escalations : total r.escalationsByCause ≤ r.unitsEscalated
  inOrder : ∀ id, (r.unit id).escalated = true → (r.unit id).started = true

theorem total_bump (m : Std.ExtTreeMap String Nat) (key : String) :
    total (bump m key) = total m + 1 := by
  have h := total_insert m key (m[key]?.getD 0 + 1)
  unfold bump
  omega

namespace Reviews

theorem Counted.escalated_le (h : r.Counted) : r.unitsEscalated ≤ r.unitsStarted := by
  rw [h.started, h.escalated]
  refine Finset.card_le_card fun id hid => ?_
  rw [mem_holders, any_unit r id rfl] at hid ⊢
  exact h.inOrder id hid

theorem counted_empty : Reviews.empty.Counted where
  started := rfl
  escalated := rfl
  rejections := Nat.le_refl _
  escalations := Nat.le_refl _
  inOrder := by
    intro id h
    cases h

/-- A unit whose two flags stay. -/
theorem Counted.put (h : r.Counted) (id : String) (u : UnitFold)
    (hstarted : u.started = (r.unit id).started)
    (hescalated : u.escalated = (r.unit id).escalated) : (r.put id u).Counted where
  started := by
    rw [holders_put rfl hstarted]
    exact h.started
  escalated := by
    rw [holders_put rfl hescalated]
    exact h.escalated
  rejections := h.rejections
  escalations := h.escalations
  inOrder := by
    intro j
    rw [unit_put]
    split
    · next hj =>
      rw [hstarted, hescalated]
      exact h.inOrder id
    · exact h.inOrder j

theorem Counted.start (h : r.Counted) (e : Event) : (r.start e).Counted := by
  unfold Reviews.start
  cases fieldStr e "id" with
  | none => exact h
  | some id =>
    rw [Option.elim_some]
    dsimp only
    split
    · exact h.put id _ rfl rfl
    · next hnew =>
      refine ⟨?_, ?_, h.rejections, h.escalations, fun j => ?_⟩
      · show r.unitsStarted + 1 = (holders UnitFold.started (r.put id _).units).card
        rw [card_holders_put rfl rfl hnew, h.started]
      · show r.unitsEscalated = (holders UnitFold.escalated (r.put id _).units).card
        rw [holders_put (p := UnitFold.escalated) rfl (by rfl), h.escalated]
      · show ((r.put id _).unit j).escalated = true → ((r.put id _).unit j).started = true
        rw [unit_put]
        split
        · exact fun _ => rfl
        · exact h.inOrder j

theorem Counted.status (h : r.Counted) (e : Event) : (r.status e).Counted := by
  unfold Reviews.status
  cases fieldStr e "id" with
  | none => exact h
  | some id =>
    cases fieldStr e "status" with
    | none => exact h
    | some status =>
      show (r.setStatus e id status).Counted
      unfold setStatus
      dsimp only
      split
      · exact h.put id _ rfl rfl
      · split
        · have hput := h.put id (r.unit id) rfl rfl
          exact ⟨hput.started, hput.escalated, hput.rejections, hput.escalations, hput.inOrder⟩
        · split
          · have hput := h.put id { (r.unit id).rejectedAt e with failed := true } rfl rfl
            exact ⟨hput.started, hput.escalated, Nat.le_succ_of_le hput.rejections,
              hput.escalations, hput.inOrder⟩
          · exact h.put id _ rfl rfl

theorem Counted.fail (h : r.Counted) (e : Event) : (r.fail e).Counted := by
  unfold Reviews.fail
  cases fieldStr e "id" with
  | none => exact h
  | some id =>
    rw [Option.elim_some]
    split
    · unfold Reviews.reject
      cases r.pendingCause[id]? with
      | none =>
        have hput := h.put id
          { (r.unit id).rejectedAt e with failed := true, armed := false } rfl rfl
        exact ⟨hput.started, hput.escalated, Nat.le_succ_of_le hput.rejections,
          hput.escalations, hput.inOrder⟩
      | some cause =>
        have hput := h.put id { (r.unit id).rejectedAt e with
          failed := true, armed := false, lastRejectCause := some cause } rfl rfl
        refine ⟨hput.started, hput.escalated, ?_, hput.escalations, hput.inOrder⟩
        show total (bump r.rejectionsByCause cause) ≤ r.reviewReject + 1
        rw [total_bump]
        exact Nat.succ_le_succ h.rejections
    · exact h.put id _ rfl rfl

variable {e : Event}

theorem Counted.escalate (h : r.Counted)
    (hstarted : ∀ id, fieldStr e "id" = some id → (r.unit id).started = true) :
    (r.escalate e).Counted := by
  unfold Reviews.escalate
  cases hid : fieldStr e "id" with
  | none => exact h
  | some id =>
    rw [Option.elim_some]
    dsimp only
    split
    · exact h.put id _ rfl rfl
    · next hnew =>
      refine ⟨?_, ?_, h.rejections, ?_, fun j => ?_⟩
      · show r.unitsStarted = (holders UnitFold.started (r.put id _).units).card
        rw [holders_put (p := UnitFold.started) rfl (by rfl), h.started]
      · show r.unitsEscalated + 1 = (holders UnitFold.escalated (r.put id _).units).card
        rw [card_holders_put rfl rfl hnew, h.escalated]
      · have hle := h.escalations
        show total ((r.unit id).lastRejectCause.elim r.escalationsByCause
          (bump r.escalationsByCause)) ≤ r.unitsEscalated + 1
        cases (r.unit id).lastRejectCause with
        | none => exact Nat.le_succ_of_le hle
        | some cause =>
          rw [Option.elim_some, total_bump]
          exact Nat.succ_le_succ hle
      · show ((r.put id _).unit j).escalated = true → ((r.put id _).unit j).started = true
        rw [unit_put]
        split
        · exact fun _ => hstarted id hid
        · exact h.inOrder j

theorem Counted.integrate (h : r.Counted) (e : Event) : (r.integrate e).Counted := by
  unfold Reviews.integrate
  cases fieldStr e "id" with
  | none => exact h
  | some id => exact h.put id _ rfl rfl

theorem Counted.noteCause (h : r.Counted) (line : String → Option Json) (e : Event) :
    (r.noteCause line e).Counted := by
  unfold Reviews.noteCause
  cases reviewResult e with
  | none => exact h
  | some result =>
    rw [Option.elim_some]
    cases (adjudication line result.1).bind (·.cause) with
    | none => exact h
    | some cause => exact ⟨h.started, h.escalated, h.rejections, h.escalations, h.inOrder⟩

theorem lifecycleOf_of_mem (h : e.type_ ∈ [Ledger.typeUnitStatus, Ledger.typeUnitFailed,
    Ledger.typeUnitEscalated, Ledger.typeUnitIntegrated]) :
    lifecycleOf e = fieldStr e "id" := if_pos h

theorem Counted.step (h : r.Counted) (line : String → Option Json) (hstarted : r.Started e) :
    (r.step line e).Counted := by
  unfold Reviews.step
  split
  · exact h.start e
  · split
    · exact h.status e
    · split
      · exact h.fail e
      · split
        · next htype =>
          refine h.escalate fun id hid => hstarted id ?_
          rw [lifecycleOf_of_mem (by rw [htype]; decide), hid]
        · split
          · exact h.integrate e
          · split
            · exact h.noteCause line e
            · exact h

/-! ### Started units -/

/-- One unit is put in place, started if it was. -/
def Grows (r r' : Reviews) : Prop :=
  r'.units = r.units ∨ ∃ id u, r'.units = r.units.insert id u ∧
    ((r.unit id).started = true → u.started = true)

theorem Grows.started {r' : Reviews} (h : r.Grows r') {j : String}
    (hj : (r.unit j).started = true) : (r'.unit j).started = true := by
  rcases h with hsame | ⟨id, u, hput, hstarted⟩
  · rw [Reviews.unit, hsame]
    exact hj
  · have hunit : r'.unit j = (r.put id u).unit j := by
      rw [Reviews.unit, hput]
      rfl
    rw [hunit, unit_put]
    split
    · next hid => exact hstarted (hid ▸ hj)
    · exact hj

/-- Nothing is ruled. -/
structure Quiet (r r' : Reviews) : Prop where
  grows : r.Grows r'
  rejections : r'.reviewReject = r.reviewReject
  reversals : r'.flipFlops = r.flipFlops

theorem Quiet.refl (r : Reviews) : r.Quiet r := ⟨.inl rfl, rfl, rfl⟩

theorem quiet_start (r : Reviews) (e : Event) : r.Quiet (r.start e) := by
  unfold Reviews.start
  cases fieldStr e "id" with
  | none => exact .refl r
  | some id =>
    rw [Option.elim_some]
    dsimp only
    split
    · exact ⟨.inr ⟨id, _, rfl, fun h => h⟩, rfl, rfl⟩
    · exact ⟨.inr ⟨id, _, rfl, fun _ => rfl⟩, rfl, rfl⟩

theorem quiet_escalate (r : Reviews) (e : Event) : r.Quiet (r.escalate e) := by
  unfold Reviews.escalate
  cases fieldStr e "id" with
  | none => exact .refl r
  | some id =>
    rw [Option.elim_some]
    dsimp only
    split
    · exact ⟨.inr ⟨id, _, rfl, fun h => h⟩, rfl, rfl⟩
    · exact ⟨.inr ⟨id, _, rfl, fun h => h⟩, rfl, rfl⟩

theorem quiet_integrate (r : Reviews) (e : Event) : r.Quiet (r.integrate e) := by
  unfold Reviews.integrate
  cases fieldStr e "id" with
  | none => exact .refl r
  | some id => exact ⟨.inr ⟨id, _, rfl, fun h => h⟩, rfl, rfl⟩

theorem quiet_noteCause (r : Reviews) (line : String → Option Json) (e : Event) :
    r.Quiet (r.noteCause line e) := by
  unfold Reviews.noteCause
  cases reviewResult e with
  | none => exact .refl r
  | some result =>
    rw [Option.elim_some]
    cases (adjudication line result.1).bind (·.cause) with
    | none => exact .refl r
    | some cause => exact ⟨.inl rfl, rfl, rfl⟩

theorem grows_status (r : Reviews) (e : Event) : r.Grows (r.status e) := by
  unfold Reviews.status
  cases fieldStr e "id" with
  | none => exact .inl rfl
  | some id =>
    cases fieldStr e "status" with
    | none => exact .inl rfl
    | some status =>
      show r.Grows (r.setStatus e id status)
      unfold setStatus
      dsimp only
      split
      · exact .inr ⟨id, _, rfl, fun h => h⟩
      · split
        · exact .inr ⟨id, _, rfl, fun h => h⟩
        · split
          · exact .inr ⟨id, _, rfl, fun h => h⟩
          · exact .inr ⟨id, _, rfl, fun h => h⟩

theorem grows_fail (r : Reviews) (e : Event) : r.Grows (r.fail e) := by
  unfold Reviews.fail
  cases fieldStr e "id" with
  | none => exact .inl rfl
  | some id =>
    rw [Option.elim_some]
    split
    · unfold Reviews.reject
      cases r.pendingCause[id]? with
      | none => exact .inr ⟨id, _, rfl, fun h => h⟩
      | some cause => exact .inr ⟨id, _, rfl, fun h => h⟩
    · exact .inr ⟨id, _, rfl, fun h => h⟩

theorem grows_step (r : Reviews) (line : String → Option Json) (e : Event) :
    r.Grows (r.step line e) := by
  unfold Reviews.step
  split
  · exact (r.quiet_start e).grows
  · split
    · exact r.grows_status e
    · split
      · exact r.grows_fail e
      · split
        · exact (r.quiet_escalate e).grows
        · split
          · exact (r.quiet_integrate e).grows
          · split
            · exact (r.quiet_noteCause line e).grows
            · exact .inl rfl

theorem started_start (h : startOf e = some id) (line : String → Option Json) :
    ((r.step line e).unit id).started = true := by
  obtain ⟨htype, hid⟩ := Option.ite_none_right_eq_some.1 h
  rw [Reviews.step, if_pos htype, Reviews.start, hid, Option.elim_some]
  dsimp only
  split
  · next hstarted => rwa [unit_put, if_pos rfl]
  · show ((r.put id _).unit id).started = true
    rw [unit_put, if_pos rfl]

end Reviews

end

section
variable (line : String → Option Json) {events : List Event}

theorem started_of_mem {s : Event} {id : String} (hs : s ∈ events) (hstart : startOf s = some id)
    (r : Reviews) : ((run (Reviews.step line) r events).unit id).started = true := by
  obtain ⟨before, after, rfl⟩ := List.append_of_mem hs
  rw [run_append, run_cons]
  exact run_invariant (I := fun r : Reviews => (r.unit id).started = true)
    (fun r e h => (Reviews.grows_step r line e).started h) (Reviews.started_start hstart line) after

theorem counted_run (h : FollowStarts events) :
    (run (Reviews.step line) .empty events).Counted := by
  have hstarted : Along (Reviews.step line) Reviews.Started .empty events := by
    refine along_iff_prefix.2 fun before e after heq id hid => ?_
    obtain ⟨s, hs, hstart⟩ := h before e after heq id hid
    exact started_of_mem line hs hstart .empty
  exact run_invariant_along (fun r e hP hr => hr.step line hP) hstarted Reviews.counted_empty

end

/-! ## Rejections and reversals -/

/-- What an event rules on a unit, at a sha if it names one. -/
inductive Ruling where
  | rejected (unit : String) (sha : Option String)
  | reversed (unit : String) (sha : String)
deriving DecidableEq

namespace Ruling

def isRejection : Ruling → Bool
  | rejected .. => true
  | reversed .. => false

/-- The unit and the sha of a rejection. -/
def rejectedAt : Ruling → Option (String × String)
  | rejected unit sha => sha.map (unit, ·)
  | reversed .. => none

/-- The unit and the sha of an approval that reverses a rejection. -/
def reversedAt : Ruling → Option (String × String)
  | rejected .. => none
  | reversed unit sha => some (unit, sha)

end Ruling

namespace Reviews

/-- What the event rules, where the reviews stand. -/
def rulings (r : Reviews) (e : Event) : List Ruling :=
  (fieldStr e "id").elim [] fun id =>
    let u := r.unit id
    if e.type_ = Ledger.typeUnitFailed then
      if u.underReview then [.rejected id (shaOf e)] else []
    else if e.type_ = Ledger.typeUnitStatus ∧ u.started = true then
      if fieldStr e "status" = some statusSpeculationRejected then [.rejected id (shaOf e)]
      else if fieldStr e "status" = some "reviewed" then
        ((shaOf e).filter u.rejectedShas.contains).toList.map (.reversed id)
      else []
    else []

/-- The counts are those of the rulings. -/
structure Ruled (told : List Ruling) (r : Reviews) : Prop where
  rejections : r.reviewReject = told.countP Ruling.isRejection
  reversals : r.flipFlops = told.countP fun x => x.reversedAt.isSome

section
variable {told new : List Ruling} {r r' : Reviews} {e : Event}

theorem Ruled.append (h : Ruled told r)
    (hrejections : r'.reviewReject = r.reviewReject + new.countP Ruling.isRejection)
    (hreversals : r'.flipFlops = r.flipFlops + new.countP fun x => x.reversedAt.isSome) :
    Ruled (told ++ new) r' where
  rejections := by rw [hrejections, h.rejections, List.countP_append]
  reversals := by rw [hreversals, h.reversals, List.countP_append]

theorem countP_reversed (e : Event) (id : String) (shas : Std.ExtTreeSet String) :
    (((shaOf e).filter shas.contains).toList.map (Ruling.reversed id)).countP
      Ruling.isRejection = 0 ∧
      (((shaOf e).filter shas.contains).toList.map (Ruling.reversed id)).countP
        (fun x => x.reversedAt.isSome) = ((shaOf e).any shas.contains).toNat := by
  cases shaOf e with
  | none => exact ⟨rfl, rfl⟩
  | some sha =>
    rw [Option.filter_some, Option.any_some]
    cases shas.contains sha <;> exact ⟨rfl, rfl⟩

/-- The verdicts of a candidate and of a unit are told apart by the status. -/
theorem Ruled.status (h : Ruled told r) (htype : e.type_ = Ledger.typeUnitStatus) :
    Ruled (told ++ r.rulings e) (r.status e) := by
  have hfailed : e.type_ ≠ Ledger.typeUnitFailed := by
    rw [htype]
    decide
  unfold Reviews.status rulings
  cases fieldStr e "id" with
  | none => exact h.append rfl rfl
  | some id =>
    rw [Option.elim_some, Option.elim_some]
    dsimp only
    rw [if_neg hfailed]
    cases fieldStr e "status" with
    | none =>
      have hnone : ∀ rulings : List Ruling, (if none = some "reviewed" then rulings else []) = [] :=
        fun _ => if_neg (Option.some_ne_none _).symm
      rw [if_neg (Option.some_ne_none statusSpeculationRejected).symm, hnone, ite_self]
      exact h.append rfl rfl
    | some status =>
      show Ruled _ (r.setStatus e id status)
      unfold setStatus
      dsimp only
      by_cases hverified : status = "verified"
      · subst hverified
        rw [if_pos rfl]
        split
        · rw [if_neg (by decide), if_neg (by decide)]
          exact h.append rfl rfl
        · exact h.append rfl rfl
      rw [if_neg hverified]
      by_cases hstarted : (r.unit id).started = true
      · rw [if_pos ⟨htype, hstarted⟩]
        by_cases hrejected : status = statusSpeculationRejected
        · rw [if_pos (congrArg some hrejected),
            if_neg fun hboth => absurd (hrejected.symm.trans hboth.1) (by decide),
            if_pos ⟨hrejected, hstarted⟩]
          exact h.append rfl rfl
        · rw [if_neg fun heq => hrejected (Option.some.inj heq)]
          by_cases hreviewed : status = "reviewed"
          · rw [if_pos (congrArg some hreviewed), if_pos ⟨hreviewed, hstarted⟩]
            obtain ⟨hnone, hreversed⟩ := countP_reversed e id (r.unit id).rejectedShas
            refine h.append ?_ ?_
            · rw [hnone]
              rfl
            · rw [hreversed]
          · rw [if_neg fun heq => hreviewed (Option.some.inj heq),
              if_neg fun hboth => hreviewed hboth.1, if_neg fun hboth => hrejected hboth.1]
            exact h.append rfl rfl
      · rw [if_neg fun hboth => hstarted hboth.2, if_neg fun hboth => hstarted hboth.2,
          if_neg fun hboth => hstarted hboth.2]
        exact h.append rfl rfl

theorem Ruled.fail (h : Ruled told r) (htype : e.type_ = Ledger.typeUnitFailed) :
    Ruled (told ++ r.rulings e) (r.fail e) := by
  unfold Reviews.fail rulings
  cases fieldStr e "id" with
  | none => exact h.append rfl rfl
  | some id =>
    rw [Option.elim_some, Option.elim_some]
    dsimp only
    rw [if_pos htype]
    by_cases hreview : (r.unit id).underReview = true
    · rw [if_pos hreview, if_pos hreview]
      unfold Reviews.reject
      cases r.pendingCause[id]? with
      | none => exact h.append rfl rfl
      | some cause => exact h.append rfl rfl
    · rw [if_neg hreview, if_neg hreview]
      exact h.append rfl rfl

theorem rulings_of_ne (hfailed : e.type_ ≠ Ledger.typeUnitFailed)
    (hstatus : e.type_ ≠ Ledger.typeUnitStatus) (r : Reviews) : r.rulings e = [] := by
  unfold rulings
  cases fieldStr e "id" with
  | none => rfl
  | some id =>
    rw [Option.elim_some]
    dsimp only
    rw [if_neg hfailed, if_neg fun h => hstatus h.1]

theorem Ruled.quiet (h : Ruled told r) (hfailed : e.type_ ≠ Ledger.typeUnitFailed)
    (hstatus : e.type_ ≠ Ledger.typeUnitStatus) (hquiet : r.Quiet r') :
    Ruled (told ++ r.rulings e) r' := by
  rw [rulings_of_ne hfailed hstatus]
  exact h.append hquiet.rejections hquiet.reversals

theorem Ruled.step (h : Ruled told r) (line : String → Option Json) :
    Ruled (told ++ r.rulings e) (r.step line e) := by
  unfold Reviews.step
  by_cases hstatus : e.type_ = Ledger.typeUnitStatus
  · rw [if_neg (by rw [hstatus]; decide), if_pos hstatus]
    exact h.status hstatus
  by_cases hfailed : e.type_ = Ledger.typeUnitFailed
  · rw [if_neg (by rw [hfailed]; decide), if_neg hstatus, if_pos hfailed]
    exact h.fail hfailed
  rw [if_neg hstatus, if_neg hfailed]
  split
  · exact h.quiet hfailed hstatus (r.quiet_start e)
  · split
    · exact h.quiet hfailed hstatus (r.quiet_escalate e)
    · split
      · exact h.quiet hfailed hstatus (r.quiet_integrate e)
      · split
        · exact h.quiet hfailed hstatus (r.quiet_noteCause line e)
        · exact h.quiet hfailed hstatus (.refl r)

end

end Reviews

/-- What the log rules on its units, in order. -/
def rulings (line : String → Option Json) (events : List Event) : List Ruling :=
  trace Reviews.rulings (Reviews.step line) .empty events

/-- Each approval of a unit on a sha it was rejected on reverses a rejection on that sha that no
approval has reversed. -/
def ReversesOnce (line : String → Option Json) (events : List Event) : Prop :=
  Matched Ruling.rejectedAt Ruling.reversedAt (rulings line events)

theorem ruled_run (line : String → Option Json) (events : List Event) :
    Reviews.Ruled (rulings line events) (run (Reviews.step line) .empty events) := by
  have hstep : ∀ told (r : Reviews) (e : Event), True → Reviews.Ruled told r →
      Reviews.Ruled (told ++ r.rulings e) (r.step line e) := fun told r e _ h => h.step line
  have hrun : Reviews.Ruled ([] ++ rulings line events) (run (Reviews.step line) .empty events) :=
    run_trace_along hstep (along_of_forall fun _ _ => trivial) ⟨rfl, rfl⟩
  exact hrun

theorem flipFlops_le {line : String → Option Json} {events : List Event}
    (h : ReversesOnce line events) :
    (run (Reviews.step line) .empty events).flipFlops ≤
      (run (Reviews.step line) .empty events).reviewReject := by
  obtain ⟨hrejections, hreversals⟩ := ruled_run line events
  rw [hrejections, hreversals]
  refine h.countP_le.trans (List.countP_mono_left fun x _ hx => ?_)
  cases x with
  | rejected unit sha => rfl
  | reversed unit sha => cases hx

/-! ## Findings -/

/-- No actor has more findings upheld than it raised. -/
structure Survival.Within (s : Survival) : Prop where
  byActor : ∀ (actor : String) (c : FindingCounts),
    s.byActor[actor]? = some c → c.upheld ≤ c.raised
  adversaryOnly : s.adversaryOnly.upheld ≤ s.adversaryOnly.raised

theorem FindingCounts.count_within {c : FindingCounts} (h : c.upheld ≤ c.raised) (isUpheld : Bool) :
    (c.count isUpheld).upheld ≤ (c.count isUpheld).raised :=
  Nat.add_le_add h (Bool.toNat_le isUpheld)

theorem survive_within (f : Findings) (upheld : Std.ExtTreeSet String) {s : Survival}
    (h : s.Within) (finding : String × String) : (f.survive upheld s finding).Within := by
  unfold Findings.survive
  split
  · exact h
  · refine ⟨fun actor c hc => ?_, ?_⟩
    · replace hc : (s.byActor.insert finding.2 _)[actor]? = some c := hc
      rw [Std.ExtTreeMap.getElem?_insert] at hc
      split at hc
      · rw [← Option.some.inj hc]
        refine FindingCounts.count_within ?_ _
        cases hold : s.byActor[finding.2]? with
        | none => exact Nat.le_refl _
        | some c => exact h.byActor _ c hold
      · exact h.byActor actor c hc
    · dsimp only
      split
      · exact FindingCounts.count_within h.adversaryOnly _
      · exact h.adversaryOnly

theorem survival_within (f : Findings) (upheld : Std.ExtTreeSet String) :
    (f.survival upheld).Within := by
  have hempty : Survival.Within ⟨∅, ⟨0, 0⟩⟩ := by
    refine ⟨fun actor c hc => ?_, Nat.le_refl _⟩
    rw [Std.ExtTreeMap.getElem?_empty] at hc
    cases hc
  have hstep : ∀ (s : Survival) finding, s.Within → (f.survive upheld s finding).Within :=
    fun _ finding h => survive_within f upheld h finding
  exact run_invariant hstep hempty f.actor.toList

/-! ## The rates -/

/-- What is counted of a part stays within the whole. -/
structure InRange (m : Metrics) : Prop where
  firstPassClean : m.firstPassClean ≤ m.unitsStarted
  unitsEscalated : m.unitsEscalated ≤ m.unitsStarted
  flipFlops : m.reviewQuality.flipFlops ≤ m.reviewReject
  overlapFiles : m.reviewQuality.overlapFiles ≤ m.reviewQuality.findingFiles
  findingSurvival : ∀ (actor : String) (c : FindingCounts),
    m.reviewQuality.findingSurvival[actor]? = some c → c.upheld ≤ c.raised
  adversaryOnly : m.reviewQuality.adversaryOnly.upheld ≤ m.reviewQuality.adversaryOnly.raised
  rejectionsByCause : (m.reviewQuality.rejectionsByCause.toList.map Prod.snd).sum ≤ m.reviewReject
  escalationsByCause :
    (m.reviewQuality.escalationsByCause.toList.map Prod.snd).sum ≤ m.unitsEscalated

/-- Every rate the operator reads. -/
def rates (m : Metrics) : List ℚ :=
  [m.firstPassYield, m.escalationRate, m.flipFlopRate, m.reviewQuality.lensOverlapRate,
    m.reviewQuality.adversaryPrecision] ++
      m.reviewQuality.findingSurvival.toList.map fun x => x.2.survival

theorem ratio_mem {num den : Nat} (h : num ≤ den) : 0 ≤ ratio num den ∧ ratio num den ≤ 1 := by
  unfold ratio
  split
  · exact ⟨le_refl _, zero_le_one⟩
  · exact ⟨by positivity, div_le_one_of_le₀ (by exact_mod_cast h) (by positivity)⟩

theorem InRange.rates {m : Metrics} (h : m.InRange) : ∀ rate ∈ m.rates, 0 ≤ rate ∧ rate ≤ 1 := by
  intro rate hrate
  rcases List.mem_append.1 hrate with hrate | hrate
  · simp only [List.mem_cons, List.not_mem_nil, or_false] at hrate
    rcases hrate with rfl | rfl | rfl | rfl | rfl
    · exact ratio_mem h.firstPassClean
    · exact ratio_mem h.unitsEscalated
    · exact ratio_mem h.flipFlops
    · exact ratio_mem h.overlapFiles
    · exact ratio_mem h.adversaryOnly
  · obtain ⟨x, hx, rfl⟩ := List.mem_map.1 hrate
    exact ratio_mem
      (h.findingSurvival x.1 x.2 (Std.ExtTreeMap.mem_toList_iff_getElem?_eq_some.1 hx))

theorem inRange_of_reverses (line : String → Option Json) {events : List Event}
    (hstarts : FollowStarts events) (hreverses : ReversesOnce line events) :
    (project line events).InRange := by
  have hreviews := reviews_fold line events
  have hcounted := counted_run line hstarts
  have hwithin := survival_within (fold line events).findings (fold line events).verdicts.upheld
  rw [← hreviews] at hcounted
  refine ⟨?_, ?_, ?_, ?_, hwithin.byActor, hwithin.adversaryOnly, ?_, ?_⟩
  · show ((fold line events).reviews.units.toList.filter fun x => x.2.cleanPass).length ≤
      (fold line events).reviews.unitsStarted
    rw [hcounted.started, ← card_holders]
    refine Finset.card_le_card (holders_mono fun u hu => ?_)
    exact (Bool.and_eq_true_iff.1 (Bool.and_eq_true_iff.1 hu).1).1
  · show (fold line events).reviews.unitsEscalated ≤ (fold line events).reviews.unitsStarted
    exact hcounted.escalated_le
  · show (fold line events).reviews.flipFlops ≤ (fold line events).reviews.reviewReject
    rw [hreviews]
    exact flipFlops_le hreverses
  · show ((fold line events).findings.fileActors.toList.filter fun x => 2 ≤ x.2.size).length ≤
      (fold line events).findings.fileActors.size
    rw [← Std.ExtTreeMap.length_toList]
    exact List.length_filter_le _ _
  · show ((fold line events).reviews.rejectionsByCause.toList.map Prod.snd).sum ≤
      (fold line events).reviews.reviewReject
    rw [← total_eq]
    exact hcounted.rejections
  · show ((fold line events).reviews.escalationsByCause.toList.map Prod.snd).sum ≤
      (fold line events).reviews.unitsEscalated
    rw [← total_eq]
    exact hcounted.escalations

variable {a b : List Event}

theorem FollowStarts.of_append (h : FollowStarts (a ++ b)) : FollowStarts a :=
  fun before e after heq => h before e (after ++ b) (by rw [heq]; simp)

theorem ReversesOnce.of_append {line : String → Option Json} (h : ReversesOnce line (a ++ b)) :
    ReversesOnce line a := by
  rw [ReversesOnce, rulings, trace_append] at h
  exact h.of_append

/-- Where every unit is started before it goes on and every reversal reverses a rejection of its
own, each count stays within what it is divided by, after every event. -/
theorem project_inRange (line : String → Option Json) {events : List Event}
    (hstarts : FollowStarts events) (hreverses : ReversesOnce line events) {reached : List Event}
    (h : reached <+: events) : (project line reached).InRange ∧
      ∀ rate ∈ (project line reached).rates, 0 ≤ rate ∧ rate ≤ 1 := by
  obtain ⟨rest, rfl⟩ := h
  have hrange := inRange_of_reverses line hstarts.of_append hreverses.of_append
  exact ⟨hrange, hrange.rates⟩

/-! ## A rejection reversed twice -/

def unitEvent (id : String) (at_ : SystemTime) (type_ : String) (fields : List (String × Json)) :
    Event :=
  { Event.new (id, at_) type_ (.json (.obj (("id", .str "u") :: fields))) with
    meta_ := (∅ : Meta).insert metaWorktreeSha "s" }

/-- The unit's review rejects a sha and then approves it. -/
def onceApproved : List Event :=
  [unitEvent "e1" 1 Ledger.typeUnitStarted [("agent", .str "implementer")],
    unitEvent "e2" 2 Ledger.typeUnitStatus [("status", .str "verified")],
    unitEvent "e3" 3 Ledger.typeUnitFailed [],
    unitEvent "e4" 4 Ledger.typeUnitStatus [("status", .str "reviewed")]]

/-- It is reviewed again on the same sha. -/
def twiceApproved : List Event :=
  onceApproved ++ [unitEvent "e5" 5 Ledger.typeUnitStatus [("status", .str "reviewed")]]

theorem followStarts_cons {head : Event} {id : String} (hhead : startOf head = some id)
    {events : List Event} (h : ∀ e ∈ head :: events, ∀ j, lifecycleOf e = some j → j = id) :
    FollowStarts (head :: events) := by
  intro before e after heq j hj
  have hid : j = id := h e (by rw [heq]; simp) j hj
  cases before with
  | nil =>
    -- a start goes on with no unit
    obtain ⟨rfl, -⟩ := List.cons.inj heq
    obtain ⟨htype, -⟩ := Option.ite_none_right_eq_some.1 hhead
    rw [lifecycleOf, htype, if_neg (by decide)] at hj
    cases hj
  | cons x before =>
    obtain ⟨rfl, -⟩ := List.cons.inj heq
    exact ⟨head, List.mem_cons_self, by rw [hhead, hid]⟩

theorem startOf_unitEvent : startOf (unitEvent "e1" 1 Ledger.typeUnitStarted
    [("agent", .str "implementer")]) = some "u" := by decide

/-- The one rejection is counted as reversed by both approvals. -/
theorem twiceApproved_flips : FollowStarts twiceApproved ∧
    (project (fun _ => none) twiceApproved).reviewQuality.flipFlops = 2 ∧
      (project (fun _ => none) twiceApproved).reviewReject = 1 ∧
        ¬(project (fun _ => none) twiceApproved).InRange := by
  have hflips : (project (fun _ => none) twiceApproved).reviewQuality.flipFlops = 2 := by decide
  have hrejections : (project (fun _ => none) twiceApproved).reviewReject = 1 := by decide
  refine ⟨followStarts_cons startOf_unitEvent (by decide), hflips, hrejections, fun h => ?_⟩
  have hle := h.flipFlops
  rw [hflips, hrejections] at hle
  exact absurd hle (by decide)

theorem onceApproved_inRange :
    (project (fun _ => none) onceApproved).reviewQuality.flipFlops = 1 ∧
      (project (fun _ => none) onceApproved).InRange ∧
        ∀ rate ∈ (project (fun _ => none) onceApproved).rates, 0 ≤ rate ∧ rate ≤ 1 := by
  have hrulings : rulings (fun _ => none) onceApproved =
      [.rejected "u" (some "s")] ++ [.reversed "u" "s"] := by decide
  have hfirst : Matched Ruling.rejectedAt Ruling.reversedAt [.rejected "u" (some "s")] :=
    matched_concat (l := []) |>.2 ⟨matched_nil, fun k hk => by cases hk⟩
  have hreverses : ReversesOnce (fun _ => none) onceApproved := by
    rw [ReversesOnce, hrulings, matched_concat]
    refine ⟨hfirst, fun k hk => ⟨[], .rejected "u" (some "s"), [], rfl, hk, by simp⟩⟩
  exact ⟨by decide, project_inRange _ (followStarts_cons startOf_unitEvent (by decide)) hreverses
    (List.prefix_refl _)⟩

end Metrics

end Rigger
