import Rigger.Conductor.Harvest
import Rigger.Lib.Supersede

/-!
# Ranks, refines and takeovers

The parts of a harvest, each by itself: how two episodes compare, what a list of refines makes of
one stage, and which stages a proposal of a new id takes over.
-/

namespace Rigger.Conductor.Proposed

open Lib

/-! ## Ranks -/

/-- The order of episodes by their first proposal. -/
def orderOf (us : List UnitProposed) : List String :=
    us.foldl (fun order u => meet order u.episode) []

theorem orderOf_concat (us : List UnitProposed) (u : UnitProposed) :
    orderOf (us ++ [u]) = meet (orderOf us) u.episode := by
  rw [orderOf, List.foldl_append]
  rfl

theorem prefix_meet (order : List String) (episode : String) : order <+: meet order episode := by
  unfold meet
  split
  · exact List.prefix_rfl
  · exact List.prefix_append _ _

theorem mem_meet (order : List String) (episode : String) : episode ∈ meet order episode := by
  unfold meet
  split
  · assumption
  · exact List.mem_append_cons_self

variable {us : List UnitProposed} {u : UnitProposed} {order : List String} {episode owner : String}

theorem mem_orderOf (h : u ∈ us) : u.episode ∈ orderOf us := by
  induction us using List.reverseRecOn with
  | nil => cases h
  | append_singleton us v ih =>
    rw [orderOf_concat]
    rcases List.mem_append.1 h with h | h
    · exact (prefix_meet _ _).subset (ih h)
    · cases List.mem_singleton.1 h
      exact mem_meet _ _

/-- The legacy episode is first, the others follow in their order. -/
def tier (order : List String) (episode : String) : Nat :=
  if episode.isEmpty then 0 else order.idxOf episode + 1

theorem yields_iff : yields order owner episode = true ↔ tier order owner < tier order episode := by
  unfold yields tier
  cases owner.isEmpty <;> cases episode.isEmpty <;> simp

/-- Episodes met later do not change how an owner compares with one that was met. -/
theorem yields_grown {order' : List String} (h : order <+: order') (hmet : episode ∈ order) :
    yields order' owner episode = yields order owner episode := by
  obtain ⟨more, rfl⟩ := h
  unfold yields
  rw [List.idxOf_append_of_mem hmet]
  by_cases howner : owner ∈ order
  · rw [List.idxOf_append_of_mem howner]
  · rw [List.idxOf_append_of_notMem howner]
    have hlt := List.idxOf_lt_length_of_mem hmet
    have hout : order.idxOf owner = order.length := List.idxOf_eq_length_iff.2 howner
    have hleft : ¬order.length + more.idxOf owner < order.idxOf episode := by omega
    have hright : ¬order.idxOf owner < order.idxOf episode := by omega
    rw [decide_eq_false hleft, decide_eq_false hright]

/-! ## Final episodes -/

theorem finalEpisode_isSome (h : u ∈ us) (hid : u.id ≠ "") :
    (finalEpisode us u.id).isSome = true := by
  unfold finalEpisode
  rw [Option.isSome_map, List.find?_isSome]
  refine ⟨u, List.mem_reverse.2 h, ?_⟩
  simp [hid]

/-! ## Refining -/

section
variable (h : Harvest)

theorem criterionStableId_ne_empty (position : Nat) (criterion : String) :
    criterionStableId position criterion ≠ "" := by
  intro heq
  have hlist := congrArg String.toList heq
  simp [criterionStableId] at hlist

variable {criterionId text : String} {u : UnitProposed} {base : List String}

theorem resolve_ne_empty (hres : h.resolve u = some (criterionId, text)) : criterionId ≠ "" := by
  unfold Harvest.resolve resolveServedCriterion at hres
  split at hres
  · cases hres
  · obtain ⟨c, -, heq⟩ := Option.map_eq_some_iff.1 hres
    cases heq
    exact criterionStableId_ne_empty _ _

theorem serves_of_resolve (hres : h.resolve u = some (criterionId, text)) :
    h.serves u = criterionId := by
  rw [Harvest.serves, hres]
  rfl

/-- Every member of the second list is in the union, and nothing the union holds already is added
again. -/
theorem unionGates_of_subset {additional : List String} (hsub : additional ⊆ base) :
    unionGates base additional = base := by
  unfold unionGates
  induction additional with
  | nil => rfl
  | cons g additional ih =>
    have hg : base.contains g = true := List.contains_iff_mem.2 (hsub List.mem_cons_self)
    rw [List.foldl_cons, if_pos hg]
    exact ih fun x hx => hsub (List.mem_cons_of_mem _ hx)

theorem subset_unionGates (base additional : List String) :
    base ⊆ unionGates base additional ∧ additional ⊆ unionGates base additional := by
  unfold unionGates
  induction additional generalizing base with
  | nil => exact ⟨fun _ hx => hx, nofun⟩
  | cons g additional ih =>
    rw [List.foldl_cons]
    by_cases hg : base.contains g = true
    · rw [if_pos hg]
      refine ⟨(ih base).1, List.cons_subset.2 ⟨?_, (ih base).2⟩⟩
      exact (ih base).1 (List.contains_iff_mem.1 hg)
    · rw [if_neg hg]
      obtain ⟨hbase, hadd⟩ := ih (base ++ [g])
      refine ⟨fun x hx => hbase (List.mem_append_left _ hx), List.cons_subset.2 ⟨?_, hadd⟩⟩
      exact hbase List.mem_append_cons_self

theorem foldl_getD {α β : Type} (t : α → Option β) (b : β) (l : List α) :
    l.foldl (fun b a => (t a).getD b) b = (l.reverse.findSome? t).getD b := by
  induction l generalizing b with
  | nil => rfl
  | cons a l ih =>
    rw [List.foldl_cons, ih, List.reverse_cons, List.findSome?_append]
    cases l.reverse.findSome? t with
    | none =>
      rw [Option.none_or, Option.getD_none, List.findSome?_cons]
      cases t a with
      | none => rfl
      | some x => rfl
    | some x => rfl

/-- A unit's stage once every proposal in `us` refined it. -/
def refineAll (st : Stage) (us : List UnitProposed) : Stage := us.foldl h.refine st

theorem refineAll_eq (st : Stage) (us : List UnitProposed) : refineAll h st us =
    { st with
      needs := us.foldl (fun n u => (some (withGateHold u.needs u.id h.gate)).getD n) st.needs
      coverage := us.foldl (fun text u => (h.textFor st.criterionId u).getD text) st.coverage
      gates := us.foldl (fun gates u => unionGates gates u.gates) st.gates
      episode := us.foldl (fun ep u => if st.baseline then ep else u.episode) st.episode } := by
  induction us generalizing st with
  | nil => rfl
  | cons u us ih =>
    show refineAll h (h.refine st u) us = _
    rw [ih]
    rfl

@[simp] theorem refineAll_criterionId (st : Stage) (us : List UnitProposed) :
    (refineAll h st us).criterionId = st.criterionId := by rw [refineAll_eq]

@[simp] theorem refineAll_baseline (st : Stage) (us : List UnitProposed) :
    (refineAll h st us).baseline = st.baseline := by rw [refineAll_eq]

@[simp] theorem refineAll_adjudicator (st : Stage) (us : List UnitProposed) :
    (refineAll h st us).adjudicator = st.adjudicator := by rw [refineAll_eq]

@[simp] theorem refineAll_produces (st : Stage) (us : List UnitProposed) :
    (refineAll h st us).produces = st.produces := by rw [refineAll_eq]

theorem refineAll_concat (st : Stage) (us : List UnitProposed) (u : UnitProposed) :
    refineAll h st (us ++ [u]) = h.refine (refineAll h st us) u := by
  rw [refineAll, List.foldl_append]
  rfl

/-- The gates of the union of a list of proposals are all there, with those it started from. -/
theorem subset_foldl_unionGates (us : List UnitProposed) (base : List String) :
    base ⊆ us.foldl (fun gates u => unionGates gates u.gates) base ∧
      ∀ u ∈ us, u.gates ⊆ us.foldl (fun gates u => unionGates gates u.gates) base := by
  induction us generalizing base with
  | nil => exact ⟨fun _ hx => hx, nofun⟩
  | cons v us ih =>
    rw [List.foldl_cons]
    obtain ⟨hbase, hadd⟩ := subset_unionGates base v.gates
    obtain ⟨hkept, hrest⟩ := ih (unionGates base v.gates)
    refine ⟨List.Subset.trans hbase hkept, fun u hu => ?_⟩
    rcases List.mem_cons.1 hu with rfl | hu
    · exact List.Subset.trans hadd hkept
    · exact hrest u hu

theorem foldl_unionGates_of_subset {us : List UnitProposed} (hsub : ∀ u ∈ us, u.gates ⊆ base) :
    us.foldl (fun gates u => unionGates gates u.gates) base = base := by
  induction us with
  | nil => rfl
  | cons u us ih =>
    rw [List.foldl_cons, unionGates_of_subset (hsub u List.mem_cons_self)]
    exact ih fun v hv => hsub v (List.mem_cons_of_mem _ hv)

/-- Refining a stage by the proposals that made it what it is leaves it. -/
theorem refineAll_idem (st : Stage) (us : List UnitProposed) :
    refineAll h (refineAll h st us) us = refineAll h st us := by
  rw [refineAll_eq h (refineAll h st us), refineAll_eq h st]
  have hgates := foldl_unionGates_of_subset (subset_foldl_unionGates us st.gates).2
  have htwice : ∀ {α : Type} (o : Option α) (b : α), o.getD (o.getD b) = o.getD b := by
    intro α o b
    cases o with
    | none => rfl
    | some a => rfl
  have hepisode : (fun (ep : String) (u : UnitProposed) => if st.baseline then ep else u.episode) =
      fun ep u => (if st.baseline then none else some u.episode).getD ep := by
    funext ep u
    cases st.baseline with
    | false => rfl
    | true => rfl
  simp only [hepisode, foldl_getD, hgates, htwice]

/-- A unit's own proposal says nothing of it that it does not say already. -/
theorem refine_stageOf (u : UnitProposed) : h.refine (h.stageOf u) u = h.stageOf u := by
  have hneeds : (h.stageOf u).needs = withGateHold u.needs u.id h.gate := rfl
  have hgates : (h.stageOf u).gates = unionGates h.templateGates u.gates := rfl
  have hepisode : (if (h.stageOf u).baseline = true then (h.stageOf u).episode else u.episode) =
      (h.stageOf u).episode := rfl
  have hunion : unionGates (h.stageOf u).gates u.gates = (h.stageOf u).gates := by
    rw [hgates]
    exact unionGates_of_subset (subset_unionGates _ _).2
  have htext : (h.textFor (h.stageOf u).criterionId u).getD (h.stageOf u).coverage =
      (h.stageOf u).coverage := by
    have hcoverage : (h.stageOf u).coverage = ((h.resolve u).map Prod.snd).getD u.coverage := rfl
    have hcriterion : (h.stageOf u).criterionId = ((h.resolve u).map Prod.fst).getD "" := by
      show h.serves u = _
      rw [Harvest.serves]
    rw [hcoverage, hcriterion, Harvest.textFor, Harvest.refinedText]
    cases Harvest.blank u with
    | true => rfl
    | false =>
      cases h.resolve u with
      | none => simp
      | some r => simp
  rw [Harvest.refine, hunion, htext, ← hneeds, hepisode]

end

/-! ## Taking over -/

/-- The harvest, reading other final episodes. -/
def Harvest.reads (h : Harvest) (final : String → Option String) : Harvest :=
    { h with final := final }

/-- Whether a proposal of a new id takes a stage over. -/
def Harvest.takes (h : Harvest) (order : List String) (d : Dag) (u : UnitProposed) (name : String)
    (st : Stage) : Bool :=
  h.serves u != "" && h.priorOwner order d u (h.serves u) name st

section
variable (h : Harvest) {final : String → Option String}

@[simp] theorem serves_reads (u : UnitProposed) : (h.reads final).serves u = h.serves u := by
  unfold Harvest.serves Harvest.resolve
  rfl

@[simp] theorem stageOf_reads (u : UnitProposed) : (h.reads final).stageOf u = h.stageOf u := by
  unfold Harvest.stageOf Harvest.serves Harvest.resolve
  rfl

@[simp] theorem refine_reads (st : Stage) (u : UnitProposed) :
    (h.reads final).refine st u = h.refine st u := by
  unfold Harvest.refine Harvest.textFor Harvest.refinedText Harvest.resolve
  rfl

@[simp] theorem final_reads : (h.reads final).final = final := rfl

theorem takes_iff {order : List String} {d : Dag} {u : UnitProposed} {name : String} {st : Stage} :
    h.takes order d u name st = true ↔ h.serves u ≠ "" ∧ d.ended name = false ∧
      st.criterionId = h.serves u ∧
        (st.baseline = true ∨ yields order ((h.final name).getD st.episode) u.episode = true) := by
  unfold Harvest.takes Harvest.priorOwner
  rw [Bool.and_eq_true, Bool.and_eq_true, Bool.and_eq_true, Bool.or_eq_true, bne_iff_ne, beq_iff_eq,
    Bool.not_eq_true', and_assoc]

theorem superseded_getElem? (order : List String) (d : Dag) (u : UnitProposed) (name : String) :
    (h.superseded order d u)[name]? = (d.stages[name]?).filter fun st =>
      !h.takes order d u name st := by
  unfold Harvest.superseded Harvest.takes
  cases hres : h.resolve u with
  | none =>
    have hserves : h.serves u = "" := by
      rw [Harvest.serves, hres]
      rfl
    rw [hserves]
    cases d.stages[name]? with
    | none => rfl
    | some st => rfl
  | some r =>
    obtain ⟨criterionId, text⟩ := r
    have hne : (criterionId != "") = true := bne_iff_ne.2 (resolve_ne_empty h hres)
    rw [serves_of_resolve h hres, hne]
    show (d.stages.filter _)[name]? = _
    rw [Std.ExtTreeMap.getElem?_filter']
    rfl

end

end Rigger.Conductor.Proposed
