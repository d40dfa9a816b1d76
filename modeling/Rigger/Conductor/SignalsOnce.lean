import Rigger.Conductor.Harvests
import Rigger.Conductor.Signals

/-!
# How often a signal is recorded (`rigger-conductor/src/conductor.rs`, `harvest_proposed`)

A refused retarget is on record once, over every process.  A proposal refused for no coverage or
taken up unmatched is recorded once by each process that walks it, so it is on record once where no
process starts after one that recorded such a signal (`recorded_once`).
-/

namespace Rigger.Conductor.Recorded

open Lib Proposed

def unitOf : Signal → String
  | .refineRetarget unit _ => unit
  | .noCriterion unit => unit
  | .unmatched unit => unit

/-- What a proposal of a new id is signalled. -/
def refusal (h : Harvest) (u : UnitProposed) : Option Signal :=
  if !h.criteria.isEmpty && Harvest.blank u then some (.noCriterion u.id)
  else if (h.stageOf u).unmatchedFanoutProposal then some (.unmatched u.id)
  else none

/-! ## One proposal -/

section
variable {h : Harvest} {d : Dag} {u : UnitProposed} {s : Signal} {order : List String}

theorem refusal_spec (hs : refusal h u = some s) : key s = none ∧ unitOf s = u.id := by
  unfold refusal at hs
  split at hs
  · cases hs
    exact ⟨rfl, rfl⟩
  · split at hs
    · cases hs
      exact ⟨rfl, rfl⟩
    · cases hs

/-- Where a proposal is new: no stage has its id, and the process has not met it. -/
def New (d : Dag) (u : UnitProposed) : Prop :=
    u.id ≠ "" ∧ d.stages[u.id]? = none ∧ u.id ∉ d.proposed

theorem signal_of_new (hnew : New d u) : h.signal d u = refusal h u := by
  obtain ⟨hid, hnone, hout⟩ := hnew
  unfold Harvest.signal refusal
  rw [if_neg (by simpa using hid), hnone]
  dsimp only
  rw [if_neg hout]

/-- A signal is a new proposal's refusal, or a retarget of a stage taken up that has not ended. -/
theorem signal_cases (hs : h.signal d u = some s) :
    (New d u ∧ refusal h u = some s) ∨
      (s = .refineRetarget u.id u.position ∧ u.id ∈ d.proposed ∧ d.ended u.id = false ∧
        ∃ st served text, d.stages[u.id]? = some st ∧ h.refinedText u = some (served, text) ∧
          served ≠ st.criterionId) := by
  by_cases hnew : New d u
  · rw [signal_of_new hnew] at hs
    exact .inl ⟨hnew, hs⟩
  · refine .inr ?_
    unfold Harvest.signal at hs
    split at hs
    · cases hs
    · next hid =>
      have hid' : u.id ≠ "" := by simpa using hid
      split at hs
      · next st hst =>
        split at hs
        · next hopen =>
          split at hs
          · next served text htext =>
            split at hs
            · cases hs
            · next hne =>
              cases hs
              exact ⟨rfl, hopen.1, hopen.2, st, served, text, hst, htext, hne⟩
          · cases hs
        · cases hs
      · next hnone =>
        split at hs
        · cases hs
        · next hout => exact absurd ⟨hid', hnone, hout⟩ hnew

/-- A proposal is skipped, refines its stage, is refused, or becomes a stage. -/
theorem take_cases (h : Harvest) (order : List String) (d : Dag) (u : UnitProposed) :
    (¬New d u ∧ h.take order d u = d) ∨
      (u.id ∈ d.proposed ∧ ∃ st, d.stages[u.id]? = some st ∧
        h.take order d u = { d with stages := d.stages.insert u.id (h.refine st u) }) ∨
      (New d u ∧ adds h d u = false ∧
        h.take order d u = { d with proposed := insert u.id d.proposed }) ∨
      New d u ∧ adds h d u = true ∧ h.take order d u = h.add order d u := by
  unfold Harvest.take
  split
  · next hid => exact .inl ⟨fun hnew => hnew.1 (by simpa using hid), rfl⟩
  · next hid =>
    have hid' : u.id ≠ "" := by simpa using hid
    split
    · next st hst =>
      split
      · next hopen => exact .inr (.inl ⟨hopen.1, st, hst, rfl⟩)
      · refine .inl ⟨fun hnew => ?_, rfl⟩
        have hnone := hnew.2.1
        rw [hst] at hnone
        cases hnone
    · next hnone =>
      split
      · next hin => exact .inl ⟨fun hnew => hnew.2.2 hin, rfl⟩
      · next hout =>
        have hnew : New d u := ⟨hid', hnone, hout⟩
        split
        · next hrefused =>
          refine .inr (.inr (.inl ⟨hnew, ?_, rfl⟩))
          unfold adds
          rw [hrefused]
          simp
        · next hrefused =>
          refine .inr (.inr (.inr ⟨hnew, ?_, rfl⟩))
          unfold adds
          rw [hnone, Bool.eq_false_iff.2 hrefused]
          simp [hid', hout]

theorem proposed_take (h : Harvest) (order : List String) (d : Dag) (u : UnitProposed) :
    (h.take order d u).proposed = d.proposed ∧ ¬New d u ∨
      (h.take order d u).proposed = insert u.id d.proposed ∧ New d u := by
  rcases take_cases h order d u with ⟨hnew, heq⟩ | ⟨hin, st, hst, heq⟩ | ⟨hnew, -,
    heq⟩ | ⟨hnew, -, heq⟩
  · exact .inl ⟨by rw [heq], hnew⟩
  · exact .inl ⟨by rw [heq], fun hnew => hnew.2.2 hin⟩
  · exact .inr ⟨by rw [heq], hnew⟩
  · exact .inr ⟨by rw [heq]; rfl, hnew⟩

theorem proposed_mono (h : Harvest) (order : List String) (d : Dag) (u : UnitProposed) :
    d.proposed ⊆ (h.take order d u).proposed := by
  rcases proposed_take h order d u with ⟨heq, -⟩ | ⟨heq, -⟩
  · rw [heq]
  · rw [heq]
    exact Finset.subset_insert _ _

/-- A stage after a proposal was there before with the same criterion, or is the one it becomes. -/
theorem stage_of_take {name : String} {st' : Stage}
    (hst' : (h.take order d u).stages[name]? = some st') :
    (∃ st, d.stages[name]? = some st ∧ st.criterionId = st'.criterionId) ∨
      (name = u.id ∧ New d u ∧ adds h d u = true ∧ st'.criterionId = h.serves u) := by
  rcases take_cases h order d u with ⟨-, heq⟩ | ⟨-, st, hst, heq⟩ | ⟨-, -, heq⟩ | ⟨hnew, hadds, heq⟩
  · rw [heq] at hst'
    exact .inl ⟨st', hst', rfl⟩
  · rw [heq] at hst'
    dsimp only at hst'
    rw [Std.ExtTreeMap.getElem?_insert] at hst'
    split at hst'
    · next hname =>
      cases hst'
      rw [Std.LawfulEqCmp.compare_eq_iff_eq] at hname
      subst hname
      exact .inl ⟨st, hst, rfl⟩
    · exact .inl ⟨st', hst', rfl⟩
  · rw [heq] at hst'
    exact .inl ⟨st', hst', rfl⟩
  · rw [heq] at hst'
    unfold Harvest.add at hst'
    dsimp only at hst'
    rw [Std.ExtTreeMap.getElem?_insert] at hst'
    split at hst'
    · next hname =>
      cases hst'
      rw [Std.LawfulEqCmp.compare_eq_iff_eq] at hname
      exact .inr ⟨hname.symm, hnew, hadds, rfl⟩
    · unfold Harvest.superseded at hst'
      split at hst'
      · rw [Std.ExtTreeMap.getElem?_filter'] at hst'
        exact .inl ⟨st', (Option.filter_eq_some_iff.1 hst').1, rfl⟩
      · exact .inl ⟨st', hst', rfl⟩

theorem ended_mono : d.integrated ⊆ (h.take order d u).integrated ∧
    d.terminal ⊆ (h.take order d u).terminal := by
  rcases take_cases h order d u with ⟨-, heq⟩ | ⟨-, st, -, heq⟩ | ⟨-, -, heq⟩ | ⟨-, -, heq⟩
  · rw [heq]
    exact ⟨fun _ hx => hx, fun _ hx => hx⟩
  · rw [heq]
    exact ⟨fun _ hx => hx, fun _ hx => hx⟩
  · rw [heq]
    exact ⟨fun _ hx => hx, fun _ hx => hx⟩
  · rw [heq]
    unfold Harvest.add
    dsimp only
    split
    · exact ⟨Finset.subset_insert _ _, Finset.subset_insert _ _⟩
    · exact ⟨fun _ hx => hx, fun _ hx => hx⟩

theorem ended_take {id : String} (hended : d.ended id = true) :
    (h.take order d u).ended id = true := by
  obtain ⟨hintegrated, hterminal⟩ := ended_mono (h := h) (d := d) (u := u)
  unfold Dag.ended at hended ⊢
  rw [decide_eq_true_eq] at hended ⊢
  exact hended.imp (fun hin => hintegrated hin) fun hin => hterminal hin

end

/-! ## What a process has met -/

/-- The stages of a process are those of the run's start and those it took up, and it has met the
ids of the proposals it walked. -/
structure Named (c : Planning) (seen : List UnitProposed) (d : Dag) : Prop where
  stages : ∀ (name : String) (st : Stage), d.stages[name]? = some st →
    c.baseStages.contains name = true ∨ name ∈ d.proposed
  proposed : ∀ name ∈ d.proposed, name ≠ "" ∧ ∃ u ∈ seen, u.id = name
  taken : ∀ u ∈ seen, u.id ≠ "" → c.baseStages.contains u.id = false → u.id ∈ d.proposed

namespace Named
variable {c : Planning} {seen : List UnitProposed} {d : Dag} {u : UnitProposed}

theorem absent (hn : Named c seen d) {name : String} (hbase : c.baseStages.contains name = false)
    (hout : name ∉ d.proposed) : d.stages[name]? = none := by
  cases hst : d.stages[name]? with
  | none => rfl
  | some st =>
    rcases hn.stages name st hst with hcontains | hin
    · rw [hbase] at hcontains
      cases hcontains
    · exact absurd hin hout

/-- A proposal of a name of its own is new where the process has met none of its id. -/
theorem new_iff (hn : Named c seen d) (hid : u.id ≠ "")
    (hbase : c.baseStages.contains u.id = false) :
    New d u ↔ ∀ v ∈ seen, v.id ≠ u.id := by
  constructor
  · intro hnew v hv heq
    exact hnew.2.2 (heq ▸ hn.taken v hv (heq ▸ hid) (heq ▸ hbase))
  · intro hseen
    have hout : u.id ∉ d.proposed := by
      intro hin
      obtain ⟨-, v, hv, heq⟩ := hn.proposed _ hin
      exact hseen v hv heq
    exact ⟨hid, hn.absent hbase hout, hout⟩

theorem take (hn : Named c seen d) (h : Harvest) (order : List String) :
    Named c (seen ++ [u]) (h.take order d u) where
  stages name st hst := by
    rcases stage_of_take hst with ⟨st', hst', -⟩ | ⟨rfl, hnew, -, -⟩
    · exact (hn.stages name st' hst').imp_right fun hin => proposed_mono h order d u hin
    · rcases proposed_take h order d u with ⟨-, hnot⟩ | ⟨heq, -⟩
      · exact absurd hnew hnot
      · exact .inr (heq ▸ Finset.mem_insert_self _ _)
  proposed name hname := by
    have hold : name ∈ d.proposed → name ≠ "" ∧ ∃ v ∈ seen ++ [u], v.id = name := fun hin =>
      (hn.proposed name hin).imp_right fun ⟨v, hv, heq⟩ => ⟨v, List.mem_append_left _ hv, heq⟩
    rcases proposed_take h order d u with ⟨heq, -⟩ | ⟨heq, hnew⟩
    · exact hold (heq ▸ hname)
    · rw [heq, Finset.mem_insert] at hname
      rcases hname with rfl | hname
      · exact ⟨hnew.1, u, by simp, rfl⟩
      · exact hold hname
  taken v hv hid hbase := by
    rcases List.mem_append.1 hv with hv | hv
    · exact proposed_mono h order d u (hn.taken v hv hid hbase)
    · cases List.mem_singleton.1 hv
      rcases proposed_take h order d u with ⟨heq, hnot⟩ | ⟨heq, -⟩
      · rw [heq]
        by_contra hout
        exact hnot ⟨hid, hn.absent hbase hout, hout⟩
      · rw [heq]
        exact Finset.mem_insert_self _ _

theorem fresh (c : Planning) (integrated terminal : Finset String) :
    Named c [] (c.fresh integrated terminal) where
  stages name st hst := by
    rw [Std.ExtTreeMap.contains_eq_isSome_getElem?, show c.baseStages[name]? = some st from hst]
    exact .inl rfl
  proposed name hname := absurd hname (Finset.notMem_empty name)
  taken := nofun

theorem walk (hn : Named c seen d) (h : Harvest) {w : Walk} (hw : w.dag = d)
    (us : List UnitProposed) :
    Named c (seen ++ us) (us.foldl (Walk.step h) w).dag := by
  induction us generalizing seen d w with
  | nil =>
    rw [List.append_nil, List.foldl_nil, hw]
    exact hn
  | cons u us ih =>
    subst hw
    have hrest := ih (hn.take (u := u) h (meet w.order u.episode)) (w := w.step h u) rfl
    rwa [List.append_assoc, List.singleton_append] at hrest

theorem again {us : List UnitProposed} (hn : Named c (seen ++ us) d)
    (hsub : seen ⊆ us) : Named c us d where
  stages := hn.stages
  proposed name hname := by
    obtain ⟨hne, u, hu, heq⟩ := hn.proposed name hname
    exact ⟨hne, u, (List.mem_append.1 hu).elim (fun hu => hsub hu) id, heq⟩
  taken u hu := hn.taken u (List.mem_append_right _ hu)

end Named

/-! ## What a walk raises -/

def signals (is : List Item) : List Signal := is.filterMap Item.signalled

section
variable (h : Harvest)

theorem signals_itemsOf (d : Dag) (u : UnitProposed) :
    signals (itemsOf h d u) = (h.signal d u).toList := by
  unfold itemsOf signals
  rw [List.filterMap_append]
  have hlanding : (if lands h d u = true then [Item.landing (h.stageOf u)] else []).filterMap
      Item.signalled = [] := by
    split <;> rfl
  rw [hlanding, List.append_nil]
  cases h.signal d u <;> rfl

theorem signals_cons (w : Walk) (u : UnitProposed) (us : List UnitProposed) :
    signals (items h w (u :: us)) = (h.signal w.dag u).toList ++
      signals (items h (w.step h u) us) := by
  rw [items, signals, List.filterMap_append, ← signals, signals_itemsOf, ← signals]

theorem proposed_walk (w : Walk) (us : List UnitProposed) :
    w.dag.proposed ⊆ (us.foldl (Walk.step h) w).dag.proposed := by
  induction us generalizing w with
  | nil => exact fun _ hx => hx
  | cons u us ih =>
    exact Finset.Subset.trans (proposed_mono h (meet w.order u.episode) w.dag u) (ih (w.step h u))

/-- A signal without a key names an id the walk meets first, and is raised once. -/
theorem unkeyed_walk (w : Walk) (us : List UnitProposed) {s : Signal} (hkey : key s = none)
    (hs : s ∈ signals (items h w us)) : unitOf s ∉ w.dag.proposed ∧
      unitOf s ∈ (us.foldl (Walk.step h) w).dag.proposed ∧
      (signals (items h w us)).count s = 1 := by
  induction us generalizing w with
  | nil => cases hs
  | cons u us ih =>
    rw [signals_cons] at hs ⊢
    rw [List.foldl_cons, List.count_append]
    have hmono := proposed_mono h (meet w.order u.episode) w.dag u
    by_cases hfirst : h.signal w.dag u = some s
    · rcases signal_cases hfirst with ⟨hnew, hrefusal⟩ | ⟨rfl, -⟩
      · have hunit := (refusal_spec hrefusal).2
        have hin : unitOf s ∈ (w.step h u).dag.proposed := by
          rcases proposed_take h (meet w.order u.episode) w.dag u with ⟨-, hnot⟩ | ⟨heq, -⟩
          · exact absurd hnew hnot
          · rw [hunit]
            exact heq ▸ Finset.mem_insert_self _ _
        have hrest : (signals (items h (w.step h u) us)).count s = 0 :=
          List.count_eq_zero.2 fun hmem => (ih (w.step h u) hmem).1 hin
        refine ⟨by rw [hunit]; exact hnew.2.2, proposed_walk h (w.step h u) us hin, ?_⟩
        rw [hfirst, hrest]
        simp
      · cases hkey
    · have hnone : (h.signal w.dag u).toList.count s = 0 :=
        List.count_eq_zero.2 fun hmem => hfirst (Option.mem_toList.1 hmem)
      have hmem : s ∈ signals (items h (w.step h u) us) :=
        (List.mem_append.1 hs).resolve_left fun hmem => hfirst (Option.mem_toList.1 hmem)
      obtain ⟨hout, hin, hcount⟩ := ih (w.step h u) hmem
      exact ⟨fun hbefore => hout (hmono hbefore), hin, by rw [hnone, hcount]⟩

end

/-! ## The log of a run -/

section
variable {r : Recorder} {w : World} {p : Process} {t : Trail}

theorem records_foldl (h : Sound t) (made : List Item) : Sound (made.foldl r.record t) ∧
    t.keys ⊆ (made.foldl r.record t).keys ∧
    (∀ s, key s = none → (made.foldl r.record t).log.countP (records s) =
      t.log.countP (records s) + (signals made).count s) ∧
    ∀ unit position, .refineRetarget unit position ∈ signals made →
      retargetKey unit position ∈ (made.foldl r.record t).keys := by
  induction made generalizing t with
  | nil => exact ⟨h, fun _ hx => hx, fun _ _ => rfl, nofun⟩
  | cons item made ih =>
    obtain ⟨hsound, hkeys, hcount, hretarget⟩ := record_spec (r := r) h item
    obtain ⟨hsound', hkeys', hcount', hretarget'⟩ := ih hsound
    have hsignals : signals (item :: made) = item.signalled.toList ++ signals made := by
      unfold signals
      rw [List.filterMap_cons]
      cases item.signalled <;> rfl
    refine ⟨hsound', List.Subset.trans hkeys hkeys', fun s hs => ?_, fun unit position hmem => ?_⟩
    · rw [List.foldl_cons, hcount' s hs, hcount s hs, hsignals, List.count_append, Nat.add_assoc]
    · rw [hsignals, List.mem_append, Option.mem_toList] at hmem
      exact hmem.elim (fun hmem => hkeys' (hretarget unit position hmem)) (hretarget' unit position)

/-- What harvests raised is on the log: a retarget under its key, any other signal as often as
raised. -/
structure Counted (w : World) : Prop where
  tallied : ∀ unit position, w.log.countP (records (.refineRetarget unit position)) =
    if retargetKey unit position ∈ seededKeys w.log then 1 else 0
  held : ∀ p, w.process = some p → ∀ unit position,
    retargetKey unit position ∈ p.keys ↔ retargetKey unit position ∈ seededKeys w.log
  keyed : ∀ unit position, .refineRetarget unit position ∈ w.raised →
    retargetKey unit position ∈ seededKeys w.log
  unkeyed : ∀ s, key s = none → w.log.countP (records s) = w.raised.count s

/-- What one harvest makes of its items. -/
def Recorder.made (r : Recorder) (w : World) (p : Process) (stops : Option Nat) : List Item :=
  stops.elim (r.walkItems (proposals w.log) p.dag) fun n =>
    (r.walkItems (proposals w.log) p.dag).take n

theorem raised_harvestOver (stops : Option Nat) :
    (r.harvestOver w p stops).raised = w.raised ++ signals (r.made w p stops) := rfl

theorem log_harvestOver (stops : Option Nat) :
    (r.harvestOver w p stops).log = ((r.made w p stops).foldl r.record ⟨w.log, p.keys⟩).log := rfl

theorem signals_made (stops : Option Nat) :
    signals (r.made w p stops) <+: signals (r.walkItems (proposals w.log) p.dag) := by
  cases stops with
  | none => exact List.prefix_rfl
  | some n => exact (List.take_prefix n _).filterMap _

theorem process_harvestOver {stops : Option Nat} {p' : Process}
    (hp' : (r.harvestOver w p stops).process = some p') : stops = none ∧
      p' = ⟨(r.planning.walk (proposals w.log) p.dag).dag,
        ((r.made w p stops).foldl r.record ⟨w.log, p.keys⟩).keys, proposals w.log⟩ := by
  cases stops with
  | none => exact ⟨rfl, (Option.some.inj hp').symm⟩
  | some n => cases hp'

theorem Counted.harvestOver (h : Counted w)
    (hheld : ∀ unit position, retargetKey unit position ∈ p.keys ↔
      retargetKey unit position ∈ seededKeys w.log) (stops : Option Nat) :
    Counted (r.harvestOver w p stops) := by
  obtain ⟨hsound, hkeys, hcount, hretarget⟩ :=
    records_foldl (r := r) (t := ⟨w.log, p.keys⟩) ⟨hheld, h.tallied⟩ (r.made w p stops)
  refine ⟨hsound.tallied, fun p' hp' => ?_, fun unit position hraised => ?_, fun s hs => ?_⟩
  · obtain ⟨-, rfl⟩ := process_harvestOver hp'
    exact hsound.held
  · refine (hsound.held unit position).1 ?_
    rw [raised_harvestOver, List.mem_append] at hraised
    exact hraised.elim (fun hold => hkeys ((hheld unit position).2 (h.keyed unit position hold)))
      (hretarget unit position)
  · rw [log_harvestOver, raised_harvestOver, List.count_append, hcount s hs, h.unkeyed s hs]

theorem Counted.other (h : Counted w) {e : Event} {claimed : List String}
    (hforeign : Foreign e claimed)
    (gap : Nat) : Counted (r.step w (.other e gap claimed hforeign)) := by
  have hcount : ∀ s,
    (w.log ++ [{ e with position := nextPosition w.log + gap }]).countP (records s) =
      w.log.countP (records s) := by
    intro s
    have hnone : records s { e with position := nextPosition w.log + gap } = false :=
      hforeign.records s
    rw [List.countP_append, List.countP_singleton, hnone]
    rfl
  have hseeded : ∀ unit position,
      retargetKey unit position ∈ seededKeys
      (w.log ++ [{ e with position := nextPosition w.log + gap }]) ↔
        retargetKey unit position ∈ seededKeys w.log := by
    intro unit position
    constructor
    · intro hmem
      exact (mem_seededKeys_concat hmem).resolve_right fun hkey =>
        hforeign.key _ hkey unit position rfl
    · intro hmem
      rw [Keyed.seededKeys_append]
      exact List.mem_append_left _ hmem
  refine ⟨fun unit position => ?_, fun p hp => ?_, fun unit position hraised => ?_, fun s hs => ?_⟩
  · show (w.log ++ [_]).countP _ = if _ ∈ seededKeys (w.log ++ [_]) then 1 else 0
    rw [hcount, h.tallied]
    simp only [hseeded]
  · intro unit position
    obtain ⟨p₀, hp₀, rfl⟩ := Option.map_eq_some_iff.1 hp
    refine Iff.trans ?_ ((h.held p₀ hp₀ unit position).trans (hseeded unit position).symm)
    exact List.mem_append.trans (or_iff_right fun hmem => hforeign.claimed _ hmem unit position rfl)
  · exact (hseeded unit position).2 (h.keyed unit position hraised)
  · exact (hcount s).trans (h.unkeyed s hs)

theorem Counted.step (h : Counted w) (a : Act) : Counted (r.step w a) := by
  cases a with
  | other e gap claimed hforeign => exact h.other hforeign gap
  | start integrated terminal stops => exact h.harvestOver (fun _ _ => Iff.rfl) stops
  | harvest integrated terminal stops =>
    unfold Recorder.step
    dsimp only
    split
    · next p hp =>
      exact h.harvestOver (p := Recorder.later p integrated terminal) (h.held p hp) stops
    · exact h

theorem counted_new : Counted World.new where
  tallied unit position := (if_neg (by simp [World.new, seededKeys])).symm
  held := nofun
  keyed := nofun
  unkeyed _ _ := rfl

theorem counted_run (r : Recorder) (acts : List Act) : Counted (run r.step World.new acts) :=
  run_invariant (fun _ a h => h.step a) counted_new acts

theorem Counted.once_keyed (h : Counted w) {s : Signal} (hs : s ∈ w.raised)
    (hkey : (key s).isSome = true) :
    w.log.countP (records s) = 1 := by
  cases s with
  | refineRetarget unit position => rw [h.tallied, if_pos (h.keyed unit position hs)]
  | noCriterion unit => cases hkey
  | unmatched unit => cases hkey

end

/-! ## One process -/

/-- No process starts after a harvest that raised a signal without a key. -/
def Alone (w : World) : Act → Prop
  | .start _ _ _ => ∀ s ∈ w.raised, (key s).isSome = true
  | _ => True

/-- The running process has met the unit of every signal raised without a key, which was raised
once. -/
structure Single (w : World) : Prop where
  once : ∀ s ∈ w.raised, key s = none → w.raised.count s = 1
  met : ∀ s ∈ w.raised, key s = none → ∀ p, w.process = some p → unitOf s ∈ p.dag.proposed

section
variable {r : Recorder} {w : World} {p : Process}

theorem Single.harvestOver (h : Single w)
    (hmet : ∀ s ∈ w.raised, key s = none → unitOf s ∈ p.dag.proposed) (stops : Option Nat) :
    Single (r.harvestOver w p stops) := by
  have hleading := signals_made (r := r) (w := w) (p := p) stops
  have hwalk : ∀ s ∈ signals (r.made w p stops), key s = none → unitOf s ∉ p.dag.proposed ∧
      unitOf s ∈ (r.planning.walk (proposals w.log) p.dag).dag.proposed ∧
        (signals (r.made w p stops)).count s = 1 := by
    intro s hs hkey
    obtain ⟨hout, hin, hcount⟩ := unkeyed_walk _ _ _ hkey (hleading.subset hs)
    refine ⟨hout, hin, le_antisymm ?_ (List.count_pos_iff.2 hs)⟩
    exact (hleading.sublist.count_le s).trans (le_of_eq hcount)
  refine ⟨fun s hs hkey => ?_, fun s hs hkey p' hp' => ?_⟩
  · rw [raised_harvestOver, List.count_append]
    by_cases hmade : s ∈ signals (r.made w p stops)
    · have hold : s ∉ w.raised := fun hold => (hwalk s hmade hkey).1 (hmet s hold hkey)
      rw [List.count_eq_zero.2 hold, (hwalk s hmade hkey).2.2]
    · rw [List.count_eq_zero.2 hmade]
      rw [raised_harvestOver, List.mem_append] at hs
      exact h.once s (hs.resolve_right hmade) hkey
  · obtain ⟨-, rfl⟩ := process_harvestOver hp'
    rw [raised_harvestOver, List.mem_append] at hs
    rcases hs with hs | hs
    · exact proposed_walk _ (Walk.start p.dag) _ (hmet s hs hkey)
    · exact (hwalk s hs hkey).2.1

theorem Single.step (h : Single w) {a : Act} (ha : Alone w a) : Single (r.step w a) := by
  cases a with
  | other e gap claimed hforeign =>
    refine ⟨h.once, fun s hs hkey p hp => ?_⟩
    obtain ⟨p₀, hp₀, rfl⟩ := Option.map_eq_some_iff.1 hp
    exact h.met s hs hkey p₀ hp₀
  | start integrated terminal stops =>
    refine h.harvestOver (fun s hs hkey => ?_) stops
    have hsome := ha s hs
    rw [hkey] at hsome
    cases hsome
  | harvest integrated terminal stops =>
    unfold Recorder.step
    dsimp only
    split
    · next p hp =>
      refine h.harvestOver (p := Recorder.later p integrated terminal) (fun s hs hkey => ?_) stops
      exact h.met s hs hkey p hp
    · exact h

theorem single_run {acts : List Act} (h : Along r.step Alone World.new acts) :
    Single (run r.step World.new acts) :=
  run_invariant_along (fun _ _ ha hw => hw.step ha) h ⟨nofun, nofun⟩

end

/-! ## Another process -/

theorem refusal_harvest (c : Planning) (us us' : List UnitProposed) (d d' : Dag)
    (u : UnitProposed) :
    refusal (c.harvest us d) u = refusal (c.harvest us' d') u := by
  unfold refusal Harvest.stageOf Harvest.resolve
  rfl

section
variable {c : Planning} {h : Harvest} {seen us : List UnitProposed} {w : Walk} {s : Signal}

theorem exists_first (hn : Named c seen w.dag) (hkey : key s = none)
    (hbase : c.baseStages.contains (unitOf s) = false) (hs : s ∈ signals (items h w us)) :
    ∃ before u after, us = before ++ u :: after ∧ u.id ≠ "" ∧ (∀ v ∈ seen ++ before, v.id ≠ u.id) ∧
      refusal h u = some s := by
  induction us generalizing seen w with
  | nil => cases hs
  | cons u us ih =>
    rw [signals_cons, List.mem_append, Option.mem_toList] at hs
    rcases hs with hs | hs
    · rcases signal_cases hs with ⟨hnew, hrefusal⟩ | ⟨rfl, -⟩
      · rw [(refusal_spec hrefusal).2] at hbase
        refine ⟨[], u, us, rfl, hnew.1, ?_, hrefusal⟩
        rw [List.append_nil]
        exact (hn.new_iff hnew.1 hbase).1 hnew
      · cases hkey
    · obtain ⟨before, v, after, rfl, hid, hfirst, hrefusal⟩ :=
        ih (hn.take h (meet w.order u.episode)) (w := w.step h u) hs
      refine ⟨u :: before, v, after, rfl, hid, fun x hx => hfirst x ?_, hrefusal⟩
      simpa [or_assoc] using hx

theorem signal_first (hn : Named c seen w.dag) {before after : List UnitProposed} {u : UnitProposed}
    (hus : us = before ++ u :: after) (hid : u.id ≠ "") (hbase : c.baseStages.contains u.id = false)
    (hfirst : ∀ v ∈ seen ++ before, v.id ≠ u.id) (hs : refusal h u = some s) :
    s ∈ signals (items h w us) := by
  subst hus
  induction before generalizing seen w with
  | nil =>
    rw [List.append_nil] at hfirst
    rw [List.nil_append, signals_cons, signal_of_new ((hn.new_iff hid hbase).2 hfirst), hs]
    exact List.mem_append_left _ (Option.mem_toList.2 rfl)
  | cons v before ih =>
    rw [List.cons_append, signals_cons]
    refine List.mem_append_right _ (ih (hn.take h (meet w.order v.episode)) (w := w.step h v) ?_)
    intro x hx
    exact hfirst x (by simpa [or_assoc] using hx)

end

/-- The running process, and the first proposals of the ids signalled. -/
structure Walked (c : Planning) (w : World) : Prop where
  named : ∀ p, w.process = some p → Named c p.walked p.dag ∧ p.walked ⊆ proposals w.log
  first : ∀ s ∈ w.raised, key s = none → c.baseStages.contains (unitOf s) = false →
    ∃ before u after, proposals w.log = before ++ u :: after ∧ u.id ≠ "" ∧
    (∀ v ∈ before, v.id ≠ u.id) ∧
      refusal (c.harvest [] (c.fresh ∅ ∅)) u = some s

section
variable {r : Recorder} {w : World} {p : Process}

theorem proposals_record (t : Trail) (item : Item) :
    proposals (r.record t item).log = proposals t.log := by
  have hone : ∀ (log : List Event) (type_ : String) (payload : Json) (k : Option String),
      type_ ≠ typeUnitProposed →
      proposals (log ++ [r.event log type_ payload k]) = proposals log := by
    intro log type_ payload k htype
    have hnone : UnitProposed.ofEvent (r.event log type_ payload k) = none := by
      rw [UnitProposed.ofEvent, event_type, if_neg htype]
    rw [Planning.proposals_append]
    simp [proposals, hnone]
  have hkeyed : ∀ (t : Trail) (k type_ : String) (payload : Json), type_ ≠ typeUnitProposed →
      proposals (r.emitKeyed t k type_ payload).log = proposals t.log := by
    intro t k type_ payload htype
    unfold Recorder.emitKeyed
    split
    · rfl
    · exact hone _ _ _ _ htype
  cases item with
  | landing st => exact (hkeyed _ _ _ _ (by decide)).trans (hkeyed _ _ _ _ (by decide))
  | signal s =>
    have htype : (body s).1 ≠ typeUnitProposed := by
      have hboth : ∀ type_ ∈ [typeScopeCreep, typeDecisionMade],
        type_ ≠ typeUnitProposed := by decide
      cases s
      · exact hboth _ (by simp [body])
      · exact hboth _ (by simp [body])
      · exact hboth _ (by simp [body])
    unfold Recorder.record
    dsimp only
    split
    · exact hkeyed _ _ _ _ htype
    · exact hone _ _ _ _ htype

theorem proposals_harvestOver (stops : Option Nat) :
    proposals (r.harvestOver w p stops).log = proposals w.log := by
  have hall : ∀ (made : List Item) (t : Trail),
      proposals (made.foldl r.record t).log = proposals t.log := by
    intro made
    induction made with
    | nil => exact fun _ => rfl
    | cons item made ih => exact fun t => (ih _).trans (proposals_record t item)
  exact hall _ _

theorem Walked.harvestOver (h : Walked r.planning w) (hn : Named r.planning p.walked p.dag)
    (hsub : p.walked ⊆ proposals w.log) (stops : Option Nat) :
    Walked r.planning (r.harvestOver w p stops) := by
  refine ⟨fun p' hp' => ?_, fun s hs hkey hbase => ?_⟩
  · obtain ⟨-, rfl⟩ := process_harvestOver hp'
    rw [proposals_harvestOver]
    exact ⟨(hn.walk _ rfl (proposals w.log)).again hsub, fun _ hx => hx⟩
  · rw [proposals_harvestOver]
    rw [raised_harvestOver, List.mem_append] at hs
    rcases hs with hs | hs
    · exact h.first s hs hkey hbase
    · obtain ⟨before, u, after, hus, hid, hfirst, hrefusal⟩ :=
        exists_first hn (w := Walk.start p.dag) hkey hbase ((signals_made stops).subset hs)
      refine ⟨before, u, after, hus, hid, fun v hv => hfirst v (List.mem_append_right _ hv), ?_⟩
      rw [← hrefusal]
      exact refusal_harvest _ _ _ _ _ _

theorem Walked.step (h : Walked r.planning w) (a : Act) : Walked r.planning (r.step w a) := by
  cases a with
  | other e gap claimed hforeign =>
    have hleading : proposals w.log <+: proposals (r.step w (.other e gap claimed hforeign)).log :=
      List.IsPrefix.filterMap _ (List.prefix_append _ _)
    refine ⟨fun p hp => ?_, fun s hs hkey hbase => ?_⟩
    · obtain ⟨p₀, hp₀, rfl⟩ := Option.map_eq_some_iff.1 hp
      obtain ⟨hn, hsub⟩ := h.named p₀ hp₀
      exact ⟨hn, List.Subset.trans hsub hleading.subset⟩
    · obtain ⟨before, u, after, hus, hrest⟩ := h.first s hs hkey hbase
      obtain ⟨more, hmore⟩ := hleading
      refine ⟨before, u, after ++ more, ?_, hrest⟩
      rw [← hmore, hus, List.append_assoc, List.cons_append]
  | start integrated terminal stops =>
    exact h.harvestOver (p := r.fresh w integrated terminal) (Named.fresh _ _ _) nofun stops
  | harvest integrated terminal stops =>
    unfold Recorder.step
    dsimp only
    split
    · next p hp =>
      obtain ⟨hn, hsub⟩ := h.named p hp
      exact h.harvestOver (p := Recorder.later p integrated terminal)
        ⟨hn.stages, hn.proposed, hn.taken⟩
        hsub stops
    · exact h

theorem walked_new (c : Planning) : Walked c World.new := ⟨nofun, nofun⟩

theorem walked_run (r : Recorder) (acts : List Act) : Walked r.planning
    (run r.step World.new acts) :=
  run_invariant (fun _ a h => h.step a) (walked_new _) acts

/-- A process that starts after a signal without a key was raised records it again. -/
theorem again_recorded (hcounted : Counted w) (hwalked : Walked r.planning w) {s : Signal}
    (hs : s ∈ w.raised) (hkey : key s = none)
    (hbase : r.planning.baseStages.contains (unitOf s) = false)
    (integrated terminal : Finset String) :
    2 ≤ (r.step w (.start integrated terminal none)).log.countP (records s) := by
  obtain ⟨before, u, after, hus, hid, hfirst, hrefusal⟩ := hwalked.first s hs hkey hbase
  rw [(refusal_spec hrefusal).2] at hbase
  have hagain :
      s ∈ signals (r.walkItems (proposals w.log) (r.fresh w integrated terminal).dag) := by
    refine signal_first (c := r.planning) (Named.fresh _ integrated terminal) hus hid hbase
      (fun v hv => hfirst v hv) ?_
    rw [← hrefusal]
    exact refusal_harvest _ _ _ _ _ _
  rw [(hcounted.step (.start integrated terminal none)).unkeyed s hkey]
  show 2 ≤ (r.harvestOver w (r.fresh w integrated terminal) none).raised.count s
  rw [raised_harvestOver, List.count_append]
  have hold := List.count_pos_iff.2 hs
  have hnew : 0 < (signals (r.made w (r.fresh w integrated terminal) none)).count s :=
    List.count_pos_iff.2 hagain
  omega

end

/-! ## Harvesting again -/

theorem resolve_harvest (c : Planning) (us us' : List UnitProposed) (d d' : Dag)
    (u : UnitProposed) :
    (c.harvest us d).resolve u = (c.harvest us' d').resolve u := by
  unfold Harvest.resolve
  rfl

section
variable {h : Harvest} {d : Dag} {u : UnitProposed} {order : List String} {served text : String}

theorem served_refinedText (htext : h.refinedText u = some (served, text)) :
    served = h.serves u := by
  unfold Harvest.refinedText at htext
  split at htext
  · cases htext
  · unfold Harvest.serves
    cases hres : h.resolve u with
    | none =>
      rw [hres] at htext
      cases htext
      rfl
    | some pair =>
      rw [hres] at htext
      cases htext
      rfl

theorem signal_of_retarget {st : Stage} (hid : u.id ≠ "") (hst : d.stages[u.id]? = some st)
    (hin : u.id ∈ d.proposed) (hopen : d.ended u.id = false)
    (htext : h.refinedText u = some (served, text)) (hne : served ≠ st.criterionId) :
    h.signal d u = some (.refineRetarget u.id u.position) := by
  unfold Harvest.signal
  rw [if_neg (by simpa using hid), hst]
  dsimp only
  rw [if_pos ⟨hin, hopen⟩, htext]
  exact if_neg hne

end

/-- Every refine among the proposals that names another criterion than its unit's has been refused,
or its unit has ended. -/
def Settled (h : Harvest) (c : Planning) (us : List UnitProposed) (d : Dag)
    (raised : List Signal) : Prop :=
  ∀ u ∈ us, u.id ≠ "" → c.baseStages.contains u.id = false → ∀ st served text,
    d.stages[u.id]? = some st →
    h.refinedText u = some (served, text) → served ≠ st.criterionId →
      d.ended u.id = true ∨ .refineRetarget u.id u.position ∈ raised

section
variable {c : Planning} {h : Harvest} {seen us us' : List UnitProposed} {d : Dag} {w : Walk}
  {raised : List Signal} {u : UnitProposed}

theorem Settled.take (hs : Settled h c us d raised) (hn : Named c seen d) (hsub : us ⊆ seen)
    (order : List String) :
    Settled h c (us ++ [u]) (h.take order d u) (raised ++ (h.signal d u).toList) := by
  intro v hv hid hbase st' served text hst' htext hne
  rcases stage_of_take hst' with ⟨st, hst, hcriterion⟩ | ⟨heq, hnew, -, hserves⟩
  · rw [← hcriterion] at hne
    rcases List.mem_append.1 hv with hv | hv
    · exact (hs v hv hid hbase st served text hst htext hne).imp ended_take (List.mem_append_left _)
    · cases List.mem_singleton.1 hv
      have hin : u.id ∈ d.proposed := by
        by_contra hout
        rw [hn.absent hbase hout] at hst
        cases hst
      cases hended : d.ended u.id with
      | true => exact .inl (ended_take hended)
      | false =>
        rw [signal_of_retarget hid hst hin hended htext hne]
        exact .inr List.mem_append_cons_self
  · rcases List.mem_append.1 hv with hv | hv
    · exact absurd (hn.taken v (hsub hv) hid hbase) (heq ▸ hnew.2.2)
    · cases List.mem_singleton.1 hv
      exact absurd ((served_refinedText htext).trans hserves.symm) hne

theorem Settled.walk (hs : Settled h c us w.dag raised) (hn : Named c seen w.dag)
    (hsub : us ⊆ seen) :
    Settled h c (us ++ us') (us'.foldl (Walk.step h) w).dag
    (raised ++ signals (items h w us')) := by
  induction us' generalizing us seen w raised with
  | nil =>
    rw [List.append_nil, items, signals, List.filterMap_nil, List.append_nil]
    exact hs
  | cons u us' ih =>
    have hrest := ih (hs.take hn hsub (meet w.order u.episode)) (w := w.step h u)
      (hn.take (u := u) h (meet w.order u.episode)) (List.append_subset.2
        ⟨List.Subset.trans hsub (List.subset_append_left _ _), List.subset_append_right _ _⟩)
    rwa [List.append_assoc, List.singleton_append, List.append_assoc, ← signals_cons] at hrest

end

/-- A graph with the stages, criteria and ids of another, its stages refined. -/
structure Refined (d d' : Dag) : Prop where
  proposed : d'.proposed = d.proposed
  ended : d'.ended = d.ended
  stages : ∀ name : String,
    (d'.stages[name]?).map Stage.criterionId = (d.stages[name]?).map Stage.criterionId

namespace Refined
variable {d d' : Dag} {u : UnitProposed}

theorem new_iff (hr : Refined d d') : New d' u ↔ New d u := by
  have hstages := hr.stages u.id
  unfold New
  rw [hr.proposed]
  cases hst : d.stages[u.id]? <;> cases hst' : d'.stages[u.id]? <;> simp_all

theorem take (hr : Refined d d') (hnew : ¬New d u) (h : Harvest) (order : List String) :
    Refined d (h.take order d' u) := by
  rcases take_cases h order d' u with ⟨-, heq⟩ | ⟨-, st, hst, heq⟩ | ⟨hnew', -⟩ | ⟨hnew', -⟩
  · rw [heq]
    exact hr
  · rw [heq]
    refine ⟨hr.proposed, hr.ended, fun name => ?_⟩
    rw [← hr.stages name]
    dsimp only
    rw [Std.ExtTreeMap.getElem?_insert]
    split
    · next hname =>
      rw [Std.LawfulEqCmp.compare_eq_iff_eq] at hname
      subst hname
      rw [hst]
      rfl
    · rfl
  · exact absurd (hr.new_iff.1 hnew') hnew
  · exact absurd (hr.new_iff.1 hnew') hnew

end Refined

section
variable {c : Planning} {h : Harvest} {us : List UnitProposed} {d : Dag} {w : Walk}
    {u : UnitProposed}

theorem adds_of_not_new (hnew : ¬New d u) : adds h d u = false := by
  rw [← Bool.not_eq_true]
  intro hadds
  unfold adds at hadds
  simp only [Bool.and_eq_true, Bool.not_eq_true', decide_eq_true_eq,
    Option.isNone_iff_eq_none] at hadds
  exact hnew ⟨by simpa using hadds.1.1.1, hadds.1.1.2, hadds.1.2⟩

/-- What is met again is not new: a walk of it refuses retargets, and nothing else. -/
theorem item_of_known (hr : Refined d w.dag) (hus : ∀ u ∈ us, ¬New d u) {item : Item}
    (hitem : item ∈ items h w us) : ∃ u ∈ us, ∃ st served text,
      item = .signal (.refineRetarget u.id u.position) ∧ u.id ∈ d.proposed ∧ d.ended u.id = false ∧
        d.stages[u.id]? = some st ∧ h.refinedText u = some (served, text) ∧
        served ≠ st.criterionId := by
  induction us generalizing w with
  | nil => cases hitem
  | cons u us ih =>
    have hnew : ¬New w.dag u := mt hr.new_iff.1 (hus u List.mem_cons_self)
    rw [items, List.mem_append] at hitem
    rcases hitem with hitem | hitem
    · rw [itemsOf, lands, adds_of_not_new hnew, Bool.false_and, Bool.false_and,
        if_neg Bool.false_ne_true,
        List.append_nil, List.mem_map] at hitem
      obtain ⟨s, hs, rfl⟩ := hitem
      rcases signal_cases (Option.mem_toList.1 hs) with
        ⟨hnew', -⟩ | ⟨rfl, hin, hended, st, served, text, hst, htext, hne⟩
      · exact absurd hnew' hnew
      · have hstages := hr.stages u.id
        rw [hst, Option.map_some] at hstages
        obtain ⟨st', hst', hcriterion⟩ := Option.map_eq_some_iff.1 hstages.symm
        refine ⟨u, List.mem_cons_self, st', served, text, rfl, hr.proposed ▸ hin,
          hr.ended ▸ hended, hst',
          htext, ?_⟩
        rw [hcriterion]
        exact hne
    · obtain ⟨v, hv, hrest⟩ := ih (hr.take (hus u List.mem_cons_self) h (meet w.order u.episode))
        (fun v hv => hus v (List.mem_cons_of_mem _ hv)) hitem
      exact ⟨v, List.mem_cons_of_mem _ hv, hrest⟩

end

/-- Whether a process that holds `keys` appends nothing for an item. -/
def Held (keys : List String) : Item → Prop
  | .signal s => ∃ k, key s = some k ∧ k ∈ keys
  | .landing st => st.name ++ "/started" ∈ keys ∧ st.name ++ "/landed" ∈ keys

theorem foldl_held {r : Recorder} {t : Trail} {made : List Item}
    (hmade : ∀ item ∈ made, Held t.keys item) :
    made.foldl r.record t = t := by
  induction made with
  | nil => rfl
  | cons item made ih =>
    have hsame : r.record t item = t := by
      have hitem := hmade item List.mem_cons_self
      cases item with
      | signal s =>
        obtain ⟨k, hkey, hheld⟩ := hitem
        rw [Recorder.record, hkey]
        exact if_pos (List.contains_iff_mem.2 hheld)
      | landing st =>
        have hstarted : r.emitKeyed t (st.name ++ "/started") Ledger.typeUnitStarted
            (r.started st) = t :=
          if_pos (List.contains_iff_mem.2 hitem.1)
        rw [Recorder.record, hstarted]
        exact if_pos (List.contains_iff_mem.2 hitem.2)
    rw [List.foldl_cons, hsame]
    exact ih fun item hitem => hmade item (List.mem_cons_of_mem _ hitem)

theorem log_of_held {r : Recorder} {w : World} {p : Process} {stops : Option Nat}
    (hitems : ∀ item ∈ r.walkItems (proposals w.log) p.dag, Held p.keys item) :
    (r.harvestOver w p stops).log = w.log := by
  rw [log_harvestOver, foldl_held]
  intro item hitem
  refine hitems item ?_
  cases stops with
  | none => exact hitem
  | some n => exact List.mem_of_mem_take hitem

/-! ### By the process itself -/

theorem refinedText_harvest (c : Planning) (us us' : List UnitProposed) (d d' : Dag)
    (u : UnitProposed) :
    (c.harvest us d).refinedText u = (c.harvest us' d').refinedText u := by
  unfold Harvest.refinedText
  rw [resolve_harvest c us us' d d' u]

/-- What the criteria make of a proposal's text. -/
def reading (c : Planning) : Harvest := c.harvest [] (c.fresh ∅ ∅)

/-- The running process has settled what it walked. -/
structure Settles (c : Planning) (w : World) : Prop where
  walked : Walked c w
  settled : ∀ p, w.process = some p → Settled (reading c) c p.walked p.dag w.raised

section
variable {r : Recorder} {w : World} {p : Process}

theorem settled_harvestOver (hn : Named r.planning p.walked p.dag) {stops : Option Nat}
    {p' : Process}
    (hp' : (r.harvestOver w p stops).process = some p') :
    Settled (reading r.planning) r.planning p'.walked p'.dag (r.harvestOver w p stops).raised := by
  obtain ⟨rfl, rfl⟩ := process_harvestOver hp'
  have hwalk : Settled (r.planning.harvest (proposals w.log) p.dag) r.planning
    ([] ++ proposals w.log)
      (r.planning.walk (proposals w.log) p.dag).dag
      (w.raised ++ signals (r.walkItems (proposals w.log) p.dag)) := Settled.walk nofun hn nofun
  rw [raised_harvestOver]
  intro u hu hid hbase st served text hst htext
  rw [reading, refinedText_harvest _ _ (proposals w.log) _ p.dag] at htext
  exact hwalk u hu hid hbase st served text hst htext

theorem Settles.step (h : Settles r.planning w) (a : Act) : Settles r.planning (r.step w a) := by
  refine ⟨h.walked.step a, ?_⟩
  cases a with
  | other e gap claimed hforeign =>
    intro p hp
    obtain ⟨p₀, hp₀, rfl⟩ := Option.map_eq_some_iff.1 hp
    exact h.settled p₀ hp₀
  | start integrated terminal stops =>
    exact fun p hp => settled_harvestOver (p := r.fresh w integrated terminal)
      (Named.fresh _ _ _) hp
  | harvest integrated terminal stops =>
    unfold Recorder.step
    dsimp only
    split
    · next p hp =>
      have hn := (h.walked.named p hp).1
      exact fun p' hp' => settled_harvestOver (p := Recorder.later p integrated terminal)
        ⟨hn.stages, hn.proposed, hn.taken⟩ hp'
    · exact h.settled

theorem settles_run (r : Recorder) (acts : List Act) : Settles r.planning
    (run r.step World.new acts) :=
  run_invariant (fun _ a h => h.step a) ⟨walked_new _, fun _ hp => by cases hp⟩ acts

end

/-- What a harvest meets that its process has harvested before: a stage of the run's start is still
there where a proposal has its name, and what had ended has ended. -/
structure Again (c : Planning) (p : Process) (integrated terminal : Finset String) : Prop where
  names : ∀ u ∈ p.walked, c.baseStages.contains u.id = true →
    u.id ∉ p.dag.proposed ∧ p.dag.stages.contains u.id = true
  ended : ∀ u ∈ p.walked, p.dag.ended u.id = true → u.id ∈ integrated ∨ u.id ∈ terminal

variable {integrated terminal : Finset String}

theorem log_harvest_again {r : Recorder} {acts : List Act} {p : Process}
    (hp : (run r.step World.new acts).process = some p)
    (hwalked : proposals (run r.step World.new acts).log = p.walked)
    (hagain : Again r.planning p integrated terminal) (stops : Option Nat) :
    (r.step (run r.step World.new acts) (.harvest integrated terminal stops)).log =
      (run r.step World.new acts).log := by
  have hcounted := counted_run r acts
  have hsettled := (settles_run r acts).settled p hp
  obtain ⟨hn, -⟩ := (walked_run r acts).named p hp
  generalize run r.step World.new acts = w at *
  have hstep : r.step w (.harvest integrated terminal stops) =
      r.harvestOver w (Recorder.later p integrated terminal) stops := by
    unfold Recorder.step
    dsimp only
    rw [hp]
  rw [hstep]
  refine log_of_held fun item hitem => ?_
  rw [hwalked] at hitem
  have hknown : ∀ u ∈ p.walked, ¬New (Recorder.later p integrated terminal).dag u := by
    rintro u hu ⟨hid, hnone, hout⟩
    cases hbase : r.planning.baseStages.contains u.id with
    | true =>
      have hstands := (hagain.names u hu hbase).2
      rw [Std.ExtTreeMap.contains_eq_isSome_getElem?,
        show p.dag.stages[u.id]? = none from hnone] at hstands
      cases hstands
    | false => exact hout (hn.taken u hu hid hbase)
  obtain ⟨u, hu, st, served, text, rfl, hin, hopen, hst, htext, hne⟩ :=
    item_of_known (w := Walk.start (Recorder.later p integrated terminal).dag)
      ⟨rfl, rfl, fun _ => rfl⟩
      hknown hitem
  have hid : u.id ≠ "" := (hn.proposed u.id hin).1
  have hbase : r.planning.baseStages.contains u.id = false := by
    rw [← Bool.not_eq_true]
    exact fun hbase => (hagain.names u hu hbase).1 hin
  rw [refinedText_harvest _ _ [] _ (r.planning.fresh ∅ ∅)] at htext
  refine ⟨_, rfl, (hcounted.held p hp _ _).2 (hcounted.keyed _ _ ?_)⟩
  refine (hsettled u hu hid hbase st served text hst htext hne).resolve_left fun hended => ?_
  unfold Dag.ended at hopen
  exact (of_decide_eq_false hopen) (hagain.ended u hu hended)

/-! ### By a process that starts -/

/-- A proposal that leaves nothing to record after those `before` it: it has no name of a stage of
the run's start; the first of its id is neither refused nor unmatched nor lands, and a later one
serves the criterion of the first, or its unit has ended, or its refusal is on record. -/
def QuietAt (h : Harvest) (c : Planning) (d : Dag) (keys : List String) (before : List UnitProposed)
    (u : UnitProposed) : Prop :=
  c.baseStages.contains u.id = false ∧
    match before.find? fun v => v.id == u.id with
    | none => refusal h u = none ∧
        (h.landed (h.stageOf u) = true → u.id ∈ d.terminal ∨ Held keys (.landing (h.stageOf u)))
    | some v => Harvest.blank u = true ∨ h.serves u = h.serves v ∨ d.ended u.id = true ∨
        retargetKey u.id u.position ∈ keys

def Quiet (h : Harvest) (c : Planning) (us : List UnitProposed) (d : Dag)
    (keys : List String) : Prop :=
  ∀ before u after, us = before ++ u :: after → u.id ≠ "" → QuietAt h c d keys before u

/-- A stage taken up from `seen` serves the criterion of the first proposal of its id. -/
def Served (h : Harvest) (c : Planning) (seen : List UnitProposed) (d : Dag) : Prop :=
  ∀ (name : String) (st : Stage), d.stages[name]? = some st → c.baseStages.contains name = false →
    ∃ v, (seen.find? fun v => v.id == name) = some v ∧ st.criterionId = h.serves v

section
variable {c : Planning} {h : Harvest} {seen us : List UnitProposed} {d : Dag} {w : Walk}
    {u : UnitProposed}
  {keys : List String}

theorem Served.take (hs : Served h c seen d) (hn : Named c seen d) (order : List String) :
    Served h c (seen ++ [u]) (h.take order d u) := by
  intro name st' hst' hbase
  rcases stage_of_take hst' with ⟨st, hst, hcriterion⟩ | ⟨rfl, hnew, -, hserves⟩
  · obtain ⟨v, hv, heq⟩ := hs name st hst hbase
    exact ⟨v, by rw [List.find?_append, hv, Option.some_or], hcriterion ▸ heq⟩
  · refine ⟨u, ?_, hserves⟩
    have hnone : (seen.find? fun v => v.id == u.id) = none := by
      rw [List.find?_eq_none]
      exact fun v hv heq => (hn.new_iff hnew.1 hbase).1 hnew v hv (beq_iff_eq.1 heq)
    rw [List.find?_append, hnone, Option.none_or]
    simp

theorem QuietAt.mono {d' : Dag} {before : List UnitProposed} (hquiet : QuietAt h c d keys before u)
    (hterminal : d.terminal ⊆ d'.terminal) (hended : ∀ id, d.ended id = true → d'.ended id = true) :
    QuietAt h c d' keys before u := by
  refine ⟨hquiet.1, ?_⟩
  have hrest := hquiet.2
  split
  · next hfirst =>
    rw [hfirst] at hrest
    exact hrest.imp_right fun hlands hlanded => (hlands hlanded).imp_left fun hin => hterminal hin
  · next v hfirst =>
    rw [hfirst] at hrest
    exact hrest.imp_right (Or.imp_right (Or.imp_left (hended _)))

theorem QuietAt.held (hquiet : QuietAt h c d keys seen u) (hn : Named c seen d)
    (hserved : Served h c seen d)
    (hid : u.id ≠ "") {item : Item} (hitem : item ∈ itemsOf h d u) : Held keys item := by
  obtain ⟨hbase, hquiet⟩ := hquiet
  rw [itemsOf, List.mem_append, List.mem_map] at hitem
  cases hfirst : seen.find? fun v => v.id == u.id with
  | none =>
    rw [hfirst] at hquiet
    have hnew : New d u := (hn.new_iff hid hbase).2 fun v hv heq =>
      List.find?_eq_none.1 hfirst v hv (beq_iff_eq.2 heq)
    rcases hitem with ⟨s, hs, rfl⟩ | hitem
    · rw [signal_of_new hnew, hquiet.1] at hs
      cases hs
    · rw [List.mem_ite_nil_right, List.mem_singleton] at hitem
      obtain ⟨hlands, rfl⟩ := hitem
      unfold lands at hlands
      simp only [Bool.and_eq_true, decide_eq_true_eq] at hlands
      exact (hquiet.2 hlands.2).resolve_left hlands.1.2
  | some v =>
    rw [hfirst] at hquiet
    have hnew : ¬New d u := by
      rw [hn.new_iff hid hbase]
      intro hall
      have hv := List.find?_some hfirst
      exact hall v (List.mem_of_find?_eq_some hfirst) (beq_iff_eq.1 hv)
    rcases hitem with ⟨s, hs, rfl⟩ | hitem
    · rcases signal_cases (Option.mem_toList.1 hs) with
        ⟨hnew', -⟩ | ⟨rfl, -, hopen, st, served, text, hst, htext, hne⟩
      · exact absurd hnew' hnew
      · obtain ⟨v', hv', hcriterion⟩ := hserved u.id st hst hbase
        rw [hfirst] at hv'
        cases hv'
        rcases hquiet with hblank | hserves | hended | hheld
        · rw [Harvest.refinedText, if_pos hblank] at htext
          cases htext
        · exact absurd ((served_refinedText htext).trans (hserves.trans hcriterion.symm)) hne
        · rw [hopen] at hended
          cases hended
        · exact ⟨_, rfl, hheld⟩
    · rw [lands, adds_of_not_new hnew] at hitem
      cases hitem

theorem itemsOf_empty (hid : u.id = "") : itemsOf h d u = [] := by
  have hnew : ¬New d u := fun hnew => hnew.1 hid
  have hsignal : h.signal d u = none := by
    unfold Harvest.signal
    rw [if_pos (by simp [hid])]
  rw [itemsOf, hsignal, lands, adds_of_not_new hnew]
  rfl

/-- A walk of what is quiet records nothing, its graph growing from `d`'s ended stages. -/
theorem held_walk {rest : List UnitProposed} (hquiet : Quiet h c (seen ++ rest) d keys)
    (hn : Named c seen w.dag) (hserved : Served h c seen w.dag)
    (hterminal : d.terminal ⊆ w.dag.terminal)
    (hended : ∀ id, d.ended id = true → w.dag.ended id = true) :
    ∀ item ∈ items h w rest, Held keys item := by
  induction rest generalizing seen w with
  | nil => nofun
  | cons u rest ih =>
    intro item hitem
    rw [items, List.mem_append] at hitem
    rcases hitem with hitem | hitem
    · by_cases hid : u.id = ""
      · rw [itemsOf_empty hid] at hitem
        cases hitem
      · exact ((hquiet seen u rest rfl hid).mono hterminal hended).held hn hserved hid hitem
    · have hrest : Quiet h c ((seen ++ [u]) ++ rest) d keys := by
        rw [List.append_assoc, List.singleton_append]
        exact hquiet
      exact ih hrest (w := w.step h u) (hn.take h _) (hserved.take hn _)
        (Finset.Subset.trans hterminal ended_mono.2)
        (fun id hin => ended_take (hended id hin)) item hitem

end

theorem log_start_quiet {r : Recorder} {w : World}
    (hquiet : Quiet
    (r.planning.harvest (proposals w.log) (r.planning.fresh integrated terminal)) r.planning
      (proposals w.log) (r.planning.fresh integrated terminal) (seededKeys w.log))
    (stops : Option Nat) : (r.step w (.start integrated terminal stops)).log = w.log := by
  have hserved :
      Served (r.planning.harvest (proposals w.log) (r.planning.fresh integrated terminal))
        r.planning [] (r.planning.fresh integrated terminal) := by
    intro name st hst hbase
    rw [Std.ExtTreeMap.contains_eq_isSome_getElem?,
      show r.planning.baseStages[name]? = some st from hst] at hbase
    cases hbase
  rw [← List.nil_append (proposals w.log)] at hquiet
  exact log_of_held (p := r.fresh w integrated terminal) (held_walk hquiet (w := Walk.start _)
    (Named.fresh _ _ _) hserved (fun _ hx => hx) fun _ hx => hx)

/-! ## Every run -/

/-- A refused retarget is on record once in every run.  So is every signal where no process starts
after a harvest raised one without a key; a process that starts then records it again.  A harvest
records nothing where its process has harvested all before, or where it starts over a quiet log. -/
theorem recorded_once (r : Recorder) (acts : List Act) :
    let w := run r.step World.new acts
    (∀ s ∈ w.raised, (key s).isSome = true → w.log.countP (records s) = 1) ∧
    (Along r.step Alone World.new acts → ∀ s ∈ w.raised, w.log.countP (records s) = 1) ∧
    (∀ s ∈ w.raised, key s = none → r.planning.baseStages.contains (unitOf s) = false →
      ∀ integrated terminal, 2 ≤ (r.step w (.start integrated terminal none)).log.countP
        (records s)) ∧
    (∀ p, w.process = some p → proposals w.log = p.walked → ∀ integrated terminal,
      Again r.planning p integrated terminal → ∀ stops,
        (r.step w (.harvest integrated terminal stops)).log = w.log) ∧
    ∀ integrated terminal,
      Quiet (r.planning.harvest (proposals w.log) (r.planning.fresh integrated terminal)) r.planning
        (proposals w.log) (r.planning.fresh integrated terminal) (seededKeys w.log) → ∀ stops,
          (r.step w (.start integrated terminal stops)).log = w.log := by
  intro w
  have hcounted : Counted w := counted_run r acts
  refine ⟨fun s hs hkey => hcounted.once_keyed hs hkey, fun halone s hs => ?_,
    fun s hs hkey hbase => ?_,
    fun p hp hwalked integrated terminal hagain => log_harvest_again hp hwalked hagain,
    fun integrated terminal hquiet => log_start_quiet hquiet⟩
  · cases hkey : key s with
    | none => rw [hcounted.unkeyed s hkey, (single_run halone).once s hs hkey]
    | some k => exact hcounted.once_keyed hs (by rw [hkey]; rfl)
  · exact again_recorded hcounted (walked_run r acts) hs hkey hbase

/-! ## Two processes -/

theorem foreign_of_type {e : Event} (htype : ∀ s, e.type_ ≠ (body s).1)
    (hkey : e.meta_[metaReplayKey]? = none) : Foreign e [] where
  records s := by
    rw [records, beq_eq_false_iff_ne.2 (htype s)]
    rfl
  key k hk := by
    rw [hkey] at hk
    cases hk
  claimed := nofun

theorem foreign_proposal (id spawn criterion : String) : Foreign
    (proposalEvent id spawn criterion) [] := by
  refine foreign_of_type (fun s => ?_) ?_
  · have hboth : ∀ type_ ∈ [typeScopeCreep, typeDecisionMade], typeUnitProposed ≠ type_ := by decide
    cases s
    · exact hboth _ (by simp [body])
    · exact hboth _ (by simp [body])
    · exact hboth _ (by simp [body])
  · have hne : ¬compare metaSpawn metaReplayKey = .eq := by decide
    show (Std.ExtTreeMap.insert _ _ _)[metaReplayKey]? = none
    rw [Std.ExtTreeMap.getElem?_insert, if_neg hne]
    exact Std.ExtTreeMap.getElem?_empty

def plainRecorder : Recorder :=
    ⟨oneCriterion, "run", fun _ => ("", 0), fun _ => .obj [], fun _ => .obj []⟩

/-- A process over a proposal without coverage and one that matches no criterion. -/
def oneProcess : List Act :=
  [.other (proposalEvent "u-bare" "plan/implementer#0" "") 0 [] (foreign_proposal _ _ _),
    .other (proposalEvent "u-extra" "plan/implementer#0" "the lexer is fast") 0 []
    (foreign_proposal _ _ _),
    .start ∅ ∅ none]

/-- The next process records both again. -/
theorem recorded_twice :
    (run plainRecorder.step World.new (oneProcess ++ [.start ∅ ∅ none])).log.countP
        (records (.noCriterion "u-bare")) = 2 ∧
      (run plainRecorder.step World.new (oneProcess ++ [.start ∅ ∅ none])).log.countP
        (records (.unmatched "u-extra")) = 2 := by
  constructor <;> decide +kernel

/-- One process records each once, and harvests again without a record. -/
theorem recorded_once_alone :
    (∀ s ∈ (run plainRecorder.step World.new oneProcess).raised,
      (run plainRecorder.step World.new oneProcess).log.countP (records s) = 1) ∧
    (plainRecorder.step (run plainRecorder.step World.new oneProcess) (.harvest ∅ ∅ none)).log =
      (run plainRecorder.step World.new oneProcess).log := by
  obtain ⟨-, honce, -, hagain, -⟩ := recorded_once plainRecorder oneProcess
  refine ⟨honce ⟨True.intro, True.intro, nofun, True.intro⟩, ?_⟩
  have hprocess : ((run plainRecorder.step World.new oneProcess).process.any fun p =>
      decide (proposals (run plainRecorder.step World.new oneProcess).log = p.walked) &&
        p.walked.all fun u => !plainRecorder.planning.baseStages.contains u.id &&
        !p.dag.ended u.id) = true := by
    decide +kernel
  rw [Option.any_eq_true] at hprocess
  obtain ⟨p, hp, hall⟩ := hprocess
  simp only [Bool.and_eq_true, decide_eq_true_eq, List.all_eq_true, Bool.not_eq_true'] at hall
  refine hagain p hp hall.1 ∅ ∅ ⟨fun u hu hbase => ?_, fun u hu hended => ?_⟩ none
  · rw [(hall.2 u hu).1] at hbase
    cases hbase
  · rw [(hall.2 u hu).2] at hended
    cases hended

end Rigger.Conductor.Recorded
