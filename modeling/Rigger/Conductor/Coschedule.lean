import Rigger.Conductor.RunWave

/-!
# What every run of waves keeps

No index of a wave misses, so no step panics.  Two units in flight together, of which the process
started one, were checked against each other as the later one took its slot, where that one asks for
the co-scheduling rule; the units in flight and the running stages are bounded; a wave offers a
stage once, and a stage joins a running wave only while no compensation is queued.  Every report
leaves less to come (`Wave.pending`), so a wave ends.
-/

namespace Rigger.Conductor

open Lib

variable {c : Scheduling} {seeds : Finset String}

/-! ## Admission -/

section
variable {name : String} {width : Nat} {running inFlight : Finset String} {radii : Option Radii}

/-- A stage is admitted into a free thread: one that holds its slot, or one that a slot is free for
and that conflicts with no unit in flight. -/
theorem admissible_eq_true (h : admissible name width running inFlight radii = some true) :
    running.card < maxConcurrency ∧ (name ∈ inFlight ∨
      (width = 0 ∨ inFlight.card < width) ∧ ∀ m, radii = some m → ∀ other ∈ inFlight,
        ∃ r ro, m name = some r ∧ m other = some ro ∧ radiiConflict r ro = false) := by
  unfold admissible at h
  split at h
  · cases h
  · next hroom =>
    refine ⟨Nat.lt_of_not_le hroom, ?_⟩
    split at h
    · next hheld => exact Or.inl hheld
    · split at h
      · cases h
      · next hwidth =>
        refine Or.inr ⟨by omega, fun m hm other hother => ?_⟩
        subst hm
        simp only [if_neg (Finset.ne_empty_of_mem hother)] at h
        obtain ⟨r, hr, hall⟩ := Option.map_eq_some_iff.1 h
        have hfree := of_decide_eq_true hall other hother
        obtain ⟨ro, hro, hconflict⟩ := (Option.any_eq_true _ _).1 hfree
        exact ⟨r, ro, hr, hro, by simpa using hconflict⟩

end

/-! ## Radii -/

section
variable {stages : Stages} {ready : List String} {inFlight : Finset String} {g : Ground}

theorem exists_mem_of_mapM {sts : List Stage}
    (h : ready.mapM (fun name => stages[name]?) = some sts)
    {n : String} (hn : n ∈ ready) {st : Stage} (hst : stages[n]? = some st) : st ∈ sts := by
  induction ready generalizing sts with
  | nil => cases hn
  | cons x ready ih =>
    rw [List.mapM_cons, Option.bind_eq_bind, Option.bind_eq_some_iff] at h
    obtain ⟨sx, hx, h⟩ := h
    rw [Option.bind_eq_bind, Option.bind_eq_some_iff] at h
    obtain ⟨rest, hrest, h⟩ := h
    cases h
    rcases List.mem_cons.1 hn with rfl | hn
    · rw [hst] at hx
      cases hx
      exact List.mem_cons_self
    · exact List.mem_cons_of_mem _ (ih hrest hn)

/-- The radii cover every ready stage, and are there where one of them asks. -/
theorem waveRadii_eq_ok {radii : Option Radii}
    (h : waveRadii c stages ready inFlight g = .ok radii) :
    (∀ m, radii = some m → ∀ n ∈ ready, (m n).isSome = true) ∧
      ∀ n ∈ ready, ∀ st, stages[n]? = some st → c.grounder = true → c.requests st = true →
        radii.isSome = true := by
  unfold waveRadii at h
  cases hgrounder : c.grounder with
  | false =>
    simp only [hgrounder, Bool.not_false, if_true] at h
    cases h
    exact ⟨nofun, fun _ _ _ _ hc => absurd hc (by simp)⟩
  | true =>
    simp only [hgrounder, Bool.not_true, Bool.false_eq_true, if_false] at h
    cases hasked : partitionRequested c stages ready with
    | none =>
      rw [hasked] at h
      cases h
    | some asked =>
      rw [hasked] at h
      cases asked with
      | false =>
        cases h
        refine ⟨nofun, fun n hn st hst _ hrequests => ?_⟩
        obtain ⟨sts, hsts, hany⟩ := Option.map_eq_some_iff.1 hasked
        have hmem := exists_mem_of_mapM hsts hn hst
        rw [List.any_eq_false] at hany
        exact absurd hrequests (hany st hmem)
      | true =>
        simp only at h
        split at h
        · cases h
          refine ⟨fun m hm n hn => ?_, fun _ _ _ _ _ _ => rfl⟩
          cases hm
          simp only [hn, true_or, if_true, Option.isSome_some]
        · cases h

end

/-! ## The invariant -/

/-- The radii in force at the admission keep its unit apart from another. -/
def Admission.Apart (a : Admission) (other : String) : Prop :=
  ∃ m r ro, a.radii = some m ∧ m a.unit = some r ∧ m other = some ro ∧ radiiConflict r ro = false

namespace Wave

/-- The stages `ws` that wait are ready, each once, none of them running, and the radii cover
them. -/
structure Waits (c : Scheduling) (w : Wave) (ws : List String) : Prop where
  ready : ∀ n ∈ ws, n ∈ w.frontier.ready w.stages w.integrated w.terminal
  nodup : ws.Nodup
  idle : ∀ n ∈ ws, n ∉ w.running
  offered : ∀ n ∈ ws, n ∈ w.offered
  started : w.running ⊆ w.offered
  radii : ∀ m, w.radii = some m → ∀ n ∈ ws, (m n).isSome = true
  asked : ∀ n ∈ ws, ∀ st, w.stages[n]? = some st → c.grounder = true → c.requests st = true →
    w.radii.isSome = true

/-- A unit takes its slot beside another in flight, kept apart from it where its stage asks. -/
def Checked (c : Scheduling) (a : Admission) (unit other : String) : Prop :=
  a.unit = unit ∧ unit ∉ a.inFlight ∧ other ∈ a.inFlight ∧
    (c.grounder = true → c.requests a.stage = true → a.Apart other)

/-- No admission gives one of the two units a slot that it does not already hold. -/
def Held (admissions : List Admission) (a b : String) : Prop :=
  ∀ x ∈ admissions, x.unit = a ∨ x.unit = b → x.unit ∈ x.inFlight

/-- The two units hold the slots the process started with, or the later one was checked as it took
the slot that it holds. -/
def Parted (c : Scheduling) (seeds : Finset String) (admissions : List Admission)
    (a b : String) : Prop :=
  (a ∈ seeds ∧ b ∈ seeds ∧ Held admissions a b) ∨
    ∃ before adm after, admissions = before ++ adm :: after ∧ Held after a b ∧
      (Checked c adm a b ∨ Checked c adm b a)

variable {admissions : List Admission} {adm : Admission}

theorem Held.append {a b : String} (h : Held admissions a b)
    (hadm : adm.unit = a ∨ adm.unit = b → adm.unit ∈ adm.inFlight) :
    Held (admissions ++ [adm]) a b := by
  intro x hx
  rcases List.mem_append.1 hx with hx | hx
  · exact h x hx
  · rw [List.mem_singleton.1 hx]
    exact hadm

theorem Parted.append {a b : String} (h : Parted c seeds admissions a b)
    (hadm : adm.unit = a ∨ adm.unit = b → adm.unit ∈ adm.inFlight) :
    Parted c seeds (admissions ++ [adm]) a b := by
  obtain ⟨ha, hb, hheld⟩ | ⟨before, took, after, rfl, hheld, hchecked⟩ := h
  · exact Or.inl ⟨ha, hb, hheld.append hadm⟩
  · refine Or.inr ⟨before, took, after ++ [adm], ?_, hheld.append hadm, hchecked⟩
    rw [List.append_assoc, List.cons_append]

/-- The units in flight, each two of them parted. -/
structure Flies (c : Scheduling) (seeds : Finset String) (w : Wave) : Prop where
  running : w.running ⊆ w.inFlight
  capped : w.running.card ≤ maxConcurrency
  width : c.maxParallelUnits ≠ 0 → (w.inFlight \ seeds).card ≤ c.maxParallelUnits
  pairs : ∀ a ∈ w.inFlight, ∀ b ∈ w.inFlight, a ≠ b → Parted c seeds w.admissions a b

/-- What the wave was offered: each stage once, and none joined while a compensation was queued. -/
structure Offers (w : Wave) : Prop where
  nodup : (w.offers.map Prod.fst).Nodup
  offered : w.offered = (w.offers.map Prod.fst).toFinset
  joined : ∀ o ∈ w.offers, o.2.1 = true → o.2.2 = []

/-- How much the wave has to come: stages not offered yet, waiting, or running. -/
def pending (w : Wave) : Nat :=
  (w.stages.keys.toFinset \ w.offered).card + w.waiting.length + w.running.card

structure Sound (c : Scheduling) (seeds : Finset String) (w : Wave) : Prop where
  waits : Waits c w w.waiting
  flies : Flies c seeds w
  offers : Offers w

/-! ## Admitting -/

theorem Flies.start {w : Wave} {name : String} {st : Stage} (h : Flies c seeds w)
    (hst : w.stages[name]? = some st) (hidle : name ∉ w.running)
    (hasked : ∀ st, w.stages[name]? = some st → c.grounder = true → c.requests st = true →
      w.radii.isSome = true)
    (hadmissible : admissible name c.maxParallelUnits w.running w.inFlight w.radii = some true) :
    Flies c seeds (w.start name st) := by
  obtain ⟨hroom, hheld⟩ := admissible_eq_true hadmissible
  refine ⟨Finset.insert_subset_insert _ h.running, ?_, fun hwidth => ?_, ?_⟩
  · show (insert name w.running).card ≤ _
    rw [Finset.card_insert_of_notMem hidle]
    exact hroom
  · show (insert name w.inFlight \ seeds).card ≤ _
    rcases hheld with hheld | ⟨hslot, -⟩
    · rw [Finset.insert_eq_of_mem hheld]
      exact h.width hwidth
    · have hslot := hslot.resolve_left hwidth
      calc (insert name w.inFlight \ seeds).card ≤ (insert name w.inFlight).card :=
            Finset.card_le_card Finset.sdiff_subset
        _ ≤ w.inFlight.card + 1 := Finset.card_insert_le _ _
        _ ≤ c.maxParallelUnits := hslot
  · intro a ha b hb hab
    show Parted c seeds (w.admissions ++ [_]) a b
    by_cases hboth : a ∈ w.inFlight ∧ b ∈ w.inFlight
    · refine (h.pairs a hboth.1 b hboth.2 hab).append ?_
      rintro (rfl | rfl)
      · exact hboth.1
      · exact hboth.2
    · -- one of the two is the stage just admitted, and new in flight
      have hchecked : ∀ other ∈ w.inFlight, name ∉ w.inFlight →
          Checked c ⟨name, st, w.radii, w.inFlight, w.queued⟩ name other := by
        intro other hother hfresh
        refine ⟨rfl, hfresh, hother, fun hgrounder hrequests => ?_⟩
        obtain ⟨m, hm⟩ := Option.isSome_iff_exists.1 (hasked st hst hgrounder hrequests)
        obtain ⟨r, ro, hr, hro, hfree⟩ := (hheld.resolve_left hfresh).2 m hm other hother
        exact ⟨m, r, ro, hm, hr, hro, hfree⟩
      refine Or.inr ⟨w.admissions, _, [], rfl, nofun, ?_⟩
      rcases Finset.mem_insert.1 ha with rfl | ha'
      · rcases Finset.mem_insert.1 hb with rfl | hb'
        · exact absurd rfl hab
        · exact Or.inl (hchecked b hb' fun hc => hboth ⟨hc, hb'⟩)
      · rcases Finset.mem_insert.1 hb with rfl | hb'
        · exact Or.inr (hchecked a ha' fun hc => hboth ⟨ha', hc⟩)
        · exact absurd ⟨ha', hb'⟩ hboth

section
variable {w : Wave} {r : Report}

theorem settle_inFlight_subset (hname : r.name ∈ w.inFlight) :
    (w.settle r).inFlight ⊆ w.inFlight := by
  show (if r.outcome = .parked then insert r.name w.inFlight else w.inFlight.erase r.name) ⊆ _
  split
  · rw [Finset.insert_eq_of_mem hname]
  · exact Finset.erase_subset _ _

/-- A stage that ends leaves the others ready, and its slot unless it parked. -/
theorem Sound.settle (h : Sound c seeds w) (hname : r.name ∈ w.running) :
    Sound c seeds (w.settle r) where
  waits :=
    { ready := fun n hn => by
        have hgrows : w.integrated ⊆ (w.settle r).integrated := by
          show w.integrated ⊆ if r.outcome = .landed then insert r.name
            w.integrated else w.integrated
          split
          · exact Finset.subset_insert _ _
          · exact fun _ hx => hx
        refine waveReady_mono hgrows (h.waits.ready n hn) ?_
        show n ∉ insert r.name w.terminal
        rw [Finset.mem_insert, not_or]
        refine ⟨?_, (mem_waveReady.1 (h.waits.ready n hn)).2.1⟩
        rintro rfl
        exact h.waits.idle _ hn hname
      nodup := h.waits.nodup
      idle := fun n hn hrunning => h.waits.idle n hn (Finset.mem_of_mem_erase hrunning)
      offered := h.waits.offered
      started := (Finset.erase_subset _ _).trans h.waits.started
      radii := h.waits.radii
      asked := h.waits.asked }
  flies :=
    { running := by
        intro n hn
        have hn' := Finset.mem_erase.1 hn
        show n ∈ if r.outcome = .parked then insert r.name w.inFlight else w.inFlight.erase r.name
        split
        · exact Finset.mem_insert_of_mem (h.flies.running hn'.2)
        · exact Finset.mem_erase.2 ⟨hn'.1, h.flies.running hn'.2⟩
      capped := (Finset.card_le_card (Finset.erase_subset _ _)).trans h.flies.capped
      width := fun hwidth => (Finset.card_le_card (Finset.sdiff_subset_sdiff
        (settle_inFlight_subset (h.flies.running hname)) fun _ hx =>
        hx)).trans (h.flies.width hwidth)
      pairs := fun a ha b hb => h.flies.pairs
        a (settle_inFlight_subset (h.flies.running hname) ha)
        b (settle_inFlight_subset (h.flies.running hname) hb) }
  offers := ⟨h.offers.nodup, h.offers.offered, h.offers.joined⟩

end

theorem Sound.fail {w : Wave} (h : Sound c seeds w) : Sound c seeds w.fail :=
  ⟨⟨h.waits.ready, h.waits.nodup, h.waits.idle, h.waits.offered, h.waits.started, h.waits.radii,
    h.waits.asked⟩, ⟨h.flies.running, h.flies.capped, h.flies.width, h.flies.pairs⟩,
    ⟨h.offers.nodup, h.offers.offered, h.offers.joined⟩⟩

theorem mem_newlyReady {w : Wave} {n : String} : n ∈ w.newlyReady ↔
    n ∈ w.frontier.ready w.stages w.integrated w.terminal ∧ n ∉ w.offered := by
  unfold newlyReady
  rw [List.mem_filter, decide_eq_true_eq]

theorem nodup_newlyReady (w : Wave) : w.newlyReady.Nodup := nodup_waveReady.filter _

/-- What joins is ready, was not offered before, and is covered by the new radii. -/
theorem Sound.extend {w : Wave} (h : Sound c seeds w) {radii : Option Radii} {g : Ground}
    (hradii : waveRadii c w.stages (w.frontier.ready w.stages w.integrated w.terminal)
      w.inFlight g = .ok radii) : Sound c seeds (w.extend radii []) := by
  obtain ⟨hcover, hasked⟩ := waveRadii_eq_ok hradii
  have hall : ∀ n ∈ w.waiting ++ w.newlyReady,
      n ∈ w.frontier.ready w.stages w.integrated w.terminal := by
    intro n hn
    rcases List.mem_append.1 hn with hn | hn
    · exact h.waits.ready n hn
    · exact (mem_newlyReady.1 hn).1
  exact
    { waits :=
        { ready := hall
          nodup := List.nodup_append'.2 ⟨h.waits.nodup, nodup_newlyReady w, fun n hn hn' =>
            (mem_newlyReady.1 hn').2 (h.waits.offered n hn)⟩
          idle := fun n hn => by
            rcases List.mem_append.1 hn with hn | hn
            · exact h.waits.idle n hn
            · exact fun hrunning => (mem_newlyReady.1 hn).2 (h.waits.started hrunning)
          offered := fun n hn => by
            show n ∈ w.offered ∪ w.newlyReady.toFinset
            rw [Finset.mem_union, List.mem_toFinset]
            exact (List.mem_append.1 hn).imp_left (h.waits.offered n)
          started := h.waits.started.trans Finset.subset_union_left
          radii := fun m hm n hn => hcover m hm n (hall n hn)
          asked := fun n hn => hasked n (hall n hn) }
      flies := ⟨h.flies.running, h.flies.capped, h.flies.width, h.flies.pairs⟩
      offers :=
        { nodup := by
            show ((w.offers ++ w.newlyReady.map fun name => (name, true, [])).map Prod.fst).Nodup
            rw [List.map_append, List.map_map]
            refine List.nodup_append'.2 ⟨h.offers.nodup, ?_, fun n hn hn' => ?_⟩
            · exact (List.map_id w.newlyReady).symm ▸ nodup_newlyReady w
            · obtain ⟨x, hx, rfl⟩ := List.mem_map.1 hn'
              refine (mem_newlyReady.1 hx).2 ?_
              rw [h.offers.offered, List.mem_toFinset]
              exact hn
          offered := by
            show w.offered ∪ _ = _
            rw [h.offers.offered, ← List.toFinset_append]
            congr 1
            show _ = (w.offers ++ w.newlyReady.map fun name => (name, true, [])).map Prod.fst
            rw [List.map_append, List.map_map]
            exact congrArg _ (List.map_id w.newlyReady).symm
          joined := fun o ho hjoined => by
            rcases List.mem_append.1 ho with ho | ho
            · exact h.offers.joined o ho hjoined
            · obtain ⟨x, -, rfl⟩ := List.mem_map.1 ho
              rfl } }

end Wave

/-- What a process keeps of the units in flight: of two of them the later one was checked against
the other, if it asks, by the radii in force as it took the slot that it holds, unless both hold a
slot from before the process; at most as many as the width are its own, and at most
`maxConcurrency` run; the wave offers a stage once, and one that joins the wave joins it while no
compensation is queued; and its reports come to an end. -/
structure Scheduled (c : Scheduling) (seeds : Finset String) (w : Wave) : Prop where
  apart : ∀ a ∈ w.inFlight, ∀ b ∈ w.inFlight, a ≠ b → Wave.Parted c seeds w.admissions a b
  width : c.maxParallelUnits ≠ 0 → (w.inFlight \ seeds).card ≤ c.maxParallelUnits
  running : w.running.card ≤ maxConcurrency
  offersOnce : (w.offers.map Prod.fst).Nodup
  joined : ∀ o ∈ w.offers, o.2.1 = true → o.2.2 = []
  ends : ∀ reports, AlongM (Wave.report c) (fun w r => r.name ∈ w.running) w reports →
    reports.length ≤ w.pending

end Rigger.Conductor
