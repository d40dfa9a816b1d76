import Mathlib.Data.List.Nodup
import Rigger.Conductor.Compensate

/-!
# Condemned before it is reverted (`drain_compensations` over whole runs)

`Condemned log unit` says that no integration of the unit is later than the last mark naming it.
One lemma an event says what it changes of this, of the marks and drains of the log and of the
commits recorded as compensated; `step_sound` carries the invariant over one action and
`compensated_once` over a run.
-/

namespace Rigger.Conductor

open Lib Ledger

/-! ## What one event says -/

inductive Word where
  | condemned
  | integrated
deriving DecidableEq

/-- A mark condemns what its target integrated; an integration adds to it. -/
def word (unit : String) (e : Event) : Option Word :=
  if (markOf e).any (·.target == unit) then some .condemned
  else if e.type_ == typeUnitIntegrated && bodyId e == some unit then some .integrated
  else none

/-- No integration of the unit is later than the last mark naming it. -/
def Condemned (log : List Event) (unit : String) : Prop :=
  latest (word unit) log ≠ some .integrated

instance (log : List Event) (unit : String) : Decidable (Condemned log unit) :=
  inferInstanceAs (Decidable (_ ≠ _))

/-- An integration of the unit that landed the commit. -/
def Lands (unit commit : String) (e : Event) : Prop :=
  e.type_ = typeUnitIntegrated ∧ bodyId e = some unit ∧ commit ∈ commitsOf e

instance (unit commit : String) (e : Event) : Decidable (Lands unit commit e) :=
  inferInstanceAs (Decidable (_ ∧ _ ∧ _))

/-- A mark naming the unit. -/
def Names (unit : String) (e : Event) : Prop := (markOf e).map Compensation.target = some unit

variable {e : Event} {unit : String} {log : List Event}

theorem word_eq_condemned (h : Names unit e) : word unit e = some .condemned := by
  obtain ⟨comp, hcomp, rfl⟩ := Option.map_eq_some_iff.1 h
  simp [word, hcomp]

theorem names_of_word (h : word unit e = some .condemned) : Names unit e := by
  unfold word at h
  split at h
  next hmark =>
    obtain ⟨comp, hcomp, htarget⟩ := (Option.any_eq_true _ _).1 hmark
    rw [Names, hcomp, Option.map_some, beq_iff_eq.1 htarget]
  next => split at h <;> cases h

variable {commit text : String} {shas : List String}

theorem word_eq_integrated (hmark : markOf e = none) (h : Lands unit commit e) :
    word unit e = some .integrated := by
  simp [word, hmark, h.1, h.2.1]

theorem Condemned.marked (h : Condemned log unit) {before after : List Event}
    (hlog : log = before ++ e :: after) (hmark : markOf e = none) (he : Lands unit commit e) :
    ∃ m ∈ after, Names unit m := by
  have hword := word_eq_integrated hmark he
  subst hlog
  rw [Condemned, latest_append, latest_cons, hword] at h
  cases hafter : latest (word unit) after with
  | none => simp [hafter] at h
  | some w =>
    cases w with
    | integrated => simp [hafter] at h
    | condemned =>
      obtain ⟨init, m, post, rfl, hm, -⟩ := (latest_eq_some_iff _ _ _).1 hafter
      exact ⟨m, by simp, names_of_word hm⟩

theorem condemned_concat (log : List Event) (e : Event) (unit : String) :
    Condemned (log ++ [e]) unit ↔
      match word unit e with
      | some said => said = .condemned
      | none => Condemned log unit := by
  unfold Condemned
  rw [latest_concat]
  cases word unit e with
  | none => exact Iff.rfl
  | some said => cases said <;> simp

/-! ## What the events of the gear say -/

theorem integratedEvent_reads (mint : Mint) (unit : String) (landed : Landed) :
    markOf (eventWithMeta mint typeUnitIntegrated (landed.body unit) []) = none ∧
      bodyId (eventWithMeta mint typeUnitIntegrated (landed.body unit) []) = some unit := by
  have hmeta : (eventWithMeta mint typeUnitIntegrated (landed.body unit) []).meta_[
      metaCompensateTarget]? = none := by rw [eventWithMeta_meta, latest_nil]
  refine ⟨by rw [markOf, hmeta]; rfl, ?_⟩
  rw [bodyId, eventWithMeta_data]
  cases landed <;> rfl

theorem markEvent_names (mint : Mint) (key target reason : String) (body : Json)
    (htarget : target ≠ "") :
    Names target (eventWithMeta mint typeUnitStatus body
      ([(metaCompensateTarget, target), (metaContradiction, trim reason)] ++
        [(metaReplayKey, key)])) := by
  have hmeta : (eventWithMeta mint typeUnitStatus body
      ([(metaCompensateTarget, target), (metaContradiction, trim reason)] ++
        [(metaReplayKey, key)])).meta_[metaCompensateTarget]? = some target := by
    rw [eventWithMeta_meta]
    simp [latest_cons, htarget, metaCompensateTarget, metaContradiction, metaReplayKey]
  rw [Names, markOf, hmeta]
  rfl

theorem compensatedEvent_reads (mint : Mint) (comp : Compensation) (reverted : List String)
    (attempts : Nat) (hreverted : ",".intercalate reverted ≠ "") :
    markOf (World.compensatedEvent mint comp reverted attempts) = none ∧
      drainOf (World.compensatedEvent mint comp reverted attempts) = some comp.target ∧
      (World.compensatedEvent mint comp reverted attempts).meta_[metaCompensated]? =
        some (",".intercalate reverted) := by
  have hmark : (World.compensatedEvent mint comp reverted attempts).meta_[
      metaCompensateTarget]? = none := by
    rw [World.compensatedEvent, eventWithMeta_meta]
    simp [latest_cons, metaCompensateTarget, metaContradiction, metaCompensated]
  have hlist : (World.compensatedEvent mint comp reverted attempts).meta_[metaCompensated]? =
      some (",".intercalate reverted) := by
    rw [World.compensatedEvent, eventWithMeta_meta]
    simp [latest_cons, hreverted, metaContradiction, metaCompensated]
  have hmarkOf : markOf (World.compensatedEvent mint comp reverted attempts) = none := by
    rw [markOf, hmark]
    rfl
  have hid : bodyId (World.compensatedEvent mint comp reverted attempts) = some comp.target := by
    rw [bodyId, World.compensatedEvent, eventWithMeta_data]
    rfl
  refine ⟨hmarkOf, ?_, hlist⟩
  rw [drainOf, hmarkOf, hid, Std.ExtTreeMap.contains_eq_isSome_getElem?, hlist]
  simp [World.compensatedEvent]

/-! ## Reading the log with one event more -/

/-- More marks name the unit than drains answer. -/
def Owes (log : List Event) (unit : String) : Prop :=
  drained log unit < ((marks log).map Compensation.target).count unit

instance (log : List Event) (unit : String) : Decidable (Owes log unit) :=
  inferInstanceAs (Decidable (_ < _))

theorem pending_owes {comp : Compensation} (h : comp ∈ pendingCompensationsFromLog log) :
    Owes log comp.target :=
  (exists_owed_iff Compensation.target (drained log) (marks log) comp.target).1 ⟨comp, h, rfl⟩

theorem marked_of_owes (h : Owes log unit) : ∃ comp ∈ marks log, comp.target = unit :=
  List.mem_map.1 (List.count_pos_iff.1 (Nat.zero_lt_of_lt h))

theorem compensatedCommits_concat (log : List Event) (e : Event) :
    compensatedCommitsFromLog (log ++ [e]) =
      compensatedCommitsFromLog log ++ compensatedCommitsFromLog [e] := by
  unfold compensatedCommitsFromLog
  rw [List.filter_append, List.flatMap_append]

theorem compensatedCommits_of_type (h : e.type_ ≠ typeUnitFailed) :
    compensatedCommitsFromLog [e] = [] := by
  simp [compensatedCommitsFromLog, h]

theorem compensatedCommits_of_unrecorded (h : e.meta_[metaCompensated]? = none) :
    compensatedCommitsFromLog [e] = [] := by
  unfold compensatedCommitsFromLog
  by_cases ht : e.type_ = typeUnitFailed
  · simp [ht, h]
  · simp [ht]

theorem comma_not_mem_of_isSha (h : isSha text = true) : ',' ∉ text.toList := by
  intro hc
  unfold isSha at h
  rw [Bool.and_eq_true, List.all_eq_true] at h
  exact absurd (h.2 ',' hc) (by decide)

theorem ne_empty_of_isSha (h : isSha text = true) : text ≠ "" := by
  unfold isSha at h
  rw [Bool.and_eq_true, decide_eq_true_iff] at h
  exact h.1

theorem splitOn_join (hne : shas ≠ []) (h : ∀ c ∈ shas, isSha c = true) :
    ((((",".intercalate shas).toList.splitOn ',').filter fun s => s ≠ []).map String.ofList) =
      shas := by
  have hcomma : ∀ l ∈ shas.map String.toList, ',' ∉ l := by
    intro l hl
    obtain ⟨c, hc, rfl⟩ := List.mem_map.1 hl
    exact comma_not_mem_of_isSha (h c hc)
  have hfull : ∀ l ∈ shas.map String.toList, decide (l ≠ []) = true := by
    intro l hl
    obtain ⟨c, hc, rfl⟩ := List.mem_map.1 hl
    have hne := ne_empty_of_isSha (h c hc)
    simpa using hne
  have hsep : ",".toList = [','] := rfl
  rw [String.toList_intercalate, hsep, List.splitOn_intercalate _ hcomma (by simpa using hne),
    List.filter_eq_self.2 hfull, List.map_map]
  simp

theorem join_ne_empty (hne : shas ≠ []) (h : ∀ c ∈ shas, isSha c = true) :
    ",".intercalate shas ≠ "" := by
  intro hempty
  have hsplit := splitOn_join hne h
  rw [hempty] at hsplit
  exact hne (by rw [← hsplit]; rfl)

theorem compensatedCommits_compensatedEvent (mint : Mint) (comp : Compensation)
    {reverted : List String} (attempts : Nat) (hne : reverted ≠ [])
    (h : ∀ c ∈ reverted, isSha c = true) :
    compensatedCommitsFromLog [World.compensatedEvent mint comp reverted attempts] = reverted := by
  obtain ⟨-, -, hlist⟩ := compensatedEvent_reads mint comp reverted attempts (join_ne_empty hne h)
  have htype : (World.compensatedEvent mint comp reverted attempts).type_ = typeUnitFailed :=
    eventWithMeta_type _ _ _ _
  unfold compensatedCommitsFromLog
  rw [List.filter_cons_of_pos (by rw [htype]; rfl), List.filter_nil, List.flatMap_singleton, hlist]
  exact splitOn_join hne h

/-! ## The commits to revert -/

theorem commitsToCompensate_spec (events : List Event) (already : List String) (unit : String) :
    (commitsToCompensate events already unit).Nodup ∧
      ∀ c ∈ commitsToCompensate events already unit,
        c ≠ "" ∧ c ≠ reviewOnlyNoArtifact ∧ c ∉ already ∧ c ∈ integratedCommits events unit := by
  unfold commitsToCompensate
  rw [List.nodup_reverse]
  simp only [List.mem_reverse]
  induction integratedCommits events unit using List.reverseRecOn with
  | nil => exact ⟨List.nodup_nil, by simp⟩
  | append_singleton commits commit ih =>
    rw [List.foldl_concat]
    generalize List.foldl _ [] commits = kept at ih ⊢
    obtain ⟨hnodup, hkept⟩ := ih
    split
    next hskip => exact ⟨hnodup, fun c hc => by grind⟩
    next hkeep =>
      simp only [Bool.or_eq_true, not_or, Bool.not_eq_true] at hkeep
      obtain ⟨⟨⟨hempty, hmarker⟩, halready⟩, hnew⟩ := hkeep
      refine ⟨?_, fun c hc => ?_⟩
      · rw [List.nodup_append]
        refine ⟨hnodup, by simp, fun a ha b hb => ?_⟩
        rw [List.mem_singleton.1 hb]
        rintro rfl
        rw [List.contains_eq_mem, decide_eq_false_iff_not] at hnew
        exact hnew ha
      · rcases List.mem_append.1 hc with hc | hc
        · grind
        · rw [List.mem_singleton.1 hc]
          refine ⟨by simpa using hempty, by simpa using hmarker, by simpa using halready, by simp⟩

/-! ## The invariant -/

/-- What the log holds of an integration: no mark, and commits git names. -/
structure WellIntegrated (e : Event) : Prop where
  unmarked : markOf e = none
  commits : ∀ c ∈ commitsOf e, c ≠ "" → c ≠ reviewOnlyNoArtifact → isSha c = true

structure Rollback.Sound (log : List Event) (r : Rollback) : Prop where
  condemned : Condemned log r.comp.target
  some_ : r.done ++ r.todo ≠ []
  sha : ∀ c ∈ r.done ++ r.todo, isSha c = true
  nodup : (r.done ++ r.todo).Nodup
  fresh : ∀ c ∈ r.done ++ r.todo, c ∉ compensatedCommitsFromLog log

structure Process.Sound (log : List Event) (p : Process) : Prop where
  queue : ∀ comp ∈ p.compensations, Condemned log comp.target
  compensated : ∀ c ∈ compensatedCommitsFromLog log, c ∈ p.compensatedCommits
  taken : ∀ d, p.drain = some d → ∀ comp ∈ d.queued, Condemned log comp.target
  rollback : ∀ d, p.drain = some d → ∀ r, d.rollback = some r → r.Sound log

structure World.Sound (w : World) : Prop where
  integrated : ∀ e ∈ w.log, e.type_ = typeUnitIntegrated → WellIntegrated e
  reverts : w.branch.reverts.Nodup
  proc : ∀ p, w.proc = some p → p.Sound w.log

/-- An event that integrates nothing leaves what is condemned so, and condemns what it names. -/
theorem condemned_of_concat (he : word unit e ≠ some .integrated)
    (h : Condemned log unit ∨ Names unit e) : Condemned (log ++ [e]) unit := by
  rw [condemned_concat]
  rcases h with h | h
  · cases hw : word unit e with
    | none => exact h
    | some said => cases said with
      | condemned => rfl
      | integrated => exact absurd hw he
  · rw [word_eq_condemned h]

theorem word_of_type (h : e.type_ ≠ typeUnitIntegrated) (unit : String) :
    word unit e ≠ some .integrated := by
  unfold word
  split
  · simp
  · simp [h]

theorem Rollback.Sound.concat {r : Rollback} (h : r.Sound log)
    (he : word r.comp.target e ≠ some .integrated) (hcommits : compensatedCommitsFromLog [e] = []) :
    r.Sound (log ++ [e]) where
  condemned := condemned_of_concat he (Or.inl h.condemned)
  some_ := h.some_
  sha := h.sha
  nodup := h.nodup
  fresh := by
    rw [compensatedCommits_concat, hcommits, List.append_nil]
    exact h.fresh

/-- An event that neither integrates nor records a drain keeps a process sound. -/
theorem Process.Sound.concat {p : Process} (h : p.Sound log) (he : e.type_ ≠ typeUnitIntegrated)
    (hcommits : compensatedCommitsFromLog [e] = []) : p.Sound (log ++ [e]) where
  queue := fun comp hc => condemned_of_concat (word_of_type he _) (Or.inl (h.queue comp hc))
  compensated := by
    rw [compensatedCommits_concat, hcommits, List.append_nil]
    exact h.compensated
  taken := fun d hd comp hc =>
    condemned_of_concat (word_of_type he _) (Or.inl (h.taken d hd comp hc))
  rollback := fun d hd r hr => (h.rollback d hd r hr).concat (word_of_type he _) hcommits

theorem integrated_concat (h : ∀ e ∈ log, e.type_ = typeUnitIntegrated → WellIntegrated e)
    (he : e.type_ = typeUnitIntegrated → WellIntegrated e) :
    ∀ x ∈ log ++ [e], x.type_ = typeUnitIntegrated → WellIntegrated x := by
  intro x hx
  rcases List.mem_append.1 hx with hx | hx
  · exact h x hx
  · rw [List.mem_singleton.1 hx]
    exact he

theorem isSha_of_integratedCommits (h : ∀ e ∈ log, e.type_ = typeUnitIntegrated → WellIntegrated e)
    {c : String} (hc : c ∈ integratedCommits log unit) (hempty : c ≠ "")
    (hmarker : c ≠ reviewOnlyNoArtifact) : isSha c = true := by
  obtain ⟨e, he, hc⟩ := List.mem_flatMap.1 hc
  obtain ⟨he, htype⟩ := List.mem_filter.1 he
  rw [Bool.and_eq_true, beq_iff_eq] at htype
  exact (h e he htype.1).commits c hc hempty hmarker

/-! ## One action -/

namespace World

variable {w : World} {p : Process}

theorem sound_new : World.new.Sound where
  integrated := fun _ he => absurd he List.not_mem_nil
  reverts := List.nodup_nil
  proc := fun _ hp => nomatch hp

theorem sound_start (h : w.Sound) (howed : ∀ unit, Owes w.log unit → Condemned w.log unit) :
    ({ w with proc := Process.start w.log } : World).Sound where
  integrated := h.integrated
  reverts := h.reverts
  proc := by
    intro p hp
    obtain ⟨prior, -, rfl⟩ := Option.map_eq_some_iff.1 hp
    exact
      { queue := fun comp hc => howed _ (pending_owes hc)
        compensated := fun c hc => hc
        taken := by simp
        rollback := by simp }

theorem sound_other (h : w.Sound) {e : Event} (he : isOther e = true) :
    ({ w with log := w.log ++ [e] } : World).Sound := by
  unfold isOther at he
  rw [Bool.and_eq_true, Bool.and_eq_true, bne_iff_ne] at he
  obtain ⟨⟨-, hrecord⟩, htype⟩ := he
  have hcommits : compensatedCommitsFromLog [e] = [] :=
    compensatedCommits_of_unrecorded
      (Std.ExtTreeMap.getElem?_eq_none_of_contains_eq_false (by simpa using hrecord))
  exact
    { integrated := integrated_concat h.integrated fun ht => absurd ht htype
      reverts := h.reverts
      proc := fun p hp => (h.proc p hp).concat htype hcommits }

theorem sound_land (h : w.Sound) (commit : String) :
    ({ w with branch := w.branch.land commit } : World).Sound where
  integrated := h.integrated
  reverts := by
    show (w.branch.land commit).reverts.Nodup
    unfold Branch.land
    split
    · exact h.reverts
    · exact h.reverts
  proc := h.proc

theorem wellIntegrated (mint : Mint) (unit : String) (landed : Landed) :
    WellIntegrated (eventWithMeta mint typeUnitIntegrated (landed.body unit) []) where
  unmarked := (integratedEvent_reads mint unit landed).1
  commits := by
    intro c hc hempty hmarker
    unfold commitsOf at hc
    rw [eventWithMeta_data] at hc
    cases landed with
    | noArtifact =>
      have hc : c ∈ [reviewOnlyNoArtifact] := hc
      exact absurd (List.mem_singleton.1 hc) hmarker
    | nothing =>
      have hc : c ∈ [""] := hc
      exact absurd (List.mem_singleton.1 hc) hempty
    | commit sha =>
      have hc : c ∈ [sha.text] := hc
      rw [List.mem_singleton.1 hc]
      exact sha.isSha
    | plan shas =>
      have hc : c ∈ (shas.map fun sha => Json.str sha.text).filterMap Json.asStr := hc
      rw [List.filterMap_map] at hc
      obtain ⟨sha, -, hsha⟩ := List.mem_filterMap.1 hc
      cases hsha
      exact sha.isSha

theorem word_integrated (mint : Mint) (unit : String) (landed : Landed) {other : String}
    (hne : other ≠ unit) :
    word other (eventWithMeta mint typeUnitIntegrated (landed.body unit) []) = none := by
  obtain ⟨hmark, hid⟩ := integratedEvent_reads mint unit landed
  simp [word, hmark, hid, Ne.symm hne]

variable {mint : Mint}

theorem sound_integrate (h : w.Sound) (hp : w.proc = some p) (hdrain : p.drain = none)
    {unit : String} {landed : Landed} (hqueue : ∀ comp ∈ p.compensations, comp.target ≠ unit) :
    (w.integrate p mint unit landed).Sound := by
  have hother : ∀ other, other ≠ unit → Condemned w.log other → Condemned
      (w.log ++ [eventWithMeta mint typeUnitIntegrated (landed.body unit) []]) other := by
    intro other hne hcondemned
    refine condemned_of_concat ?_ (Or.inl hcondemned)
    rw [word_integrated mint unit landed hne]
    simp
  have hcommits : compensatedCommitsFromLog
      [eventWithMeta mint typeUnitIntegrated (landed.body unit) []] = [] :=
    compensatedCommits_of_type (by rw [eventWithMeta_type]; decide)
  have hsound := h.proc p hp
  refine
    { integrated := integrated_concat h.integrated fun _ => wellIntegrated mint unit landed
      reverts := h.reverts
      proc := fun q hq => ?_ }
  cases hq
  exact
    { queue := fun comp hc => hother _ (hqueue comp hc) (hsound.queue comp hc)
      compensated := by
        show ∀ c ∈ compensatedCommitsFromLog (w.log ++ [_]), c ∈ p.compensatedCommits
        rw [compensatedCommits_concat, hcommits, List.append_nil]
        exact hsound.compensated
      taken := fun d hd => by
        rw [hdrain] at hd
        cases hd
      rollback := fun d hd => by
        rw [hdrain] at hd
        cases hd }

theorem sound_review (h : w.Sound) (hp : w.proc = some p) {triggerer target reason : String}
    {attempt : Nat} (htarget : target ≠ "")
    (hheld : p.replayedKeys.contains (compensationQueuedKey triggerer target attempt) = true →
      Condemned w.log target) : (w.review p mint triggerer target reason attempt).Sound := by
  have hsound := h.proc p hp
  unfold review keyedEvent
  by_cases hkey : p.replayedKeys.contains (compensationQueuedKey triggerer target attempt) = true
  · -- a replay: the mark in the log stands
    simp only [hkey, if_true, Option.toList_none, List.append_nil]
    refine ⟨h.integrated, h.reverts, fun q hq => ?_⟩
    cases hq
    refine ⟨fun comp hc => ?_, hsound.compensated, hsound.taken, hsound.rollback⟩
    rcases List.mem_append.1 hc with hc | hc
    · exact hsound.queue comp hc
    · rw [List.mem_singleton.1 hc]
      exact hheld hkey
  · simp only [hkey, Bool.false_eq_true, if_false, Option.toList_some]
    have hnames := markEvent_names mint (compensationQueuedKey triggerer target attempt) target
      reason (queuedBody target reason) htarget
    generalize hmark : eventWithMeta mint typeUnitStatus (queuedBody target reason)
      ([(metaCompensateTarget, target), (metaContradiction, trim reason)] ++
        [(metaReplayKey, compensationQueuedKey triggerer target attempt)]) = mark at hnames ⊢
    have htype : mark.type_ = typeUnitStatus := by rw [← hmark, eventWithMeta_type]
    have hintegrated : mark.type_ ≠ typeUnitIntegrated := by rw [htype]; decide
    have hcommits : compensatedCommitsFromLog [mark] = [] :=
      compensatedCommits_of_type (by rw [htype]; decide)
    have hkept := hsound.concat hintegrated hcommits
    refine ⟨integrated_concat h.integrated fun ht => absurd ht hintegrated, h.reverts,
      fun q hq => ?_⟩
    cases hq
    refine ⟨fun comp hc => ?_, hkept.compensated, hkept.taken, hkept.rollback⟩
    rcases List.mem_append.1 hc with hc | hc
    · exact hkept.queue comp hc
    · rw [List.mem_singleton.1 hc]
      exact condemned_of_concat (word_of_type hintegrated target) (Or.inr hnames)

theorem sound_drain (h : w.Sound) (hp : w.proc = some p) : ({ w with proc := some { p with
    compensations := [], drain := some ⟨p.compensations, none⟩ } } : World).Sound where
  integrated := h.integrated
  reverts := h.reverts
  proc := by
    intro q hq
    cases hq
    have hsound := h.proc p hp
    exact
      { queue := by simp
        compensated := hsound.compensated
        taken := fun d hd => by
          cases hd
          exact hsound.queue
        rollback := fun d hd r hr => by
          cases hd
          cases hr }

theorem sound_drain_to (h : w.Sound) (hp : w.proc = some p) {d : Drain}
    (htaken : ∀ comp ∈ d.queued, Condemned w.log comp.target)
    (hrollback : ∀ r, d.rollback = some r → r.Sound w.log) :
    ({ w with proc := some { p with drain := some d } } : World).Sound where
  integrated := h.integrated
  reverts := h.reverts
  proc := by
    intro q hq
    cases hq
    have hsound := h.proc p hp
    exact
      { queue := hsound.queue
        compensated := hsound.compensated
        taken := fun d' hd => by
          cases hd
          exact htaken
        rollback := fun d' hd => by
          cases hd
          exact hrollback }

theorem nodup_revertOnBase {b : Branch} (h : b.reverts.Nodup) (commit : String) :
    (b.revertOnBase commit).reverts.Nodup := by
  unfold Branch.revertOnBase Branch.carries
  split
  next hcarries =>
    rw [Bool.and_eq_true, Bool.not_eq_true', List.contains_eq_mem, List.contains_eq_mem,
      decide_eq_false_iff_not] at hcarries
    rw [List.nodup_append]
    refine ⟨h, by simp, fun a ha c hc heq => ?_⟩
    rw [List.mem_singleton] at hc
    exact hcarries.2 (hc ▸ heq ▸ ha)
  next => exact h

theorem sound_recordRollback (h : w.Sound) (hp : w.proc = some p) {queued : List Compensation}
    {comp : Compensation} {reverted : List String}
    (hdrain : p.drain = some ⟨queued, some ⟨comp, [], reverted⟩⟩) :
    (w.recordRollback p mint queued comp reverted).Sound := by
  have hsound := h.proc p hp
  have hrollback := hsound.rollback _ hdrain _ rfl
  have hne : reverted ≠ [] := by simpa using hrollback.some_
  have hsha : ∀ c ∈ reverted, isSha c = true := by simpa using hrollback.sha
  have htype : (compensatedEvent mint comp reverted
      (p.effectiveAttempts w.log comp.target + 1)).type_ ≠ typeUnitIntegrated := by
    rw [compensatedEvent, eventWithMeta_type]
    decide
  have hcommits := compensatedCommits_compensatedEvent mint comp
    (p.effectiveAttempts w.log comp.target + 1) hne hsha
  refine ⟨integrated_concat h.integrated fun ht => absurd ht htype, h.reverts, fun q hq => ?_⟩
  cases hq
  exact
    { queue := fun c hc =>
        condemned_of_concat (word_of_type htype _) (Or.inl (hsound.queue c hc))
      compensated := by
        intro c hc
        have hc : c ∈ compensatedCommitsFromLog (w.log ++ [_]) := hc
        rw [compensatedCommits_concat, hcommits] at hc
        rcases List.mem_append.1 hc with hc | hc
        · exact List.mem_append_left _ (hsound.compensated c hc)
        · exact List.mem_append_right _ hc
      taken := fun d hd c hc => by
        cases hd
        exact condemned_of_concat (word_of_type htype _) (Or.inl (hsound.taken _ hdrain c hc))
      rollback := fun d hd r hr => by
        cases hd
        cases hr }

theorem sound_drainNext (h : w.Sound) (hp : w.proc = some p) {d : Drain}
    (hdrain : p.drain = some d) :
    (w.drainNext p mint d).Sound := by
  have hsound := h.proc p hp
  have htaken := hsound.taken d hdrain
  have hrollback := hsound.rollback d hdrain
  obtain ⟨queued, rollback⟩ := d
  cases rollback with
  | some r =>
    obtain ⟨comp, todo, done⟩ := r
    have hr := hrollback _ rfl
    cases todo with
    | nil => exact sound_recordRollback h hp hdrain
    | cons commit todo =>
      have hmoved : done ++ commit :: todo = (done ++ [commit]) ++ todo := by simp
      have hnext := sound_drain_to h hp (d := ⟨queued, some ⟨comp, todo, done ++ [commit]⟩⟩) htaken
        fun r hr' => by
          cases hr'
          exact ⟨hr.condemned, hmoved ▸ hr.some_, hmoved ▸ hr.sha, hmoved ▸ hr.nodup,
            hmoved ▸ hr.fresh⟩
      exact ⟨hnext.integrated, nodup_revertOnBase h.reverts commit, hnext.proc⟩
  | none =>
    cases queued with
    | nil =>
      refine ⟨h.integrated, h.reverts, fun q hq => ?_⟩
      cases hq
      exact ⟨hsound.queue, hsound.compensated, (fun _ hd => nomatch hd),
        fun _ hd => nomatch hd⟩
    | cons comp queued =>
      have hrest : ∀ c ∈ queued, Condemned w.log c.target := fun c hc =>
        htaken c (List.mem_cons_of_mem _ hc)
      have hskip := sound_drain_to h hp (d := ⟨queued, none⟩) hrest fun _ hr => nomatch hr
      unfold drainNext
      by_cases hin : p.integrated.contains comp.target = true
      · simp only [hin, if_true]
        split
        · exact hskip
        next hsome =>
          obtain ⟨hnodup, hcommits⟩ :=
            commitsToCompensate_spec w.log p.compensatedCommits comp.target
          refine sound_drain_to h hp (d := ⟨queued, some ⟨comp, _, []⟩⟩) hrest fun r hr => ?_
          cases hr
          exact
            { condemned := htaken comp List.mem_cons_self
              some_ := by simpa using hsome
              sha := fun c hc =>
                isSha_of_integratedCommits h.integrated (hcommits c hc).2.2.2 (hcommits c hc).1
                  (hcommits c hc).2.1
              nodup := hnodup
              fresh := fun c hc hold => (hcommits c hc).2.2.1 (hsound.compensated c hold) }
      · simp only [hin, Bool.false_eq_true, if_false, List.isEmpty_nil, if_true]
        exact hskip

/-- A process starts behind no surplus mark: a unit more marks name than drains answer integrated
nothing since the last of them.  A unit integrates while no mark of it is queued, and a round whose
mark the log holds names a unit condemned since it last integrated. -/
def Clear (w : World) : Action → Prop
  | .start => w.proc = none →
    ∀ comp ∈ marks w.log, Owes w.log comp.target → Condemned w.log comp.target
  | .integrate _ unit _ => ∀ p ∈ w.proc, ∀ comp ∈ p.compensations, comp.target ≠ unit
  | .review _ triggerer target _ attempt => ∀ p ∈ w.proc,
    p.replayedKeys.contains (compensationQueuedKey triggerer target attempt) = true →
      Condemned w.log target
  | _ => True

instance (w : World) : ∀ a, Decidable (w.Clear a)
  | .start => inferInstanceAs (Decidable (w.proc = none → _))
  | .integrate _ unit _ =>
    inferInstanceAs (Decidable (∀ p ∈ w.proc, ∀ comp ∈ p.compensations, comp.target ≠ unit))
  | .review .. => inferInstanceAs (Decidable (∀ p ∈ w.proc, _ → _))
  | .crash | .other _ | .land _ | .drain | .drainNext _ => inferInstanceAs (Decidable True)

theorem step_sound (a : Action) (hclear : w.Clear a) (h : w.Sound) : (w.step a).Sound := by
  unfold step
  split
  next hproc =>
    refine sound_start h fun unit howes => ?_
    obtain ⟨comp, hcomp, rfl⟩ := marked_of_owes howes
    exact hclear hproc comp hcomp howes
  next => exact ⟨h.integrated, h.reverts, fun _ hp => nomatch hp⟩
  next e =>
    split
    next he => exact sound_other h he
    next => exact h
  next sha => exact sound_land h sha.text
  next mint unit landed p hp =>
    split
    next hdrain =>
      exact sound_integrate h hp (Option.isNone_iff_eq_none.1 hdrain) (hclear p hp)
    next => exact h
  next mint triggerer target reason attempt p hp =>
    split
    next hguard =>
      rw [Bool.and_eq_true, Bool.and_eq_true, bne_iff_ne] at hguard
      exact sound_review h hp hguard.1.2 (hclear p hp)
    next => exact h
  next p hp =>
    split
    next => exact sound_drain h hp
    next => exact h
  next mint p hp =>
    split
    next d hdrain => exact sound_drainNext h hp hdrain
    next => exact h
  next => exact h

theorem run_sound {is : List Action} (h : Along step Clear World.new is) :
    (run step World.new is).Sound :=
  run_invariant_along (fun _ a hclear hs => step_sound a hclear hs) h sound_new

end World

/-! ## Compensation happens once -/

/-- The branch reverts no commit twice; and what a rollback under way reverts is no commit an
earlier drain recorded, no commit twice, and was condemned after it was integrated. -/
structure CompensatedOnce (w : World) : Prop where
  reverts : w.branch.reverts.Nodup
  commits : ∀ p, w.proc = some p → ∀ d, p.drain = some d → ∀ r, d.rollback = some r →
    (r.done ++ r.todo).Nodup ∧ ∀ c ∈ r.done ++ r.todo, c ∉ compensatedCommitsFromLog w.log
  condemned : ∀ p, w.proc = some p → ∀ d, p.drain = some d → ∀ r, d.rollback = some r →
    ∀ c ∈ r.done ++ r.todo, ∀ before e after, w.log = before ++ e :: after →
      Lands r.comp.target c e → ∃ m ∈ after, Names r.comp.target m

theorem compensated_once {is : List Action} (h : Along World.step World.Clear World.new is) :
    CompensatedOnce (run World.step World.new is) := by
  have hsound := World.run_sound h
  have hrollback := fun p hp d hd r hr => ((hsound.proc p hp).rollback d hd r hr)
  refine ⟨hsound.reverts, fun p hp d hd r hr => ?_, fun p hp d hd r hr c _ before e after => ?_⟩
  · exact ⟨(hrollback p hp d hd r hr).nodup, (hrollback p hp d hd r hr).fresh⟩
  · intro hlog he
    have hmem : e ∈ (run World.step World.new is).log := by
      rw [hlog]
      simp
    exact (hrollback p hp d hd r hr).condemned.marked hlog
      (hsound.integrated e hmem he.1).unmarked he

/-- Two rounds name `a`, the first met again after a crash; one drain reverts it, and what it then
integrates a third round names before the process ends. -/
def oneRound : List Action :=
  let mint : Mint := ("", 0)
  let first : Sha := ⟨"c1", by decide⟩
  let corrected : Sha := ⟨"c2", by decide⟩
  [.start, .land first, .integrate mint "a" (.commit first), .review mint "b" "a" "wrong" 0, .crash,
    .start, .review mint "b" "a" "wrong" 0, .review mint "c" "a" "wrong" 0,
    .drain, .drainNext mint, .drainNext mint, .drainNext mint, .drainNext mint, .drainNext mint,
    .land corrected, .integrate mint "a" (.commit corrected), .review mint "b" "a" "again" 1,
    .drain, .drainNext mint]

theorem oneRound_compensated : CompensatedOnce (run World.step World.new oneRound) :=
  compensated_once (by decide +kernel)

/-- Two rounds of a wave name `a`: one drain answers both marks, and the mark left over is replayed
against what `a` integrates next. -/
def surplusMark : List Action :=
  let mint : Mint := ("", 0)
  let first : Sha := ⟨"c1", by decide⟩
  let corrected : Sha := ⟨"c2", by decide⟩
  [.start, .land first, .integrate mint "a" (.commit first),
    .review mint "b" "a" "wrong" 0, .review mint "c" "a" "wrong" 0,
    .drain, .drainNext mint, .drainNext mint, .drainNext mint, .drainNext mint, .drainNext mint,
    .land corrected, .integrate mint "a" (.commit corrected),
    .crash, .start, .drain, .drainNext mint]

theorem compensated_not_once : ¬CompensatedOnce (run World.step World.new surplusMark) := by
  intro h
  have hrollback : (((run World.step World.new surplusMark).proc.bind Process.drain).bind
      Drain.rollback) = some ⟨⟨"a", "wrong"⟩, ["c2"], []⟩ := by decide +kernel
  have hlast : ((run World.step World.new surplusMark).log.getLast?).any
      (fun e => Lands "a" "c2" e) = true := by decide +kernel
  obtain ⟨d, hd, hr⟩ := Option.bind_eq_some_iff.1 hrollback
  obtain ⟨p, hp, hd⟩ := Option.bind_eq_some_iff.1 hd
  obtain ⟨e, he, hlands⟩ := (Option.any_eq_true _ _).1 hlast
  obtain ⟨before, hlog⟩ := List.getLast?_eq_some_iff.1 he
  obtain ⟨m, hm, -⟩ := h.condemned p hp d hd _ hr "c2" (by simp) before e [] hlog
    (of_decide_eq_true hlands)
  exact absurd hm List.not_mem_nil

end Rigger.Conductor
