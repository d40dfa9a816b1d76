import Rigger.Store.Runs

/-!
# The stream cursor across migrations

The cursor is the revision of a stream's last row.  Appends raise it and the migration keeps it
exactly when it keeps the stream's last row (`TailKept`, `lastRevision_shedDerived`); a migration
that trims the tail lowers it, and the revisions above it are issued again.

* `exact_append_iff`: an `Exact` append that succeeds at a revision read before saw no append in
  between exactly when every migration in between kept the tail.
-/

namespace Rigger

open Lib

namespace Store

/-! ## The tail -/

/-- The migration of `stream` keeps its last row: there is none, it is not derived, or it is keyed
and every derived row of its generation above the identity's last entry carries its very type and
key. -/
def TailKept (s : Store) (stream : String) : Prop :=
  ∀ x ∈ (s.streamRows stream).getLast?, isDerivedIndexType x.2.type_ = true →
    ∃ identity generation, derivedBy identity x = some generation ∧
      ∀ y ∈ sinceEntry identity (s.perception stream), derivedBy identity y = some generation →
        y.2.type_ = x.2.type_ ∧ y.2.meta_[metaReplayKey]? = x.2.meta_[metaReplayKey]?

section
variable {s : Store} {stream identity generation : String}

theorem lastRevision_of_getLast {x : Row} (h : (s.streamRows stream).getLast? = some x) :
    s.lastRevision stream = x.2.revision := by
  rw [lastRevision, h]
  rfl

section
variable {init : List Row} {x : Row} (h : s.streamRows stream = init ++ [x])
  (hx : derivedBy identity x = some generation)
include h hx

theorem perception_of_tail : s.perception stream =
    (init.filter fun r => perceptionTypes.contains r.2.type_) ++ [x] := by
  have hp : perceptionTypes.contains x.2.type_ = true :=
    mem_perceptionTypes.2 (Or.inl (derivedBy_eq_some_iff.1 hx).1)
  rw [perception, h, List.filter_append, List.filter_singleton, hp]
  rfl

theorem batch_of_tail : s.latestBatchGeneration stream identity = some generation := by
  obtain ⟨hd, hn⟩ := derivedBy_eq_some_iff.1 hx
  rw [latestBatchGeneration, h, latest_concat, batchGeneration_eq_some_iff.2 ⟨hd, Or.inl hn⟩,
    Option.some_or]

omit hx in
theorem lt_tail {y : Row} (hy : y ∈ init) : y.1 < x.1 := by
  have hsorted := sorted_streamRows s stream
  rw [h] at hsorted
  exact (List.pairwise_append.1 hsorted).2.2 y hy x (List.mem_singleton_self x)

theorem tail_not_shed : x.1 ∉ s.shedByThePlan stream := by
  refine (kept_iff (by rw [h]; simp) hx fun y hy hlt => ?_).2 (batch_of_tail h hx)
  rw [h] at hy
  rcases List.mem_append.1 hy with hy | hy
  · have := lt_tail h hy
    omega
  · rw [List.mem_singleton.1 hy] at hlt
    omega

variable {before : List Row}

/-- The identity's derived rows since its last entry, the tail among them, hold the converted
row. -/
theorem converted_of_tail (hsince : sinceEntry identity (s.perception stream) = before ++ [x]) :
    s.converted stream identity =
      (first (keptBy identity (s.shedByThePlan stream)) before).or (some (x.1, generation)) := by
  obtain ⟨d, hd⟩ := identities_isSome ⟨x, by rw [h]; simp, generation, hx⟩
  have hlatest : d.latestIsDerived = true := by
    have hkind := identities_latest identity (s.shedByThePlan stream) (s.perception stream)
      (by rw [← identities_migrationRead, hd])
    rw [perception_of_tail h hx, latest_concat,
      (kindBy_eq_true_iff identity).2 ⟨generation, hx⟩, Option.some_or, Option.some.injEq] at hkind
    exact hkind.symm
  have hkept := identities_kept identity (s.shedByThePlan stream) (s.perception stream)
  rw [← identities_migrationRead, hd, Option.bind_some] at hkept
  have htail : keptBy identity (s.shedByThePlan stream) x = some (x.1, generation) :=
    (keptBy_eq_some_iff _ _).2 ⟨tail_not_shed h hx, hx, rfl⟩
  rw [converted, hd, Option.bind_some, hlatest, if_pos rfl, hkept, hsince, first_concat, htail]

theorem sinceEntry_of_tail : ∃ pre before, s.perception stream = pre ++ (before ++ [x]) ∧
    sinceEntry identity (s.perception stream) = before ++ [x] ∧
    ∀ y ∈ before, y ∈ s.streamRows stream ∧ y.1 < x.1 := by
  obtain ⟨pre, hpre⟩ := List.rtakeWhile_suffix (fun r => (entryBy identity r).isNone)
    (s.perception stream)
  obtain ⟨before, hsince⟩ : ∃ before,
      sinceEntry identity (s.perception stream) = before ++ [x] := by
    rw [perception_of_tail h hx]
    exact ⟨_, by rw [sinceEntry_concat, entryBy_eq_none_of_derived hx]; rfl⟩
  have hsplit : s.perception stream = pre ++ (before ++ [x]) := by rw [← hsince]; exact hpre.symm
  have hsorted := sorted_perception s stream
  rw [hsplit] at hsorted
  refine ⟨pre, before, hsplit, hsince, fun y hy => ⟨?_, ?_⟩⟩
  · exact perception_subset (by rw [hsplit]; simp [hy])
  · exact (List.pairwise_append.1 (List.pairwise_append.1 hsorted).2.1).2.2 y hy x
      (List.mem_singleton_self x)

/-- Where every row of the tail's generation before it is shed, each is repeated later, and the last
of the repetitions is the tail. -/
theorem repeats_tail {pre : List Row} (hsplit : s.perception stream = pre ++ (before ++ [x]))
    (hshed : ∀ y ∈ before, derivedBy identity y = some generation →
      y.1 ∈ s.shedByThePlan stream) (n : Nat) :
    ∀ y ∈ before, x.1 - y.1 ≤ n → derivedBy identity y = some generation →
      y.2.type_ = x.2.type_ ∧ y.2.meta_[metaReplayKey]? = x.2.meta_[metaReplayKey]? := by
  have hsorted := sorted_perception s stream
  rw [hsplit] at hsorted
  obtain ⟨-, hsuffix, hcross⟩ := List.pairwise_append.1 hsorted
  have hlt : ∀ y ∈ before, y.1 < x.1 := fun y hy =>
    (List.pairwise_append.1 hsuffix).2.2 y hy x (List.mem_singleton_self x)
  induction n with
  | zero =>
    intro y hy hn
    have := hlt y hy
    omega
  | succ n ih =>
    intro y hy hn hdy
    have hstream : y ∈ s.streamRows stream := perception_subset (by rw [hsplit]; simp [hy])
    rcases (mem_shed_iff hstream hdy).1 (hshed y hy hdy) with hgen | ⟨z, hz, hyz, hdz, htype, hkey⟩
    · exact absurd (batch_of_tail h hx) hgen
    · have hzp : z ∈ s.perception stream := perception_of_derivedBy hz hdz
      rw [hsplit] at hzp
      rw [← htype, ← hkey]
      rcases List.mem_append.1 hzp with hzp | hzp
      · have := hcross z hzp y (List.mem_append_left _ hy)
        omega
      · rcases List.mem_append.1 hzp with hzp | hzp
        · have := hlt z hzp
          exact ih z hzp (by omega) hdz
        · rw [List.mem_singleton.1 hzp]
          exact ⟨rfl, rfl⟩

/-- The tail is the row converted for its identity exactly when every row of its generation since
the identity's last entry carries its exact key. -/
theorem converted_tail_iff : s.converted stream identity = some (x.1, generation) ↔
    ∀ y ∈ sinceEntry identity (s.perception stream), derivedBy identity y = some generation →
      y.2.type_ = x.2.type_ ∧ y.2.meta_[metaReplayKey]? = x.2.meta_[metaReplayKey]? := by
  obtain ⟨pre, before, hsplit, hsince, hbefore⟩ := sinceEntry_of_tail h hx
  have hnone : s.converted stream identity = some (x.1, generation) ↔
      ∀ y ∈ before, keptBy identity (s.shedByThePlan stream) y = none := by
    rw [converted_of_tail h hx hsince, ← first_eq_none_iff]
    cases hfirst : first (keptBy identity (s.shedByThePlan stream)) before with
    | none => simp
    | some c =>
      obtain ⟨position, g⟩ := c
      obtain ⟨init', y, post, rfl, hy, -⟩ := (first_eq_some_iff _ _ _).1 hfirst
      have hpos := ((keptBy_eq_some_iff _ _).1 hy).2.2
      have hlt := (hbefore y (by simp)).2
      rw [Option.some_or, Option.some.injEq, Prod.mk.injEq]
      refine iff_of_false (fun heq => ?_) (by simp)
      omega
  rw [hnone, hsince]
  constructor
  · intro hkept y hy hdy
    have hshed : ∀ y ∈ before, derivedBy identity y = some generation →
        y.1 ∈ s.shedByThePlan stream := by
      intro y hy hdy
      refine ((keptBy_eq_none_iff _ _).1 (hkept y hy)).resolve_right fun hd => ?_
      rw [hdy] at hd
      cases hd
    rcases List.mem_append.1 hy with hy | hy
    · exact repeats_tail h hx hsplit hshed _ y hy (Nat.le_refl _) hdy
    · rw [List.mem_singleton.1 hy]
      exact ⟨rfl, rfl⟩
  · intro hsame y hy
    apply (keptBy_eq_none_iff _ _).2
    cases hdy : derivedBy identity y with
    | none => exact Or.inr rfl
    | some g =>
      obtain ⟨hstream, hlt⟩ := hbefore y hy
      apply Or.inl
      rw [mem_shed_iff hstream hdy, batch_of_tail h hx]
      by_cases hg : g = generation
      · subst hg
        obtain ⟨htype, hkey⟩ := hsame y (List.mem_append_left _ hy) hdy
        exact Or.inr ⟨x, by rw [h]; simp, hlt, hx, htype.symm, hkey.symm⟩
      · exact Or.inl fun heq => hg (Option.some.inj heq).symm

end

end

/-! ## The cursor -/

section
variable {s : Store} {stream : String} {entryOf : String → String × Bool}

variable (entryOf) in
theorem tail_survives_iff {init : List Row} {x : Row} (h : s.streamRows stream = init ++ [x]) :
    isDerivedIndexType (s.migrated stream entryOf x).type_ = false ↔ s.TailKept stream := by
  have hx : x ∈ s.streamRows stream := by
    rw [h]
    simp
  have hlast : s.TailKept stream ↔ (isDerivedIndexType x.2.type_ = true →
      ∃ identity generation, derivedBy identity x = some generation ∧
        s.converted stream identity = some (x.1, generation)) := by
    unfold TailKept
    rw [h, List.getLast?_concat]
    constructor
    · intro hk hd
      obtain ⟨i, g, hg, hall⟩ := hk x rfl hd
      exact ⟨i, g, hg, (converted_tail_iff h hg).2 hall⟩
    · rintro hk y hy hd
      cases hy
      obtain ⟨i, g, hg, hc⟩ := hk hd
      exact ⟨i, g, hg, (converted_tail_iff h hg).1 hc⟩
  rw [hlast]
  by_cases hd : isDerivedIndexType x.2.type_ = true
  · cases hn : named x.2.meta_ with
    | none =>
      rw [migrated_of_unnamed (mem_streamRows.1 hx).1 fun _ => hn, hd]
      simp only [Bool.true_eq_false, false_iff]
      intro hk
      obtain ⟨i, g, hg, -⟩ := hk trivial
      rw [(derivedBy_eq_some_iff.1 hg).2] at hn
      cases hn
    | some n =>
      obtain ⟨i, g⟩ := n
      have hg : derivedBy i x = some g := derivedBy_eq_some_iff.2 ⟨hd, hn⟩
      rcases migrated_derived entryOf (perception_of_derivedBy hx hg) hg with
        ⟨hc, htype, -⟩ | ⟨hc, t, hm⟩
      · refine iff_of_true ?_ fun _ => ⟨i, g, hg, hc⟩
        rw [htype]
        decide
      · rw [hm, hd]
        apply iff_of_false Bool.true_eq_false.mp
        intro hk
        obtain ⟨j, g', hg', hc'⟩ := hk rfl
        have hj := (derivedBy_eq_some_iff.1 hg').2
        rw [hn, Option.some.injEq, Prod.mk.injEq] at hj
        rw [← hj.1] at hc'
        exact hc g' hc'
  · refine iff_of_true ?_ fun hd' => absurd hd' hd
    obtain ⟨t, hm⟩ := migrated_of_kept stream entryOf (mem_streamRows.1 hx).1
      (Bool.eq_false_iff.2 hd)
    rw [hm]
    exact Bool.eq_false_iff.2 hd

/-- A migration keeps the cursor where it keeps the tail, and lowers it elsewhere. -/
theorem Ordered.lastRevision_shedDerived (hs : s.Ordered) (stream : String)
    (entryOf : String → String × Bool) :
    (s.shedDerived stream entryOf).2.lastRevision stream ≤ s.lastRevision stream ∧
      ((s.shedDerived stream entryOf).2.lastRevision stream = s.lastRevision stream ↔
        s.TailKept stream) := by
  have hrows := streamRows_shedDerived s stream entryOf
  rcases List.eq_nil_or_concat (s.streamRows stream) with hnil | ⟨init, x, hconcat⟩
  · rw [hnil, List.filterMap_nil] at hrows
    have hboth : (s.shedDerived stream entryOf).2.lastRevision stream = s.lastRevision stream := by
      rw [lastRevision, lastRevision, hrows, hnil]
    refine ⟨Int.le_of_eq hboth, iff_of_true hboth ?_⟩
    rw [TailKept, hnil]
    intro y hy
    cases hy
  · rw [List.concat_eq_append] at hconcat
    have hx : s.lastRevision stream = x.2.revision :=
      lastRevision_of_getLast (by rw [hconcat, List.getLast?_concat])
    have hincreasing : (s.streamRows stream).Pairwise _ := hs.increasing_streamRows
    rw [hconcat] at hincreasing
    rw [hconcat, List.filterMap_append, List.filterMap_cons, List.filterMap_nil] at hrows
    rw [← tail_survives_iff entryOf hconcat]
    cases hd : isDerivedIndexType (s.migrated stream entryOf x).type_ with
    | false =>
      have hafter : (s.shedDerived stream entryOf).2.lastRevision stream = x.2.revision := by
        rw [hd] at hrows
        rw [lastRevision_of_getLast (x := (x.1, s.migrated stream entryOf x))
          (by rw [hrows]; simp)]
        exact (migrated_frame x).2.2.1
      rw [hafter, hx]
      exact ⟨Int.le_refl _, iff_of_true rfl rfl⟩
    | true =>
      -- every row left precedes the tail
      have hlt : (s.shedDerived stream entryOf).2.lastRevision stream < x.2.revision := by
        rw [hd] at hrows
        unfold lastRevision
        cases hlast : ((s.shedDerived stream entryOf).2.streamRows stream).getLast? with
        | none => exact hs.noStream_lt (mem_streamRows.1 (by rw [hconcat]; simp)).1
        | some z =>
          have hz := List.mem_of_getLast? hlast
          rw [hrows] at hz
          simp only [if_true, List.append_nil] at hz
          obtain ⟨y, hy, hyz⟩ := List.mem_filterMap.1 hz
          split at hyz
          · cases hyz
          · cases hyz
            have hrev : (s.migrated stream entryOf y).revision = y.2.revision :=
              (migrated_frame y).2.2.1
            show (s.migrated stream entryOf y).revision < x.2.revision
            rw [hrev]
            exact (List.pairwise_append.1 hincreasing).2.2 y hy x (List.mem_singleton_self x)
      rw [hx]
      refine ⟨Int.le_of_lt hlt, iff_of_false (Int.ne_of_lt hlt) Bool.true_eq_false.mp⟩

end

theorem lastRevision_congr {s s' : Store} {stream : String}
    (h : s'.streamRows stream = s.streamRows stream) :
    s'.lastRevision stream = s.lastRevision stream := by
  rw [lastRevision, lastRevision, h]

section
variable {s s' : Store} {stream : String} {events : List Event} {now : SystemTime}
  (hrows : s'.rows = s.rows ++ s.batch stream events now)
include hrows

theorem lastRevision_batch : s'.lastRevision stream = s.lastRevision stream + events.length := by
  rcases List.eq_nil_or_concat events with rfl | ⟨init, e, rfl⟩
  · have hsame : s'.streamRows stream = s.streamRows stream ++ [] := streamRows_batch hrows
    rw [lastRevision_congr (hsame.trans (List.append_nil _)), List.length_nil]
    exact (Int.add_zero _).symm
  · have hlast : (s.batch stream (init.concat e) now).getLast? = some (s.seq + 1 + init.length,
        columnsOf stream (toNanos now) (s.lastRevision stream + 1 + init.length) e) := by
      rw [List.getLast?_eq_getElem?, batch, length_batchRows, getElem?_batchRows]
      simp
    rw [lastRevision_of_getLast (by rw [streamRows_batch hrows, List.getLast?_append, hlast]; rfl),
      List.length_concat]
    show s.lastRevision stream + 1 + init.length = _
    omega

end

/-! ## Exact appends -/

/-- The last revision of a stream, as a client reads it. -/
def lastRead (s : Store) (stream : String) : Int :=
  ((s.readStream stream 0 .backward).head?.map Event.revision).getD noStream

/-- The call appends no event to `stream`. -/
def AppendsNothing (stream : String) (s : Store) (call : Call) : Prop :=
  ∀ r ∈ s.added call, r.2.stream ≠ stream

/-- The call, where it migrates `stream`, keeps its last row. -/
def KeepsTail (stream : String) (s : Store) : Call → Prop
  | .shedDerived other _ => other = stream → s.TailKept stream
  | .append .. => True

section
variable {s : Store} (h : s.Ordered) {stream : String}
include h

theorem Ordered.lastRead_eq : s.lastRead stream = s.lastRevision stream := by
  have hall : (s.streamRows stream).filter (fun r => decide (0 ≤ r.2.revision)) =
      s.streamRows stream :=
    List.filter_eq_self.2 fun r hr => decide_eq_true (h.nonneg r (mem_streamRows.1 hr).1)
  show (((s.readForward stream 0).reverse).head?.map _).getD _ = _
  rw [h.readForward_eq, hall, List.head?_reverse, List.getLast?_map, Option.map_map]
  rfl

variable (stream) in
/-- One call moves the cursor up exactly where it appends to the stream, and down exactly where it
trims its tail. -/
theorem lastRevision_exec (call : Call) :
    (AppendsNothing stream s call ∧ (s.exec call).lastRevision stream ≤ s.lastRevision stream ∧
      ((s.exec call).lastRevision stream = s.lastRevision stream ↔ KeepsTail stream s call)) ∨
    (KeepsTail stream s call ∧ ¬AppendsNothing stream s call ∧
      s.lastRevision stream < (s.exec call).lastRevision stream) := by
  cases call with
  | shedDerived other entryOf =>
    refine Or.inl ⟨by simp [AppendsNothing, added], ?_⟩
    by_cases heq : other = stream
    · subst heq
      obtain ⟨hle, hiff⟩ := h.lastRevision_shedDerived other entryOf
      exact ⟨hle, hiff.trans ⟨fun hk _ => hk, fun hk => hk rfl⟩⟩
    · have hsame := lastRevision_congr (streamRows_shedDerived_of_ne s heq entryOf)
      exact ⟨Int.le_of_eq hsame, iff_of_true hsame fun hs => absurd hs heq⟩
  | append other expected events now =>
    cases hok : s.append other expected events now with
    | error e =>
      rw [AppendsNothing, (exec_error hok).1, (exec_error hok).2.1]
      exact Or.inl ⟨by simp, Int.le_refl _, iff_of_true rfl True.intro⟩
    | ok p =>
      obtain ⟨a, s'⟩ := p
      have hrows := (h.append_ok hok).2.2.2.1
      rw [AppendsNothing, (exec_ok hok).1, (exec_ok hok).2.1]
      by_cases heq : other = stream
      · subst heq
        rcases events with - | ⟨e, events⟩
        · have hsame := lastRevision_batch hrows
          rw [List.length_nil] at hsame
          refine Or.inl ⟨by simp [batch, batchRows], by omega, iff_of_true (by omega) True.intro⟩
        · have hmoved := lastRevision_batch hrows
          rw [List.length_cons] at hmoved
          refine Or.inr ⟨True.intro, fun hnone => ?_, by omega⟩
          have hr : (s.seq + 1, columnsOf other (toNanos now) (s.lastRevision other + 1) e) ∈
              s.batch other (e :: events) now := List.mem_cons_self
          exact hnone _ hr (batch_above hr).1
      · have hsame := lastRevision_congr (streamRows_batch_of_ne hrows heq)
        refine Or.inl ⟨fun r hr => ?_, Int.le_of_eq hsame, iff_of_true hsame True.intro⟩
        rw [(batch_above hr).1]
        exact heq

end

/-- An `Exact` append that succeeds at a revision read before: nobody appended to the stream in
between exactly when every migration of it in between kept its last row. -/
theorem exact_append_iff {s : Store} (h : s.Ordered) {stream : String} {calls : List Call}
    {events : List Event} {now : SystemTime}
    (hok : ((run exec s calls).append stream (.exact (s.lastRead stream)) events now).isOk = true) :
    Along exec (AppendsNothing stream) s calls ↔ Along exec (KeepsTail stream) s calls := by
  have hend : (run exec s calls).lastRevision stream = s.lastRevision stream := by
    cases happend : (run exec s calls).append stream (.exact (s.lastRead stream)) events now with
    | error e =>
      rw [happend] at hok
      cases hok
    | ok p =>
      have hadmits := ((ordered_run h calls).append_ok happend).2.1
      rw [h.lastRead_eq] at hadmits
      exact beq_iff_eq.1 hadmits
  constructor
  · -- without an append the cursor only falls
    intro hquiet
    refine along_of_measure (I := Store.Ordered) (f := fun s => s.lastRevision stream)
      (fun _ call hs => ordered_exec hs call) (fun s call hs hq => ?_) (fun s call hs hq heq => ?_)
      h hquiet (Int.le_of_eq hend.symm)
    · rcases lastRevision_exec hs stream call with ⟨-, hle, -⟩ | ⟨-, hnot, -⟩
      · exact hle
      · exact absurd hq hnot
    · rcases lastRevision_exec hs stream call with ⟨-, -, hiff⟩ | ⟨hk, -⟩
      · exact hiff.1 heq
      · exact hk
  · -- without a trimmed tail it only rises
    intro hkept
    refine along_of_measure (I := Store.Ordered)
      (f := fun s => OrderDual.toDual (s.lastRevision stream))
      (fun _ call hs => ordered_exec hs call) (fun s call hs hk => ?_) (fun s call hs hk heq => ?_)
      h hkept (OrderDual.toDual_le_toDual.2 (Int.le_of_eq hend))
    · rw [OrderDual.toDual_le_toDual]
      rcases lastRevision_exec hs stream call with ⟨-, -, hiff⟩ | ⟨-, -, hlt⟩
      · exact Int.le_of_eq (hiff.2 hk).symm
      · exact Int.le_of_lt hlt
    · have heq' : (s.exec call).lastRevision stream = s.lastRevision stream :=
        OrderDual.toDual_inj.1 heq
      rcases lastRevision_exec hs stream call with ⟨hq, -⟩ | ⟨-, -, hlt⟩
      · exact hq
      · omega

/-- A client's event, then a derived event no key names. -/
def trimmableStore : Store where
  rows :=
    [(1, ⟨"s", typeDecisionMade, "e1", .json .null, ∅, 5, 5, 0⟩),
      (2, ⟨"s", typeCodeEntityExtracted, "e2", .json .null, ∅, 6, 6, 1⟩)]
  seq := 2
  sorted := by decide
  issued := by decide
  unique := by decide

/-- The migration trims the derived event, and another client's event takes its revision. -/
def reissuingCalls : List Call :=
  [.shedDerived "s" fun _ => ("", false),
    .append "s" .any [Event.new ("e3", 7) typeDecisionMade (.json .null)] 7]

theorem ordered_trimmableStore : trimmableStore.Ordered := ⟨by decide, by decide⟩

/-- The append at the revision read before succeeds, behind the other client's. -/
theorem exact_append_reissued : trimmableStore.Ordered ∧
    ((run exec trimmableStore reissuingCalls).append "s" (.exact (trimmableStore.lastRead "s"))
      [Event.new ("e4", 8) typeDecisionMade (.json .null)] 8).isOk = true ∧
    ¬Along exec (AppendsNothing "s") trimmableStore reissuingCalls := by
  refine ⟨ordered_trimmableStore, by decide, fun h => ?_⟩
  have hadded : (3, columnsOf "s" 7 1 (Event.new ("e3", 7) typeDecisionMade (.json .null))) ∈
      (trimmableStore.exec (.shedDerived "s" fun _ => ("", false))).added
        (.append "s" .any [Event.new ("e3", 7) typeDecisionMade (.json .null)] 7) := by decide
  exact h.2.1 _ hadded rfl

/-- The equivalence at that run. -/
theorem exact_append_iff_reissued :
    Along exec (AppendsNothing "s") trimmableStore reissuingCalls ↔
      Along exec (KeepsTail "s") trimmableStore reissuingCalls := by
  have hok : ((run exec trimmableStore reissuingCalls).append "s"
      (.exact (trimmableStore.lastRead "s"))
      [Event.new ("e4", 8) typeDecisionMade (.json .null)] 8).isOk = true := by decide
  exact exact_append_iff ordered_trimmableStore hok

end Store

end Rigger
