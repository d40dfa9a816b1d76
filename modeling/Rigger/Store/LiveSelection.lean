import Rigger.Store.Runs

/-!
# Reading the live selection (`read_live_selection` and `read_live_positions`)

The live selection of a project's stream is what one plan over the project keeps of it, read in
position order.  The plan judges a row by its own stream alone (`mem_planLive`), so the selection is
the one a migration of the stream keeps: whatever is appended or migrated, a position that left the
selection never comes back to it, and one that comes new lies past every position issued
(`live_run`).
-/

namespace Rigger

open Lib

/-- The valid-time a plan carries onto the row of a position. -/
def DerivedPrunePlan.carried (plan : DerivedPrunePlan) (position : Nat) : Option Int :=
  (plan.carries.filter fun c => c.1 == position).getLast?.map Prod.snd

namespace Store

/-- The plan of the derived index over the streams of a prefix. -/
def planLive (s : Store) (pre : String) : DerivedPrunePlan :=
  s.planDerivedPrune pre derivedIndexIdentity reassertedDerivedTypes

/-- The one reader of a live selection: the stream's rows past `after` the plan keeps, each read
with what the plan carries onto it. -/
def readLive {α : Type} (s : Store) (pre stream : String) (after : Nat)
    (read : Row → Option Int → α) : List α :=
  let plan := s.planLive pre
  ((s.streamRows (pre ++ stream)).filter fun r =>
    decide (after < r.1) && !plan.deletes.contains r.1).map fun r => read r (plan.carried r.1)

/-- A row as the selection hands it on. -/
def liveEvent (r : Row) (carried : Option Int) : Event :=
  match carried with
  | some earliest => { rowToEvent r with validFrom := fromNanos earliest }
  | none => rowToEvent r

def readLiveSelection (s : Store) (pre stream : String) (after : Nat) : List Event :=
  s.readLive pre stream after liveEvent

def readLivePositions (s : Store) (pre stream : String) : List Nat :=
  s.readLive pre stream 0 fun r _ => r.1

/-- The store stamp of the row at a position. -/
def recordedAt (s : Store) (position : Nat) : Option SystemTime :=
  (s.rows.find? fun r => r.1 == position).map fun r => fromNanos r.2.recordedAt

section
variable {s : Store} {pre stream : String} {p : Nat}

theorem mem_readLivePositions : p ∈ s.readLivePositions pre stream ↔
    ∃ r ∈ s.streamRows (pre ++ stream), r.1 = p ∧ p ∉ (s.planLive pre).deletes := by
  unfold readLivePositions readLive
  rw [List.mem_map]
  constructor
  · rintro ⟨r, hr, rfl⟩
    obtain ⟨hrow, hkept⟩ := List.mem_filter.1 hr
    rw [Bool.and_eq_true, Bool.not_eq_true', ← Bool.not_eq_true, List.contains_iff_mem] at hkept
    exact ⟨r, hrow, rfl, hkept.2⟩
  · rintro ⟨r, hr, rfl, hkept⟩
    refine ⟨r, List.mem_filter.2 ⟨hr, ?_⟩, rfl⟩
    rw [Bool.and_eq_true, Bool.not_eq_true', ← Bool.not_eq_true, List.contains_iff_mem]
    exact ⟨decide_eq_true (s.issued r (mem_streamRows.1 hr).1).1, hkept⟩

@[simp] theorem liveEvent_position (r : Row) (carried : Option Int) :
    (liveEvent r carried).position = r.1 := by
  cases carried <;> rfl

theorem readLiveSelection_positions (s : Store) (pre stream : String) (after : Nat) :
    (s.readLiveSelection pre stream after).map Event.position =
      (s.readLivePositions pre stream).filter fun p => after < p := by
  unfold readLiveSelection readLivePositions readLive
  rw [List.map_map, List.filter_map, List.filter_filter]
  have hpos : ∀ r : Row, (Event.position ∘ fun r =>
      liveEvent r ((s.planLive pre).carried r.1)) r = r.1 := fun r => liveEvent_position r _
  rw [List.map_congr_left fun r _ => hpos r]
  refine congrArg (List.map Prod.fst) (List.filter_congr fun r hr => ?_)
  have hissued : decide (0 < r.1) = true :=
    decide_eq_true (s.issued r (mem_streamRows.1 hr).1).1
  simp [hissued]

theorem sorted_readLivePositions (s : Store) (pre stream : String) :
    (s.readLivePositions pre stream).Pairwise (· < ·) := by
  unfold readLivePositions readLive
  exact List.pairwise_map.2 ((sorted_streamRows s _).sublist List.filter_sublist)

theorem readLivePositions_pos (h : p ∈ s.readLivePositions pre stream) : 0 < p := by
  obtain ⟨r, hr, rfl, -⟩ := mem_readLivePositions.1 h
  exact (s.issued r (mem_streamRows.1 hr).1).1

theorem readLivePositions_le (h : p ∈ s.readLivePositions pre stream) : p ≤ s.seq := by
  obtain ⟨r, hr, rfl, -⟩ := mem_readLivePositions.1 h
  exact (s.issued r (mem_streamRows.1 hr).1).2

end

/-! ## A row's fate is its stream's -/

theorem latestOf_filter (identity : ContentIdentity) (rows : List (Row × String))
    (x : Row × String) : latestOf identity (rows.filter fun y => y.1.2.stream == x.1.2.stream) x =
      latestOf identity rows x := by
  unfold latestOf
  rw [latest_filter]
  apply latest_congr
  intro y _
  split
  · rfl
  · next hne =>
    rw [generationIn, if_neg]
    intro heq
    exact hne (beq_iff_eq.2 (congrArg Prod.fst heq))

/-- A plan's deletes in a stream are read off the covered rows of that stream. -/
theorem mem_deletes_iff_stream {s : Store} (pre : String) (reasserting : List String) (p : Nat) :
    p ∈ (s.planDerivedPrune pre derivedIndexIdentity reasserting).deletes ↔
      ∃ x ∈ s.coveredRows pre derivedIndexIdentity, x.1.1 = p ∧
        (latestOf derivedIndexIdentity ((s.coveredRows pre derivedIndexIdentity).filter fun y =>
            y.1.2.stream == x.1.2.stream) x ≠ some (derivedIndexIdentity.batchOf x.2).2 ∨
          ∃ y ∈ (s.coveredRows pre derivedIndexIdentity).filter fun y =>
            y.1.2.stream == x.1.2.stream, x.1.1 < y.1.1 ∧
              Walk.exactOf y.1 y.2 = Walk.exactOf x.1 x.2) := by
  unfold planDerivedPrune
  rw [mem_deletes_walkRows _ _ _ _ (sorted_coveredRows s pre _)]
  refine exists_congr fun x => and_congr_right fun _ => and_congr_right fun _ => ?_
  rw [latestOf_filter]
  refine or_congr_right (exists_congr fun y => ?_)
  constructor
  · rintro ⟨hy, hlt, hexact⟩
    exact ⟨List.mem_filter.2 ⟨hy, beq_iff_eq.2 (congrArg Prod.fst hexact)⟩, hlt, hexact⟩
  · rintro ⟨hy, hlt, hexact⟩
    exact ⟨(List.mem_filter.1 hy).1, hlt, hexact⟩

/-- The covered rows of one stream, whatever prefix of it they are read under. -/
theorem coveredRows_stream (s : Store) {pre stream : String} (hpre : hasPrefix pre stream = true) :
    (s.coveredRows pre derivedIndexIdentity).filter (fun y => y.1.2.stream == stream) =
      (s.coveredRows stream derivedIndexIdentity).filter fun y => y.1.2.stream == stream := by
  unfold coveredRows
  rw [List.filter_filterMap, List.filter_filterMap]
  apply List.filterMap_congr
  intro r _
  by_cases hr : r.2.stream = stream
  · rw [hr, hpre, hasPrefix_self]
  · have hnone : ∀ (c : Bool), ((if c then (r.2.meta_[derivedIndexIdentity.metaKey]?).map
        fun key => (r, key) else none).filter fun y : Row × String => y.1.2.stream == stream) =
          none := by
      intro c
      cases c with
      | false => rfl
      | true =>
        cases r.2.meta_[derivedIndexIdentity.metaKey]? with
        | none => rfl
        | some key => simp [hr]
    rw [hnone, hnone]

theorem hasPrefix_append (pre stream : String) : hasPrefix pre (pre ++ stream) = true := by
  rw [hasPrefix, List.isPrefixOf_iff_prefix, String.toList_append]
  exact List.prefix_append _ _

variable {r : Row}

/-- A row of the stream is set aside by the plan of the project as by the stream's own. -/
theorem mem_planLive {s : Store} {pre stream : String} (hr : r ∈ s.streamRows (pre ++ stream)) :
    r.1 ∈ (s.planLive pre).deletes ↔ r.1 ∈ s.shedByThePlan (pre ++ stream) := by
  obtain ⟨hrow, hstream⟩ := mem_streamRows.1 hr
  have hcovered : ∀ (q : String) (hq : hasPrefix q (pre ++ stream) = true) (x : Row × String),
      x ∈ s.coveredRows q derivedIndexIdentity ∧ x.1.1 = r.1 ↔
        x ∈ (s.coveredRows q derivedIndexIdentity).filter
          (fun y => y.1.2.stream == pre ++ stream) ∧ x.1.1 = r.1 := by
    intro q hq x
    refine and_congr_left fun hpos => ?_
    rw [List.mem_filter]
    constructor
    · intro hx
      obtain rfl : x.1 = r := Table.eq_of_position (mem_coveredRows.1 hx).1 hrow hpos
      exact ⟨hx, beq_iff_eq.2 hstream⟩
    · exact And.left
  unfold planLive shedByThePlan
  rw [mem_deletes_iff_stream, mem_deletes_iff_stream]
  refine exists_congr fun x => ?_
  rw [← and_assoc, ← and_assoc, hcovered pre (hasPrefix_append pre stream),
    hcovered (pre ++ stream) (hasPrefix_self _), coveredRows_stream s (hasPrefix_append pre stream)]
  refine and_congr_right fun hx => ?_
  have hown : x.1.2.stream = pre ++ stream := by
    have := (List.mem_filter.1 hx.1).2
    exact beq_iff_eq.1 this
  rw [hown, coveredRows_stream s (hasPrefix_append pre stream)]

theorem derived_of_mem_deletes {s : Store} {pre : String} {reasserting : List String}
    (hr : r ∈ s.rows)
    (h : r.1 ∈ (s.planDerivedPrune pre derivedIndexIdentity reasserting).deletes) :
    isDerivedIndexType r.2.type_ = true ∧ ∃ key, r.2.meta_[metaReplayKey]? = some key := by
  obtain ⟨⟨x, key⟩, hx, hpos, -⟩ := (mem_deletes_iff_stream _ _ _).1 h
  obtain ⟨hrow, hderived, -, hkey⟩ := mem_coveredRows.1 hx
  obtain rfl : x = r := Table.eq_of_position hrow hr hpos
  exact ⟨hderived, key, hkey⟩

theorem live_of_not_derived {s : Store} {pre stream : String}
    (hr : r ∈ s.streamRows (pre ++ stream)) (hd : isDerivedIndexType r.2.type_ = false) :
    r.1 ∈ s.readLivePositions pre stream := by
  refine mem_readLivePositions.2 ⟨r, hr, rfl, fun hdelete => ?_⟩
  have hderived := (derived_of_mem_deletes (mem_streamRows.1 hr).1 hdelete).1
  rw [hd] at hderived
  cases hderived

theorem shedByThePlan_congr {s t : Store} {stream : String}
    (hrows : s.streamRows stream = t.streamRows stream) (hr : r ∈ s.streamRows stream)
    (h : r.1 ∈ s.shedByThePlan stream) : r.1 ∈ t.shedByThePlan stream := by
  obtain ⟨hderived, key, hkey⟩ := derived_of_mem_deletes (mem_streamRows.1 hr).1 h
  rw [mem_shedByThePlan hr hderived hkey] at h
  rw [mem_shedByThePlan (hrows ▸ hr) hderived hkey]
  rwa [latestBatchGeneration, ← hrows]

/-! ## What is read of a row -/

theorem mem_survivors (identity : ContentIdentity) (aliases : Std.ExtTreeMap String AliasHistory)
    (reasserting : List String) {rows : List (Row × String)} {x : Nat × Int × Fact × ExactKey}
    (h : x ∈ (walkRows identity aliases reasserting rows).survivors) : ∃ y ∈ rows, y.1.1 = x.1 := by
  induction rows with
  | nil => cases h
  | cons y rows ih =>
    have hstep : x ∈ (walkRows identity aliases reasserting rows).survivors ∨ x.1 = y.1.1 := by
      have hmem : x ∈ (Walk.step identity y.1 y.2 aliases reasserting
          (walkRows identity aliases reasserting rows)).survivors := h
      unfold Walk.step at hmem
      split at hmem
      · exact Or.inl hmem
      · unfold Walk.carry at hmem
        dsimp only at hmem
        split at hmem
        · rcases List.mem_append.1 hmem with hmem | hmem
          · exact Or.inl hmem
          · rw [List.mem_singleton] at hmem
            exact Or.inr (by rw [hmem])
        · exact Or.inl hmem
    rcases hstep with hold | hnew
    · obtain ⟨z, hz, hpos⟩ := ih hold
      exact ⟨z, List.mem_cons_of_mem _ hz, hpos⟩
    · exact ⟨y, List.mem_cons_self, hnew.symm⟩

theorem liveEvent_of_not_derived {s : Store} (hr : r ∈ s.rows)
    (hd : isDerivedIndexType r.2.type_ = false) (pre : String) :
    liveEvent r ((s.planLive pre).carried r.1) = rowToEvent r := by
  have hnone : (s.planLive pre).carried r.1 = none := by
    unfold DerivedPrunePlan.carried
    rw [List.filter_eq_nil_iff.2]
    · rfl
    · intro c hc hpos
      obtain ⟨x, hx, hcarry⟩ := List.mem_filterMap.1 (List.mem_insertionSort _ |>.1 hc)
      obtain ⟨y, hy, hy1⟩ := mem_survivors _ _ _ hx
      have hx1 : c.1 = x.1 := by
        obtain ⟨position, own, fact, exact⟩ := x
        unfold Walk.carryOf at hcarry
        dsimp only at hcarry
        split at hcarry
        · split at hcarry
          · cases hcarry
            rfl
          · cases hcarry
        · cases hcarry
      obtain ⟨hrow, hderived, -⟩ := mem_coveredRows.1 hy
      obtain rfl : y.1 = r := Table.eq_of_position hrow hr
        (hy1.trans (hx1.symm.trans (beq_iff_eq.1 hpos)))
      rw [show isDerivedIndexType y.1.2.type_ = true from hderived] at hd
      cases hd
  rw [hnone]
  rfl

/-! ## The selection over calls -/

theorem coveredRows_append {s t : Store} {rows : List Row} (ht : t.rows = s.rows ++ rows)
    (hkept : ∀ r ∈ rows, isDerivedIndexType r.2.type_ = false) (pre : String) :
    t.coveredRows pre derivedIndexIdentity = s.coveredRows pre derivedIndexIdentity := by
  have hnone : ∀ r ∈ rows, (if derivedIndexIdentity.covers r.2.type_ && hasPrefix pre r.2.stream
      then r.2.meta_[derivedIndexIdentity.metaKey]?.map fun key => (r, key) else none) = none := by
    intro r hr
    have hnot : derivedIndexIdentity.covers r.2.type_ = false := hkept r hr
    rw [hnot]
    rfl
  unfold coveredRows
  rw [ht, List.filterMap_append, List.filterMap_eq_nil_iff.2 hnone, List.append_nil]

section
variable {s : Store} {pre stream : String} {p : Nat}

theorem live_shedDerived (entryOf : String → String × Bool) {r : Row}
    (hr : r ∈ s.streamRows (pre ++ stream))
    (hkept : isDerivedIndexType (s.migrated (pre ++ stream) entryOf r).type_ = false) :
    r.1 ∈ s.readLivePositions pre stream := by
  obtain ⟨hrow, -⟩ := mem_streamRows.1 hr
  cases hd : isDerivedIndexType r.2.type_ with
  | false => exact live_of_not_derived hr hd
  | true =>
    have hp : r ∈ s.perception (pre ++ stream) :=
      mem_perception.2 ⟨hr, mem_perceptionTypes.2 (Or.inl hd)⟩
    cases hn : named r.2.meta_ with
    | none =>
      rw [migrated_of_unnamed hrow fun _ => hn, hd] at hkept
      cases hkept
    | some n =>
      obtain ⟨identity, generation⟩ := n
      rcases migrated_derived entryOf hp (derivedBy_eq_some_iff.2 ⟨hd, hn⟩) with
        ⟨hconverted, -⟩ | ⟨-, t, ht⟩
      · -- what becomes an entry is the row the plan keeps
        obtain ⟨init, x, post, hsplit, -, hpos, hlives, -⟩ := converted_row hconverted
        refine mem_readLivePositions.2 ⟨r, hr, rfl, fun hdelete => hlives ?_⟩
        rw [hpos]
        exact (mem_planLive hr).1 hdelete
      · rw [ht] at hkept
        rw [show isDerivedIndexType r.2.type_ = false from hkept] at hd
        cases hd

variable (h : s.Ordered)
include h

/-- A position that is live after a call was live before it, or is one the call issued. -/
theorem live_exec (call : Call) (hp : p ∈ (s.exec call).readLivePositions pre stream) :
    p ∈ s.readLivePositions pre stream ∨ s.seq < p := by
  obtain ⟨x, hx, rfl, hkept⟩ := mem_readLivePositions.1 hp
  cases call with
  | append other expected events now =>
    cases hok : s.append other expected events now with
    | error e =>
      rw [(exec_error hok).1] at hp
      exact Or.inl hp
    | ok a =>
      obtain ⟨hrefused, -, -, hrows, -⟩ := h.append_ok hok
      rw [(exec_ok hok).1] at hx hkept
      obtain ⟨hxrow, hxstream⟩ := mem_streamRows.1 hx
      rw [hrows] at hxrow
      rcases List.mem_append.1 hxrow with hold | hnew
      · refine Or.inl (mem_readLivePositions.2 ⟨x, mem_streamRows.2 ⟨hold, hxstream⟩, rfl, ?_⟩)
        intro hdelete
        apply hkept
        have hcovered := coveredRows_append hrows
          (fun r hr => by
            obtain ⟨i, e, hi, rfl⟩ := mem_batch.1 hr
            exact hrefused e (List.mem_of_getElem? hi)) pre
        unfold planLive at hdelete ⊢
        rw [mem_deletes_iff_stream] at hdelete ⊢
        rwa [hcovered]
      · exact Or.inr (batch_above hnew).2.1
  | shedDerived other entryOf =>
    obtain ⟨hxrow, hxstream⟩ := mem_streamRows.1 hx
    by_cases hother : other = pre ++ stream
    · subst hother
      obtain ⟨r, hr, hnot, rfl⟩ := mem_rows_shedDerived.1 hxrow
      have hstream : r.2.stream = pre ++ stream := (migrated_frame r).1.symm.trans hxstream
      refine Or.inl (live_shedDerived (r := r) entryOf (mem_streamRows.2 ⟨hr, hstream⟩) ?_)
      exact Bool.eq_false_iff.2 fun hd => hnot ⟨hstream, hd⟩
    · have hrows : (s.shedDerived other entryOf).2.streamRows (pre ++ stream) =
          s.streamRows (pre ++ stream) := streamRows_shedDerived_of_ne s hother entryOf
      have hold : x ∈ s.streamRows (pre ++ stream) := hrows ▸ hx
      refine Or.inl (mem_readLivePositions.2 ⟨x, hold, rfl, fun hdelete => hkept ?_⟩)
      exact (mem_planLive hx).2
        (shedByThePlan_congr hrows.symm hold ((mem_planLive hold).1 hdelete))

end

/-- Whatever is appended or migrated, the selection is what a migration of the stream alone would
keep: what is outside the derived index stays in it, as it was recorded, and a position out of it
never comes back. -/
theorem live_run (s : Store) (h : s.Ordered) (calls : List Call) (pre stream : String) :
    let t := run exec s calls
    (t.readLivePositions pre stream).Pairwise (· < ·) ∧
      (∀ after, (t.readLiveSelection pre stream after).map Event.position =
        (t.readLivePositions pre stream).filter fun p => after < p) ∧
      (∀ r ∈ t.streamRows (pre ++ stream),
        (r.1 ∈ t.readLivePositions pre stream ↔ r.1 ∉ t.shedByThePlan (pre ++ stream)) ∧
          (isDerivedIndexType r.2.type_ = false → ∀ after < r.1,
            rowToEvent r ∈ t.readLiveSelection pre stream after)) ∧
      ∀ p ∈ t.readLivePositions pre stream, p ∈ s.readLivePositions pre stream ∨ s.seq < p := by
  refine ⟨sorted_readLivePositions _ _ _, readLiveSelection_positions _ _ _,
    fun r hr => ⟨?_, ?_⟩, ?_⟩
  · rw [mem_readLivePositions, ← mem_planLive hr]
    exact ⟨fun ⟨_, _, _, hkept⟩ => hkept, fun hkept => ⟨r, hr, rfl, hkept⟩⟩
  · intro hd after hlt
    obtain ⟨-, -, -, hkept⟩ := mem_readLivePositions.1 (live_of_not_derived hr hd)
    refine List.mem_map.2 ⟨r, List.mem_filter.2 ⟨hr, ?_⟩,
      liveEvent_of_not_derived (mem_streamRows.1 hr).1 hd pre⟩
    rw [Bool.and_eq_true, decide_eq_true_eq, Bool.not_eq_true', ← Bool.not_eq_true,
      List.contains_iff_mem]
    exact ⟨hlt, hkept⟩
  · induction calls generalizing s with
    | nil => exact fun p hp => Or.inl hp
    | cons call calls ih =>
      intro p hp
      rcases ih (s.exec call) (ordered_exec h call) p hp with hlive | hissued
      · exact live_exec h call hlive
      · rw [seq_exec h] at hissued
        exact Or.inr ((Nat.le_add_right _ _).trans_lt hissued)

/-- A file indexed twice, the second time under another generation. -/
def reindexedStore : Store where
  rows :=
    [(1, ⟨"p-run", typeCodeEntityExtracted, "e1", .json .null,
        (∅ : Meta).insert metaReplayKey "gc/a.rs@h1#0", 1, 1, 0⟩),
      (2, ⟨"p-run", typeCodeEntityExtracted, "e2", .json .null,
        (∅ : Meta).insert metaReplayKey "gc/a.rs@h2#0", 2, 2, 1⟩)]
  seq := 2
  sorted := by decide
  issued := by decide
  unique := by decide

def notedCalls : List Call :=
  [.append "p-run" .any [Event.new ("a", 0) "Noted" (.json .null)] 3,
    .shedDerived "p-run" fun _ => ("", false)]

/-- The selection after an append and the stream's migration. -/
theorem live_run_appended :
    let t := run exec reindexedStore notedCalls
    t.readLivePositions "p-" "run" = [2, 3] ∧
      (t.readLiveSelection "p-" "run" 2).map Event.position =
        (t.readLivePositions "p-" "run").filter (fun p => 2 < p) ∧
      ∀ p ∈ t.readLivePositions "p-" "run",
        p ∈ reindexedStore.readLivePositions "p-" "run" ∨ 2 < p := by
  obtain ⟨-, hselection, -, hnew⟩ :=
    live_run reindexedStore ⟨by decide, by decide⟩ notedCalls "p-" "run"
  exact ⟨by decide, hselection 2, hnew⟩

end Store

end Rigger
