import Rigger.Lib.Run
import Rigger.Store.Migration

/-!
# Runs of the store

A run is any sequence of appends and migrations, on any streams.  `Ordered` is kept by every call
(`ordered_exec`); a row outside the derived index stays for good and changes at most in its date
(`exec_keeps`).  `append_log_invariant` puts them together: over a whole run positions only grow,
an append is refused only by name, and what it placed is what every later read reports.
-/

namespace Rigger

open Lib

/-! ## Calls -/

inductive Call where
  | append (stream : String) (expected : ExpectedRevision) (events : List Event) (now : SystemTime)
  | shedDerived (stream : String) (entryOf : String → String × Bool)

def Call.isAppend : Call → Bool
  | .append .. => true
  | .shedDerived .. => false

namespace Store

/-- The store after a call: a refused append leaves it as it was. -/
def exec (s : Store) : Call → Store
  | .append stream expected events now =>
    match s.append stream expected events now with
    | .ok (_, s') => s'
    | .error _ => s
  | .shedDerived stream entryOf => (s.shedDerived stream entryOf).2

/-- The rows a call adds. -/
def added (s : Store) : Call → List Row
  | .append stream expected events now =>
    match s.append stream expected events now with
    | .ok _ => s.batch stream events now
    | .error _ => []
  | .shedDerived _ _ => []

/-- The positions a call issues, as its report gives them. -/
def issues (s : Store) : Call → List Nat
  | .append stream expected events now =>
    match s.append stream expected events now with
    | .ok (a, _) => a.placements.filterMap id
    | .error _ => []
  | .shedDerived _ _ => []

/-- The positions a run issues, in order. -/
def issuedBy (s : Store) : List Call → List Nat
  | [] => []
  | call :: calls => s.issues call ++ issuedBy (s.exec call) calls

section
variable {s s' : Store} {stream : String} {expected : ExpectedRevision} {events : List Event}
  {now : SystemTime} {a : Appended}

theorem exec_ok (hok : s.append stream expected events now = .ok (a, s')) :
    s.exec (.append stream expected events now) = s' ∧
      s.added (.append stream expected events now) = s.batch stream events now ∧
      s.issues (.append stream expected events now) = a.placements.filterMap id := by
  refine ⟨?_, ?_, ?_⟩
  · simp only [exec, hok]
  · simp only [added, hok]
  · simp only [issues, hok]

theorem exec_error {err : Error} (herr : s.append stream expected events now = .error err) :
    s.exec (.append stream expected events now) = s ∧
      s.added (.append stream expected events now) = [] ∧
      s.issues (.append stream expected events now) = [] := by
  refine ⟨?_, ?_, ?_⟩
  · simp only [exec, herr]
  · simp only [added, herr]
  · simp only [issues, herr]

end

section
variable {s : Store} (h : s.Ordered)
include h

theorem issues_eq (call : Call) : s.issues call = (s.added call).map Prod.fst := by
  cases call with
  | shedDerived stream entryOf => rfl
  | append stream expected events now =>
    cases hok : s.append stream expected events now with
    | error e => rw [(exec_error hok).2.1, (exec_error hok).2.2, List.map_nil]
    | ok p =>
      obtain ⟨a, s'⟩ := p
      obtain ⟨-, hadded, hissues⟩ := exec_ok hok
      obtain ⟨-, -, hplacements, -⟩ := h.append_ok hok
      rw [hadded, hissues, hplacements, List.filterMap_map, ← List.filterMap_eq_map]
      rfl

theorem ordered_shedDerived (stream : String) (entryOf : String → String × Bool) :
    (s.shedDerived stream entryOf).2.Ordered := by
  have hframe : ∀ r : Row, (s.migrated stream entryOf r).stream = r.2.stream ∧
      (s.migrated stream entryOf r).revision = r.2.revision := fun r =>
    ⟨(migrated_frame r).1, (migrated_frame r).2.2.1⟩
  refine ⟨?_, ?_⟩
  · rw [rows_shedDerived]
    refine List.Pairwise.sublist List.filter_sublist (List.pairwise_map.2 ?_)
    refine h.increasing.imp fun {a b} hab heq => ?_
    rw [(hframe a).1, (hframe b).1] at heq
    rw [(hframe a).2, (hframe b).2]
    exact hab heq
  · intro x hx
    obtain ⟨r, hr, -, rfl⟩ := mem_rows_shedDerived.1 hx
    rw [(hframe r).2]
    exact h.nonneg r hr

theorem ordered_exec (call : Call) : (s.exec call).Ordered := by
  cases call with
  | shedDerived stream entryOf => exact ordered_shedDerived h stream entryOf
  | append stream expected events now =>
    cases hok : s.append stream expected events now with
    | error e =>
      rw [(exec_error hok).1]
      exact h
    | ok p =>
      obtain ⟨a, s'⟩ := p
      rw [(exec_ok hok).1]
      exact h.append (h.append_ok hok).2.2.2.1

/-- Past the migration's deletes and dates, a call only adds its rows at the end. -/
theorem seq_exec (call : Call) : (s.exec call).seq = s.seq + (s.added call).length := by
  cases call with
  | shedDerived stream entryOf => exact seq_shedDerived s stream entryOf
  | append stream expected events now =>
    cases hok : s.append stream expected events now with
    | error e => rw [(exec_error hok).1, (exec_error hok).2.1, List.length_nil, Nat.add_zero]
    | ok p =>
      obtain ⟨a, s'⟩ := p
      rw [(exec_ok hok).1, (exec_ok hok).2.1, (h.append_ok hok).2.2.2.2, batch, length_batchRows]

/-- The rows a call adds lie past every position issued, in order. -/
theorem added_above (call : Call) :
    (s.added call).Pairwise (fun a b => a.1 < b.1) ∧
      ∀ r ∈ s.added call, s.seq < r.1 ∧ r.1 ≤ (s.exec call).seq := by
  rw [seq_exec h]
  cases call with
  | shedDerived stream entryOf => exact ⟨List.Pairwise.nil, by simp [added]⟩
  | append stream expected events now =>
    cases hok : s.append stream expected events now with
    | error e =>
      rw [(exec_error hok).2.1]
      exact ⟨List.Pairwise.nil, by simp⟩
    | ok p =>
      rw [(exec_ok hok).2.1]
      refine ⟨(increasing_batchRows _ _ _).imp fun hlt => hlt.1, fun r hr => ?_⟩
      obtain ⟨i, e, hi, rfl⟩ := mem_batch.1 hr
      have hlen : i < events.length := (List.getElem?_eq_some_iff.1 hi).1
      rw [batch, length_batchRows]
      constructor
      · show s.seq < s.seq + 1 + i
        omega
      · show s.seq + 1 + i ≤ s.seq + events.length
        omega

variable {r : Row}

/-- A row outside the derived index stays, and changes at most in its date. -/
theorem exec_keeps (call : Call) (hr : r ∈ s.rows) (hkept : isDerivedIndexType r.2.type_ = false) :
    ∃ t, (r.1, { r.2 with validFrom := t }) ∈ (s.exec call).rows := by
  cases call with
  | append stream expected events now =>
    refine ⟨r.2.validFrom, ?_⟩
    cases hok : s.append stream expected events now with
    | error e =>
      rw [(exec_error hok).1]
      exact hr
    | ok p =>
      obtain ⟨a, s'⟩ := p
      rw [(exec_ok hok).1, (h.append_ok hok).2.2.2.1]
      exact List.mem_append_left _ hr
  | shedDerived stream entryOf =>
    have hnot : ¬(r.2.stream = stream ∧ isDerivedIndexType r.2.type_ = true) := by
      rintro ⟨-, hd⟩
      rw [hkept] at hd
      cases hd
    rcases unchanged_shedDerived hr hnot with hsame | ⟨_, -, t, hentry⟩
    · exact ⟨r.2.validFrom, hsame⟩
    · exact ⟨t, (mem_streamRows.1 hentry.1).1⟩

/-- A row after a call is one the call adds, or a row before it in an unchanged frame. -/
theorem rows_exec (call : Call) {x : Row} (hx : x ∈ (s.exec call).rows) :
    x ∈ s.added call ∨ ∃ c, (x.1, c) ∈ s.rows ∧ SameFrame c x.2 := by
  cases call with
  | shedDerived stream entryOf =>
    obtain ⟨r, hr, -, rfl⟩ := mem_rows_shedDerived.1 hx
    exact Or.inr ⟨r.2, hr, migrated_frame r⟩
  | append stream expected events now =>
    cases hok : s.append stream expected events now with
    | error e =>
      rw [(exec_error hok).1] at hx
      exact Or.inr ⟨x.2, hx, rfl, rfl, rfl, rfl⟩
    | ok p =>
      obtain ⟨a, s'⟩ := p
      rw [(exec_ok hok).1, (h.append_ok hok).2.2.2.1] at hx
      rw [(exec_ok hok).2.1]
      rcases List.mem_append.1 hx with hx | hx
      · exact Or.inr ⟨x.2, hx, rfl, rfl, rfl, rfl⟩
      · exact Or.inl hx

/-- What a call adds lies in the log after it, and is no derived event. -/
theorem added_subset (call : Call) (hr : r ∈ s.added call) :
    r ∈ (s.exec call).rows ∧ isDerivedIndexType r.2.type_ = false := by
  cases call with
  | shedDerived stream entryOf => cases hr
  | append stream expected events now =>
    cases hok : s.append stream expected events now with
    | error e =>
      rw [(exec_error hok).2.1] at hr
      cases hr
    | ok p =>
      obtain ⟨a, s'⟩ := p
      obtain ⟨hkept, -, -, hrows, -⟩ := h.append_ok hok
      rw [(exec_ok hok).2.1] at hr
      rw [(exec_ok hok).1, hrows]
      obtain ⟨i, e, hi, rfl⟩ := mem_batch.1 hr
      exact ⟨List.mem_append_right _ hr, hkept e (List.mem_of_getElem? hi)⟩

theorem ordered_run (calls : List Call) : (run exec s calls).Ordered :=
  run_invariant (I := Store.Ordered) (fun _ call hs => ordered_exec hs call) h calls

theorem run_keeps (calls : List Call) (hr : r ∈ s.rows)
    (hkept : isDerivedIndexType r.2.type_ = false) :
    ∃ t, (r.1, { r.2 with validFrom := t }) ∈ (run exec s calls).rows := by
  have hstep : ∀ (s : Store) (call : Call),
      (s.Ordered ∧ ∃ t, (r.1, { r.2 with validFrom := t }) ∈ s.rows) →
      (s.exec call).Ordered ∧ ∃ t, (r.1, { r.2 with validFrom := t }) ∈ (s.exec call).rows := by
    rintro s call ⟨hs, t, ht⟩
    obtain ⟨t', ht'⟩ := exec_keeps hs call ht hkept
    exact ⟨ordered_exec hs call, t', ht'⟩
  exact (run_invariant hstep ⟨h, r.2.validFrom, hr⟩ calls).2

theorem increasing_issuedBy (calls : List Call) :
    (s.issuedBy calls).Pairwise (fun a b => a < b) ∧ ∀ p ∈ s.issuedBy calls, s.seq < p := by
  induction calls generalizing s with
  | nil => exact ⟨List.Pairwise.nil, by simp [issuedBy]⟩
  | cons call calls ih =>
    obtain ⟨hrest, habove⟩ := ih (ordered_exec h call)
    obtain ⟨hadded, hrange⟩ := added_above h call
    rw [issuedBy, issues_eq h]
    refine ⟨List.pairwise_append.2 ⟨List.pairwise_map.2 hadded, hrest, ?_⟩, ?_⟩
    · intro a ha b hb
      obtain ⟨r, hr, rfl⟩ := List.mem_map.1 ha
      have h1 := (hrange r hr).2
      have h2 := habove b hb
      omega
    · intro p hp
      rcases List.mem_append.1 hp with hp | hp
      · obtain ⟨r, hr, rfl⟩ := List.mem_map.1 hp
        exact (hrange r hr).1
      · have h1 := habove p hp
        have h2 := seq_exec h call
        omega

end

/-! ## One stream across a call -/

/-- A migration of another stream passes over the stream's rows. -/
theorem streamRows_shedDerived_of_ne (s : Store) {stream other : String} (hne : other ≠ stream)
    (entryOf : String → String × Bool) :
    (s.shedDerived other entryOf).2.streamRows stream = s.streamRows stream := by
  have hrow : ∀ r ∈ s.rows, r.2.stream = stream → s.migrated other entryOf r = r.2 := by
    intro r hr hstream
    refine migrated_of_unnamed hr fun hp => absurd ?_ hne
    rw [← hstream, ← (mem_streamRows.1 (mem_perception.1 hp).1).2]
  rw [streamRows, rows_shedDerived, List.filter_filter, List.filter_map]
  have hkeep : s.rows.filter ((fun r => r.2.stream == stream &&
        !(r.2.stream == other && derivedIndexTypes.contains r.2.type_)) ∘
          fun r => (r.1, s.migrated other entryOf r)) = s.streamRows stream := by
    apply List.filter_congr
    intro r hr
    have hframe : (s.migrated other entryOf r).stream = r.2.stream := (migrated_frame r).1
    show ((s.migrated other entryOf r).stream == stream && _) = _
    rw [hframe]
    by_cases hstream : r.2.stream = stream
    · rw [hstream]
      simp [Ne.symm hne]
    · simp [hstream]
  rw [hkeep]
  refine (List.map_congr_left fun r hr => ?_).trans (List.map_id _)
  obtain ⟨hr, hstream⟩ := mem_streamRows.1 hr
  rw [hrow r hr hstream]
  rfl

section
variable {s s' : Store} {stream : String} {events : List Event} {now : SystemTime}
  (hrows : s'.rows = s.rows ++ s.batch stream events now)
include hrows

theorem streamRows_batch : s'.streamRows stream = s.streamRows stream ++
    s.batch stream events now := by
  rw [streamRows_append hrows]
  congr 1
  apply List.filter_eq_self.2
  intro r hr
  rw [(batch_above hr).1, beq_self_eq_true]

theorem streamRows_batch_of_ne {other : String} (hne : stream ≠ other) :
    s'.streamRows other = s.streamRows other := by
  rw [streamRows_append hrows, List.filter_eq_nil_iff.2, List.append_nil]
  intro r hr
  rw [(batch_above hr).1, beq_iff_eq]
  exact hne

end

/-! ## Appends alone -/

theorem rows_exec_append {s : Store} (h : s.Ordered) (stream : String)
    (expected : ExpectedRevision) (events : List Event) (now : SystemTime) :
    (s.exec (.append stream expected events now)).rows =
        s.rows ++ s.added (.append stream expected events now) ∧
      ∀ r ∈ s.added (.append stream expected events now), r.2.stream = stream := by
  cases hok : s.append stream expected events now with
  | error e =>
    rw [(exec_error hok).1, (exec_error hok).2.1, List.append_nil]
    exact ⟨rfl, by simp⟩
  | ok p =>
    obtain ⟨a, s'⟩ := p
    rw [(exec_ok hok).1, (exec_ok hok).2.1, (h.append_ok hok).2.2.2.1]
    exact ⟨rfl, fun r hr => (batch_above hr).1⟩

theorem insertAll_grows {s s' : Store} {stream : String} {recordedAt revision : Int}
    {events : List Event} {placements : List (Option Nat)}
    (h : insertAll s stream recordedAt revision events = .ok (placements, s')) :
    s.rows <+: s'.rows := by
  induction events generalizing s revision placements with
  | nil =>
    cases h
    exact List.prefix_rfl
  | cons e events ih =>
    rw [insertAll] at h
    cases hinsert : s.insert (columnsOf stream recordedAt revision e) with
    | none =>
      rw [hinsert] at h
      cases h
    | some s₁ =>
      rw [hinsert] at h
      cases hrest : insertAll s₁ stream recordedAt (revision + 1) events with
      | error err =>
        simp only [hrest, Except.map] at h
        cases h
      | ok p =>
        obtain ⟨placements', s₂⟩ := p
        simp only [hrest, Except.map] at h
        cases h
        exact ((Table.insert_eq_some hinsert).1 ▸ List.prefix_append _ _).trans (ih hrest)

theorem append_inserts {s s' : Store} {stream : String} {expected : ExpectedRevision}
    {events : List Event} {now : SystemTime} {a : Appended}
    (hok : s.append stream expected events now = .ok (a, s')) :
    ∃ placements, insertAll s stream (toNanos now) (s.lastRevision stream + 1) events =
      .ok (placements, s') := by
  unfold append at hok
  split at hok
  · cases hok
  · by_cases hadmits : (!expected.admits (s.lastRevision stream)) = true
    · rw [if_pos hadmits] at hok
      cases hok
    · rw [if_neg hadmits] at hok
      by_cases horder : s.lastRevision stream < s.recordedMax stream
      · rw [if_pos horder] at hok
        cases hok
      · rw [if_neg horder] at hok
        cases hinserted : insertAll s stream (toNanos now) (s.lastRevision stream + 1) events with
        | error err =>
          simp only [hinserted, Except.map] at hok
          cases hok
        | ok p =>
          simp only [hinserted, Except.map] at hok
          cases hok
          exact ⟨p.1, rfl⟩

/-- Whatever the log's order, an append leaves it a prefix of the log after it. -/
theorem rows_exec_grows (s : Store) {call : Call} (h : call.isAppend = true) :
    s.rows <+: (s.exec call).rows := by
  cases call with
  | shedDerived stream entryOf => cases h
  | append stream expected events now =>
    cases hok : s.append stream expected events now with
    | error err => rw [(exec_error hok).1]
    | ok p =>
      obtain ⟨a, s'⟩ := p
      obtain ⟨placements, hinserted⟩ := append_inserts hok
      rw [(exec_ok hok).1]
      exact insertAll_grows hinserted

theorem rows_run_grows (s : Store) {calls : List Call} (h : ∀ call ∈ calls, call.isAppend = true) :
    s.rows <+: (run exec s calls).rows :=
  run_invariant_along (I := fun t => s.rows <+: Table.rows t)
    (fun t _ hcall ht => ht.trans (rows_exec_grows t hcall)) (along_of_forall h) List.prefix_rfl

/-! ## The append invariant -/

theorem Ordered.mem_readStream {s : Store} (h : s.Ordered) {stream : String} {r : Row}
    (hr : r ∈ s.streamRows stream) : rowToEvent r ∈ s.readStream stream 0 .forward := by
  show rowToEvent r ∈ s.readForward stream 0
  rw [h.readForward_eq]
  refine List.mem_map_of_mem (List.mem_filter.2 ⟨hr, ?_⟩)
  rw [decide_eq_true_eq]
  exact h.nonneg r (mem_streamRows.1 hr).1

/-- Every run from an ordered log, the empty log being one: its streams stay ordered and their
revisions unique, positions only grow, an append fails only as a conflict or a derived append and
then writes nothing, and one that succeeds adds its events in order, contiguous in revision, at
the places every later read reports. -/
theorem append_log_invariant :
    empty.Ordered ∧
    ∀ init : Store, init.Ordered → ∀ calls : List Call,
      (∀ stream, ((run exec init calls).streamRows stream).Pairwise fun a b =>
        a.1 < b.1 ∧ a.2.revision < b.2.revision) ∧
      ((run exec init calls).rows.Pairwise fun a b =>
        (a.2.stream, a.2.revision) ≠ (b.2.stream, b.2.revision)) ∧
      (init.issuedBy calls).Pairwise (fun p q => p < q) ∧
      (∀ p ∈ init.issuedBy calls, init.seq < p) ∧
      ∀ (stream : String) (expected : ExpectedRevision) (events : List Event) (now : SystemTime),
        (∀ err, (run exec init calls).append stream expected events now = .error err →
          (run exec init calls).exec (.append stream expected events now) =
              run exec init calls ∧
            ((∃ type_, err = .derivedAppend type_) ∨
              err = .conflict stream expected ((run exec init calls).lastRevision stream))) ∧
        ∀ a s', (run exec init calls).append stream expected events now = .ok (a, s') →
          ∃ rows : List Row, s'.rows = (run exec init calls).rows ++ rows ∧
            rows.length = events.length ∧ a.placements = rows.map (fun r => some r.1) ∧
            (∀ (i : Nat) (e : Event), events[i]? = some e → ∃ p, rows[i]? = some
              (p, columnsOf stream (toNanos now)
                ((run exec init calls).lastRevision stream + 1 + i) e)) ∧
            ∀ later : List Call, ∀ r ∈ rows,
              ∃ e ∈ (run exec s' later).readStream stream 0 .forward,
                e.position = r.1 ∧ e.revision = r.2.revision ∧ e.id = r.2.id ∧
                  e.type_ = r.2.type_ ∧ e.data = r.2.data ∧ e.meta_ = r.2.meta_ := by
  refine ⟨ordered_empty, fun init hinit calls => ?_⟩
  have hordered := ordered_run hinit calls
  obtain ⟨hissued, habove⟩ := increasing_issuedBy hinit calls
  refine ⟨fun stream => ?_, (run exec init calls).unique, hissued, habove,
    fun stream expected events now => ⟨fun err herr => ⟨(exec_error herr).1, ?_⟩,
      fun a s' hok => ?_⟩⟩
  · exact (sorted_streamRows _ stream).and hordered.increasing_streamRows
  · rcases hordered.append_cases stream expected events now with ⟨e, -, -, h⟩ | ⟨-, -, h⟩ |
      ⟨-, -, s', h, -⟩
    · rw [h] at herr
      cases herr
      exact Or.inl ⟨_, rfl⟩
    · rw [h] at herr
      cases herr
      exact Or.inr rfl
    · rw [h] at herr
      cases herr
  · obtain ⟨hkept, -, hplacements, hrows, -⟩ := hordered.append_ok hok
    have hordered' : s'.Ordered := hordered.append hrows
    refine ⟨_, hrows, length_batchRows _ _ events, hplacements,
      fun i e he => ⟨(run exec init calls).seq + 1 + i, ?_⟩, fun later r hr => ?_⟩
    · rw [batch, getElem?_batchRows, he]
      rfl
    · obtain ⟨i, e, he, hre⟩ := mem_batch.1 hr
      have hderived : isDerivedIndexType r.2.type_ = false := by
        rw [hre]
        exact hkept e (List.mem_of_getElem? he)
      obtain ⟨t, ht⟩ := run_keeps hordered' later
        (by rw [hrows]; exact List.mem_append_right _ hr) hderived
      have hmem : (r.1, { r.2 with validFrom := t }) ∈ (run exec s' later).streamRows stream :=
        mem_streamRows.2 ⟨ht, (batch_above hr).1⟩
      exact ⟨_, (ordered_run hordered' later).mem_readStream hmem, rfl, rfl, rfl, rfl, rfl, rfl⟩

end Store

end Rigger
