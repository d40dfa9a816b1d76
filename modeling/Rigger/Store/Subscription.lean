import Rigger.Lib.Poll
import Rigger.Store.Cursor

/-!
# Stream subscriptions (`Store::subscribe_stream`)

A subscription polls its stream past its watermark, the revision of the last event it delivered,
while clients append and migrations run.  What it delivers always comes in log order; it misses an
event exactly where an append lands at or below the watermark, after a migration trimmed events
the subscription had delivered (`subscription_complete_iff`).
-/

namespace Rigger

open Lib

namespace Store

/-! ## Polls -/

theorem Watermark.deliver_eq (w : Watermark) (events : List Event) :
    (w.deliver events).position = advance Event.position w.position events ∧
      (w.deliver events).revision = advance Event.revision w.revision events := by
  rcases List.eq_nil_or_concat events with rfl | ⟨init, e, rfl⟩
  · exact ⟨rfl, rfl⟩
  · rw [List.concat_eq_append, deliver, List.foldl_append, advance, advance, List.getLast?_concat]
    exact ⟨rfl, rfl⟩

section
variable {s : Store} (h : s.Ordered) (stream : String) (w : Watermark)
include h

theorem Ordered.pollStream_eq (after : Int) : s.pollStream stream after =
    (poll (fun r : Row => r.2.revision) (fun _ => true) after (s.streamRows stream)).map
      rowToEvent := by
  rw [pollStream, h.readForward_eq, poll]
  congr 1
  apply List.filter_congr
  intro r _
  rw [Bool.and_true, decide_eq_decide]
  exact Int.add_one_le_iff

/-- A poll leaves no row of the stream above the watermark, and never lowers it. -/
theorem Ordered.le_deliver :
    w.revision ≤ (w.deliver (s.pollStream stream w.revision)).revision ∧
      ∀ r ∈ s.streamRows stream,
        r.2.revision ≤ (w.deliver (s.pollStream stream w.revision)).revision := by
  have hsorted : (s.streamRows stream).Pairwise fun a b => a.2.revision < b.2.revision :=
    h.increasing_streamRows
  obtain ⟨hle, hreach⟩ := le_advance (sorted_poll (fun _ => true) hsorted w.revision)
    fun r hr => (mem_poll.1 hr).2.1
  have hmark : (w.deliver (s.pollStream stream w.revision)).revision =
      advance (fun r : Row => r.2.revision) w.revision
        (poll (fun r : Row => r.2.revision) (fun _ => true) w.revision (s.streamRows stream)) := by
    rw [(w.deliver_eq _).2, h.pollStream_eq, advance_map]
    rfl
  rw [hmark]
  refine ⟨hle, fun r hr => ?_⟩
  by_cases hlt : w.revision < r.2.revision
  · exact hreach r (mem_poll.2 ⟨hr, hlt, rfl⟩)
  · omega

theorem Ordered.mem_pollStream {after : Int} {e : Event} : e ∈ s.pollStream stream after ↔
    ∃ r ∈ s.streamRows stream, after < r.2.revision ∧ rowToEvent r = e := by
  rw [h.pollStream_eq, List.mem_map]
  simp only [mem_poll, and_true, and_assoc]

theorem Ordered.sorted_pollStream (after : Int) :
    (s.pollStream stream after).Pairwise fun a b => a.position < b.position := by
  rw [h.pollStream_eq]
  exact List.pairwise_map.2 ((sorted_streamRows s stream).sublist List.filter_sublist)

end

/-! ## A subscription among the calls -/

/-- A log beside one subscription to a stream of it: what the polls delivered, and, as the run's
own record, the rows appended to the stream since the subscription started. -/
structure Subscribed where
  store : Store
  state : Watermark
  delivered : List Event
  appended : List Row

inductive Turn where
  | call (call : Call)
  | poll

def subscribed (s : Store) (from_ : Int) : Subscribed := ⟨s, subscribeStream from_, [], []⟩

def turn (stream : String) (c : Subscribed) : Turn → Subscribed
  | .call call =>
    { c with
      store := c.store.exec call
      appended := c.appended ++ (c.store.added call).filter fun r => r.2.stream == stream }
  | .poll =>
    let events := c.store.pollStream stream c.state.revision
    { c with state := c.state.deliver events, delivered := c.delivered ++ events }

/-- The event is the row's, at its place. -/
def Reports (e : Event) (r : Row) : Prop :=
  e.position = r.1 ∧ e.revision = r.2.revision ∧ e.id = r.2.id ∧ e.type_ = r.2.type_ ∧
    e.data = r.2.data ∧ e.meta_ = r.2.meta_

/-- Everything appended from revision `from_` on and still in the log was delivered once, and
everything delivered came in log order. -/
def Complete (from_ : Int) (c : Subscribed) : Prop :=
  (c.delivered.Pairwise fun a b => a.position < b.position) ∧
    ∀ r ∈ c.appended, from_ ≤ r.2.revision → (∃ x ∈ c.store.rows, x.1 = r.1) →
      ∃ e, (c.delivered.filter fun e => e.position == r.1) = [e] ∧ Reports e r

/-- An append of events the store takes does not start below the watermark of a subscription that
delivered something, unless it stays below the subscription's start. -/
def KeepsAhead (stream : String) (from_ : Int) (c : Subscribed) : Turn → Prop
  | .call (.append other expected events _) =>
    other = stream → events ≠ [] → refuseDerived events = .ok () →
      expected.admits (c.store.lastRevision stream) = true →
      c.state.revision ≤ c.store.lastRevision stream ∨ c.state.revision < from_ ∨
        c.store.lastRevision stream + events.length < from_
  | _ => True

/-- What holds of every run, whatever it appends. -/
structure Delivering (stream : String) (from_ : Int) (c : Subscribed) : Prop where
  ordered : c.store.Ordered
  started : from_ - 1 ≤ c.state.revision
  sorted : c.delivered.Pairwise fun a b => a.position < b.position
  issued : ∀ e ∈ c.delivered, e.position ≤ c.store.seq
  ahead : ∀ r ∈ c.store.streamRows stream, c.state.revision < r.2.revision →
    ∀ e ∈ c.delivered, e.position < r.1

/-- Every row appended from `from_` on is kept, and was delivered or lies ahead. -/
def Covered (stream : String) (from_ : Int) (c : Subscribed) : Prop :=
  ∀ r ∈ c.appended, from_ ≤ r.2.revision →
    (∃ t, (r.1, { r.2 with validFrom := t }) ∈ c.store.streamRows stream) ∧
      isDerivedIndexType r.2.type_ = false ∧
      (c.state.revision < r.2.revision ∨ ∃ e ∈ c.delivered, Reports e r)

section
variable {stream : String} {from_ : Int}

theorem delivering_subscribed {s : Store} (h : s.Ordered) :
    Delivering stream from_ (subscribed s from_) :=
  ⟨h, Int.le_refl _, List.Pairwise.nil, by simp [subscribed], by simp [subscribed]⟩

theorem delivering_turn (c : Subscribed) (t : Turn) (h : Delivering stream from_ c) :
    Delivering stream from_ (turn stream c t) := by
  cases t with
  | call call =>
    refine ⟨ordered_exec h.ordered call, h.started, h.sorted, fun e he => ?_,
      fun r hr hlt e he => ?_⟩
    · have hseq : (turn stream c (.call call)).store.seq = _ := seq_exec h.ordered call
      have := h.issued e he
      omega
    · obtain ⟨hr, hstream⟩ := mem_streamRows.1 hr
      rcases rows_exec h.ordered call hr with hadded | ⟨x, hx, hframe⟩
      · have h1 := ((added_above h.ordered call).2 r hadded).1
        have h2 := h.issued e he
        omega
      · refine h.ahead (r.1, x) (mem_streamRows.2 ⟨hx, hframe.1.symm.trans hstream⟩) ?_ e he
        rw [← hframe.2.2.1]
        exact hlt
  | poll =>
    obtain ⟨hle, hreach⟩ := h.ordered.le_deliver stream c.state
    refine ⟨h.ordered, Int.le_trans h.started hle, ?_, fun e he => ?_, fun r hr hlt => ?_⟩
    · refine List.pairwise_append.2 ⟨h.sorted, h.ordered.sorted_pollStream stream _, ?_⟩
      intro a ha b hb
      obtain ⟨r, hr, hlt, rfl⟩ := (h.ordered.mem_pollStream stream).1 hb
      exact h.ahead r hr hlt a ha
    · rcases List.mem_append.1 he with he | he
      · exact h.issued e he
      · obtain ⟨r, hr, -, rfl⟩ := (h.ordered.mem_pollStream stream).1 he
        exact (c.store.issued r (mem_streamRows.1 hr).1).2
    · have hpast : (c.state.deliver (c.store.pollStream stream c.state.revision)).revision <
          r.2.revision := hlt
      have := hreach r hr
      omega

variable {c : Subscribed}

/-- What a call may append: nothing the subscription is to see at or below its watermark. -/
theorem keepsAhead_call_iff (h : Delivering stream from_ c) (call : Call) :
    KeepsAhead stream from_ c (.call call) ↔
      ∀ r ∈ c.store.added call, r.2.stream = stream → from_ ≤ r.2.revision →
        c.state.revision < r.2.revision := by
  cases call with
  | shedDerived other entryOf => exact iff_of_true True.intro (by simp [added])
  | append other expected events now =>
    rcases h.ordered.append_cases other expected events now with ⟨e, he, hderived, herr⟩ |
      ⟨-, hrefused, herr⟩ | ⟨hkept, hadmits, s', hok, -⟩
    · rw [(exec_error herr).2.1]
      refine iff_of_true (fun _ _ hrefuse _ => ?_) (by simp)
      rw [(refuseDerived_eq_ok_iff events).1 hrefuse e he] at hderived
      cases hderived
    · rw [(exec_error herr).2.1]
      refine iff_of_true (fun heq _ _ hadmits => ?_) (by simp)
      rw [← heq, hrefused] at hadmits
      cases hadmits
    · rw [(exec_ok hok).2.1]
      constructor
      · intro hk r hr hstream hfrom
        have heq : other = stream := (batch_above hr).1.symm.trans hstream
        subst heq
        obtain ⟨i, e, hi, rfl⟩ := mem_batch.1 hr
        have hlen : i < events.length := (List.getElem?_eq_some_iff.1 hi).1
        have hrev : from_ ≤ c.store.lastRevision other + 1 + i := hfrom
        show c.state.revision < c.store.lastRevision other + 1 + i
        have := hk rfl (List.ne_nil_of_length_pos (by omega))
          ((refuseDerived_eq_ok_iff events).2 hkept) hadmits
        omega
      · intro hahead heq hne _ _
        subst heq
        by_contra hnot
        have hlen := List.length_pos_of_ne_nil hne
        -- the lowest revision of the batch that the subscription is to see
        obtain ⟨i, hi, hrev⟩ : ∃ i < events.length,
            from_ ≤ c.store.lastRevision other + 1 + i ∧
              c.store.lastRevision other + 1 + i ≤ c.state.revision :=
          ⟨(from_ - c.store.lastRevision other - 1).toNat, by omega, by omega, by omega⟩
        have hmem : (c.store.seq + 1 + i, columnsOf other (toNanos now)
            (c.store.lastRevision other + 1 + i) events[i]) ∈ c.store.batch other events now :=
          mem_batch.2 ⟨i, events[i], List.getElem?_eq_getElem hi, rfl⟩
        exact absurd (hahead _ hmem rfl hrev.1) (Int.not_lt.2 hrev.2)

theorem covered_turn (h : Delivering stream from_ c) (hc : Covered stream from_ c) {t : Turn}
    (hk : KeepsAhead stream from_ c t) : Covered stream from_ (turn stream c t) := by
  cases t with
  | call call =>
    intro r hr hfrom
    rcases List.mem_append.1 hr with hr | hr
    · obtain ⟨⟨t, ht⟩, hkept, hseen⟩ := hc r hr hfrom
      obtain ⟨ht, hstream⟩ := mem_streamRows.1 ht
      obtain ⟨t', ht'⟩ := exec_keeps h.ordered call ht hkept
      exact ⟨⟨t', mem_streamRows.2 ⟨ht', hstream⟩⟩, hkept, hseen⟩
    · obtain ⟨hr, hstream⟩ := List.mem_filter.1 hr
      rw [beq_iff_eq] at hstream
      obtain ⟨hmem, hkept⟩ := added_subset h.ordered call hr
      exact ⟨⟨r.2.validFrom, mem_streamRows.2 ⟨hmem, hstream⟩⟩, hkept,
        Or.inl ((keepsAhead_call_iff h call).1 hk r hr hstream hfrom)⟩
  | poll =>
    intro r hr hfrom
    obtain ⟨⟨t, ht⟩, hkept, hseen⟩ := hc r hr hfrom
    refine ⟨⟨t, ht⟩, hkept, Or.inr ?_⟩
    rcases hseen with hlt | ⟨e, he, hreports⟩
    · have hpolled := (h.ordered.mem_pollStream stream).2 ⟨_, ht, hlt, rfl⟩
      exact ⟨_, List.mem_append_right _ hpolled, rfl, rfl, rfl, rfl, rfl, rfl⟩
    · exact ⟨e, List.mem_append_left _ he, hreports⟩

theorem filter_position {events : List Event} {e : Event}
    (hsorted : events.Pairwise fun a b => a.position < b.position) (he : e ∈ events) :
    (events.filter fun x => x.position == e.position) = [e] := by
  obtain ⟨before, after, rfl⟩ := List.append_of_mem he
  obtain ⟨-, hafter, hbefore⟩ := List.pairwise_append.1 hsorted
  have hpast := (List.pairwise_cons.1 hafter).1
  rw [List.filter_append, List.filter_cons, beq_self_eq_true, if_pos rfl,
    List.filter_eq_nil_iff.2, List.filter_eq_nil_iff.2, List.nil_append]
  · intro x hx
    have := hpast x hx
    rw [beq_iff_eq]
    omega
  · intro x hx
    have := hbefore x hx e List.mem_cons_self
    rw [beq_iff_eq]
    omega

theorem complete_poll (h : Delivering stream from_ c) (hc : Covered stream from_ c) :
    Complete from_ (turn stream c .poll) := by
  have hsorted := (delivering_turn c .poll h).sorted
  refine ⟨hsorted, fun r hr hfrom _ => ?_⟩
  obtain ⟨⟨t, ht⟩, -, hseen⟩ := covered_turn h hc (t := .poll) True.intro r hr hfrom
  have hreach := (h.ordered.le_deliver stream c.state).2 _ ht
  obtain ⟨e, he, hreports⟩ := hseen.resolve_left (Int.not_lt.2 hreach)
  exact ⟨e, by rw [← hreports.1]; exact filter_position hsorted he, hreports⟩

theorem missed (h : Delivering stream from_ c) {call : Call}
    (hk : ¬KeepsAhead stream from_ c (.call call)) :
    ¬Complete from_ (turn stream (turn stream c (.call call)) .poll) := by
  intro hcomplete
  refine hk ((keepsAhead_call_iff h call).2 fun r hr hstream hfrom => ?_)
  have happended : r ∈ (turn stream (turn stream c (.call call)) .poll).appended :=
    List.mem_append_right _ (List.mem_filter.2 ⟨hr, beq_iff_eq.2 hstream⟩)
  obtain ⟨e, hdelivered, hreports⟩ := hcomplete.2 r happended hfrom
    ⟨r, (added_subset h.ordered call hr).1, rfl⟩
  have he : e ∈ (turn stream (turn stream c (.call call)) .poll).delivered :=
    List.mem_of_mem_filter (by rw [hdelivered]; exact List.mem_singleton_self e)
  rcases List.mem_append.1 he with he | he
  · have h1 := h.issued e he
    have h2 := ((added_above h.ordered call).2 r hr).1
    have h3 := hreports.1
    omega
  · obtain ⟨x, -, hlt, rfl⟩ := ((ordered_exec h.ordered call).mem_pollStream stream).1 he
    rw [← hreports.2.1]
    exact hlt

end

/-- A subscription delivers every event appended to its stream once and in log order, at every
poll of a run, exactly when no append of the run starts below its watermark. -/
theorem subscription_complete_iff {s : Store} (h : s.Ordered) (stream : String) (from_ : Int)
    (turns : List Turn) :
    (∀ before, before <+: turns →
      Complete from_ (run (turn stream) (subscribed s from_) (before ++ [.poll]))) ↔
      Along (turn stream) (KeepsAhead stream from_) (subscribed s from_) turns := by
  have hstart : Delivering stream from_ (subscribed s from_) := delivering_subscribed h
  constructor
  · intro hcomplete
    apply along_iff_prefix.2
    intro before t after heq
    cases t with
    | poll => exact True.intro
    | call call =>
      have hbefore : Delivering stream from_ (run (turn stream) (subscribed s from_) before) :=
        run_invariant delivering_turn hstart before
      by_contra hk
      refine missed hbefore hk ?_
      have := hcomplete (before ++ [.call call]) ⟨after, by rw [heq]; simp⟩
      rw [run_append, run_append] at this
      exact this
  · rintro halong before ⟨after, rfl⟩
    have hboth : Delivering stream from_ (run (turn stream) (subscribed s from_) before) ∧
        Covered stream from_ (run (turn stream) (subscribed s from_) before) := by
      refine run_invariant_along (I := fun c => Delivering stream from_ c ∧ Covered stream from_ c)
        (fun c t hk hc => ⟨delivering_turn c t hc.1, covered_turn hc.1 hc.2 hk⟩)
        (along_append.1 halong).1 ⟨hstart, by simp [Covered, subscribed]⟩
    rw [run_append]
    exact complete_poll hboth.1 hboth.2

/-- A poll delivers the derived tail, which the migration then trims; what another client appends
takes its revision. -/
def reissuingTurns : List Turn := .poll :: reissuingCalls.map .call

/-- The next poll passes over that event. -/
theorem reissued_event_missed : trimmableStore.Ordered ∧
    ¬Complete 0 (run (turn "s") (subscribed trimmableStore 0) (reissuingTurns ++ [.poll])) := by
  refine ⟨ordered_trimmableStore, fun h => ?_⟩
  have hrow : (3, columnsOf "s" 7 1 (Event.new ("e3", 7) typeDecisionMade (.json .null))) ∈
      (run (turn "s") (subscribed trimmableStore 0) (reissuingTurns ++ [.poll])).appended := by
    decide
  obtain ⟨e, he, -⟩ := h.2 _ hrow (by decide) (by decide)
  have hnone : ((run (turn "s") (subscribed trimmableStore 0)
      (reissuingTurns ++ [.poll])).delivered.filter fun e => e.position == 3) = [] := by decide
  rw [hnone] at he
  cases he

/-- The equivalence at that run. -/
theorem subscription_complete_iff_reissued :
    (∀ before, before <+: reissuingTurns →
      Complete 0 (run (turn "s") (subscribed trimmableStore 0) (before ++ [.poll]))) ↔
      Along (turn "s") (KeepsAhead "s" 0) (subscribed trimmableStore 0) reissuingTurns :=
  subscription_complete_iff ordered_trimmableStore "s" 0 reissuingTurns

end Store

end Rigger
