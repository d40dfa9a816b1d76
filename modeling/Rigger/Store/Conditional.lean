import Mathlib.Logic.Function.Basic
import Rigger.Lib.Run
import Rigger.Store.Writers

/-!
# The conditional writers of the run stream (`rigger-store-sqlite/src/run_store.rs`)

`append_at_head` reads the current run, decides and appends at the revision the read ended on; a
conflict sends the decision over what landed from that revision on.  Any number of calls run between
one another and between appends of other events.

An event a call appends is what its decision answers on the current run's slice just before, and a
call that appends nothing is so answered at a moment of the call, as long as no run is started over
an open hold while a call that folds holds is under way (`writes_linearized`): the fold carries the
hold past the boundary, and the release of the ended run's hold lands in the next run
(`released_unheld`).
-/

namespace Rigger.Conditional

open Lib Ledger Spawn

/-! ## Calls between one another -/

/-- Where a call stands: the store as its boundary lookup and its read of the carried-over events
met it, then its decision and the revision it is pinned to, then the conflict of its append. -/
inductive Phase where
  | idle
  | looked (call : Call) (first : Store)
  | carriedOver (call : Call) (first second : Store)
  | decided (call : Call) (carried : Carried) (head : Option Int) (ev : Event)
  | refused (call : Call) (carried : Carried) (head : Option Int) (actual : Int)

/-- How a call ended: the event it appended and the log just before, or that it appended nothing and
the logs that stood from its beginning on. -/
inductive Outcome where
  | appended (call : Call) (log : List Event) (ev : Event)
  | nothing (call : Call) (moments : List (List Event))

def Outcome.isAppended : Outcome → Bool
  | .appended .. => true
  | .nothing .. => false

structure World (τ : Type) where
  store : Store
  phase : τ → Phase
  moments : τ → List (List Event)
  outcomes : List Outcome

def World.new {τ : Type} : World τ := ⟨Store.empty, fun _ => .idle, fun _ => [], []⟩

def World.log {τ : Type} (w : World τ) : List Event := w.store.log stream

/-- `record` is any unconditional append, on any stream, a run's start included: `start_fresh` is a
release and then the append of its `RunStarted`.  `fail` is a store call that fails. -/
inductive Act (τ : Type) where
  | record (on : String) (events : List Event) (now : SystemTime)
  | start (t : τ) (call : Call)
  | turn (t : τ) (now : SystemTime)
  | fail (t : τ)

def headOf (read : List Event) : Option Int := (read.map Event.revision).max?

def pin : Option Int → ExpectedRevision
  | some revision => .exact revision
  | none => .noStream

/-- What a call does with a read: it fails, goes on to append, or appends nothing. -/
def settle (call : Call) (carried : Carried) (head : Option Int) (read : List Event) :
    Option Phase :=
  match consider call carried read with
  | none => some .idle
  | some (carried, some ev) => some (.decided call carried head ev)
  | some (_, none) => none

/-- The logs of every call under way take in the log as it stands now. -/
def World.observed {τ : Type} (w : World τ) : World τ :=
  { w with moments := fun t => w.moments t ++ [w.log] }

section
variable {τ : Type} [DecidableEq τ]

def World.enter (w : World τ) (t : τ) (p : Phase) : World τ :=
  { w with phase := Function.update w.phase t p }

def World.ended (w : World τ) (t : τ) (o : Outcome) : World τ :=
  { w with phase := Function.update w.phase t .idle, outcomes := w.outcomes ++ [o] }

/-- A call decides over a read. -/
def World.considered (w : World τ) (t : τ) (call : Call) (carried : Carried) (head : Option Int)
    (read : List Event) : World τ :=
  match settle call carried head read with
  | some p => w.enter t p
  | none => w.ended t (.nothing call (w.moments t))

/-- One store call of a conditional writer. -/
def World.turned (w : World τ) (t : τ) (now : SystemTime) : World τ :=
  match w.phase t with
  | .idle => w
  | .looked call first => w.enter t (.carriedOver call first w.store)
  | .carriedOver call first second =>
    let read := Store.readRun first second w.store stream
    w.considered t call .new (headOf read) read
  | .decided call carried head ev =>
    match w.store.append stream (pin head) [ev] now with
    | .ok (_, s) => { w.ended t (.appended call w.log ev) with store := s }
    | .error (.conflict _ _ actual) => w.enter t (.refused call carried head actual)
    | .error _ => w.enter t .idle
  | .refused call carried head actual =>
    w.considered t call carried (some actual)
      (w.store.readStreamTyped stream (head.getD 0) (landed call))

def step (w : World τ) : Act τ → World τ
  | .record on events now => World.observed
    { w with store := w.store.exec (.append on .any events now) }
  | .start t call =>
    match w.phase t with
    | .idle =>
      { w.enter t (.looked call w.store) with moments := Function.update w.moments t [w.log] }
    | _ => w
  | .turn t now => (w.turned t now).observed
  | .fail t => w.enter t .idle

end

/-! ## The condition -/

def Phase.call? : Phase → Option Call
  | .idle => none
  | .looked call _ | .carriedOver call _ _ | .decided call _ _ _ | .refused call _ _ _ => some call

/-- A run that starts behind `before` ends no open hold of a call that folds it, and shuts no result
appended with it, one atomic batch, out of a run's slice for a call that reads results. -/
def Call.Crossed (call : Call) (log before : List Event) : Prop :=
  (call.writesHold = true → ¬HoldOpen before) ∧
    (call.readsResults = true → ∀ e ∈ before, e.type_ = typeSpawnResult → e ∈ log)

/-- Every run an append starts is crossed by every call under way. -/
def Landed (call : Call) (log log' : List Event) : Prop :=
  ∀ before boundary after, log' = before ++ boundary :: after → log <+: before →
    isRunStarted boundary = true → call.Crossed log before

def Bounded {τ : Type} [DecidableEq τ] (w : World τ) : Act τ → Prop
  | .record on events now => ∀ t call, (w.phase t).call? = some call →
      Landed call w.log (w.store.exec (.append on .any events now) |>.log stream)
  | _ => True

def Outcome.Linearized : Outcome → Prop
  | .appended call log ev => decision call (slice log) = some (some ev)
  | .nothing call moments => ∃ log ∈ moments, decision call (slice log) = some none

instance : DecidablePred Outcome.Linearized
  | .appended _ _ _ => inferInstanceAs (Decidable (_ = _))
  | .nothing _ moments => inferInstanceAs (Decidable (∃ log ∈ moments, _))

/-! ## The logs of a call -/

/-- What the logs of a call under way have in common, for the boundary it looked up on. -/
structure Tracked (call : Call) (b : Nat) (log : List Event)
    (moments : List (List Event)) : Prop where
  current : log ∈ moments
  grown : ∀ m ∈ moments, m <+: log
  cut : ∀ m ∈ moments, Cut b m
  kept : call.writesHold = true → ∀ m ∈ moments, HoldKept b m
  results : call.readsResults = true → ∀ m ∈ moments, ∀ e ∈ since b m, e.type_ = typeSpawnResult →
    ∃ n ∈ moments, n <+: m ∧ e ∈ slice n

section
variable {call : Call} {b : Nat} {log more : List Event} {moments : List (List Event)}

theorem Tracked.start (hs : Sorted log)
    (hb : (((log.filter isRunStarted).getLast?.map Event.position).getD 0) = b) :
    Tracked call b log [log] := by
  obtain ⟨b', hcut, hslice, hb'⟩ := exists_cut log
  obtain rfl : b' = b := hb'.symm.trans hb
  have hslice := hslice hs
  refine ⟨List.mem_singleton_self _, ?_, ?_, fun _ => ?_, fun _ => ?_⟩
  · rintro m hm
    rw [List.mem_singleton.1 hm]
  · rintro m hm
    rw [List.mem_singleton.1 hm]
    exact hcut
  · rintro m hm
    rw [List.mem_singleton.1 hm]
    exact .of_slice hslice
  · rintro m hm e he htype
    rw [List.mem_singleton.1 hm] at he ⊢
    refine ⟨log, List.mem_singleton_self _, List.prefix_rfl, ?_⟩
    rw [hslice]
    refine List.mem_filter.2 ⟨he, ?_⟩
    rw [(isResult_kept (beq_iff_eq.2 htype)).1]
    rfl

theorem holdKept_landed (hkept : HoldKept b log) (hb : Cut b log) (hs : Sorted (log ++ more))
    (hopen : ∀ before boundary after, more = before ++ boundary :: after →
      isRunStarted boundary = true → ¬HoldOpen (log ++ before)) : HoldKept b (log ++ more) := by
  induction more using List.reverseRecOn with
  | nil =>
    rw [List.append_nil]
    exact hkept
  | append_singleton more e ih =>
    rw [← List.append_assoc] at hs ⊢
    have hbefore := ih (List.pairwise_append.1 hs).1 fun before boundary after h =>
      hopen before boundary (after ++ [e]) (by rw [h]; simp)
    exact hbefore.landed hb.append hs (hopen more e [] rfl)

/-- A result that lands behind the last boundary of its batch lands in the slice. -/
theorem mem_slice_landed (hs : Sorted (log ++ more))
    (hcrossed : ∀ before boundary after, more = before ++ boundary :: after →
      isRunStarted boundary = true → ∀ e ∈ log ++ before, e.type_ = typeSpawnResult → e ∈ log)
    {e : Event} (he : e ∈ more) (htype : e.type_ = typeSpawnResult) : e ∈ slice (log ++ more) := by
  have hkept : ∀ l, e ∈ l → e ∈ unperceived l := by
    intro l hl
    refine List.mem_filter.2 ⟨hl, ?_⟩
    rw [(isResult_kept (beq_iff_eq.2 htype)).1]
    rfl
  rcases Run.boundary_cases more with hnone | ⟨before, boundary, after, rfl, hboundary, hafter⟩
  · rw [slice_landed log hnone]
    exact List.mem_append_right _ (hkept more he)
  · have hslice :
        slice (log ++ (before ++ boundary :: after)) = unperceived (boundary :: after) := by
      rw [← List.append_assoc]
      unfold slice
      rw [unperceived_append, Store.unperceived_started hboundary]
      exact Run.currentRun_of_boundary hboundary fun x hx => hafter x (List.mem_of_mem_filter hx)
    rw [hslice]
    refine hkept _ ((List.mem_append.1 he).resolve_left fun hbefore => ?_)
    have hlog := hcrossed before boundary after rfl hboundary e
      (List.mem_append_right _ hbefore) htype
    have hlt := ((List.pairwise_append.1 hs).2.2 e hlog e he).1
    omega

theorem Tracked.landed (h : Tracked call b log moments) (hs : Sorted (log ++ more))
    (hland : Landed call log (log ++ more)) :
    Tracked call b (log ++ more) (moments ++ [log ++ more]) := by
  have hcut := h.cut log h.current
  have hcrossed : ∀ before boundary after, more = before ++ boundary :: after →
      isRunStarted boundary = true → call.Crossed log (log ++ before) := by
    intro before boundary after hmore hboundary
    refine hland (log ++ before) boundary after ?_ (List.prefix_append _ _) hboundary
    rw [hmore, List.append_assoc]
  refine ⟨by simp, ?_, ?_, fun hw => ?_, fun hr => ?_⟩
  · intro m hm
    rcases List.mem_append.1 hm with hm | hm
    · exact (h.grown m hm).trans (List.prefix_append _ _)
    · rw [List.mem_singleton.1 hm]
  · intro m hm
    rcases List.mem_append.1 hm with hm | hm
    · exact h.cut m hm
    · rw [List.mem_singleton.1 hm]
      exact hcut.append
  · intro m hm
    rcases List.mem_append.1 hm with hm | hm
    · exact h.kept hw m hm
    · rw [List.mem_singleton.1 hm]
      exact holdKept_landed (h.kept hw log h.current) hcut hs
          fun before boundary after hmore hboundary =>
        (hcrossed before boundary after hmore hboundary).1 hw
  · intro m hm e he htype
    have hold : ∀ m ∈ moments, e ∈ since b m →
        ∃ n ∈ moments ++ [log ++ more], n <+: m ∧ e ∈ slice n := by
      intro m hm he
      obtain ⟨n, hn, hgrown, hmem⟩ := h.results hr m hm e he htype
      exact ⟨n, List.mem_append_left _ hn, hgrown, hmem⟩
    rcases List.mem_append.1 hm with hm | hm
    · exact hold m hm he
    · rw [List.mem_singleton.1 hm] at he ⊢
      rw [hcut.since_append hs] at he
      rcases List.mem_append.1 he with he | he
      · obtain ⟨n, hn, hgrown, hmem⟩ := hold log h.current he
        exact ⟨n, hn, hgrown.trans (List.prefix_append _ _), hmem⟩
      · refine ⟨_, List.mem_concat_self, List.prefix_rfl, ?_⟩
        exact mem_slice_landed hs (fun before boundary after hmore hboundary =>
          (hcrossed before boundary after hmore hboundary).2 hr) he htype

end

/-! ## What a call is pinned to -/

/-- The revision a call is pinned to is that of an event it has seen, from its boundary on. -/
def Pinned (b : Nat) (seen : List Event) : Option Int → Prop
  | none => b = 0
  | some revision => ∃ e ∈ seen, e.revision = revision ∧ b ≤ e.position

section
variable {w : Store} {b : Nat} {seen more : List Event} {head : Option Int}

theorem sorted_log (h : w.Ordered) : Sorted (w.log stream) :=
  List.pairwise_map.2 ((Store.sorted_streamRows w stream).and h.increasing_streamRows)

theorem pinned_headOf (hb : Cut b seen) (hs : Sorted seen) :
    Pinned b seen (headOf (seen.filter (Store.narrowed b))) := by
  unfold headOf
  cases hmax : ((seen.filter (Store.narrowed b)).map Event.revision).max? with
  | none =>
    rw [List.max?_eq_none_iff, List.map_eq_nil_iff, List.filter_eq_nil_iff] at hmax
    rcases hb with hb | ⟨before, boundary, after, rfl, hboundary, rfl⟩
    · exact hb
    · refine absurd ?_ (hmax boundary (by simp))
      unfold Store.narrowed
      rw [if_pos (Nat.le_refl _), isPerception, beq_iff_eq.1 hboundary]
      decide
  | some revision =>
    obtain ⟨hmem, hmaximal⟩ := List.max?_eq_some_iff.1 hmax
    obtain ⟨e, he, rfl⟩ := List.mem_map.1 hmem
    refine ⟨e, (List.mem_filter.1 he).1, rfl, ?_⟩
    rcases hb with rfl | ⟨before, boundary, after, rfl, hboundary, rfl⟩
    · exact Nat.zero_le _
    · have hin : boundary ∈ (before ++ boundary :: after).filter
          (Store.narrowed boundary.position) := by
        refine List.mem_filter.2 ⟨by simp, ?_⟩
        unfold Store.narrowed
        rw [if_pos (Nat.le_refl _), isPerception, beq_iff_eq.1 hboundary]
        decide
      have hle := hmaximal _ (List.mem_map_of_mem hin)
      have hpair := List.pairwise_append.1 hs
      rcases List.mem_append.1 (List.mem_filter.1 he).1 with hbefore | hafter
      · have := (hpair.2.2 e hbefore boundary List.mem_cons_self).2
        omega
      · rcases List.mem_cons.1 hafter with rfl | hafter
        · exact Nat.le_refl _
        · exact Nat.le_of_lt ((List.pairwise_cons.1 hpair.2.1).1 e hafter).1

theorem Pinned.unchanged (h : w.Ordered) (hpin : Pinned b seen head)
    (hlog : w.log stream = seen ++ more)
    (hadmits : (pin head).admits (w.lastRevision stream) = true) : more = [] := by
  have hs := sorted_log h
  rw [hlog] at hs
  have hlast : ∀ e ∈ w.log stream, e.revision ≤ w.lastRevision stream ∧ 0 ≤ e.revision := by
    intro e he
    obtain ⟨r, hr, rfl⟩ := List.mem_map.1 he
    exact ⟨h.le_lastRevision hr, h.nonneg r (Store.mem_streamRows.1 hr).1⟩
  rw [List.eq_nil_iff_forall_not_mem]
  intro x hx
  obtain ⟨hle, hpos⟩ := hlast x (by rw [hlog]; exact List.mem_append_right _ hx)
  cases head with
  | none =>
    have heq : w.lastRevision stream = Rigger.noStream := beq_iff_eq.1 hadmits
    have hno : Rigger.noStream = -1 := rfl
    omega
  | some revision =>
    obtain ⟨e, he, rfl, -⟩ := hpin
    have heq : w.lastRevision stream = e.revision := beq_iff_eq.1 hadmits
    have := ((List.pairwise_append.1 hs).2.2 e he x hx).2
    omega

/-- The reread from the revision pinned to takes in everything that landed. -/
theorem Pinned.reread (h : w.Ordered) (hpin : Pinned b seen head)
    (hlog : w.log stream = seen ++ more) (selection : TypeSelection) :
    ∃ p, b ≤ p ∧ (∀ e ∈ more, p ≤ e.position) ∧
      w.readStreamTyped stream (head.getD 0) selection =
        (seen ++ more).filter fun e => decide (p ≤ e.position) && selection.selects e.type_ := by
  cases head with
  | none =>
    refine ⟨0, Nat.le_of_eq hpin, fun _ _ => Nat.zero_le _, ?_⟩
    rw [Option.getD_none, Store.readStreamTyped_zero, hlog]
    refine List.filter_congr fun e _ => ?_
    rw [decide_eq_true (Nat.zero_le _), Bool.true_and]
  | some revision =>
    obtain ⟨e, he, rfl, hb⟩ := hpin
    obtain ⟨r, hr, rfl⟩ : ∃ r ∈ w.streamRows stream, Store.rowToEvent r = e :=
      List.mem_map.1 (show e ∈ w.log stream by rw [hlog]; exact List.mem_append_left _ he)
    have hs := sorted_log h
    rw [hlog] at hs
    refine ⟨r.1, hb, fun x hx => Nat.le_of_lt ((List.pairwise_append.1 hs).2.2 _ he x hx).1, ?_⟩
    rw [← hlog]
    exact Store.readStreamTyped_of_mem hr (h.anchored stream r hr) selection

theorem pinned_actual (h : w.Ordered) (hcut : Cut b (w.log stream)) (hne : w.log stream ≠ []) :
    Pinned b (w.log stream) (some (w.lastRevision stream)) := by
  obtain ⟨init, last, hlast⟩ := (List.eq_nil_or_concat _).resolve_left hne
  rw [List.concat_eq_append] at hlast
  have hrevision : w.lastRevision stream = last.revision := by
    have hget : (w.log stream).getLast? = some last := by rw [hlast, List.getLast?_concat]
    unfold Store.log at hget
    rw [List.getLast?_map] at hget
    obtain ⟨r, hr, rfl⟩ := Option.map_eq_some_iff.1 hget
    unfold Store.lastRevision
    rw [hr]
    rfl
  refine ⟨last, by rw [hlast]; simp, hrevision.symm, ?_⟩
  have hs := sorted_log h
  rcases hcut with rfl | ⟨before, boundary, after, hsplit, -, rfl⟩
  · exact Nat.zero_le _
  · have hmem : boundary ∈ init ++ [last] := by rw [← hlast, hsplit]; simp
    rw [hlast] at hs
    rcases List.mem_append.1 hmem with hmem | hmem
    · exact Nat.le_of_lt ((List.pairwise_append.1 hs).2.2 _ hmem last (by simp)).1
    · rw [List.mem_singleton.1 hmem]

end

/-! ## What an append lands -/

variable {store store' : Store} {events : List Event} {now : SystemTime} {on : String}

/-- An append lands its events on its stream. -/
theorem log_append (h : store.Ordered) {expected : ExpectedRevision} {a : Appended}
    (hok : store.append on expected events now = .ok (a, store')) :
    ∃ more, store'.log stream = store.log stream ++ more ∧
      ∀ e ∈ more, on = stream ∧ ∃ x ∈ events, e.type_ = x.type_ ∧ e.data = x.data := by
  obtain ⟨-, -, -, hrows, -⟩ := h.append_ok hok
  refine ⟨((store.batch on events now).filter fun r => r.2.stream == stream).map
    Store.rowToEvent, ?_,
    fun e he => ?_⟩
  · show (store'.streamRows stream).map Store.rowToEvent = _
    rw [Store.streamRows_append hrows, List.map_append]
    rfl
  · obtain ⟨r, hr, rfl⟩ := List.mem_map.1 he
    obtain ⟨hr, hstream⟩ := List.mem_filter.1 hr
    obtain ⟨i, x, hi, rfl⟩ := Store.mem_batch.1 hr
    exact ⟨beq_iff_eq.1 hstream, x, List.mem_of_getElem? hi, rfl, rfl⟩

theorem log_record (h : store.Ordered) (on : String) (events : List Event) (now : SystemTime) :
    ∃ more,
      (store.exec (.append on .any events now)).log stream = store.log stream ++ more ∧
        ∀ e ∈ more, on = stream ∧ ∃ x ∈ events, e.type_ = x.type_ ∧ e.data = x.data := by
  cases hok : store.append on .any events now with
  | error err =>
    rw [(Store.exec_error hok).1]
    exact ⟨[], (List.append_nil _).symm, fun e he => by cases he⟩
  | ok p =>
    obtain ⟨a, store'⟩ := p
    rw [(Store.exec_ok hok).1]
    exact log_append h hok

theorem isRunStarted_congr {e x : Event} (h : e.type_ = x.type_) :
    isRunStarted e = isRunStarted x := by
  unfold isRunStarted
  rw [h]

theorem resultIn_congr {e x : Event} (h : e.type_ = x.type_) (hdata : e.data = x.data) :
    resultIn e = resultIn x := by
  unfold resultIn
  rw [h, hdata]

/-! ## The invariant -/

/-- What holds of a call in a phase, over the store as it stands and the call's logs. -/
def Phase.Sound (store : Store) (moments : List (List Event)) : Phase → Prop
  | .idle => True
  | .looked call first => first.Ordered ∧ first.rows <+: store.rows ∧
      Tracked call (first.boundaryPosition stream) (store.log stream) moments
  | .carriedOver call first second => first.Ordered ∧ first.rows <+: second.rows ∧
      second.rows <+: store.rows ∧ second.log stream ∈ moments ∧
      Tracked call (first.boundaryPosition stream) (store.log stream) moments
  | .decided call carried head ev => ∃ b seen, Tracked call b (store.log stream) moments ∧
      seen ∈ moments ∧ Pinned b seen head ∧ Knows b seen carried call ∧
      decision call (unperceived (since b seen)) = some (some ev)
  | .refused call carried head actual => ∃ b seen, Tracked call b (store.log stream) moments ∧
      seen ∈ moments ∧ Pinned b seen head ∧ Knows b seen carried call ∧
      Pinned b (store.log stream) (some actual)

structure World.Inv {τ : Type} (w : World τ) : Prop where
  ordered : w.store.Ordered
  sound : ∀ t, (w.phase t).Sound w.store (w.moments t)
  linearized : ∀ o ∈ w.outcomes, o.Linearized

theorem Tracked.prefix_landed {call : Call} {b : Nat} {moments : List (List Event)}
    (h : Tracked call b (store.log stream) moments) (hordered : store'.Ordered)
    (hgrown : store.rows <+: store'.rows)
    (hland : Landed call (store.log stream) (store'.log stream)) :
    Tracked call b (store'.log stream) (moments ++ [store'.log stream]) := by
  obtain ⟨more, hmore⟩ := Store.log_grows hgrown stream
  have hs := sorted_log hordered
  rw [← hmore] at hs hland ⊢
  exact h.landed hs hland

theorem Phase.Sound.landed {moments : List (List Event)} {p : Phase} (h : p.Sound store moments)
    (hordered : store'.Ordered) (hgrown : store.rows <+: store'.rows)
    (hland : ∀ call, p.call? = some call → Landed call (store.log stream) (store'.log stream)) :
    p.Sound store' (moments ++ [store'.log stream]) := by
  have hkept : ∀ m ∈ moments, m ∈ moments ++ [store'.log stream] :=
    fun m hm => List.mem_append_left _ hm
  cases p with
  | idle => exact True.intro
  | looked call first =>
    obtain ⟨hfirst, hrows, htracked⟩ := h
    exact ⟨hfirst, hrows.trans hgrown, htracked.prefix_landed hordered hgrown (hland call rfl)⟩
  | carriedOver call first second =>
    obtain ⟨hfirst, hrows, hrows', hsecond, htracked⟩ := h
    exact ⟨hfirst, hrows, hrows'.trans hgrown, hkept _ hsecond,
      htracked.prefix_landed hordered hgrown (hland call rfl)⟩
  | decided call carried head ev =>
    obtain ⟨b, seen, htracked, hseen, hrest⟩ := h
    exact ⟨b, seen, htracked.prefix_landed hordered hgrown (hland call rfl), hkept _ hseen, hrest⟩
  | refused call carried head actual =>
    obtain ⟨b, seen, htracked, hseen, hpin, hknows, e, he, hactual⟩ := h
    exact ⟨b, seen, htracked.prefix_landed hordered hgrown (hland call rfl), hkept _ hseen, hpin,
      hknows, e, (Store.log_grows hgrown stream).subset he, hactual⟩

/-- What starts no run crosses no call. -/
theorem landed_of_not_started {call : Call} {log more : List Event}
    (h : ∀ e ∈ more, isRunStarted e = false) : Landed call log (log ++ more) := by
  intro before boundary after hsplit hgrown hboundary
  obtain ⟨early, rfl⟩ := hgrown
  rw [List.append_assoc] at hsplit
  have hmem : boundary ∈ more := by
    rw [List.append_cancel_left hsplit]
    simp
  rw [h boundary hmem] at hboundary
  cases hboundary

/-- What lands, lands for every call under way. -/
theorem World.Inv.landed {τ : Type} {w : World τ} (h : w.Inv) (hordered : store.Ordered)
    (hgrown : w.store.rows <+: store.rows)
    (hland : ∀ t call, (w.phase t).call? = some call → Landed call w.log (store.log stream)) :
    (World.observed { w with store := store }).Inv :=
  ⟨hordered, fun u => (h.sound u).landed hordered hgrown (hland u), h.linearized⟩

theorem World.Inv.observed {τ : Type} {w : World τ} (h : w.Inv) : w.observed.Inv := by
  refine h.landed h.ordered List.prefix_rfl fun _ call _ => ?_
  have hnone : ∀ e ∈ ([] : List Event), isRunStarted e = false := fun e he => by cases he
  have hland : Landed call w.log (w.log ++ []) := landed_of_not_started hnone
  rw [List.append_nil] at hland
  exact hland

section
variable {τ : Type} [DecidableEq τ] {w : World τ} {t : τ}

theorem World.Inv.enter (h : w.Inv) {p : Phase} (hp : p.Sound w.store (w.moments t)) :
    (w.enter t p).Inv := by
  refine ⟨h.ordered, fun u => ?_, h.linearized⟩
  show (Function.update w.phase t p u).Sound w.store (w.moments u)
  by_cases hu : u = t
  · subst hu
    rw [Function.update_self]
    exact hp
  · rw [Function.update_of_ne hu]
    exact h.sound u

theorem World.Inv.ended (h : w.Inv) {o : Outcome} (ho : o.Linearized) : (w.ended t o).Inv := by
  have hidle := h.enter (t := t) (p := .idle) True.intro
  refine ⟨h.ordered, hidle.sound, fun o' ho' => ?_⟩
  rcases List.mem_append.1 ho' with ho' | ho'
  · exact h.linearized o' ho'
  · rw [List.mem_singleton.1 ho']
    exact ho

variable {carried : Carried} {head : Option Int} {call : Call}

theorem World.Inv.considered (h : w.Inv) {read : List Event} {b : Nat} {seen : List Event}
    (htracked : Tracked call b w.log (w.moments t)) (hseen : seen ∈ w.moments t)
    (hpin : Pinned b seen head)
    (hknown : ∀ carried' o, consider call carried read = some (carried', o) →
      decision call (unperceived (since b seen)) = some o ∧
        (o.isSome = true → Knows b seen carried' call)) :
    (w.considered t call carried head read).Inv := by
  unfold World.considered settle
  cases hconsider : consider call carried read with
  | none => exact h.enter True.intro
  | some answer =>
    obtain ⟨carried', o⟩ := answer
    obtain ⟨hdecision, hknows⟩ := hknown carried' o hconsider
    cases o with
    | some ev => exact h.enter ⟨b, seen, htracked, hseen, hpin, hknows rfl, hdecision⟩
    | none =>
      refine h.ended ?_
      have hs : Sorted seen := by
        obtain ⟨more, hmore⟩ := htracked.grown seen hseen
        have := sorted_log h.ordered
        rw [show w.store.log stream = seen ++ more from hmore.symm] at this
        exact (List.pairwise_append.1 this).1
      obtain ⟨m, hm, hnothing⟩ := decision_nothing (htracked.cut seen hseen) hs
        (fun hw => htracked.kept hw seen hseen) hseen (fun hr e he htype => by
          obtain ⟨n, hn, hgrown, hmem⟩ := htracked.results hr seen hseen e he htype
          exact ⟨n, hn, hgrown, htracked.cut n hn, hmem⟩) hdecision
      exact ⟨m, hm, hnothing⟩

theorem World.Inv.appended (h : w.Inv) {ev : Event} {now : SystemTime} {a : Appended}
    {store : Store} (hphase : w.phase t = .decided call carried head ev)
    (hok : w.store.append stream (pin head) [ev] now = .ok (a, store)) :
    (World.observed { w.ended t (.appended call w.log ev) with store := store }).Inv := by
  have hsound := h.sound t
  rw [hphase] at hsound
  obtain ⟨b, seen, htracked, hseen, hpin, -, hdecision⟩ := hsound
  obtain ⟨more, hmore⟩ := htracked.grown seen hseen
  obtain ⟨-, hadmits, -, hrows, -⟩ := h.ordered.append_ok hok
  have hnil := hpin.unchanged h.ordered hmore.symm hadmits
  rw [hnil, List.append_nil] at hmore
  subst hmore
  have hdecided := decision_slice (htracked.cut _ hseen) (sorted_log h.ordered)
    (fun hw => htracked.kept hw _ hseen) hdecision
  have hordered : store.Ordered := h.ordered.append hrows
  refine (h.ended (t := t) (o := .appended call w.log ev) hdecided).landed hordered
    (hrows ▸ List.prefix_append _ _) fun u call' _ => ?_
  obtain ⟨more, hlog, hmore⟩ := log_append h.ordered hok
  show Landed call' (w.store.log stream) (store.log stream)
  rw [hlog]
  refine landed_of_not_started fun e he => ?_
  obtain ⟨-, x, hx, htype, -⟩ := hmore e he
  have hstarted : isRunStarted ev = false := decision_started hdecided
  rw [isRunStarted_congr htype, List.mem_singleton.1 hx]
  exact hstarted

theorem World.Inv.turned (h : w.Inv) (now : SystemTime) : (w.turned t now).observed.Inv := by
  have hsound := h.sound t
  unfold World.turned
  cases hphase : w.phase t with
  | idle => exact h.observed
  | looked call first =>
    rw [hphase] at hsound
    obtain ⟨hfirst, hrows, htracked⟩ := hsound
    exact (h.enter (t := t) (p := .carriedOver call first w.store)
      ⟨hfirst, hrows, List.prefix_rfl, htracked.current, htracked⟩).observed
  | carriedOver call first second =>
    rw [hphase] at hsound
    obtain ⟨hfirst, hrows, hrows', hsecond, htracked⟩ := hsound
    have hread := Store.readRun_eq (hfirst.anchored stream) hrows hrows'
    have hseen : (Store.lastMet first second w.store stream).log stream ∈ w.moments t := by
      unfold Store.lastMet
      split
      · exact hsecond
      · exact htracked.current
    have hs : Sorted ((Store.lastMet first second w.store stream).log stream) := by
      obtain ⟨more, hmore⟩ := htracked.grown _ hseen
      have := sorted_log h.ordered
      rw [← hmore] at this
      exact (List.pairwise_append.1 this).1
    have hcut := htracked.cut _ hseen
    dsimp only
    rw [hread]
    exact (h.considered htracked hseen (pinned_headOf hcut hs)
      fun carried' o hconsider => known_first hcut hs hconsider).observed
  | decided call carried head ev =>
    dsimp only
    cases happend : w.store.append stream (pin head) [ev] now with
    | ok answer =>
      obtain ⟨a, store⟩ := answer
      exact h.appended hphase happend
    | error err =>
      rw [hphase] at hsound
      obtain ⟨b, seen, htracked, hseen, hpin, hknows, hdecision⟩ := hsound
      rcases h.ordered.append_cases stream (pin head) [ev] now with ⟨e, -, -, herr⟩ |
        ⟨-, hadmits, herr⟩ | ⟨-, -, s', hok, -⟩
      · rw [happend] at herr
        cases herr
        exact (h.enter (t := t) (p := .idle) True.intro).observed
      · rw [happend] at herr
        cases herr
        have hne : w.store.log stream ≠ [] := by
          intro hnil
          have hlast : w.store.lastRevision stream = Rigger.noStream := by
            unfold Store.lastRevision
            rw [List.map_eq_nil_iff.1 hnil]
            rfl
          cases head with
          | none =>
            rw [hlast] at hadmits
            cases hadmits
          | some revision =>
            obtain ⟨e, he, -⟩ := hpin
            have := (htracked.grown seen hseen).subset he
            rw [hnil] at this
            cases this
        exact (h.enter (t := t) (p := .refused call carried head _) ⟨b, seen, htracked, hseen, hpin,
          hknows, pinned_actual h.ordered (htracked.cut _ htracked.current) hne⟩).observed
      · rw [happend] at hok
        cases hok
  | refused call carried head actual =>
    rw [hphase] at hsound
    obtain ⟨b, seen, htracked, hseen, hpin, hknows, hactual⟩ := hsound
    obtain ⟨more, hmore⟩ := htracked.grown seen hseen
    have hs := sorted_log h.ordered
    rw [← hmore] at hs
    have hcut := htracked.cut seen hseen
    obtain ⟨p, hp, hlate, hread⟩ := hpin.reread h.ordered hmore.symm (Conditional.landed call)
    dsimp only
    rw [hread]
    refine (h.considered htracked htracked.current hactual fun carried' o hconsider => ?_).observed
    have hknown := known_again hs hcut hp hlate hknows hconsider
    rw [hmore] at hknown
    exact hknown

theorem World.Inv.step (h : w.Inv) {a : Act τ} (hbounded : Bounded w a) :
    (Conditional.step w a).Inv := by
  cases a with
  | record on events now =>
    have hcall : (Rigger.Call.append on .any events now).isAppend = true := rfl
    exact h.landed (Store.ordered_exec h.ordered _) (Store.rows_exec_grows w.store hcall) hbounded
  | start t call =>
    unfold Conditional.step
    dsimp only
    split
    · have hstart : Tracked call (w.store.boundaryPosition stream) w.log [w.log] :=
        Tracked.start (sorted_log h.ordered) rfl
      refine ⟨h.ordered, fun u => ?_, h.linearized⟩
      show (Function.update w.phase t (.looked call w.store) u).Sound w.store
        (Function.update w.moments t [w.log] u)
      by_cases hu : u = t
      · subst hu
        rw [Function.update_self, Function.update_self]
        exact ⟨h.ordered, List.prefix_rfl, hstart⟩
      · rw [Function.update_of_ne hu, Function.update_of_ne hu]
        exact h.sound u
    · exact h
  | turn t now => exact h.turned now
  | fail t => exact h.enter True.intro

end

theorem inv_new {τ : Type} : (World.new : World τ).Inv :=
  ⟨Store.ordered_empty, fun _ => True.intro, fun o ho => by cases ho⟩

theorem inv_run {τ : Type} [DecidableEq τ] {acts : List (Act τ)}
    (h : Along step Bounded World.new acts) :
    (run step World.new acts).Inv :=
  run_invariant_along (I := World.Inv) (fun _ _ hbounded hinv => hinv.step hbounded) h inv_new

theorem landed_record (h : store.Ordered) {call : Call}
    (hnone : ∀ e ∈ events, isRunStarted e = false) :
    Landed call (store.log stream) ((store.exec (.append on .any events now)).log stream) := by
  obtain ⟨more, hlog, hmore⟩ := log_record h on events now
  rw [hlog]
  refine landed_of_not_started fun e he => ?_
  obtain ⟨-, x, hx, htype, -⟩ := hmore e he
  rw [isRunStarted_congr htype]
  exact hnone x hx

theorem Phase.Sound.tracked {moments : List (List Event)} {p : Phase} {call : Call}
    (h : p.Sound store moments) (hcall : p.call? = some call) :
    ∃ b, Tracked call b (store.log stream) moments := by
  cases p with
  | idle => cases hcall
  | looked call' first =>
    cases hcall
    exact ⟨_, h.2.2⟩
  | carriedOver call' first second =>
    cases hcall
    exact ⟨_, h.2.2.2.2⟩
  | decided call' carried head ev =>
    cases hcall
    obtain ⟨b, seen, htracked, -⟩ := h
    exact ⟨b, htracked⟩
  | refused call' carried head actual =>
    cases hcall
    obtain ⟨b, seen, htracked, -⟩ := h
    exact ⟨b, htracked⟩

/-- A turn of a call ends it with an answer, or leaves the store and the outcomes as they were. -/
theorem turned_cases {τ : Type} [DecidableEq τ] (w : World τ) (t : τ) (now : SystemTime) :
    ((w.turned t now).store = w.store ∧ (w.turned t now).outcomes = w.outcomes ∧
      (w.turned t now).moments = w.moments ∧
      ∀ call, ((w.turned t now).phase t).call? = some call → (w.phase t).call? = some call) ∨
    (∃ call carried head ev a store, w.phase t = .decided call carried head ev ∧
      w.store.append stream (pin head) [ev] now = .ok (a, store) ∧
      w.turned t now = { w.ended t (.appended call w.log ev) with store := store }) ∨
    ∃ call, (w.phase t).call? = some call ∧
        w.turned t now = w.ended t (.nothing call (w.moments t)) := by
  have henter : ∀ p : Phase, (∀ call, p.call? = some call → (w.phase t).call? = some call) →
      (w.enter t p).store = w.store ∧ (w.enter t p).outcomes = w.outcomes ∧
        (w.enter t p).moments = w.moments ∧
        ∀ call, ((w.enter t p).phase t).call? = some call → (w.phase t).call? = some call := by
    intro p hp
    refine ⟨rfl, rfl, rfl, fun call hcall => hp call ?_⟩
    have hself : (w.enter t p).phase t = p := Function.update_self ..
    rwa [hself] at hcall
  have hidle : ∀ call, Phase.idle.call? = some call → (w.phase t).call? = some call :=
    fun _ h => by cases h
  have hconsidered : ∀ call carried head read, (w.phase t).call? = some call →
      ((w.considered t call carried head read).store = w.store ∧
        (w.considered t call carried head read).outcomes = w.outcomes ∧
        (w.considered t call carried head read).moments = w.moments ∧
        ∀ call', ((w.considered t call carried head read).phase t).call? = some call' →
          (w.phase t).call? = some call') ∨
      w.considered t call carried head read = w.ended t (.nothing call (w.moments t)) := by
    intro call carried head read hcall
    unfold World.considered settle
    cases consider call carried read with
    | none => exact Or.inl (henter .idle hidle)
    | some answer =>
      obtain ⟨carried', o⟩ := answer
      cases o with
      | none => exact Or.inr rfl
      | some ev => exact Or.inl (henter _ fun call' h => by rw [hcall]; exact h)
  unfold World.turned
  cases hphase : w.phase t with
  | idle => exact Or.inl ⟨rfl, rfl, rfl, fun call h => by rw [hphase] at h; exact h⟩
  | looked call first =>
    rw [hphase] at henter
    exact Or.inl (henter _ fun _ h => h)
  | carriedOver call first second =>
    rw [hphase] at hconsidered
    rcases hconsidered call .new _ _ rfl with h | h
    · exact Or.inl h
    · exact Or.inr (Or.inr ⟨call, rfl, h⟩)
  | decided call carried head ev =>
    rw [hphase] at henter hidle
    dsimp only
    cases happend : w.store.append stream (pin head) [ev] now with
    | ok answer =>
      obtain ⟨a, store⟩ := answer
      exact Or.inr (Or.inl ⟨call, carried, head, ev, a, store, rfl, happend, rfl⟩)
    | error err =>
      cases err with
      | conflict => exact Or.inl (henter _ fun _ h => h)
      | _ => exact Or.inl (henter .idle hidle)
  | refused call carried head actual =>
    rw [hphase] at hconsidered
    rcases hconsidered call carried _ _ rfl with h | h
    · exact Or.inl h
    · exact Or.inr (Or.inr ⟨call, rfl, h⟩)

/-! ## The runs -/

theorem decode_encode (body : RunHeld) : RunHeld.decode (.json body.encode) = some body := by
  rfl

/-- What a write that appends nothing leaves unwritten has been recorded. -/
theorem decision_ifAbsent {res : Result} {mint : Mint} {o : Option Event}
    (h : decision (.ifAbsent res mint) events = some o) :
    (o = some (resultEvent mint res) ∧ ∀ e ∈ events, ∀ r, resultIn e = some r → r.id ≠ res.id) ∨
      (o = none ∧ ∃ e ∈ events, ∃ r, resultIn e = some r ∧ r.id = res.id) := by
  unfold decision consider at h
  obtain ⟨⟨carried, o'⟩, hanswered, rfl⟩ := Option.map_eq_some_iff.1 h
  obtain ⟨r, hr, heq⟩ := onResult_eq_some hanswered
  rcases resultOf_eq_some hr with ⟨rfl, habsent⟩ | ⟨found, rfl, hid, e, he, hread⟩
  · exact Or.inl ⟨heq, habsent⟩
  · exact Or.inr ⟨heq, e, he, found, hread, hid⟩

theorem resultIn_resultEvent (mint : Mint) (res : Result) :
    resultIn (resultEvent mint res) = some res := by
  obtain ⟨id, output, error, meta_⟩ := res
  unfold resultEvent
  by_cases houtput : output = "" <;> by_cases herror : error = "" <;>
    by_cases hmeta : meta_ = .null <;>
    simp only [houtput, herror, hmeta, if_true, if_false] <;> rfl

/-- In a run whose boundaries cross no call, a conditional write is what its decision answers on the
current run's slice. -/
theorem writes_linearized {τ : Type} [DecidableEq τ] (acts : List (Act τ))
    (h : Along step Bounded World.new acts) :
    ∀ o ∈ (run step World.new acts).outcomes, o.Linearized ∧
      ∀ call log ev, o = .appended call log ev →
        (ev.type_ = typeRunReleased → HoldOpen log) ∧
        (∀ body, ev.type_ = typeRunHeld → RunHeld.decode ev.data = some body →
          body.by_ ≠ holdByOperator →
            ∀ hold, holdFold none (slice log) = some (some hold) → hold.operator = false) ∧
        ∀ res mint, call = .ifAbsent res mint →
          resultIn ev = some res ∧ ∀ e ∈ slice log, ∀ r, resultIn e = some r → r.id ≠ res.id := by
  intro o ho
  have hlinearized := (inv_run h).linearized o ho
  refine ⟨hlinearized, ?_⟩
  rintro call log ev rfl
  have hdecision : decision call (slice log) = some (some ev) := hlinearized
  refine ⟨fun htype => ?_, fun body htype hbody hby hold hhold => ?_, ?_⟩
  · rcases decision_appends hdecision with ⟨-, hopen⟩ | ⟨mint, body, hold, rfl, -⟩ |
      ⟨mint, body, rfl, -⟩ | ⟨mint, res, rfl⟩
    · exact hopen
    · exact absurd htype (by decide : typeRunHeld ≠ typeRunReleased)
    · exact absurd htype (by decide : typeRunHeld ≠ typeRunReleased)
    · exact absurd htype (by decide : typeSpawnResult ≠ typeRunReleased)
  · rcases decision_appends hdecision with ⟨hreleased, -⟩ | ⟨mint, body', hold', rfl,
      hhold', hmoved⟩ |
      ⟨mint, body', rfl, hby'⟩ | ⟨mint, res, rfl⟩
    · rw [htype] at hreleased
      exact absurd hreleased (by decide)
    · rw [hhold] at hhold'
      cases hhold'
      have hall : (!hold.operator && body'.needsPerson && hold.latest.cause ≠ body'.cause) =
        true := hmoved
      simp only [Bool.and_eq_true, Bool.not_eq_true'] at hall
      exact hall.1.1
    · have hsame : some body' = some body := (decode_encode body').symm.trans hbody
      cases hsame
      exact absurd hby' hby
    · exact absurd htype (by decide : typeSpawnResult ≠ typeRunHeld)
  · rintro res mint rfl
    rcases decision_ifAbsent hdecision with ⟨heq, habsent⟩ | ⟨heq, -⟩
    · cases heq
      exact ⟨resultIn_resultEvent mint res, habsent⟩
    · cases heq

/-! ## A boundary behind a read -/

def startedEvent (run : String) : Event :=
  Event.new (run, 1) typeRunStarted (.json (.obj [("run", .str run)]))

/-- The hold of the operator on the run `r1`. -/
def heldRun : List (Act Bool) :=
  [.record stream [startedEvent "r1"] 2,
    .record stream
    [heldEvent ("h1", 3) { heldBy operator "" holdByOperator "" with action := "wait" }] 4]

/-- Its release, up to the append. -/
def releasing : List (Act Bool) :=
  [.start true (.release holdByHost 5 ("r", 5)), .turn true 6, .turn true 6]

/-- A lesson lands behind the read. -/
def lessonRun : List (Act Bool) :=
  heldRun ++ releasing ++
    [.record stream [Event.new ("l1", 7) typeLessonLearned (.json .null)] 7, .turn true 8,
    .turn true 8, .turn true 8]

/-- The next run starts behind the read. -/
def overtakenRun : List (Act Bool) :=
  heldRun ++ releasing ++
    [.record stream [startedEvent "r2"] 7, .turn true 8, .turn true 8, .turn true 8]

theorem bounded_lessonRun : Along step Bounded World.new lessonRun := by
  have hidle : ∀ {P : Bool → Call → Prop} (t call), (Phase.idle).call? = some call → P t call :=
    fun _ _ h => by cases h
  have hbefore : Along step Bounded World.new (heldRun ++ releasing) :=
    ⟨hidle, hidle, True.intro, True.intro, True.intro, True.intro⟩
  refine along_append.2 ⟨hbefore, fun _ _ _ => ?_, True.intro, True.intro, True.intro, True.intro⟩
  exact landed_record (inv_run hbefore).ordered (by decide)

/-- The release lands behind the lesson, in the run it was taken on. -/
theorem writes_linearized_lesson :
    (run step World.new lessonRun).log.map Event.type_ =
        [typeRunStarted, typeRunHeld, typeLessonLearned, typeRunReleased] ∧
      (run step World.new lessonRun).outcomes.length = 1 ∧
      ∀ o ∈ (run step World.new lessonRun).outcomes, o.Linearized ∧
        ∀ call log ev, o = .appended call log ev →
          (ev.type_ = typeRunReleased → HoldOpen log) ∧
          (∀ body, ev.type_ = typeRunHeld → RunHeld.decode ev.data = some body →
            body.by_ ≠ holdByOperator →
              ∀ hold, holdFold none (slice log) = some (some hold) → hold.operator = false) ∧
          ∀ res mint, call = .ifAbsent res mint →
            resultIn ev = some res ∧ ∀ e ∈ slice log, ∀ r, resultIn e = some r → r.id ≠ res.id :=
  ⟨by decide +kernel, by decide +kernel, writes_linearized lessonRun bounded_lessonRun⟩

/-- The release of the ended run's hold lands in the run that was started behind its read. -/
theorem released_unheld :
    (run step World.new overtakenRun).log.map Event.type_ =
        [typeRunStarted, typeRunHeld, typeRunStarted, typeRunReleased] ∧
      ¬∀ o ∈ (run step World.new overtakenRun).outcomes, o.Linearized := by
  decide +kernel

end Rigger.Conditional
