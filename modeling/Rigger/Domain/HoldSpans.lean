import Rigger.Domain.Hold

/-!
# The two folds of a run's holds (`rigger-domain/src/ledger.rs`)

The run state folds the one hold that stands, `holds` walks them all.  `holds_agree`: on a slice the
state folds, the last span is open exactly where the state holds a hold, and it holds the same.
`exists_placed` places the spans: in log order, none but the last open, every `RunHeld` in one.
-/

namespace Rigger.Ledger

/-! ## The open span -/

variable {s' s run : RunState}

theorem apply_holdStep {e : Event} (h : s.apply e = some s') :
    holdStep s.hold e = some s'.hold := by
  by_cases hhold : isHoldEvent e = true
  · rw [← apply_hold hhold, h]
    rfl
  · rw [holdStep_of_not (Bool.not_eq_true _ ▸ hhold), Option.some.injEq]
    simp only [isHoldEvent, holdTypes, List.contains_cons, List.contains_nil, Bool.or_false,
      Bool.or_eq_true, beq_iff_eq, not_or] at hhold
    obtain ⟨hstarted, hheld, hreleased⟩ := hhold
    unfold RunState.apply at h
    rw [if_neg hstarted, if_neg hheld, if_neg hreleased] at h
    repeat' split at h
    all_goals first
      | cases h; rfl
      | obtain ⟨p, -, rfl⟩ := Option.map_eq_some_iff.1 h; rfl

theorem foldlM_holdFold {events : List Event} (h : events.foldlM RunState.apply s = some s') :
    holdFold s.hold events = some s'.hold := by
  induction events generalizing s with
  | nil =>
    cases h
    rfl
  | cons e events ih =>
    rw [List.foldlM_cons, Option.bind_eq_bind, Option.bind_eq_some_iff] at h
    obtain ⟨s₁, happly, hrest⟩ := h
    rw [holdFold_cons, apply_holdStep happly, Option.bind_some]
    exact ih hrest

theorem project_hold {events : List Event} (h : project events = some run) :
    holdFold none events = some run.hold := by
  obtain ⟨s, hfold, rfl⟩ := Option.map_eq_some_iff.1 h
  exact foldlM_holdFold hfold

/-- The last span, where it is open. -/
def openSpan (spans : List HoldSpan) : Option HoldSpan :=
  spans.getLast?.filter fun span => span.release.isNone

theorem openSpan_concat (spans : List HoldSpan) (span : HoldSpan) :
    openSpan (spans ++ [span]) = if span.release.isNone then some span else none := by
  unfold openSpan
  rw [List.getLast?_concat, Option.filter_some]

theorem openSpan_eq_some {spans : List HoldSpan} {span : HoldSpan} :
    openSpan spans = some span ↔ spans.getLast? = some span ∧ span.release = none := by
  unfold openSpan
  rw [Option.filter_eq_some_iff, Option.isNone_iff_eq_none]

theorem holdsStep_closed {spans : List HoldSpan} (h : openSpan spans = none) (e : Event) :
    holdsStep spans e = if e.type_ = typeRunHeld then
      spans ++ [⟨Hold.onHeld none e, e.validFrom, e.revision, e.validFrom, none⟩] else spans := by
  unfold holdsStep
  rw [show (spans.getLast?.filter fun span => span.release.isNone) = none from h]

theorem holdsStep_open {spans : List HoldSpan} {span : HoldSpan} (h : openSpan spans = some span)
    (e : Event) : holdsStep spans e = if e.type_ = typeRunHeld then
      spans.dropLast ++ [{ span with
        hold := span.hold.bind fun hold => Hold.onHeld (some hold) e
        latestAt := e.validFrom }]
    else if e.type_ = typeRunReleased then spans.dropLast ++
      [{ span with release := some ⟨e.validFrom, e.revision, releasedHeldForS e.data⟩ }]
    else spans := by
  unfold holdsStep
  rw [show (spans.getLast?.filter fun span => span.release.isNone) = some span from h]

theorem openSpan_holdsStep (spans : List HoldSpan) (e : Event) : openSpan (holdsStep spans e) =
    if e.type_ = typeRunHeld then
      some (match openSpan spans with
        | some span => { span with
            hold := span.hold.bind fun hold => Hold.onHeld (some hold) e
            latestAt := e.validFrom }
        | none => ⟨Hold.onHeld none e, e.validFrom, e.revision, e.validFrom, none⟩)
    else if e.type_ = typeRunReleased then none
    else openSpan spans := by
  cases hopen : openSpan spans with
  | none =>
    rw [holdsStep_closed hopen]
    by_cases hheld : e.type_ = typeRunHeld
    · simp only [if_pos hheld, openSpan_concat, Option.isNone_none, if_true]
    · simp only [if_neg hheld, hopen, ite_self]
  | some span =>
    have hnone := (openSpan_eq_some.1 hopen).2
    rw [holdsStep_open hopen]
    by_cases hheld : e.type_ = typeRunHeld
    · simp only [if_pos hheld, openSpan_concat, hnone, Option.isNone_none, if_true]
    · by_cases hreleased : e.type_ = typeRunReleased
      · simp only [if_neg hheld, if_pos hreleased, openSpan_concat]
        rfl
      · simp only [if_neg hheld, if_neg hreleased, hopen]

theorem holds_concat (events : List Event) (e : Event) :
    holds (events ++ [e]) = holdsStep (holds events) e := by
  unfold holds
  rw [List.foldl_concat]

/-- The open span holds what the fold of the hold does, where that fold reads every event. -/
theorem openSpan_holds {events : List Event} {hold : Option Hold}
    (h : holdFold none events = some hold) : (openSpan (holds events)).map HoldSpan.hold =
      hold.map some := by
  induction events using List.reverseRecOn generalizing hold with
  | nil =>
    cases h
    rfl
  | append_singleton events e ih =>
    rw [holdFold_append, Option.bind_eq_some_iff] at h
    obtain ⟨before, hbefore, hlast⟩ := h
    rw [holdFold_cons, Option.bind_eq_some_iff] at hlast
    obtain ⟨after, hstep, hafter⟩ := hlast
    cases hafter
    have hopen := ih hbefore
    rw [holds_concat, openSpan_holdsStep]
    unfold holdStep at hstep
    by_cases hstarted : e.type_ = typeRunStarted
    · rw [if_pos hstarted] at hstep
      obtain ⟨_, -, rfl⟩ := Option.map_eq_some_iff.1 hstep
      rw [hstarted, if_neg (by decide), if_neg (by decide)]
      exact hopen
    · rw [if_neg hstarted] at hstep
      by_cases hheld : e.type_ = typeRunHeld
      · rw [if_pos hheld] at hstep ⊢
        obtain ⟨latest, hlatest, rfl⟩ := Option.map_eq_some_iff.1 hstep
        cases hspan : openSpan (holds events) with
        | none =>
          rw [hspan] at hopen
          cases before with
          | some _ => cases hopen
          | none => exact congrArg some hlatest
        | some span =>
          rw [hspan] at hopen
          cases before with
          | none => cases hopen
          | some hold =>
            have hspanned : span.hold = some hold := Option.some.inj hopen
            show some (span.hold.bind fun hold => Hold.onHeld (some hold) e) = some (some latest)
            rw [hspanned, Option.bind_some, hlatest]
      · rw [if_neg hheld] at hstep ⊢
        by_cases hreleased : e.type_ = typeRunReleased
        · rw [if_pos hreleased] at hstep ⊢
          cases hstep
          rfl
        · rw [if_neg hreleased] at hstep ⊢
          cases hstep
          exact hopen

/-! ## Where the spans lie -/

/-- The indices from a `RunHeld` that opens a hold to the `RunReleased` that ends it. -/
abbrev Range := Nat × Option Nat

def Within (i : Nat) (r : Range) : Prop := r.1 ≤ i ∧ ∀ j ∈ r.2, i < j

/-- The `RunHeld`s of a range. -/
def heldIn (events : List Event) (r : Range) : List Event :=
  ((events.take (r.2.getD events.length)).drop r.1).filter fun e => e.type_ == typeRunHeld

/-- The hold of a list of `RunHeld`s, none where one does not decode. -/
def heldFold : List Event → Option Hold
  | [] => none
  | e :: events => (Hold.onHeld none e).bind fun hold =>
      events.foldlM (fun hold e => Hold.onHeld (some hold) e) hold

/-- A range of the events and the span of the hold that stood over it. -/
structure SpanAt (events : List Event) (r : Range) (span : HoldSpan) : Prop where
  opened : ∃ e, events[r.1]? = some e ∧ e.type_ = typeRunHeld ∧ span.since = e.validFrom ∧
    span.first = e.revision
  ended : r.2 = none ∧ span.release = none ∨ ∃ j e, r.2 = some j ∧ r.1 < j ∧
    events[j]? = some e ∧ e.type_ = typeRunReleased ∧
    span.release = some ⟨e.validFrom, e.revision, releasedHeldForS e.data⟩
  folded : span.hold = heldFold (heldIn events r)
  latest : (heldIn events r).getLast?.map Event.validFrom = some span.latestAt

section
variable {events : List Event} {e : Event} {r : Range} {span : HoldSpan}

theorem heldFold_concat {held : List Event} (h : held ≠ []) (e : Event) :
    heldFold (held ++ [e]) = (heldFold held).bind fun hold => Hold.onHeld (some hold) e := by
  cases held with
  | nil => exact absurd rfl h
  | cons x held =>
    show (Hold.onHeld none x).bind (fun hold => (held ++ [e]).foldlM _ hold) =
      ((Hold.onHeld none x).bind _).bind _
    rw [Option.bind_assoc]
    refine congrArg _ (funext fun hold => ?_)
    rw [List.foldlM_append]
    refine congrArg _ (funext fun hold => ?_)
    rw [List.foldlM_cons]
    exact Option.bind_fun_some _

variable {i : Nat}

theorem heldIn_ended {j : Nat} (hj : j ≤ events.length) :
    heldIn (events ++ [e]) (i, some j) = heldIn events (i, some j) := by
  unfold heldIn
  rw [Option.getD_some, Option.getD_some, List.take_append_of_le_length hj]

/-- A range that ends at the next event holds what it held while it was open. -/
theorem heldIn_ends : heldIn (events ++ [e]) (i, some events.length) = heldIn events (i, none) := by
  unfold heldIn
  rw [Option.getD_some, Option.getD_none, List.take_left, List.take_length]

/-- An open range takes the next event where it is a `RunHeld`. -/
theorem heldIn_open (hi : i ≤ events.length) : heldIn (events ++ [e]) (i, none) =
    heldIn events (i, none) ++ if e.type_ = typeRunHeld then [e] else [] := by
  unfold heldIn
  rw [Option.getD_none, Option.getD_none, List.take_length, List.take_length,
    List.drop_append_of_le_length hi, List.filter_append]
  by_cases he : e.type_ = typeRunHeld
  · rw [if_pos he, List.filter_cons_of_pos (by simp [he]), List.filter_nil]
  · rw [if_neg he, List.filter_cons_of_neg (by simp [he]), List.filter_nil]

theorem SpanAt.lt_length (h : SpanAt events r span) : r.1 < events.length := by
  obtain ⟨e, he, -⟩ := h.opened
  exact (List.getElem?_eq_some_iff.1 he).1

theorem SpanAt.heldIn_ne_nil (h : SpanAt events r span) : heldIn events r ≠ [] := by
  intro hnil
  have hlatest := h.latest
  rw [hnil] at hlatest
  cases hlatest

theorem SpanAt.opened_append (h : SpanAt events r span) (e : Event) :
    ∃ x, (events ++ [e])[r.1]? = some x ∧ x.type_ = typeRunHeld ∧ span.since = x.validFrom ∧
      span.first = x.revision := by
  obtain ⟨x, hx, hopened⟩ := h.opened
  exact ⟨x, by rw [List.getElem?_append_left h.lt_length, hx], hopened⟩

theorem SpanAt.ended_lt (h : SpanAt events r span) {j : Nat} (hj : j ∈ r.2) :
    j < events.length ∧ span.release ≠ none := by
  rcases h.ended with ⟨hr, -⟩ | ⟨k, e, hr, -, he, -, hrelease⟩
  · rw [hr] at hj
    cases hj
  · rw [hr] at hj
    cases hj
    exact ⟨(List.getElem?_eq_some_iff.1 he).1, by rw [hrelease]; exact Option.some_ne_none _⟩

theorem SpanAt.append (h : SpanAt events r span) (hended : ∃ j, j ∈ r.2) (e : Event) :
    SpanAt (events ++ [e]) r span := by
  obtain ⟨j, hj⟩ := hended
  have hr : r = (r.1, some j) := Prod.ext rfl hj
  have hsame : heldIn (events ++ [e]) r = heldIn events r := by
    rw [hr]
    exact heldIn_ended (h.ended_lt hj).1.le
  refine ⟨h.opened_append e, ?_, by rw [hsame]; exact h.folded, by rw [hsame]; exact h.latest⟩
  rcases h.ended with ⟨hnone, -⟩ | ⟨k, x, hk, hlt, hx, hrest⟩
  · rw [hnone] at hj
    cases hj
  · refine Or.inr ⟨k, x, hk, hlt, ?_, hrest⟩
    rw [List.getElem?_append_left (List.getElem?_eq_some_iff.1 hx).1, hx]

theorem SpanAt.stays (h : SpanAt events r span) (hopen : r.2 = none) (he : e.type_ ≠ typeRunHeld) :
    SpanAt (events ++ [e]) r span := by
  have hr : r = (r.1, none) := Prod.ext rfl hopen
  have hsame : heldIn (events ++ [e]) r = heldIn events r := by
    rw [hr, heldIn_open h.lt_length.le, if_neg he, List.append_nil]
  refine ⟨h.opened_append e, ?_, by rw [hsame]; exact h.folded, by rw [hsame]; exact h.latest⟩
  rcases h.ended with hnone | ⟨j, x, hj, -⟩
  · exact Or.inl hnone
  · rw [hopen] at hj
    cases hj

theorem SpanAt.takes (h : SpanAt events r span) (hopen : r.2 = none) (he : e.type_ = typeRunHeld) :
    SpanAt (events ++ [e]) r { span with
      hold := span.hold.bind fun hold => Hold.onHeld (some hold) e
      latestAt := e.validFrom } := by
  have hr : r = (r.1, none) := Prod.ext rfl hopen
  have hmore : heldIn (events ++ [e]) r = heldIn events r ++ [e] := by
    rw [hr, heldIn_open h.lt_length.le, if_pos he]
  refine ⟨h.opened_append e, ?_, ?_, by rw [hmore, List.getLast?_concat]; rfl⟩
  · rcases h.ended with hnone | ⟨j, x, hj, -⟩
    · exact Or.inl hnone
    · rw [hopen] at hj
      cases hj
  · rw [hmore, heldFold_concat h.heldIn_ne_nil, ← h.folded]

theorem SpanAt.ends (h : SpanAt events r span) (hopen : r.2 = none)
    (he : e.type_ = typeRunReleased) : SpanAt (events ++ [e]) (r.1, some events.length)
      { span with release := some ⟨e.validFrom, e.revision, releasedHeldForS e.data⟩ } := by
  have hr : r = (r.1, none) := Prod.ext rfl hopen
  have hsame : heldIn (events ++ [e]) (r.1, some events.length) = heldIn events r := by
    rw [heldIn_ends, ← hr]
  refine ⟨h.opened_append e, ?_, by rw [hsame]; exact h.folded, by rw [hsame]; exact h.latest⟩
  refine Or.inr ⟨events.length, e, rfl, h.lt_length, ?_, he, rfl⟩
  rw [List.getElem?_append_right (Nat.le_refl _), Nat.sub_self]
  rfl

theorem SpanAt.opens (he : e.type_ = typeRunHeld) : SpanAt (events ++ [e]) (events.length, none)
    ⟨Hold.onHeld none e, e.validFrom, e.revision, e.validFrom, none⟩ := by
  have hheld : heldIn (events ++ [e]) (events.length, none) = [e] := by
    rw [heldIn_open (Nat.le_refl _), if_pos he]
    unfold heldIn
    rw [Option.getD_none, List.take_length, List.drop_length]
    rfl
  refine ⟨⟨e, ?_, he, rfl, rfl⟩, Or.inl ⟨rfl, rfl⟩, ?_, by rw [hheld]; rfl⟩
  · rw [List.getElem?_append_right (Nat.le_refl _), Nat.sub_self]
    rfl
  · rw [hheld]
    show _ = (Hold.onHeld none e).bind fun hold => some hold
    rw [Option.bind_fun_some]

end

/-- The spans of the events' holds, each with the range it stood over: in log order, an earlier one
ended before a later one opens, and every `RunHeld` lies in one. -/
structure Placed (events : List Event) (spans : List (Range × HoldSpan)) : Prop where
  holds_eq : spans.map Prod.snd = holds events
  spansAt : ∀ p ∈ spans, SpanAt events p.1 p.2
  inOrder : spans.Pairwise fun a b => ∃ j ∈ a.1.2, j < b.1.1
  covers : ∀ i e, events[i]? = some e → e.type_ = typeRunHeld → ∃ p ∈ spans, Within i p.1

namespace Placed

variable {events : List Event} {e : Event} {spans : List (Range × HoldSpan)}
  {r : Range} {span : HoldSpan}

theorem nil : Placed [] [] where
  holds_eq := rfl
  spansAt p hp := by cases hp
  inOrder := .nil
  covers i e he := by cases he

/-- A `RunHeld` of the longer log is one of the shorter or the event that was added. -/
theorem covers_append {spans' : List (Range × HoldSpan)} (h : Placed events spans)
    (hkept : ∀ i < events.length, ∀ p ∈ spans, Within i p.1 → ∃ p ∈ spans', Within i p.1)
    (hlast : e.type_ = typeRunHeld → ∃ p ∈ spans', Within events.length p.1) {i : Nat} {x : Event}
    (hx : (events ++ [e])[i]? = some x) (htype : x.type_ = typeRunHeld) :
    ∃ p ∈ spans', Within i p.1 := by
  by_cases hi : i < events.length
  · rw [List.getElem?_append_left hi] at hx
    obtain ⟨p, hp, hwithin⟩ := h.covers i x hx htype
    exact hkept i hi p hp hwithin
  · have hlt := (List.getElem?_eq_some_iff.1 hx).1
    rw [List.length_append, List.length_singleton] at hlt
    have heq : i = events.length := by omega
    subst heq
    rw [List.getElem?_append_right (Nat.le_refl _), Nat.sub_self] at hx
    cases hx
    exact hlast htype

theorem ended_of_closed (h : Placed events spans) (hclosed : openSpan (holds events) = none) :
    ∀ p ∈ spans, ∃ j, j ∈ p.1.2 := by
  rcases List.eq_nil_or_concat' spans with rfl | ⟨init, last, rfl⟩
  · simp
  · have hlast : ∃ j, j ∈ last.1.2 := by
      rcases (h.spansAt last (by simp)).ended with ⟨-, hrelease⟩ | ⟨j, e, hj, -⟩
      · rw [← h.holds_eq, List.map_append, List.map_singleton, openSpan_concat, hrelease] at hclosed
        cases hclosed
      · exact ⟨j, hj⟩
    intro p hp
    rcases List.mem_append.1 hp with hp | hp
    · obtain ⟨j, hj, -⟩ := (List.pairwise_append.1 h.inOrder).2.2 p hp last (by simp)
      exact ⟨j, hj⟩
    · rw [List.mem_singleton.1 hp]
      exact hlast

/-- An event behind spans that all ended opens one where it is a `RunHeld`. -/
theorem after_closed (h : Placed events spans) (hclosed : openSpan (holds events) = none) :
    ∃ spans', Placed (events ++ [e]) spans' := by
  have hended := h.ended_of_closed hclosed
  have hholds : holds (events ++ [e]) = if e.type_ = typeRunHeld then
      holds events ++ [⟨Hold.onHeld none e, e.validFrom, e.revision, e.validFrom, none⟩]
      else holds events := by
    rw [holds_concat, holdsStep_closed hclosed]
  by_cases he : e.type_ = typeRunHeld
  · rw [if_pos he] at hholds
    refine ⟨spans ++ [((events.length, none),
      ⟨Hold.onHeld none e, e.validFrom, e.revision, e.validFrom, none⟩)], ?_, ?_, ?_, ?_⟩
    · rw [hholds, List.map_append, h.holds_eq]
      rfl
    · intro p hp
      rcases List.mem_append.1 hp with hp | hp
      · exact (h.spansAt p hp).append (hended p hp) e
      · rw [List.mem_singleton.1 hp]
        exact SpanAt.opens he
    · refine List.pairwise_append.2 ⟨h.inOrder, List.pairwise_singleton _ _, fun a ha b hb => ?_⟩
      obtain ⟨j, hj⟩ := hended a ha
      rw [List.mem_singleton.1 hb]
      exact ⟨j, hj, ((h.spansAt a ha).ended_lt hj).1⟩
    · intro i x hx htype
      refine h.covers_append (fun i _ p hp hwithin => ⟨p, by simp [hp], hwithin⟩)
        (fun _ => ?_) hx htype
      exact ⟨_, List.mem_append_right _ (List.mem_singleton.2 rfl), Nat.le_refl _, by simp⟩
  · rw [if_neg he] at hholds
    refine ⟨spans, h.holds_eq.trans hholds.symm, ?_, h.inOrder, fun i x hx htype => ?_⟩
    · exact fun p hp => (h.spansAt p hp).append (hended p hp) e
    · refine h.covers_append (fun i _ p hp hwithin => ⟨p, hp, hwithin⟩) (fun h => ?_) hx htype
      exact absurd h he

theorem after_open (h : Placed events spans) {span : HoldSpan}
    (hopen : openSpan (holds events) = some span) : ∃ spans', Placed (events ++ [e]) spans' := by
  obtain ⟨hlast, hrelease⟩ := openSpan_eq_some.1 hopen
  rcases List.eq_nil_or_concat' spans with rfl | ⟨init, ⟨r, span'⟩, rfl⟩
  · rw [← h.holds_eq] at hlast
    cases hlast
  · have hspan : span' = span := by
      rw [← h.holds_eq, List.map_append, List.map_singleton, List.getLast?_concat] at hlast
      exact Option.some.inj hlast
    subst hspan
    have hinit : (init.map Prod.snd) = (holds events).dropLast := by
      rw [← h.holds_eq, List.map_append, List.map_singleton, List.dropLast_concat]
    have hat := h.spansAt (r, span') (by simp)
    have hr : r.2 = none := by
      rcases hat.ended with ⟨hr, -⟩ | ⟨j, x, -, -, -, -, hended⟩
      · exact hr
      · rw [hrelease] at hended
        cases hended
    obtain ⟨hbefore, -, horder⟩ := List.pairwise_append.1 h.inOrder
    have hended : ∀ p ∈ init, ∃ j, j ∈ p.1.2 := fun p hp => by
      obtain ⟨j, hj, -⟩ := horder p hp (r, span') (by simp)
      exact ⟨j, hj⟩
    -- the last span's end alone moves
    have hplaced : ∀ (r' : Range) (next : HoldSpan), r'.1 = r.1 →
        SpanAt (events ++ [e]) r' next →
        (holds events).dropLast ++ [next] = holds (events ++ [e]) →
        (∀ i < events.length, Within i r → Within i r') →
        (e.type_ = typeRunHeld → Within events.length r') →
        Placed (events ++ [e]) (init ++ [(r', next)]) := by
      intro r' next hfirst hnext hholds hkept hheld
      refine ⟨?_, ?_, ?_, ?_⟩
      · rw [List.map_append, hinit]
        exact hholds
      · intro p hp
        rcases List.mem_append.1 hp with hp | hp
        · exact (h.spansAt p (by simp [hp])).append (hended p hp) e
        · rw [List.mem_singleton.1 hp]
          exact hnext
      · refine List.pairwise_append.2 ⟨hbefore, List.pairwise_singleton _ _, fun a ha b hb => ?_⟩
        rw [List.mem_singleton.1 hb]
        obtain ⟨j, hj, hlt⟩ := horder a ha (r, span') (by simp)
        exact ⟨j, hj, by rw [hfirst]; exact hlt⟩
      · intro i x hx htype
        refine h.covers_append (fun i hi p hp hwithin => ?_) (fun he => ?_) hx htype
        · rcases List.mem_append.1 hp with hp | hp
          · exact ⟨p, by simp [hp], hwithin⟩
          · rw [List.mem_singleton.1 hp] at hwithin
            exact ⟨(r', next), by simp, hkept i hi hwithin⟩
        · exact ⟨(r', next), by simp, hheld he⟩
    have hstep : holds (events ++ [e]) = if e.type_ = typeRunHeld then
        (holds events).dropLast ++ [{ span' with
          hold := span'.hold.bind fun hold => Hold.onHeld (some hold) e
          latestAt := e.validFrom }]
      else if e.type_ = typeRunReleased then (holds events).dropLast ++
        [{ span' with release := some ⟨e.validFrom, e.revision, releasedHeldForS e.data⟩ }]
      else holds events := by
      rw [holds_concat, holdsStep_open hopen]
    have hwithin : Within events.length r :=
      ⟨hat.lt_length.le, fun j hj => by rw [hr] at hj; cases hj⟩
    by_cases he : e.type_ = typeRunHeld
    · rw [if_pos he] at hstep
      exact ⟨_, hplaced r _ rfl (hat.takes hr he) hstep.symm (fun _ _ h => h) fun _ => hwithin⟩
    · rw [if_neg he] at hstep
      by_cases hreleased : e.type_ = typeRunReleased
      · rw [if_pos hreleased] at hstep
        refine ⟨_, hplaced (r.1, some events.length) _ rfl (hat.ends hr hreleased) hstep.symm
          (fun i hi hin => ⟨hin.1, fun j hj => ?_⟩) fun h => absurd h he⟩
        cases hj
        exact hi
      · rw [if_neg hreleased] at hstep
        refine ⟨_, hplaced r span' rfl (hat.stays hr he) ?_ (fun _ _ h => h) fun h => absurd h he⟩
        rw [hstep]
        exact List.dropLast_append_getLast? _ hlast

end Placed

theorem exists_placed (events : List Event) : ∃ spans, Placed events spans := by
  induction events using List.reverseRecOn with
  | nil => exact ⟨[], Placed.nil⟩
  | append_singleton events e ih =>
    obtain ⟨spans, h⟩ := ih
    cases hopen : openSpan (holds events) with
    | none => exact h.after_closed hopen
    | some span => exact h.after_open hopen

theorem Placed.unique {events : List Event} {spans : List (Range × HoldSpan)}
    (h : Placed events spans) {i : Nat} {e : Event} (he : events[i]? = some e)
    (htype : e.type_ = typeRunHeld) :
    ∃! k : Nat, ∃ p : Range × HoldSpan, spans[k]? = some p ∧ Within i p.1 := by
  have hapart : ∀ (a b : Nat) (p q : Range × HoldSpan), a < b → spans[a]? = some p →
      spans[b]? = some q → Within i p.1 → ¬Within i q.1 := by
    intro a b p q hab hp hq hin hin'
    obtain ⟨ha, rfl⟩ := List.getElem?_eq_some_iff.1 hp
    obtain ⟨hb, rfl⟩ := List.getElem?_eq_some_iff.1 hq
    obtain ⟨j, hj, hlt⟩ := List.pairwise_iff_getElem.1 h.inOrder a b ha hb hab
    have := hin.2 j hj
    have := hin'.1
    omega
  obtain ⟨p, hp, hwithin⟩ := h.covers i e he htype
  obtain ⟨k, hk, rfl⟩ := List.getElem_of_mem hp
  refine ⟨k, ⟨_, List.getElem?_eq_getElem hk, hwithin⟩, ?_⟩
  rintro m ⟨q, hq, hin⟩
  rcases Nat.lt_trichotomy m k with hlt | heq | hlt
  · exact absurd hwithin (hapart m k q _ hlt hq (List.getElem?_eq_getElem hk) hin)
  · exact heq
  · exact absurd hin (hapart k m _ q hlt (List.getElem?_eq_getElem hk) hq hwithin)

/-- On a slice the state folds, the state's hold is the last span's where that span is open, and
the spans lie in log order with every `RunHeld` in exactly one. -/
theorem holds_agree {events : List Event} {run : RunState} (h : project events = some run) :
    ((∃ hold, run.hold = some hold) ↔
      ∃ span, (holds events).getLast? = some span ∧ span.release = none) ∧
    (∀ span, (holds events).getLast? = some span → span.release = none →
      ∃ hold, run.hold = some hold ∧ span.hold = some hold) ∧
    ∃ spans : List (Range × HoldSpan), spans.map Prod.snd = holds events ∧
      (∀ p ∈ spans, SpanAt events p.1 p.2) ∧
      (spans.Pairwise fun a b => ∃ j ∈ a.1.2, j < b.1.1) ∧
      ∀ i e, events[i]? = some e → e.type_ = typeRunHeld →
        ∃! k : Nat, ∃ p : Range × HoldSpan, spans[k]? = some p ∧ Within i p.1 := by
  have hsame := openSpan_holds (project_hold h)
  have hopen : ∀ span, (holds events).getLast? = some span → span.release = none →
      ∃ hold, run.hold = some hold ∧ span.hold = some hold := by
    intro span hlast hrelease
    rw [openSpan_eq_some.2 ⟨hlast, hrelease⟩] at hsame
    obtain ⟨hold, hhold, heq⟩ := Option.map_eq_some_iff.1 hsame.symm
    exact ⟨hold, hhold, heq.symm⟩
  refine ⟨⟨?_, ?_⟩, hopen, ?_⟩
  · rintro ⟨hold, hhold⟩
    rw [hhold] at hsame
    obtain ⟨span, hspan, -⟩ := Option.map_eq_some_iff.1 hsame
    exact ⟨span, openSpan_eq_some.1 hspan⟩
  · rintro ⟨span, hlast, hrelease⟩
    obtain ⟨hold, hhold, -⟩ := hopen span hlast hrelease
    exact ⟨hold, hhold⟩
  · obtain ⟨spans, hspans⟩ := exists_placed events
    exact ⟨spans, hspans.holds_eq, hspans.spansAt, hspans.inOrder,
      fun i e he htype => hspans.unique he htype⟩

/-- A run held, released and held again by its operator. -/
def heldTwice : List Event :=
  [Event.new ("e1", 5) typeRunStarted (.json (.obj [("run", .str "r1")])),
    Event.new ("e2", 6) typeRunHeld
      (.json (RunHeld.encode (heldBy "authentication_failed" "" holdByHost ""))),
    Event.new ("e3", 7) typeRunReleased (.json (.obj [("held_for_s", .num 1)])),
    Event.new ("e4", 8) typeRunHeld (.json (RunHeld.encode (heldBy operator "" holdByOperator "")))]

theorem holds_agree_heldTwice : ∃ run, project heldTwice = some run ∧
    ∃ span, (holds heldTwice).getLast? = some span ∧ span.release = none := by
  have hfolds : (project heldTwice).isSome = true := by
    rw [project, Option.isSome_map]
    exact (RunState.foldlM_apply RunState.new heldTwice).1.2 (by decide)
  obtain ⟨run, hrun⟩ := Option.isSome_iff_exists.1 hfolds
  have hheld : holdFold none heldTwice = some run.hold := project_hold hrun
  have hopen : (holdFold none heldTwice).any Option.isSome = true := by decide
  rw [hheld] at hopen
  exact ⟨run, hrun, (holds_agree hrun).1.1 (Option.isSome_iff_exists.1 hopen)⟩

end Rigger.Ledger
