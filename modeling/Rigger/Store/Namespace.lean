import Rigger.Store.Subscription

/-!
# Project namespaces (`rigger-store-sqlite/src/eventstore/namespace.rs`)

A project's store prefixes every stream it writes, scopes every global read to that prefix and
strips it from what it answers.  The backend matches the scope with `LIKE`, which folds letter case
and reads wildcards, where the prefix itself is literal: a project's reads answer exactly what it
appended where no stream of the log is taken by the one and not by the other
(`namespaced_reads_iff`).
-/

namespace Rigger

open Lib

/-- A store scoped to one project, as the prefix of its streams. -/
structure Namespaced where
  pre : String

namespace Namespaced

def prefixFor (project : String) : String := "proj-" ++ project ++ "-"

def scoping (project : String) : Namespaced := ⟨prefixFor project⟩

variable (n : Namespaced)

def scoped_ (stream : String) : String := n.pre ++ stream

/-- The caller's prefix, within the namespace. -/
def scopeFilter (filter : Filter) : Filter := ⟨some (n.pre ++ filter.streamPrefix.getD "")⟩

def stripEvent (e : Event) : Event :=
  match stripPrefix n.pre e.stream with
  | some rest => { e with stream := rest }
  | none => e

def strip (events : List Event) : List Event := events.map n.stripEvent

def append (s : Store) (stream : String) (expected : ExpectedRevision) (events : List Event)
    (now : SystemTime) : Except Error (Appended × Store) :=
  s.append (n.scoped_ stream) expected events now

def readAll (s : Store) (from_ : Nat) (dir : Direction) (filter : Filter) : List Event :=
  n.strip (s.readAll from_ dir (n.scopeFilter filter))

def readAllPage (s : Store) (from_ : Nat) (filter : Filter) (max : Nat) : List Event :=
  n.strip (s.readAllPage from_ (n.scopeFilter filter) max)

end Namespaced

namespace Store

/-! ## One backend, many projects -/

/-- A row with the project and the unscoped stream it was appended through. -/
structure Sent where
  project : String
  stream : String
  row : Row

/-- The backend beside one project's global subscription, with the run's own record of what was
appended through which project's store. -/
structure Shared where
  store : Store
  sent : List Sent
  state : Watermark
  delivered : List Event

inductive SharedTurn where
  | append (project stream : String) (expected : ExpectedRevision) (events : List Event)
      (now : SystemTime)
  | poll

/-- The projects a turn is made by. -/
def SharedTurn.Within (projects : Set String) : SharedTurn → Prop
  | .append project .. => project ∈ projects
  | .poll => True

def shared (from_ : Nat) : Shared := ⟨empty, [], subscribeAll from_, []⟩

/-- A turn of the run, with the subscription `project` opened under `filter`. -/
def sharedTurn (project : String) (filter : Filter) (c : Shared) : SharedTurn → Shared
  | .append writer stream expected events now =>
    let call := Call.append ((Namespaced.scoping writer).scoped_ stream) expected events now
    { c with
      store := c.store.exec call
      sent := c.sent ++ (c.store.added call).map fun r => ⟨writer, stream, r⟩ }
  | .poll =>
    let n := Namespaced.scoping project
    let events := c.store.pollAll c.state.position (likeOf (n.scopeFilter filter))
    { c with state := c.state.deliver events, delivered := c.delivered ++ n.strip events }

/-- What `project`'s reads past `from_` are to answer: what was appended through its own store to
the streams its filter names, under their unscoped names. -/
def ownEvents (project : String) (filter : Filter) (from_ : Nat) (sent : List Sent) : List Event :=
  (sent.filter fun x => decide (from_ < x.row.1) &&
    (x.project == project && (filter.streamPrefix.getD "").toList.isPrefixOf x.stream.toList)).map
    fun x => { rowToEvent x.row with stream := x.stream }

/-- Both reads, in every direction and at every cut, and the subscription answer exactly that. -/
structure Isolated (project : String) (filter : Filter) (from_ : Nat) (c : Shared) : Prop where
  forward : (Namespaced.scoping project).readAll c.store from_ .forward filter =
    ownEvents project filter from_ c.sent
  backward : (Namespaced.scoping project).readAll c.store from_ .backward filter =
    (ownEvents project filter from_ c.sent).reverse
  page : ∀ max, (Namespaced.scoping project).readAllPage c.store from_ filter max =
    (ownEvents project filter from_ c.sent).take max
  subscription : (sharedTurn project filter c .poll).delivered =
    ownEvents project filter from_ c.sent

/-- The prefix a global read of the project asks for. -/
def scopeOf (project : String) (filter : Filter) : String :=
  Namespaced.prefixFor project ++ filter.streamPrefix.getD ""

/-- Every stream past `from_` that `LIKE` takes for the scope starts with it. -/
def TakenLiterally (project : String) (filter : Filter) (from_ : Nat) (sent : List Sent) : Prop :=
  ∀ x ∈ sent, from_ < x.row.1 → likes (scopeOf project filter ++ "%") x.row.2.stream = true →
    (scopeOf project filter).toList <+: x.row.2.stream.toList

/-! ## Scopes -/

/-- Where no id before a dash is the start of another, a scope names one project. -/
theorem scope_prefix_iff {projects : Set String}
    (hapart : ∀ p ∈ projects, ∀ q ∈ projects,
      (p ++ "-").toList <+: (q ++ "-").toList → p = q)
    {project writer : String} (hp : project ∈ projects) (hw : writer ∈ projects)
    (filter : Filter) (stream : String) :
    (scopeOf project filter).toList <+:
        ((Namespaced.scoping writer).scoped_ stream).toList ↔
      writer = project ∧ (filter.streamPrefix.getD "").toList <+: stream.toList := by
  have hscope : ∀ p rest : String, (Namespaced.prefixFor p ++ rest).toList =
      "proj-".toList ++ ((p ++ "-").toList ++ rest.toList) := fun p rest => by
    simp [Namespaced.prefixFor]
  rw [scopeOf, Namespaced.scoped_, Namespaced.scoping, hscope, hscope, List.prefix_append_right_inj]
  constructor
  · intro h
    have heq : writer = project := by
      have hstart := (List.prefix_append (project ++ "-").toList _).trans h
      rcases List.prefix_or_prefix_of_prefix hstart (List.prefix_append (writer ++ "-").toList _)
        with hpw | hwp
      · exact (hapart project hp writer hw hpw).symm
      · exact hapart writer hw project hp hwp
    subst heq
    exact ⟨rfl, (List.prefix_append_right_inj _).1 h⟩
  · rintro ⟨rfl, h⟩
    exact (List.prefix_append_right_inj _).2 h

theorem likes_of_prefix {scope text : String} (h : scope.toList <+: text.toList) :
    likes (scope ++ "%") text = true := by
  obtain ⟨rest, hrest⟩ := h
  rw [likes, ← hrest, String.toList_append]
  exact like_prefix Char.toLower scope.toList rest

/-! ## Runs of the backend -/

/-- What holds of every run of the projects' appends. -/
structure Recorded (projects : Set String) (project : String) (filter : Filter) (from_ : Nat)
    (c : Shared) : Prop where
  ordered : c.store.Ordered
  rows : c.store.rows = c.sent.map Sent.row
  sent : ∀ x ∈ c.sent, x.project ∈ projects ∧
    x.row.2.stream = (Namespaced.scoping x.project).scoped_ x.stream
  polled : ∃ before after, c.store.rows = before ++ after ∧
    c.state.position = advance Prod.fst from_
      (poll Prod.fst (fun r : Row => likes (scopeOf project filter ++ "%") r.2.stream) from_
        before) ∧
    c.delivered = (poll Prod.fst (fun r : Row => likes (scopeOf project filter ++ "%") r.2.stream)
      from_ before).map fun r => (Namespaced.scoping project).stripEvent (rowToEvent r)

section
variable {projects : Set String} {project : String} {filter : Filter} {from_ : Nat} {c : Shared}

theorem recorded_shared : Recorded projects project filter from_ (shared from_) :=
  ⟨ordered_empty, rfl, by simp [shared], [], [], rfl, rfl, rfl⟩

/-- A poll catches up: together with those before it, it answers the whole log past the start. -/
theorem polled_turn (h : Recorded projects project filter from_ c) :
    (sharedTurn project filter c .poll).state.position = advance Prod.fst from_
        (poll Prod.fst (fun r : Row => likes (scopeOf project filter ++ "%") r.2.stream) from_
          c.store.rows) ∧
      (sharedTurn project filter c .poll).delivered =
        (poll Prod.fst (fun r : Row => likes (scopeOf project filter ++ "%") r.2.stream) from_
          c.store.rows).map fun r => (Namespaced.scoping project).stripEvent (rowToEvent r) := by
  obtain ⟨before, after, hsplit, hmark, hdelivered⟩ := h.polled
  have hsorted : (before ++ after).Pairwise fun a b => a.1 < b.1 := hsplit ▸ c.store.sorted
  have hpolled : poll Prod.fst (fun r : Row => likes (scopeOf project filter ++ "%") r.2.stream)
      from_ before ++ poll Prod.fst _ (advance Prod.fst from_ _) (before ++ after) =
        poll Prod.fst _ from_ (before ++ after) := poll_append hsorted from_
  constructor
  · show (c.state.deliver ((poll Prod.fst (fun r : Row =>
      likes (scopeOf project filter ++ "%") r.2.stream) c.state.position c.store.rows).map
        rowToEvent)).position = _
    rw [(Watermark.deliver_eq _ _).1, advance_map, hmark, hsplit, ← hpolled, advance_append]
    rfl
  · show c.delivered ++ ((poll Prod.fst (fun r : Row =>
      likes (scopeOf project filter ++ "%") r.2.stream) c.state.position c.store.rows).map
        rowToEvent).map (Namespaced.scoping project).stripEvent = _
    rw [hdelivered, hmark, hsplit, ← hpolled, List.map_append, List.map_map]
    rfl

theorem recorded_turn (h : Recorded projects project filter from_ c) {t : SharedTurn}
    (ht : t.Within projects) :
    Recorded projects project filter from_ (sharedTurn project filter c t) := by
  cases t with
  | append writer stream expected events now =>
    obtain ⟨before, after, hsplit, hpolled⟩ := h.polled
    obtain ⟨hrows, hstream⟩ := rows_exec_append h.ordered
      ((Namespaced.scoping writer).scoped_ stream) expected events now
    refine ⟨ordered_exec h.ordered
      (.append ((Namespaced.scoping writer).scoped_ stream) expected events now), ?_,
      fun x hx => ?_, before, after ++ c.store.added
        (.append ((Namespaced.scoping writer).scoped_ stream) expected events now), ?_, hpolled⟩
    · show (c.store.exec _).rows = (c.sent ++ (c.store.added _).map _).map Sent.row
      rw [hrows, h.rows, List.map_append, List.map_map]
      exact congrArg _ (List.map_id _).symm
    · rcases List.mem_append.1 hx with hx | hx
      · exact h.sent x hx
      · obtain ⟨r, hr, rfl⟩ := List.mem_map.1 hx
        exact ⟨ht, hstream r hr⟩
    · show (c.store.exec _).rows = _
      rw [hrows, hsplit, List.append_assoc]
  | poll =>
    exact ⟨h.ordered, h.rows, h.sent, c.store.rows, [], (List.append_nil _).symm, polled_turn h⟩

theorem stripEvent_sent {x : Sent} (hproject : x.project = project)
    (hstream : x.row.2.stream = (Namespaced.scoping x.project).scoped_ x.stream) :
    (Namespaced.scoping project).stripEvent (rowToEvent x.row) =
      { rowToEvent x.row with stream := x.stream } := by
  have hstrip : stripPrefix (Namespaced.scoping project).pre (rowToEvent x.row).stream =
      some x.stream := by
    show stripPrefix _ x.row.2.stream = _
    rw [hstream, hproject]
    exact stripPrefix_append _ _
  rw [Namespaced.stripEvent, hstrip]

section
variable (hapart : ∀ p ∈ projects, ∀ q ∈ projects, (p ++ "-").toList <+: (q ++ "-").toList → p = q)
  (hp : project ∈ projects) (h : Recorded projects project filter from_ c)
include hapart hp h

/-- A stream that starts with the scope is the project's own, under the filter. -/
theorem sent_prefix_iff {x : Sent} (hx : x ∈ c.sent) :
    (scopeOf project filter).toList <+: x.row.2.stream.toList ↔
      (x.project == project &&
        (filter.streamPrefix.getD "").toList.isPrefixOf x.stream.toList) = true := by
  obtain ⟨hw, hstream⟩ := h.sent x hx
  rw [hstream, scope_prefix_iff hapart hp hw, Bool.and_eq_true, beq_iff_eq,
    List.isPrefixOf_iff_prefix]

/-- The forward read answers what is to be answered exactly where the scope is taken literally. -/
theorem forward_iff : (Namespaced.scoping project).readAll c.store from_ .forward filter =
    ownEvents project filter from_ c.sent ↔ TakenLiterally project filter from_ c.sent := by
  have hread : (Namespaced.scoping project).readAll c.store from_ .forward filter =
      (c.sent.filter fun x => decide (from_ < x.row.1) &&
        likes (scopeOf project filter ++ "%") x.row.2.stream).map fun x =>
          (Namespaced.scoping project).stripEvent (rowToEvent x.row) := by
    show ((c.store.rows.filter _).map rowToEvent).map _ = _
    rw [h.rows, List.filter_map, List.map_map, List.map_map]
    rfl
  rw [hread, ownEvents]
  constructor
  · intro heq x hx hfrom hlikes
    -- the row's position is answered, so it is that of a row to be answered
    have hpositions := congrArg (List.map Event.position) heq
    rw [List.map_map, List.map_map] at hpositions
    have hstrip : ∀ e : Event, ((Namespaced.scoping project).stripEvent e).position = e.position :=
      fun e => by
        unfold Namespaced.stripEvent
        split <;> rfl
    have hmem : x.row.1 ∈ (c.sent.filter fun x => decide (from_ < x.row.1) &&
        likes (scopeOf project filter ++ "%") x.row.2.stream).map
          (Event.position ∘ fun x => (Namespaced.scoping project).stripEvent (rowToEvent x.row)) :=
      List.mem_map.2 ⟨x, List.mem_filter.2 ⟨hx, by rw [decide_eq_true hfrom, hlikes]; rfl⟩,
        hstrip _⟩
    rw [hpositions] at hmem
    obtain ⟨y, hy, hposition⟩ := List.mem_map.1 hmem
    obtain ⟨hy, hown⟩ := List.mem_filter.1 hy
    have hrow : y.row = x.row := by
      refine Table.eq_of_position (t := c.store) ?_ ?_ hposition
      · rw [h.rows]
        exact List.mem_map_of_mem hy
      · rw [h.rows]
        exact List.mem_map_of_mem hx
    rw [← hrow]
    exact (sent_prefix_iff hapart hp h hy).2 (Bool.and_eq_true_iff.1 hown).2
  · intro hliteral
    have hsame : (c.sent.filter fun x => decide (from_ < x.row.1) &&
        likes (scopeOf project filter ++ "%") x.row.2.stream) =
        c.sent.filter fun x => decide (from_ < x.row.1) && (x.project == project &&
          (filter.streamPrefix.getD "").toList.isPrefixOf x.stream.toList) := by
      apply List.filter_congr
      intro x hx
      by_cases hfrom : from_ < x.row.1
      · rw [decide_eq_true hfrom, Bool.true_and, Bool.true_and, Bool.eq_iff_iff,
          ← sent_prefix_iff hapart hp h hx]
        exact ⟨hliteral x hx hfrom, likes_of_prefix⟩
      · rw [decide_eq_false hfrom, Bool.false_and, Bool.false_and]
    rw [hsame]
    apply List.map_congr_left
    intro x hx
    obtain ⟨hx, hown⟩ := List.mem_filter.1 hx
    exact stripEvent_sent (beq_iff_eq.1 (Bool.and_eq_true_iff.1 (Bool.and_eq_true_iff.1 hown).2).1)
      (h.sent x hx).2

/-- The other reads and the subscription answer what the forward read does. -/
theorem isolated_iff :
    Isolated project filter from_ c ↔ TakenLiterally project filter from_ c.sent := by
  rw [← forward_iff hapart hp h]
  refine ⟨Isolated.forward, fun hforward => ⟨hforward, ?_, fun max => ?_, ?_⟩⟩
  · rw [← hforward]
    exact List.map_reverse
  · rw [← hforward]
    exact List.map_take
  · rw [← hforward, (polled_turn h).2]
    show _ = (List.map rowToEvent _).map (Namespaced.scoping project).stripEvent
    rw [List.map_map]
    rfl

end

end

/-- The answers of a project's reads and of its global subscription, at every point of every run
of appends by projects of which none's id before a dash starts another's: they are exactly what it
appended under the filter, in log order and under unscoped names, exactly where every stream past
the start that `LIKE` takes for the scope starts with it literally. -/
theorem namespaced_reads_iff {projects : Set String}
    (hapart : ∀ p ∈ projects, ∀ q ∈ projects,
      (p ++ "-").toList <+: (q ++ "-").toList → p = q)
    {project : String} (hp : project ∈ projects) (filter : Filter) (from_ : Nat)
    {turns : List SharedTurn} (hturns : ∀ t ∈ turns, t.Within projects) :
    Isolated project filter from_ (run (sharedTurn project filter) (shared from_) turns) ↔
      TakenLiterally project filter from_
        (run (sharedTurn project filter) (shared from_) turns).sent := by
  refine isolated_iff hapart hp (run_invariant_along (I := Recorded projects project filter from_)
    (fun c t ht h => recorded_turn h ht) (along_of_forall hturns) recorded_shared)

/-- Two ids that differ in letter case alone. -/
def caseTurns : List SharedTurn :=
  [.append "alpha" "run" .any [Event.new ("e1", 7) typeDecisionMade (.json .null)] 7]

/-- One project reads what the other appended. -/
theorem case_not_isolated :
    (∀ p ∈ ({"alpha", "ALPHA"} : Set String), (∀ c ∈ p.toList, isWildcard c = false) ∧
      ∀ q ∈ ({"alpha", "ALPHA"} : Set String),
        (p ++ "-").toList <+: (q ++ "-").toList → p = q) ∧
    (∀ t ∈ caseTurns, t.Within {"alpha", "ALPHA"}) ∧
    ¬Isolated "ALPHA" ⟨none⟩ 0 (run (sharedTurn "ALPHA" ⟨none⟩) (shared 0) caseTurns) := by
  refine ⟨?_, by simp [caseTurns, SharedTurn.Within], fun h => ?_⟩
  · rintro p (rfl | rfl)
    · refine ⟨by simp [isWildcard], ?_⟩
      rintro q (rfl | rfl)
      · exact fun _ => rfl
      · exact fun hpre => absurd (List.isPrefixOf_iff_prefix.2 hpre) (by decide)
    · refine ⟨by simp [isWildcard], ?_⟩
      rintro q (rfl | rfl)
      · exact fun hpre => absurd (List.isPrefixOf_iff_prefix.2 hpre) (by decide)
      · exact fun _ => rfl
  · exact absurd h.forward (by decide)

/-- A project that appends beside another reads what it appended. -/
theorem namespaced_reads_iff_case :
    Isolated "alpha" ⟨none⟩ 0 (run (sharedTurn "alpha" ⟨none⟩) (shared 0)
      (caseTurns ++ [.poll, .append "beta" "run" .any
        [Event.new ("e2", 8) typeDecisionMade (.json .null)] 8])) := by
  refine (@namespaced_reads_iff {"alpha", "beta"} ?_ _ (.inl rfl) ⟨none⟩ 0 _ ?_).2 ?_
  · rintro p (rfl | rfl) q (rfl | rfl) hpre
    · rfl
    · exact absurd (List.isPrefixOf_iff_prefix.2 hpre) (by decide)
    · exact absurd (List.isPrefixOf_iff_prefix.2 hpre) (by decide)
    · rfl
  · simp [caseTurns, SharedTurn.Within]
  · unfold TakenLiterally
    decide

end Store

end Rigger
