import Rigger.Graph.Cursor

/-!
# What is read of the log

A catch-up reads a page past its cursor with no lock held, a rebuild the live selection past where
its file stands.  Both name every live position of the stretch they cover (`pageFrom_readPage`,
`handed_sourceParts`), and whatever is appended to the log or migrated meanwhile they still do
(`PageFrom.later`, `Handed.later`): nothing comes to be live below what the log had issued.
-/

namespace Rigger.Graph

open Lib

/-! ## Parts -/

theorem flatten_foldTransactions (events : List Event) :
    (foldTransactions events).flatten = events := by
  rw [foldTransactions, flatten_flatMap (flatten_chunks _), List.flatten_splitBy]

theorem ne_nil_of_mem_foldTransactions {events part : List Event}
    (h : part ∈ foldTransactions events) : part ≠ [] := by
  obtain ⟨run, -, hpart⟩ := List.mem_flatMap.1 h
  exact ne_nil_of_mem_chunks _ hpart

theorem Page.run_eq (p : Page) : ∃ rest, p.run = p.part ++ rest := by
  have hflatten := flatten_foldTransactions p.run
  unfold Page.part
  cases hparts : foldTransactions p.run with
  | nil =>
    rw [hparts] at hflatten
    exact ⟨[], hflatten.symm⟩
  | cons part parts =>
    rw [hparts] at hflatten
    exact ⟨parts.flatten, hflatten.symm⟩

/-! ## Pages -/

/-- The positions of a log's live selection. -/
def live (project : String) (s : Store) : Set Nat := {p | p ∈ livePositions project s}

/-- A later log has issued no less; up to what was issued, nothing comes to be live. -/
structure Later (project : String) (s s' : Store) : Prop where
  issued : s.seq ≤ s'.seq
  live : ∀ p ∈ live project s', p ≤ s.seq → p ∈ live project s

/-- What a call that reads a page of a log knows of it, then and at every later moment. -/
structure PageFrom (project : String) (s : Store) (p : Page) : Prop where
  sorted : (p.events.map Event.position).Pairwise (· < ·)
  past : ∀ e ∈ p.events, p.from_ < e.position
  spans : Spans (live project s) p.from_ (p.run.map Event.position) p.last
  issued : p.last ≤ s.seq

section
variable {project : String} {s s' : Store}

theorem live_le {p : Nat} (h : p ∈ live project s) : p ≤ s.seq := Store.readLivePositions_le h

theorem live_pos {p : Nat} (h : p ∈ live project s) : 0 < p := Store.readLivePositions_pos h

theorem Later.refl : Later project s s := ⟨le_rfl, fun _ hp _ => hp⟩

theorem later_exec (h : s.Ordered) (call : Call) : Later project s (s.exec call) := by
  refine ⟨?_, fun p hp hle => ?_⟩
  · rw [Store.seq_exec h]
    exact Nat.le_add_right _ _
  · rcases Store.live_exec h call hp with hlive | hnew
    · exact hlive
    · omega

section
variable {p : Page} (hp : PageFrom project s p)
include hp

theorem PageFrom.later (h : Later project s s') : PageFrom project s' p :=
  ⟨hp.sorted, hp.past, hp.spans.grow fun q hq hle => h.live q hq (hle.trans hp.issued),
    hp.issued.trans h.issued⟩

theorem PageFrom.sorted_run : (p.run.map Event.position).Pairwise (· < ·) :=
  hp.sorted.sublist (List.Sublist.map _ List.filter_sublist)

theorem PageFrom.le_last {e : Event} (he : e ∈ p.events) : e.position ≤ p.last := by
  unfold Page.last
  cases hlast : p.events.getLast? with
  | none =>
    rw [List.getLast?_eq_none_iff.1 hlast] at he
    cases he
  | some last =>
    refine le_last_of_sorted hp.sorted ?_ e.position (List.mem_map_of_mem he)
    rw [List.getLast?_map, hlast]
    rfl

theorem PageFrom.through_le_last : p.through ≤ p.last := by
  unfold Page.through
  cases hlast : p.part.getLast? with
  | none => exact le_rfl
  | some last =>
    dsimp only
    split
    · obtain ⟨rest, hrest⟩ := p.run_eq
      have hmem : last ∈ p.run := by
        rw [hrest]
        exact List.mem_append_left _ (List.mem_of_getLast? hlast)
      exact hp.le_last (List.mem_of_mem_filter hmem)
    · exact le_rfl

/-- The part the cut folds spans all the way to where the cut moves the cursor. -/
theorem PageFrom.spans_part :
    Spans (live project s) p.from_ (p.part.map Event.position) p.through := by
  obtain ⟨rest, hrest⟩ := p.run_eq
  have hspans := hp.spans
  have hsorted := hp.sorted_run
  have hthrough := hp.through_le_last
  rw [hrest, List.map_append] at hspans hsorted
  unfold Page.through at hthrough ⊢
  have hwhole : p.run.length ≤ p.part.length →
      Spans (live project s) p.from_ (p.part.map Event.position) p.last := by
    intro hle
    rw [hrest, List.length_append] at hle
    have hnil : rest = [] := List.length_eq_zero_iff.1 (by omega)
    rwa [hnil, List.map_nil, List.append_nil] at hspans
  cases hlast : p.part.getLast? with
  | none =>
    -- a page with an empty part has nothing of the run
    have hpart : p.part = [] := List.getLast?_eq_none_iff.1 hlast
    have hparts : foldTransactions p.run = [] := by
      by_contra hne
      obtain ⟨part, parts, hcons⟩ := List.exists_cons_of_ne_nil hne
      have hmem : part ∈ foldTransactions p.run := by rw [hcons]; simp
      refine ne_nil_of_mem_foldTransactions hmem ?_
      unfold Page.part at hpart
      rwa [hcons] at hpart
    have hrun : p.run = [] := by
      rw [← flatten_foldTransactions p.run, hparts]
      rfl
    exact hwhole (by rw [hrun]; exact Nat.zero_le _)
  | some last =>
    rw [hlast] at hthrough
    dsimp only at hthrough ⊢
    split
    · next hlt =>
      rw [if_pos hlt] at hthrough
      refine hspans.first hsorted ?_ hthrough
      rw [List.getLast?_map, hlast]
      rfl
    · next hge => exact hwhole (by omega)

end

/-! ### A page as the log is read -/

/-- The rows a page of the project may hold, in position order. -/
def scopedRows (project : String) (s : Store) : List Row :=
  s.rows.filter fun r =>
    Store.likes (Store.likeOf ((Namespaced.scoping project).scopeFilter ⟨none⟩)) r.2.stream

theorem sorted_scopedRows (project : String) (s : Store) :
    ((scopedRows project s).map Prod.fst).Pairwise (· < ·) :=
  List.pairwise_map.2 (s.sorted.sublist List.filter_sublist)

theorem stripEvent_position (n : Namespaced) (e : Event) :
    (n.stripEvent e).position = e.position := by
  unfold Namespaced.stripEvent
  split <;> rfl

theorem readPage_eq (from_ : Nat) : readPage project s from_ =
    (((scopedRows project s).filter fun r => from_ < r.1).take foldBatchSize).map fun r =>
      (Namespaced.scoping project).stripEvent (Store.rowToEvent r) := by
  show ((List.map Store.rowToEvent _).take foldBatchSize).map _ = _
  rw [← List.map_take, List.map_map, scopedRows, List.filter_filter]
  rfl

theorem readPage_positions (project : String) (s : Store) (from_ : Nat) :
    (readPage project s from_).map Event.position =
      (((scopedRows project s).map Prod.fst).filter fun p => from_ < p).take foldBatchSize := by
  rw [readPage_eq, List.map_map, List.filter_map, ← List.map_take]
  exact List.map_congr_left fun r _ => stripEvent_position _ _

/-- A live position is of a row the page's scope takes, and is handed under the stream's own
name. -/
theorem live_scoped {p : Nat} (hp : p ∈ live project s) : ∃ r ∈ scopedRows project s, r.1 = p ∧
    ((Namespaced.scoping project).stripEvent (Store.rowToEvent r)).stream = runStream := by
  obtain ⟨r, hr, hpos, -⟩ := Store.mem_readLivePositions.1 hp
  obtain ⟨hrow, hstream⟩ := Store.mem_streamRows.1 hr
  refine ⟨r, List.mem_filter.2 ⟨hrow, ?_⟩, hpos, ?_⟩
  · have hscope : (runPrefix project ++ "").toList <+: r.2.stream.toList := by
      rw [hstream, String.toList_append, String.toList_append]
      exact (List.prefix_append_right_inj _).2 List.nil_prefix
    exact Store.likes_of_prefix hscope
  · have hstrip : stripPrefix (Namespaced.scoping project).pre (Store.rowToEvent r).stream =
        some runStream := by
      show stripPrefix _ r.2.stream = _
      rw [hstream]
      exact stripPrefix_append _ _
    rw [Namespaced.stripEvent, hstrip]

theorem pageFrom_readPage {from_ : Nat} (hne : readPage project s from_ ≠ []) :
    PageFrom project s ⟨from_, readPage project s from_⟩ := by
  have hpositions := readPage_positions project s from_
  have hsorted := sorted_scopedRows project s
  have hlast : Page.last ⟨from_, readPage project s from_⟩ =
      (((readPage project s from_).map Event.position).getLast?).getD from_ := by
    rw [List.getLast?_map]
    rfl
  constructor
  · rw [hpositions]
    exact hsorted.sublist ((List.take_sublist _ _).trans List.filter_sublist)
  · intro e he
    have hmem : e.position ∈ (readPage project s from_).map Event.position :=
      List.mem_map_of_mem he
    rw [hpositions] at hmem
    exact of_decide_eq_true (List.mem_filter.1 (List.mem_of_mem_take hmem)).2
  · intro p hp hpast hle
    rw [hlast] at hle
    cases hend : ((readPage project s from_).map Event.position).getLast? with
    | none =>
      rw [hend] at hle
      exact absurd hle (Nat.not_le_of_lt hpast)
    | some x =>
      rw [hend] at hle
      obtain ⟨r, hr, rfl, hstream⟩ := live_scoped hp
      rw [hpositions] at hend
      have hspanned := spans_take hsorted from_ foldBatchSize hend r.1 (List.mem_map_of_mem hr)
        hpast hle
      rw [List.filter_map, ← List.map_take] at hspanned
      obtain ⟨r', hr', hpos⟩ := List.mem_map.1 hspanned
      obtain rfl : r' = r := Table.eq_of_position
        (List.mem_filter.1 (List.mem_filter.1 (List.mem_of_mem_take hr')).1).1
        (List.mem_filter.1 hr).1 hpos
      refine List.mem_map.2 ⟨_, List.mem_filter.2 ⟨?_, beq_iff_eq.2 hstream⟩,
        stripEvent_position _ _⟩
      rw [readPage_eq]
      exact List.mem_map_of_mem hr'
  · rw [hlast]
    cases hend : ((readPage project s from_).map Event.position).getLast? with
    | none => exact absurd (List.map_eq_nil_iff.1 (List.getLast?_eq_none_iff.1 hend)) hne
    | some x =>
      have hmem := List.mem_of_getLast? hend
      rw [hpositions] at hmem
      obtain ⟨r, hr, rfl⟩ := List.mem_map.1 (List.mem_filter.1 (List.mem_of_mem_take hmem)).1
      exact (s.issued r (List.mem_filter.1 hr).1).2

/-! ## Sources -/

/-- What a rebuild has still to fold hands every live position from where its file stands to the
head its source was read at. -/
structure Handed (project : String) (s : Store) (from_ head : Nat) (parts : List (List Event)) :
    Prop where
  nonempty : ∀ part ∈ parts, part ≠ []
  sorted : (parts.flatten.map Event.position).Pairwise (· < ·)
  past : ∀ e ∈ parts.flatten, from_ < e.position ∧ e.position ≤ head
  spans : Spans (live project s) from_ (parts.flatten.map Event.position) head
  issued : head ≤ s.seq

/-- The last position of a part. -/
def partEnd (part : List Event) : Nat := (part.getLast?.map Event.position).getD 0

theorem handed_sourceParts (from_ : Nat) :
    Handed project s from_ s.seq (sourceParts project s from_) := by
  have hflatten : (sourceParts project s from_).flatten =
      s.readLiveSelection (runPrefix project) runStream from_ := by
    rw [sourceParts, flatten_flatMap flatten_foldTransactions, flatten_chunks]
  have hpositions := s.readLiveSelection_positions (runPrefix project) runStream from_
  constructor
  · intro part hpart
    obtain ⟨batch, -, hpart⟩ := List.mem_flatMap.1 hpart
    exact ne_nil_of_mem_foldTransactions hpart
  · rw [hflatten, hpositions]
    exact (Store.sorted_readLivePositions _ _ _).sublist List.filter_sublist
  · intro e he
    rw [hflatten] at he
    have hmem : e.position ∈ (s.readLiveSelection (runPrefix project) runStream from_).map
        Event.position := List.mem_map_of_mem he
    rw [hpositions] at hmem
    obtain ⟨hlive, hpast⟩ := List.mem_filter.1 hmem
    exact ⟨of_decide_eq_true hpast, Store.readLivePositions_le hlive⟩
  · intro p hp hpast _
    rw [hflatten, hpositions]
    exact List.mem_filter.2 ⟨hp, decide_eq_true hpast⟩
  · exact le_rfl

section
variable {from_ head : Nat} {part : List Event} {parts : List (List Event)}

theorem Handed.later (h : Handed project s from_ head parts) (hlater : Later project s s') :
    Handed project s' from_ head parts :=
  ⟨h.nonempty, h.sorted, h.past,
    h.spans.grow fun p hp hle => hlater.live p hp (hle.trans h.issued),
    h.issued.trans hlater.issued⟩

variable (h : Handed project s from_ head (part :: parts))
include h

theorem Handed.partEnd_eq : (part.map Event.position).getLast? = some (partEnd part) := by
  cases hlast : part.getLast? with
  | none =>
    exact absurd (List.getLast?_eq_none_iff.1 hlast) (h.nonempty part List.mem_cons_self)
  | some last =>
    unfold partEnd
    rw [List.getLast?_map, hlast]
    rfl

theorem Handed.partEnd_past : from_ < partEnd part ∧ partEnd part ≤ head := by
  obtain ⟨e, he, heq⟩ := List.mem_map.1 (List.mem_of_getLast? h.partEnd_eq)
  rw [← heq]
  exact h.past e (List.mem_append_left _ he)

theorem Handed.first :
    Spans (live project s) from_ (part.map Event.position) (partEnd part) := by
  have hspans := h.spans
  have hsorted := h.sorted
  rw [List.flatten_cons, List.map_append] at hspans hsorted
  exact hspans.first hsorted h.partEnd_eq h.partEnd_past.2

theorem Handed.rest : Handed project s (partEnd part) head parts := by
  have hspans := h.spans
  have hsorted := h.sorted
  rw [List.flatten_cons, List.map_append] at hspans hsorted
  refine ⟨fun part hpart => h.nonempty part (List.mem_cons_of_mem _ hpart),
    (List.pairwise_append.1 hsorted).2.1, fun e he => ⟨?_, ?_⟩,
    hspans.after hsorted h.partEnd_eq (Nat.le_of_lt h.partEnd_past.1), h.issued⟩
  · exact (List.pairwise_append.1 hsorted).2.2 (partEnd part)
      (List.mem_of_getLast? h.partEnd_eq) e.position (List.mem_map_of_mem he)
  · exact (h.past e (List.mem_append_right _ he)).2

end

end

end Rigger.Graph
