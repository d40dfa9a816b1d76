import Rigger.Graph.Tables

/-!
# The prune and its preview (`sqlite.rs`, `prune_in` and `count_prunable`)

`GraphFile` is the slice of a shared `graph.db` the prune reads and writes: the rows of every
project, each under its project's column.  The prune cascades from the listed nodes to their edges
before its boundary delete runs, so `countPrunable` leaves the cascaded edges out of its second
count.  Both ledgers are read across projects, as the statements read them.
-/

namespace Rigger.Graph

open Lib

/-- A row under its project's column. -/
structure Owned (α : Type) where
  project : String
  row : α
deriving DecidableEq

structure GraphFile where
  nodes : List (Owned (String × Node))
  edges : List (Owned Edge)
  edgeAssertions : List (Owned EdgeAssertion)
  detached : List (Owned Detached)
deriving DecidableEq

structure PruneStats where
  nodes : Nat
  supersededEdges : Nat
deriving DecidableEq, Repr

/-- `DELETE`: the rows left, and how many the condition took. -/
def deleteWhere {α : Type} (p : α → Bool) (rows : List α) : List α × Nat :=
  (rows.filter fun r => !p r, rows.countP p)

namespace GraphFile

variable (file : GraphFile) (project : String) (ids : List String)

/-! ## The conditions of the statements -/

def nodeListed (n : Owned (String × Node)) : Bool := ids.contains n.row.1 && n.project == project

def touches (e : Owned Edge) : Bool := ids.contains e.row.from_ || ids.contains e.row.to_

/-- What the cascade takes with the listed nodes. -/
def cascades (e : Owned Edge) : Bool := touches ids e && e.project == project

/-- `UNASSERTED_EDGE_SQL`: no entry names the edge. -/
def unassertedEdge (e : Owned Edge) : Bool := file.edgeAssertions.all fun a =>
    a.row.edge != e.row.id

def undetached (e : Owned Edge) : Bool := file.detached.all fun d => d.row.edge != e.row.id

/-- `valid_to < before`, which the NULL of a live edge is not. -/
def retiredBefore (before : Int) (e : Owned Edge) : Bool :=
  e.row.validTo.any fun to_ => decide (to_ < before)

/-- `superseded_edges_sql`: what the history prune reclaims. -/
def supersededEdge (before : Int) (e : Owned Edge) : Bool :=
  retiredBefore before e && e.project == project && file.unassertedEdge e && file.undetached e

/-! ## The prune and its preview -/

def countPrunable (before : Option Int) : PruneStats where
  nodes := file.nodes.countP (nodeListed project ids)
  supersededEdges :=
    match before with
    | some before => file.edges.countP fun e => file.supersededEdge project before e &&
        !ids.contains e.row.from_ && !ids.contains e.row.to_
    | none => 0

def pruneIn (before : Option Int) : GraphFile × PruneStats :=
  let edges := (deleteWhere (cascades project ids) file.edges).1
  let (nodes, dropped) := deleteWhere (nodeListed project ids) file.nodes
  let cascaded := { file with edges := edges, nodes := nodes }
  match before with
  | some before =>
    let (edges, reclaimed) := deleteWhere (cascaded.supersededEdge project before) cascaded.edges
    ({ cascaded with edges := edges }, ⟨dropped, reclaimed⟩)
  | none => (cascaded, ⟨dropped, 0⟩)

/-! ## What a prune removes -/

/-- An edge the prune has no more use for: retired before the boundary, and kept by neither
ledger. -/
def Superseded (before : Option Int) (e : Owned Edge) : Prop :=
  (∃ boundary ∈ before, ∃ to_ ∈ e.row.validTo, to_ < boundary) ∧
    (∀ a ∈ file.edgeAssertions, a.row.edge ≠ e.row.id) ∧
    ∀ d ∈ file.detached, d.row.edge ≠ e.row.id

/-- The edges of the project a prune removes. -/
def Prunes (before : Option Int) (e : Owned Edge) : Prop :=
  e.project = project ∧ (e.row.from_ ∈ ids ∨ e.row.to_ ∈ ids ∨ file.Superseded before e)

variable {file project ids}

@[simp] theorem nodeListed_iff {n : Owned (String × Node)} :
    nodeListed project ids n = true ↔ n.row.1 ∈ ids ∧ n.project = project := by
  simp [nodeListed]

variable {e : Owned Edge}

theorem touches_iff : touches ids e = true ↔ e.row.from_ ∈ ids ∨ e.row.to_ ∈ ids := by
  simp [touches]

@[simp] theorem cascades_iff :
    cascades project ids e = true ↔
      e.project = project ∧ (e.row.from_ ∈ ids ∨ e.row.to_ ∈ ids) := by
  simp [cascades, touches_iff, and_comm]

@[simp] theorem supersededEdge_mk (nodes : List (Owned (String × Node))) (edges : List (Owned Edge))
    (before : Int) :
    ({ file with nodes := nodes, edges := edges } : GraphFile).supersededEdge project before =
      file.supersededEdge project before := rfl

@[simp] theorem supersededEdge_iff {before : Int} :
    file.supersededEdge project before e = true ↔
      e.project = project ∧ file.Superseded (some before) e := by
  simp only [supersededEdge, retiredBefore, unassertedEdge, undetached, Superseded,
    Bool.and_eq_true,
    Option.any_eq_true, decide_eq_true_eq, beq_iff_eq, List.all_eq_true, bne_iff_ne, Option.mem_def,
    Option.some.injEq, exists_eq_left']
  tauto

theorem not_superseded_none : ¬file.Superseded none e := by
  rintro ⟨⟨_, h, _⟩, -⟩
  cases h

variable {before : Option Int}

theorem not_superseded_of_live (h : e.row.isLive = true) : ¬file.Superseded before e := by
  rintro ⟨⟨_, -, to_, hto, -⟩, -⟩
  rw [Edge.isLive, Option.isNone_iff_eq_none] at h
  rw [h] at hto
  cases hto

theorem prunes_none : file.Prunes project ids none e ↔ cascades project ids e = true := by
  rw [cascades_iff, Prunes, or_iff_left not_superseded_none]

theorem prunes_some {before : Int} :
    file.Prunes project ids (some before) e ↔
      cascades project ids e = true ∨ file.supersededEdge project before e = true := by
  rw [cascades_iff, supersededEdge_iff, Prunes, ← and_or_left, or_assoc]

instance (before : Option Int) (e : Owned Edge) : Decidable (file.Prunes project ids before e) :=
  match before with
  | none => decidable_of_iff _ prunes_none.symm
  | some _ => decidable_of_iff _ prunes_some.symm

/-! ## Rows after a prune -/

theorem pruneIn_nodes (before : Option Int) :
    (file.pruneIn project ids before).1.nodes =
      file.nodes.filter fun n => !nodeListed project ids n := by
  cases before <;> rfl

theorem pruneIn_ledgers (before : Option Int) :
    (file.pruneIn project ids before).1.edgeAssertions = file.edgeAssertions ∧
      (file.pruneIn project ids before).1.detached = file.detached := by
  cases before <;> exact ⟨rfl, rfl⟩

theorem pruneIn_edges (before : Option Int) :
    (file.pruneIn project ids before).1.edges =
      file.edges.filter fun e => ¬file.Prunes project ids before e := by
  cases before with
  | none =>
    apply List.filter_congr
    intro e _
    rw [Bool.eq_iff_iff, decide_eq_true_iff, prunes_none, Bool.not_eq_true', Bool.not_eq_true]
  | some before =>
    show List.filter _ (List.filter _ file.edges) = _
    rw [List.filter_filter]
    apply List.filter_congr
    intro e _
    rw [Bool.eq_iff_iff, decide_eq_true_iff, prunes_some, supersededEdge_mk, not_or]
    simp only [Bool.and_eq_true, Bool.not_eq_true', Bool.not_eq_true, and_comm]

/-- The prune leaves the ledgers alone, so it keeps nothing it would prune again. -/
theorem prunes_pruneIn (before : Option Int) :
    (file.pruneIn project ids before).1.Prunes project ids before =
      file.Prunes project ids before := by
  funext e
  rw [Prunes, Prunes, Superseded, Superseded, (pruneIn_ledgers before).1,
    (pruneIn_ledgers before).2]

/-! ## The counts -/

/-- The preview counts what the prune answers: the edges the cascade takes are gone before the
boundary delete counts. -/
theorem countPrunable_eq_pruneIn (before : Option Int) :
    file.countPrunable project ids before = (file.pruneIn project ids before).2 := by
  cases before with
  | none => rfl
  | some before =>
    have hedges : (file.edges.countP fun e => file.supersededEdge project before e &&
        !ids.contains e.row.from_ && !ids.contains e.row.to_) =
        (file.edges.filter fun e => !cascades project ids e).countP
          (file.supersededEdge project before) := by
      rw [List.countP_filter]
      apply List.countP_congr
      intro e _
      simp only [Bool.and_eq_true, Bool.not_eq_true', ← Bool.not_eq_true, cascades_iff,
        supersededEdge_iff, List.contains_iff_mem]
      tauto
    rw [countPrunable, hedges]
    rfl

theorem pruneIn_of_clean (hnodes : ∀ n ∈ file.nodes, nodeListed project ids n = false)
    (hedges : ∀ e ∈ file.edges, ¬file.Prunes project ids before e) :
    file.pruneIn project ids before = (file, ⟨0, 0⟩) := by
  have hstats : (file.pruneIn project ids before).2 = ⟨0, 0⟩ := by
    rw [← countPrunable_eq_pruneIn, countPrunable.eq_def]
    congr 1
    · rw [List.countP_eq_zero]
      intro n hn
      rw [hnodes n hn]
      exact Bool.false_ne_true
    · cases before with
      | none => rfl
      | some before =>
        rw [List.countP_eq_zero]
        intro e he h
        simp only [Bool.and_eq_true] at h
        exact hedges e he (prunes_some.2 (.inr h.1.1))
  have hfile : (file.pruneIn project ids before).1 = file := by
    have hn : (file.pruneIn project ids before).1.nodes = file.nodes := by
      rw [pruneIn_nodes, List.filter_eq_self]
      intro n hn
      rw [hnodes n hn]
      rfl
    have he : (file.pruneIn project ids before).1.edges = file.edges := by
      rw [pruneIn_edges, List.filter_eq_self]
      exact fun e he => decide_eq_true (hedges e he)
    obtain ⟨ha, hd⟩ : (file.pruneIn project ids before).1.edgeAssertions = file.edgeAssertions ∧
        (file.pruneIn project ids before).1.detached = file.detached := pruneIn_ledgers before
    rw [← show GraphFile.mk _ _ _ _ = (file.pruneIn project ids before).1 from rfl, hn, he, ha, hd]
  exact Prod.ext hfile hstats

/-- The preview answers what the prune removes, which is the listed nodes, every edge touching one
and every superseded edge of the project, and nothing a second prune would still find. -/
theorem prune_preview (file : GraphFile) (project : String) (ids : List String)
    (before : Option Int) :
    let after := (file.pruneIn project ids before).1
    file.countPrunable project ids before = (file.pruneIn project ids before).2 ∧
      after.nodes = file.nodes.filter (fun n => ¬(n.project = project ∧ n.row.1 ∈ ids)) ∧
      after.edges = file.edges.filter (fun e => ¬file.Prunes project ids before e) ∧
      after.edgeAssertions = file.edgeAssertions ∧ after.detached = file.detached ∧
      (after.nodes.filter fun n => n.project ≠ project) =
        file.nodes.filter (fun n => n.project ≠ project) ∧
      (after.edges.filter fun e => e.project ≠ project) =
        file.edges.filter (fun e => e.project ≠ project) ∧
      (after.edges.filter fun e => e.row.isLive ∧ e.row.from_ ∉ ids ∧ e.row.to_ ∉ ids) =
        file.edges.filter (fun e => e.row.isLive ∧ e.row.from_ ∉ ids ∧ e.row.to_ ∉ ids) ∧
      after.pruneIn project ids before = (after, ⟨0, 0⟩) := by
  intro after
  have hnodes : after.nodes =
      file.nodes.filter fun n => ¬(n.project = project ∧ n.row.1 ∈ ids) := by
    rw [show after.nodes = _ from pruneIn_nodes before]
    apply List.filter_congr
    intro n _
    rw [Bool.eq_iff_iff, decide_eq_true_iff, Bool.not_eq_true', ← Bool.not_eq_true, nodeListed_iff,
      and_comm]
  have hedges : after.edges = file.edges.filter fun e => ¬file.Prunes project ids before e :=
    pruneIn_edges before
  refine ⟨countPrunable_eq_pruneIn before, hnodes, hedges, (pruneIn_ledgers before).1,
    (pruneIn_ledgers before).2, ?_, ?_, ?_, ?_⟩
  · rw [hnodes, List.filter_filter]
    apply List.filter_congr
    intro n _
    by_cases h : n.project = project <;> simp [h]
  · rw [hedges, List.filter_filter]
    apply List.filter_congr
    intro e _
    by_cases h : e.project = project <;> simp [h, Prunes]
  · rw [hedges, List.filter_filter]
    apply List.filter_congr
    intro e _
    rw [Bool.eq_iff_iff]
    simp only [Bool.and_eq_true, decide_eq_true_iff, and_iff_left_iff_imp]
    rintro ⟨hlive, hfrom, hto⟩ ⟨-, h | h | h⟩
    · exact hfrom h
    · exact hto h
    · exact not_superseded_of_live hlive h
  · apply pruneIn_of_clean
    · intro n hn
      rw [show after.nodes = _ from pruneIn_nodes before] at hn
      simpa using (List.mem_filter.1 hn).2
    · intro e he
      rw [hedges] at he
      rw [show after.Prunes project ids before = _ from prunes_pruneIn before]
      exact of_decide_eq_true (List.mem_filter.1 he).2

end GraphFile

end Rigger.Graph
