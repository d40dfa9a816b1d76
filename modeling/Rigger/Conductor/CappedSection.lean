import Rigger.Conductor.Wave
import Rigger.Graph.Neighborhood
import Rigger.Lib.Grouped
import Rigger.Lib.Ranked
import Rigger.Lib.Worklist

/-!
# Budgeted prompt sections (`rigger-conductor/src/conductor.rs`)

`write_capped_section` ranks the nodes of a kind that have a summary, drops all but the first of
those that say the same, and renders the longest slice from the front that stays under a count and a
byte cap.  What the slice refers to, through any edges among the ranked nodes, is restored behind
it, and what is left out is counted in one note.

A node is known by its id throughout, so nodes that share an id are taken for one another.
-/

namespace Rigger.Conductor

open Lib Rigger.Graph

/-! ## The budget -/

section
variable {T : Type} (verbatimN budgetBytes : Nat) (size : T → Nat)

def withinBudgetFrom (used kept : Nat) : List T → List T
  | [] => []
  | entry :: rest =>
    if kept ≥ verbatimN ∨ used + size entry > budgetBytes then []
    else entry :: withinBudgetFrom (used + size entry) (kept + 1) rest

def withinBudget (entries : List T) : List T :=
  withinBudgetFrom verbatimN budgetBytes size 0 0 entries

end

/-! ## The section -/

def recordRecovery : String := "read one by id with `rigger graph --show <id>` (the " ++
  "`rigger_graph` tool's `show`; its `around` on a file lists the ids)"

/-- The newest source of a node's own edges of the relation. -/
def recencyByOwnEdge (g : KnowledgeGraph) (recencyRel : Rel) : Std.ExtTreeMap String Nat :=
  gather compare max 0
    ((g.edges.filter (·.rel == recencyRel)).map fun e => (e.from_, e.source))

def summary (n : GraphNode) : String := n.attrs["summary"]?.getD ""

/-- What two nodes that say the same share. -/
def content (n : GraphNode) : String := normalizeWs (summary n)

/-- A header, the entries of a slice, what the caller restores behind them, and a note of how many
candidates are neither. -/
def renderCappedSection (header : String) (candidates : List GraphNode)
    (verbatimN budgetBytes : Nat) (line : GraphNode → String)
    (restore : Std.ExtTreeSet String → Option (List GraphNode)) (note : Nat → String) :
    Option String :=
  if candidates.isEmpty then some ""
  else
    let slice := withinBudget verbatimN budgetBytes (fun entry => entry.2.utf8ByteSize)
      (candidates.map fun n => (n, line n))
    let renderedIds : Std.ExtTreeSet String := .ofList (slice.map (·.1.id))
    (restore renderedIds).map fun restored =>
      let ids := restored.foldl (fun ids n => ids.insert n.id) renderedIds
      let elided := (candidates.filter fun n => !ids.contains n.id).length
      header ++ "\n" ++ String.join (slice.map (·.2)) ++ String.join (restored.map line) ++
        (if elided > 0 then note elided else "") ++ "\n"

/-- The arguments of `write_capped_section` other than the graph and the seed. -/
structure CappedSection where
  kind : NodeKind
  recencyRel : Rel
  header : String
  noun : String
  verbatimN : Nat
  budgetBytes : Nat
  byRelevance : Bool
  line : GraphNode → String

namespace CappedSection

variable (s : CappedSection) (g : KnowledgeGraph) (seed : List String)

def listed (n : GraphNode) : Bool :=
  n.kind == s.kind && n.attrs["summary"]?.any (· ≠ "")

/-- The seed files each node's own edges of the relation reach. -/
def relevance : Std.ExtTreeMap String (Std.ExtTreeSet String) :=
  if s.byRelevance then
    groupedSets ((g.edges.filter fun e => e.rel == s.recencyRel && seed.contains e.to_).map fun e =>
      (e.from_, e.to_))
  else ∅

def relevanceOf (id : String) : Nat := ((s.relevance g seed)[id]?.map (·.size)).getD 0

def recencyOf (id : String) : Nat := (recencyByOwnEdge g s.recencyRel)[id]?.getD 0

/-- The most relevant first, then the newest, then by id. -/
def rankCmp (a c : GraphNode) : Ordering :=
  (compare (s.relevanceOf g seed c.id) (s.relevanceOf g seed a.id)).then
    ((compare (s.recencyOf g c.id) (s.recencyOf g a.id)).then (compare a.id c.id))

def ranked : List GraphNode :=
  (g.nodes.filter s.listed).mergeSort fun a c => (s.rankCmp g seed a c).isLE

end CappedSection

/-! ## A ranked list -/

section
variable (s : CappedSection) (g : KnowledgeGraph) (ranked : List GraphNode)

def candidates : List GraphNode := firsts content ranked

/-- The edges among the ranked nodes. -/
def refs : Std.ExtTreeMap String (Std.ExtTreeSet String) :=
  let byId : Std.ExtTreeSet String := .ofList (ranked.map (·.id))
  groupedSets ((g.edges.filter fun e => byId.contains e.from_ && byId.contains e.to_).map fun e =>
    (e.from_, e.to_))

def targets (from_ : String) : List String := ((refs g ranked)[from_]?.map (·.toList)).getD []

/-- What the slice refers to, but for the slice, in ranked order. -/
def restore (fuel : Nat) (renderedIds : Std.ExtTreeSet String) : Option (List GraphNode) :=
  (Worklist.run (targets g ranked) fuel (.start renderedIds.toList)).map fun reached =>
    ranked.filter fun n => reached.contains n.id && !renderedIds.contains n.id

def CappedSection.note (elided : Nat) : String :=
  "- (+" ++ toString elided ++ " older " ++ s.noun ++
    "(s) elided to keep this prompt under budget - " ++ recordRecovery ++ ")\n"

def CappedSection.writeRanked (fuel : Nat) : Option String :=
  renderCappedSection s.header (candidates ranked) s.verbatimN s.budgetBytes s.line
    (restore g ranked fuel) s.note

end

def writeCappedSection (s : CappedSection) (g : KnowledgeGraph) (seed : List String) (fuel : Nat) :
    Option String := s.writeRanked g (s.ranked g seed) fuel

/-! ## The longest slice the caps allow -/

section
variable {T : Type} {verbatimN budgetBytes : Nat} {size : T → Nat}

theorem withinBudgetFrom_map {S : Type} (f : S → T) (used kept : Nat) (entries : List S) :
    withinBudgetFrom verbatimN budgetBytes size used kept (entries.map f) =
      (withinBudgetFrom verbatimN budgetBytes
      (fun entry => size (f entry)) used kept entries).map f := by
  induction entries generalizing used kept with
  | nil => rfl
  | cons entry rest ih =>
    rw [List.map_cons, withinBudgetFrom, withinBudgetFrom, ih]
    split
    · rfl
    · rfl

theorem withinBudgetFrom_prefix (used kept : Nat) (entries : List T) :
    withinBudgetFrom verbatimN budgetBytes size used kept entries <+: entries := by
  induction entries generalizing used kept with
  | nil => exact List.prefix_refl _
  | cons entry rest ih =>
    unfold withinBudgetFrom
    split
    · exact List.nil_prefix
    · exact List.prefix_cons_inj entry |>.2 (ih _ _)

variable {used kept : Nat}

theorem withinBudgetFrom_length (hkept : kept ≤ verbatimN) (entries : List T) :
    kept + (withinBudgetFrom verbatimN budgetBytes size used kept entries).length ≤ verbatimN := by
  induction entries generalizing used kept with
  | nil => exact hkept
  | cons entry rest ih =>
    unfold withinBudgetFrom
    split
    · exact hkept
    · next h =>
      rw [List.length_cons, Nat.add_comm _ 1, ← Nat.add_assoc]
      exact ih (by omega)

theorem withinBudgetFrom_bytes (hused : used ≤ budgetBytes) (entries : List T) :
    used + ((withinBudgetFrom verbatimN budgetBytes size used kept entries).map size).sum ≤
      budgetBytes := by
  induction entries generalizing used kept with
  | nil => exact hused
  | cons entry rest ih =>
    unfold withinBudgetFrom
    split
    · exact hused
    · next h =>
      rw [List.map_cons, List.sum_cons, ← Nat.add_assoc]
      exact ih (by omega)

/-- The first entry that crosses a cap crosses it in every longer slice. -/
theorem withinBudgetFrom_longest {entries slice : List T} (h : slice <+: entries)
    (hlength : kept + slice.length ≤ verbatimN)
    (hbytes : used + (slice.map size).sum ≤ budgetBytes) :
    slice <+: withinBudgetFrom verbatimN budgetBytes size used kept entries := by
  induction entries generalizing used kept slice with
  | nil => rwa [withinBudgetFrom]
  | cons entry rest ih =>
    cases slice with
    | nil => exact List.nil_prefix
    | cons first slice =>
      obtain ⟨rfl, hrest⟩ := List.cons_prefix_cons.1 h
      simp only [List.length_cons, List.map_cons, List.sum_cons] at hlength hbytes
      rw [withinBudgetFrom, if_neg (by omega), List.prefix_cons_inj]
      exact ih hrest (by omega) (by omega)

end

/-! ## The ranking -/

namespace CappedSection

variable {s : CappedSection} {g g' : KnowledgeGraph} {seed : List String}

variable (s g seed) in
theorem rankCmp_eq : s.rankCmp g seed =
    compareLex (fun a c => compareOn (fun n : GraphNode => s.relevanceOf g seed n.id) c a)
      (compareLex (fun a c => compareOn (fun n : GraphNode => s.recencyOf g n.id) c a)
        (compareOn (·.id))) := rfl

instance : Std.TransCmp (s.rankCmp g seed) := by
  have hrelevance : Std.TransCmp fun a c =>
      compareOn (fun n : GraphNode => s.relevanceOf g seed n.id) c a := .opposite
  have hrecency : Std.TransCmp fun a c =>
      compareOn (fun n : GraphNode => s.recencyOf g n.id) c a := .opposite
  rw [rankCmp_eq]
  infer_instance

theorem id_of_rankCmp {a c : GraphNode} (hac : (s.rankCmp g seed a c).isLE = true)
    (hca : (s.rankCmp g seed c a).isLE = true) : a.id = c.id := by
  have heq : s.rankCmp g seed a c = .eq := Std.OrientedCmp.isLE_antisymm hac hca
  rw [rankCmp, Ordering.then_eq_eq, Ordering.then_eq_eq] at heq
  exact Std.LawfulEqCmp.compare_eq_iff_eq.1 heq.2.2

theorem rank_trans (a b c : GraphNode) (hab : (s.rankCmp g seed a b).isLE = true)
    (hbc : (s.rankCmp g seed b c).isLE = true) : (s.rankCmp g seed a c).isLE = true :=
  Std.TransCmp.isLE_trans hab hbc

theorem rank_total (a b : GraphNode) :
    ((s.rankCmp g seed a b).isLE || (s.rankCmp g seed b a).isLE) = true := by
  have hswap : s.rankCmp g seed b a = (s.rankCmp g seed a b).swap := Std.OrientedCmp.eq_swap
  rw [hswap]
  cases s.rankCmp g seed a b <;> rfl

theorem pairwise_ranked :
    (s.ranked g seed).Pairwise fun a c => (s.rankCmp g seed a c).isLE = true :=
  List.pairwise_mergeSort rank_trans rank_total _

theorem ranked_perm : (s.ranked g seed).Perm (g.nodes.filter s.listed) := List.mergeSort_perm _ _

end CappedSection

/-! ## The references -/

section
variable {s : CappedSection} {g : KnowledgeGraph} {ranked : List GraphNode}

/-- An edge leads from the one id to the other, both of ranked nodes. -/
def Refers (g : KnowledgeGraph) (ranked : List GraphNode) (from_ to_ : String) : Prop :=
  from_ ∈ ranked.map (·.id) ∧ to_ ∈ ranked.map (·.id) ∧
    ∃ e ∈ g.edges, e.from_ = from_ ∧ e.to_ = to_

theorem mem_targets {from_ to_ : String} :
    to_ ∈ targets g ranked from_ ↔ Refers g ranked from_ to_ := by
  rw [targets, refs, mem_groupedSets, List.mem_map]
  simp only [List.mem_filter, Bool.and_eq_true, Std.ExtTreeSet.contains_ofList,
    List.contains_iff_mem, Prod.mk.injEq]
  constructor
  · rintro ⟨e, ⟨he, hfrom, hto⟩, rfl, rfl⟩
    exact ⟨hfrom, hto, e, he, rfl, rfl⟩
  · rintro ⟨hfrom, hto, e, he, rfl, rfl⟩
    exact ⟨e, ⟨he, hfrom, hto⟩, rfl, rfl⟩

theorem targets_bounded (from_ to_ : String) (h : to_ ∈ targets g ranked from_) :
    to_ ∈ g.edges.map (·.to_) := by
  obtain ⟨-, -, e, he, -, rfl⟩ := mem_targets.1 h
  exact List.mem_map_of_mem he

variable (g ranked) in
/-- What is restored: the ranked nodes that are reached from the slice and not of it. -/
theorem restore_ends (renderedIds : Std.ExtTreeSet String) :
    ∃ restored, Ends (fun fuel => restore g ranked fuel renderedIds) restored ∧
      restored.Sublist ranked ∧
      ∀ n, n ∈ restored ↔ n ∈ ranked ∧ n.id ∉ renderedIds ∧
        ∃ id ∈ renderedIds, Relation.ReflTransGen (Refers g ranked) id n.id := by
  obtain ⟨reached, hends, hreached⟩ :=
    Worklist.run_closure (targets g ranked) targets_bounded renderedIds.toList
  have hrefers : (fun x y => y ∈ targets g ranked x) = Refers g ranked :=
    funext fun x => funext fun y => propext mem_targets
  rw [hrefers] at hreached
  refine ⟨_, hends.map _, List.filter_sublist, fun n => ?_⟩
  rw [List.mem_filter, Bool.and_eq_true, Bool.not_eq_true', Std.ExtTreeSet.contains_iff_mem,
    ← Bool.not_eq_true, Std.ExtTreeSet.contains_iff_mem, hreached]
  simp only [Std.ExtTreeSet.mem_toList]
  exact and_congr_right fun _ => and_comm

/-! ## What a section holds -/

/-- The candidates no rendered node has the id of. -/
def elided (candidates rendered : List GraphNode) : List GraphNode :=
  candidates.filter fun n => n.id ∉ rendered.map (·.id)

def CappedSection.bytes (s : CappedSection) (n : GraphNode) : Nat := (s.line n).utf8ByteSize

/-- The section is a slice of the candidates and what is restored behind it. -/
structure CappedSection.Reads (s : CappedSection) (g : KnowledgeGraph)
    (ranked slice restored : List GraphNode) (text : String) : Prop where
  leading : slice <+: candidates ranked
  count : slice.length ≤ s.verbatimN
  bytes : (slice.map s.bytes).sum ≤ s.budgetBytes
  longest : ∀ other, other <+: candidates ranked → other.length ≤ s.verbatimN →
    (other.map s.bytes).sum ≤ s.budgetBytes → other <+: slice
  restored_ranked : restored.Sublist ranked
  mem_restored : ∀ n, n ∈ restored ↔ n ∈ ranked ∧ n.id ∉ slice.map (·.id) ∧
    ∃ m ∈ slice, Relation.ReflTransGen (Refers g ranked) m.id n.id
  text_eq : text = if candidates ranked = [] then "" else
    s.header ++ "\n" ++ String.join ((slice ++ restored).map s.line) ++
      (if (elided (candidates ranked) (slice ++ restored)).length > 0
        then s.note (elided (candidates ranked) (slice ++ restored)).length else "") ++ "\n"

variable (s ranked) in
def CappedSection.slice : List GraphNode :=
  withinBudget s.verbatimN s.budgetBytes s.bytes (candidates ranked)

variable (s ranked) in
def CappedSection.text (restored : List GraphNode) : String :=
  if candidates ranked = [] then "" else
    s.header ++ "\n" ++ String.join ((s.slice ranked ++ restored).map s.line) ++
      (if (elided (candidates ranked) (s.slice ranked ++ restored)).length > 0
        then s.note (elided (candidates ranked) (s.slice ranked ++ restored)).length else "") ++
      "\n"

theorem contains_foldl_insert {nodes : List GraphNode} {ids : List String} {id : String} :
    (nodes.foldl (fun ids n => ids.insert n.id) (Std.ExtTreeSet.ofList ids)).contains id =
      decide (id ∈ ids ++ nodes.map (·.id)) := by
  have hmap : nodes.foldl (fun ids n => ids.insert n.id) (Std.ExtTreeSet.ofList ids) =
      (nodes.map (·.id)).foldl (fun ids id => ids.insert id) (.ofList ids) := List.foldl_map.symm
  rw [hmap, Bool.eq_iff_iff, Std.ExtTreeSet.contains_iff_mem, mem_foldl_insert,
    Std.ExtTreeSet.mem_ofList, List.contains_iff_mem, decide_eq_true_iff, List.mem_append]

theorem writeRanked_eq (fuel : Nat) : s.writeRanked g ranked fuel =
    if candidates ranked = [] then some ""
    else (restore g ranked fuel (.ofList ((s.slice ranked).map (·.id)))).map (s.text ranked) := by
  have hslice : withinBudget s.verbatimN s.budgetBytes (fun entry => entry.2.utf8ByteSize)
      ((candidates ranked).map fun n => (n, s.line n)) =
      (s.slice ranked).map fun n => (n, s.line n) := withinBudgetFrom_map _ 0 0 _
  rw [CappedSection.writeRanked, renderCappedSection]
  by_cases hnil : candidates ranked = []
  · rw [if_pos (by rw [hnil]; rfl), if_pos hnil]
  · rw [if_neg (by rwa [List.isEmpty_iff]), if_neg hnil, hslice]
    simp only [List.map_map]
    congr 1
    funext restored
    have helided : (candidates ranked).filter (fun n => !(restored.foldl
          (fun ids n => ids.insert n.id)
          (Std.ExtTreeSet.ofList ((s.slice ranked).map (·.id)))).contains
            n.id) = elided (candidates ranked) (s.slice ranked ++ restored) := by
      rw [elided]
      apply List.filter_congr
      intro n _
      rw [contains_foldl_insert, List.map_append, decide_not]
    rw [CappedSection.text, if_neg hnil, List.map_append, String.join_append, ← String.append_assoc,
      ← helided]
    rfl

variable (s g ranked) in
theorem writeRanked_reads : ∃ slice restored text,
    Ends (fun fuel => s.writeRanked g ranked fuel) text ∧
    s.Reads g ranked slice restored text := by
  obtain ⟨restored, hends, hsublist, hrestored⟩ :=
    restore_ends g ranked (.ofList ((s.slice ranked).map (·.id)))
  have hids : ∀ id, id ∈ Std.ExtTreeSet.ofList ((s.slice ranked).map (·.id)) ↔
      id ∈ (s.slice ranked).map (·.id) := fun id => by
    rw [Std.ExtTreeSet.mem_ofList, List.contains_iff_mem]
  have htext : Ends (fun fuel => s.writeRanked g ranked fuel) (s.text ranked restored) := by
    simp only [writeRanked_eq]
    by_cases hnil : candidates ranked = []
    · simp only [CappedSection.text, if_pos hnil]
      exact ⟨0, fun _ _ => rfl⟩
    · simp only [if_neg hnil]
      exact hends.map _
  refine ⟨s.slice ranked, restored, _, htext, ?_⟩
  exact
    { leading := withinBudgetFrom_prefix 0 0 _
      count := by
        have hcount : 0 + (s.slice ranked).length ≤ s.verbatimN :=
          withinBudgetFrom_length (Nat.zero_le _) _
        rwa [Nat.zero_add] at hcount
      bytes := by
        have hbytes : 0 + ((s.slice ranked).map s.bytes).sum ≤ s.budgetBytes :=
          withinBudgetFrom_bytes (Nat.zero_le _) _
        rwa [Nat.zero_add] at hbytes
      longest := fun other hother hcount hbytes =>
        withinBudgetFrom_longest hother (by rwa [Nat.zero_add]) (by rwa [Nat.zero_add])
      restored_ranked := hsublist
      mem_restored := fun n => by
        rw [hrestored, hids]
        simp only [hids, List.mem_map, exists_exists_and_eq_and]
      text_eq := rfl }

theorem nodup_candidates : ((candidates ranked).map content).Nodup := nodup_firsts_map ranked

theorem candidates_sublist : (candidates ranked).Sublist ranked := firsts_sublist ranked

namespace CappedSection.Reads

variable {slice restored : List GraphNode} {text : String}
    (h : s.Reads g ranked slice restored text)
include h

variable {n : GraphNode}

theorem rendered_ranked (hn : n ∈ slice ++ restored) : n ∈ ranked := by
  rcases List.mem_append.1 hn with hn | hn
  · exact candidates_sublist.subset (h.leading.subset hn)
  · exact h.restored_ranked.subset hn

/-- From the slice every rendered node is reached, and so is what it refers to. -/
theorem closed {m : GraphNode} (hn : n ∈ slice ++ restored) (hm : m ∈ ranked)
    (he : ∃ e ∈ g.edges, e.from_ = n.id ∧ e.to_ = m.id) :
    m.id ∈ (slice ++ restored).map (·.id) := by
  have hrefers : Refers g ranked n.id m.id :=
    ⟨List.mem_map_of_mem (h.rendered_ranked hn), List.mem_map_of_mem hm, he⟩
  have hreach : ∃ first ∈ slice, Relation.ReflTransGen (Refers g ranked) first.id n.id := by
    rcases List.mem_append.1 hn with hn | hn
    · exact ⟨n, hn, .refl⟩
    · exact ((h.mem_restored n).1 hn).2.2
  obtain ⟨first, hfirst, hreach⟩ := hreach
  rw [List.map_append, List.mem_append]
  by_cases hmem : m.id ∈ slice.map (·.id)
  · exact .inl hmem
  · exact .inr (List.mem_map_of_mem
      ((h.mem_restored m).2 ⟨hm, hmem, first, hfirst, hreach.tail hrefers⟩))

section
variable (hids : (ranked.map (·.id)).Nodup)
include hids

theorem nodup_rendered : ((slice ++ restored).map (·.id)).Nodup := by
  have hslice : slice.Sublist ranked := h.leading.sublist.trans candidates_sublist
  rw [List.map_append]
  refine (hids.sublist (hslice.map _)).append (hids.sublist (h.restored_ranked.map _)) ?_
  intro id hin hout
  obtain ⟨n, hn, rfl⟩ := List.mem_map.1 hout
  exact ((h.mem_restored n).1 hn).2.1 hin

theorem mem_of_id {n : GraphNode} (hn : n ∈ ranked) :
    n.id ∈ (slice ++ restored).map (·.id) ↔ n ∈ slice ++ restored := by
  refine ⟨fun hmem => ?_, fun hmem => List.mem_map_of_mem hmem⟩
  obtain ⟨m, hm, hid⟩ := List.mem_map.1 hmem
  rwa [← List.inj_on_of_nodup_map hids (h.rendered_ranked hm) hn hid]

theorem elided_eq : elided (candidates ranked) (slice ++ restored) =
    (candidates ranked).filter (· ∉ slice ++ restored) := by
  apply List.filter_congr
  intro n hn
  simp only [h.mem_of_id hids (candidates_sublist.subset hn)]

end

end CappedSection.Reads

end

/-! ## The order of the nodes and the edges -/

namespace CappedSection

variable {s : CappedSection} {g g' : KnowledgeGraph} {seed : List String}

theorem exists_candidate {n : GraphNode} (hn : n ∈ s.ranked g seed) :
    ∃ m ∈ candidates (s.ranked g seed), content m = content n ∧
      (s.rankCmp g seed m n).isLE = true := by
  refine exists_firsts (fun n => ?_) pairwise_ranked hn
  have hself : s.rankCmp g seed n n = .eq := Std.ReflCmp.compare_self
  rw [hself]
  rfl

theorem nodup_ranked (hids : (g.nodes.map (·.id)).Nodup) :
    ((s.ranked g seed).map (·.id)).Nodup :=
  (ranked_perm.map _).nodup_iff.2 (hids.sublist (List.filter_sublist.map _))

section
variable (hedges : g'.edges.Perm g.edges)
include hedges

theorem recencyByOwnEdge_perm (rel : Rel) : recencyByOwnEdge g' rel = recencyByOwnEdge g rel :=
  gather_perm (fun _ _ _ => Nat.max_right_comm ..) ((hedges.filter _).map _)

theorem relevance_perm : s.relevance g' seed = s.relevance g seed := by
  rw [relevance, relevance, groupedSets_perm ((hedges.filter _).map _)]

theorem rankCmp_perm : s.rankCmp g' seed = s.rankCmp g seed := by
  funext a c
  simp only [rankCmp, relevanceOf, recencyOf, relevance_perm hedges, recencyByOwnEdge_perm hedges]

theorem ranked_eq_of_perm (hnodes : g'.nodes.Perm g.nodes) (hids : (g.nodes.map (·.id)).Nodup) :
    s.ranked g' seed = s.ranked g seed := by
  rw [ranked, ranked, rankCmp_perm hedges]
  refine mergeSort_perm rank_trans rank_total (hnodes.filter _) fun a ha c hc hac hca => ?_
  exact List.inj_on_of_nodup_map hids (hnodes.mem_iff.1 (List.mem_of_mem_filter ha))
    (hnodes.mem_iff.1 (List.mem_of_mem_filter hc)) (id_of_rankCmp hac hca)

theorem writeRanked_perm (ranked : List GraphNode) (fuel : Nat) :
    s.writeRanked g' ranked fuel = s.writeRanked g ranked fuel := by
  have htargets : targets g' ranked = targets g ranked := by
    funext from_
    rw [targets, targets, refs, refs, groupedSets_perm ((hedges.filter _).map _)]
  have hrestore : restore g' ranked fuel = restore g ranked fuel := by
    funext renderedIds
    rw [restore, restore, htargets]
  rw [writeRanked, writeRanked, hrestore]

end

end CappedSection

/-- The section renders the longest slice of the ranked candidates that both caps allow, with what
it refers to restored behind it in ranked order, and counts every other candidate in its note; what
is rendered is closed under references among the ranked nodes.  The order of the edges does not
matter, and where ids are distinct neither does that of the nodes, and nothing is rendered twice. -/
theorem writeCappedSection_reads (s : CappedSection) (g : KnowledgeGraph) (seed : List String) :
    ∃ slice restored text, Ends (writeCappedSection s g seed) text ∧
      s.Reads g (s.ranked g seed) slice restored text ∧
      ((s.ranked g seed).Perm (g.nodes.filter s.listed) ∧
        (s.ranked g seed).Pairwise fun a c => (s.rankCmp g seed a c).isLE = true) ∧
      ((candidates (s.ranked g seed)).Sublist (s.ranked g seed) ∧
        ((candidates (s.ranked g seed)).map content).Nodup ∧
        ∀ n ∈ s.ranked g seed, ∃ m ∈ candidates (s.ranked g seed), content m = content n ∧
          (s.rankCmp g seed m n).isLE = true) ∧
      (∀ n ∈ slice ++ restored, ∀ m ∈ s.ranked g seed,
        (∃ e ∈ g.edges, e.from_ = n.id ∧ e.to_ = m.id) →
        m.id ∈ (slice ++ restored).map (·.id)) ∧
      ((g.nodes.map (·.id)).Nodup →
        ((slice ++ restored).map (·.id)).Nodup ∧
        (∀ n ∈ s.ranked g seed, n.id ∈ (slice ++ restored).map (·.id) ↔ n ∈ slice ++ restored) ∧
        elided (candidates (s.ranked g seed)) (slice ++ restored) =
          (candidates (s.ranked g seed)).filter (· ∉ slice ++ restored)) ∧
      ∀ g' : KnowledgeGraph, g'.edges.Perm g.edges →
        g'.nodes = g.nodes ∨ g'.nodes.Perm g.nodes ∧ (g.nodes.map (·.id)).Nodup →
        Ends (writeCappedSection s g' seed) text := by
  obtain ⟨slice, restored, text, hends, hreads⟩ := writeRanked_reads s g (s.ranked g seed)
  refine ⟨slice, restored, text, hends, hreads,
    ⟨CappedSection.ranked_perm, CappedSection.pairwise_ranked⟩,
    ⟨candidates_sublist, nodup_candidates, fun _ => CappedSection.exists_candidate⟩,
    fun _ hn _ hm he => hreads.closed hn hm he, fun hids => ?_, fun g' hedges hnodes => ?_⟩
  · have hids : ((s.ranked g seed).map (·.id)).Nodup := CappedSection.nodup_ranked hids
    exact ⟨hreads.nodup_rendered hids, fun _ hn => hreads.mem_of_id hids hn, hreads.elided_eq hids⟩
  · have hranked : s.ranked g' seed = s.ranked g seed := by
      rcases hnodes with hnodes | ⟨hnodes, hids⟩
      · rw [CappedSection.ranked, CappedSection.ranked, CappedSection.rankCmp_perm hedges, hnodes]
      · exact CappedSection.ranked_eq_of_perm hedges hnodes hids
    have heq : writeCappedSection s g' seed = writeCappedSection s g seed := by
      funext fuel
      rw [writeCappedSection, writeCappedSection, hranked, CappedSection.writeRanked_perm hedges]
    rwa [heq]

/-! ## What a section leaves out -/

/-- The body of the decisions and lessons sections. -/
def plainNodeLine (n : GraphNode) : String := "- " ++ n.id ++ ": " ++ summary n ++ "\n"

def decision (id text : String) : GraphNode :=
  ⟨⟨.decision, (∅ : Attrs).insert "summary" text, []⟩, id⟩

/-- A decisions section of at most one entry within a hundred bytes. -/
def oneDecision : CappedSection where
  kind := .decision
  recencyRel := .governs
  header := "Decisions:"
  noun := "decision"
  verbatimN := 1
  budgetBytes := 100
  byRelevance := false
  line := plainNodeLine

/-- A decision that supersedes one without a summary. -/
def mute : KnowledgeGraph where
  nodes := [decision "d1" "one", decision "d2" ""]
  edges := [⟨"d1", "d2", .supersedes, 0, none, 0, .extracted⟩]

/-- Two decisions of one id. -/
def twins : KnowledgeGraph where
  nodes := [decision "d1" "one", decision "d1" "two"]
  edges := []

theorem ranked_mute : oneDecision.ranked mute [] = [decision "d1" "one"] := by
  have hlisted : mute.nodes.filter oneDecision.listed = [decision "d1" "one"] := by decide
  rw [CappedSection.ranked, hlisted, List.mergeSort_singleton]

theorem ranked_twins : oneDecision.ranked twins [] = twins.nodes := by
  have hlisted : twins.nodes.filter oneDecision.listed = twins.nodes := by decide
  rw [CappedSection.ranked, hlisted]
  apply List.mergeSort_of_pairwise
  refine List.pairwise_cons.2 ⟨fun n hn => ?_, List.pairwise_singleton _ _⟩
  rw [List.mem_singleton.1 hn]
  decide

/-- The decision referred to is not rendered where it has no summary, and of two decisions of one id
the second is neither rendered nor counted. -/
theorem writeCappedSection_leaves :
    writeCappedSection oneDecision mute [] 5 = some "Decisions:\n- d1: one\n\n" ∧
      writeCappedSection oneDecision twins [] 5 = some "Decisions:\n- d1: one\n\n" := by
  rw [writeCappedSection, writeCappedSection, ranked_mute, ranked_twins]
  decide

end Rigger.Conductor
