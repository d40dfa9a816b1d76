import Rigger.Graph.Neighborhood
import Rigger.Lib.Grouped
import Rigger.Lib.Worklist

/-!
# The blast radius by confidence tier (`rigger-conductor/src/conductor.rs`)

`filesReachable` walks the edges of the allowed tiers both ways from the seed files, past every
module declaration, and answers the files of what it reached.  The precise view allows the
extracted edges, the safe view the inferred ones too.

A view depends on what is reached alone, so on the edges and seeds as sets, and on the nodes through
the kind and the file of each id.  Where two nodes share an id the later one says both.
-/

namespace Rigger.Graph

open Lib

/-- An edge that declares a module: a `CONTAINS` onto a file. -/
def declaresAModule (rel : Rel) (targetKind : Option NodeKind) : Bool :=
  rel == .contains && targetKind == some .file

/-- The far end of an edge at `cur`. -/
def GraphEdge.next (e : GraphEdge) (cur : String) : Option String :=
  if e.from_ = cur then some e.to_ else if e.to_ = cur then some e.from_ else none

namespace KnowledgeGraph

variable (g : KnowledgeGraph)

/-- Each node's kind by its id. -/
def kinds : Std.ExtTreeMap String NodeKind := collect (g.nodes.map fun n => (n.id, n.kind))

def held : Std.ExtTreeSet String := .ofList (g.nodes.map (·.id))

/-- The file of each member, where the graph holds that file too. -/
def memberFiles : Std.ExtTreeMap String String :=
  collect ((g.nodes.filterMap fun n => (memberFile n).map fun file => (n.id, file)).filter
    fun member => g.held.contains member.2)

/-- The file of an id: a file is its own, a member has its file, any other node none. -/
def fileOf (id : String) : Option String :=
  if g.kinds[id]? = some .file then some id else g.memberFiles[id]?

def crosses (allowed : List Tier) (e : GraphEdge) : Bool :=
  !declaresAModule e.rel g.kinds[e.to_]? && allowed.contains e.tier

/-- What one look around from `cur` meets, in the order of the edges. -/
def fars (allowed : List Tier) (cur : String) : List String :=
  (g.edges.filter (g.crosses allowed)).filterMap (·.next cur)

def filesReachable (fuel : Nat) (seed : List String) (allowed : List Tier) :
    Option (Std.ExtTreeSet String) :=
  (Worklist.run (g.fars allowed) fuel (.start seed)).map fun reached =>
    (reached.toList.filterMap g.fileOf).foldl (fun files f => files.insert f) (.ofList seed)

structure BlastRadius where
  precise : List String
  safe : List String
deriving DecidableEq

def confidenceTierRadius (fuel : Nat) (seed : List String) : Option BlastRadius :=
  (g.filesReachable fuel seed [.extracted]).bind fun precise =>
    (g.filesReachable fuel seed [.extracted, .inferred]).map fun safe =>
      ⟨precise.toList, safe.toList⟩

end KnowledgeGraph

/-! ## What is reached -/

/-- An edge of an allowed tier, no module declaration, joins the two ids, either way. -/
def KnowledgeGraph.Coupled (g : KnowledgeGraph) (allowed : List Tier) (near far : String) : Prop :=
  ∃ e ∈ g.edges, e.tier ∈ allowed ∧ declaresAModule e.rel g.kinds[e.to_]? = false ∧
    (e.from_ = near ∧ e.to_ = far ∨ e.from_ = far ∧ e.to_ = near)

def KnowledgeGraph.ReachedFrom (g : KnowledgeGraph) (seed : List String) (allowed : List Tier)
    (id : String) : Prop :=
  ∃ s ∈ seed, Relation.ReflTransGen (g.Coupled allowed) s id

theorem GraphEdge.next_eq_some {e : GraphEdge} {near far : String} :
    e.next near = some far ↔ e.from_ = near ∧ e.to_ = far ∨ e.from_ = far ∧ e.to_ = near := by
  unfold next
  split
  · next hfrom =>
    rw [Option.some.injEq]
    constructor
    · exact fun hto => .inl ⟨hfrom, hto⟩
    · rintro (⟨-, hto⟩ | ⟨hfar, hnear⟩)
      · exact hto
      · rw [hnear, ← hfar, hfrom]
  · next hfrom =>
    split
    · next hto =>
      rw [Option.some.injEq]
      exact ⟨fun hfar => .inr ⟨hfar, hto⟩, fun h => (h.resolve_left fun h => hfrom h.1).1⟩
    · next hto =>
      constructor
      · intro h
        cases h
      · rintro (h | h)
        · exact absurd h.1 hfrom
        · exact absurd h.2 hto

namespace KnowledgeGraph

variable {g g' : KnowledgeGraph} {seed seed' : List String} {allowed allowed' : List Tier}
  {near far id : String}

theorem mem_fars : far ∈ g.fars allowed near ↔ g.Coupled allowed near far := by
  simp only [fars, List.mem_filterMap, List.mem_filter, crosses, Bool.and_eq_true,
    Bool.not_eq_true', List.contains_iff_mem, GraphEdge.next_eq_some, Coupled, and_assoc]
  refine exists_congr fun e => and_congr_right fun _ => ?_
  exact ⟨fun ⟨hdecl, htier, hends⟩ => ⟨htier, hdecl, hends⟩,
    fun ⟨htier, hdecl, hends⟩ => ⟨hdecl, htier, hends⟩⟩

theorem fars_bounded (near far : String) (h : far ∈ g.fars allowed near) :
    far ∈ g.edges.map (·.from_) ++ g.edges.map (·.to_) := by
  obtain ⟨e, he, -, -, ⟨-, rfl⟩ | ⟨rfl, -⟩⟩ := mem_fars.1 h
  · exact List.mem_append_right _ (List.mem_map_of_mem he)
  · exact List.mem_append_left _ (List.mem_map_of_mem he)

/-- The walk ends, with the seed and the files of what it reaches. -/
theorem filesReachable_ends (g : KnowledgeGraph) (seed : List String) (allowed : List Tier) :
    ∃ files, Ends (g.filesReachable · seed allowed) files ∧
      ∀ f, f ∈ files ↔ f ∈ seed ∨ ∃ id, g.ReachedFrom seed allowed id ∧ g.fileOf id = some f := by
  obtain ⟨reached, hends, hreached⟩ := Worklist.run_closure (g.fars allowed) fars_bounded seed
  refine ⟨_, hends.map _, fun f => ?_⟩
  rw [mem_foldl_insert, Std.ExtTreeSet.mem_ofList, List.contains_iff_mem, List.mem_filterMap]
  have hcoupled : (fun x y => y ∈ g.fars allowed x) = g.Coupled allowed :=
    funext fun x => funext fun y => propext mem_fars
  rw [hcoupled] at hreached
  simp only [Std.ExtTreeSet.mem_toList, hreached, ReachedFrom]

theorem Coupled.mono (hallowed : allowed ⊆ allowed') (h : g.Coupled allowed near far) :
    g.Coupled allowed' near far := by
  obtain ⟨e, he, htier, hrest⟩ := h
  exact ⟨e, he, hallowed htier, hrest⟩

theorem ReachedFrom.mono (hseed : seed ⊆ seed') (hallowed : allowed ⊆ allowed')
    (h : g.ReachedFrom seed allowed id) : g.ReachedFrom seed' allowed' id := by
  obtain ⟨s, hs, hreach⟩ := h
  have hmono : g.Coupled allowed ≤ g.Coupled allowed' := fun _ _ h => h.mono hallowed
  exact ⟨s, hseed hs, Relation.ReflTransGen.mono hmono s id hreach⟩

theorem filesReachable_mono (hseed : seed ⊆ seed') (hallowed : allowed ⊆ allowed')
    {files files' : Std.ExtTreeSet String} (h : Ends (g.filesReachable · seed allowed) files)
    (h' : Ends (g.filesReachable · seed' allowed') files') {f : String} (hf : f ∈ files) :
    f ∈ files' := by
  obtain ⟨_, hends, hfiles⟩ := g.filesReachable_ends seed allowed
  obtain ⟨_, hends', hfiles'⟩ := g.filesReachable_ends seed' allowed'
  obtain rfl := h.unique hends
  obtain rfl := h'.unique hends'
  rw [hfiles] at hf
  rw [hfiles']
  rcases hf with hf | ⟨id, hid, hf⟩
  · exact .inl (hseed hf)
  · exact .inr ⟨id, hid.mono hseed hallowed, hf⟩

/-! ## The order of the nodes and the edges -/

/-- The nodes of an id, in order. -/
def sharing (g : KnowledgeGraph) (id : String) : List GraphNode := g.nodes.filter fun n => n.id = id

theorem contains_held {f : String} : g.held.contains f = true ↔ g.sharing f ≠ [] := by
  rw [held, Std.ExtTreeSet.contains_ofList, List.contains_iff_mem, List.mem_map, sharing, ne_eq,
    List.filter_eq_nil_iff]
  simp

theorem kinds_eq (id : String) : g.kinds[id]? = latest (fun n => some n.kind) (g.sharing id) := by
  rw [kinds, getElem?_collect, latest_map, sharing, latest_filter]
  simp only [decide_eq_true_eq]

theorem memberFiles_eq (id : String) : g.memberFiles[id]? =
    latest (fun n => (memberFile n).filter g.held.contains) (g.sharing id) := by
  rw [memberFiles, getElem?_collect, latest_filter, latest_filterMap, sharing, latest_filter]
  apply latest_congr
  intro n _
  cases memberFile n with
  | none => simp
  | some file => by_cases hid : n.id = id <;> simp [hid, Option.filter]

theorem fileOf_none (h : g.sharing id = []) : g.fileOf id = none := by
  rw [fileOf, kinds_eq, memberFiles_eq, h]
  rfl

theorem fileOf_node {n : GraphNode} (h : g.sharing n.id = [n]) : g.fileOf n.id =
    if n.kind = .file then some n.id
    else (memberFile n).filter fun file => g.sharing file ≠ [] := by
  have hheld : g.held.contains = fun file => decide (g.sharing file ≠ []) :=
    funext fun file => by rw [Bool.eq_iff_iff, contains_held, decide_eq_true_iff]
  rw [fileOf, kinds_eq, memberFiles_eq, h, hheld, latest_cons, latest_cons]
  simp only [latest_nil, Option.none_or, Option.some.injEq]

/-- Where ids are distinct, whatever the order, a node has its id to itself. -/
theorem sharing_of_nodup (hnodup : (g.nodes.map (·.id)).Nodup) (hnodes : g'.nodes.Perm g.nodes)
    (id : String) : g'.sharing id = g.sharing id := by
  have hperm : (g'.sharing id).Perm (g.sharing id) := hnodes.filter _
  have hshort : (g.sharing id).length ≤ 1 := by
    have hsub : ((g.sharing id).map (·.id)).Nodup := hnodup.sublist (List.filter_sublist.map _)
    have hall : (g.sharing id).map (·.id) = List.replicate (g.sharing id).length id := by
      rw [List.eq_replicate_iff, List.length_map]
      refine ⟨rfl, fun x hx => ?_⟩
      obtain ⟨n, hn, rfl⟩ := List.mem_map.1 hx
      exact of_decide_eq_true (List.mem_filter.1 hn).2
    rwa [hall, List.nodup_replicate] at hsub
  cases hg : g.sharing id with
  | nil => exact (hg ▸ hperm).eq_nil
  | cons n rest =>
    have hrest : rest = [] := by
      rw [hg, List.length_cons] at hshort
      exact List.length_eq_zero_iff.1 (by omega)
    rw [hg, hrest] at hperm
    rw [hrest]
    exact List.perm_singleton.1 hperm

section
variable (hsharing : ∀ id, g'.sharing id = g.sharing id)
include hsharing

theorem fileOf_congr (id : String) : g'.fileOf id = g.fileOf id := by
  have hheld : g'.held.contains = g.held.contains :=
    funext fun f => by rw [Bool.eq_iff_iff, contains_held, contains_held, hsharing]
  rw [fileOf, fileOf, kinds_eq, kinds_eq, memberFiles_eq, memberFiles_eq, hsharing, hheld]

theorem coupled_congr (hedges : g'.edges.Perm g.edges) :
    g'.Coupled allowed = g.Coupled allowed := by
  funext near far
  simp only [Coupled, hedges.mem_iff, kinds_eq, hsharing]

theorem filesReachable_congr (hedges : g'.edges.Perm g.edges) {files : Std.ExtTreeSet String}
    (h : Ends (g.filesReachable · seed allowed) files) :
    Ends (g'.filesReachable · seed allowed) files := by
  obtain ⟨_, hends, hfiles⟩ := g.filesReachable_ends seed allowed
  obtain ⟨files', hends', hfiles'⟩ := g'.filesReachable_ends seed allowed
  obtain rfl := h.unique hends
  have heq : files = files' := Std.ExtTreeSet.ext_mem fun f => by
    simp only [hfiles, hfiles', ReachedFrom, coupled_congr hsharing hedges, fileOf_congr hsharing]
  rw [heq]
  exact hends'

end

theorem confidenceTierRadius_ends {precise safe : Std.ExtTreeSet String}
    (hprecise : Ends (g.filesReachable · seed [.extracted]) precise)
    (hsafe : Ends (g.filesReachable · seed [.extracted, .inferred]) safe) :
    Ends (g.confidenceTierRadius · seed) ⟨precise.toList, safe.toList⟩ :=
  hprecise.bind (hsafe.map fun safe => BlastRadius.mk precise.toList safe.toList)

theorem toList_sorted (files : Std.ExtTreeSet String) : files.toList.Pairwise (· < ·) :=
  files.ordered_toList.imp compareOfLessAndEq_eq_lt.1

/-- The walk ends, with the seed and the files of exactly what it reaches, sorted; with more seeds
and more tiers come more files; so the seed is in the precise view and that in the safe one, and the
views depend neither on the order of the edges nor, as far as nodes of one id keep theirs, on the
order of the nodes. -/
theorem blastTiers (g : KnowledgeGraph) (seed : List String) (allowed : List Tier) :
    (∃ files, Ends (g.filesReachable · seed allowed) files ∧
      (∀ f, f ∈ files ↔ f ∈ seed ∨ ∃ id, g.ReachedFrom seed allowed id ∧ g.fileOf id = some f) ∧
      files.toList.Pairwise (· < ·) ∧
      (∀ seed' allowed' files', seed ⊆ seed' → allowed ⊆ allowed' →
        Ends (g.filesReachable · seed' allowed') files' → ∀ f ∈ files, f ∈ files')) ∧
    (∀ id, g.sharing id = [] → g.fileOf id = none) ∧
    (∀ n, g.sharing n.id = [n] → g.fileOf n.id =
      if n.kind = .file then some n.id
      else (memberFile n).filter fun file => g.sharing file ≠ []) ∧
    ∃ radius, Ends (g.confidenceTierRadius · seed) radius ∧
      radius.precise.Pairwise (· < ·) ∧ radius.safe.Pairwise (· < ·) ∧
      seed ⊆ radius.precise ∧ radius.precise ⊆ radius.safe ∧
      ∀ g' : KnowledgeGraph, g'.nodes.Perm g.nodes → g'.edges.Perm g.edges →
        (g.nodes.map (·.id)).Nodup ∨ (∀ id, g'.sharing id = g.sharing id) →
        Ends (g'.confidenceTierRadius · seed) radius := by
  obtain ⟨files, hends, hfiles⟩ := g.filesReachable_ends seed allowed
  obtain ⟨precise, hprecise, hprecise_iff⟩ := g.filesReachable_ends seed [.extracted]
  obtain ⟨safe, hsafe, -⟩ := g.filesReachable_ends seed [.extracted, .inferred]
  refine ⟨⟨files, hends, hfiles, toList_sorted files, ?_⟩, fun _ => fileOf_none,
    fun _ => fileOf_node, _, confidenceTierRadius_ends hprecise hsafe, toList_sorted precise,
    toList_sorted safe, ?_, ?_, ?_⟩
  · exact fun seed' allowed' files' hseed hallowed hends' f hf =>
      filesReachable_mono hseed hallowed hends hends' hf
  · exact fun f hf => Std.ExtTreeSet.mem_toList.2 ((hprecise_iff f).2 (.inl hf))
  · intro f hf
    have hallowed : [Tier.extracted] ⊆ [.extracted, .inferred] := by simp
    exact Std.ExtTreeSet.mem_toList.2 (filesReachable_mono (List.Subset.refl seed) hallowed
      hprecise hsafe (Std.ExtTreeSet.mem_toList.1 hf))
  · intro g' hnodes hedges horder
    have hsharing : ∀ id, g'.sharing id = g.sharing id :=
      horder.elim (fun hnodup => sharing_of_nodup hnodup hnodes) id
    exact confidenceTierRadius_ends (filesReachable_congr hsharing hedges hprecise)
      (filesReachable_congr hsharing hedges hsafe)

/-- `b` is a node twice over. -/
def twice (first last : NodeKind) : KnowledgeGraph where
  nodes := [⟨⟨.file, ∅, []⟩, "a"⟩, ⟨⟨first, ∅, []⟩, "b"⟩, ⟨⟨last, ∅, []⟩, "b"⟩]
  edges := [⟨"a", "b", .references, 0, none, 0, .extracted⟩]

/-- Of two nodes of one id the later is read, so their order tells. -/
theorem blastTiers_order :
    (twice .file .artifact).nodes.Perm (twice .artifact .file).nodes ∧
      (twice .file .artifact).edges = (twice .artifact .file).edges ∧
      (twice .file .artifact).confidenceTierRadius 5 ["a"] = some ⟨["a"], ["a"]⟩ ∧
      (twice .artifact .file).confidenceTierRadius 5 ["a"] = some ⟨["a", "b"], ["a", "b"]⟩ :=
  ⟨.cons _ (.swap _ _ _), rfl, by decide, by decide⟩

end KnowledgeGraph

end Rigger.Graph
