import Mathlib.Data.Finset.Dedup
import Rigger.Graph.Tables
import Rigger.Lib.Walk

/-!
# A seeded neighborhood, in memory and in SQL (`contextgraph/query.rs`, `sqlite.rs`)

`neighborhoodOf` walks a graph the dash loaded, a frontier at a time; `Tables.subgraph` walks the
tables by a recursive query, a row for every hop a node is reached at.  Both take `Tables.Hop`, so
both reach what is within their depth of a seed (`mem_reach`, `mem_reached`).
-/

namespace Rigger.Graph

open Lib

/-! ## The loaded graph -/

structure GraphNode extends Node where
  id : String
deriving DecidableEq

structure GraphEdge where
  from_ : String
  to_ : String
  rel : Rel
  validFrom : Int
  validTo : Option Int
  source : Nat
  tier : Tier
deriving DecidableEq

structure KnowledgeGraph where
  nodes : List GraphNode
  edges : List GraphEdge
deriving DecidableEq

def KnowledgeGraph.empty : KnowledgeGraph := ⟨[], []⟩

def rowToNode (id : String) (row : Node) : GraphNode := { row with id }

/-- Every read of edges selects the live ones. -/
def rowToEdge (e : Edge) : GraphEdge where
  from_ := e.from_
  to_ := e.to_
  rel := e.rel
  validFrom := e.validFrom
  validTo := none
  source := e.source
  tier := e.tier

/-! ## The walk in memory -/

def godNodeDegreeThreshold : Nat := 5

def nodeName (n : GraphNode) : Option String := n.attrs["name"]?.filter (· ≠ "")

def nodeLabel (n : GraphNode) : String :=
  ((["summary", "title", "name"].filterMap fun key => n.attrs[key]?).find? (· ≠ "")).getD n.id

/-- The file an id of the kind names. -/
def nodeFile (kind : NodeKind) (id : String) : Option String :=
  match kind with
  | .codeEntity =>
    match splitId id with
    | (file, some _) => if file ≠ "" then some file else none
    | (_, none) => none
  | .file => some (splitId id).1
  | .designDoc | .archDecision | .handbookRule | .rationale | .artifact => fileOf id
  | _ => none

/-- The file a node is a member of. -/
def memberFile (n : GraphNode) : Option String :=
  if n.kind = .codeEntity then (nodeName n).bind fun _ => nodeFile .codeEntity n.id else none

structure NeighborhoodNode where
  id : String
  kind : NodeKind
  label : String
  degree : Nat
  god : Bool
deriving DecidableEq

structure NeighborhoodEdge where
  from_ : String
  to_ : String
  rel : Rel
  tier : Tier
deriving DecidableEq

def GraphEdge.drawn (e : GraphEdge) : NeighborhoodEdge := ⟨e.from_, e.to_, e.rel, e.tier⟩

structure Neighborhood where
  seed : String
  depth : Int
  nodes : List NeighborhoodNode
  edges : List NeighborhoodEdge

/-- What the walk has reached, and what of it it reached in its last round. -/
structure Spread where
  reached : List String
  frontier : List String

def Spread.reach (s : Spread) (far : String) : Spread :=
  if far ∈ s.reached then s else ⟨far :: s.reached, s.frontier ++ [far]⟩

def Spread.seeded (seeds : List String) : Spread := seeds.foldl Spread.reach ⟨[], []⟩

namespace KnowledgeGraph

variable (g : KnowledgeGraph)

def membersOf (file : String) : List String :=
  (g.nodes.filter fun n => memberFile n == some file).map GraphNode.id

/-- The file of the last node of the id that has one. -/
def fileOfMember (id : String) : Option String :=
  g.nodes.reverse.findSome? fun n => if n.id = id then memberFile n else none

/-- The members and the file of a node, one hop on. -/
def membership (near : String) : List String := g.membersOf near ++ (g.fileOfMember near).toList

/-- The far ends of the live edges that touch the frontier, either way. -/
def edgeFars (frontier : List String) : List String :=
  (g.edges.filter (·.validTo.isNone)).flatMap fun e =>
    ([(e.from_, e.to_), (e.to_, e.from_)].filter fun ends => ends.1 ∈ frontier).map Prod.snd

/-- One round of the walk from its frontier. -/
def round (s : Spread) : Spread :=
  (s.frontier.flatMap g.membership ++ g.edgeFars s.frontier).foldl Spread.reach ⟨s.reached, []⟩

/-- At most `hops` rounds, none from an empty frontier. -/
def rounds : Nat → Spread → Spread
  | 0, s => s
  | hops + 1, s => if s.frontier.isEmpty then s else rounds hops (g.round s)

end KnowledgeGraph

/-- How many of the edges an id is an end of. -/
def degreeIn (edges : List NeighborhoodEdge) (id : String) : Nat :=
  (edges.filter fun e => e.from_ == id || e.to_ == id).length

def neighborhoodOf (g : KnowledgeGraph) (seeds : List String) (echoSeed : String) (depth : Int) :
    Neighborhood :=
  let reached := (g.rounds depth.toNat (Spread.seeded seeds)).reached
  let edges := (g.edges.filter fun e =>
    e.validTo.isNone && e.from_ ∈ reached && e.to_ ∈ reached).map GraphEdge.drawn
  let nodes := (g.nodes.filter fun n => n.id ∈ reached).map fun n =>
    { id := n.id
      kind := n.kind
      label := nodeLabel n
      degree := degreeIn edges n.id
      god := decide (degreeIn edges n.id > godNodeDegreeThreshold) }
  { seed := echoSeed, depth, nodes, edges }

/-! ## The walk in SQL -/

/-- `instr`: the place, from one, of the first `pat` in a text, zero where it holds none. -/
def instr (pat : List Char) : List Char → Nat
  | [] => 0
  | c :: cs =>
    if pat.isPrefixOf (c :: cs) then 1
    else match instr pat cs with
      | 0 => 0
      | n + 1 => n + 2

/-- `substr(s, 1, len)`: the first `len` characters; none lie before the first, where a negative
`len` looks. -/
def substrFromFirst (s : String) (len : Int) : String := String.ofList (s.toList.take len.toNat)

/-- `NULLIF(s, '')`. -/
def nullifEmpty (s : String) : Option String := if s = "" then none else some s

def fileHalf (id : String) : Option String :=
  nullifEmpty (substrFromFirst id ((instr [':', ':'] id.toList : Int) - 1))

namespace Tables

variable (t : Tables)

/-- `member_sql` of a node's row. -/
def memberOf (id : String) : Option String :=
  t.nodes[id]?.bind fun n =>
    if n.kind = .codeEntity ∧ (nodeLeaf n.attrs).isSome then fileHalf id else none

/-- The rows a row of `reach` adds: along a live edge, from a file to its members and from a member
to its file. -/
def reachFrom (rid : String) : List String :=
  ((t.edges.filter fun e => (e.from_ == rid || e.to_ == rid) && e.isLive).map fun e =>
      if e.from_ = rid then e.to_ else e.from_) ++
    t.nodes.keys.filter (fun id => idRange rid id && t.memberOf id == some rid) ++
      (t.memberOf rid).toList

/-- The ids of the rows of `reach` at a depth. -/
def reachAt (seeds : List String) : Nat → List String
  | 0 => seeds.dedup
  | depth + 1 => ((reachAt seeds depth).flatMap t.reachFrom).dedup

/-- `SELECT DISTINCT rid FROM reach`: a row is hopped from while its depth is under the bound. -/
def reach (seeds : List String) (depth : Int) : List String :=
  ((List.range (depth.toNat + 1)).flatMap (t.reachAt seeds)).dedup

def subgraph (seed : List String) (depth : Int) : KnowledgeGraph :=
  let ids := t.reach seed depth
  if ids.isEmpty then .empty
  else
    { nodes := (t.nodes.toList.filter fun row => row.1 ∈ ids).map fun row => rowToNode row.1 row.2
      edges := (t.edges.filter fun e => e.isLive && e.from_ ∈ ids && e.to_ ∈ ids).map rowToEdge }

/-- The graph the dash loads. -/
def whole : KnowledgeGraph where
  nodes := t.nodes.toList.map fun row => rowToNode row.1 row.2
  edges := (t.edges.filter Edge.isLive).map rowToEdge

end Tables

/-! ## The two cuts of an id -/

variable {rest : List Char}

theorem isPrefixOf_colons {c d : Char} :
    [':', ':'].isPrefixOf (c :: d :: rest) = true ↔ c = ':' ∧ d = ':' := by
  simp only [List.isPrefixOf, Bool.and_true, Bool.and_eq_true, beq_iff_eq]
  exact and_congr eq_comm eq_comm

theorem splitPathList_eq_instr (s : List Char) :
    splitPathList s = if instr [':', ':'] s = 0 then none
      else some (s.take (instr [':', ':'] s - 1), s.drop (instr [':', ':'] s + 1)) := by
  induction s using splitPathList.induct with
  | case1 => rfl
  | case2 c => simp [splitPathList, instr, List.isPrefixOf]
  | case3 c d rest hcd =>
    have hat : instr [':', ':'] (c :: d :: rest) = 1 := by
      rw [instr, if_pos (isPrefixOf_colons.2 hcd)]
    rw [splitPathList, if_pos hcd, hat]
    rfl
  | case4 c d rest hcd ih =>
    rw [splitPathList, if_neg hcd, ih]
    conv_rhs => rw [instr, if_neg (mt isPrefixOf_colons.1 hcd)]
    cases instr [':', ':'] (d :: rest) with
    | zero => simp
    | succ n => simp

theorem fileHalf_eq_nodeFile (id : String) : fileHalf id = nodeFile .codeEntity id := by
  unfold fileHalf nodeFile splitId substrFromFirst nullifEmpty
  rw [splitPathList_eq_instr]
  cases instr [':', ':'] id.toList with
  | zero => simp
  | succ n =>
    by_cases hfile : String.ofList (id.toList.take n) = ""
    · simp [hfile]
    · simp [hfile]

theorem splitPathList_eq_some {s file : List Char} (h : splitPathList s = some (file, rest)) :
    s = file ++ ':' :: ':' :: rest := by
  induction s using splitPathList.induct generalizing file with
  | case1 => cases h
  | case2 => cases h
  | case3 c d tail hcd =>
    rw [splitPathList, if_pos hcd] at h
    cases h
    rw [hcd.1, hcd.2]
    rfl
  | case4 c d tail hcd ih =>
    rw [splitPathList, if_neg hcd] at h
    obtain ⟨⟨half, _⟩, hcut, hhalf⟩ := Option.map_eq_some_iff.1 h
    cases hhalf
    rw [ih hcut]
    rfl

theorem idRange_of_fileHalf {id file : String} (h : fileHalf id = some file) :
    idRange file id = true := by
  have hid : ∃ rest, id.toList = file.toList ++ ':' :: ':' :: rest := by
    rw [fileHalf_eq_nodeFile, nodeFile, splitId] at h
    cases hcut : splitPathList id.toList with
    | none => simp [hcut] at h
    | some cut =>
      simp only [hcut, ne_eq, Option.ite_none_right_eq_some, Option.some.injEq] at h
      refine ⟨cut.2, ?_⟩
      rw [← h.2, String.toList_ofList]
      exact splitPathList_eq_some hcut
  obtain ⟨rest, hrest⟩ := hid
  have hfrom : file ++ "::" ≤ id := by
    show ¬id < file ++ "::"
    rw [String.lt_iff_toList_lt, hrest, String.toList_append]
    show ¬file.toList ++ ([':', ':'] ++ rest) < file.toList ++ [':', ':']
    rw [← List.append_assoc]
    exact fun hlt => List.le_append_left hlt
  have hto : id < file ++ ":;" := by
    rw [String.lt_iff_toList_lt, hrest, String.toList_append]
    apply List.append_left_lt
    show ':' :: ':' :: rest < [':', ';']
    exact .cons (.rel (by decide))
  simp [idRange, hfrom, hto]

namespace Tables

variable (t : Tables)

/-! ## One hop -/

/-- One hop of either walk: along a live edge, from a file to a member, from a member to its
file. -/
def Hop (near far : String) : Prop :=
  (∃ e ∈ t.edges, e.isLive = true ∧
    (e.from_ = near ∧ e.to_ = far ∨ e.to_ = near ∧ e.from_ = far)) ∨
  t.memberOf far = some near ∨ t.memberOf near = some far

variable {t} {id file : String}

theorem mem_nodes_of_memberOf (h : t.memberOf id = some file) : id ∈ t.nodes := by
  rw [Tables.memberOf] at h
  cases hn : t.nodes[id]? with
  | none => simp [hn] at h
  | some n => exact Std.ExtTreeMap.mem_iff_isSome_getElem?.2 (by rw [hn]; rfl)

theorem idRange_of_memberOf (h : t.memberOf id = some file) : idRange file id = true := by
  obtain ⟨n, -, hn⟩ := Option.bind_eq_some_iff.1 h
  rw [Option.ite_none_right_eq_some] at hn
  exact idRange_of_fileHalf hn.2

variable {far : String}

theorem mem_reachFrom {near : String} : far ∈ t.reachFrom near ↔ t.Hop near far := by
  have hedges : (∃ e, (e ∈ t.edges ∧ ((e.from_ = near ∨ e.to_ = near) ∧ e.isLive = true)) ∧
        (if e.from_ = near then e.to_ else e.from_) = far) ↔
      ∃ e ∈ t.edges, e.isLive = true ∧
        (e.from_ = near ∧ e.to_ = far ∨ e.to_ = near ∧ e.from_ = far) := by
    apply exists_congr
    intro e
    by_cases hfrom : e.from_ = near
    · simp only [hfrom, if_true]
      grind
    · simp only [hfrom, if_false]
      grind
  have hmembers : (far ∈ t.nodes ∧ idRange near far = true ∧ t.memberOf far = some near) ↔
      t.memberOf far = some near :=
    ⟨fun h => h.2.2, fun h => ⟨mem_nodes_of_memberOf h, idRange_of_memberOf h, h⟩⟩
  simp only [reachFrom, Hop, List.mem_append, List.mem_map, List.mem_filter, Bool.and_eq_true,
    Bool.or_eq_true, beq_iff_eq, Std.ExtTreeMap.mem_keys, Option.mem_toList, hedges,
    hmembers, or_assoc]

/-! ## The walk of the loaded graph takes the same hops -/

theorem memberFile_rowToNode {row : Node} (h : t.nodes[id]? = some row) :
    memberFile (rowToNode id row) = t.memberOf id := by
  rw [Tables.memberOf, h, Option.bind_some, fileHalf_eq_nodeFile]
  unfold memberFile
  show (if row.kind = .codeEntity then (nodeLeaf row.attrs).bind fun _ => nodeFile .codeEntity id
    else none) = _
  cases hleaf : nodeLeaf row.attrs <;> simp

theorem mem_whole_nodes {n : GraphNode} :
    n ∈ t.whole.nodes ↔ ∃ row, t.nodes[n.id]? = some row ∧ rowToNode n.id row = n := by
  simp only [whole, List.mem_map, Prod.exists, Std.ExtTreeMap.mem_toList_iff_getElem?_eq_some]
  constructor
  · rintro ⟨id, row, hrow, rfl⟩
    exact ⟨row, hrow, rfl⟩
  · rintro ⟨row, hrow, hn⟩
    exact ⟨n.id, row, hrow, hn⟩

theorem mem_membersOf : id ∈ t.whole.membersOf file ↔ t.memberOf id = some file := by
  simp only [KnowledgeGraph.membersOf, List.mem_map, List.mem_filter, beq_iff_eq]
  constructor
  · rintro ⟨n, ⟨hn, hfile⟩, rfl⟩
    obtain ⟨row, hrow, hrown⟩ := mem_whole_nodes.1 hn
    rw [← hrown, memberFile_rowToNode hrow] at hfile
    exact hfile
  · intro h
    obtain ⟨row, hrow, -⟩ := Option.bind_eq_some_iff.1 h
    refine ⟨rowToNode id row, ⟨mem_whole_nodes.2 ⟨row, hrow, rfl⟩, ?_⟩, rfl⟩
    rw [memberFile_rowToNode hrow, h]

theorem fileOfMember_eq_some : t.whole.fileOfMember id = some file ↔ t.memberOf id = some file := by
  have hof : ∀ n ∈ t.whole.nodes, n.id = id → memberFile n = t.memberOf id := by
    rintro n hn rfl
    obtain ⟨row, hrow, hrown⟩ := mem_whole_nodes.1 hn
    rw [← hrown]
    exact memberFile_rowToNode hrow
  constructor
  · intro h
    obtain ⟨n, hn, hfile⟩ := List.exists_of_findSome?_eq_some h
    rw [Option.ite_none_right_eq_some] at hfile
    rw [← hof n (List.mem_reverse.1 hn) hfile.1, hfile.2]
  · intro h
    obtain ⟨row, hrow, -⟩ := Option.bind_eq_some_iff.1 h
    have hsome : (t.whole.fileOfMember id).isSome = true := by
      rw [KnowledgeGraph.fileOfMember, List.findSome?_isSome_iff]
      refine ⟨rowToNode id row, ?_, ?_⟩
      · exact List.mem_reverse.2 (mem_whole_nodes.2 ⟨row, hrow, rfl⟩)
      · show (if id = id then memberFile (rowToNode id row) else none).isSome = true
        rw [if_pos rfl, memberFile_rowToNode hrow, h]
        rfl
    obtain ⟨file', hfile'⟩ := Option.isSome_iff_exists.1 hsome
    obtain ⟨n, hn, hfile⟩ := List.exists_of_findSome?_eq_some hfile'
    rw [Option.ite_none_right_eq_some] at hfile
    rw [hfile', ← hfile.2, hof n (List.mem_reverse.1 hn) hfile.1, h]

theorem mem_edgeFars {frontier : List String} :
    far ∈ t.whole.edgeFars frontier ↔ ∃ near ∈ frontier, ∃ e ∈ t.edges, e.isLive = true ∧
      (e.from_ = near ∧ e.to_ = far ∨ e.to_ = near ∧ e.from_ = far) := by
  simp only [KnowledgeGraph.edgeFars, whole, List.mem_flatMap, List.mem_filter, List.mem_map,
    List.mem_cons, List.not_mem_nil, or_false, decide_eq_true_eq, Prod.exists]
  constructor
  · rintro ⟨_, ⟨⟨e, ⟨he, hlive⟩, rfl⟩, -⟩, near, far', ⟨hends, hnear⟩, rfl⟩
    refine ⟨near, hnear, e, he, hlive, ?_⟩
    rcases hends with hends | hends
    · cases hends
      exact .inl ⟨rfl, rfl⟩
    · cases hends
      exact .inr ⟨rfl, rfl⟩
  · rintro ⟨near, hnear, e, he, hlive, hends⟩
    refine ⟨rowToEdge e, ⟨⟨e, ⟨he, hlive⟩, rfl⟩, rfl⟩, near, far, ⟨?_, hnear⟩, rfl⟩
    rcases hends with ⟨rfl, rfl⟩ | ⟨rfl, rfl⟩
    · exact .inl rfl
    · exact .inr rfl

theorem mem_round {frontier : List String} :
    far ∈ frontier.flatMap t.whole.membership ++ t.whole.edgeFars frontier ↔
      ∃ near ∈ frontier, t.Hop near far := by
  simp only [List.mem_append, List.mem_flatMap, KnowledgeGraph.membership, mem_membersOf,
    Option.mem_toList, fileOfMember_eq_some, mem_edgeFars, Hop]
  constructor
  · rintro (⟨near, hnear, hmember⟩ | ⟨near, hnear, hedge⟩)
    · exact ⟨near, hnear, .inr hmember⟩
    · exact ⟨near, hnear, .inl hedge⟩
  · rintro ⟨near, hnear, hedge | hmember⟩
    · exact .inr ⟨near, hnear, hedge⟩
    · exact .inl ⟨near, hnear, hmember⟩

end Tables

/-! ## What the walks reach -/

theorem mem_reached_foldl (fars : List String) (s : Spread) (x : String) :
    x ∈ (fars.foldl Spread.reach s).reached ↔ x ∈ s.reached ∨ x ∈ fars := by
  induction fars generalizing s with
  | nil => simp
  | cons far fars ih =>
    rw [List.foldl_cons, ih, Spread.reach]
    by_cases hfar : far ∈ s.reached
    · grind
    · grind

theorem mem_frontier_foldl (fars : List String) (s : Spread) (x : String) :
    x ∈ (fars.foldl Spread.reach s).frontier ↔ x ∈ s.frontier ∨ x ∈ fars ∧ x ∉ s.reached := by
  induction fars generalizing s with
  | nil => simp
  | cons far fars ih =>
    rw [List.foldl_cons, ih, Spread.reach]
    by_cases hfar : far ∈ s.reached
    · grind
    · grind

namespace Tables

variable {t : Tables}

abbrev LayerOf (t : Tables) (seeds : List String) (n : Nat) (s : Spread) : Prop :=
  Layer t.Hop (· ∈ seeds) n (· ∈ s.reached) (· ∈ s.frontier)

theorem layer_seeded (seeds : List String) : t.LayerOf seeds 0 (Spread.seeded seeds) := by
  apply Layer.start
  · intro x
    simp [Spread.seeded, mem_reached_foldl]
  · intro x
    simp [Spread.seeded, mem_frontier_foldl]

variable {seeds : List String}

theorem LayerOf.round {n : Nat} {s : Spread} (h : t.LayerOf seeds n s) :
    t.LayerOf seeds (n + 1) (t.whole.round s) := by
  apply Layer.next h
  · intro y
    rw [KnowledgeGraph.round, mem_reached_foldl, mem_round]
  · intro y
    rw [KnowledgeGraph.round, mem_frontier_foldl, mem_reached_foldl]
    grind

theorem LayerOf.mem_rounds {n : Nat} {s : Spread} (h : t.LayerOf seeds n s) (hops : Nat)
    (x : String) :
    x ∈ (t.whole.rounds hops s).reached ↔ Lib.Within t.Hop (· ∈ seeds) (n + hops) x := by
  induction hops generalizing n s with
  | zero => exact h.reached_iff x
  | succ hops ih =>
    rw [KnowledgeGraph.rounds]
    by_cases hnext : s.frontier.isEmpty = true
    · rw [if_pos hnext]
      rw [List.isEmpty_iff] at hnext
      exact h.closed (fun y hy => by simp [hnext] at hy) _ x
    · rw [if_neg hnext, ih (LayerOf.round h), Nat.add_assoc, Nat.add_comm 1 hops]

theorem mem_reached (t : Tables) (seeds : List String) (depth : Int) (x : String) :
    x ∈ (t.whole.rounds depth.toNat (Spread.seeded seeds)).reached ↔
      Lib.Within t.Hop (· ∈ seeds) depth.toNat x := by
  rw [LayerOf.mem_rounds (layer_seeded seeds), Nat.zero_add]

theorem mem_reachAt (t : Tables) (seeds : List String) (n : Nat) (x : String) :
    x ∈ t.reachAt seeds n ↔ HopsFrom t.Hop (· ∈ seeds) n x := by
  induction n generalizing x with
  | zero => rw [reachAt, List.mem_dedup, hopsFrom_zero]
  | succ n ih =>
    rw [reachAt, List.mem_dedup, List.mem_flatMap, hopsFrom_succ]
    simp only [ih, mem_reachFrom]

theorem mem_reach (t : Tables) (seeds : List String) (depth : Int) (x : String) :
    x ∈ t.reach seeds depth ↔ Lib.Within t.Hop (· ∈ seeds) depth.toNat x := by
  simp only [reach, List.mem_dedup, List.mem_flatMap, List.mem_range, mem_reachAt, Lib.Within,
    Nat.lt_succ_iff]

/-! ## The neighborhoods -/

theorem subgraph_nodes (t : Tables) (seeds : List String) (depth : Int) :
    (t.subgraph seeds depth).nodes = t.whole.nodes.filter fun n => n.id ∈ t.reach seeds depth := by
  rw [subgraph]
  by_cases hids : (t.reach seeds depth).isEmpty = true
  · rw [if_pos hids]
    rw [List.isEmpty_iff] at hids
    simp [KnowledgeGraph.empty, hids]
  · rw [if_neg hids, whole, List.filter_map]
    rfl

theorem subgraph_edges (t : Tables) (seeds : List String) (depth : Int) :
    (t.subgraph seeds depth).edges = t.whole.edges.filter fun e =>
      e.validTo.isNone && e.from_ ∈ t.reach seeds depth && e.to_ ∈ t.reach seeds depth := by
  rw [subgraph]
  by_cases hids : (t.reach seeds depth).isEmpty = true
  · rw [if_pos hids]
    rw [List.isEmpty_iff] at hids
    simp [KnowledgeGraph.empty, hids]
  · rw [if_neg hids, whole, List.filter_map, List.filter_filter]
    refine congrArg (List.map rowToEdge) (List.filter_congr ?_)
    intro e _
    cases e.isLive with
    | false => exact (Bool.and_false _).symm
    | true => exact (Bool.and_true _).symm

/-- The SQL neighborhood and the in-memory one hold the same nodes and the same live edges. -/
theorem subgraph_eq_neighborhoodOf (t : Tables) (seeds : List String) (echoSeed : String)
    (depth : Int) :
    ((t.subgraph seeds depth).nodes.map GraphNode.id).toFinset =
        ((neighborhoodOf t.whole seeds echoSeed depth).nodes.map NeighborhoodNode.id).toFinset ∧
      ((t.subgraph seeds depth).edges.map GraphEdge.drawn).toFinset =
        (neighborhoodOf t.whole seeds echoSeed depth).edges.toFinset := by
  have hreach : ∀ id, decide (id ∈ t.reach seeds depth) =
      decide (id ∈ (t.whole.rounds depth.toNat (Spread.seeded seeds)).reached) := by
    intro id
    rw [decide_eq_decide, mem_reach, mem_reached]
  constructor
  · rw [subgraph_nodes, neighborhoodOf, List.map_map]
    simp only [hreach]
    rfl
  · rw [subgraph_edges, neighborhoodOf]
    simp only [hreach]

/-- Two definitions of a file are two hops apart, by an id no node and no edge holds. -/
example :
    let def_ : Node := ⟨.codeEntity, Std.ExtTreeMap.empty.insert "name" "f", []⟩
    let nodes : Std.ExtTreeMap String Node :=
      ((∅ : Std.ExtTreeMap String Node).insert "a.rs::f" def_).insert "a.rs::T::f" def_
    (({ Tables.empty with nodes }).subgraph ["a.rs::f"] 2).nodes.map GraphNode.id =
      ["a.rs::T::f", "a.rs::f"] := by
  decide

end Tables

end Rigger.Graph
