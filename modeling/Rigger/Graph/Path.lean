import Rigger.Graph.Neighborhood
import Rigger.Lib.Bfs

/-!
# The path between two nodes (`contextgraph/query.rs`, `path`)

A breadth-first search over the live edges, both ways, that keeps each id's predecessor and stops
as it meets `to`.  Its two loops run on fuel: `search` takes a round for each id it pops, `retrace`
one for each id of the chain, so both end (`path_shortest`).
-/

namespace Rigger.Graph

open Lib

def KnowledgeGraph.isNode (graph : KnowledgeGraph) (id : String) : Bool :=
  graph.nodes.any (·.id == id)

/-- The live edges in order, each from its two ends. -/
def KnowledgeGraph.pairs (graph : KnowledgeGraph) : List (String × String) :=
  graph.edges.flatMap fun e =>
    if e.validTo.isSome then [] else [(e.from_, e.to_), (e.to_, e.from_)]

structure PathSearch where
  predecessor : Std.ExtTreeMap String String
  visited : Std.ExtTreeSet String
  queue : List String

/-- Hop from `current`, and answer whether that met `to_`, where the scan stops. -/
def PathSearch.scan (current to_ : String) : List (String × String) → PathSearch →
    PathSearch × Bool
  | [], s => (s, false)
  | (near, far) :: rest, s =>
    if near = current ∧ far ∉ s.visited then
      let met : PathSearch :=
        { s with visited := s.visited.insert far, predecessor := s.predecessor.insert far current }
      if far = to_ then (met, true)
      else scan current to_ rest { met with queue := met.queue ++ [far] }
    else scan current to_ rest s

/-- The predecessors of `step`, back to an id that has none. -/
def retrace (predecessor : Std.ExtTreeMap String String) : Nat → String → Option (List String)
  | 0, _ => none
  | fuel + 1, step =>
    match predecessor[step]? with
    | some prev => (retrace predecessor fuel prev).map (prev :: ·)
    | none => some []

def search (graph : KnowledgeGraph) (to_ : String) (fuel : Nat) : Nat → PathSearch →
    Option (List String)
  | 0, _ => none
  | rounds + 1, s =>
    match s.queue with
    | [] => some []
    | current :: queue =>
      match PathSearch.scan current to_ graph.pairs { s with queue := queue } with
      | (met, true) =>
        (retrace met.predecessor fuel to_).map fun chain => (to_ :: chain).reverse
      | (s, false) => search graph to_ fuel rounds s

def path (fuel : Nat) (graph : KnowledgeGraph) (from_ to_ : String) : Option (List String) :=
  if !graph.isNode from_ || !graph.isNode to_ then some []
  else if from_ = to_ then some [from_]
  else search graph to_ fuel fuel ⟨∅, Std.ExtTreeSet.empty.insert from_, [from_]⟩

/-! ## Chains of live edges -/

/-- A live edge joins the two ids, either way. -/
def KnowledgeGraph.Joined (graph : KnowledgeGraph) (near far : String) : Prop :=
  ∃ e ∈ graph.edges, e.validTo = none ∧
    (e.from_ = near ∧ e.to_ = far ∨ e.from_ = far ∧ e.to_ = near)

structure KnowledgeGraph.Chain (graph : KnowledgeGraph) (from_ to_ : String)
    (chain : List String) : Prop where
  starts : chain.head? = some from_
  ends : chain.getLast? = some to_
  joined : chain.IsChain graph.Joined

theorem KnowledgeGraph.mem_pairs {graph : KnowledgeGraph} {near far : String} :
    (near, far) ∈ graph.pairs ↔ graph.Joined near far := by
  rw [pairs, List.mem_flatMap]
  apply exists_congr
  intro e
  apply and_congr_right
  intro _
  cases e.validTo with
  | some _ => simp
  | none => simp [Prod.ext_iff, eq_comm, and_comm]

variable {graph : KnowledgeGraph} {from_ to_ : String}

theorem dist_from : dist graph.Joined (· = from_) from_ = 0 := dist_seed rfl

variable {chain : List String} {predecessor : Std.ExtTreeMap String String} {fuel : Nat}
  {visited : String → Prop}

theorem KnowledgeGraph.Chain.hopsFrom (h : graph.Chain from_ to_ chain) :
    HopsFrom graph.Joined (· = from_) (chain.length - 1) to_ := by
  have hstart : HopsFrom graph.Joined (· = from_) 0 from_ := .seed rfl
  have := hopsFrom_of_isChain h.joined h.starts h.ends hstart
  rwa [Nat.zero_add] at this

/-! ## The predecessors -/

/-- Each id met has a predecessor one hop nearer `from_`. -/
structure Trail (graph : KnowledgeGraph) (from_ : String)
    (predecessor : Std.ExtTreeMap String String) (visited : String → Prop) : Prop where
  hops : ∀ x prev, predecessor[x]? = some prev → visited prev ∧ graph.Joined prev x ∧
    dist graph.Joined (· = from_) x = dist graph.Joined (· = from_) prev + 1
  named : ∀ x, visited x → x = from_ ∨ ∃ prev, predecessor[x]? = some prev

/-- From a visited id the retrace ends, at `from_`, after one round for each hop to it. -/
theorem Trail.retrace_spec (h : Trail graph from_ predecessor visited) {x : String} (hx : visited x)
    (hfuel : dist graph.Joined (· = from_) x < fuel) :
    ∃ chain, retrace predecessor fuel x = some chain ∧
      Descends graph.Joined (· = from_) (x :: chain) ∧
      (x :: chain).getLast? = some from_ ∧
      chain.length = dist graph.Joined (· = from_) x := by
  induction fuel generalizing x with
  | zero => omega
  | succ fuel ih =>
    rw [retrace]
    cases hprev : predecessor[x]? with
    | none =>
      obtain rfl : x = from_ := (h.named x hx).resolve_right fun ⟨prev, hsome⟩ => by
        rw [hprev] at hsome
        cases hsome
      exact ⟨[], rfl, List.IsChain.singleton x, rfl, dist_from.symm⟩
    | some prev =>
      obtain ⟨hvisited, hjoined, hdist⟩ := h.hops x prev hprev
      obtain ⟨chain, hchain, hdesc, hlast, hlength⟩ := ih hvisited (by omega)
      refine ⟨prev :: chain, by simp only [hchain, Option.map_some], ?_, ?_, ?_⟩
      · exact List.isChain_cons_cons.2 ⟨⟨hjoined, hdist⟩, hdesc⟩
      · rw [List.getLast?_cons_cons]
        exact hlast
      · rw [List.length_cons, hlength, hdist]

theorem Trail.meet (h : Trail graph from_ predecessor visited) {current far : String}
    (hcurrent : visited current) (hjoined : graph.Joined current far)
    (hdist : dist graph.Joined (· = from_) far = dist graph.Joined (· = from_) current + 1) :
    Trail graph from_ (predecessor.insert far current) fun x => visited x ∨ x = far where
  hops x prev hprev := by
    simp only [Std.ExtTreeMap.getElem?_insert, compare_eq_iff_eq] at hprev
    split at hprev
    · next heq =>
      cases hprev
      subst heq
      exact ⟨.inl hcurrent, hjoined, hdist⟩
    · obtain ⟨hvisited, hrest⟩ := h.hops x prev hprev
      exact ⟨.inl hvisited, hrest⟩
  named x hx := by
    simp only [Std.ExtTreeMap.getElem?_insert, compare_eq_iff_eq]
    split
    · exact .inr ⟨current, rfl⟩
    · next hne =>
      exact h.named x (hx.resolve_right fun heq => hne heq.symm)

/-! ## A search in progress -/

/-- The far ends not visited yet. -/
def PathSearch.unvisited (graph : KnowledgeGraph) (s : PathSearch) : List String :=
  (graph.pairs.map Prod.snd).filter (· ∉ s.visited)

/-- A round pops an id, and what it queues was unvisited. -/
def PathSearch.room (graph : KnowledgeGraph) (s : PathSearch) : Nat :=
  (s.unvisited graph).length + s.queue.length

/-- What the search holds while it hops from `current`. -/
structure PathSearch.At (graph : KnowledgeGraph) (from_ to_ current : String) (s : PathSearch) :
    Prop where
  scan : Scan graph.Joined (· = from_) current s.queue (· ∈ s.visited)
  trail : Trail graph from_ s.predecessor (· ∈ s.visited)
  unmet : to_ ∉ s.visited

namespace PathSearch

variable {s : PathSearch} {current far : String}

theorem mem_insert_visited {x : String} :
    x ∈ s.visited.insert far ↔ x ∈ s.visited ∨ x = far := by
  rw [Std.ExtTreeSet.mem_insert, compare_eq_iff_eq, or_comm, eq_comm]

theorem At.scan_met (h : s.At graph from_ to_ current) (hjoined : graph.Joined current far)
    (hnew : far ∉ s.visited) :
    Scan graph.Joined (· = from_) current (s.queue ++ [far]) (· ∈ s.visited.insert far) :=
  (h.scan.meet hjoined hnew).congr fun _ => mem_insert_visited

theorem At.trail_met (h : s.At graph from_ to_ current) (hjoined : graph.Joined current far)
    (hnew : far ∉ s.visited) :
    Trail graph from_ (s.predecessor.insert far current) (· ∈ s.visited.insert far) := by
  have hmet := h.trail.meet h.scan.current_visited hjoined (h.scan.dist_met hjoined hnew)
  have heq : (fun x => x ∈ s.visited ∨ x = far) = (· ∈ s.visited.insert far) :=
    funext fun x => propext mem_insert_visited.symm
  rwa [heq] at hmet

variable {met : PathSearch}

/-- Meeting an id keeps the room: it leaves the unvisited and joins the queue. -/
theorem room_meet (hjoined : graph.Joined current far) (hnew : far ∉ s.visited)
    (hvisited : met.visited = s.visited.insert far) (hqueue : met.queue = s.queue ++ [far]) :
    met.room graph ≤ s.room graph := by
  have hmem : far ∈ s.unvisited graph := by
    rw [unvisited, List.mem_filter, List.mem_map]
    exact ⟨⟨(current, far), KnowledgeGraph.mem_pairs.2 hjoined, rfl⟩, decide_eq_true hnew⟩
  have hrest : met.unvisited graph = (s.unvisited graph).filter (· ≠ far) := by
    rw [unvisited, unvisited, List.filter_filter]
    apply List.filter_congr
    intro x _
    rw [hvisited, Bool.eq_iff_iff]
    simp only [mem_insert_visited, decide_eq_true_eq, Bool.and_eq_true, not_or, ne_eq, and_comm]
  have hlt : (met.unvisited graph).length < (s.unvisited graph).length := by
    rw [hrest, List.length_filter_lt_length_iff_exists]
    exact ⟨far, hmem, by simp⟩
  rw [room, room, hqueue, List.length_append, List.length_singleton]
  omega

/-- What a scan over `pairs` answers: it met `to_`, or every far end from `current` is visited. -/
def Scanned (graph : KnowledgeGraph) (from_ to_ current : String) (pairs : List (String × String))
    (s : PathSearch) : PathSearch × Bool → Prop
  | (met, true) => Trail graph from_ met.predecessor (· ∈ met.visited) ∧ to_ ∈ met.visited
  | (scanned, false) => scanned.At graph from_ to_ current ∧ scanned.room graph ≤ s.room graph ∧
      (∀ x ∈ s.visited, x ∈ scanned.visited) ∧
      ∀ far, (current, far) ∈ pairs → far ∈ scanned.visited

theorem Scanned.cons {near : String} {rest : List (String × String)} {answer : PathSearch × Bool}
    (h : met.Scanned graph from_ to_ current rest answer) (hroom : met.room graph ≤ s.room graph)
    (hmono : ∀ x ∈ s.visited, x ∈ met.visited) (hfar : near = current → far ∈ met.visited) :
    s.Scanned graph from_ to_ current ((near, far) :: rest) answer := by
  obtain ⟨scanned, found⟩ := answer
  cases found with
  | true => exact h
  | false =>
    obtain ⟨hat, hle, hkept, hall⟩ := h
    refine ⟨hat, Nat.le_trans hle hroom, fun x hx => hkept x (hmono x hx), fun y hy => ?_⟩
    rcases List.mem_cons.1 hy with heq | hy
    · cases heq
      exact hkept far (hfar rfl)
    · exact hall y hy

theorem scan_spec {pairs : List (String × String)} (hpairs : pairs ⊆ graph.pairs)
    (h : s.At graph from_ to_ current) :
    s.Scanned graph from_ to_ current pairs (scan current to_ pairs s) := by
  induction pairs generalizing s with
  | nil => exact ⟨h, Nat.le_refl _, fun _ hx => hx, fun _ hfar => absurd hfar List.not_mem_nil⟩
  | cons pair rest ih =>
    obtain ⟨near, far⟩ := pair
    have hrest : rest ⊆ graph.pairs := fun p hp => hpairs (List.mem_cons_of_mem _ hp)
    rw [scan]
    split
    · next hmeet =>
      obtain ⟨rfl, hnew⟩ := hmeet
      have hjoined : graph.Joined near far := KnowledgeGraph.mem_pairs.1 (hpairs List.mem_cons_self)
      have hfar : far ∈ s.visited.insert far := mem_insert_visited.2 (.inr rfl)
      dsimp only
      split
      · next hto =>
        subst hto
        exact ⟨h.trail_met hjoined hnew, hfar⟩
      · next hto =>
        refine (ih hrest ⟨h.scan_met hjoined hnew, h.trail_met hjoined hnew, fun hin => ?_⟩).cons
          (room_meet hjoined hnew rfl rfl) (fun x hx => mem_insert_visited.2 (.inl hx))
          fun _ => hfar
        rcases mem_insert_visited.1 hin with hin | hin
        · exact h.unmet hin
        · exact hto hin.symm
    · next hskip =>
      apply (ih hrest h).cons (Nat.le_refl _) fun _ hx => hx
      intro hnear
      by_contra hnot
      exact hskip ⟨hnear, hnot⟩

end PathSearch

/-! ## The answer -/

/-- The search from a popped id answers a shortest chain, or none is left to find. -/
def Found (graph : KnowledgeGraph) (from_ to_ : String) (chain : List String) : Prop :=
  (chain = [] ∧ ∀ n, ¬HopsFrom graph.Joined (· = from_) n to_) ∨
    graph.Chain from_ to_ chain ∧ chain.Nodup ∧
      chain.length = dist graph.Joined (· = from_) to_ + 1

theorem Trail.found (h : Trail graph from_ predecessor visited) (hto : visited to_)
    (hfuel : dist graph.Joined (· = from_) to_ < fuel) :
    ∃ chain, ((retrace predecessor fuel to_).map fun chain => (to_ :: chain).reverse) =
      some chain ∧ Found graph from_ to_ chain := by
  obtain ⟨chain, hchain, hdesc, hlast, hlength⟩ := h.retrace_spec hto hfuel
  refine ⟨(to_ :: chain).reverse, by rw [hchain]; rfl, .inr ⟨⟨?_, ?_, ?_⟩, ?_, ?_⟩⟩
  · rw [List.head?_reverse, hlast]
  · rw [List.getLast?_reverse]
    rfl
  · rw [List.isChain_reverse]
    exact hdesc.imp fun y x hxy => hxy.1
  · exact List.nodup_reverse.2 hdesc.nodup
  · rw [List.length_reverse, List.length_cons, hlength]

variable {rounds fuel' : Nat}

theorem search_spec (hfuel : dist graph.Joined (· = from_) to_ < fuel) {s : PathSearch}
    {current : String} {queue : List String} (hqueue : s.queue = current :: queue)
    (h : PathSearch.At graph from_ to_ current { s with queue := queue })
    (hrounds : s.room graph < rounds) :
    ∃ chain, search graph to_ fuel rounds s = some chain ∧ Found graph from_ to_ chain := by
  induction rounds generalizing s current queue with
  | zero => omega
  | succ rounds ih =>
    have hroom : s.room graph = PathSearch.room graph { s with queue := queue } + 1 := by
      rw [PathSearch.room, PathSearch.room, hqueue, List.length_cons]
      rfl
    have hspec := PathSearch.scan_spec (List.Subset.refl graph.pairs) h
    rw [search, hqueue]
    dsimp only
    split
    · next met hmet =>
      rw [hmet] at hspec
      exact hspec.1.found hspec.2 hfuel
    · next scanned hscanned =>
      rw [hscanned] at hspec
      obtain ⟨hat, hle, -, hall⟩ := hspec
      have hexpanded : ∀ y, graph.Joined current y → y ∈ scanned.visited := fun y hy =>
        hall y (KnowledgeGraph.mem_pairs.2 hy)
      cases hnext : scanned.queue with
      | nil =>
        cases rounds with
        | zero => omega
        | succ rounds =>
          rw [search, hnext]
          refine ⟨[], rfl, .inl ⟨rfl, fun n hn => hat.unmet ?_⟩⟩
          have hscan := hat.scan
          rw [hnext] at hscan
          exact hscan.exhausted hexpanded hn
      | cons c rest =>
        have hscan := hat.scan
        rw [hnext] at hscan
        exact ih hnext ⟨hscan.next hexpanded, hat.trail, hat.unmet⟩ (by omega)

theorem KnowledgeGraph.isNode_iff {id : String} :
    graph.isNode id = true ↔ ∃ n ∈ graph.nodes, n.id = id := by
  simp [isNode]

/-! ## More fuel -/

theorem retrace_mono {step : String} (h : retrace predecessor fuel step = some chain)
    (hle : fuel ≤ fuel') : retrace predecessor fuel' step = some chain := by
  induction fuel generalizing fuel' step chain with
  | zero => cases h
  | succ fuel ih =>
    obtain ⟨fuel', rfl⟩ : ∃ n, fuel' = n + 1 := ⟨fuel' - 1, by omega⟩
    rw [retrace] at h ⊢
    cases hprev : predecessor[step]? with
    | none =>
      rw [hprev] at h
      exact h
    | some prev =>
      rw [hprev] at h
      obtain ⟨rest, hrest, rfl⟩ := Option.map_eq_some_iff.1 h
      exact Option.map_eq_some_iff.2 ⟨rest, ih hrest (by omega), rfl⟩

theorem search_mono {rounds' : Nat} {s : PathSearch}
    (h : search graph to_ fuel rounds s = some chain) (hfuel : fuel ≤ fuel')
    (hrounds : rounds ≤ rounds') : search graph to_ fuel' rounds' s = some chain := by
  induction rounds generalizing rounds' s with
  | zero => cases h
  | succ rounds ih =>
    obtain ⟨rounds', rfl⟩ : ∃ n, rounds' = n + 1 := ⟨rounds' - 1, by omega⟩
    rw [search] at h ⊢
    cases hqueue : s.queue with
    | nil =>
      rw [hqueue] at h
      exact h
    | cons current queue =>
      rw [hqueue] at h
      dsimp only at h ⊢
      split at h
      · obtain ⟨rest, hrest, rfl⟩ := Option.map_eq_some_iff.1 h
        exact Option.map_eq_some_iff.2 ⟨rest, retrace_mono hrest hfuel, rfl⟩
      · exact ih h (by omega)

theorem path_mono (h : path fuel graph from_ to_ = some chain) (hle : fuel ≤ fuel') :
    path fuel' graph from_ to_ = some chain := by
  rw [path] at h ⊢
  split
  · next habsent => rwa [if_pos habsent] at h
  · next hnodes =>
    rw [if_neg hnodes] at h
    split
    · next heq => rwa [if_pos heq] at h
    · next hne =>
      rw [if_neg hne] at h
      exact search_mono h hle hle

/-! ## The shortest path -/

theorem at_start (hne : from_ ≠ to_) :
    PathSearch.At graph from_ to_ from_ ⟨∅, Std.ExtTreeSet.empty.insert from_, []⟩ := by
  have hvisited : ∀ x, x ∈ (Std.ExtTreeSet.empty : Std.ExtTreeSet String).insert from_ ↔
      x = from_ := by
    intro x
    rw [PathSearch.mem_insert_visited (s := ⟨∅, Std.ExtTreeSet.empty, []⟩)]
    exact or_iff_right Std.ExtTreeSet.not_mem_empty
  refine ⟨(Scan.start fun x => by simp).congr hvisited,
    ⟨fun x prev hprev => ?_, fun x hx => ?_⟩, ?_⟩
  · rw [Std.ExtTreeMap.getElem?_empty] at hprev
    cases hprev
  · exact .inl ((hvisited x).1 hx)
  · intro hto
    exact hne ((hvisited to_).1 hto).symm

theorem path_search (hfrom : graph.isNode from_ = true) (hto : graph.isNode to_ = true)
    (hne : from_ ≠ to_) :
    ∃ chain fuel, path fuel graph from_ to_ = some chain ∧ Found graph from_ to_ chain := by
  let start : PathSearch := ⟨∅, Std.ExtTreeSet.empty.insert from_, [from_]⟩
  let fuel := max (dist graph.Joined (· = from_) to_) (start.room graph) + 1
  have hspec : ∃ chain, search graph to_ fuel fuel start = some chain ∧
      Found graph from_ to_ chain := search_spec (by omega) rfl (at_start hne) (by omega)
  obtain ⟨chain, hchain, hfound⟩ := hspec
  refine ⟨chain, fuel, ?_, hfound⟩
  rw [path, hfrom, hto, if_neg hne]
  exact hchain

/-- `path` ends, with a shortest chain of live edges that repeats no id where there is one between
two nodes, and with no chain elsewhere. -/
theorem path_shortest (graph : KnowledgeGraph) (from_ to_ : String) :
    ∃ chain, (∃ bound, ∀ fuel ≥ bound, path fuel graph from_ to_ = some chain) ∧
      (chain ≠ [] → graph.Chain from_ to_ chain ∧ chain.Nodup ∧
        ∀ other, graph.Chain from_ to_ other → chain.length ≤ other.length) ∧
      (chain = [] ↔ (¬∃ n ∈ graph.nodes, n.id = from_) ∨ (¬∃ n ∈ graph.nodes, n.id = to_) ∨
        ¬∃ other, graph.Chain from_ to_ other) := by
  rw [← KnowledgeGraph.isNode_iff, ← KnowledgeGraph.isNode_iff]
  by_cases hnodes : graph.isNode from_ = true ∧ graph.isNode to_ = true
  · obtain ⟨hfrom, hto⟩ := hnodes
    have hfound : ∃ chain fuel, path fuel graph from_ to_ = some chain ∧
        Found graph from_ to_ chain := by
      by_cases hne : from_ = to_
      · subst hne
        refine ⟨[from_], 0, by rw [path, hfrom, if_pos rfl]; rfl, .inr ⟨⟨rfl, rfl, ?_⟩, ?_, ?_⟩⟩
        · exact List.IsChain.singleton from_
        · exact List.nodup_singleton from_
        · rw [dist_from]
          rfl
      · exact path_search hfrom hto hne
    obtain ⟨chain, bound, hpath, hfound⟩ := hfound
    refine ⟨chain, ⟨bound, fun fuel hle => path_mono hpath hle⟩, ?_⟩
    rcases hfound with ⟨rfl, hnone⟩ | ⟨hchain, hnodup, hlength⟩
    · refine ⟨fun h => absurd rfl h, fun _ => .inr (.inr ?_), fun _ => rfl⟩
      rintro ⟨other, hother⟩
      exact hnone _ hother.hopsFrom
    · refine ⟨fun _ => ⟨hchain, hnodup, fun other hother => ?_⟩, ?_⟩
      · have hle := dist_le hother.hopsFrom
        have hpos : other ≠ [] := by
          rintro rfl
          cases hother.starts
        have := List.length_pos_iff.2 hpos
        omega
      · constructor
        · rintro rfl
          cases hchain.starts
        · rintro (h | h | h)
          · exact absurd hfrom h
          · exact absurd hto h
          · exact absurd ⟨chain, hchain⟩ h
  · refine ⟨[], ⟨0, fun fuel _ => ?_⟩, fun h => absurd rfl h, fun _ => ?_, fun _ => rfl⟩
    · rw [path, if_pos]
      rw [not_and_or, Bool.not_eq_true, Bool.not_eq_true] at hnodes
      rcases hnodes with h | h
      · rw [h]
        rfl
      · rw [h, Bool.or_comm]
        rfl
    · rcases not_and_or.1 hnodes with h | h
      · exact .inl h
      · exact .inr (.inl h)

end Rigger.Graph
