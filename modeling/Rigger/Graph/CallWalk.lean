import Mathlib.Order.Bounds.Basic
import Rigger.Graph.Calls
import Rigger.Graph.Neighborhood
import Rigger.Lib.Bfs

/-!
# The layered call walk (`sqlite.rs`, `layered_call_walk`)

A breadth-first walk over the hops its caller resolves (`downHops`, `upHops`), a node at a time
through a queue.  The layer map, the frontier marks and the queue are filled on a node's first
meeting alone, so a node first met through an ambiguous hop stays marked, and unwalked, whatever
unambiguous hop meets it later.  `MetClear` says when none is, and `layeredCallWalk_iff` that this
is all that goes wrong.
-/

namespace Rigger.Graph

open Lib

inductive Direction where
  | down
  | up
deriving DecidableEq

/-- The ends of the edge a hop is: `orient` of `calls_down` and of `calls_up`. -/
def Direction.orient (direction : Direction) (cur next : String) : String × String :=
  match direction with
  | .down => (cur, next)
  | .up => (next, cur)

structure CallNode where
  node : GraphNode
  layer : Nat
  frontier : Option (List String)

structure CallEdge where
  edge : GraphEdge
  back : Bool
deriving DecidableEq

/-- The edge of a hop out of `cur`. -/
def CallHop.edge (direction : Direction) (cur : String) (h : CallHop) (back : Bool) : CallEdge where
  edge := {
    from_ := (direction.orient cur h.neighbor).1
    to_ := (direction.orient cur h.neighbor).2
    rel := .calls
    validFrom := h.validFrom
    validTo := none
    source := h.source
    tier := h.tier }
  back := back

structure CallWalk where
  layerOf : Std.ExtTreeMap String Nat
  frontierOf : Std.ExtTreeMap String (List String)
  callEdges : List CallEdge
  queue : List (String × Nat)
  /-- The nodes the walk asked the hops of. -/
  expanded : List String

namespace CallWalk

/-- One hop out of `cur`. -/
def meet (direction : Direction) (cur : String) (curLayer : Nat) (w : CallWalk) (h : CallHop) :
    CallWalk :=
  match w.layerOf[h.neighbor]? with
  | some nextLayer =>
    { w with callEdges := w.callEdges ++ [h.edge direction cur (nextLayer ≤ curLayer)] }
  | none =>
    let newly := { w with
      layerOf := w.layerOf.insert h.neighbor (curLayer + 1)
      callEdges := w.callEdges ++ [h.edge direction cur (curLayer + 1 ≤ curLayer)] }
    match h.frontier with
    | some cands => { newly with frontierOf := newly.frontierOf.insert h.neighbor cands }
    | none => { newly with queue := newly.queue ++ [(h.neighbor, curLayer + 1)] }

def expand (hops : String → List CallHop) (direction : Direction) (cur : String) (curLayer : Nat)
    (w : CallWalk) : CallWalk :=
  (hops cur).foldl (meet direction cur curLayer) { w with expanded := w.expanded ++ [cur] }

/-- The loop over the queue, on fuel. -/
def walk (hops : String → List CallHop) (direction : Direction) (depth : Int) :
    Nat → CallWalk → Option CallWalk
  | 0, _ => none
  | fuel + 1, w =>
    match w.queue with
    | [] => some w
    | (cur, curLayer) :: queue =>
      if depth ≤ curLayer then walk hops direction depth fuel { w with queue := queue }
      else walk hops direction depth fuel
        (expand hops direction cur curLayer { w with queue := queue })

/-- The seeds that exist, sorted, without repeats. -/
def seedIds (nodeRow : String → Option Node) (seed : List String) : List String :=
  ((seed.insertionSort (· ≤ ·)).dedup).filter fun s => (nodeRow s).isSome

def start (seeds : List String) : CallWalk where
  layerOf := seeds.foldl (fun layerOf s => layerOf.insert s 0) ∅
  frontierOf := ∅
  callEdges := []
  queue := seeds.map fun s => (s, 0)
  expanded := []

/-- The nodes reached, by layer and id. -/
def nodes (nodeRow : String → Option Node) (w : CallWalk) : List CallNode :=
  (w.layerOf.toList.filterMap fun (id, layer) =>
    (nodeRow id).map fun row => ⟨rowToNode id row, layer, w.frontierOf[id]?⟩).insertionSort
    fun a b => a.layer < b.layer ∨ a.layer = b.layer ∧ a.node.id ≤ b.node.id

/-- The edges by their ends. -/
def edges (w : CallWalk) : List CallEdge :=
  w.callEdges.insertionSort fun a b =>
    a.edge.from_ < b.edge.from_ ∨ a.edge.from_ = b.edge.from_ ∧ a.edge.to_ ≤ b.edge.to_

end CallWalk

def layeredCallWalk (fuel : Nat) (nodeRow : String → Option Node) (hops : String → List CallHop)
    (direction : Direction) (seed : List String) (depth : Int) :
    Option (List CallNode × List CallEdge) :=
  (CallWalk.walk hops direction depth fuel (CallWalk.start (CallWalk.seedIds nodeRow seed))).map
    fun w => (w.nodes nodeRow, w.edges)

namespace CallWalk

/-! ## What a walk is for -/

section Spec

variable (hops : String → List CallHop) (seeds : List String)

/-- Where the unambiguous hops out of a node lead. -/
def clearNext (cur : String) : List String :=
  ((hops cur).filter fun h => h.frontier.isNone).map CallHop.neighbor

/-- A node is `n` unambiguous hops from a seed. -/
def ClearAt : Nat → String → Prop := HopsFrom (fun x y => y ∈ clearNext hops x) (· ∈ seeds)

/-- A node is `n` hops the walk follows from a seed: an ambiguous one is the last. -/
def FollowedAt : Nat → String → Prop
  | 0, y => y ∈ seeds
  | n + 1, y => ∃ x, ClearAt hops seeds n x ∧ ∃ h ∈ hops x, h.neighbor = y

/-- The answer of a walk that asked for the hops of `w.expanded`. -/
structure Faithful (nodeRow : String → Option Node) (direction : Direction) (depth : Int)
    (w : CallWalk) : Prop where
  layers : ∀ n ∈ w.nodes nodeRow, IsLeast {k | FollowedAt hops seeds k n.node.id} n.layer
  unmarked : ∀ y k, ClearAt hops seeds k y → (k : Int) ≤ depth → (nodeRow y).isSome →
    ∃ n ∈ w.nodes nodeRow, n.node.id = y ∧ n.frontier = none
  walked : ∀ y k, ClearAt hops seeds k y → (k : Int) < depth → y ∈ w.expanded
  followed : ∀ x ∈ w.expanded, ∀ h ∈ hops x, ∃ near far, w.layerOf[x]? = some near ∧
    w.layerOf[h.neighbor]? = some far ∧ h.edge direction x (far ≤ near) ∈ w.edges
  edges_of : ∀ e ∈ w.edges, ∃ x ∈ w.expanded, ∃ h ∈ hops x, ∃ near far,
    w.layerOf[x]? = some near ∧ w.layerOf[h.neighbor]? = some far ∧
      e = h.edge direction x (far ≤ near)

/-- The hops out of the nodes within `n` unambiguous hops, in breadth-first order. -/
def hopsWithin (n : Nat) : List CallHop :=
  ((rings (clearNext hops) seeds n).1 ++ (rings (clearNext hops) seeds n).2).flatMap hops

/-- The first of the hops that meets the node is unambiguous. -/
def FirstClear (trace : List CallHop) (y : String) : Prop :=
  ∀ h ∈ trace.find? (·.neighbor == y), h.frontier = none

/-- Among the hops out of what is nearer, in breadth-first order, the first onto a node some
unambiguous hop meets within the depth is unambiguous.  At the depth itself it matters for the nodes
the walk returns alone. -/
def MetClear (nodeRow : String → Option Node) (depth : Int) : Prop :=
  ∀ n : Nat, (n : Int) < depth → ∀ y ∈ (rings (clearNext hops) seeds (n + 1)).2,
    (nodeRow y).isSome ∨ (n : Int) + 1 < depth → FirstClear (hopsWithin hops seeds n) y

end Spec

/-! ## One hop -/

variable {hops : String → List CallHop} {direction : Direction} {cur : String} {curLayer : Nat}

theorem meet_frame (w : CallWalk) (h : CallHop) (queue : List (String × Nat))
    (expanded : List String) :
    meet direction cur curLayer { w with queue := queue ++ w.queue, expanded := expanded } h =
      { meet direction cur curLayer w h with
        queue := queue ++ (meet direction cur curLayer w h).queue, expanded := expanded } := by
  rw [meet, meet]
  cases w.layerOf[h.neighbor]? with
  | some _ => rfl
  | none =>
    cases h.frontier with
    | some _ => rfl
    | none => simp only [List.append_assoc]

@[simp] theorem meet_expanded (w : CallWalk) (h : CallHop) :
    (meet direction cur curLayer w h).expanded = w.expanded := by
  rw [meet]
  cases w.layerOf[h.neighbor]? with
  | some _ => rfl
  | none => cases h.frontier <;> rfl

theorem meet_callEdges (w : CallWalk) (h : CallHop) :
    (meet direction cur curLayer w h).callEdges = w.callEdges ++
      [h.edge direction cur ((w.layerOf[h.neighbor]?.getD (curLayer + 1)) ≤ curLayer)] := by
  rw [meet]
  cases w.layerOf[h.neighbor]? with
  | some _ => rfl
  | none => cases h.frontier <;> rfl

theorem meet_layerOf (w : CallWalk) (h : CallHop) (y : String) :
    (meet direction cur curLayer w h).layerOf[y]? =
      (w.layerOf[y]?).or (if h.neighbor = y then some (curLayer + 1) else none) := by
  rw [meet]
  cases hlayer : w.layerOf[h.neighbor]? with
  | some layer =>
    dsimp only
    split
    · next heq =>
      subst heq
      rw [hlayer]
      rfl
    · rw [Option.or_none]
  | none =>
    have hinsert : (w.layerOf.insert h.neighbor (curLayer + 1))[y]? =
        (w.layerOf[y]?).or (if h.neighbor = y then some (curLayer + 1) else none) := by
      simp only [Std.ExtTreeMap.getElem?_insert, compare_eq_iff_eq]
      split
      · next heq =>
        subst heq
        rw [hlayer]
        rfl
      · rw [Option.or_none]
    cases h.frontier <;> exact hinsert

theorem meet_frontierOf (w : CallWalk) (h : CallHop) (y : String) :
    (meet direction cur curLayer w h).frontierOf[y]? =
      if h.neighbor = y ∧ w.layerOf[y]? = none then h.frontier.or w.frontierOf[y]?
      else w.frontierOf[y]? := by
  rw [meet]
  cases hlayer : w.layerOf[h.neighbor]? with
  | some layer =>
    rw [if_neg]
    rintro ⟨rfl, hnone⟩
    rw [hlayer] at hnone
    cases hnone
  | none =>
    cases h.frontier with
    | none => simp
    | some cands =>
      simp only [Std.ExtTreeMap.getElem?_insert, compare_eq_iff_eq]
      split
      · next heq =>
        subst heq
        rw [if_pos ⟨rfl, hlayer⟩]
        rfl
      · next hne => rw [if_neg fun h => hne h.1]

theorem meet_queue (w : CallWalk) (h : CallHop) :
    (meet direction cur curLayer w h).queue =
      if w.layerOf[h.neighbor]? = none ∧ h.frontier = none
      then w.queue ++ [(h.neighbor, curLayer + 1)] else w.queue := by
  rw [meet]
  cases w.layerOf[h.neighbor]? with
  | some _ => simp
  | none => cases h.frontier <;> simp

/-! ## What every walk keeps -/

/-- What a walk holds once it met the hops of `trace`, each out of the node it stands with. -/
structure Recorded (seeds : List String) (direction : Direction) (trace : List (String × CallHop))
    (w : CallWalk) : Prop where
  layered : ∀ y, w.layerOf[y]? = none ↔ y ∉ seeds ∧ ∀ p ∈ trace, p.2.neighbor ≠ y
  marked : ∀ y, w.frontierOf[y]? =
    if y ∈ seeds then none
    else (trace.find? fun p => p.2.neighbor == y).bind fun p => p.2.frontier
  queued : ∀ x l, (x, l) ∈ w.queue → w.frontierOf[x]? = none ∧ w.layerOf[x]? = some l
  unmarked : ∀ x ∈ w.expanded, w.frontierOf[x]? = none ∧ w.layerOf[x]? ≠ none
  followed : ∀ p ∈ trace, ∃ near far, w.layerOf[p.1]? = some near ∧
    w.layerOf[p.2.neighbor]? = some far ∧ p.2.edge direction p.1 (far ≤ near) ∈ w.callEdges
  edges_of : ∀ e ∈ w.callEdges, ∃ p ∈ trace, ∃ near far, w.layerOf[p.1]? = some near ∧
    w.layerOf[p.2.neighbor]? = some far ∧ e = p.2.edge direction p.1 (far ≤ near)

variable {seeds : List String} {trace : List (String × CallHop)} {w : CallWalk} {y : String}

/-- A hop layers no node anew. -/
theorem meet_layerOf_of_some {h : CallHop} {l : Nat} (hy : w.layerOf[y]? = some l) :
    (meet direction cur curLayer w h).layerOf[y]? = some l := by
  rw [meet_layerOf, hy]
  rfl

theorem meet_frontierOf_of_some {h : CallHop} (hy : w.layerOf[y]? ≠ none) :
    (meet direction cur curLayer w h).frontierOf[y]? = w.frontierOf[y]? := by
  rw [meet_frontierOf, if_neg fun hh => hy hh.2]

theorem Recorded.meet (hw : Recorded seeds direction trace w) {h : CallHop}
    (hcur : w.layerOf[cur]? = some curLayer) :
    Recorded seeds direction (trace ++ [(cur, h)]) (w.meet direction cur curLayer h) where
  layered y := by
    rw [meet_layerOf, Option.or_eq_none_iff, hw.layered y]
    simp only [List.mem_append, List.mem_singleton, or_imp, forall_and, forall_eq, ite_eq_right_iff,
      reduceCtorEq, imp_false]
    tauto
  marked y := by
    rw [meet_frontierOf, hw.marked y]
    by_cases hseed : y ∈ seeds
    · rw [if_pos hseed, if_neg]
      · rw [if_pos hseed]
      · rintro ⟨-, hnone⟩
        exact ((hw.layered y).1 hnone).1 hseed
    · rw [if_neg hseed, if_neg hseed, List.find?_append]
      have hnone : w.layerOf[y]? = none ↔ trace.find? (fun p => p.2.neighbor == y) = none := by
        rw [hw.layered y, List.find?_eq_none]
        simp [hseed]
      by_cases hfind : trace.find? (fun p => p.2.neighbor == y) = none
      · rw [hfind, hnone.2 hfind]
        by_cases hy : h.neighbor = y
        · simp [hy]
        · simp [hy]
      · obtain ⟨p, hp⟩ := Option.ne_none_iff_exists'.1 hfind
        rw [if_neg fun hh => hfind (hnone.1 hh.2), hp]
        rfl
  queued x l hx := by
    rw [meet_queue] at hx
    have hold : (x, l) ∈ w.queue → (w.meet direction cur curLayer h).frontierOf[x]? = none ∧
        (w.meet direction cur curLayer h).layerOf[x]? = some l := by
      intro hx
      obtain ⟨hmark, hlayer⟩ := hw.queued x l hx
      rw [meet_frontierOf_of_some (by rw [hlayer]; exact Option.some_ne_none l)]
      exact ⟨hmark, meet_layerOf_of_some hlayer⟩
    split at hx
    · next hnew =>
      rcases List.mem_append.1 hx with hx | hx
      · exact hold hx
      · cases List.mem_singleton.1 hx
        rw [meet_frontierOf, meet_layerOf, hnew.1, if_pos ⟨rfl, rfl⟩, hnew.2, if_pos rfl]
        refine ⟨?_, rfl⟩
        -- an id with no layer carries no mark
        obtain ⟨hseed, hmet⟩ := (hw.layered h.neighbor).1 hnew.1
        rw [Option.none_or, hw.marked, if_neg hseed, List.find?_eq_none.2]
        · rfl
        · intro p hp
          simpa using hmet p hp
    · exact hold hx
  unmarked x hx := by
    rw [meet_expanded] at hx
    obtain ⟨hmark, hlayer⟩ := hw.unmarked x hx
    obtain ⟨l, hl⟩ := Option.ne_none_iff_exists'.1 hlayer
    rw [meet_frontierOf_of_some hlayer, meet_layerOf_of_some hl]
    exact ⟨hmark, Option.some_ne_none l⟩
  followed p hp := by
    rw [meet_callEdges]
    rcases List.mem_append.1 hp with hp | hp
    · obtain ⟨near, far, hnear, hfar, hedge⟩ := hw.followed p hp
      exact ⟨near, far, meet_layerOf_of_some hnear, meet_layerOf_of_some hfar,
        List.mem_append_left _ hedge⟩
    · cases List.mem_singleton.1 hp
      refine ⟨curLayer, _, meet_layerOf_of_some hcur, ?_, List.mem_append_right _
        (List.mem_singleton.2 rfl)⟩
      rw [meet_layerOf, if_pos rfl]
      cases w.layerOf[h.neighbor]? <;> rfl
  edges_of e he := by
    rw [meet_callEdges] at he
    rcases List.mem_append.1 he with he | he
    · obtain ⟨p, hp, near, far, hnear, hfar, heq⟩ := hw.edges_of e he
      exact ⟨p, List.mem_append_left _ hp, near, far, meet_layerOf_of_some hnear,
        meet_layerOf_of_some hfar, heq⟩
    · refine ⟨(cur, h), List.mem_append_right _ (List.mem_singleton.2 rfl), curLayer, _,
        meet_layerOf_of_some hcur, ?_, List.mem_singleton.1 he⟩
      rw [meet_layerOf, if_pos rfl]
      cases w.layerOf[h.neighbor]? <;> rfl

theorem Recorded.meets (hw : Recorded seeds direction trace w)
    (hcur : w.layerOf[cur]? = some curLayer) (met : List CallHop) :
    Recorded seeds direction (trace ++ met.map fun h => (cur, h))
      (met.foldl (CallWalk.meet direction cur curLayer) w) := by
  induction met generalizing trace w with
  | nil => simpa using hw
  | cons h met ih =>
    have := ih (hw.meet hcur (h := h)) (meet_layerOf_of_some hcur)
    simpa using this

/-- The hops out of the nodes, each with its own. -/
def traceOf (hops : String → List CallHop) (expanded : List String) : List (String × CallHop) :=
  expanded.flatMap fun x => (hops x).map fun h => (x, h)

@[simp] theorem traceOf_append (xs ys : List String) :
    traceOf hops (xs ++ ys) = traceOf hops xs ++ traceOf hops ys := List.flatMap_append

theorem traceOf_singleton (x : String) : traceOf hops [x] = (hops x).map fun h => (x, h) :=
  List.flatMap_singleton ..

theorem map_snd_traceOf (xs : List String) : (traceOf hops xs).map Prod.snd = xs.flatMap hops := by
  induction xs with
  | nil => rfl
  | cons x xs ih => simpa [traceOf, Function.comp_def] using ih

theorem Recorded.expand (hw : Recorded seeds direction (traceOf hops w.expanded) w)
    (hmark : w.frontierOf[cur]? = none) (hlayer : w.layerOf[cur]? = some curLayer) :
    Recorded seeds direction (traceOf hops (w.expanded ++ [cur]))
      (w.expand hops direction cur curLayer) := by
  have hasked : Recorded seeds direction (traceOf hops w.expanded)
      { w with expanded := w.expanded ++ [cur] } := by
    refine ⟨hw.layered, hw.marked, hw.queued, fun x hx => ?_, hw.followed, hw.edges_of⟩
    rcases List.mem_append.1 hx with hx | hx
    · exact hw.unmarked x hx
    · rw [List.mem_singleton.1 hx]
      exact ⟨hmark, by rw [hlayer]; exact Option.some_ne_none curLayer⟩
  rw [traceOf_append, traceOf_singleton]
  exact hasked.meets hlayer (hops cur)

theorem start_layerOf (seeds : List String) (y : String) :
    (start seeds).layerOf[y]? = if y ∈ seeds then some 0 else none := by
  have hfold : ∀ layerOf : Std.ExtTreeMap String Nat,
      (seeds.foldl (fun layerOf s => layerOf.insert s 0) layerOf)[y]? =
        if y ∈ seeds then some 0 else layerOf[y]? := by
    induction seeds with
    | nil => simp
    | cons s seeds ih =>
      intro layerOf
      rw [List.foldl_cons, ih]
      simp only [Std.ExtTreeMap.getElem?_insert, compare_eq_iff_eq, List.mem_cons]
      by_cases hy : s = y
      · simp [hy]
      · simp [hy, Ne.symm hy]
  exact (hfold ∅).trans (by simp)

theorem recorded_start (seeds : List String) (direction : Direction) :
    Recorded seeds direction [] (start seeds) where
  layered y := by
    rw [start_layerOf]
    simp
  marked y := by simp [start]
  queued x l hx := by
    obtain ⟨s, hs, heq⟩ := List.mem_map.1 hx
    cases heq
    rw [start_layerOf, if_pos hs]
    exact ⟨by simp [start], rfl⟩
  unmarked x hx := by cases hx
  followed p hp := by cases hp
  edges_of e he := by cases he

/-! ## A ring at a time -/

def expandRing (hops : String → List CallHop) (direction : Direction) (layer : Nat)
    (ring : List String) (w : CallWalk) : CallWalk :=
  ring.foldl (fun w x => w.expand hops direction x layer) w

/-- The queue's nodes, and what they queue. -/
def round (hops : String → List CallHop) (direction : Direction) (layer : Nat) (w : CallWalk) :
    CallWalk :=
  expandRing hops direction layer (w.queue.map Prod.fst) { w with queue := [] }

def rounds (hops : String → List CallHop) (direction : Direction) (seeds : List String) :
    Nat → CallWalk
  | 0 => start seeds
  | n + 1 => (rounds hops direction seeds n).round hops direction n

theorem expand_frame (w : CallWalk) (queue : List (String × Nat)) :
    expand hops direction cur curLayer { w with queue := queue ++ w.queue } =
      { w.expand hops direction cur curLayer with
        queue := queue ++ (w.expand hops direction cur curLayer).queue } := by
  have hfold : ∀ (met : List CallHop) (w : CallWalk),
      met.foldl (meet direction cur curLayer) { w with queue := queue ++ w.queue } =
        { met.foldl (meet direction cur curLayer) w with
          queue := queue ++ (met.foldl (meet direction cur curLayer) w).queue } := by
    intro met
    induction met with
    | nil => exact fun _ => rfl
    | cons h met ih =>
      intro w
      rw [List.foldl_cons, List.foldl_cons, ← ih]
      congr 1
      have hframe : meet direction cur curLayer { w with queue := queue ++ w.queue } h =
          { meet direction cur curLayer w h with
            queue := queue ++ (meet direction cur curLayer w h).queue, expanded := w.expanded } :=
        meet_frame w h queue w.expanded
      rw [hframe, ← meet_expanded w h]
  exact hfold (hops cur) { w with expanded := w.expanded ++ [cur] }

theorem walk_ring {depth : Int} (hdepth : ¬depth ≤ curLayer) (fuel : Nat) (ring : List String)
    (w : CallWalk) :
    walk hops direction depth (ring.length + fuel)
        { w with queue := (ring.map fun x => (x, curLayer)) ++ w.queue } =
      walk hops direction depth fuel (w.expandRing hops direction curLayer ring) := by
  induction ring generalizing w with
  | nil => simp [expandRing]
  | cons x ring ih =>
    rw [List.length_cons, Nat.add_right_comm, walk, List.map_cons, List.cons_append]
    dsimp only
    rw [if_neg hdepth, expand_frame]
    exact ih (w.expand hops direction x curLayer)

theorem walk_round {depth : Int} (hdepth : ¬depth ≤ curLayer) (fuel : Nat)
    (hqueue : ∀ e ∈ w.queue, e.2 = curLayer) :
    walk hops direction depth (w.queue.length + fuel) w =
      walk hops direction depth fuel (w.round hops direction curLayer) := by
  have hring : ((w.queue.map Prod.fst).map fun x => (x, curLayer)) = w.queue := by
    rw [List.map_map]
    conv_rhs => rw [← List.map_id w.queue]
    apply List.map_congr_left
    intro e he
    exact Prod.ext rfl (hqueue e he).symm
  have hwalk : walk hops direction depth ((w.queue.map Prod.fst).length + fuel)
      { w with queue := ((w.queue.map Prod.fst).map fun x => (x, curLayer)) ++ [] } =
      walk hops direction depth fuel (w.round hops direction curLayer) :=
    walk_ring hdepth fuel (w.queue.map Prod.fst) { w with queue := [] }
  rw [hring, List.length_map, List.append_nil] at hwalk
  exact hwalk

theorem walk_drain {depth : Int} (hqueue : ∀ e ∈ w.queue, depth ≤ e.2) {fuel : Nat}
    (hfuel : w.queue.length < fuel) :
    walk hops direction depth fuel w = some { w with queue := [] } := by
  induction fuel generalizing w with
  | zero => omega
  | succ fuel ih =>
    rw [walk]
    cases hq : w.queue with
    | nil =>
      dsimp only
      rw [← hq]
    | cons e queue =>
      rw [hq] at hqueue hfuel
      obtain ⟨cur, curLayer⟩ := e
      dsimp only
      rw [if_pos (hqueue _ List.mem_cons_self)]
      exact ih (fun e he => hqueue e (List.mem_cons_of_mem _ he)) (by simpa using hfuel)

/-! ## What a ring leaves -/

/-- The hops of the trace, all of one layer. -/
def meetAll (direction : Direction) (layer : Nat) (w : CallWalk) (trace : List (String × CallHop)) :
    CallWalk :=
  trace.foldl (fun w p => w.meet direction p.1 layer p.2) w

theorem meetAll_frame (layer : Nat) (trace : List (String × CallHop)) (w : CallWalk)
    (expanded : List String) :
    meetAll direction layer { w with expanded := expanded } trace =
      { meetAll direction layer w trace with expanded := expanded } := by
  induction trace generalizing w with
  | nil => rfl
  | cons p trace ih =>
    have hframe : meet direction p.1 layer { w with expanded := expanded } p.2 =
        { meet direction p.1 layer w p.2 with expanded := expanded } := meet_frame w p.2 [] expanded
    show meetAll direction layer
      (meet direction p.1 layer { w with expanded := expanded } p.2) trace
      = _
    rw [hframe, ih]
    rfl

theorem meetAll_expanded (layer : Nat) (w : CallWalk) :
    (meetAll direction layer w trace).expanded = w.expanded := by
  have hframe : meetAll direction layer w trace =
      { meetAll direction layer w trace with expanded := w.expanded } :=
    meetAll_frame layer trace w w.expanded
  rw [hframe]

theorem expandRing_eq (layer : Nat) (ring : List String) (w : CallWalk) :
    w.expandRing hops direction layer ring =
      meetAll direction layer { w with expanded := w.expanded ++ ring } (traceOf hops ring) := by
  induction ring generalizing w with
  | nil => simp [expandRing, traceOf, meetAll]
  | cons x ring ih =>
    have hexpand : w.expand hops direction x layer =
        meetAll direction layer { w with expanded := w.expanded ++ [x] } (traceOf hops [x]) := by
      rw [traceOf_singleton, meetAll, List.foldl_map]
      rfl
    show (w.expand hops direction x layer).expandRing hops direction layer ring = _
    rw [ih, hexpand, meetAll_expanded, ← meetAll_frame, meetAll, meetAll, meetAll,
      ← List.foldl_append, ← traceOf_append]
    simp

theorem expandRing_expanded (layer : Nat) (ring : List String) (w : CallWalk) :
    (w.expandRing hops direction layer ring).expanded = w.expanded ++ ring := by
  rw [expandRing_eq, meetAll_expanded]

theorem meetAll_layerOf (layer : Nat) (w : CallWalk) (y : String) :
    (meetAll direction layer w trace).layerOf[y]? =
      (w.layerOf[y]?).or (if ∃ p ∈ trace, p.2.neighbor = y then some (layer + 1) else none) := by
  induction trace generalizing w with
  | nil => simp [meetAll]
  | cons p trace ih =>
    show (meetAll direction layer (meet direction p.1 layer w p.2) trace).layerOf[y]? = _
    rw [ih, meet_layerOf, Option.or_assoc]
    congr 1
    by_cases hp : p.2.neighbor = y
    · simp [hp]
    · simp only [List.exists_mem_cons_iff, hp, false_or, if_false, Option.none_or]

theorem meetAll_frontierOf_of_some (layer : Nat) (hy : w.layerOf[y]? ≠ none) :
    (meetAll direction layer w trace).frontierOf[y]? = w.frontierOf[y]? := by
  induction trace generalizing w with
  | nil => rfl
  | cons p trace ih =>
    show (meetAll direction layer (meet direction p.1 layer w p.2) trace).frontierOf[y]? = _
    obtain ⟨l, hl⟩ := Option.ne_none_iff_exists'.1 hy
    rw [ih, meet_frontierOf_of_some hy]
    rw [meet_layerOf_of_some hl]
    exact Option.some_ne_none l

theorem meetAll_queue_layer (layer : Nat) (hw : ∀ e ∈ w.queue, e.2 = layer + 1) :
    ∀ e ∈ (meetAll direction layer w trace).queue, e.2 = layer + 1 := by
  induction trace generalizing w with
  | nil => exact hw
  | cons p trace ih =>
    apply ih
    intro e he
    rw [meet_queue] at he
    split at he
    · rcases List.mem_append.1 he with he | he
      · exact hw e he
      · rw [List.mem_singleton.1 he]
    · exact hw e he

theorem find?_cons_of_ne {p : String × CallHop} (h : p.2.neighbor ≠ y) :
    (((p :: trace).map Prod.snd).find? fun h => h.neighbor == y) =
      (trace.map Prod.snd).find? fun h => h.neighbor == y := by
  rw [List.map_cons, List.find?_cons_of_neg]
  simpa using h

/-- Where the first hop onto each new node some unambiguous hop meets is unambiguous, a ring queues
these nodes, in order. -/
theorem meetAll_queue {layer : Nat} {met : List String} (hmet : ∀ y ∈ met, w.layerOf[y]? ≠ none)
    (hnew : ∀ y ∉ met, y ∈ (trace.filter fun p => p.2.frontier.isNone).map (·.2.neighbor) →
      w.layerOf[y]? = none ∧ FirstClear (trace.map Prod.snd) y) :
    (meetAll direction layer w trace).queue = w.queue ++
      (newcomers met ((trace.filter fun p => p.2.frontier.isNone).map (·.2.neighbor))).map
        fun y => (y, layer + 1) := by
  induction trace generalizing w met with
  | nil => simp [meetAll, newcomers]
  | cons p trace ih =>
    show (meetAll direction layer (meet direction p.1 layer w p.2) trace).queue = _
    have hkept : ∀ y ∈ met, (meet direction p.1 layer w p.2).layerOf[y]? ≠ none := by
      intro y hy
      obtain ⟨l, hl⟩ := Option.ne_none_iff_exists'.1 (hmet y hy)
      rw [meet_layerOf_of_some hl]
      exact Option.some_ne_none l
    have hrest : ∀ y ∉ met, y ≠ p.2.neighbor →
        y ∈ (trace.filter fun p => p.2.frontier.isNone).map (·.2.neighbor) →
        (meet direction p.1 layer w p.2).layerOf[y]? = none ∧
          FirstClear (trace.map Prod.snd) y := by
      intro y hy hne hmem
      have hcons : y ∈ ((p :: trace).filter fun p => p.2.frontier.isNone).map (·.2.neighbor) := by
        rw [List.filter_cons]
        split
        · exact List.mem_cons_of_mem _ hmem
        · exact hmem
      obtain ⟨hnone, hfirst⟩ := hnew y hy hcons
      rw [FirstClear, find?_cons_of_ne hne.symm] at hfirst
      refine ⟨?_, hfirst⟩
      rw [meet_layerOf, hnone, if_neg hne.symm]
      rfl
    cases hclear : p.2.frontier with
    | none =>
      rw [List.filter_cons_of_pos (by rw [hclear]; rfl), List.map_cons, newcomers]
      split
      · next hin =>
        rw [ih hkept, meet_queue, if_neg fun h => hmet _ hin h.1]
        intro y hy
        exact hrest y hy fun heq => hy (heq ▸ hin)
      · next hout =>
        have hp : w.layerOf[p.2.neighbor]? = none := by
          refine (hnew _ hout ?_).1
          rw [List.filter_cons_of_pos (by rw [hclear]; rfl), List.map_cons]
          exact List.mem_cons_self
        have hmet' : ∀ y ∈ p.2.neighbor :: met,
            (meet direction p.1 layer w p.2).layerOf[y]? ≠ none := by
          intro y hy
          rcases List.mem_cons.1 hy with rfl | hy
          · rw [meet_layerOf, hp, if_pos rfl]
            exact Option.some_ne_none _
          · exact hkept y hy
        rw [ih hmet', meet_queue, if_pos ⟨hp, hclear⟩, List.map_cons,
          List.append_assoc]
        · rfl
        · intro y hy
          rw [List.mem_cons, not_or] at hy
          exact hrest y hy.2 hy.1
    | some cands =>
      have hamb : ¬(w.layerOf[p.2.neighbor]? = none ∧ p.2.frontier = none) := by
        rw [hclear]
        exact fun h => Option.some_ne_none cands h.2
      rw [List.filter_cons_of_neg (by rw [hclear]; exact Bool.false_ne_true), ih hkept, meet_queue,
        if_neg hamb]
      intro y hy hmem
      apply hrest y hy _ hmem
      rintro rfl
      have hcons : p.2.neighbor ∈
          ((p :: trace).filter fun p => p.2.frontier.isNone).map (·.2.neighbor) := by
        rwa [List.filter_cons_of_neg (by rw [hclear]; exact Bool.false_ne_true)]
      -- the first hop onto the node is the ambiguous one
      have hfirst := (hnew _ hy hcons).2 p.2 (by simp)
      rw [hclear] at hfirst
      cases hfirst

/-! ## The rings of unambiguous hops -/

theorem mem_clearNext {x : String} :
    y ∈ clearNext hops x ↔ ∃ h ∈ hops x, h.frontier = none ∧ h.neighbor = y := by
  simp [clearNext, and_assoc]

theorem ClearAt.followed {n : Nat} (h : ClearAt hops seeds n y) : FollowedAt hops seeds n y := by
  cases h with
  | seed hy => exact hy
  | hop hx hxy =>
    obtain ⟨h, hh, -, heq⟩ := mem_clearNext.1 hxy
    exact ⟨_, hx, h, hh, heq⟩

theorem clear_traceOf (ring : List String) :
    (((traceOf hops ring).filter fun p => p.2.frontier.isNone).map (·.2.neighbor)) =
      ring.flatMap (clearNext hops) := by
  induction ring with
  | nil => rfl
  | cons x ring ih =>
    rw [← List.singleton_append, traceOf_append, List.filter_append, List.map_append, ih,
      traceOf_singleton, List.flatMap_append, List.flatMap_singleton]
    simp [clearNext, List.filter_map, Function.comp_def]

/-- A ring onto a node no hop of a nearer ring meets is what follows it. -/
theorem followedAt_succ_iff {n : Nat} (hy : ∀ k ≤ n, ¬FollowedAt hops seeds k y) :
    FollowedAt hops seeds (n + 1) y ↔
      ∃ p ∈ traceOf hops (rings (clearNext hops) seeds n).2, p.2.neighbor = y := by
  simp only [traceOf, List.mem_flatMap, List.mem_map]
  constructor
  · rintro ⟨x, hx, h, hh, heq⟩
    have hwithin := mem_rings_within.2 ⟨n, Nat.le_refl n, hx⟩
    rcases List.mem_append.1 hwithin with hbefore | hring
    · obtain ⟨k, hk, hxk⟩ := mem_rings_before.1 hbefore
      exact absurd ⟨x, hxk, h, hh, heq⟩ (hy (k + 1) hk)
    · exact ⟨(x, h), ⟨x, hring, h, hh, rfl⟩, heq⟩
  · rintro ⟨-, ⟨x, hring, h, hh, rfl⟩, heq⟩
    obtain ⟨k, hk, hxk⟩ := mem_rings_within.1 (List.mem_append_right _ hring)
    have hfollowed : FollowedAt hops seeds (k + 1) y := ⟨x, hxk, h, hh, heq⟩
    obtain rfl : k = n := by
      by_contra hne
      exact hy (k + 1) (by omega) hfollowed
    exact hfollowed

theorem rings_before_append (m n : Nat) :
    ∃ more, (rings (clearNext hops) seeds (m + 1 + n)).1 =
      (rings (clearNext hops) seeds m).1 ++ (rings (clearNext hops) seeds m).2 ++ more := by
  induction n with
  | zero => exact ⟨[], (List.append_nil _).symm⟩
  | succ n ih =>
    obtain ⟨more, hmore⟩ := ih
    refine ⟨more ++ (rings (clearNext hops) seeds (m + 1 + n)).2, ?_⟩
    rw [← Nat.add_assoc, rings, hmore, List.append_assoc]

/-! ## After `n` rings -/

/-- A walk that asked for the hops of all nearer than `n`. -/
structure Reached (hops : String → List CallHop) (seeds : List String) (direction : Direction)
    (n : Nat) (w : CallWalk) : Prop where
  recorded : Recorded seeds direction (traceOf hops w.expanded) w
  expanded : w.expanded = (rings (clearNext hops) seeds n).1
  layers : ∀ y k, w.layerOf[y]? = some k ↔ k ≤ n ∧ IsLeast {k | FollowedAt hops seeds k y} k

theorem Reached.layered {n k : Nat} (h : Reached hops seeds direction n w)
    (hy : FollowedAt hops seeds k y) (hk : k ≤ n) : ∃ l, w.layerOf[y]? = some l := by
  classical
  have hex : ∃ k, FollowedAt hops seeds k y := ⟨k, hy⟩
  refine ⟨Nat.find hex, (h.layers y _).2 ⟨Nat.le_trans (Nat.find_min' hex hy) hk, ?_, ?_⟩⟩
  · exact Nat.find_spec hex
  · exact fun j hj => Nat.find_min' hex hj

theorem reached_start : Reached hops seeds direction 0 (start seeds) where
  recorded := recorded_start seeds direction
  expanded := rfl
  layers y k := by
    rw [start_layerOf]
    constructor
    · intro h
      split at h
      · next hy =>
        cases h
        exact ⟨Nat.le_refl 0, hy, fun _ _ => Nat.zero_le _⟩
      · cases h
    · rintro ⟨hk, hy, -⟩
      obtain rfl : k = 0 := by omega
      exact if_pos hy

theorem Recorded.expandRing {layer : Nat} {ring : List String}
    (hw : Recorded seeds direction (traceOf hops w.expanded) w)
    (hring : ∀ x ∈ ring, w.frontierOf[x]? = none ∧ w.layerOf[x]? = some layer) :
    Recorded seeds direction (traceOf hops (w.expanded ++ ring))
      (w.expandRing hops direction layer ring) := by
  induction ring generalizing w with
  | nil => simpa [CallWalk.expandRing] using hw
  | cons x ring ih =>
    obtain ⟨hmark, hlayer⟩ := hring x List.mem_cons_self
    have hstep := hw.expand hmark hlayer
    have hexpand : w.expand hops direction x layer =
        meetAll direction layer { w with expanded := w.expanded ++ [x] } (traceOf hops [x]) :=
      expandRing_eq layer [x] w
    have hexpanded : (w.expand hops direction x layer).expanded = w.expanded ++ [x] :=
      expandRing_expanded layer [x] w
    rw [← hexpanded] at hstep
    have hrest := ih hstep fun z hz => by
      obtain ⟨hzmark, hzlayer⟩ := hring z (List.mem_cons_of_mem x hz)
      rw [hexpand, meetAll_layerOf, meetAll_frontierOf_of_some]
      · exact ⟨hzmark, by rw [hzlayer]; rfl⟩
      · exact hzlayer ▸ Option.some_ne_none layer
    rw [hexpanded, List.append_assoc, List.singleton_append] at hrest
    exact hrest

theorem Recorded.round {layer : Nat}
    (hw : Recorded seeds direction (traceOf hops w.expanded) w)
    (hqueue : ∀ e ∈ w.queue, e.2 = layer) :
    Recorded seeds direction (traceOf hops (w.round hops direction layer).expanded)
      (w.round hops direction layer) := by
  let emptied : CallWalk := { w with queue := [] }
  have hring : ∀ x ∈ w.queue.map Prod.fst,
      emptied.frontierOf[x]? = none ∧ emptied.layerOf[x]? = some layer := by
    intro x hx
    obtain ⟨e, he, rfl⟩ := List.mem_map.1 hx
    rw [← hqueue e he]
    exact hw.queued e.1 e.2 he
  have hempty : Recorded seeds direction (traceOf hops emptied.expanded) emptied :=
    ⟨hw.layered, hw.marked, fun _ _ hx => (List.not_mem_nil hx).elim, hw.unmarked, hw.followed,
      hw.edges_of⟩
  have hrecorded : Recorded seeds direction (traceOf hops (w.expanded ++ w.queue.map Prod.fst))
      (CallWalk.round hops direction layer w) := hempty.expandRing hring
  have hexpanded : (CallWalk.round hops direction layer w).expanded =
      w.expanded ++ w.queue.map Prod.fst := expandRing_expanded layer _ _
  rwa [hexpanded]

section Ring

variable {n : Nat} (h : Reached hops seeds direction n w)
  (hqueue : w.queue = (rings (clearNext hops) seeds n).2.map fun x => (x, n))
include h hqueue

theorem Reached.round_eq : w.round hops direction n =
    meetAll direction n
      { w with queue := [], expanded := (rings (clearNext hops) seeds (n + 1)).1 }
      (traceOf hops (rings (clearNext hops) seeds n).2) := by
  have hring : w.queue.map Prod.fst = (rings (clearNext hops) seeds n).2 := by
    rw [hqueue, List.map_map]
    exact List.map_id _
  rw [round, hring, expandRing_eq]
  dsimp only
  rw [h.expanded]
  rfl

theorem Reached.round : Reached hops seeds direction (n + 1) (w.round hops direction n) where
  recorded := by
    apply Recorded.round h.recorded
    intro e he
    rw [hqueue] at he
    obtain ⟨x, -, rfl⟩ := List.mem_map.1 he
    rfl
  expanded := by rw [h.round_eq hqueue, meetAll_expanded]
  layers y k := by
    rw [h.round_eq hqueue, meetAll_layerOf]
    dsimp only
    cases hy : w.layerOf[y]? with
    | some l =>
      obtain ⟨hl, hleast⟩ := (h.layers y l).1 hy
      rw [Option.some_or, Option.some_inj]
      constructor
      · rintro rfl
        exact ⟨by omega, hleast⟩
      · rintro ⟨-, hk⟩
        exact hleast.unique hk
    | none =>
      have hnot : ∀ k ≤ n, ¬FollowedAt hops seeds k y := by
        intro k hk hfollowed
        obtain ⟨l, hl⟩ := h.layered hfollowed hk
        rw [hy] at hl
        cases hl
      rw [Option.none_or]
      constructor
      · intro hk
        split at hk
        · next hmet =>
          have hfollowed := (followedAt_succ_iff hnot).2 hmet
          cases hk
          refine ⟨Nat.le_refl _, hfollowed, fun j hj => ?_⟩
          by_contra hlt
          exact hnot j (by omega) hj
        · cases hk
      · rintro ⟨hk, hfollowed, -⟩
        obtain rfl : k = n + 1 := by
          by_contra hne
          exact hnot k (by omega) hfollowed
        exact if_pos ((followedAt_succ_iff hnot).1 hfollowed)

/-- With every new node met unambiguously first, the ring queues the next one. -/
theorem Reached.round_queue
    (hclear : ∀ y ∈ (rings (clearNext hops) seeds (n + 1)).2,
      FirstClear (hopsWithin hops seeds n) y) :
    (w.round hops direction n).queue =
      (rings (clearNext hops) seeds (n + 1)).2.map fun x => (x, n + 1) := by
  let opened : CallWalk :=
    { w with queue := [], expanded := (rings (clearNext hops) seeds (n + 1)).1 }
  have hmet : ∀ y ∈ (rings (clearNext hops) seeds n).1 ++ (rings (clearNext hops) seeds n).2,
      opened.layerOf[y]? ≠ none := by
    intro y hy
    obtain ⟨k, hk, hclear⟩ := mem_rings_within.1 hy
    obtain ⟨l, hl⟩ := h.layered (ClearAt.followed hclear) hk
    rw [show opened.layerOf[y]? = some l from hl]
    exact Option.some_ne_none l
  rw [h.round_eq hqueue, meetAll_queue hmet]
  · rw [clear_traceOf]
    rfl
  · intro y hout hy
    rw [clear_traceOf] at hy
    have hfirst := hclear y (mem_newcomers.2 ⟨hy, hout⟩)
    rw [map_snd_traceOf]
    rw [FirstClear, hopsWithin, List.flatMap_append, List.find?_append] at hfirst
    cases hbefore : ((rings (clearNext hops) seeds n).1.flatMap hops).find?
        fun h => h.neighbor == y with
    | some first =>
      -- the first hop onto the node would be an unambiguous one out of a nearer ring
      rw [hbefore] at hfirst
      have hnone : first.frontier = none := hfirst first rfl
      obtain ⟨x, hx, hfirst'⟩ := List.mem_flatMap.1 (List.mem_of_find?_eq_some hbefore)
      have hneighbor : first.neighbor = y := by simpa using List.find?_some hbefore
      obtain ⟨k, hk, hxk⟩ := mem_rings_before.1 hx
      refine absurd (mem_rings_within.2 ⟨k + 1, hk, .hop hxk ?_⟩) hout
      exact mem_clearNext.2 ⟨first, hfirst', hnone, hneighbor⟩
    | none =>
      rw [hbefore, Option.none_or] at hfirst
      refine ⟨(h.recorded.layered y).2 ⟨fun hseed => ?_, fun p hp => ?_⟩, hfirst⟩
      · exact hout (mem_rings_within.2 ⟨0, Nat.zero_le n, .seed hseed⟩)
      · rw [h.expanded] at hp
        have hmem : p.2 ∈ (rings (clearNext hops) seeds n).1.flatMap hops := by
          rw [← map_snd_traceOf]
          exact List.mem_map_of_mem hp
        simpa using List.find?_eq_none.1 hbefore p.2 hmem

end Ring

/-! ## The whole walk -/

theorem rounds_queue_layer (n : Nat) : ∀ e ∈ (rounds hops direction seeds n).queue, e.2 = n := by
  cases n with
  | zero =>
    intro e he
    obtain ⟨s, -, rfl⟩ := List.mem_map.1 he
    rfl
  | succ n =>
    rw [rounds, round, expandRing_eq]
    exact meetAll_queue_layer n fun e he => (List.not_mem_nil he).elim

theorem rounds_recorded (n : Nat) :
    Recorded seeds direction (traceOf hops (rounds hops direction seeds n).expanded)
      (rounds hops direction seeds n) := by
  induction n with
  | zero => exact recorded_start seeds direction
  | succ n ih => exact ih.round (rounds_queue_layer n)

theorem rounds_expanded_append (m n : Nat) :
    ∃ more, (rounds hops direction seeds (m + n)).expanded =
      (rounds hops direction seeds m).expanded ++ more := by
  induction n with
  | zero => exact ⟨[], (List.append_nil _).symm⟩
  | succ n ih =>
    obtain ⟨more, hmore⟩ := ih
    refine ⟨more ++ (rounds hops direction seeds (m + n)).queue.map Prod.fst, ?_⟩
    rw [← Nat.add_assoc, rounds, round, expandRing_expanded, ← List.append_assoc, ← hmore]

theorem rounds_reached {n : Nat} (hclear : ∀ m < n, ∀ y ∈ (rings (clearNext hops) seeds (m + 1)).2,
      FirstClear (hopsWithin hops seeds m) y) :
    Reached hops seeds direction n (rounds hops direction seeds n) ∧
      (rounds hops direction seeds n).queue =
        (rings (clearNext hops) seeds n).2.map fun x => (x, n) := by
  induction n with
  | zero => exact ⟨reached_start, rfl⟩
  | succ n ih =>
    obtain ⟨hreached, hqueue⟩ := ih fun m hm => hclear m (Nat.lt_succ_of_lt hm)
    exact ⟨hreached.round hqueue, hreached.round_queue hqueue (hclear n (Nat.lt_succ_self n))⟩

/-- What the walk ends with: the rounds the depth allows, and no queue. -/
def ended (hops : String → List CallHop) (direction : Direction) (seeds : List String)
    (depth : Int) : CallWalk :=
  { rounds hops direction seeds depth.toNat with queue := [] }

theorem walk_rounds {depth : Int} {n : Nat} (hn : n ≤ depth.toNat) :
    ∃ bound, ∀ fuel, walk hops direction depth (bound + fuel) (start seeds) =
      walk hops direction depth fuel (rounds hops direction seeds n) := by
  induction n with
  | zero => exact ⟨0, fun fuel => by rw [Nat.zero_add, rounds]⟩
  | succ n ih =>
    obtain ⟨bound, hbound⟩ := ih (by omega)
    refine ⟨bound + (rounds hops direction seeds n).queue.length, fun fuel => ?_⟩
    rw [Nat.add_assoc, hbound, walk_round (by omega) fuel (rounds_queue_layer n), rounds]

theorem walk_ends (hops : String → List CallHop) (direction : Direction) (seeds : List String)
    (depth : Int) :
    ∃ bound, ∀ fuel ≥ bound, walk hops direction depth fuel (start seeds) =
      some (ended hops direction seeds depth) := by
  have hrounds : ∃ bound, ∀ fuel, walk hops direction depth (bound + fuel) (start seeds) =
      walk hops direction depth fuel (rounds hops direction seeds depth.toNat) :=
    walk_rounds (Nat.le_refl depth.toNat)
  obtain ⟨bound, hbound⟩ := hrounds
  refine ⟨bound + (rounds hops direction seeds depth.toNat).queue.length + 1, fun fuel hfuel => ?_⟩
  obtain ⟨fuel, rfl⟩ : ∃ k, fuel = bound + k := ⟨fuel - bound, by omega⟩
  rw [hbound]
  refine walk_drain (fun e he => ?_) (by omega)
  rw [rounds_queue_layer _ e he]
  omega

theorem ended_recorded (depth : Int) :
    Recorded seeds direction (traceOf hops (ended hops direction seeds depth).expanded)
      (ended hops direction seeds depth) := by
  have h : Recorded seeds direction
      (traceOf hops (rounds hops direction seeds depth.toNat).expanded)
      (rounds hops direction seeds depth.toNat) := rounds_recorded depth.toNat
  exact ⟨h.layered, h.marked, fun _ _ hx => (List.not_mem_nil hx).elim, h.unmarked, h.followed,
    h.edges_of⟩

/-- Whether a node of the next ring ends unmarked is settled by the hops before it. -/
theorem Recorded.unmarked_iff (hw : Recorded seeds direction (traceOf hops w.expanded) w) {n : Nat}
    {more : List String} (hexpanded : w.expanded = (rings (clearNext hops) seeds (n + 1)).1 ++ more)
    (hy : y ∈ (rings (clearNext hops) seeds (n + 1)).2) :
    w.frontierOf[y]? = none ↔ FirstClear (hopsWithin hops seeds n) y := by
  obtain ⟨hnext, hout⟩ := mem_newcomers.1 (show y ∈ newcomers _ _ from hy)
  have hseed : y ∉ seeds := fun hseed =>
    hout (mem_rings_within.2 ⟨0, Nat.zero_le n, .seed hseed⟩)
  have hhops : (traceOf hops (rings (clearNext hops) seeds (n + 1)).1).map Prod.snd =
      hopsWithin hops seeds n := map_snd_traceOf _
  have hfind : (hopsWithin hops seeds n).find? (fun h => h.neighbor == y) =
      ((traceOf hops (rings (clearNext hops) seeds (n + 1)).1).find?
        fun p => p.2.neighbor == y).map Prod.snd := by
    rw [← hhops, List.find?_map]
    rfl
  rw [hw.marked, if_neg hseed, hexpanded, traceOf_append, List.find?_append, FirstClear, hfind]
  cases hfirst : (traceOf hops (rings (clearNext hops) seeds (n + 1)).1).find?
      fun p => p.2.neighbor == y with
  | some p => simp
  | none =>
    -- some hop out of the ring before meets the node
    obtain ⟨x, hx, hxy⟩ := List.mem_flatMap.1 hnext
    obtain ⟨h, hh, -, heq⟩ := mem_clearNext.1 hxy
    refine absurd heq ?_
    have hmem : (x, h) ∈ traceOf hops (rings (clearNext hops) seeds (n + 1)).1 :=
      List.mem_flatMap.2 ⟨x, List.mem_append_right _ hx, List.mem_map.2 ⟨h, hh, rfl⟩⟩
    simpa using List.find?_eq_none.1 hfirst (x, h) hmem

theorem mem_nodes {nodeRow : String → Option Node} {n : CallNode} :
    n ∈ w.nodes nodeRow ↔ ∃ id row, nodeRow id = some row ∧ w.layerOf[id]? = some n.layer ∧
      n.node = rowToNode id row ∧ n.frontier = w.frontierOf[id]? := by
  rw [nodes, List.mem_insertionSort, List.mem_filterMap]
  constructor
  · rintro ⟨⟨id, layer⟩, hlayer, hnode⟩
    obtain ⟨row, hrow, rfl⟩ := Option.map_eq_some_iff.1 hnode
    exact ⟨id, row, hrow, Std.ExtTreeMap.mem_toList_iff_getElem?_eq_some.1 hlayer, rfl, rfl⟩
  · rintro ⟨id, row, hrow, hlayer, hnode, hfrontier⟩
    refine ⟨(id, n.layer), Std.ExtTreeMap.mem_toList_iff_getElem?_eq_some.2 hlayer, ?_⟩
    dsimp only
    rw [hrow, ← hfrontier, Option.map_some, ← hnode]

/-! ## When the answer is faithful -/

variable {nodeRow : String → Option Node} {depth : Int}

/-- Every ring the walk is to expand is met unambiguously where what the walk ends with is
faithful. -/
theorem Faithful.firstClear
    (h : Faithful hops seeds nodeRow direction depth (ended hops direction seeds depth)) {n : Nat}
    (hn : (n : Int) < depth) (hy : y ∈ (rings (clearNext hops) seeds (n + 1)).2)
    (hseen : (nodeRow y).isSome ∨ (n : Int) + 1 < depth) :
    FirstClear (hopsWithin hops seeds n) y := by
  induction n using Nat.strong_induction_on generalizing y with
  | h n ih =>
    have hbefore : ∀ m < n, ∀ z ∈ (rings (clearNext hops) seeds (m + 1)).2,
        FirstClear (hopsWithin hops seeds m) z :=
      fun m hm z hz => ih m hm (by omega) hz (.inr (by omega))
    have hround : (rounds hops direction seeds (n + 1)).expanded =
        (rings (clearNext hops) seeds (n + 1)).1 := by
      obtain ⟨hreached, hqueue⟩ := rounds_reached hbefore
      exact (hreached.round hqueue).expanded
    obtain ⟨more, hmore⟩ : ∃ more, (ended hops direction seeds depth).expanded =
        (rounds hops direction seeds (n + 1)).expanded ++ more := by
      have hle : depth.toNat = n + 1 + (depth.toNat - (n + 1)) := by omega
      rw [show (ended hops direction seeds depth).expanded =
        (rounds hops direction seeds depth.toNat).expanded from rfl, hle]
      exact rounds_expanded_append (n + 1) _
    rw [hround] at hmore
    rw [← (ended_recorded depth).unmarked_iff hmore hy]
    obtain ⟨k, hk, hclear⟩ := mem_rings_within.1 (List.mem_append_right _ hy)
    rcases hseen with hnode | hdeep
    · obtain ⟨node, hmem, hid, hfrontier⟩ := h.unmarked y k hclear (by omega) hnode
      obtain ⟨id, row, -, -, hrow, hmarked⟩ := mem_nodes.1 hmem
      rw [hrow] at hid
      obtain rfl : id = y := hid
      rw [← hmarked, hfrontier]
    · exact ((ended_recorded depth).unmarked y (h.walked y k hclear (by omega))).1

theorem reached_ended (h : MetClear hops seeds nodeRow depth) :
    Reached hops seeds direction depth.toNat (ended hops direction seeds depth) := by
  have hrounds : Reached hops seeds direction depth.toNat
      (rounds hops direction seeds depth.toNat) := by
    cases hd : depth.toNat with
    | zero => exact reached_start
    | succ n =>
      -- at the last round the ring's own marks matter no more
      obtain ⟨hreached, hqueue⟩ := rounds_reached (n := n) fun m hm y hy =>
        h m (by omega) y hy (.inr (by omega))
      exact hreached.round hqueue
  exact ⟨ended_recorded depth, hrounds.expanded, hrounds.layers⟩

theorem MetClear.faithful (h : MetClear hops seeds nodeRow depth) :
    Faithful hops seeds nodeRow direction depth (ended hops direction seeds depth) := by
  have hreached : Reached hops seeds direction depth.toNat (ended hops direction seeds depth) :=
    reached_ended h
  have hrecorded := hreached.recorded
  refine ⟨fun n hn => ?_, fun y k hclear hk hnode => ?_, fun y k hclear hk => ?_,
    fun x hx g hg => ?_, fun e he => ?_⟩
  · obtain ⟨id, row, -, hlayer, hnode, -⟩ := mem_nodes.1 hn
    rw [hnode]
    exact ((hreached.layers id n.layer).1 hlayer).2
  · obtain ⟨row, hrow⟩ := Option.isSome_iff_exists.1 hnode
    obtain ⟨l, hl⟩ := hreached.layered (ClearAt.followed hclear) (by omega)
    refine ⟨⟨rowToNode y row, l, (ended hops direction seeds depth).frontierOf[y]?⟩,
      mem_nodes.2 ⟨y, row, hrow, hl, rfl, rfl⟩, rfl, ?_⟩
    show (ended hops direction seeds depth).frontierOf[y]? = none
    by_cases hseed : y ∈ seeds
    · rw [hrecorded.marked, if_pos hseed]
    · -- the ring of `y`
      classical
      have hex : ∃ k, ClearAt hops seeds k y := ⟨k, hclear⟩
      have hle := Nat.find_min' hex hclear
      obtain ⟨n, hn⟩ : ∃ n, Nat.find hex = n + 1 := by
        cases hfind : Nat.find hex with
        | zero =>
          have := Nat.find_spec hex
          rw [hfind] at this
          exact absurd (hopsFrom_zero.1 this) hseed
        | succ n => exact ⟨n, rfl⟩
      have hring : y ∈ (rings (clearNext hops) seeds (n + 1)).2 := by
        have hwithin : y ∈ (rings (clearNext hops) seeds (n + 1)).1 ++
            (rings (clearNext hops) seeds (n + 1)).2 :=
          mem_rings_within.2 ⟨n + 1, Nat.le_refl _, hn ▸ Nat.find_spec hex⟩
        refine (List.mem_append.1 hwithin).resolve_left fun hbefore => ?_
        obtain ⟨j, hj, hyj⟩ := mem_rings_before.1 hbefore
        have := Nat.find_min' hex hyj
        omega
      obtain ⟨more, hmore⟩ : ∃ more, (ended hops direction seeds depth).expanded =
          (rings (clearNext hops) seeds (n + 1)).1 ++ more := by
        rw [hreached.expanded]
        by_cases heq : depth.toNat = n + 1
        · exact ⟨[], by rw [heq, List.append_nil]⟩
        · have hle : depth.toNat = n + 1 + 1 + (depth.toNat - (n + 2)) := by omega
          rw [hle]
          obtain ⟨more, hmore⟩ := rings_before_append (n + 1) (depth.toNat - (n + 2))
          exact ⟨(rings (clearNext hops) seeds (n + 1)).2 ++ more,
            hmore.trans (List.append_assoc ..)⟩
      rw [hrecorded.unmarked_iff hmore hring]
      exact h n (by omega) y hring (.inl hnode)
  · rw [hreached.expanded]
    exact mem_rings_before.2 ⟨k, by omega, hclear⟩
  · obtain ⟨near, far, hnear, hfar, hedge⟩ := hrecorded.followed (x, g)
      (List.mem_flatMap.2 ⟨x, hx, List.mem_map.2 ⟨g, hg, rfl⟩⟩)
    exact ⟨near, far, hnear, hfar, (List.mem_insertionSort _).2 hedge⟩
  · obtain ⟨p, hp, near, far, hnear, hfar, heq⟩ :=
      hrecorded.edges_of e ((List.mem_insertionSort _).1 he)
    obtain ⟨x, hx, hp⟩ := List.mem_flatMap.1 hp
    obtain ⟨g, hg, rfl⟩ := List.mem_map.1 hp
    exact ⟨x, hx, g, hg, near, far, hnear, hfar, heq⟩

theorem faithful_iff :
    Faithful hops seeds nodeRow direction depth (ended hops direction seeds depth) ↔
      MetClear hops seeds nodeRow depth :=
  ⟨fun h _ hn _ hy hseen => h.firstClear hn hy hseen, MetClear.faithful⟩

end CallWalk

/-- The walk always ends, and its answer is faithful just where an unambiguous hop is the first to
meet every node some unambiguous hop meets. -/
theorem layeredCallWalk_iff (nodeRow : String → Option Node) (hops : String → List CallHop)
    (direction : Direction) (seed : List String) (depth : Int) :
    ∃ w : CallWalk,
      (∃ bound, ∀ fuel ≥ bound,
        CallWalk.walk hops direction depth fuel (.start (CallWalk.seedIds nodeRow seed)) = some w ∧
          layeredCallWalk fuel nodeRow hops direction seed depth =
            some (w.nodes nodeRow, w.edges)) ∧
      (w.Faithful hops (CallWalk.seedIds nodeRow seed) nodeRow direction depth ↔
        CallWalk.MetClear hops (CallWalk.seedIds nodeRow seed) nodeRow depth) := by
  obtain ⟨bound, hbound⟩ :=
    CallWalk.walk_ends hops direction (CallWalk.seedIds nodeRow seed) depth
  refine ⟨_, ⟨bound, fun fuel hfuel => ⟨hbound fuel hfuel, ?_⟩⟩, CallWalk.faithful_iff⟩
  rw [layeredCallWalk, hbound fuel hfuel]
  rfl

/-- `x` calls the one definition `t` outright, and a name `s` has of several. -/
def mixedHops : String → List CallHop
  | "s" => [⟨"x", .inferred, 0, 1, some ["s", "u"]⟩]
  | "t" => [⟨"x", .extracted, 0, 2, none⟩]
  | "x" => [⟨"y", .extracted, 0, 3, none⟩]
  | _ => []

theorem layeredCallWalk_mixed :
    ¬∀ (nodeRow : String → Option Node) (hops : String → List CallHop) (direction : Direction)
      (seed : List String) (depth : Int) (fuel : Nat) (w : CallWalk),
      CallWalk.walk hops direction depth fuel (.start (CallWalk.seedIds nodeRow seed)) = some w →
        w.Faithful hops (CallWalk.seedIds nodeRow seed) nodeRow direction depth := by
  intro h
  let nodeRow : String → Option Node := fun _ => some ⟨.codeEntity, ∅, []⟩
  have hseeds : CallWalk.seedIds nodeRow ["s", "t"] = ["s", "t"] := by decide
  obtain ⟨bound, hbound⟩ := CallWalk.walk_ends mixedHops .up ["s", "t"] 2
  have hfaithful := h nodeRow mixedHops .up ["s", "t"] 2 bound _
    (by rw [hseeds]; exact hbound bound (Nat.le_refl bound))
  rw [hseeds, CallWalk.faithful_iff] at hfaithful
  have hx : "x" ∈ (rings (CallWalk.clearNext mixedHops) ["s", "t"] 1).2 := by decide
  have hfirst := hfaithful 0 (by decide) "x" hx (.inl rfl) ⟨"x", .inferred, 0, 1, some ["s", "u"]⟩
    (by decide)
  cases hfirst

end Rigger.Graph
