import Mathlib.Data.List.Sort
import Rigger.Graph.Node

/-!
# Edges and attachments (`sqlite.rs`, `add_edge`, `assert_link` and `attach`)

At most one live edge stands per key: `addEdge` merges into it, `assertLink` revives the one its
identity's prior generation asserted, `attach` hangs an edge off a node that need not be held.  An
edge an assertion holds is retired by the settling of its last live assertion, any other by the fold
that supersedes it.
-/

namespace Rigger.Graph

open Lib

/-- An edge of the key. -/
def Edge.keyed (from_ to_ : String) (rel : Rel) (tier : Tier) (e : Edge) : Bool :=
  e.from_ == from_ && e.to_ == to_ && e.rel == rel && e.tier == tier

/-- The live edge of the key. -/
def Edge.standing (from_ to_ : String) (rel : Rel) (tier : Tier) (e : Edge) : Bool :=
  e.keyed from_ to_ rel tier && e.isLive

/-- Record the latest assertion on a standing edge. -/
def Edge.reassert (at_ : Int) (source : Nat) (e : Edge) : Edge :=
  { e with source := max e.source source, validFrom := min e.validFrom at_ }

def leastSince (first : EdgeAssertion) (rest : List EdgeAssertion) : Int :=
  rest.foldl (fun since a => min since a.since) first.since

def newestSource (first : EdgeAssertion) (rest : List EdgeAssertion) : Nat :=
  rest.foldl (fun source a => max source a.source) first.source

/-- The identity's row of the edge. -/
def EdgeAssertion.isOf (identity : String) (edge : Nat) (a : EdgeAssertion) : Bool :=
  a.identity == identity && a.edge == edge

/-- The row an assertion leaves of its identity's older one: a run its own or its prior generation
began goes on. -/
def EdgeAssertion.renew (by_ : Asserter) (prior : Option String) (at_ : Int) (source : Nat)
    (a : EdgeAssertion) : EdgeAssertion :=
  { a with
    since :=
      if a.generation = by_.generation then min a.since at_
      else if prior = some a.generation then a.since
      else at_
    source := max a.source source
    generation := by_.generation }

/-- An id of the grain of `pre`. -/
def inGrain (pre id : String) : Bool := pre.toList.isPrefixOf id.toList

/-- A structural edge out of the file or out of a code entity of its range. -/
def ofFile (file : String) (e : Edge) : Bool :=
  (e.from_ == file && (e.rel == .contains || e.rel == .references)) ||
    ((e.rel == .calls || e.rel == .contains) && idRange file e.from_)

namespace Tables

variable (t : Tables)

/-! ## Live edges -/

/-- Insert an edge, live unless `validTo` says otherwise. -/
def insertEdge (from_ to_ : String) (rel : Rel) (at_ : Int) (validTo : Option Int) (source : Nat)
    (tier : Tier) : Tables :=
  { t with
    edges := t.edges ++ [⟨t.edgeSeq + 1, from_, to_, rel, at_, validTo, source, tier⟩]
    edgeSeq := t.edgeSeq + 1 }

/-- Assert a live edge, and answer its id. -/
def addEdge (from_ to_ : String) (rel : Rel) (at_ : Int) (source : Nat) (tier : Tier) :
    Tables × Nat :=
  match t.edges.find? (Edge.standing from_ to_ rel tier) with
  | some e =>
    (t.updateEdges (Edge.standing from_ to_ rel tier) (·.reassert at_ source), e.id)
  | none =>
    let inserted := t.insertEdge from_ to_ rel at_ none source tier
    (inserted.oweRelabelOfEnds from_ to_ rel (inserted.declaration rel to_), t.edgeSeq + 1)

/-! ## Asserted edges -/

def liveEdgeAssertions (edge : Nat) : List EdgeAssertion :=
  t.edgeAssertions.filter fun a => a.edge == edge && t.holdsEdge a

/-- An edge a live assertion holds takes its dates from them; one none holds is retired. -/
def settleEdge (edge : Nat) (at_ : Int) : Tables :=
  match t.liveEdgeAssertions edge with
  | first :: rest =>
    t.updateEdges (·.id == edge) fun e =>
      { e with validFrom := leastSince first rest, source := newestSource first rest }
  | [] =>
    let retired := t.retireEdges (·.id == edge) at_
    match t.edges.find? (·.id == edge) with
    | some e => retired.oweRelabelOfEnds e.from_ e.to_ e.rel (retired.declaration e.rel e.to_)
    | none => retired

def settleEdges (edges : List Nat) (at_ : Int) : Tables :=
  edges.foldl (fun t edge => t.settleEdge edge at_) t

/-- The identity's prior generation asserted the edge. -/
def assertedBefore (identity : String) (edge : Nat) : Bool :=
  t.edgeAssertions.any fun a => a.identity == identity && a.edge == edge &&
    (t.generations[identity]?.bind Generation.prior) == some a.generation

/-- The newest edge of the key the identity's prior generation asserted, where none is live. -/
def revivable (identity from_ to_ : String) (rel : Rel) (tier : Tier) : Option Edge :=
  if t.edges.any (Edge.standing from_ to_ rel tier) then none
  else
    (t.edges.filter fun e => e.keyed from_ to_ rel tier && !e.isLive &&
      t.assertedBefore identity e.id).getLast?

def recordEdgeAssertion (by_ : Asserter) (edge : Nat) (at_ : Int) (source : Nat) : Tables :=
  if t.edgeAssertions.any (EdgeAssertion.isOf by_.identity edge) then
    let prior := t.generations[by_.identity]?.bind Generation.prior
    { t with
      edgeAssertions := t.edgeAssertions.map fun a =>
        if a.isOf by_.identity edge then a.renew by_ prior at_ source else a }
  else
    { t with
      edgeAssertions :=
        t.edgeAssertions ++ [⟨by_.identity, by_.generation, edge, at_, source⟩] }

/-- The edge a link's assertion is of: revived, or asserted live. -/
def linkedEdge (by_ : Asserter) (from_ to_ : String) (rel : Rel) (at_ : Int) (source : Nat)
    (tier : Tier) : Tables × Nat :=
  match t.revivable by_.identity from_ to_ rel tier with
  | some e => (t.updateEdges (·.id == e.id) fun e => { e with validTo := none }, e.id)
  | none => t.addEdge from_ to_ rel at_ source tier

def assertLink (by_ : Asserter) (from_ to_ : String) (rel : Rel) (at_ : Int) (source : Nat)
    (tier : Tier) : Tables :=
  let (linked, edge) := t.linkedEdge by_ from_ to_ rel at_ source tier
  (linked.recordEdgeAssertion by_ edge at_ source).settleEdge edge at_

/-! ## Attachments -/

/-- The edge of the key detached from the node. -/
def detachedHere (node to_ : String) (rel : Rel) (e : Edge) : Bool :=
  t.detached.any (fun d => d.node == node && d.edge == e.id) &&
    e.to_ == to_ && e.rel == rel && e.tier == .inferred

/-- Hang an attachment off a node, detached from the start where the node is not held. -/
def attach (node to_ : String) (rel : Rel) (at_ : Int) (source : Nat) : Tables :=
  if t.nodes.contains node then (t.addEdge node to_ rel at_ source .inferred).1
  else if t.edges.any (t.detachedHere node to_ rel) then
    t.updateEdges (t.detachedHere node to_ rel) (·.reassert at_ source)
  else
    { t.insertEdge node to_ rel at_ (some at_) source .inferred with
      detached := t.detached ++ [⟨t.edgeSeq + 1, node⟩] }

/-- Supersede every attachment of a grain, the detached ones for good. -/
def retireGrain (pre : String) (rel : Rel) (at_ : Int) : Tables :=
  let retired := t.retireEdges (fun e => e.isLive && e.rel == rel && inGrain pre e.to_) at_
  { retired with
    detached := retired.detached.filter fun d =>
      !retired.edges.any fun e => e.id == d.edge && e.rel == rel && inGrain pre e.to_ }

/-- Delete the super-nodes of a grain that no live attachment reaches. -/
def dropMemberless (pre : String) (kind : NodeKind) (rel : Rel) : Tables :=
  { t with
    nodes := t.nodes.filter fun id n =>
      !(n.kind == kind && inGrain pre id &&
        !t.edges.any fun e => e.to_ == id && e.rel == rel && e.isLive) }

/-! ## Supersession -/

/-- Retire every live structural edge out of a file's own structure. -/
def supersedeFileEdges (file : String) (at_ : Int) : Tables :=
  (t.oweRelabelOf file true).retireEdges (fun e => e.isLive && ofFile file e) at_

/-- Invalidate the edges of a resolved finding. -/
def invalidateFindingEdges (finding : String) (at_ : Int) : Tables :=
  if t.nodes[finding]?.any (·.kind == .finding) then
    t.retireEdges (fun e => e.isLive &&
      ((e.from_ == finding && e.rel == .about) || (e.to_ == finding && e.rel == .raised))) at_
  else t

/-! ## Generations -/

/-- Record the asserter's generation as its identity's current one, and answer the prior generation
it supersedes; the edges that one asserted are settled. -/
def advanceGeneration (by_ : Asserter) : Tables × Option String :=
  if by_.identity = "" then (t, none)
  else
    match t.currentGeneration by_.identity with
    | none =>
      ({ t with generations := t.generations.insert by_.identity ⟨by_.generation, none⟩ }, none)
    | some prior =>
      if prior = by_.generation then (t, none)
      else
        let advanced :=
          { t with
            nodeAssertions := t.nodeAssertions.filter fun r =>
              !(r.identity == by_.identity && r.generation != prior)
            edgeAssertions := t.edgeAssertions.filter fun a =>
              !(a.identity == by_.identity && a.generation != prior)
            generations := t.generations.insert by_.identity ⟨by_.generation, some prior⟩ }
        let asserted := (advanced.edges.filter fun e => e.isLive &&
          advanced.edgeAssertions.any fun a =>
            a.identity == by_.identity && a.generation == prior && a.edge == e.id).map Edge.id
        (advanced.settleEdges asserted by_.at_, some prior)

/-- Settle every node the prior generation asserted and the newer one has not asserted again. -/
def retireUnheldNodes (by_ : Asserter) (prior : String) : Tables :=
  let superseded := (t.nodeAssertions.filter fun r =>
    r.identity == by_.identity && r.generation == prior).insertionSort fun a b => a.node ≤ b.node
  superseded.foldl (fun t r => t.settleNode r.node r.attrs by_.at_) t

end Tables

end Rigger.Graph
