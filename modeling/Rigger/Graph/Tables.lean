import Mathlib.Data.List.Nodup
import Rigger.Domain.Contextgraph
import Rigger.Domain.Query

/-!
# The graph file's tables (`rigger-graph-sqlite/src/contextgraph/sqlite.rs`)

`Tables` is the slice of `graph.db` one project's fold reads and writes: every statement of the fold
selects by the project's column, which the rows here leave out.  A list holds its rows in rowid
order, so an insert appends and an upsert rewrites in place; a map holds a table by its primary key.

An attrs column is a map of strings, the absent column the empty one.  The two keys a proof writes
(`proven_by`, `proof_evidence`) are the node's `proof`: the evidence in order, empty where neither
key is carried.
-/

namespace Rigger.Graph

open Lib

abbrev Attrs := Std.ExtTreeMap String String

structure Node where
  kind : NodeKind
  attrs : Attrs
  proof : List String
deriving DecidableEq

structure Edge where
  id : Nat
  from_ : String
  to_ : String
  rel : Rel
  validFrom : Int
  validTo : Option Int
  source : Nat
  tier : Tier
deriving DecidableEq

/-- A test reference to `name` from `file`. -/
structure ProofRow where
  name : String
  file : String
  evidence : String
  source : Nat
  target : Option String
deriving DecidableEq

structure Generation where
  current : String
  prior : Option String
deriving DecidableEq

structure NodeAssertion where
  identity : String
  generation : String
  node : String
  kind : NodeKind
  attrs : Attrs
deriving DecidableEq

structure EdgeAssertion where
  identity : String
  generation : String
  edge : Nat
  since : Int
  source : Nat
deriving DecidableEq

structure Detached where
  edge : Nat
  node : String
deriving DecidableEq

/-- A `refs` row. -/
structure StagedRow where
  identity : String
  generation : String
  from_ : String
  leaf : String
  refKind : String
  lang : String
  position : Nat
  target : Option String
deriving DecidableEq

structure Tables where
  nodes : Std.ExtTreeMap String Node
  retired : Std.ExtTreeMap String Node
  edges : List Edge
  /-- The highest edge id ever given. -/
  edgeSeq : Nat
  aliases : Std.ExtTreeMap String String
  proofs : List ProofRow
  generations : Std.ExtTreeMap String Generation
  nodeAssertions : List NodeAssertion
  edgeAssertions : List EdgeAssertion
  detached : List Detached
  refs : List StagedRow
  relabelOwed : Std.ExtTreeSet String
  proofsOwed : Std.ExtTreeSet String
deriving DecidableEq

def Tables.empty : Tables where
  nodes := ∅
  retired := ∅
  edges := []
  edgeSeq := 0
  aliases := ∅
  proofs := []
  generations := ∅
  nodeAssertions := []
  edgeAssertions := []
  detached := []
  refs := []
  relabelOwed := ∅
  proofsOwed := ∅

/-- Whoever asserts what an event folds: the identity and generation the generation rule knows it
by, both empty outside the rule, and the event's valid time. -/
structure Asserter where
  identity : String
  generation : String
  at_ : Int
deriving DecidableEq

/-! ## Attrs -/

/-- `json_patch`: the second map's keys over the first's. -/
def patch (attrs incoming : Attrs) : Attrs := attrs ∪ incoming

/-- The non-empty `name` an attrs column carries. -/
def nodeLeaf (attrs : Attrs) : Option String := attrs["name"]?.filter (· ≠ "")

/-- Whether a call resolves onto a code entity of these attrs. -/
def callTarget (attrs : Attrs) : Bool := !nonTargetKinds.contains (attrs["kind"]?.getD "")

/-- `attrs` less the keys of `retracted` that no map of `held` carries. -/
def retract (attrs retracted : Attrs) (held : List Attrs) : Attrs :=
  attrs.filter fun key _ => !(retracted.contains key && !held.any (·.contains key))

/-- The attrs that name a definition a reference or proof may land on. -/
def defines (attrs : Attrs) : Bool := (nodeLeaf attrs).isSome && callTarget attrs

/-! ## Kinds -/

/-- The kinds that promote a bare artifact. -/
def promotingKinds : List NodeKind :=
  [.file, .codeEntity, .designDoc, .archDecision, .handbookRule, .rationale]

/-- The kind a row of kind `settled` takes when `kind` is asserted of it too. -/
def promote (settled kind : NodeKind) : NodeKind :=
  if settled = .artifact ∧ kind ∈ promotingKinds then kind else settled

/-- The kind a node takes from assertions of `kinds`, in order. -/
def settledKind (kinds : List NodeKind) : Option NodeKind :=
  kinds.foldl (fun settled kind =>
    match settled with
    | none => some kind
    | some settled => some (promote settled kind)) none

/-! ## Reads -/

/-- The single member of a list, none where it has several or none. -/
def theOne {α : Type} : List α → Option α
  | [one] => some one
  | _ => none

def Edge.isLive (e : Edge) : Bool := e.validTo.isNone

/-- A relation a community label weighs. -/
def structural (rel : Rel) : Bool := rel == .calls || rel == .references || rel == .contains

namespace Tables

variable (t : Tables)

def currentGeneration (identity : String) : Option String :=
  t.generations[identity]?.map Generation.current

/-- A row of `live_node_assertions`. -/
def holds (r : NodeAssertion) : Bool :=
  r.identity == "" || t.currentGeneration r.identity == some r.generation

/-- A row of `live_edge_assertions`. -/
def holdsEdge (a : EdgeAssertion) : Bool :=
  a.identity == "" || t.currentGeneration a.identity == some a.generation

def liveAssertions (id : String) : List NodeAssertion :=
  t.nodeAssertions.filter fun r => r.node == id && t.holds r

/-- The assertion an identity has recorded of a node. -/
def recordedAssertion (identity id : String) : Option NodeAssertion :=
  t.nodeAssertions.find? fun r => r.identity == identity && r.node == id

/-- The name the node defines, when it is a live definition. -/
def definitionName (id : String) : Option String :=
  match t.nodes[id]? with
  | some n => if n.kind = .codeEntity ∧ callTarget n.attrs then nodeLeaf n.attrs else none
  | none => none

/-- The canonical id of a mention. -/
def resolve (mention : String) : String := t.aliases.getD mention mention

/-- The code entities of a leaf that `rule` admits, by id; given a file, those of its range. -/
def leafDefinitions (leaf : String) (rule : String → Attrs → Bool) (file : Option String) :
    List String :=
  t.nodes.keys.filter fun id =>
    t.nodes[id]?.any fun n =>
      nodeLeaf n.attrs == some leaf && n.kind == .codeEntity && rule id n.attrs &&
        file.all fun f => idRange f id

/-- A live assertion of the node defines it. -/
def liveDefinition (id : String) : Bool := (t.liveAssertions id).any fun r => defines r.attrs

/-- The call targets of a leaf, by the nodes' own kinds. -/
def callTargets (leaf : String) : List String :=
  t.leafDefinitions leaf (fun _ attrs => callTarget attrs) none

/-- The call targets of a leaf that a live assertion defines. -/
def liveCallTargets (leaf : String) (file : Option String) : List String :=
  t.leafDefinitions leaf (fun id _ => t.liveDefinition id) file

def sameFileCandidates (file leaf : String) : List String := t.liveCallTargets leaf (some file)

/-- No assertion names the edge. -/
def unasserted (edge : Nat) : Bool := t.edgeAssertions.all fun a => a.edge != edge

/-- A `CONTAINS` onto a file, held or retired: a module's declaration. -/
def declaration (rel : Rel) (to_ : String) : Bool :=
  rel == .contains &&
    (t.nodes[to_]?.any (·.kind == .file) || t.retired[to_]?.any (·.kind == .file))

/-- The communities `member` is a live member of, or any `<member>::<name>` of a whole file. -/
def communitiesOf (member : String) (wholeFile : Bool) : List String :=
  (t.edges.filter fun e => e.rel == .inCommunity && e.isLive &&
    (e.from_ == member || (wholeFile && idRange member e.from_))).map Edge.to_

/-! ## Debts -/

def oweRelabel (communities : List String) : Tables :=
  { t with relabelOwed := communities.foldl (·.insert ·) t.relabelOwed }

def oweRelabelOf (member : String) (wholeFile : Bool) : Tables :=
  t.oweRelabel (t.communitiesOf member wholeFile)

/-- The debt of an edge whose liveness changed. -/
def oweRelabelOfEnds (from_ to_ : String) (rel : Rel) (declaration : Bool) : Tables :=
  if structural rel && !declaration then (t.oweRelabelOf from_ false).oweRelabelOf to_ false else t

def oweProofs (name : String) : Tables := { t with proofsOwed := t.proofsOwed.insert name }

/-! ## Row updates -/

def updateEdges (p : Edge → Bool) (f : Edge → Edge) : Tables :=
  { t with edges := t.edges.map fun e => if p e then f e else e }

/-- Set `valid_to` on every edge `p` selects. -/
def retireEdges (p : Edge → Bool) (at_ : Int) : Tables :=
  t.updateEdges p fun e => { e with validTo := some at_ }

end Tables

end Rigger.Graph
