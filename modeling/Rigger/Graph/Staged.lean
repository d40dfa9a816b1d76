import Mathlib.Data.List.Infix
import Rigger.Graph.Edge

/-!
# Staged references (`sqlite.rs`, `stage_reference` and `settle_references`)

A tagged reference of a ledger entry's batch is a row, an edge only while its leaf resolves.  Every
row a batch can have moved is settled once, at the batch's end.
-/

namespace Rigger.Graph

open Lib

/-- The candidates of a module row, its leaf split. -/
def moduleCandidates (leaf : String) : List String :=
  (leaf.toList.splitOn moduleCandidateSeparator).map String.ofList

/-- `id` stands among the separated candidates of the leaf. -/
def namesCandidate (leaf id : String) : Bool :=
  let separated := fun s : String =>
    moduleCandidateSeparator :: (s.toList ++ [moduleCandidateSeparator])
  decide (separated id <:+: separated leaf)

namespace Tables

variable (t : Tables)

/-- The row is of the identity, node, leaf and kind: the table's key. -/
def sameRow (a b : StagedRow) : Bool :=
  a.identity == b.identity && a.from_ == b.from_ && a.leaf == b.leaf && a.refKind == b.refKind

/-- The node a tagged reference is read from: its caller's, else its file's. -/
def stagedFrom (r : EdgeInferred) : String :=
  match r.caller with
  | some caller => t.resolve (entityId (t.resolve r.file) caller)
  | none => t.resolve r.file

/-- Stage a batch event that is a tagged reference; the rows are a set. -/
def stageReference (by_ : Asserter) (position : Nat) (r : EdgeInferred) : Tables :=
  match r.refKind.filter fun kind => (stagedRel kind).isSome with
  | none => t
  | some kind =>
    let row : StagedRow :=
      ⟨by_.identity, by_.generation, t.stagedFrom r, r.name, kind, r.lang, position, none⟩
    if t.refs.any (sameRow row) then t else { t with refs := t.refs ++ [row] }

/-- The row was staged at its identity's current generation. -/
def liveRef (row : StagedRow) : Bool := t.currentGeneration row.identity == some row.generation

/-- A node the identity asserts names the leaf. -/
def asserts (identity leaf : String) : Bool :=
  t.nodeAssertions.any fun r => r.identity == identity && nodeLeaf r.attrs == some leaf

/-- A file node the identity asserts, or an alias of it, is a candidate of the module row. -/
def reachesFileOf (identity leaf : String) : Bool :=
  t.nodeAssertions.any fun r => r.identity == identity && r.kind == .file &&
    (namesCandidate leaf r.node ||
      t.aliases.toList.any fun a => a.2 == r.node && namesCandidate leaf a.1)

/-- The live rows a batch of the identity settles, in identity order. -/
def stagedRows (identity : String) : List StagedRow :=
  (t.refs.filter fun row => (row.identity == identity || t.asserts identity row.leaf ||
      (row.refKind == refKindModule && t.reachesFileOf identity row.leaf)) &&
    t.liveRef row).insertionSort fun a b => a.identity ≤ b.identity

/-- What settling a row that moves answers: its target, its edge's tier and whether a live edge
already holds the pair. -/
structure Settled where
  target : Option String
  tier : Tier
  held : Bool

/-- The first candidate that holds a file node. -/
def settledModule (row : StagedRow) : Settled :=
  let candidates := (moduleCandidates row.leaf).map t.resolve
  ⟨candidates.find? fun id => t.nodes[id]?.any (·.kind == .file), .extracted, false⟩

/-- The one definition a leaf row resolves to now: its file's one candidate, else the project's. -/
def settledTarget (rel : Rel) (row : StagedRow) : Settled :=
  let rule := fun (_ : String) (attrs : Attrs) =>
    attrs["kind"]?.any (referenceCandidateKinds row.refKind).contains &&
      attrs["lang"]? == some row.lang
  let same := theOne (t.leafDefinitions row.leaf rule (some (splitId row.from_).1))
  let target := same.or (theOne (t.leafDefinitions row.leaf rule none))
  { target := target
    tier := if target.isSome ∧ target = same then .extracted else .inferred
    held := t.edges.any fun e => e.from_ == row.from_ && e.rel == rel && e.isLive &&
      (some e.to_ == target || e.to_ == placeholderId row.from_ row.leaf) }

/-- The change-only retarget of a row. -/
def retargetRow (row : StagedRow) (target : Option String) : Tables :=
  { t with refs := t.refs.map fun r => if sameRow row r then { r with target := target } else r }

/-- Release the edges a row of the asserter's identity held onto `target`, unless another row of the
identity still targets the pair. -/
def releaseReference (by_ : Asserter) (from_ target : String) : Tables :=
  if t.refs.any fun r => r.identity == by_.identity && r.from_ == from_ && r.target == some target
  then t
  else
    let held := fun a : EdgeAssertion => a.identity == by_.identity &&
      t.edges.any fun e => e.id == a.edge && e.from_ == from_ && e.to_ == target
    let released := (t.edgeAssertions.filter held).map EdgeAssertion.edge
    { t with
      edgeAssertions := t.edgeAssertions.filter fun a => !held a }.settleEdges released by_.at_

/-- Resolve a row and write what changed. -/
def settleReference (by_ : Asserter) (row : StagedRow) : Tables :=
  match stagedRel row.refKind with
  | none => t
  | some rel =>
    let settled := if row.refKind = refKindModule then t.settledModule row
      else t.settledTarget rel row
    let asserter : Asserter := ⟨row.identity, row.generation, by_.at_⟩
    let release := fun t : Tables => match row.target with
      | some old => t.releaseReference asserter row.from_ old
      | none => t
    if settled.target = row.target then release t
    else
      let released := release (t.retargetRow row settled.target)
      match settled.target with
      | some target =>
        if settled.held then released
        else released.assertLink asserter row.from_ target rel by_.at_ row.position settled.tier
      | none => released

/-- Settle every row the batch can have moved, and drop what the prior generation recorded of a
row's edge and no row asserted again. -/
def settleReferences (by_ : Asserter) : Tables :=
  let settled := (t.stagedRows by_.identity).foldl (fun t row => t.settleReference by_ row) t
  { settled with
    edgeAssertions := settled.edgeAssertions.filter fun a =>
      !(a.identity == by_.identity && a.generation != by_.generation &&
        settled.edges.any fun e => e.id == a.edge && stagedRels.contains e.rel) }

end Tables

end Rigger.Graph
