import Rigger.Graph.Tables

/-!
# Asserting and settling nodes (`sqlite.rs`, `ensure_node` and `settle_node`)

`ensureNode` is the one writer of a node's row: it restores a retired row, merges the assertion into
it, revives what was detached from it and records the assertion.  `settleNode` is its inverse once
an assertion stops being live: the node keeps what its live assertions say, or is retired.
-/

namespace Rigger.Graph

open Lib

namespace Tables

variable (t : Tables)

/-! ## Settling -/

/-- Demote what was tiered by a definition of `name` no other call target now gives, and owe the
proofs of `name`. -/
def definitionRetired (id name : String) : Tables :=
  let demoted := t.updateEdges
    (fun e => (e.rel == .references || e.rel == .calls) && e.tier == .inferred && e.isLive &&
      edgeBindsLeaf e.to_ name && t.unasserted e.id && !(t.callTargets name).any (· != e.to_))
    fun e => { e with tier := .ambiguous }
  let stripped := t.retired.alter id fun n => n.map fun n => { n with proof := [] }
  { demoted with retired := stripped }.oweProofs name

/-- Undo what resolved against the node when it defined `defined` and defines it no longer. -/
def undoWhatResolvedAgainst (id : String) (defined : Option String) : Tables :=
  match defined with
  | some name => if t.definitionName id = some name then t else t.definitionRetired id name
  | none => t

/-- An attachment of the node that is live. -/
def attachment (id : String) (e : Edge) : Bool :=
  e.from_ == id && (e.rel == .inCommunity || e.rel == .realizes) && e.isLive

/-- The live attachments of the node not recorded detached yet. -/
def toDetach (id : String) : List Edge :=
  t.edges.filter fun e => attachment id e && !t.detached.any (·.edge == e.id)

def recordDetached (id : String) : Tables :=
  { t with detached := t.detached ++ (t.toDetach id).map fun e => ⟨e.id, id⟩ }

def detachAttachments (id : String) (at_ : Int) : Tables :=
  (t.recordDetached id).retireEdges (attachment id) at_

/-- The node keeps what its live assertions say, or is retired with its attachments. -/
def settleRow (id : String) (retracted : Attrs) (at_ : Int) : Tables :=
  let live := t.liveAssertions id
  match settledKind (live.map NodeAssertion.kind) with
  | some kind =>
    { t with
      nodes := t.nodes.alter id fun n => n.map fun n =>
        { n with kind := kind, attrs := retract n.attrs retracted (live.map NodeAssertion.attrs) } }
  | none =>
    let moved := (t.nodes[id]?.or t.retired[id]?).map fun n =>
      { n with attrs := retract n.attrs retracted [] }
    { t with
      nodes := t.nodes.erase id
      retired := t.retired.alter id fun _ => moved }.detachAttachments id at_

/-- Settle the node after an assertion of it that said `retracted` stopped being live. -/
def settleNode (id : String) (retracted : Attrs) (at_ : Int) : Tables :=
  let defined := t.definitionName id
  ((t.oweRelabelOf id false).settleRow id retracted at_).undoWhatResolvedAgainst id defined

/-! ## Recording -/

def updateAssertion (identity id : String) (f : NodeAssertion → NodeAssertion) : Tables :=
  { t with
    nodeAssertions := t.nodeAssertions.map fun r =>
      if r.identity == identity && r.node == id then f r else r }

/-- Within a generation assertions merge as the node does; a newer generation's replaces the older
one, and what only the older one said is retracted. -/
def recordAssertion (by_ : Asserter) (id : String) (kind : NodeKind) (attrs : Attrs) : Tables :=
  match t.recordedAssertion by_.identity id with
  | some r =>
    if r.generation = by_.generation then
      t.updateAssertion by_.identity id fun r =>
        { r with kind := promote r.kind kind, attrs := patch r.attrs attrs }
    else
      (t.updateAssertion by_.identity id fun r =>
        { r with generation := by_.generation, kind := kind, attrs := attrs }).settleNode
        id r.attrs by_.at_
  | none =>
    { t with
      nodeAssertions :=
        t.nodeAssertions ++ [⟨by_.identity, by_.generation, id, kind, attrs⟩] }

/-- The row an assertion leaves of the one it found. -/
def upserted (held : Option Node) (kind : NodeKind) (attrs : Attrs) : Node :=
  match held with
  | some n => { n with kind := promote n.kind kind, attrs := patch n.attrs attrs }
  | none => ⟨kind, attrs, []⟩

/-- The node's row before the upsert: held, or restored as the kind this assertion says. -/
def restored (id : String) (kind : NodeKind) : Option Node :=
  t.nodes[id]?.or (t.retired[id]?.map fun n => { n with kind := kind })

def writeNode (id : String) (kind : NodeKind) (attrs : Attrs) : Tables :=
  { t with
    nodes := t.nodes.insert id (upserted (t.restored id kind) kind attrs)
    retired := t.retired.erase id }

/-- The node is held again: its detached attachments come back live. -/
def reviveAttachments (id : String) : Tables :=
  let revived := t.detached.filter (·.node == id)
  { t.updateEdges (fun e => revived.any (·.edge == e.id)) fun e => { e with validTo := none } with
    detached := t.detached.filter (·.node != id) }

def ensureNode (by_ : Asserter) (id : String) (kind : NodeKind)
    (attrs : List (String × String)) : Tables :=
  let attrs : Attrs := .ofList attrs
  (((t.writeNode id kind attrs).reviveAttachments id).oweRelabelOf id false).recordAssertion
    by_ id kind attrs

/-! ## Definitions that share a node -/

/-- A definition's rank among those of its node: its kind's place, its line, its kind. -/
def ranked (kind : String) (line : Nat) : Nat × Nat × String :=
  ((definitionPrecedence kind line).1, (definitionPrecedence kind line).2, kind)

/-- The lesser of two ranks. -/
def leastRank (a b : Nat × Nat × String) : Nat × Nat × String :=
  if b.1 < a.1 ∨ b.1 = a.1 ∧ (b.2.1 < a.2.1 ∨ b.2.1 = a.2.1 ∧ b.2.2 < a.2.2) then b else a

def parseLine (text : String) : Option Nat :=
  if !text.isEmpty && text.toList.all Char.isDigit then some (Nat.ofDigitChars 10 text.toList 0)
  else none

/-- The definition an assertion's attrs carry. -/
def heldDefinition (attrs : Attrs) : Option (String × Nat) := do
  pure (← attrs["kind"]?, ← parseLine (← attrs["line"]?))

/-- The kind and line the node takes when `by_` folds a definition of it: the first of those its
identity asserts at its generation, or the last folded outside the rule. -/
def settlingDefinition (by_ : Asserter) (id kind : String) (line : Nat) : String × Nat :=
  let held := do
    let r ← t.recordedAssertion by_.identity id
    if by_.identity ≠ "" ∧ r.generation = by_.generation then heldDefinition r.attrs else none
  match held with
  | some (heldKind, heldLine) =>
    let first := leastRank (ranked kind line) (ranked heldKind heldLine)
    (first.2.2, first.2.1)
  | none => (kind, line)

end Tables

end Rigger.Graph
