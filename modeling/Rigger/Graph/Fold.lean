import Rigger.Domain.Ingest
import Rigger.Graph.Payload
import Rigger.Graph.Proof
import Rigger.Graph.Staged

/-!
# The fold (`sqlite.rs`, `fold_event`, `fold_new` and `fold_entry`)

`foldPayload` is the one arm per event type; `fold` runs it under the generation rule.  `foldNew`
folds the events whose positions have not folded yet and `foldEntry` a ledger entry with its batch,
each in the caller's transaction (`transact`), whose debts are paid where the source pays them:
the community labels as a fold ends, the proofs before the transaction commits.

A fold that fails answers none, and its transaction leaves nothing written.
-/

namespace Rigger.Graph

open Lib

/-- What the parts of a graph file a fold writes hold: the tables, the `applied` ledger and the
positions passed over with their cause. -/
structure Folded where
  tables : Tables
  applied : Std.ExtTreeSet Nat
  passedOver : Std.ExtTreeMap Nat String
deriving DecidableEq

def Folded.empty : Folded := ⟨.empty, ∅, ∅⟩

/-- Whom the fold knows an event by. -/
def Asserter.of (e : Event) : Asserter :=
  let (identity, generation) := (derivedGeneration e).getD ("", "")
  ⟨identity, generation, toNanos e.validFrom⟩

namespace Tables

variable (t : Tables) (by_ : Asserter) (position : Nat)

/-! ## Records -/

/-- Tie a record to each location it names, an artifact unless something proves what it is. -/
def tie (record : String) (rel : Rel) (locations : List String) : Tables :=
  locations.foldl (fun t path =>
    let canonical := t.resolve path
    ((t.ensureNode by_ canonical .artifact []).addEdge record canonical rel by_.at_ position
      .extracted).1) t

def foldDecision (d : DecisionMade) : Tables :=
  let tied := (t.ensureNode by_ d.id .decision [("summary", d.summary)]).tie by_ position d.id
    .governs d.governs
  if d.supersedes = "" then tied
  else
    let superseding := ((tied.ensureNode by_ d.supersedes .decision []).addEdge d.id d.supersedes
      .supersedes by_.at_ position .extracted).1
    superseding.retireEdges (fun e => e.from_ == d.supersedes && e.rel == .governs && e.isLive)
      by_.at_

def foldLesson (l : LessonLearned) : Tables :=
  (t.ensureNode by_ l.id .lesson [("summary", l.summary)]).tie by_ position l.id .about
    (locations l.about l.file)

def foldFinding (f : ReviewFinding) : Tables :=
  (t.ensureNode by_ f.id .finding [("summary", f.summary), ("by", f.by_), ("unit", f.unit)]).tie
    by_ position f.id .about (locations f.about f.file)

/-- The findings an integration of `unit` addresses. -/
def addressed (unit : String) : List String :=
  t.nodes.keys.filter fun id => t.nodes[id]?.any fun n =>
    n.kind == .finding && n.attrs["disposition"]? == some "upheld" && n.attrs["unit"]? == some unit

def invalidateFindings (findings : List String) : Tables :=
  findings.foldl (fun t finding => t.invalidateFindingEdges finding by_.at_) t

def markUpheld (unit finding : String) : Tables :=
  { t with
    nodes := t.nodes.alter finding fun n => n.map fun n =>
      if n.kind = .finding then
        { n with attrs := (n.attrs.insert "disposition" "upheld").insert "unit" unit }
      else n }

def foldVerdict (v : Verdict) : Tables :=
  (sortedSet v.upheld).foldl (fun t finding => t.markUpheld v.unit finding)
    (t.invalidateFindings by_ (sortedSet v.discarded))

/-! ## Code structure -/

def fileAttrs (lang : String) (partial_ : Bool) : List (String × String) :=
  ("lang", lang) :: if partial_ then [("partial", "true")] else []

/-- Promote what bound `name` before a definition of it was known. -/
def promoteEdges (entity name : String) : Tables :=
  t.updateEdges
    (fun e => (e.rel == .references || e.rel == .calls) && e.tier == .ambiguous && e.isLive &&
      e.to_ != entity && edgeBindsLeaf e.to_ name)
    fun e => { e with tier := .inferred }

/-- Fold a definition onto its node, and undo what resolved against the name it no longer has. -/
def defineEntity (c : CodeEntityExtracted) (entity : String) : Tables :=
  let defined := t.definitionName entity
  let (kind, line) := t.settlingDefinition by_ entity c.kind c.line
  (t.ensureNode by_ entity .codeEntity
    [("name", c.name), ("kind", kind), ("line", toString line), ("lang", c.lang)])
    |>.undoWhatResolvedAgainst entity defined

/-- Hang a definition off its parent, asserted bare, or off its file. -/
def contain (c : CodeEntityExtracted) (file entity : String) : Tables :=
  match c.parentPath with
  | some parent =>
    ((t.ensureNode by_ (entityId file parent) .codeEntity []).addEdge (entityId file parent) entity
      .contains by_.at_ position .extracted).1
  | none => (t.addEdge file entity .contains by_.at_ position .extracted).1

def foldDefinition (c : CodeEntityExtracted) : Tables :=
  let file := t.resolve c.file
  let opened := if c.fresh then t.supersedeFileEdges file by_.at_ else t
  let entity := entityId file c.idPath
  let defined := (opened.ensureNode by_ file .file (fileAttrs c.lang c.partial_)).defineEntity by_
    c entity
  let contained := defined.contain by_ position c file entity
  if (defined.definitionName entity).isSome then
    (contained.promoteEdges entity c.name).oweProofs c.name
  else contained

/-- Where a call lands, and at what tier: its file's one candidate, else its placeholder. -/
def landing (file name : String) : String × Tier :=
  match t.sameFileCandidates file name with
  | [one] => (one, .extracted)
  | _ =>
    let target := placeholderId file name
    (target, if (t.callTargets name).any (· != target) then .inferred else .ambiguous)

/-- The edges of a call: its file's reference and, where it has a caller, the call. -/
def foldCall (r : EdgeInferred) (file : String) : Tables :=
  let (target, tier) := t.landing file r.name
  let referenced := ((t.ensureNode by_ target .codeEntity []).addEdge file target .references
    by_.at_ position tier).1
  match r.caller with
  | some caller =>
    ((referenced.ensureNode by_ (entityId file caller) .codeEntity []).addEdge
      (entityId file caller) target .calls by_.at_ position tier).1
  | none => referenced

def foldReference (r : EdgeInferred) : Tables :=
  if r.isTest then t.foldTestEvidence r position
  else
    let file := t.resolve r.file
    let opened := if r.fresh then t.supersedeFileEdges file by_.at_ else t
    -- The empty name is the sentinel of a batch with nothing to extract: the supersession is all.
    if r.name = "" then opened
    else
      let held := opened.ensureNode by_ file .file (fileAttrs r.lang r.partial_)
      if r.refKind.isSome then held else held.foldCall by_ position r file

/-! ## Design intent -/

def foldConcept (c : DocConceptExtracted) : Tables :=
  match conceptKind c.kind with
  | some kind =>
    t.ensureNode by_ (c.asserted t.resolve) kind [("title", c.title), ("doc", c.doc)]
  | none => t

def foldLink (l : DocLinkExtracted) : Tables :=
  let (from_, rel, to_) := l.asserted t.resolve
  match linkRel rel with
  | some rel =>
    ((t.ensureNode by_ from_ .artifact []).ensureNode by_ to_ .artifact []).assertLink by_ from_ to_
      rel by_.at_ position .extracted
  | none => t

/-! ## Derived groupings -/

/-- A re-run's first event supersedes its grain. -/
def resetGrain (fresh : Bool) (grain : String) (kind : NodeKind) (rel : Rel) : Tables :=
  if fresh then (t.retireGrain grain rel by_.at_).dropMemberless grain kind rel else t

/-- Overwrite a super-node's attrs. -/
def overwriteAttrs (id : String) (attrs : Attrs) : Tables :=
  { t with
    nodes := t.nodes.alter id fun n => n.map fun n => { n with attrs := attrs, proof := [] } }

def foldCommunity (c : CommunityAssigned) : Tables :=
  let grain := "community/" ++ c.resolution ++ "/"
  let attached := ((t.resetGrain by_ c.fresh grain .community .inCommunity).ensureNode by_
    c.community .community []).attach c.node c.community .inCommunity by_.at_ position
  (attached.overwriteAttrs c.community (.ofList [("resolution", c.resolution), ("hash", c.hash),
    ("label", "")])).oweRelabel [c.community]

def foldConceptDerived (c : ConceptDerived) : Tables :=
  let grain := "concept/" ++ c.resolution ++ "/"
  (t.resetGrain by_ c.fresh grain .concept .realizes).ensureNode by_ c.concept .concept
    [("resolution", c.resolution), ("hash", c.hash), ("label", c.label)]

def foldConceptRealized (r : ConceptRealized) : Tables :=
  (t.ensureNode by_ r.concept .concept []).attach r.node r.concept .realizes by_.at_ position

/-! ## One event -/

def foldPayload : Payload → Tables
  | .decisionMade d => t.foldDecision by_ position d
  | .unitIntegrated unit => t.invalidateFindings by_ (t.addressed unit)
  | .lessonLearned l => t.foldLesson by_ position l
  | .reviewFinding f => t.foldFinding by_ position f
  | .codeEntityExtracted c => t.foldDefinition by_ position c
  | .edgeInferred r => t.foldReference by_ position r
  | .docConceptExtracted c => t.foldConcept by_ c
  | .docLinkExtracted l => t.foldLink by_ position l
  | .spawnResult v => t.foldVerdict by_ v
  | .aliasDefined a => { t with aliases := t.aliases.insert a.alias_ a.canonical }
  | .aliasUnresolved mention => t.ensureNode by_ mention .artifact [("unresolved", "true")]
  | .communityAssigned c => t.foldCommunity by_ position c
  | .conceptDerived c => t.foldConceptDerived by_ c
  | .conceptRealized r => t.foldConceptRealized by_ position r
  | .unread => t

/-- Fold one event under the generation rule. -/
def fold (p : Payload) : Tables :=
  let (advanced, prior) := t.advanceGeneration by_
  let folded := advanced.foldPayload by_ position p
  match prior with
  | some prior => folded.retireUnheldNodes by_ prior
  | none => folded

/-! ## Community labels -/

/-- The live structural edges incident to a member, module declarations aside. -/
def degree (member : String) : Nat :=
  t.edges.countP fun e => e.isLive && structural e.rel && !t.declaration e.rel e.to_ &&
    (e.from_ == member || e.to_ == member)

/-- The degree and label of each live membership's member. -/
def memberLabels (community : String) : List (Nat × String) :=
  (t.edges.filter fun e => e.to_ == community && e.rel == .inCommunity && e.isLive).filterMap
    fun e => t.nodes[e.from_]?.map fun n => (t.degree e.from_, n.attrs["name"]?.getD e.from_)

/-- The higher degree first, then the lesser label. -/
def labelFirst (a b : Nat × String) : Prop := b.1 < a.1 ∨ a.1 = b.1 ∧ a.2 ≤ b.2

instance : DecidableRel labelFirst := fun a b => by unfold labelFirst; infer_instance

def labelOf (community : String) : String :=
  (((t.memberLabels community).insertionSort labelFirst).head?.map Prod.snd).getD ""

def relabel (community : String) : Tables :=
  { t with
    nodes := t.nodes.alter community fun n => n.map fun n =>
      if n.kind = .community then
        { n with attrs := n.attrs.insert "label" (t.labelOf community) }
      else n }

/-- Settle the label of every community a fold owed one. -/
def relabelOwedCommunities : Tables :=
  { t.relabelOwed.toList.foldl relabel t with relabelOwed := ∅ }

end Tables

/-! ## Folding into a file -/

/-- One event of `foldNew`: folded where its position has not folded yet, else asked for the cause
it was passed over with. -/
def foldOne (reading : Reading) (s : Folded × Option String) (e : Event) :
    Option (Folded × Option String) :=
  let (f, passed) := s
  if isLedgerEntry e.type_ then none
  else if e.position ∈ f.applied then some (f, passed.or f.passedOver[e.position]?)
  else
    (Payload.ofEvent reading e).map fun p =>
      ({ f with
        applied := f.applied.insert e.position
        tables := f.tables.fold (.of e) e.position p }, passed)

/-- Fold every event whose position has not folded yet, and answer the cause of the first already
recorded passed over. -/
def foldNew (reading : Reading) (f : Folded) (events : List Event) :
    Option (Folded × Option String) := do
  let (folded, passed) ← events.foldlM (foldOne reading) (f, none)
  pure ({ folded with tables := folded.tables.relabelOwedCommunities }, passed)

/-- What the batch function of an entry's fold answers. -/
inductive BatchAnswer where
  | batch (events : Option (List Event))
  | unread

inductive EntryFold where
  | alreadyApplied
  | reRecording
  | batchAsked
deriving DecidableEq

inductive EntryOutcome where
  | folded (f : EntryFold)
  | unresolved
  | unread
deriving DecidableEq

/-- Fold one event of a batch, then stage it. -/
def foldBatchEvent (reading : Reading) (by_ : Asserter) (position : Nat) (t : Tables) (e : Event) :
    Option Tables := do
  let p ← Payload.ofEvent reading e
  let folded := t.fold by_ position p
  match p with
  | .edgeInferred r => pure (folded.stageReference by_ position r)
  | _ => pure folded

/-- Fold a batch under its entry's identity, from its rows dropped to its rows settled. -/
def foldBatch (reading : Reading) (by_ : Asserter) (position : Nat) (t : Tables)
    (events : List Event) : Option Tables := do
  let dropped := { t with refs := t.refs.filter (·.identity != by_.identity) }
  let folded ← events.foldlM (foldBatchEvent reading by_ position) dropped
  pure (folded.settleReferences by_).relabelOwedCommunities

/-- Fold a ledger entry with its batch; `batch` is asked once, where the entry opens a
generation. -/
def foldEntry (reading : Reading) (f : Folded) (entry : Event) (batch : Option BatchAnswer) :
    Option (Folded × EntryOutcome) :=
  if entry.position ∈ f.applied then some (f, .folded .alreadyApplied)
  else do
    let f := { f with applied := f.applied.insert entry.position }
    let named ← GenerationIngested.parse entry.data
    if f.tables.currentGeneration named.identity = some named.generation then
      pure (f, .folded .reRecording)
    else
      let by_ : Asserter := ⟨named.identity, named.generation, toNanos entry.validFrom⟩
      match ← batch with
      | .batch none => pure (f, .unresolved)
      | .unread => pure (f, .unread)
      | .batch (some []) => pure (f, .folded .batchAsked)
      | .batch (some events) =>
        let tables ← foldBatch reading by_ entry.position f.tables events
        pure ({ f with tables := tables }, .folded .batchAsked)

/-- Settle the proofs the transaction owed, as its frame does before it commits. -/
def Folded.settled (f : Folded) : Folded := { f with tables := f.tables.settleProofs }

end Rigger.Graph
