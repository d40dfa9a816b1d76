import Rigger.Domain.Event

/-!
# The graph's vocabulary (`rigger-domain/src/contextgraph.rs`)

The event types the fold knows, the kinds, relations and tiers of what it builds, the payloads the
offline passes record, and the fact a re-asserting recording asserts.

A number a payload carries as a float is kept as the text the fold formats it to; reading that text
off the JSON number is `F64`, a parameter of the decoders that need it.
-/

namespace Rigger

open Lib

def typeDecisionMade : String := "DecisionMade"
def typeGateVerdict : String := "GateVerdict"
def typeLessonLearned : String := "LessonLearned"
def typeReviewFinding : String := "ReviewFinding"
def typeAliasDefined : String := "AliasDefined"
def typeAliasUnresolved : String := "AliasUnresolved"
def typeCodeEntityExtracted : String := "CodeEntityExtracted"
def typeEdgeInferred : String := "EdgeInferred"
def typeDocConceptExtracted : String := "DocConceptExtracted"
def typeDocLinkExtracted : String := "DocLinkExtracted"
def typeCommunityAssigned : String := "CommunityAssigned"
def typeConceptDerived : String := "ConceptDerived"
def typeConceptRealized : String := "ConceptRealized"

/-- Whether folding a batch of the type supersedes the subject's prior assertions rather than
re-asserting them in place. -/
def refoldSupersedesPriorEdges (type_ : String) : Bool :=
  type_ == typeCodeEntityExtracted || type_ == typeEdgeInferred

/-! ## Kinds, relations and tiers -/

inductive NodeKind where
  | decision
  | artifact
  | agent
  | gate
  | lesson
  | stage
  | finding
  | codeEntity
  | file
  | designDoc
  | archDecision
  | handbookRule
  | rationale
  | community
  | concept
deriving DecidableEq, Repr

inductive Rel where
  | supersedes
  | governs
  | about
  | raised
  | contains
  | references
  | calls
  | specifies
  | constrains
  | explains
  | docReferences
  | inCommunity
  | realizes
  | needs
  | runs
  | reviews
  | reviewsLight
deriving DecidableEq, Repr

inductive Tier where
  | extracted
  | inferred
  | ambiguous
deriving DecidableEq, Repr

/-- The kinds a concept's extraction names, by the strings it names them with. -/
def conceptKind : String → Option NodeKind
  | "design-doc" => some .designDoc
  | "arch-decision" => some .archDecision
  | "handbook-rule" => some .handbookRule
  | "rationale" => some .rationale
  | "stage" => some .stage
  | "gate" => some .gate
  | "agent" => some .agent
  | _ => none

/-- The relations a link's extraction names, by the strings it names them with. -/
def linkRel : String → Option Rel
  | "SPECIFIES" => some .specifies
  | "CONSTRAINS" => some .constrains
  | "GOVERNS" => some .governs
  | "explains" => some .explains
  | "references" => some .docReferences
  | "NEEDS" => some .needs
  | "RUNS" => some .runs
  | "REVIEWS" => some .reviews
  | "REVIEWS_LIGHT" => some .reviewsLight
  | _ => none

/-! ## Code kinds -/

def codeKindPrecedence : List String :=
  ["type", "trait", "impl", "function", "method", "macro", "constructor", "variant", "constant",
    "static", "variable", "declaration", "property", "field", "module", "other"]

def kindRank (kind : String) : Nat :=
  (codeKindPrecedence.findIdx? (· == kind)).getD (codeKindPrecedence.length - 1)

def definitionPrecedence (kind : String) (line : Nat) : Nat × Nat := (kindRank kind, line)

/-- The code kinds no call resolves onto. -/
def nonTargetKinds : List String := ["field", "property", "declaration"]

/-! ## Staged references -/

def refKindModule : String := "module"
def moduleCandidateSeparator : Char := '\n'

def referenceCandidateKinds : String → List String
  | "type" => ["type", "trait"]
  | "const" => ["constant", "static"]
  | "use" => codeKindPrecedence.filter fun kind => kind != "method" && !nonTargetKinds.contains kind
  | _ => []

def leafRefKinds : List String := ["type", "const", "use"]

def stagedRels : List Rel := [.references, .contains]

/-- The relation of the edge a row of the kind is. -/
def stagedRel (refKind : String) : Option Rel :=
  if refKind = refKindModule then some .contains
  else if leafRefKinds.contains refKind then some .references
  else none

/-! ## Payloads -/

/-- The text `format!("{}", resolution)` renders an `f64` payload field to. -/
abbrev F64 := Json → Option String

structure CommunityAssigned where
  node : String
  community : String
  resolution : String
  hash : String
  fresh : Bool
deriving DecidableEq

def CommunityAssigned.decode (f64 : F64) (data : Data) : Option CommunityAssigned := do
  let [node, community, resolution, hash, fresh] ←
    (← data.value).slots ["node", "community", "resolution", "hash", "fresh"] | none
  pure
    { node := ← Json.required Json.asStr node
      community := ← Json.required Json.asStr community
      resolution := ← Json.orDefault f64 "0" resolution
      hash := ← Json.orDefault Json.asStr "" hash
      fresh := ← Json.orDefault Json.asBool false fresh }

structure ConceptDerived where
  concept : String
  label : String
  resolution : String
  hash : String
  fresh : Bool
deriving DecidableEq

def ConceptDerived.decode (f64 : F64) (data : Data) : Option ConceptDerived := do
  let [concept, label, resolution, hash, fresh] ←
    (← data.value).slots ["concept", "label", "resolution", "hash", "fresh"] | none
  pure
    { concept := ← Json.required Json.asStr concept
      label := ← Json.orDefault Json.asStr "" label
      resolution := ← Json.orDefault f64 "0" resolution
      hash := ← Json.orDefault Json.asStr "" hash
      fresh := ← Json.orDefault Json.asBool false fresh }

structure ConceptRealized where
  node : String
  concept : String
deriving DecidableEq

def ConceptRealized.decode (f64 : F64) (data : Data) : Option ConceptRealized := do
  let [node, concept, resolution, hash] ←
    (← data.value).slots ["node", "concept", "resolution", "hash"] | none
  let _ ← Json.orDefault f64 "0" resolution
  let _ ← Json.orDefault Json.asStr "" hash
  pure
    { node := ← Json.required Json.asStr node
      concept := ← Json.required Json.asStr concept }

structure CodeEntityExtracted where
  file : String
  name : String
  path : Option String
  parent : Option String
  kind : String
  line : Nat
  lang : String
  fresh : Bool
  partial_ : Bool
deriving DecidableEq

namespace CodeEntityExtracted

def decode (data : Data) : Option CodeEntityExtracted := do
  let [file, name, path, parent, kind, line, lang, fresh, partial_] ←
    (← data.value).slots
      ["file", "name", "path", "parent", "kind", "line", "lang", "fresh", "partial"] | none
  pure
    { file := ← Json.required Json.asStr file
      name := ← Json.required Json.asStr name
      path := ← Json.orDefault (Json.asOption Json.asStr) none path
      parent := ← Json.orDefault (Json.asOption Json.asStr) none parent
      kind := ← Json.required Json.asStr kind
      line := ← Json.required (Json.asUnsigned 32) line
      lang := ← Json.orDefault Json.asStr "" lang
      fresh := ← Json.orDefault Json.asBool false fresh
      partial_ := ← Json.orDefault Json.asBool false partial_ }

/-- The definition's id path in its file: its `path`, where it carries one. -/
def idPath (c : CodeEntityExtracted) : String := (c.path.filter (· ≠ "")).getD c.name

def parentPath (c : CodeEntityExtracted) : Option String :=
  c.parent.filter fun parent => parent ≠ "" ∧ parent ≠ c.idPath

end CodeEntityExtracted

structure EdgeInferred where
  file : String
  name : String
  lang : String
  fresh : Bool
  caller : Option String
  line : Nat
  isTest : Bool
  partial_ : Bool
  refKind : Option String
deriving DecidableEq

def EdgeInferred.decode (data : Data) : Option EdgeInferred := do
  let [file, name, lang, fresh, caller, line, isTest, partial_, refKind] ←
    (← data.value).slots
      ["file", "name", "lang", "fresh", "caller", "line", "is_test", "partial", "ref_kind"] | none
  pure
    { file := ← Json.required Json.asStr file
      name := ← Json.required Json.asStr name
      lang := ← Json.orDefault Json.asStr "" lang
      fresh := ← Json.orDefault Json.asBool false fresh
      caller := ← Json.orDefault (Json.asOption Json.asStr) none caller
      line := ← Json.orDefault (Json.asUnsigned 32) 0 line
      isTest := ← Json.orDefault Json.asBool false isTest
      partial_ := ← Json.orDefault Json.asBool false partial_
      refKind := ← Json.orDefault (Json.asOption Json.asStr) none refKind }

structure DocConceptExtracted where
  kind : String
  id : String
  title : String
  doc : String
deriving DecidableEq

def DocConceptExtracted.decode (data : Data) : Option DocConceptExtracted := do
  let [kind, id, title, doc] ← (← data.value).slots ["kind", "id", "title", "doc"] | none
  pure
    { kind := ← Json.required Json.asStr kind
      id := ← Json.required Json.asStr id
      title := ← Json.orDefault Json.asStr "" title
      doc := ← Json.orDefault Json.asStr "" doc }

def DocConceptExtracted.asserted (c : DocConceptExtracted) (resolve : String → String) : String :=
  resolve c.id

structure DocLinkExtracted where
  from_ : String
  to_ : String
  rel : String
deriving DecidableEq

def DocLinkExtracted.decode (data : Data) : Option DocLinkExtracted := do
  let [src, dst, rel] ← (← data.value).slots ["from", "to", "rel"] | none
  pure
    { from_ := ← Json.required Json.asStr src
      to_ := ← Json.required Json.asStr dst
      rel := ← Json.required Json.asStr rel }

def DocLinkExtracted.asserted (l : DocLinkExtracted) (resolve : String → String) :
    String × String × String :=
  (resolve l.from_, l.rel, resolve l.to_)

structure AliasDefined where
  alias_ : String
  canonical : String
deriving DecidableEq

def AliasDefined.decode (data : Data) : Option AliasDefined := do
  let [name, canonical] ← (← data.value).slots ["alias", "canonical"] | none
  pure
    { alias_ := ← Json.required Json.asStr name
      canonical := ← Json.required Json.asStr canonical }

def aliasDefinition (data : Data) : Option (String × String) :=
  (AliasDefined.decode data).map fun a => (a.alias_, a.canonical)

/-! ## Facts -/

/-- The key of the fact a recording asserts, its names resolved: a link's triple, a concept's
node id, and the exact payload of any other type. -/
def assertedFact (type_ : String) (data : Data) (resolve : String → String) : Option Data :=
  if type_ = typeDocLinkExtracted then
    (DocLinkExtracted.decode data).map fun l =>
      let (src, rel, dst) := l.asserted resolve
      .json (.arr [.str src, .str rel, .str dst])
  else if type_ = typeDocConceptExtracted then
    (DocConceptExtracted.decode data).map fun c => .json (.str (c.asserted resolve))
  else some data

end Rigger
