import Rigger.Domain.Ledger
import Rigger.Domain.Query
import Rigger.Domain.Spawn

/-!
# What the fold reads of an event (`rigger-graph-sqlite/src/contextgraph/mod.rs`)

The payload shapes only the fold reads, and `Payload`: an event as `fold_event` sees it, its type
and payload decoded.  A payload of a read type that does not decode is refused; `Payload.unread` is
an event the fold passes, one of a type it has no arm for or whose arm projects nothing.

`Reading` is what the decoders need of code outside the model: the text of a float, the parse of one
line of an adjudicator's output, and the text a payload that does not decode is refused with.
-/

namespace Rigger.Graph

open Lib

structure Reading where
  f64 : F64
  verdictLine : String → Option Json
  why : String → Data → String

/-! ## Records -/

def referencedIds (v : Json) : Option (List String) :=
  (Json.asList Json.asStr v).map (·.map referencedId)

/-- An empty location names nothing. -/
def referencedFile (v : Json) : Option (Option String) :=
  (Json.asOption Json.asStr v).map fun file => (file.filter (· ≠ "")).map referencedId

structure DecisionMade where
  id : String
  summary : String
  governs : List String
  supersedes : String
deriving DecidableEq

def DecisionMade.decode (data : Data) : Option DecisionMade := do
  let [id, summary, governs, supersedes] ←
    (← data.value).slots ["id", "summary", "governs", "supersedes"] | none
  pure
    { id := ← Json.required Json.asStr id
      summary := ← Json.orDefault Json.asStr "" summary
      governs := ← Json.orDefault referencedIds [] governs
      supersedes := ← Json.orDefault Json.asStr "" supersedes }

/-- The unit an integration names, under `unit` or its alias `id`. -/
def integratedUnit (data : Data) : Option String := do
  match ← data.value with
  | .obj members =>
    let [m] := members.filter fun m => m.1 == "unit" || m.1 == "id" | none
    m.2.asStr
  | .arr [v] => v.asStr
  | _ => none

structure LessonLearned where
  id : String
  summary : String
  about : List String
  file : Option String
deriving DecidableEq

def LessonLearned.decode (data : Data) : Option LessonLearned := do
  let [id, summary, about, file] ←
    (← data.value).slots ["id", "summary", "about", "file"] | none
  pure
    { id := ← Json.required Json.asStr id
      summary := ← Json.orDefault Json.asStr "" summary
      about := ← Json.orDefault referencedIds [] about
      file := ← Json.orDefault referencedFile none file }

structure ReviewFinding where
  id : String
  by_ : String
  unit : String
  summary : String
  about : List String
  file : Option String
deriving DecidableEq

def ReviewFinding.decode (data : Data) : Option ReviewFinding := do
  let [id, reviewer, unit, summary, about, file] ←
    (← data.value).slots ["id", "by", "unit", "summary", "about", "file"] | none
  pure
    { id := ← Json.required Json.asStr id
      by_ := ← Json.orDefault Json.asStr "" reviewer
      unit := ← Json.orDefault Json.asStr "" unit
      summary := ← Json.orDefault Json.asStr "" summary
      about := ← Json.orDefault referencedIds [] about
      file := ← Json.orDefault referencedFile none file }

/-- Every location a lesson or finding names. -/
def locations (about : List String) (file : Option String) : List String := about ++ file.toList

/-- The mention an `AliasUnresolved` names. -/
def unresolvedMention (data : Data) : Option String := do
  let [mention] ← (← data.value).slots ["mention"] | none
  Json.required Json.asStr mention

/-! ## Payloads -/

/-- An adjudicator's verdict: the unit it judged and the findings it disposed. -/
structure Verdict where
  unit : String
  discarded : List String
  upheld : List String
deriving DecidableEq

inductive Payload where
  | decisionMade (d : DecisionMade)
  | unitIntegrated (unit : String)
  | lessonLearned (l : LessonLearned)
  | reviewFinding (f : ReviewFinding)
  | codeEntityExtracted (c : CodeEntityExtracted)
  | edgeInferred (r : EdgeInferred)
  | docConceptExtracted (c : DocConceptExtracted)
  | docLinkExtracted (l : DocLinkExtracted)
  | spawnResult (v : Verdict)
  | aliasDefined (a : AliasDefined)
  | aliasUnresolved (mention : String)
  | communityAssigned (c : CommunityAssigned)
  | conceptDerived (c : ConceptDerived)
  | conceptRealized (r : ConceptRealized)
  | unread
deriving DecidableEq

/-- The verdict of a recorded result; a result that does not decode, is no adjudicator's or carries
no verdict line disposes nothing. -/
def Payload.ofSpawnResult (reading : Reading) (data : Data) : Payload :=
  let verdict := do
    let result ← SpawnResult.decode data
    let adjudication ← result.adjudication reading.verdictLine
    pure ⟨spawnUnit result.id, adjudication.discarded, adjudication.upheld⟩
  match verdict with
  | some v => .spawnResult v
  | none => .unread

/-- The payload the fold reads of `e`, none where its data is refused. -/
def Payload.ofEvent (reading : Reading) (e : Event) : Option Payload :=
  if e.type_ = typeDecisionMade then (DecisionMade.decode e.data).map .decisionMade
  else if e.type_ = Ledger.typeUnitIntegrated then (integratedUnit e.data).map .unitIntegrated
  else if e.type_ = typeLessonLearned then (LessonLearned.decode e.data).map .lessonLearned
  else if e.type_ = typeReviewFinding then (ReviewFinding.decode e.data).map .reviewFinding
  else if e.type_ = typeCodeEntityExtracted then
    (CodeEntityExtracted.decode e.data).map .codeEntityExtracted
  else if e.type_ = typeEdgeInferred then (EdgeInferred.decode e.data).map .edgeInferred
  else if e.type_ = typeDocConceptExtracted then
    (DocConceptExtracted.decode e.data).map .docConceptExtracted
  else if e.type_ = typeDocLinkExtracted then
    (DocLinkExtracted.decode e.data).map .docLinkExtracted
  else if e.type_ = typeSpawnResult then some (Payload.ofSpawnResult reading e.data)
  else if e.type_ = typeAliasDefined then (AliasDefined.decode e.data).map .aliasDefined
  else if e.type_ = typeAliasUnresolved then (unresolvedMention e.data).map .aliasUnresolved
  else if e.type_ = typeCommunityAssigned then
    (CommunityAssigned.decode reading.f64 e.data).map .communityAssigned
  else if e.type_ = typeConceptDerived then
    (ConceptDerived.decode reading.f64 e.data).map .conceptDerived
  else if e.type_ = typeConceptRealized then
    (ConceptRealized.decode reading.f64 e.data).map .conceptRealized
  else some .unread

end Rigger.Graph
