import Rigger.Graph.Edge

/-!
# Test proofs (`sqlite.rs`, `fold_test_evidence` and `settle_proofs`)

A test reference is recorded as a row and its name owed; the transaction settles every name it owed
once before it commits, landing each row on the one definition that answers its name.
-/

namespace Rigger.Graph

open Lib

/-- A set of names in order, each once. -/
def sortedSet (names : List String) : List String := (Std.ExtTreeSet.ofList names).toList

/-- The order a proof lists its evidence in. -/
def ProofRow.before (a b : ProofRow) : Prop :=
  a.source < b.source ∨ a.source = b.source ∧ a.evidence ≤ b.evidence

instance : DecidableRel ProofRow.before := fun a b => by unfold ProofRow.before; infer_instance

namespace Tables

variable (t : Tables)

/-- The evidence of the references whose target the node is. -/
def evidenceOf (id : String) : List String :=
  ((t.proofs.filter (·.target == some id)).insertionSort ProofRow.before).map ProofRow.evidence

/-- Write onto the node the proof its resolved references give it. -/
def writeProof (id : String) : Tables :=
  { t with nodes := t.nodes.alter id fun n => n.map fun n => { n with proof := t.evidenceOf id } }

def writeProofs (ids : List String) : Tables := ids.foldl writeProof t

/-- The targets the rows `p` selects resolve to. -/
def proofTargetsBy (p : ProofRow → Bool) : List String :=
  (t.proofs.filter p).filterMap ProofRow.target

/-- A test file's re-extracted batch replaces every proof its prior batch recorded. -/
def supersedeFileProof (file : String) : Tables :=
  let kept := { t with proofs := t.proofs.filter (·.file != file) }
  kept.writeProofs (sortedSet (t.proofTargetsBy (·.file == file) ++
    kept.proofTargetsBy (·.file == file)))

def recordProof (name file evidence : String) (source : Nat) : Tables :=
  { t with proofs := t.proofs ++ [⟨name, file, evidence, source, none⟩] }

/-- Fold a test-origin reference as evidence, never as structure. -/
def foldTestEvidence (r : EdgeInferred) (position : Nat) : Tables :=
  let file := t.resolve r.file
  let opened := if r.fresh then t.supersedeFileProof file else t
  if r.name = "" then opened
  else
    (opened.recordProof r.name file (file ++ ":" ++ toString r.line) position).oweProofs r.name

/-- The definition a reference to `name` from `file` proves. -/
def provenTarget (name file : String) : Option String :=
  match t.sameFileCandidates file name with
  | [] => theOne (t.liveCallTargets name none)
  | [one] => some one
  | _ => none

/-- The rows of a name resolved against the definitions now. -/
def retargeted (name : String) : Tables :=
  { t with
    proofs := t.proofs.map fun r =>
      if r.name = name then { r with target := t.provenTarget name r.file } else r }

/-- The old and new targets of the rows the resolution of a name moves. -/
def movedTargets (name : String) : List String :=
  (t.proofs.filter fun r => r.name == name && t.provenTarget name r.file != r.target).flatMap
    fun r => r.target.toList ++ (t.provenTarget name r.file).toList

def resolveProofs (name : String) : Tables :=
  (t.retargeted name).writeProofs (sortedSet (t.movedTargets name))

/-- Pay one owed name: what its rows held and hold is written again. -/
def settleName (name : String) : Tables :=
  let resolved := t.resolveProofs name
  resolved.writeProofs (sortedSet (resolved.proofTargetsBy (·.name == name)))

/-- Settle every name owed, in name order. -/
def settleProofs : Tables :=
  { t.proofsOwed.toList.foldl settleName t with proofsOwed := ∅ }

end Tables

end Rigger.Graph
