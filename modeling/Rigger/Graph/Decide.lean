import Rigger.Graph.Fold
import Rigger.Lib.Run

/-!
# Transactions (`sqlite.rs`, `in_transaction` and `decide_step`)

A transaction folds calls in order, settles the proofs they owed and commits, or leaves the file as
it was.  A call is an appender's direct fold, or one position of a fold pass: folded under a
savepoint of its own, and passed over with its cause where the judge rejects what it carries.
-/

namespace Rigger.Graph

open Lib

/-! ## The judge -/

def payloadRejected : String := "payload rejected"
def foldFailed : String := "fold failed"
def resolvedToNothing : String := "resolved to nothing"

/-- `check_fold_payload`: whether no fold will ever hold the payload. -/
def refused (reading : Reading) (e : Event) : Bool :=
  if isLedgerEntry e.type_ then (GenerationIngested.parse e.data).isNone
  else (Payload.ofEvent reading e).isNone

def rejection (reading : Reading) (class_ : String) (e : Event) : Option String :=
  if refused reading e then some (class_ ++ ": " ++ reading.why e.type_ e.data) else none

def rejectedPayload (reading : Reading) (e : Event) : Option String :=
  rejection reading payloadRejected e

/-! ## One position -/

inductive Decided where
  | read
  | unread
  | passedOver (cause : String)

/-- Record a position passed over; its row is an insert that no standing row may conflict with. -/
def Folded.passOver (f : Folded) (position : Nat) (cause : String) : Option Folded :=
  if position ∈ f.passedOver then none
  else some
    { f with
      applied := f.applied.insert position
      passedOver := f.passedOver.insert position cause }

/-- Fold an event under a savepoint of its own, and answer whether it is read. -/
def foldInSavepoint (f : Folded) (e : Event) (fold : Option (Folded × Decided))
    (rejected : Option String) : Option (Folded × Bool) :=
  match fold with
  | some (folded, .read) => some (folded, true)
  | some (_, .unread) => some (f, false)
  | some (_, .passedOver cause) => (f.passOver e.position cause).map (·, true)
  | none => do
    let cause ← rejected
    (f.passOver e.position cause).map (·, true)

/-- What a fold pass extracted for an entry before its transaction opens: the batch its fold is
handed, and the cause it is passed over with should that fold fail on the batch. -/
structure Extracted where
  answer : BatchAnswer
  rejected : Option String

/-- The entry's fold will ask its batch. -/
def asksBatch (f : Folded) (entry : Event) : Bool :=
  entry.position ∉ f.applied &&
    (GenerationIngested.parse entry.data).any fun named =>
      f.tables.currentGeneration named.identity != some named.generation

/-- The batch `reextract` answers, where the entry's fold will ask it; a re-extraction that fails
answers none. -/
def extractedBatch (reading : Reading) (f : Folded) (entry : Event)
    (reextract : Event → Option (Option (List Event))) : Option Extracted :=
  if asksBatch f entry then
    (reextract entry).map fun batch =>
      ⟨.batch batch, (batch.getD []).findSome? (rejection reading foldFailed)⟩
  else some ⟨.unread, none⟩

def decideEvent (reading : Reading) (f : Folded) (e : Event) : Option Folded :=
  (foldInSavepoint f e ((foldNew reading f [e]).map fun r => (r.1, .read))
    (rejectedPayload reading e)).map Prod.fst

/-- Decide an entry, and answer whether it is read. -/
def decideEntry (reading : Reading) (f : Folded) (entry : Event) (extracted : Extracted) :
    Option (Folded × Bool) :=
  foldInSavepoint f entry
    ((foldEntry reading f entry (some extracted.answer)).map fun r =>
      match r.2 with
      | .folded _ => (r.1, .read)
      | .unresolved => (r.1, .passedOver resolvedToNothing)
      | .unread => (r.1, .unread))
    ((rejectedPayload reading entry).or extracted.rejected)

/-! ## One transaction -/

/-- What one transaction folds of the log. -/
inductive FoldCall where
  /-- Events folded directly. -/
  | events (es : List Event)
  /-- A ledger entry folded directly, with what its batch function answers: none where it fails. -/
  | entry (e : Event) (batch : Option (Option (List Event)))
  | decidedEvent (e : Event)
  | decidedEntry (e : Event) (extracted : Extracted)

def foldCall (reading : Reading) (f : Folded) : FoldCall → Option Folded
  | .events es => (foldNew reading f es).map Prod.fst
  | .entry e batch => (foldEntry reading f e (batch.map .batch)).map Prod.fst
  | .decidedEvent e => decideEvent reading f e
  | .decidedEntry e extracted => (decideEntry reading f e extracted).map Prod.fst

/-- Run a transaction: committed with its proofs settled, or rolled back whole. -/
def transact (reading : Reading) (f : Folded) (calls : List FoldCall) : Folded :=
  match calls.foldlM (foldCall reading) f with
  | some folded => folded.settled
  | none => f

end Rigger.Graph
