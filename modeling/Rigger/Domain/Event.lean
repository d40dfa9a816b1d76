import Mathlib.Data.List.Basic
import Mathlib.Data.Int.Basic
import Rigger.Lib.Serde

/-!
# The event log's domain types (`rigger-domain/src/eventstore.rs`)

A `Position` is a `Nat`, a place in the global order; a `Revision` is an `Int`, a place within one
stream.  A `SystemTime` is the nanoseconds from the Unix epoch, negative before it; the log keeps
the `i64` of `toNanos`.  A payload is `Data`: the JSON text its readers decode, or bytes that are
no JSON text.
-/

namespace Rigger

open Lib

/-- The revision of a stream that does not yet exist. -/
def noStream : Int := -1

abbrev SystemTime := Int

/-- `as_nanos() as i64` keeps the low 64 bits; a time before the epoch encodes as 0. -/
def toNanos (t : SystemTime) : Int := if t < 0 then 0 else t.bmod (2 ^ 64)

def fromNanos (n : Int) : SystemTime := max n 0

abbrev Meta := Std.ExtTreeMap String String

inductive Data where
  | json (v : Json)
  | raw (bytes : List UInt8)
deriving DecidableEq

/-- What `serde_json::from_slice` hands the decoder of a payload. -/
def Data.value : Data → Option Json
  | .json v => some v
  | .raw _ => none

inductive Direction where
  | forward
  | backward
deriving DecidableEq, Repr

/-! ## Expectations and selections -/

inductive ExpectedRevision where
  | any
  | noStream
  | exact (v : Int)
deriving DecidableEq, Repr

/-- Whether the expectation takes an append to a stream whose last revision is `last`. -/
def ExpectedRevision.admits (expected : ExpectedRevision) (last : Int) : Bool :=
  match expected with
  | .any => true
  | .noStream => last == Rigger.noStream
  | .exact v => last == v

structure Filter where
  streamPrefix : Option String
deriving DecidableEq

inductive TypeSelection where
  | only (types : List String)
  | except (types : List String)

def TypeSelection.selects : TypeSelection → String → Bool
  | .only types, t => types.contains t
  | .except types, t => !types.contains t

/-! ## Events -/

structure Event where
  id : String
  stream : String
  type_ : String
  data : Data
  meta_ : Meta
  validFrom : SystemTime
  recordedAt : SystemTime
  position : Nat
  revision : Int
deriving DecidableEq

/-- The metadata key of an event's group: the identity of the batch it was recorded in. -/
def metaGroup : String := "group"

/-- A new event; `mint` is the fresh id and the clock's reading. -/
def Event.new (mint : String × SystemTime) (type_ : String) (data : Data) : Event where
  id := mint.1
  stream := ""
  type_ := type_
  data := data
  meta_ := ∅
  validFrom := mint.2
  recordedAt := mint.2
  position := 0
  revision := noStream

def Event.withMeta (e : Event) (key value : String) : Event :=
  { e with meta_ := e.meta_.insert key value }

structure GroupHead where
  position : Nat
  type_ : String
  meta_ : Meta
deriving DecidableEq

/-- What an append wrote: one slot per event it was handed, in input order. -/
structure Appended where
  placements : List (Option Nat)
deriving DecidableEq

inductive Error where
  | conflict (stream : String) (expected : ExpectedRevision) (actual : Int)
  | outOfOrder (stream : String) (attempted recorded : Int)
  | derivedAppend (type_ : String)
  | backend (message : String)
deriving DecidableEq

/-! ## The content-identity policy -/

/-- How a policy's re-asserting recordings name the fact each asserts: the type that defines a
name alias, the reading of a definition, and the key of the fact a recording of a type with a
payload asserts, its names resolved through the resolver. -/
structure FactIdentity where
  aliasType : String
  alias_ : Data → Option (String × String)
  fact : String → Data → (String → String) → Option Data

structure ContentIdentity where
  metaKey : String
  types : List String
  reasserting : Option (List String)
  keyParts : String → Option (String × String)
  facts : Option FactIdentity

/-- `new` declares no partition, no parser and no facts. -/
def ContentIdentity.new (metaKey : String) (types : List String) : ContentIdentity :=
  ⟨metaKey, types, none, fun _ => none, none⟩

def ContentIdentity.covers (p : ContentIdentity) (type_ : String) : Bool := p.types.contains type_

/-- The aliases one stream defines: alias ↦ every definition of it, in position order. -/
structure AliasHistory where
  defined : Std.ExtTreeMap String (List (Nat × String))

def AliasHistory.empty : AliasHistory := ⟨∅⟩

def AliasHistory.define (h : AliasHistory) (at_ : Nat) (alias_ canonical : String) :
    AliasHistory :=
  ⟨h.defined.insert alias_ (h.defined.getD alias_ [] ++ [(at_, canonical)])⟩

/-- What `mention` resolves to for the recording at `at_`: the latest definition before it, one
hop, else itself. -/
def AliasHistory.resolve (h : AliasHistory) (mention : String) (at_ : Nat) : String :=
  match ((h.defined.getD mention []).takeWhile fun d => d.1 < at_).getLast? with
  | some d => d.2
  | none => mention

end Rigger
