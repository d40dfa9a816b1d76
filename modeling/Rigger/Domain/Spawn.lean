import Mathlib.Data.List.SplitBy
import Rigger.Domain.Event
import Rigger.Lib.Cut

/-!
# The adjudicator's verdict (`rigger-domain/src/spawn.rs`)

A review's findings are disposed by the last verdict line of an adjudicator's recorded result.
-/

namespace Rigger

open Lib

def typeSpawnResult : String := "SpawnResult"

def roleAdjudicator : String := "adjudicator"

/-- The role token of a spawn id `{unit}/{role}#{attempt}`. -/
def spawnRole (id : String) : String :=
  let role := ((rsplitOnce '/' id).map Prod.snd).getD id
  String.ofList (role.toList.takeWhile fun c => c ≠ '#' ∧ c ≠ '~')

/-- The unit token, everything before the first slash. -/
def spawnUnit (id : String) : String := String.ofList (id.toList.takeWhile (· ≠ '/'))

structure Adjudication where
  upheld : List String
  discarded : List String
deriving DecidableEq

namespace Adjudication

def strArray (key : String) (v : Json) : List String :=
  match v.get key with
  | some (.arr items) => items.filterMap Json.asStr
  | _ => []

/-- The last line `line` reads as a value carrying a verdict; `line` parses one line of the output,
trimmed. -/
def parse (line : String → Option Json) (output : String) : Option Adjudication :=
  ((output.toList.splitOn '\n').reverse.map String.ofList).findSome? fun text => do
    let v ← line text
    if ["verdict", "upheld", "discarded"].any fun key => (v.get key).isSome then
      some ⟨strArray "upheld" v, strArray "discarded" v⟩
    else none

end Adjudication

structure SpawnResult where
  id : String
  output : String
deriving DecidableEq

namespace SpawnResult

def decode (data : Data) : Option SpawnResult := do
  let [id, output, error, _] ← (← data.value).slots ["id", "output", "error", "meta"] | none
  let _ ← Json.orDefault Json.asStr "" error
  pure ⟨← Json.required Json.asStr id, ← Json.orDefault Json.asStr "" output⟩

/-- A role carrying a step token is a later step, which no adjudicator takes. -/
def isAdjudicator (r : SpawnResult) : Bool := spawnRole r.id == roleAdjudicator

def adjudication (line : String → Option Json) (r : SpawnResult) : Option Adjudication :=
  if r.isAdjudicator then Adjudication.parse line r.output else none

end SpawnResult

end Rigger
