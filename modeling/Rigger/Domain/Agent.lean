import Rigger.Domain.Hold
import Rigger.Lib.Cut
import Mathlib.Data.List.Infix

/-!
# What a driver's error carries (`rigger-domain/src/agent.rs`)

An error is a text.  Its readers branch on a marker anywhere in it, or on the failure class in a
bracket at its head.
-/

namespace Rigger.Agent

open Lib

def parkedMarker : String := "\x01rigger:spawn-parked\x01"
def emitRefusedMarker : String := "\x01rigger:emit-refused\x01"
def interruptedMarker : String := "\x01rigger:launch-interrupted\x01"
def storeFaultMarker : String := "\x01rigger:store-fault\x01"

/-- It brackets a failure class at an error's head. -/
def failureMarker : Char := '\x02'

/-- `carries_marker`: a marker survives the wrapping of an error as a substring. -/
def carriesMarker (e marker : String) : Bool :=
  e.toList.tails.any fun rest => marker.toList.isPrefixOf rest

def isParked (e : String) : Bool := carriesMarker e parkedMarker
def isInterrupted (e : String) : Bool := carriesMarker e interruptedMarker
def isStoreFault (e : String) : Bool := carriesMarker e storeFaultMarker
def isParkedOrRefused (e refusal : String) : Bool := isParked e || carriesMarker e refusal

/-- The park of spawn `id`; `debug` quotes it. -/
def parkedSpawn (debug : String → String) (id : String) : String :=
  parkedMarker ++ " spawn " ++ debug id ++ " parked: nothing serves it in-process"

def storeFault (e : String) : String := storeFaultMarker ++ e

/-- The class in a whole bracket at an error's head, and the text behind it. -/
def failureParts (e : String) : Option (String × String) :=
  (stripPrefix (String.singleton failureMarker) e).bind (splitOnce failureMarker)

def failureClass (e : String) : Option AgentFailure :=
  (failureParts e).map fun p => AgentFailure.fromCategory p.1

/-- `strip_failure_marker`: what an agent or the operator reads of a spawn's error. -/
def stripFailureMarker (e : String) : String :=
  match [emitRefusedMarker, storeFaultMarker].findSome? fun marker => stripPrefix marker e with
  | some text => text
  | none =>
    match failureParts e with
    | some (_, message) => (stripPrefix interruptedMarker message).getD message
    | none => e

/-- `no_result_error`. -/
def noResultError (category : AgentFailure) (message : String) : String :=
  String.singleton failureMarker ++ category.asStr ++ String.singleton failureMarker ++ message

theorem carriesMarker_iff {e marker : String} :
    carriesMarker e marker = true ↔ marker.toList <:+: e.toList := by
  unfold carriesMarker
  simp only [List.any_eq_true, List.mem_tails, List.isPrefixOf_iff_prefix]
  constructor
  · rintro ⟨rest, hsuffix, hprefix⟩
    exact hprefix.isInfix.trans hsuffix.isInfix
  · rintro ⟨before, after, h⟩
    exact ⟨marker.toList ++ after, ⟨before, by rw [← h, List.append_assoc]⟩, List.prefix_append _ _⟩

theorem carriesMarker_append (marker e : String) : carriesMarker (marker ++ e) marker = true := by
  rw [carriesMarker_iff, String.toList_append]
  exact (List.prefix_append _ _).isInfix

theorem isParked_parkedSpawn (debug : String → String) (id : String) :
    isParked (parkedSpawn debug id) = true := by
  unfold isParked parkedSpawn
  rw [String.append_assoc, String.append_assoc]
  exact carriesMarker_append _ _

end Rigger.Agent
