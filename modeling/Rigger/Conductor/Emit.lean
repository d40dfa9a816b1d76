import Rigger.Domain.Contextgraph
import Rigger.Domain.Ingest
import Rigger.Domain.Ledger
import Rigger.Lib.Cut

/-!
# What the conductor emits (`rigger-conductor/src/conductor.rs`, `replay_keys.rs`)

An emit appends an event that carries the metadata it was handed, empty values left out.  A keyed
emit appends nothing where the set of replay keys holds its key; a process seeds the set from the
run's log and adds every key it emits under.
-/

namespace Rigger.Conductor

open Lib

/-- A fresh id and the clock's reading. -/
abbrev Mint := String × SystemTime

/-- `event_with_meta`: a value that is empty is not stamped. -/
def eventWithMeta (mint : Mint) (type_ : String) (payload : Json) (extra : List (String × String)) :
    Event :=
  extra.foldl (fun ev kv => if kv.2.isEmpty then ev else ev.withMeta kv.1 kv.2)
    (Event.new mint type_ (.json payload))

/-- What no stamp changes is the new event's. -/
theorem eventWithMeta_kept {α : Type} (mint : Mint) (type_ : String) (payload : Json)
    (extra : List (String × String)) (read : Event → α)
    (hread : ∀ ev key value, read (ev.withMeta key value) = read ev) :
    read (eventWithMeta mint type_ payload extra) =
      read (Event.new mint type_ (.json payload)) := by
  unfold eventWithMeta
  induction extra using List.reverseRecOn with
  | nil => rfl
  | append_singleton extra kv ih =>
    rw [List.foldl_concat]
    split
    · exact ih
    · exact (hread _ _ _).trans ih

@[simp] theorem eventWithMeta_type (mint : Mint) (type_ : String) (payload : Json)
    (extra : List (String × String)) : (eventWithMeta mint type_ payload extra).type_ = type_ :=
  eventWithMeta_kept mint type_ payload extra Event.type_ fun _ _ _ => rfl

@[simp] theorem eventWithMeta_data (mint : Mint) (type_ : String) (payload : Json)
    (extra : List (String × String)) :
    (eventWithMeta mint type_ payload extra).data = .json payload :=
  eventWithMeta_kept mint type_ payload extra Event.data fun _ _ _ => rfl

theorem eventWithMeta_concat (mint : Mint) (type_ : String) (payload : Json)
    (extra : List (String × String)) (key value : String) :
    eventWithMeta mint type_ payload (extra ++ [(key, value)]) =
      if value.isEmpty then eventWithMeta mint type_ payload extra
      else (eventWithMeta mint type_ payload extra).withMeta key value := by
  unfold eventWithMeta
  rw [List.foldl_concat]

/-- The value an event carries under a key: the last one stamped that is not empty. -/
theorem eventWithMeta_meta (mint : Mint) (type_ : String) (payload : Json)
    (extra : List (String × String)) (key : String) :
    (eventWithMeta mint type_ payload extra).meta_[key]? =
      latest (fun kv => if kv.1 = key ∧ kv.2.isEmpty = false then some kv.2 else none) extra := by
  induction extra using List.reverseRecOn with
  | nil => exact Std.ExtTreeMap.getElem?_empty
  | append_singleton extra kv ih =>
    obtain ⟨k, v⟩ := kv
    rw [eventWithMeta_concat, latest_concat]
    by_cases hv : v.isEmpty = true
    · rw [if_pos hv, ih, if_neg (by simp [hv]), Option.none_or]
    · rw [if_neg hv]
      show ((eventWithMeta mint type_ payload extra).meta_.insert k v)[key]? = _
      rw [Std.ExtTreeMap.getElem?_insert]
      by_cases hk : k = key
      · simp [hk, hv]
      · simp [hk, ih]

/-! ## Replay keys -/

/-- `ReplayKeys::seeded`. -/
def seededKeys (prior : List Event) : List String :=
  (prior.filter fun e => !perceptionTypes.contains e.type_).filterMap fun e =>
    e.meta_[metaReplayKey]?

theorem exists_of_mem_seededKeys {log : List Event} {key : String} (h : key ∈ seededKeys log) :
    ∃ e ∈ log, e.meta_[metaReplayKey]? = some key := by
  obtain ⟨e, he, hkey⟩ := List.mem_filterMap.1 h
  exact ⟨e, (List.mem_filter.1 he).1, hkey⟩

theorem mem_seededKeys_concat {log : List Event} {e : Event} {key : String}
    (h : key ∈ seededKeys (log ++ [e])) : key ∈ seededKeys log ∨
    e.meta_[metaReplayKey]? = some key := by
  unfold seededKeys at h ⊢
  rw [List.filter_append, List.filterMap_append, List.mem_append] at h
  refine h.imp_right fun hlast => ?_
  obtain ⟨x, hx, hkey⟩ := List.mem_filterMap.1 hlast
  have hmem := (List.mem_filter.1 hx).1
  rw [List.mem_singleton] at hmem
  exact hmem ▸ hkey

/-- `keyed_event`: the event a keyed emit appends, none where the key is a replay. -/
def keyedEvent (keys : List String) (mint : Mint) (key type_ : String) (payload : Json)
    (extra : List (String × String)) : Option Event :=
  if keys.contains key then none
  else some (eventWithMeta mint type_ payload (extra ++ [(metaReplayKey, key)]))

/-! ## Gate keys -/

def gateInfix : String := "/gate:"

def unitOfGateKey (key : String) : Option String :=
  (splitAround gateInfix.toList key.toList).map fun p => String.ofList p.1

/-- A `u32` as `str::parse` reads it. -/
def parseU32 (text : List Char) : Option Nat :=
  let digits := if text.head? = some '+' then text.tail else text
  let n := Nat.ofDigitChars 10 digits 0
  if digits ≠ [] ∧ digits.all Char.isDigit ∧ n < 2 ^ 32 then some n else none

theorem parseU32_digits {n : Nat} (h : n < 2 ^ 32) :
    parseU32 (toString n).toList = some n := by
  have hhead : (toString n).toList.head? ≠ some '+' := fun hc =>
    not_mem_digits (by decide) n (List.mem_of_mem_head? hc)
  have hvalue : Nat.ofDigitChars 10 (toString n).toList 0 = n := by
    rw [Nat.toString_eq_ofList_toDigits, String.toList_ofList, Nat.ofDigitChars_ten_toDigits]
  unfold parseU32
  simp only [if_neg hhead, hvalue]
  exact if_pos ⟨digits_ne_nil n, all_isDigit_toString n, h⟩

theorem parseU32_lt {text : List Char} {n : Nat} (h : parseU32 text = some n) :
    n < 2 ^ 32 := by
  unfold parseU32 at h
  simp only [Option.ite_none_right_eq_some, Option.some.injEq] at h
  obtain ⟨hn, rfl⟩ := h
  exact hn.2.2

/-- `spawn::attempt_of`: the number between the last `#` and the next `~`, else 0. -/
def attemptOf (id : List Char) : Nat :=
  let tail := ((rsplitOnceList '#' id).map Prod.snd).getD id
  (parseU32 (tail.takeWhile (· ≠ '~'))).getD 0

def gateKeyAttempt (key : String) : Option Nat :=
  (splitAround gateInfix.toList key.toList).bind fun p =>
    if '#' ∈ p.2 then some (attemptOf p.2) else none

/-- `GateVerdictData`. -/
structure GateVerdict where
  gate : String
  pass : Bool
  evidence : String
deriving DecidableEq

def GateVerdict.decode (data : Data) : Option GateVerdict := do
  let [gate, pass, evidence] ← (← data.value).slots ["gate", "pass", "evidence"] | none
  pure
    { gate := ← Json.orDefault Json.asStr "" gate
      pass := ← Json.required Json.asBool pass
      evidence := ← Json.orDefault Json.asStr "" evidence }

/-- The keyed verdict an event of the log adds to the cache of gate runs. -/
def gateVerdictOf (e : Event) : Option (String × GateVerdict) :=
  if e.type_ = typeGateVerdict then
    e.meta_[metaReplayKey]?.bind fun key => (GateVerdict.decode e.data).map fun v => (key, v)
  else none

/-- `gate_verdict_high_water`, over the keys of the cache. -/
def gateVerdictHighWater (keys : List String) (unit : String) : Option Nat :=
  ((keys.filter fun k => unitOfGateKey k == some unit).filterMap gateKeyAttempt).max?

/-! ## Failures -/

/-- `str::trim`, which takes every character of the `White_Space` property off both ends. -/
def isWhite (c : Char) : Bool :=
  let n := c.toNat
  (0x9 ≤ n && n ≤ 0xD) || n == 0x20 || n == 0x85 || n == 0xA0 || n == 0x1680 ||
    (0x2000 ≤ n && n ≤ 0x200A) || n == 0x2028 || n == 0x2029 || n == 0x202F || n == 0x205F ||
    n == 0x3000

def trim (s : String) : String :=
  String.ofList ((s.toList.dropWhile isWhite).reverse.dropWhile isWhite).reverse

def causeReject : String := "reject"

/-- What a failed attempt leaves for the prompt of the next one. -/
structure PriorFailure where
  gateEvidence : List String
  reviewReason : String
  required : List Ledger.RequiredItem

def PriorFailure.none : PriorFailure := ⟨[], "", []⟩

def requiredBody (r : Ledger.RequiredItem) : Json :=
  .obj [("finding", .str r.finding), ("path", .str r.path), ("correctness", .bool r.correctness),
    ("pattern", .str r.pattern)]

/-- The body every `UnitFailed` writes. -/
def PriorFailure.failedBody (f : PriorFailure) (unit : String) (attempts : Nat) (cause : String) :
    Json :=
  .obj [("id", .str unit), ("attempts", .num attempts), ("cause", .str cause),
    ("gate_evidence", .arr (f.gateEvidence.map .str)), ("review_reason", .str f.reviewReason),
    ("required", .arr (f.required.map requiredBody))]

end Rigger.Conductor
