import Mathlib.Algebra.Ring.Nat
import Mathlib.Data.List.Nodup
import Mathlib.Data.List.SplitBy
import Mathlib.Data.List.TakeWhile
import Rigger.Domain.Contextgraph
import Rigger.Domain.Query
import Rigger.Domain.Spawns
import Rigger.Lib.Run

/-!
# The critique of a spec (`rigger-domain/src/review.rs`)

A spec text's critique is the union of its passes: of every attempt of its hash, the latest result
the critic recorded, where the authority accepts it.  A finding's id holds its attempt and its place
among the finding lines of that result.  A decision resolves a finding where it names the id,
governs the spec and is recorded after the result the finding is read from.

`line` parses one line of an output, trimmed.
-/

namespace Rigger.Review

open Lib Spawn
open Conductor (trim attemptOf parseU32_digits parseU32_lt)

/-! ## The critic's output -/

/-- `str::lines`. -/
def lines (text : String) : List String :=
  let pieces := text.toList.splitOn '\n'
  let ended := pieces.dropLast.map fun l => if l.getLast? = some '\r' then l.dropLast else l
  (ended ++ pieces.getLast?.toList.filter (· ≠ [])).map String.ofList

/-- `last_verdict`: the verdict of the last line that carries one. -/
def lastVerdict (line : String → Option Json) (output : String) : Option String :=
  (lines output).reverse.findSome? fun text => do
    (← (← line (trim text)).get "verdict").asStr

def verdictApprove : String := "approve"

/-- `verdict_approves`: compared without ASCII case. -/
def verdictApproves (line : String → Option Json) (output : String) : Bool :=
  (lastVerdict line output).any fun v => v.toList.map Char.toLower = verdictApprove.toList

structure CritiqueFinding where
  id : String
  blocking : Bool
  critic : String
  location : String
  reading : String
  fix : String
deriving DecidableEq

/-- One leading and one trailing pipe taken off. -/
def unpiped (text : List Char) : List Char :=
  let text := if text.head? = some '|' then text.tail else text
  if text.getLast? = some '|' then text.dropLast else text

/-- The finding a line carries, its id to be given. -/
def findingLine (text : String) : Option CritiqueFinding := do
  let fields := (unpiped (trim text).toList).splitOn '|'
  let critic :: severity :: location :: reading :: fix₀ :: fix := fields | none
  let field := fun f => trim (String.ofList f)
  let blocking ←
    if field severity = "BLOCKING" then some true
    else if field severity = "NON-BLOCKING" then some false
    else none
  pure ⟨"", blocking, field critic, field location, field reading,
    field (List.intercalate ['|'] (fix₀ :: fix))⟩

def findingId (hash : String) (attempt k : Nat) : String :=
  "sc-" ++ hash ++ "-" ++ toString attempt ++ "-" ++ toString k

/-- `critique_findings`: the finding lines in order, each with its place from 1 on. -/
def critiqueFindings (output hash : String) (attempt : Nat) : List CritiqueFinding :=
  ((lines output).filterMap findingLine).mapIdx fun i f =>
    { f with id := findingId hash attempt (i + 1) }

def holdsBlocking (findings : List CritiqueFinding) : Bool := findings.any CritiqueFinding.blocking

/-! ## Passes -/

def roleAdversary : String := "adversary"

def critiqueUnit (hash : String) : String := "critique-" ++ hash

def critiqueSpawnId (hash : String) (attempt : Nat) : String :=
  spawnId (critiqueUnit hash) roleAdversary attempt

/-- `critique_attempt`. -/
def critiqueAttempt (id hash : String) : Option Nat :=
  let attempt := attemptOf id.toList
  if critiqueSpawnId hash attempt = id then some attempt else none

structure CritiquePass where
  position : Nat
  attempt : Nat
  verdict : String
  findings : List CritiqueFinding
deriving DecidableEq

/-- Why a result is no pass. -/
inductive Refusal where
  | unreadable
  | notACritique (id : String)
  | failed (error : String)
  | noVerdict
  | notApproved (verdict : String)
deriving DecidableEq

section
variable (line : String → Option Json)

/-- `judged`. -/
def judged (result : Result) (hash : String) :
    Except Refusal (Nat × String × List CritiqueFinding) :=
  match critiqueAttempt result.id hash with
  | none => .error (.notACritique result.id)
  | some attempt =>
    if result.error ≠ "" then .error (.failed result.error)
    else
      match lastVerdict line result.output with
      | none => .error .noVerdict
      | some verdict =>
        let findings := critiqueFindings result.output hash attempt
        if !verdictApproves line result.output && !holdsBlocking findings then
          .error (.notApproved verdict)
        else .ok (attempt, verdict, findings)

/-- `critique_of`: the authority over one recorded result. -/
def critiqueOf (event : Event) (hash : String) : Except Refusal CritiquePass :=
  match Result.decode event.data with
  | none => .error .unreadable
  | some result => (judged line result hash).map fun j => ⟨event.position, j.1, j.2.1, j.2.2⟩

/-- `passes`, by attempt. -/
def passes (results : List Event) (hash : String) : Std.ExtTreeMap Nat CritiquePass :=
  let latest := (latestResults results).toList.map Prod.snd
  collect ((latest.filterMap fun e => (critiqueOf line e hash).toOption).map
    fun p => (p.attempt, p))

/-- A critique: every pass, in ascending attempt. -/
structure Critique where
  passes : List CritiquePass

def Critique.findings (c : Critique) : List CritiqueFinding :=
    c.passes.flatMap CritiquePass.findings

/-- The recorded union; `read_critique` answers none where it has no pass.  `stream` is the run
stream of the critique's store. -/
def recordedUnion (stream : List Event) (hash : String) : Critique :=
  let results := stream.filter fun e => e.type_ == typeSpawnResult
  ⟨(passes line results hash).toList.map Prod.snd⟩

end

/-! ## Resolutions -/

/-- The components of a path: empty ones and `.` dropped, `..` popping its parent, none where it
climbs above the start. -/
def lexicalParts (path : String) : Option (List String) :=
  ((path.toList.splitOn '/').map String.ofList).foldlM (fun parts component =>
    if component = "" ∨ component = "." then some parts
    else if component = ".." then if parts = [] then none else some parts.dropLast
    else some (parts ++ [component])) []

def isAbsolute (path : String) : Bool := path.toList.head? = some '/'

/-- `normalize_spec_path`. -/
def normalizeSpecPath (root path : String) : Option String := do
  let parts ← lexicalParts path
  let relative ←
    if isAbsolute path then do
      let root ← lexicalParts root
      if root.isPrefixOf parts then some (parts.drop root.length) else none
    else some parts
  pure (String.intercalate "/" relative)

/-- The string entries of an array, none where the value is no array. -/
def stringEntries (key : String) (v : Json) : List String :=
  match v.get key with
  | some (.arr items) => items.filterMap Json.asStr
  | _ => []

/-- The ids a decision that governs `spec` resolves. -/
def resolvedBy (spec root : String) (event : Event) : List String :=
  if event.type_ = typeDecisionMade then
    match event.data.value with
    | some decision =>
      if (stringEntries "governs" decision).any fun governed =>
          normalizeSpecPath root (referencedId governed) = some spec then
        stringEntries "resolves" decision
      else []
    | none => []
  else []

/-- `open_findings`. -/
def openFindings (critique : Critique) (decisions : List Event)
    (spec root : String) : List String :=
  let resolutions := decisions.flatMap fun event =>
    (resolvedBy spec root event).map fun id => (event.position, id)
  critique.passes.flatMap fun pass =>
    (pass.findings.filter fun finding => finding.blocking &&
      !resolutions.any fun r => decide (r.1 > pass.position) && r.2 == finding.id).map
        CritiqueFinding.id

/-! ## Attempts -/

/-- `critique_requests`: a `u32`, one for each request, none where one is unreadable. -/
def critiqueRequests (events : List Event) (hash : String) : Option Nat :=
  (requests events).map fun rs =>
    (rs.countP fun r => (critiqueAttempt r.id hash).isSome) % 2 ^ 32

/-- `next_critique_attempt`. -/
def nextCritiqueAttempt (stream : List Event) (hash : String) : Option Nat :=
  critiqueRequests (stream.filter fun e => e.type_ == typeSpawnRequested) hash

/-! ## Ids -/

theorem attemptOf_lt (id : List Char) : attemptOf id < 2 ^ 32 := by
  have hlt : ∀ text, (Conductor.parseU32 text).getD 0 < 2 ^ 32 := by
    intro text
    cases h : Conductor.parseU32 text with
    | none => exact Nat.two_pow_pos 32
    | some n => exact parseU32_lt h
  exact hlt _

theorem attemptOf_critiqueSpawnId (hash : String) {attempt : Nat} (h : attempt < 2 ^ 32) :
    attemptOf (critiqueSpawnId hash attempt).toList = attempt := by
  have hcut : rsplitOnceList '#' (critiqueSpawnId hash attempt).toList =
      some ((critiqueUnit hash ++ "/" ++ roleAdversary).toList, (toString attempt).toList) := by
    refine (rsplitOnceList_eq_some_iff _ _ _ _).2 ⟨?_, not_mem_digits (by decide) attempt⟩
    unfold critiqueSpawnId spawnId
    rw [String.toList_append, String.toList_append, List.append_assoc]
    rfl
  have htilde : (toString attempt).toList.takeWhile (· ≠ '~') = (toString attempt).toList := by
    refine List.takeWhile_eq_self_iff.2 fun c hc => ?_
    have hne : c ≠ '~' := fun heq => not_mem_digits (by decide) attempt (heq ▸ hc)
    simpa using hne
  unfold attemptOf
  simp only [hcut, Option.map_some, Option.getD_some, htilde, parseU32_digits h]

theorem critiqueAttempt_eq_some {id hash : String} {attempt : Nat} :
    critiqueAttempt id hash = some attempt ↔ attempt < 2 ^ 32 ∧
    id = critiqueSpawnId hash attempt := by
  unfold critiqueAttempt
  constructor
  · intro h
    simp only [Option.ite_none_right_eq_some, Option.some.injEq] at h
    obtain ⟨hid, rfl⟩ := h
    exact ⟨attemptOf_lt _, hid.symm⟩
  · rintro ⟨hlt, rfl⟩
    rw [attemptOf_critiqueSpawnId hash hlt]
    exact if_pos rfl

theorem findingId_inj {hash : String} {a b k l : Nat}
    (h : findingId hash a k = findingId hash b l) :
    a = b ∧ k = l := by
  have htext : ("sc-" ++ hash ++ "-").toList ++
    ((toString a).toList ++ '-' :: (toString k).toList) =
      ("sc-" ++ hash ++ "-").toList ++ ((toString b).toList ++ '-' :: (toString l).toList) := by
    have := congrArg String.toList h
    simpa [findingId, String.toList_append, List.append_assoc] using this
  have htail := List.append_cancel_left htext
  have hmem : ∀ n : Nat, '-' ∉ (toString n).toList := not_mem_digits (by decide)
  obtain ⟨hattempt, -, hplace⟩ := (List.append_cons_inj_of_notMem (hmem a) (hmem k)).1 htail
  exact ⟨toString_nat_inj (String.toList_injective hattempt),
    toString_nat_inj (String.toList_injective hplace)⟩

/-! ## The passes of a hash -/

section
variable {line : String → Option Json} {e : Event} {p : CritiquePass} {hash : String}

theorem judged_ok {r : Result} {attempt : Nat} {verdict : String} {findings : List CritiqueFinding}
    (h : judged line r hash = .ok (attempt, verdict, findings)) :
    critiqueAttempt r.id hash = some attempt ∧
      findings = critiqueFindings r.output hash attempt := by
  unfold judged at h
  split at h
  · cases h
  · next a ha =>
    split at h
    · cases h
    · split at h
      · cases h
      · dsimp only at h
        split at h
        · cases h
        · cases h
          exact ⟨ha, rfl⟩

/-- What the authority accepts. -/
theorem critiqueOf_ok (h : critiqueOf line e hash = .ok p) :
    ∃ r, Result.decode e.data = some r ∧ r.id = critiqueSpawnId hash p.attempt ∧
      p.position = e.position ∧ p.findings = critiqueFindings r.output hash p.attempt := by
  unfold critiqueOf at h
  split at h
  · cases h
  · next r hr =>
    cases hj : judged line r hash with
    | error refusal =>
      rw [hj] at h
      cases h
    | ok answer =>
      rw [hj] at h
      cases h
      obtain ⟨hattempt, hfindings⟩ := judged_ok hj
      exact ⟨r, hr, (critiqueAttempt_eq_some.1 hattempt).2, rfl, hfindings⟩

/-- The results the authority accepts, of any hash's spawns. -/
def accepted (line : String → Option Json) (events : List Event) (hash : String) :
    List CritiquePass :=
  ((latestResults events).toList.map Prod.snd).filterMap fun e => (critiqueOf line e hash).toOption

variable {events decisions : List Event} {f : CritiqueFinding} {spec root : String}

theorem mem_accepted : p ∈ accepted line events hash ↔
    ∃ e, (latestResults events)[critiqueSpawnId hash p.attempt]? = some e ∧
      critiqueOf line e hash = .ok p := by
  have hok : ∀ {e}, (critiqueOf line e hash).toOption = some p ↔
      critiqueOf line e hash = .ok p := by
    intro e
    cases critiqueOf line e hash with
    | error refusal => exact ⟨fun h => (by cases h), fun h => (by cases h)⟩
    | ok p' => exact ⟨fun h => (by cases h; rfl), fun h => (by cases h; rfl)⟩
  rw [accepted, List.mem_filterMap]
  constructor
  · rintro ⟨e, he, hp⟩
    obtain ⟨⟨id, e'⟩, hmem, rfl⟩ := List.mem_map.1 he
    have hlatest := Std.ExtTreeMap.mem_toList_iff_getElem?_eq_some.1 hmem
    obtain ⟨-, r, hr, rfl⟩ := latestResults_result hlatest
    obtain ⟨r', hr', hid, -⟩ := critiqueOf_ok (hok.1 hp)
    cases hr'.symm.trans (resultIn_eq_some.1 hr).2
    exact ⟨e', hid ▸ hlatest, hok.1 hp⟩
  · rintro ⟨e, hlatest, hp⟩
    exact ⟨e,
      List.mem_map.2 ⟨(_, e), Std.ExtTreeMap.mem_toList_iff_getElem?_eq_some.2 hlatest, rfl⟩,
      hok.2 hp⟩

theorem getElem?_passes {attempt : Nat} :
    (passes line events hash)[attempt]? = some p ↔ p.attempt = attempt ∧
    p ∈ accepted line events hash := by
  have hunique : ∀ q ∈ accepted line events hash, q ∈ accepted line events hash →
      ∀ q' ∈ accepted line events hash, q.attempt = q'.attempt → q = q' := by
    intro q _ hq q' hq' heq
    obtain ⟨e, he, hqe⟩ := mem_accepted.1 hq
    obtain ⟨e', he', hqe'⟩ := mem_accepted.1 hq'
    rw [heq] at he
    cases he.symm.trans he'
    exact Except.ok.inj (hqe.symm.trans hqe')
  unfold passes
  rw [getElem?_collect, latest_map]
  change latest _ (accepted line events hash) = _ ↔ _
  constructor
  · intro h
    obtain ⟨before, q, after, hsplit, hq, -⟩ := (latest_eq_some_iff _ _ _).1 h
    obtain ⟨hattempt, hqp⟩ := Option.ite_none_right_eq_some.1 hq
    cases hqp
    exact ⟨hattempt, by rw [hsplit]; simp⟩
  · rintro ⟨rfl, hp⟩
    refine latest_eq_of_unique hp (if_pos rfl) fun q hq c hc => ?_
    obtain ⟨hattempt, hqc⟩ := Option.ite_none_right_eq_some.1 hc
    cases hqc
    exact hunique q hq hq p hp hattempt

/-- A pass of the union: the latest result of its attempt's spawn, as the authority accepts it. -/
theorem mem_recordedUnion {stream : List Event} : p ∈ (recordedUnion line stream hash).passes ↔
    ∃ e, (latestResults stream)[critiqueSpawnId hash p.attempt]? = some e ∧
      critiqueOf line e hash = .ok p := by
  have hentry : p ∈ (recordedUnion line stream hash).passes ↔
      p ∈ accepted line (stream.filter fun e => e.type_ == typeSpawnResult) hash := by
    unfold recordedUnion
    rw [List.mem_map]
    constructor
    · rintro ⟨⟨attempt, q⟩, hmem, rfl⟩
      exact (getElem?_passes.1 (Std.ExtTreeMap.mem_toList_iff_getElem?_eq_some.1 hmem)).2
    · intro hp
      exact ⟨(p.attempt, p),
        Std.ExtTreeMap.mem_toList_iff_getElem?_eq_some.2 (getElem?_passes.2 ⟨rfl, hp⟩), rfl⟩
  rw [hentry, mem_accepted, latestResults_filter]

theorem pairwise_attempts (line : String → Option Json) (stream : List Event) (hash : String) :
    (recordedUnion line stream hash).passes.Pairwise fun p q => p.attempt ≠ q.attempt := by
  unfold recordedUnion
  refine List.pairwise_map.2 ((Std.ExtTreeMap.distinct_keys_toList).imp_of_mem ?_)
  rintro ⟨a, p⟩ ⟨b, q⟩ hp hq hne heq
  obtain ⟨rfl, -⟩ := getElem?_passes.1 (Std.ExtTreeMap.mem_toList_iff_getElem?_eq_some.1 hp)
  obtain ⟨rfl, -⟩ := getElem?_passes.1 (Std.ExtTreeMap.mem_toList_iff_getElem?_eq_some.1 hq)
  exact hne (compare_eq_iff_eq.2 heq)

/-! ## The ids of a union -/

theorem findings_nodup (output hash : String) (attempt : Nat) :
    ((critiqueFindings output hash attempt).map CritiqueFinding.id).Nodup := by
  unfold critiqueFindings
  refine List.pairwise_iff_getElem.2 fun i j hi hj hij heq => ?_
  simp only [List.getElem_map, List.getElem_mapIdx] at heq
  have := (findingId_inj heq).2
  omega

theorem id_of_mem {output : String} {attempt : Nat} (h : f ∈ critiqueFindings output hash attempt) :
    ∃ k, f.id = findingId hash attempt k := by
  obtain ⟨i, hi, rfl⟩ := List.mem_mapIdx.1 h
  exact ⟨i + 1, rfl⟩

theorem attempt_of_id {stream : List Event} {q : CritiquePass} {g : CritiqueFinding}
    (hp : p ∈ (recordedUnion line stream hash).passes) (hf : f ∈ p.findings)
    (hq : q ∈ (recordedUnion line stream hash).passes) (hg : g ∈ q.findings) (h : f.id = g.id) :
    p.attempt = q.attempt := by
  obtain ⟨e, -, hpe⟩ := mem_recordedUnion.1 hp
  obtain ⟨e', -, hqe⟩ := mem_recordedUnion.1 hq
  obtain ⟨r, -, -, -, hpf⟩ := critiqueOf_ok hpe
  obtain ⟨r', -, -, -, hqf⟩ := critiqueOf_ok hqe
  obtain ⟨k, hk⟩ := id_of_mem (hpf ▸ hf)
  obtain ⟨l, hl⟩ := id_of_mem (hqf ▸ hg)
  exact (findingId_inj (hk.symm.trans (h.trans hl))).1

theorem union_nodup (line : String → Option Json) (stream : List Event) (hash : String) :
    ((recordedUnion line stream hash).findings.map CritiqueFinding.id).Nodup := by
  unfold Critique.findings
  rw [List.map_flatMap]
  refine List.nodup_flatMap.2 ⟨fun p hp => ?_, (pairwise_attempts line stream hash).imp_of_mem ?_⟩
  · obtain ⟨e, -, hpe⟩ := mem_recordedUnion.1 hp
    obtain ⟨r, -, -, -, hfindings⟩ := critiqueOf_ok hpe
    rw [hfindings]
    exact findings_nodup _ _ _
  · intro p q hp hq hne id hid hid'
    obtain ⟨f, hf, rfl⟩ := List.mem_map.1 hid
    obtain ⟨g, hg, heq⟩ := List.mem_map.1 hid'
    exact hne (attempt_of_id hp hf hq hg heq.symm)

/-! ## What stays open -/

theorem mem_openFindings {c : Critique} {id : String} :
    id ∈ openFindings c decisions spec root ↔ ∃ p ∈ c.passes, ∃ f ∈ p.findings,
      f.blocking = true ∧ f.id = id ∧
        ∀ d ∈ decisions, id ∈ resolvedBy spec root d → d.position ≤ p.position := by
  unfold openFindings
  rw [List.mem_flatMap]
  refine exists_congr fun p => and_congr_right fun hp => ?_
  rw [List.mem_map]
  refine exists_congr fun f => ?_
  have hopen : ((decisions.flatMap fun event =>
      (resolvedBy spec root event).map fun id => (event.position, id)).any fun r =>
        decide (r.1 > p.position) && r.2 == f.id) = false ↔
      ∀ d ∈ decisions, f.id ∈ resolvedBy spec root d → d.position ≤ p.position := by
    rw [List.any_eq_false]
    constructor
    · intro h d hd hid
      have := h (d.position, f.id) (List.mem_flatMap.2 ⟨d, hd, List.mem_map.2 ⟨f.id, hid, rfl⟩⟩)
      simpa using this
    · intro h r hr
      obtain ⟨d, hd, hr⟩ := List.mem_flatMap.1 hr
      obtain ⟨id', hid, rfl⟩ := List.mem_map.1 hr
      simp only [Bool.and_eq_true, decide_eq_true_eq, beq_iff_eq, not_and]
      intro hlater heq
      exact absurd (h d hd (heq ▸ hid)) (by omega)
  rw [List.mem_filter, Bool.and_eq_true, Bool.not_eq_true', hopen]
  constructor
  · rintro ⟨⟨hf, hblocking, hd⟩, rfl⟩
    exact ⟨hf, hblocking, rfl, hd⟩
  · rintro ⟨hf, hblocking, rfl, hd⟩
    exact ⟨⟨hf, hblocking, hd⟩, rfl⟩

/-- A blocking finding of the union is open but where a decision that names it and governs the spec
was recorded after the result it is read from. -/
theorem not_open_iff {stream : List Event} (hp : p ∈ (recordedUnion line stream hash).passes)
    (hf : f ∈ p.findings) (hblocking : f.blocking = true) :
    f.id ∉ openFindings (recordedUnion line stream hash) decisions spec root ↔
      ∃ d ∈ decisions, f.id ∈ resolvedBy spec root d ∧ p.position < d.position := by
  rw [mem_openFindings]
  constructor
  · intro h
    by_contra hnone
    refine h ⟨p, hp, f, hf, hblocking, rfl, fun d hd hid => ?_⟩
    by_contra hlater
    exact hnone ⟨d, hd, hid, by omega⟩
  · rintro ⟨d, hd, hid, hlater⟩ ⟨q, hq, g, hg, -, heq, h⟩
    have hattempt := attempt_of_id hq hg hp hf heq
    obtain ⟨e, he, hqe⟩ := mem_recordedUnion.1 hq
    obtain ⟨e', he', hpe⟩ := mem_recordedUnion.1 hp
    rw [hattempt] at he
    cases he.symm.trans he'
    cases Except.ok.inj (hqe.symm.trans hpe)
    have := h d hd hid
    omega

/-- Nothing recorded later closes a finding, but a result of its own attempt. -/
theorem open_later {stream later : List Event} (hp : p ∈ (recordedUnion line stream hash).passes)
    (hlater : ∀ e ∈ later, ∀ r, resultIn e = some r → r.id ≠ critiqueSpawnId hash p.attempt) :
    p ∈ (recordedUnion line (stream ++ later) hash).passes ∧ ∀ f ∈ p.findings,
      f.id ∈ openFindings (recordedUnion line stream hash) decisions spec root →
        f.id ∈ openFindings (recordedUnion line (stream ++ later) hash) decisions spec root := by
  have hp' : p ∈ (recordedUnion line (stream ++ later) hash).passes := by
    obtain ⟨e, he, hpe⟩ := mem_recordedUnion.1 hp
    exact mem_recordedUnion.2 ⟨e, by rw [latestResults_append hlater, he], hpe⟩
  refine ⟨hp', fun f hf hopen => ?_⟩
  obtain ⟨q, hq, g, hg, hblocking, heq, h⟩ := mem_openFindings.1 hopen
  have hattempt := attempt_of_id hq hg hp hf heq
  obtain ⟨e, he, hqe⟩ := mem_recordedUnion.1 hq
  refine mem_openFindings.2 ⟨q, ?_, g, hg, hblocking, heq, h⟩
  refine mem_recordedUnion.2 ⟨e, ?_, hqe⟩
  rw [latestResults_append (by rw [hattempt]; exact hlater), he]

end

/-! ## The attempts of a hash -/

/-- The attempt of `hash` an event requests. -/
def attemptIn (hash : String) (e : Event) : Option Nat :=
  (requestOf e).bind fun r => critiqueAttempt r.id hash

def attemptsIn (hash : String) (stream : List Event) : List Nat := stream.filterMap (attemptIn hash)

/-- The critique's store, and the attempt each call of `rigger critique` on the hash was told to run
at and has not parked. -/
structure Critics (τ : Type) where
  stream : List Event
  asked : τ → Option Nat

def Critics.new {τ : Type} : Critics τ := ⟨[], fun _ => none⟩

/-- `other` is an event that requests no attempt of the hash. -/
inductive Act (τ : Type) where
  | ask (t : τ)
  | park (t : τ) (e : Event)
  | other (e : Event)

section
variable {τ : Type} [DecidableEq τ] (hash : String)

def step (s : Critics τ) : Act τ → Critics τ
  | .ask t => { s with asked := Function.update s.asked t (nextCritiqueAttempt s.stream hash) }
  | .park t e =>
    match s.asked t with
    | some n =>
      if (requestOf e).map Request.id = some (critiqueSpawnId hash n) then
        ⟨s.stream ++ [e], Function.update s.asked t none⟩
      else s
    | none => s
  | .other e => if attemptIn hash e = none then { s with stream := s.stream ++ [e] } else s

end

section
variable {hash : String}

theorem critiqueSpawnId_inj {a b : Nat} (h : critiqueSpawnId hash a = critiqueSpawnId hash b) :
    a = b := by
  have htext := congrArg String.toList h
  unfold critiqueSpawnId spawnId at htext
  rw [String.toList_append, String.toList_append (t := toString b)] at htext
  exact toString_nat_inj (String.toList_injective (List.append_cancel_left htext))

theorem countP_filterMap (f : Event → Option Request) (g : Request → Option Nat)
    (events : List Event) : (events.filterMap f).countP (fun r => (g r).isSome) =
      (events.filterMap fun e => (f e).bind g).length := by
  induction events with
  | nil => rfl
  | cons e events ih =>
    cases he : f e with
    | none =>
      rw [List.filterMap_cons_none he, ih, List.filterMap_cons_none (by rw [he]; rfl)]
    | some r =>
      rw [List.filterMap_cons_some he]
      cases hg : g r with
      | none =>
        rw [List.countP_cons_of_neg (by simp [hg]), ih,
          List.filterMap_cons_none (by rw [he, Option.bind_some, hg])]
      | some n =>
        rw [List.countP_cons_of_pos (by simp [hg]), ih,
          List.filterMap_cons_some (by rw [he, Option.bind_some, hg]), List.length_cons]

theorem nextCritiqueAttempt_eq_some {stream : List Event} {n : Nat}
    (h : nextCritiqueAttempt stream hash = some n) :
    n = (attemptsIn hash stream).length % 2 ^ 32 := by
  have hfilter : (stream.filter fun e => e.type_ == typeSpawnRequested).filterMap requestOf =
      stream.filterMap requestOf := by
    rw [List.filterMap_filter]
    refine List.filterMap_congr fun e _ => ?_
    by_cases htype : e.type_ = typeSpawnRequested
    · exact if_pos (beq_iff_eq.2 htype)
    · rw [if_neg (fun h => htype (beq_iff_eq.1 h)), requestOf, if_neg htype]
  unfold nextCritiqueAttempt critiqueRequests requests at h
  split at h
  · cases h
  · rw [hfilter, Option.map_some, countP_filterMap] at h
    exact (Option.some.inj h).symm

/-- Every attempt told and every attempt recorded is at most what the store counts. -/
structure Critics.Counted {τ : Type} (hash : String) (s : Critics τ) : Prop where
  asked : ∀ t n, s.asked t = some n → n ≤ (attemptsIn hash s.stream).length
  recorded : ∀ a ∈ attemptsIn hash s.stream, a < (attemptsIn hash s.stream).length

theorem attemptsIn_concat (stream : List Event) (e : Event) :
    attemptsIn hash (stream ++ [e]) = attemptsIn hash stream ++ (attemptIn hash e).toList := by
  unfold attemptsIn
  rw [List.filterMap_append]
  cases he : attemptIn hash e with
  | none => rw [List.filterMap_cons_none he]; rfl
  | some a => rw [List.filterMap_cons_some he]; rfl

theorem Critics.Counted.append {τ : Type} {s : Critics τ} (h : s.Counted hash) {e : Event}
    {asked : τ → Option Nat} (hasked : ∀ t n, asked t = some n → s.asked t = some n)
    (he : ∀ a, attemptIn hash e = some a → a ≤ (attemptsIn hash s.stream).length) :
    Critics.Counted hash ⟨s.stream ++ [e], asked⟩ := by
  have hlength : (attemptsIn hash (s.stream ++ [e])).length =
      (attemptsIn hash s.stream).length + (attemptIn hash e).toList.length := by
    rw [attemptsIn_concat, List.length_append]
  refine ⟨fun t n hn => ?_, fun a ha => ?_⟩
  · show n ≤ (attemptsIn hash (s.stream ++ [e])).length
    have := h.asked t n (hasked t n hn)
    omega
  · show a < (attemptsIn hash (s.stream ++ [e])).length
    change a ∈ attemptsIn hash (s.stream ++ [e]) at ha
    rw [attemptsIn_concat] at ha
    rcases List.mem_append.1 ha with ha | ha
    · have := h.recorded a ha
      omega
    · have hattempt := Option.mem_toList.1 ha
      have := he a hattempt
      rw [hattempt] at hlength
      simp only [Option.toList_some, List.length_singleton] at hlength
      omega

theorem Critics.Counted.step {τ : Type} [DecidableEq τ] {s : Critics τ} (h : s.Counted hash)
    (act : Act τ) : (step hash s act).Counted hash := by
  cases act with
  | ask t =>
    refine ⟨fun t' n hn => ?_, h.recorded⟩
    change Function.update s.asked t _ t' = some n at hn
    by_cases ht : t' = t
    · rw [ht, Function.update_self] at hn
      rw [nextCritiqueAttempt_eq_some hn]
      exact Nat.mod_le _ _
    · rw [Function.update_of_ne ht] at hn
      exact h.asked t' n hn
  | park t e =>
    simp only [Review.step]
    split
    · next n hasked =>
      split
      · next hid =>
        refine h.append (fun t' m hm => ?_) fun a ha => ?_
        · by_cases ht : t' = t
          · rw [ht, Function.update_self] at hm
            cases hm
          · rwa [Function.update_of_ne ht] at hm
        · obtain ⟨r, hr, hid⟩ := Option.map_eq_some_iff.1 hid
          rw [attemptIn, hr, Option.bind_some, hid] at ha
          rw [← critiqueSpawnId_inj (critiqueAttempt_eq_some.1 ha).2]
          exact h.asked t n hasked
      · exact h
    · exact h
  | other e =>
    simp only [Review.step]
    split
    · next hnone =>
      refine h.append (fun _ _ hn => hn) fun a ha => ?_
      rw [hnone] at ha
      cases ha
    · exact h

/-- In any run of critiques over the hash's store, an attempt told is greater than every attempt
requested by then. -/
theorem next_attempt_greater {τ : Type} [DecidableEq τ] (acts : List (Act τ)) {n : Nat}
    (hfew : (attemptsIn hash (run (step hash) Critics.new acts).stream).length < 2 ^ 32)
    (h : nextCritiqueAttempt (run (step hash) Critics.new acts).stream hash = some n) :
    ∀ a ∈ attemptsIn hash (run (step hash) Critics.new acts).stream, a < n := by
  have hcounted : (run (step hash) (Critics.new : Critics τ) acts).Counted hash :=
    run_invariant (I := Critics.Counted hash) (fun _ act h => h.step act)
      ⟨fun _ _ hn => (by cases hn), fun _ ha => (by cases ha)⟩ acts
  rw [nextCritiqueAttempt_eq_some h, Nat.mod_eq_of_lt hfew]
  exact hcounted.recorded

end

/-! ## A critique's findings -/

/-- A blocking finding is open but where a decision resolves it after its result; the findings of
one critique have distinct ids; nothing recorded of another attempt closes one or takes it away; and
an attempt told is greater than those requested by then. -/
theorem findings_stay_open (line : String → Option Json) (hash : String) :
    (∀ stream decisions spec root,
      (∀ attempt e p, (latestResults stream)[critiqueSpawnId hash attempt]? = some e →
        critiqueOf line e hash = .ok p → p ∈ (recordedUnion line stream hash).passes) ∧
      (∀ p ∈ (recordedUnion line stream hash).passes,
        ∃ e, (latestResults stream)[critiqueSpawnId hash p.attempt]? = some e ∧
          critiqueOf line e hash = .ok p ∧
          ∀ f ∈ p.findings, f.blocking = true →
            (f.id ∉ openFindings (recordedUnion line stream hash) decisions spec root ↔
              ∃ d ∈ decisions, f.id ∈ resolvedBy spec root d ∧ e.position < d.position)) ∧
      ((recordedUnion line stream hash).findings.map CritiqueFinding.id).Nodup ∧
      (∀ later, ∀ p ∈ (recordedUnion line stream hash).passes,
        (∀ e ∈ later, ∀ r, resultIn e = some r → r.id ≠ critiqueSpawnId hash p.attempt) →
          p ∈ (recordedUnion line (stream ++ later) hash).passes ∧ ∀ f ∈ p.findings,
            f.id ∈ openFindings (recordedUnion line stream hash) decisions spec root →
              f.id ∈ openFindings (recordedUnion line (stream ++ later) hash)
              decisions spec root)) ∧
    ∀ (τ : Type) [DecidableEq τ] (acts : List (Act τ)) (n : Nat),
      (attemptsIn hash (run (step hash) Critics.new acts).stream).length < 2 ^ 32 →
        nextCritiqueAttempt (run (step hash) Critics.new acts).stream hash = some n →
          ∀ a ∈ attemptsIn hash (run (step hash) Critics.new acts).stream, a < n := by
  refine ⟨fun stream decisions spec root => ⟨fun attempt e p he hp => ?_, fun p hp => ?_,
    union_nodup line stream hash, fun later p hp hlater => open_later hp hlater⟩,
    fun τ _ acts n hfew h => next_attempt_greater acts hfew h⟩
  · obtain ⟨-, r, hr, hid⟩ := latestResults_result he
    obtain ⟨r', hr', hid', -⟩ := critiqueOf_ok hp
    cases hr'.symm.trans (resultIn_eq_some.1 hr).2
    rw [critiqueSpawnId_inj (hid.symm.trans hid')] at he
    exact mem_recordedUnion.2 ⟨e, he, hp⟩
  · obtain ⟨e, he, hpe⟩ := mem_recordedUnion.1 hp
    obtain ⟨-, -, -, hposition, -⟩ := critiqueOf_ok hpe
    refine ⟨e, he, hpe, fun f hf hblocking => ?_⟩
    rw [← hposition]
    exact not_open_iff hp hf hblocking

def requestEvent (id : String) : Event :=
  Event.new ("e-" ++ id, 0) typeSpawnRequested
    (.json
    (.obj [("id", .str id), ("unit", .str "u"), ("stage", .str "critique"), ("prompt", .str "")]))

/-- Two calls that are told their attempt before either parks it. -/
def concurrentCalls : List (Act Bool) :=
  [.ask false, .ask true, .park false (requestEvent "critique-h/adversary#0"),
    .park true (requestEvent "critique-h/adversary#0")]

/-- Both calls are told attempt 0, and both park it. -/
theorem attempt_minted_twice :
    (run (step "h") Critics.new (concurrentCalls.take 2)).asked false = some 0 ∧
      (run (step "h") Critics.new (concurrentCalls.take 2)).asked true = some 0 ∧
      attemptsIn "h" (run (step "h") Critics.new concurrentCalls).stream = [0, 0] := by
  decide +kernel

end Rigger.Review
