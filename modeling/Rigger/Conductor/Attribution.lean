import Rigger.Conductor.Branches
import Rigger.Conductor.Remediate
import Rigger.Domain.Review
import Rigger.Driver.Liveness
import Rigger.Lib.Grouped

/-!
# Whose record a key names (`rigger-domain/src/spawn.rs`, `rigger-conductor/src/conductor.rs`)

A spawn id is `{unit}/{role}#{attempt}` and a gate run's key `{unit}/gate:{gate}#{attempt}`, each
with `~retry{n}` after it from the first rerun on.  Their readers cut at the last slash, the first
`/gate:`, the last `#` and the last `~retry`, and nothing keeps a unit's id from holding one of
them: `attributed_iff` says over which logs every record of every stage is read back as its own.
-/

namespace Rigger.Conductor.Attribution

open Lib Proposed

/-! ## Keys -/

inductive ReviewKind where
  | lens
  | adversary
  | adjudicator
deriving DecidableEq

def lensRole (agent : String) : String := "lens:" ++ agent

/-- `review_step_role`: from the second step of a kind on, its token carries the step. -/
def reviewStepRole (kind : ReviewKind) (agent : String) (k : Nat) : String :=
  let step := fun token : String => if 2 ≤ k then token ++ "@" ++ toString k else token
  match kind with
  | .lens => step (lensRole agent)
  | .adversary => step "adversary"
  | .adjudicator => "adjudicator"

inductive Role where
  | implementer
  | sdetAuthor
  | replan
  | review (kind : ReviewKind) (agent : String) (k : Nat)

def Role.token : Role → String
  | .implementer => roleImplementer
  | .sdetAuthor => "sdet-author"
  | .replan => "replan"
  | .review kind agent k => reviewStepRole kind agent k

inductive GateKey where
  | verdict
  | skip
  | postMergeVerdict

def GateKey.marker : GateKey → String
  | .verdict => "gate"
  | .skip => "gate-skip"
  | .postMergeVerdict => "postmerge-gate"

def gateKey (kind : GateKey) (unit : String) (attempt retry : Nat) (gate : String) : String :=
  withRetry (unit ++ "/" ++ kind.marker ++ ":" ++ gate ++ "#" ++ toString attempt) retry

def deferredGateVerdictKey (gate : String) : String := "deferred/gate:" ++ gate

/-- `spawn::unit_of`. -/
def unitOf (id : String) : Option String := (rsplitOnce '/' id).map Prod.fst

/-- `spawn::retry_of`. -/
def retryOf (id : String) : Nat :=
  ((rsplitAround "~retry".toList id.toList).bind fun p => parseU32 p.2).getD 0

/-! ## Readers of the log -/

/-- `unit_gate_runs`: the verdicts of a unit's own gate runs, with their keys. -/
def unitGateRuns (events : List Event) (unit : String) : List (String × GateVerdict) :=
  (events.filterMap gateVerdictOf).filter fun x => unitOfGateKey x.1 == some unit

/-- The order of `(attempt, retry)`. -/
def runCmp : Nat × Nat → Nat × Nat → Ordering :=
    compareLex (compareOn Prod.fst) (compareOn Prod.snd)

instance : Std.TransCmp runCmp :=
  inferInstanceAs (Std.TransCmp (compareLex (compareOn Prod.fst) (compareOn Prod.snd)))

theorem runCmp_eq (a b : Nat × Nat) : runCmp a b = (compare a.1 b.1).then (compare a.2 b.2) := rfl

instance : Std.LawfulEqCmp runCmp where
  eq_of_compare {a b} h := by
    rw [runCmp_eq, Ordering.then_eq_eq, Nat.compare_eq_eq, Nat.compare_eq_eq] at h
    exact Prod.ext h.1 h.2

def byAttempt (events : List Event) (unit : String) :
    Std.ExtTreeMap (Nat × Nat) (Std.ExtTreeMap String Bool) runCmp :=
  (unitGateRuns events unit).foldl (fun m x =>
    (gateKeyAttempt x.1).elim m fun attempt =>
      fileUnder m ((attempt, retryOf x.1), x.1, x.2.pass)) ∅

def recordedGateOutcome (events : List Event) (unit : String) : Option Bool :=
  (greatest (byAttempt events unit)).map fun latest => latest.toList.all Prod.snd

def metaInputDigest : String := "input_digest"

/-- What a green verdict with a digest seeds: the digest, its position and its unit. -/
def greenOf (e : Event) : Option (String × Nat × String) :=
  if e.type_ = typeGateVerdict then
    e.meta_[metaInputDigest]?.bind fun digest =>
      (GateVerdict.decode e.data).bind fun v =>
        if v.pass then
          some (digest, e.position, (e.meta_[metaReplayKey]?.bind unitOfGateKey).getD "")
        else none
  else none

/-- `green_digests`: the first green of a digest. -/
def greenDigest (events : List Event) (digest : String) : Option (Nat × String) :=
  events.findSome? fun e => (greenOf e).bind fun g => if g.1 = digest then some g.2 else none

/-! ## What is minted for a unit -/

/-- A role the conductor spawns where `lenses` are the workflow's. -/
def Role.Spawned (lenses : List String) : Role → Prop
  | .review .lens agent _ => agent ∈ lenses
  | _ => True

inductive SpawnOf (lenses : List String) (unit : String) : String → Prop where
  | spawn {role : Role} (hrole : role.Spawned lenses) {attempt retry : Nat}
      (hattempt : attempt < 2 ^ 32) (hretry : retry < 2 ^ 32) :
      SpawnOf lenses unit (spawnRetryId unit role.token attempt retry)

inductive GateRunOf (unit : String) : String → Prop where
  | run (gate : String) {attempt retry : Nat} (hattempt : attempt < 2 ^ 32)
      (hretry : retry < 2 ^ 32) : GateRunOf unit (gateKey .verdict unit attempt retry gate)

def Deferred (key : String) : Prop := ∃ gate, key = deferredGateVerdictKey gate

/-- Every key minted for the unit is read back as its own. -/
structure ReadBack (lenses : List String) (unit : String) : Prop where
  spawn : ∀ role : Role, role.Spawned lenses → ∀ attempt < 2 ^ 32, ∀ retry < 2 ^ 32,
    unitOf (spawnRetryId unit role.token attempt retry) = some unit ∧
      attemptOf (spawnRetryId unit role.token attempt retry).toList = attempt ∧
      retryOf (spawnRetryId unit role.token attempt retry) = retry
  gate : ∀ gate, ∀ attempt < 2 ^ 32, ∀ retry < 2 ^ 32,
    unitOfGateKey (gateKey .verdict unit attempt retry gate) = some unit ∧
      gateKeyAttempt (gateKey .verdict unit attempt retry gate) = some attempt ∧
      retryOf (gateKey .verdict unit attempt retry gate) = retry

/-- No key minted for the unit is a deferred gate's, and none of theirs is attributed to it. -/
structure Undeferred (lenses : List String) (unit : String) : Prop where
  key : ∀ key, SpawnOf lenses unit key ∨ GateRunOf unit key → ¬Deferred key
  attributed : ∀ key, Deferred key → unitOfGateKey key ≠ some unit

/-- The key of an event is not the unit's: another's gate run, or a deferred gate's. -/
def Foreign (other : String) (e : Event) : Prop :=
  ∃ key, e.meta_[metaReplayKey]? = some key ∧ (GateRunOf other key ∨ Deferred key)

/-- Nothing of `other` is taken for the unit's. -/
structure Unmixed (lenses : List String) (unit other : String) : Prop where
  keys : ∀ key key', SpawnOf lenses unit key ∨ GateRunOf unit key →
    SpawnOf lenses other key' ∨ GateRunOf other key' → key ≠ key'
  highWater : ∀ before after key, GateRunOf other key ∨ Deferred key →
    gateVerdictHighWater (before ++ key :: after) unit = gateVerdictHighWater (before ++ after) unit
  outcome : ∀ before after e, Foreign other e →
    recordedGateOutcome (before ++ e :: after) unit = recordedGateOutcome (before ++ after) unit
  green : ∀ events digest position, (∀ e ∈ events, Foreign other e) →
    greenDigest events digest ≠ some (position, unit)
  spawns : ∀ before after e id id', SpawnOf lenses unit id → SpawnOf lenses other id' →
    ((∀ req, Spawn.requestOf e = some req → req.id = id') →
      Liveness.requestFor id (before ++ e :: after) = Liveness.requestFor id (before ++ after)) ∧
    ((∀ res, Spawn.resultIn e = some res → res.id = id') →
      Spawn.latestFor id (before ++ e :: after) = Spawn.latestFor id (before ++ after))

/-- In every run over the log, every record of every stage is its own. -/
def Attributed (c : Planning) (lenses : List String) (events : List Event) : Prop :=
  ∀ acts, (run c.step Proposed.World.new acts).log <+: events → ∀ u, c.Flies acts u →
    ReadBack lenses u ∧ Undeferred lenses u ∧ ∀ v, c.Flies acts v → u ≠ v → Unmixed lenses u v

/-! ## The tail of a key -/

/-- What `{base}#{attempt}` ends in once a rerun is marked. -/
def retryMark (retry : Nat) : String := if retry = 0 then "" else "~retry" ++ toString retry

theorem withRetry_eq (base : String) (retry : Nat) : withRetry base retry = base ++
    retryMark retry := by
  unfold withRetry retryMark
  split
  · rw [String.append_empty]
  · rw [String.append_assoc]

theorem not_mem_retryMark {c : Char} (hc : c.isDigit = false) (hmark : c ∉ "~retry".toList)
    (retry : Nat) : c ∉ (retryMark retry).toList := by
  unfold retryMark
  split
  · simp
  · rw [String.toList_append, List.mem_append]
    rintro (h | h)
    · exact hmark h
    · exact not_mem_digits hc retry h

theorem takeWhile_tail (attempt retry : Nat) :
    ((toString attempt).toList ++ (retryMark retry).toList).takeWhile (· ≠ '~') =
      (toString attempt).toList := by
  have hall : ∀ c ∈ (toString attempt).toList, decide (c ≠ '~') = true := fun c hc => by
    have hne : c ≠ '~' := fun heq => not_mem_digits (by decide) attempt (heq ▸ hc)
    simpa using hne
  rw [List.takeWhile_append_of_pos hall]
  unfold retryMark
  split
  · simp
  · simp

variable {attempt retry : Nat}

theorem attemptOf_tail (base : List Char) (h : attempt < 2 ^ 32) (retry : Nat) :
    attemptOf (base ++ '#' :: ((toString attempt).toList ++ (retryMark retry).toList)) =
      attempt := by
  have hcut := (rsplitOnceList_eq_some_iff '#' _ base
    ((toString attempt).toList ++ (retryMark retry).toList)).2 ⟨rfl, fun hmem => by
      rcases List.mem_append.1 hmem with hmem | hmem
      · exact not_mem_digits (by decide) attempt hmem
      · exact not_mem_retryMark (by decide) (by simp) retry hmem⟩
  unfold attemptOf
  simp only [hcut, Option.map_some, Option.getD_some, takeWhile_tail, parseU32_digits h]

theorem parseU32_of_mem {text : List Char} (h : '#' ∈ text) : parseU32 text = none := by
  unfold parseU32
  refine if_neg fun hdigits => ?_
  have hmem : '#' ∈ (if text.head? = some '+' then text.tail else text) := by
    split
    · next hplus =>
      cases text with
      | nil => cases h
      | cons c text =>
        cases hplus
        exact (List.mem_cons.1 h).resolve_left (by decide)
    · exact h
  have hdigit := List.all_eq_true.1 hdigits.2.1 _ hmem
  exact absurd hdigit (by decide)

def mark : List Char := ['y', 'r', 't', 'e', 'r', '~']

theorem reverse_mark : "~retry".toList.reverse = mark := by simp [mark]

theorem digits_of_mem {c : Char} {n : Nat} (h : c ∈ (toString n).toList.reverse) :
    c.isDigit = true :=
  List.all_eq_true.1 (all_isDigit_toString n) c (List.mem_reverse.1 h)

/-- Without a mark after the attempt, the last one has a `#` after it and reads as no rerun. -/
theorem retryOf_unmarked (base : String) (attempt : Nat) :
    retryOf (base ++ "#" ++ toString attempt) = 0 := by
  have hreverse : (base ++ "#" ++ toString attempt).toList.reverse =
      (toString attempt).toList.reverse ++ '#' :: base.toList.reverse := by simp
  unfold retryOf rsplitAround
  rw [reverse_mark, hreverse]
  cases hcut : splitAround mark ((toString attempt).toList.reverse ++
    '#' :: base.toList.reverse) with
  | none => rfl
  | some p =>
    obtain ⟨a, b⟩ := p
    have heq := (splitAround_eq_some hcut).1
    have hmem : '#' ∈ a := by
      rw [List.append_assoc] at heq
      rcases List.append_eq_append_iff.1 heq with ⟨m, rfl, hm⟩ | ⟨m, hdigits, hm⟩
      · cases m with
        | nil => cases hm
        | cons x m =>
          rw [List.cons_append, List.cons.injEq] at hm
          rw [hm.1]
          exact List.mem_append_cons_self
      · cases m with
        | nil => cases hm
        | cons x m =>
          have hx : 'y' = x := (List.cons.injEq .. ▸ hm).1
          have hmem : x ∈ (toString attempt).toList.reverse := by
            rw [hdigits]
            exact List.mem_append_cons_self
          rw [← hx] at hmem
          exact absurd (digits_of_mem hmem) (by decide)
    rw [Option.map_some, Option.bind_some, parseU32_of_mem (List.mem_reverse.2 hmem),
      Option.getD_none]

theorem retryOf_marked (base : String) (h : retry < 2 ^ 32) :
    retryOf (base ++ "~retry" ++ toString retry) = retry := by
  have hreverse : (base ++ "~retry" ++ toString retry).toList.reverse =
      (toString retry).toList.reverse ++
      'y' :: (['r', 't', 'e', 'r', '~'] ++ base.toList.reverse) := by
    have hmark : "~retry".toList.reverse = 'y' :: ['r', 't', 'e', 'r', '~'] := by simp
    rw [String.toList_append, String.toList_append, List.reverse_append, List.reverse_append, hmark]
    rfl
  have hnone : ¬ 'y' :: ['r', 't', 'e', 'r', '~'] <:+: (toString retry).toList.reverse := fun hin =>
    absurd (digits_of_mem (hin.subset List.mem_cons_self)) (by decide)
  unfold retryOf rsplitAround
  rw [reverse_mark, hreverse, mark, splitAround_append (by decide) hnone]
  simp only [Option.map_some, Option.bind_some, List.reverse_reverse, parseU32_digits h,
    Option.getD_some]

theorem retryOf_tail (base : String) (attempt : Nat) (h : retry < 2 ^ 32) :
    retryOf (base ++ "#" ++ toString attempt ++ retryMark retry) = retry := by
  unfold retryMark
  split
  · next hretry =>
    rw [String.append_empty, retryOf_unmarked, hretry]
  · rw [← String.append_assoc]
    exact retryOf_marked _ h

/-! ## Spawn ids -/

def Role.Plain (role : Role) : Prop := '/' ∉ role.token.toList

theorem spawnRetryId_eq (unit role : String) (attempt retry : Nat) :
    spawnRetryId unit role attempt retry =
      unit ++ "/" ++ role ++ "#" ++ toString attempt ++ retryMark retry := withRetry_eq _ _

theorem unitOf_eq_iff {id unit : String} :
    unitOf id = some unit ↔ ∃ rest, id = unit ++ "/" ++ rest ∧ '/' ∉ rest.toList := by
  have hslash : String.singleton '/' = "/" := rfl
  unfold unitOf
  simp only [Option.map_eq_some_iff, Prod.exists, rsplitOnce_eq_some_iff, hslash]
  constructor
  · rintro ⟨a, b, h, rfl⟩
    exact ⟨b, h⟩
  · rintro ⟨rest, h⟩
    exact ⟨unit, rest, h, rfl⟩

theorem tail_not_slash (attempt retry : Nat) :
    '/' ∉ ("#" ++ toString attempt ++ retryMark retry).toList := by
  rw [String.toList_append, String.toList_append, List.mem_append, List.mem_append]
  rintro ((h | h) | h)
  · exact absurd h (by simp)
  · exact not_mem_digits (by decide) attempt h
  · exact not_mem_retryMark (by decide) (by simp) retry h

/-- The unit of an id is read back just where its role holds no slash. -/
theorem unitOf_spawnRetryId (unit role : String) (attempt retry : Nat) :
    unitOf (spawnRetryId unit role attempt retry) = some unit ↔ '/' ∉ role.toList := by
  have hid : spawnRetryId unit role attempt retry =
      unit ++ "/" ++ (role ++ ("#" ++ toString attempt ++ retryMark retry)) := by
    rw [spawnRetryId_eq]
    simp only [String.append_assoc]
  rw [unitOf_eq_iff, hid]
  constructor
  · rintro ⟨rest, hrest, hnot⟩ hslash
    have hsame := String.append_right_inj .. |>.1 hrest
    rw [← hsame, String.toList_append] at hnot
    exact hnot (List.mem_append_left _ hslash)
  · intro hrole
    refine ⟨_, rfl, ?_⟩
    rw [String.toList_append, List.mem_append]
    rintro (h | h)
    · exact hrole h
    · exact tail_not_slash attempt retry h

theorem Role.plain_iff (role : Role) :
    role.Plain ↔ ∀ agent k, role = .review .lens agent k → '/' ∉ agent.toList := by
  have hstep : ∀ (k : Nat) (token : String), '/' ∉ token.toList →
      '/' ∉ (if 2 ≤ k then token ++ "@" ++ toString k else token).toList := by
    intro k token htoken
    split
    · rw [String.toList_append, String.toList_append, List.mem_append, List.mem_append]
      rintro ((h | h) | h)
      · exact htoken h
      · exact absurd h (by simp)
      · exact not_mem_digits (by decide) k h
    · exact htoken
  constructor
  · rintro hplain agent k rfl hagent
    refine hplain ?_
    show '/' ∈ (if 2 ≤ k then lensRole agent ++ "@" ++ toString k else lensRole agent).toList
    have hlens : '/' ∈ (lensRole agent).toList := by
      rw [lensRole, String.toList_append]
      exact List.mem_append_right _ hagent
    split
    · rw [String.toList_append, String.toList_append]
      exact List.mem_append_left _ (List.mem_append_left _ hlens)
    · exact hlens
  · intro hagents
    match role with
    | .implementer =>
      show '/' ∉ roleImplementer.toList
      simp [roleImplementer]
    | .sdetAuthor =>
      show '/' ∉ "sdet-author".toList
      simp
    | .replan =>
      show '/' ∉ "replan".toList
      simp
    | .review .adjudicator _ _ =>
      show '/' ∉ "adjudicator".toList
      simp
    | .review .adversary _ k => exact hstep k "adversary" (by simp)
    | .review .lens agent k =>
      refine hstep k (lensRole agent) ?_
      rw [lensRole, String.toList_append, List.mem_append]
      rintro (h | h)
      · exact absurd h (by simp)
      · exact hagents agent k rfl h

theorem Role.token_head (role : Role) : ∃ c l, role.token.toList = c :: l ∧ c ≠ 'g' := by
  have hstep : ∀ (k : Nat) (token : String) (c : Char) (l : List Char), token.toList = c :: l →
      c ≠ 'g' → ∃ c l, (if 2 ≤ k then token ++ "@" ++ toString k else token).toList = c :: l ∧
        c ≠ 'g' := by
    intro k token c l htoken hc
    split
    · exact ⟨c, l ++ "@".toList ++ (toString k).toList, by simp [htoken], hc⟩
    · exact ⟨c, l, htoken, hc⟩
  have hword : ∀ word : String, word.toList.head?.any (· ≠ 'g') = true →
      ∃ c l, word.toList = c :: l ∧ c ≠ 'g' := by
    intro word h
    cases hl : word.toList with
    | nil =>
      rw [hl] at h
      cases h
    | cons c l =>
      rw [hl] at h
      exact ⟨c, l, rfl, by simpa using h⟩
  match role with
  | .implementer => exact hword roleImplementer (by simp [roleImplementer])
  | .sdetAuthor => exact hword "sdet-author" (by simp)
  | .replan => exact hword "replan" (by simp)
  | .review .adjudicator _ _ => exact hword "adjudicator" (by simp)
  | .review .adversary _ k =>
    obtain ⟨c, l, hl, hc⟩ := hword "adversary" (by simp)
    exact hstep k "adversary" c l hl hc
  | .review .lens agent k =>
    obtain ⟨c, l, hl, hc⟩ := hword "lens:" (by simp)
    exact hstep k (lensRole agent) c (l ++ agent.toList) (by simp [lensRole, hl]) hc

/-! ## Gate keys -/

/-- A name that stands before `/gate:` in a key and holds none itself. -/
def Ungated (unit : String) : Prop := ¬gateInfix.toList <:+: unit.toList

theorem gateKey_eq (unit : String) (attempt retry : Nat) (gate : String) :
    gateKey .verdict unit attempt retry gate =
      unit ++ gateInfix ++ (gate ++ "#" ++ toString attempt ++ retryMark retry) := by
  have hmarker : gateInfix = "/" ++ GateKey.verdict.marker ++ ":" := rfl
  rw [gateKey, withRetry_eq, hmarker]
  simp only [String.append_assoc]

theorem splitAround_gate {unit : String} (h : Ungated unit) (rest : String) :
    splitAround gateInfix.toList (unit ++ gateInfix ++ rest).toList =
      some (unit.toList, rest.toList) := by
  have hgate : gateInfix.toList = '/' :: ['g', 'a', 't', 'e', ':'] := by simp [gateInfix]
  unfold Ungated at h
  rw [String.toList_append, String.toList_append, hgate, List.append_assoc, List.cons_append]
  rw [hgate] at h
  exact splitAround_append (by decide) h

/-- The unit of such a key is read back just where it holds no `/gate:`. -/
theorem unitOfGateKey_eq_iff (unit rest : String) :
    unitOfGateKey (unit ++ gateInfix ++ rest) = some unit ↔ Ungated unit := by
  constructor
  · intro h
    obtain ⟨⟨a, b⟩, hcut, ha⟩ := Option.map_eq_some_iff.1 h
    have hunit : unit.toList = a := by rw [← ha, String.toList_ofList]
    unfold Ungated
    rw [hunit]
    exact (splitAround_eq_some hcut).2 (by simp [gateInfix])
  · intro h
    rw [unitOfGateKey, splitAround_gate h, Option.map_some, String.ofList_toList]

theorem gateKeyAttempt_gateKey {unit : String} (h : Ungated unit) (gate : String)
    (hattempt : attempt < 2 ^ 32) (retry : Nat) :
    gateKeyAttempt (gateKey .verdict unit attempt retry gate) = some attempt := by
  have htail : (gate ++ "#" ++ toString attempt ++ retryMark retry).toList =
      gate.toList ++ '#' :: ((toString attempt).toList ++ (retryMark retry).toList) := by simp
  rw [gateKey_eq, gateKeyAttempt, splitAround_gate h, Option.bind_some, htail,
    attemptOf_tail _ hattempt,
    if_pos List.mem_append_cons_self]

theorem retryOf_gateKey (unit : String) (attempt : Nat) (h : retry < 2 ^ 32) (gate : String) :
    retryOf (gateKey .verdict unit attempt retry gate) = retry := by
  have hkey : gateKey .verdict unit attempt retry gate =
      (unit ++ gateInfix ++ gate) ++ "#" ++ toString attempt ++ retryMark retry := by
    rw [gateKey_eq]
    simp only [String.append_assoc]
  rw [hkey, retryOf_tail _ _ h]

/-! ## One unit's keys -/

section
variable {lenses : List String} {unit other : String}

theorem readBack (hunit : Ungated unit) (hlenses : ∀ agent ∈ lenses, '/' ∉ agent.toList) :
    ReadBack lenses unit where
  spawn role hrole attempt hattempt retry hretry := by
    have hplain : role.Plain := role.plain_iff.2 fun agent k h => by
      subst h
      exact hlenses agent hrole
    refine ⟨(unitOf_spawnRetryId ..).2 hplain, ?_, ?_⟩
    · have hid : (spawnRetryId unit role.token attempt retry).toList =
          (unit ++ "/" ++ role.token).toList ++
            '#' :: ((toString attempt).toList ++ (retryMark retry).toList) := by
        rw [spawnRetryId_eq]
        simp
      rw [hid, attemptOf_tail _ hattempt]
    · rw [spawnRetryId_eq, retryOf_tail _ _ hretry]
  gate gate attempt hattempt retry hretry :=
    ⟨gateKey_eq .. ▸ (unitOfGateKey_eq_iff ..).2 hunit,
      gateKeyAttempt_gateKey hunit gate hattempt retry,
      retryOf_gateKey unit attempt hretry gate⟩

theorem ReadBack.ungated (h : ReadBack lenses unit) : Ungated unit := by
  have hgate := (h.gate "" 0 (by decide) 0 (by decide)).1
  rw [gateKey_eq] at hgate
  exact (unitOfGateKey_eq_iff ..).1 hgate

theorem ReadBack.lens (h : ReadBack lenses unit) {agent : String} (hagent : agent ∈ lenses) :
    '/' ∉ agent.toList := by
  have hspawn := (h.spawn (.review .lens agent 1) hagent 0 (by decide) 0 (by decide)).1
  exact (Role.plain_iff _).1 ((unitOf_spawnRetryId ..).1 hspawn) agent 1 rfl

variable {key : String}

theorem unitOfGateKey_of_run (hunit : Ungated unit) (h : GateRunOf unit key) :
    unitOfGateKey key = some unit := by
  cases h with
  | run gate _ _ =>
    rw [gateKey_eq]
    exact (unitOfGateKey_eq_iff ..).2 hunit

theorem unitOfGateKey_of_deferred (h : Deferred key) : unitOfGateKey key = some "deferred" := by
  obtain ⟨gate, rfl⟩ := h
  have hkey : deferredGateVerdictKey gate = "deferred" ++ gateInfix ++ gate := by
    have hhead : "deferred/gate:" = "deferred" ++ gateInfix := rfl
    rw [deferredGateVerdictKey, hhead]
  rw [hkey]
  refine (unitOfGateKey_eq_iff ..).2 fun hin => ?_
  have hslash : '/' ∈ gateInfix.toList := by simp [gateInfix]
  exact absurd (hin.subset hslash) (by simp)

theorem spawn_ne_gate (hunit : Ungated unit) (hlenses : ∀ agent ∈ lenses, '/' ∉ agent.toList)
    {id : String} (hid : SpawnOf lenses unit id) (other rest : String) :
    id ≠ other ++ gateInfix ++ rest := by
  obtain @⟨role, hrole, attempt, retry, -, -⟩ := hid
  intro heq
  have hplain : role.Plain := role.plain_iff.2 fun agent k h => by
    subst h
    exact hlenses agent hrole
  obtain ⟨tail, htail, hslash⟩ :=
    unitOf_eq_iff.1 ((unitOf_spawnRetryId unit _ attempt retry).2 hplain)
  have hgate : gateInfix.toList = '/' :: "gate:".toList := by simp [gateInfix]
  have hhead : tail.toList.head? ≠ some 'g' := by
    obtain ⟨c, l, hl, hc⟩ := role.token_head
    rw [spawnRetryId_eq] at htail
    simp only [String.append_assoc] at htail
    have hsame := String.append_right_inj .. |>.1 (String.append_right_inj .. |>.1 htail)
    rw [← hsame, String.toList_append, hl]
    simpa using hc
  have hg : ("gate:".toList ++ rest.toList).head? = some 'g' := by
    have hword : "gate:".toList = 'g' :: ['a', 't', 'e', ':'] := by simp
    rw [hword]
    rfl
  have hlists : unit.toList ++ '/' :: tail.toList =
      other.toList ++ '/' :: ("gate:".toList ++ rest.toList) := by
    have h := congrArg String.toList (htail.symm.trans heq)
    simpa [hgate] using h
  have hnot : ∀ m, unit.toList ≠ other.toList ++ '/' :: ("gate:".toList ++ m) := by
    intro m h
    refine hunit ⟨other.toList, m, ?_⟩
    rw [hgate, h, List.append_assoc]
    rfl
  rcases List.append_eq_append_iff.1 hlists with ⟨m, -, hm⟩ | ⟨m, hm', hm⟩
  · cases m with
    | nil =>
      rw [List.nil_append, List.cons.injEq] at hm
      exact hhead (hm.2 ▸ hg)
    | cons x m =>
      rw [List.cons_append, List.cons.injEq] at hm
      exact hslash (by rw [hm.2]; simp)
  · cases m with
    | nil =>
      rw [List.nil_append, List.cons.injEq] at hm
      exact hhead (hm.2 ▸ hg)
    | cons x m =>
      rw [List.cons_append, List.cons.injEq] at hm
      obtain ⟨rfl, hm⟩ := hm
      -- The unit's own text goes on with `gate:`, which has no slash for the role to begin at.
      rcases List.append_eq_append_iff.1 hm with ⟨n, rfl, hn⟩ | ⟨n, hn', hn⟩
      · exact hnot n hm'
      · cases n with
        | nil =>
          rw [List.append_nil] at hn'
          exact hnot [] (by rw [hm', hn', List.append_nil])
        | cons y n =>
          rw [List.cons_append, List.cons.injEq] at hn
          have hmem : '/' ∈ "gate:".toList := by
            rw [hn', hn.1]
            exact List.mem_append_cons_self
          exact absurd hmem (by simp)

theorem key_ne (hunit : Ungated unit) (hother : Ungated other)
    (hlenses : ∀ agent ∈ lenses, '/' ∉ agent.toList) (hne : unit ≠ other) {key' : String}
    (hkey : SpawnOf lenses unit key ∨ GateRunOf unit key)
    (hkey' : SpawnOf lenses other key' ∨ GateRunOf other key') : key ≠ key' := by
  have hread : ∀ {unit key}, SpawnOf lenses unit key → unitOf key = some unit := by
    rintro unit _ @⟨role, hrole, attempt, retry, -, -⟩
    refine (unitOf_spawnRetryId ..).2 (role.plain_iff.2 fun agent k h => ?_)
    subst h
    exact hlenses agent hrole
  have hgate : ∀ {unit key}, GateRunOf unit key → ∃ rest, key = unit ++ gateInfix ++ rest := by
    rintro unit _ ⟨gate, -, -⟩
    exact ⟨_, gateKey_eq ..⟩
  rintro rfl
  rcases hkey with hspawn | hrun <;> rcases hkey' with hspawn' | hrun'
  · have hsame := (hread hspawn).symm.trans (hread hspawn')
    exact hne (Option.some.inj hsame)
  · obtain ⟨rest, hrest⟩ := hgate hrun'
    exact spawn_ne_gate hunit hlenses hspawn other rest hrest
  · obtain ⟨rest, hrest⟩ := hgate hrun
    exact spawn_ne_gate hother hlenses hspawn' unit rest hrest
  · have hsame := (unitOfGateKey_of_run hunit hrun).symm.trans (unitOfGateKey_of_run hother hrun')
    exact hne (Option.some.inj hsame)

theorem undeferred (hunit : Ungated unit) (hname : unit ≠ "deferred")
    (hlenses : ∀ agent ∈ lenses, '/' ∉ agent.toList) : Undeferred lenses unit where
  key key hkey hdeferred := by
    rcases hkey with hspawn | hrun
    · obtain ⟨gate, rfl⟩ := hdeferred
      refine spawn_ne_gate hunit hlenses hspawn "deferred" gate ?_
      have hhead : "deferred/gate:" = "deferred" ++ gateInfix := rfl
      rw [deferredGateVerdictKey, hhead]
    · have hsame := (unitOfGateKey_of_run hunit hrun).symm.trans
        (unitOfGateKey_of_deferred hdeferred)
      exact hname (Option.some.inj hsame)
  attributed key hkey h := by
    rw [unitOfGateKey_of_deferred hkey] at h
    exact hname (Option.some.inj h).symm

/-- Another's gate run, or a deferred gate's, is not read as the unit's. -/
theorem unitOfGateKey_foreign (hother : Ungated other) (hne : unit ≠ other)
    (hname : unit ≠ "deferred") (h : GateRunOf other key ∨ Deferred key) :
    ∃ x, unitOfGateKey key = some x ∧ x ≠ unit := by
  rcases h with hrun | hdeferred
  · exact ⟨other, unitOfGateKey_of_run hother hrun, hne.symm⟩
  · exact ⟨"deferred", unitOfGateKey_of_deferred hdeferred, hname.symm⟩

theorem unitGateRuns_foreign {e : Event} (before after : List Event)
    (h : ∀ key, e.meta_[metaReplayKey]? = some key → unitOfGateKey key ≠ some unit) :
    unitGateRuns (before ++ e :: after) unit = unitGateRuns (before ++ after) unit := by
  have hnone : ((gateVerdictOf e).toList.filter fun x => unitOfGateKey x.1 == some unit) = [] := by
    rw [List.filter_eq_nil_iff]
    intro x hx
    rw [Option.mem_toList] at hx
    unfold gateVerdictOf at hx
    split at hx
    · obtain ⟨key, hkey, hx⟩ := Option.bind_eq_some_iff.1 hx
      obtain ⟨v, -, rfl⟩ := Option.map_eq_some_iff.1 hx
      simpa using h key hkey
    · cases hx
  have hcons : (e :: after).filterMap gateVerdictOf =
      (gateVerdictOf e).toList ++ after.filterMap gateVerdictOf := by
    cases he : gateVerdictOf e with
    | none => exact List.filterMap_cons_none he
    | some x => exact List.filterMap_cons_some he
  unfold unitGateRuns
  rw [List.filterMap_append, List.filterMap_append, hcons, List.filter_append, List.filter_append,
    List.filter_append, hnone, List.nil_append]

theorem unmixed (hunit : Ungated unit) (hother : Ungated other) (hne : unit ≠ other)
    (hname : unit ≠ "deferred") (hlenses : ∀ agent ∈ lenses, '/' ∉ agent.toList) :
    Unmixed lenses unit other where
  keys _ _ hkey hkey' := key_ne hunit hother hlenses hne hkey hkey'
  highWater before after key hkey := by
    obtain ⟨x, hx, hxne⟩ := unitOfGateKey_foreign hother hne hname hkey
    have hread : (unitOfGateKey key == some unit) = false := by
      rw [hx]
      simpa using hxne
    unfold gateVerdictHighWater
    rw [List.filter_append, List.filter_append, List.filter_cons_of_neg (by simp [hread])]
  outcome before after e he := by
    obtain ⟨key, hkey, hforeign⟩ := he
    unfold recordedGateOutcome byAttempt
    rw [unitGateRuns_foreign before after fun key' hkey' => by
      cases hkey.symm.trans hkey'
      obtain ⟨x, hx, hxne⟩ := unitOfGateKey_foreign hother hne hname hforeign
      rw [hx]
      exact fun h => hxne (Option.some.inj h)]
  green events digest position hforeign h := by
    obtain ⟨e, he, hgreen⟩ := List.exists_of_findSome?_eq_some h
    obtain ⟨g, hg, hposition⟩ := Option.bind_eq_some_iff.1 hgreen
    obtain ⟨key, hkey, hkey'⟩ := hforeign e he
    obtain ⟨x, hx, hxne⟩ := unitOfGateKey_foreign hother hne hname hkey'
    have hunit : ∀ g, greenOf e = some g → g.2.2 = x := by
      intro g hg
      unfold greenOf at hg
      rw [hkey, Option.bind_some, hx, Option.getD_some] at hg
      split at hg
      · obtain ⟨_, -, hg⟩ := Option.bind_eq_some_iff.1 hg
        obtain ⟨v, -, hg⟩ := Option.bind_eq_some_iff.1 hg
        split at hg
        · cases hg
          rfl
        · cases hg
      · cases hg
    have hsame := hunit g hg
    split at hposition
    · rw [Option.some.inj hposition] at hsame
      exact hxne hsame.symm
    · cases hposition
  spawns before after e id id' hid hid' := by
    have hapart : id' ≠ id := (key_ne hunit hother hlenses hne (.inl hid) (.inl hid')).symm
    refine ⟨fun hreq => ?_, fun hres => ?_⟩
    · unfold Liveness.requestFor
      refine latest_append_cons _ (Option.filter_eq_none_iff.2 fun req h => ?_)
      simpa [hreq req h] using hapart
    · unfold Spawn.latestFor
      refine latest_append_cons _ (Option.filter_eq_none_iff.2 fun res h => ?_)
      simpa [hres res h] using hapart

end

/-! ## Every run -/

/-- Every record of every stage, in every run over the log, is its own exactly if no name of it
holds `/gate:` or is the deferred gates', and no lens a slash. -/
theorem attributed_iff (c : Planning) (lenses : List String) (events : List Event) :
    Attributed c lenses events ↔ ∀ name, c.Named (proposals events) name →
      Ungated name ∧ name ≠ "deferred" ∧ ∀ agent ∈ lenses, '/' ∉ agent.toList := by
  constructor
  · intro h name hname
    have hlog : (run c.step Proposed.World.new (Planning.stepwise events)).log <+: events := by
      rw [(Planning.stepwise_log events).1]
    obtain ⟨hback, hundeferred, -⟩ := h (Planning.stepwise events) hlog name hname.flies
    refine ⟨hback.ungated, fun heq => ?_, fun agent hagent => hback.lens hagent⟩
    refine hundeferred.attributed (deferredGateVerdictKey "") ⟨"", rfl⟩ ?_
    rw [unitOfGateKey_of_deferred ⟨"", rfl⟩, heq]
  · intro h acts hlog u hu
    obtain ⟨hungated, hname, hlenses⟩ := h u (hu.named hlog)
    refine ⟨readBack hungated hlenses, undeferred hungated hname hlenses, fun v hv hne => ?_⟩
    exact unmixed hungated (h v (hv.named hlog)).1 hne hname hlenses

/-- Two units, one of whose ids goes on with `/gate:` after the other's, and one named as the
deferred gates are. -/
def gatedEvents : List Event :=
  [proposalEvent "u" "plan/implementer#0" "the parser is total",
    proposalEvent "u/gate:x" "plan/implementer#0" "the parser is total",
    proposalEvent "deferred" "plan/implementer#0" "the parser is total"]

/-- A gate run of `u/gate:x` is read as one of `u`, the deferred gates' as the unit `deferred`'s,
and a lens whose name has a slash as one of another unit. -/
theorem gated_misattributed :
    (run oneCriterion.step Proposed.World.new
    [.emit gatedEvents, .resume ∅ ∅]).process.map stageNames =
        some ["deferred", "u", "u/gate:x"] ∧
      unitOfGateKey (gateKey .verdict "u/gate:x" 0 0 "test") = some "u" ∧
      unitOfGateKey (deferredGateVerdictKey "e2e") = some "deferred" ∧
      unitOf (spawnRetryId "u" (Role.review .lens "team/sdet" 1).token 0 0) = some "u/lens:team" ∧
      ¬Attributed oneCriterion [] gatedEvents := by
  refine ⟨by decide +kernel, by decide +kernel, by decide +kernel, by decide +kernel, fun h => ?_⟩
  have hflies : oneCriterion.Flies [.emit gatedEvents, .resume ∅ ∅] "u/gate:x" := by
    have hstage :
      (run oneCriterion.step Proposed.World.new [.emit gatedEvents, .resume ∅ ∅]).process.any
        (fun d => d.stages.contains "u/gate:x") = true := by decide +kernel
    obtain ⟨d, hd, hname⟩ := (Option.any_eq_true _ _).1 hstage
    exact ⟨_, [], d, (List.append_nil _).symm, hd, hname⟩
  have hback := (h [.emit gatedEvents, .resume ∅ ∅] List.prefix_rfl "u/gate:x" hflies).1
  have hread := (hback.gate "test" 0 (by decide) 0 (by decide)).1
  exact absurd hread (by decide +kernel)

end Rigger.Conductor.Attribution
