import Rigger.Store.Sqlite

/-!
# The live selection of the derived index (`plan_derived_prune`)

One pass over the covered, keyed rows, newest first.  The first row met for a batch names the
batch's latest generation, and the first row met for a `(stream, type, key)` is that key's latest
recording; a row is set aside when its generation is not its batch's latest or a later recording
of its exact key exists (`mem_deletes_walkRows`).  A key the policy does not parse stands for a
batch of its own name, with the empty generation.
-/

namespace Rigger

open Lib

/-! ## The plan -/

/-- `(stream, type, content key)`. -/
abbrev ExactKey := String × String × String

/-- `(stream, type, batch, fact key)`. -/
abbrev Fact := String × String × String × Data

/-- A batch as the walk meets it: its latest generation, the generation of the run being walked,
and that run's number. -/
structure BatchWalk where
  latest : String
  walked : String
  run : Nat
deriving DecidableEq

/-- One re-asserted fact's valid-time over its unbroken run of generations. -/
structure FactRun where
  earliest : Int
  run : Nat
  broken : Bool
deriving DecidableEq

structure DerivedPrunePlan where
  deletes : List Nat
  carries : List (Nat × Int)
deriving DecidableEq

/-- The maps of the pass. -/
structure Walk where
  runs : String × String → Option BatchWalk
  seen : List ExactKey
  facts : Fact → Option FactRun
  keys : ExactKey → Option (Nat × Int)
  survivors : List (Nat × Int × Fact × ExactKey)
  deletes : List Nat

namespace Store

/-- `substr(stream, 1, length(prefix)) = prefix`. -/
def hasPrefix (pre stream : String) : Bool := pre.toList.isPrefixOf stream.toList

/-- The aliases each stream under the prefix defines, in position order. -/
def aliasHistories (s : Store) (streamPrefix : String) (facts : FactIdentity) :
    Std.ExtTreeMap String AliasHistory :=
  (s.rows.filter fun r => r.2.type_ == facts.aliasType && hasPrefix streamPrefix r.2.stream).foldl
    (fun histories r => match facts.alias_ r.2.data with
      | some (name, canonical) =>
        histories.insert r.2.stream
          ((histories.getD r.2.stream AliasHistory.empty).define r.1 name canonical)
      | none => histories) ∅

/-- The covered, keyed rows under the prefix with their content keys, in position order. -/
def coveredRows (s : Store) (streamPrefix : String) (identity : ContentIdentity) :
    List (Row × String) :=
  s.rows.filterMap fun r =>
    if identity.covers r.2.type_ && hasPrefix streamPrefix r.2.stream then
      r.2.meta_[identity.metaKey]?.map fun key => (r, key)
    else none

end Store

namespace ContentIdentity

/-- The batch and the generation of a content key. -/
def batchOf (identity : ContentIdentity) (key : String) : String × String :=
  (identity.keyParts key).getD (key, "")

end ContentIdentity

namespace Walk

def start : Walk := ⟨fun _ => none, [], fun _ => none, fun _ => none, [], []⟩

section
variable (identity : ContentIdentity) (r : Row) (key : String)

def exactOf : ExactKey := (r.2.stream, r.2.type_, key)

/-- The batch's walk after the row: a row of another generation opens the next run. -/
def batchAfter (w : Walk) : BatchWalk :=
  let (batch, generation) := identity.batchOf key
  let walk := (w.runs (r.2.stream, batch)).getD ⟨generation, generation, 0⟩
  if walk.walked ≠ generation then { walk with walked := generation, run := walk.run + 1 } else walk

def superseded (w : Walk) : Bool :=
  decide ((w.batchAfter identity r key).latest ≠ (identity.batchOf key).2)

def survives (w : Walk) : Bool :=
  !w.superseded identity r key && !w.seen.contains (exactOf r key)

/-- The row's fate: the batch's run, the exact keys met, and the deletes. -/
def select (w : Walk) : Walk :=
  { w with
    runs := Function.update w.runs (r.2.stream, (identity.batchOf key).1)
      (some (w.batchAfter identity r key))
    seen := if w.survives identity r key then exactOf r key :: w.seen else w.seen
    deletes := if w.survives identity r key then w.deletes else w.deletes ++ [r.1] }

/-- The fact a re-asserting row asserts, its names resolved as of its own position. -/
def factOf (aliases : Std.ExtTreeMap String AliasHistory) (reasserting : List String) :
    Option Data :=
  (if reasserting.contains r.2.type_ then some r.2.data else none).bind fun payload =>
    match identity.facts with
    | some facts =>
      facts.fact r.2.type_ payload fun mention => match aliases[r.2.stream]? with
        | some history => history.resolve mention r.1
        | none => mention
    | none => some payload

/-- The valid-times a fact and an exact key carry, `run` being the row's run and `lives` whether
the row survives. -/
def carry (fact : Data) (run : Nat) (lives : Bool) (w : Walk) : Walk :=
  let exact := exactOf r key
  let keys := match w.keys exact with
    | some (keyRun, earliest) =>
      if keyRun = run then Function.update w.keys exact (some (keyRun, min earliest r.2.validFrom))
      else w.keys
    | none => w.keys
  let factKey : Fact := (r.2.stream, r.2.type_, (identity.batchOf key).1, fact)
  let held := (w.facts factKey).getD ⟨r.2.validFrom, run, false⟩
  let broken := held.broken || decide (held.run + 1 < run)
  let held := if broken then { held with broken := true }
    else { earliest := min held.earliest r.2.validFrom, run := run, broken := false }
  { w with
    facts := Function.update w.facts factKey (some held)
    keys := if lives then Function.update keys exact (some (run, r.2.validFrom)) else keys
    survivors := if lives then w.survivors ++ [(r.1, r.2.validFrom, factKey, exact)]
      else w.survivors }

def step (aliases : Std.ExtTreeMap String AliasHistory) (reasserting : List String) (w : Walk) :
    Walk :=
  match factOf identity r aliases reasserting with
  | none => w.select identity r key
  | some fact =>
    (w.select identity r key).carry identity r key fact (w.batchAfter identity r key).run
      (w.survives identity r key)

end

/-- The carry of one survivor.  Both maps hold its keys, so the source's indexing never fails. -/
def carryOf (w : Walk) : Nat × Int × Fact × ExactKey → Option (Nat × Int)
  | (position, own, fact, exact) =>
    match w.facts fact, w.keys exact with
    | some held, some (_, ofKey) =>
      let earliest := min held.earliest ofKey
      if earliest ≠ own then some (position, earliest) else none
    | _, _ => none

end Walk

namespace Store

/-- The walk over the covered rows, newest first. -/
def walkRows (identity : ContentIdentity) (aliases : Std.ExtTreeMap String AliasHistory)
    (reasserting : List String) (rows : List (Row × String)) : Walk :=
  rows.foldr (fun x w => w.step identity x.1 x.2 aliases reasserting) Walk.start

def planDerivedPrune (s : Store) (streamPrefix : String) (identity : ContentIdentity)
    (reasserting : List String) : DerivedPrunePlan :=
  let aliases := match identity.facts with
    | some facts => s.aliasHistories streamPrefix facts
    | none => ∅
  let walk := walkRows identity aliases reasserting (s.coveredRows streamPrefix identity)
  ⟨walk.deletes, (walk.survivors.filterMap walk.carryOf).insertionSort
    fun a b => a.1 < b.1 ∨ a.1 = b.1 ∧ a.2 ≤ b.2⟩

end Store

/-! ## What the walk keeps -/

namespace Walk

section
variable (identity : ContentIdentity) (r : Row) (key : String)
  (aliases : Std.ExtTreeMap String AliasHistory) (reasserting : List String) (w : Walk)

/-! The carries leave the row's fate alone. -/

theorem step_runs : (w.step identity r key aliases reasserting).runs =
    Function.update w.runs (r.2.stream, (identity.batchOf key).1)
      (some (w.batchAfter identity r key)) := by
  unfold step
  split <;> rfl

theorem step_seen : (w.step identity r key aliases reasserting).seen =
    if w.survives identity r key then exactOf r key :: w.seen else w.seen := by
  unfold step
  split <;> rfl

theorem step_deletes : (w.step identity r key aliases reasserting).deletes =
    if w.survives identity r key then w.deletes else w.deletes ++ [r.1] := by
  unfold step
  split <;> rfl

theorem batchAfter_latest : (w.batchAfter identity r key).latest =
    ((w.runs (r.2.stream, (identity.batchOf key).1)).map BatchWalk.latest).getD
      (identity.batchOf key).2 := by
  unfold batchAfter
  cases h : w.runs (r.2.stream, (identity.batchOf key).1) with
  | none => simp [h]
  | some b =>
    simp only [h, Option.getD_some, Option.map_some]
    split <;> rfl

end

end Walk

namespace Store

section
variable (identity : ContentIdentity) (aliases : Std.ExtTreeMap String AliasHistory)
  (reasserting : List String)

/-- The generation a covered row records of a stream's batch. -/
def generationIn (batch : String × String) (x : Row × String) : Option String :=
  if (x.1.2.stream, (identity.batchOf x.2).1) = batch then some (identity.batchOf x.2).2 else none

/-- The latest generation of the row's own batch among `rows`. -/
def latestOf (rows : List (Row × String)) (x : Row × String) : Option String :=
  latest (generationIn identity (x.1.2.stream, (identity.batchOf x.2).1)) rows

theorem generationIn_self (x : Row × String) :
    generationIn identity (x.1.2.stream, (identity.batchOf x.2).1) x =
      some (identity.batchOf x.2).2 := if_pos rfl

/-- A row met later does not move the latest generation of a batch already met. -/
theorem latestOf_cons_of_mem {x y : Row × String} {rows : List (Row × String)} (hy : y ∈ rows) :
    latestOf identity (x :: rows) y = latestOf identity rows y := by
  unfold latestOf
  rw [latest_cons]
  have hsome := (latest_isSome_iff (generationIn identity
    (y.1.2.stream, (identity.batchOf y.2).1)) rows).2
    ⟨y, hy, by rw [generationIn_self identity y]; rfl⟩
  obtain ⟨g, hg⟩ := Option.isSome_iff_exists.1 hsome
  rw [hg]
  rfl

theorem walkRows_cons (x : Row × String) (rows : List (Row × String)) :
    walkRows identity aliases reasserting (x :: rows) =
      (walkRows identity aliases reasserting rows).step identity x.1 x.2 aliases reasserting := rfl

theorem runs_walkRows (rows : List (Row × String)) (batch : String × String) :
    ((walkRows identity aliases reasserting rows).runs batch).map BatchWalk.latest =
      latest (generationIn identity batch) rows := by
  induction rows with
  | nil => rfl
  | cons x rows ih =>
    rw [latest_cons, ← ih, walkRows_cons, Walk.step_runs, generationIn]
    by_cases hb : (x.1.2.stream, (identity.batchOf x.2).1) = batch
    · subst hb
      rw [Function.update_self, Option.map_some, Walk.batchAfter_latest, if_pos rfl]
      cases (walkRows identity aliases reasserting rows).runs
        (x.1.2.stream, (identity.batchOf x.2).1) <;> rfl
    · rw [Function.update_of_ne (Ne.symm hb), if_neg hb, Option.or_none]

/-- A row is superseded when its generation is not its batch's latest from it on. -/
theorem superseded_walkRows (x : Row × String) (rows : List (Row × String)) :
    (walkRows identity aliases reasserting rows).superseded identity x.1 x.2 = false ↔
      latestOf identity (x :: rows) x = some (identity.batchOf x.2).2 := by
  unfold Walk.superseded latestOf
  rw [decide_eq_false_iff_not, not_not, Walk.batchAfter_latest, runs_walkRows, latest_cons,
    generationIn_self]
  cases latest (generationIn identity (x.1.2.stream, (identity.batchOf x.2).1)) rows with
  | none => simp
  | some g => simp

/-- The exact keys seen are those of the rows of their batch's latest generation. -/
theorem mem_seen_walkRows (rows : List (Row × String)) (exact : ExactKey) :
    exact ∈ (walkRows identity aliases reasserting rows).seen ↔
      ∃ y ∈ rows, Walk.exactOf y.1 y.2 = exact ∧
        latestOf identity rows y = some (identity.batchOf y.2).2 := by
  induction rows with
  | nil => simp [walkRows, Walk.start]
  | cons x rows ih =>
    have hold : (∃ y ∈ rows, Walk.exactOf y.1 y.2 = exact ∧
          latestOf identity (x :: rows) y = some (identity.batchOf y.2).2) ↔
        exact ∈ (walkRows identity aliases reasserting rows).seen := by
      rw [ih]
      refine exists_congr fun y => and_congr_right fun hy => ?_
      rw [latestOf_cons_of_mem identity hy]
    rw [walkRows_cons, Walk.step_seen, List.exists_mem_cons_iff, hold,
      ← superseded_walkRows identity aliases reasserting, Walk.survives]
    by_cases hsup : (walkRows identity aliases reasserting rows).superseded identity x.1 x.2 = true
    · simp [hsup]
    · rw [Bool.not_eq_true] at hsup
      by_cases hseen : Walk.exactOf x.1 x.2 ∈ (walkRows identity aliases reasserting rows).seen
      · simp only [hsup, List.contains_iff_mem.2 hseen]
        constructor
        · exact fun h => Or.inr h
        · rintro (⟨rfl, -⟩ | h)
          · exact hseen
          · exact h
      · simp [hsup, hseen, eq_comm]

/-- What a row survives: its generation is its batch's latest from it on, and no later row carries
its exact key. -/
theorem survives_walkRows (x : Row × String) (rows : List (Row × String)) :
    (walkRows identity aliases reasserting rows).survives identity x.1 x.2 = true ↔
      latestOf identity (x :: rows) x = some (identity.batchOf x.2).2 ∧
        ∀ y ∈ rows, Walk.exactOf y.1 y.2 ≠ Walk.exactOf x.1 x.2 := by
  unfold Walk.survives
  rw [Bool.and_eq_true, Bool.not_eq_true', Bool.not_eq_true', superseded_walkRows]
  apply and_congr_right
  intro hlive
  rw [← Bool.not_eq_true, List.contains_iff_mem, mem_seen_walkRows]
  constructor
  · intro hnot y hy hexact
    refine hnot ⟨y, hy, hexact, ?_⟩
    -- one exact key has one stream, batch and generation
    have hstream : y.1.2.stream = x.1.2.stream := congrArg Prod.fst hexact
    have hkey : y.2 = x.2 := congrArg (fun e : ExactKey => e.2.2) hexact
    rw [← latestOf_cons_of_mem identity (x := x) hy, latestOf, hstream, hkey]
    exact hlive
  · rintro hnone ⟨y, hy, hexact, -⟩
    exact hnone y hy hexact

/-- The rows set aside: a superseded generation, or an exact key recorded again later. -/
theorem mem_deletes_walkRows (rows : List (Row × String))
    (hsorted : rows.Pairwise fun a b => a.1.1 < b.1.1) (p : Nat) :
    p ∈ (walkRows identity aliases reasserting rows).deletes ↔
      ∃ x ∈ rows, x.1.1 = p ∧ (latestOf identity rows x ≠ some (identity.batchOf x.2).2 ∨
        ∃ y ∈ rows, x.1.1 < y.1.1 ∧ Walk.exactOf y.1 y.2 = Walk.exactOf x.1 x.2) := by
  induction rows with
  | nil => simp [walkRows, Walk.start]
  | cons x rows ih =>
    obtain ⟨hx, hrows⟩ := List.pairwise_cons.1 hsorted
    have hold : (∃ y ∈ rows, y.1.1 = p ∧ (latestOf identity (x :: rows) y ≠
          some (identity.batchOf y.2).2 ∨ ∃ z ∈ x :: rows, y.1.1 < z.1.1 ∧
            Walk.exactOf z.1 z.2 = Walk.exactOf y.1 y.2)) ↔
        p ∈ (walkRows identity aliases reasserting rows).deletes := by
      rw [ih hrows]
      refine exists_congr fun y => and_congr_right fun hy => and_congr_right fun _ => ?_
      have hlt := hx y hy
      have hxy : ¬(y.1.1 < x.1.1 ∧ Walk.exactOf x.1 x.2 = Walk.exactOf y.1 y.2) := by
        rintro ⟨hlt', -⟩
        omega
      rw [latestOf_cons_of_mem identity hy, List.exists_mem_cons_iff, or_iff_right hxy]
    have hself : ((walkRows identity aliases reasserting rows).survives identity x.1 x.2 = false) ↔
        (latestOf identity (x :: rows) x ≠ some (identity.batchOf x.2).2 ∨
          ∃ y ∈ x :: rows, x.1.1 < y.1.1 ∧ Walk.exactOf y.1 y.2 = Walk.exactOf x.1 x.2) := by
      rw [← Bool.not_eq_true, survives_walkRows, Classical.not_and_iff_not_or_not]
      refine or_congr_right ?_
      constructor
      · intro hnot
        simp only [not_forall, not_not] at hnot
        obtain ⟨y, hy, hexact⟩ := hnot
        exact ⟨y, List.mem_cons_of_mem _ hy, hx y hy, hexact⟩
      · rintro ⟨y, hy, hlt, hexact⟩ hall
        rcases List.mem_cons.1 hy with rfl | hy
        · omega
        · exact hall y hy hexact
    rw [walkRows_cons, Walk.step_deletes, List.exists_mem_cons_iff, hold, ← hself]
    cases (walkRows identity aliases reasserting rows).survives identity x.1 x.2 with
    | true => simp
    | false => simp [or_comm, eq_comm]

end

/-! ## The plan of the derived index -/

theorem hasPrefix_self (stream : String) : hasPrefix stream stream = true := by
  rw [hasPrefix, List.isPrefixOf_iff_prefix]

theorem sorted_coveredRows (s : Store) (streamPrefix : String) (identity : ContentIdentity) :
    (s.coveredRows streamPrefix identity).Pairwise fun a b => a.1.1 < b.1.1 := by
  refine List.pairwise_filterMap.2 (s.sorted.imp fun hlt x hx y hy => ?_)
  have hfst : ∀ (r : Row) (z : Row × String), (if identity.types.contains r.2.type_ &&
      hasPrefix streamPrefix r.2.stream then r.2.meta_[identity.metaKey]?.map fun key => (r, key)
      else none) = some z → z.1 = r := by
    intro r z hz
    split at hz
    · obtain ⟨key, -, rfl⟩ := Option.map_eq_some_iff.1 hz
      rfl
    · cases hz
  rw [hfst _ x hx, hfst _ y hy]
  exact hlt

/-- The batch and the generation a replay key records for the selection: its parts, or itself
with no generation. -/
def batchKey (key : String) : String × String := (derivedKeyParts key).getD (key, "")

/-- The generation a derived row records of a batch. -/
def batchGeneration (batch : String) (c : Columns) : Option String :=
  if isDerivedIndexType c.type_ then
    c.meta_[metaReplayKey]?.bind fun key =>
      if (batchKey key).1 = batch then some (batchKey key).2 else none
  else none

/-- The latest generation of a stream's batch, as the selection reads it. -/
def latestBatchGeneration (s : Store) (stream batch : String) : Option String :=
  latest (fun r => batchGeneration batch r.2) (s.streamRows stream)

/-- The positions the migration's selection sets aside. -/
def shedByThePlan (s : Store) (stream : String) : List Nat :=
  (s.planDerivedPrune stream derivedIndexIdentity []).deletes

section
variable {s : Store} {stream : String} {r : Row} {key : String}

theorem mem_coveredRows :
    (r, key) ∈ s.coveredRows stream derivedIndexIdentity ↔ r ∈ s.rows ∧
      isDerivedIndexType r.2.type_ = true ∧ hasPrefix stream r.2.stream = true ∧
      r.2.meta_[metaReplayKey]? = some key := by
  unfold coveredRows
  rw [List.mem_filterMap]
  constructor
  · rintro ⟨r', hr', h⟩
    split at h
    · rename_i hcovered
      rw [Bool.and_eq_true] at hcovered
      obtain ⟨key', hkey, heq⟩ := Option.map_eq_some_iff.1 h
      cases heq
      exact ⟨hr', hcovered.1, hcovered.2, hkey⟩
    · cases h
  · rintro ⟨hr, hderived, hpre, hkey⟩
    have hcovered : (derivedIndexIdentity.covers r.2.type_ &&
        hasPrefix stream r.2.stream) = true := by
      rw [Bool.and_eq_true]
      exact ⟨hderived, hpre⟩
    refine ⟨r, hr, ?_⟩
    rw [if_pos hcovered]
    exact Option.map_eq_some_iff.2 ⟨key, hkey, rfl⟩

theorem latestOf_coveredRows (hr : r.2.stream = stream) (key : String) :
    latestOf derivedIndexIdentity (s.coveredRows stream derivedIndexIdentity) (r, key) =
      s.latestBatchGeneration stream (batchKey key).1 := by
  unfold latestOf coveredRows latestBatchGeneration streamRows
  rw [latest_filterMap, latest_filter, hr]
  apply latest_congr
  intro x _
  unfold generationIn batchGeneration
  by_cases hx : x.2.stream = stream
  · subst hx
    by_cases hd : isDerivedIndexType x.2.type_ = true
    · have hcovered : (derivedIndexIdentity.covers x.2.type_ &&
          hasPrefix x.2.stream x.2.stream) = true := by
        rw [hasPrefix_self, Bool.and_true]
        exact hd
      rw [if_pos hcovered, if_pos (beq_self_eq_true _), if_pos hd]
      show (x.2.meta_[metaReplayKey]?.map _).bind _ = _
      cases x.2.meta_[metaReplayKey]? with
      | none => rfl
      | some k =>
        show (if (_, (batchKey k).1) = (_, (batchKey key).1) then some (batchKey k).2 else none) =
          if (batchKey k).1 = (batchKey key).1 then some (batchKey k).2 else none
        by_cases hb : (batchKey k).1 = (batchKey key).1 <;> simp [hb]
    · have hcovered : ¬(derivedIndexIdentity.covers x.2.type_ &&
          hasPrefix x.2.stream x.2.stream) = true := by
        rw [Bool.and_eq_true]
        exact fun hc => hd hc.1
      rw [if_neg hcovered, if_neg hd, ite_self]
      rfl
  · have hne : ¬(x.2.stream == stream) = true := by
      rw [beq_iff_eq]
      exact hx
    rw [if_neg hne]
    split
    · cases x.2.meta_[derivedIndexIdentity.metaKey]? with
      | none => rfl
      | some k => simp [hx]
    · rfl

theorem mem_shedByThePlan (hr : r ∈ s.streamRows stream)
    (hderived : isDerivedIndexType r.2.type_ = true) (hkey : r.2.meta_[metaReplayKey]? = some key) :
    r.1 ∈ s.shedByThePlan stream ↔
      s.latestBatchGeneration stream (batchKey key).1 ≠ some (batchKey key).2 ∨
        ∃ y ∈ s.streamRows stream, r.1 < y.1 ∧ y.2.type_ = r.2.type_ ∧
          y.2.meta_[metaReplayKey]? = some key := by
  obtain ⟨hrows, hstream⟩ := mem_streamRows.1 hr
  have hcovered : (r, key) ∈ s.coveredRows stream derivedIndexIdentity :=
    mem_coveredRows.2 ⟨hrows, hderived, hstream ▸ hasPrefix_self _, hkey⟩
  unfold shedByThePlan planDerivedPrune
  rw [mem_deletes_walkRows _ _ _ _ (sorted_coveredRows s stream _)]
  -- positions are unique, so the row set aside at this position is this one
  have hrow : ∀ x ∈ s.coveredRows stream derivedIndexIdentity, x.1.1 = r.1 → x = (r, key) := by
    rintro ⟨x, k⟩ hx hpos
    obtain ⟨hx, -, -, hk⟩ := mem_coveredRows.1 hx
    obtain rfl : x = r := Table.eq_of_position hx hrows hpos
    rw [hkey, Option.some.injEq] at hk
    rw [hk]
  have hlater : (∃ y ∈ s.coveredRows stream derivedIndexIdentity, r.1 < y.1.1 ∧
        Walk.exactOf y.1 y.2 = Walk.exactOf r key) ↔
      ∃ y ∈ s.streamRows stream, r.1 < y.1 ∧ y.2.type_ = r.2.type_ ∧
        y.2.meta_[metaReplayKey]? = some key := by
    constructor
    · rintro ⟨⟨y, k⟩, hy, hlt, hexact⟩
      obtain ⟨hyrows, -, -, hk⟩ := mem_coveredRows.1 hy
      simp only [Walk.exactOf, Prod.mk.injEq] at hexact
      obtain ⟨hys, hyt, rfl⟩ := hexact
      exact ⟨y, mem_streamRows.2 ⟨hyrows, hys.trans hstream⟩, hlt, hyt, hk⟩
    · rintro ⟨y, hy, hlt, hyt, hk⟩
      obtain ⟨hyrows, hys⟩ := mem_streamRows.1 hy
      refine ⟨(y, key), mem_coveredRows.2 ⟨hyrows, hyt ▸ hderived, hys ▸ hasPrefix_self _, hk⟩,
        hlt, ?_⟩
      rw [Walk.exactOf, Walk.exactOf, hys, hyt, hstream]
  rw [← hlater, ← latestOf_coveredRows (s := s) hstream key]
  constructor
  · rintro ⟨x, hx, hpos, h⟩
    obtain rfl := hrow x hx hpos
    exact h
  · intro h
    exact ⟨(r, key), hcovered, rfl, h⟩

end

end Store

end Rigger
