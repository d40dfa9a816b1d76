import Mathlib.Data.Finset.Card
import Rigger.Conductor.Emit

/-!
# The stage graph (`rigger-domain/src/{wave,config}.rs`)

Which stages a wave may run, the shapes of a workflow's stages, and the baseline: one unit for each
criterion of the spec.  A need that names the fan-out template is met once every unit of every
criterion the template expanded into is integrated; any other need names a stage.
-/

namespace Rigger.Conductor

open Lib

structure Stage where
  name : String
  agent : String
  agents : List String
  needs : List String
  strategy : String
  partition : String
  gates : List String
  adjudicator : String
  produces : String
  coverage : String
  onPass : String
  baseline : Bool
  criterionId : String
  episode : String
  unmatchedFanoutProposal : Bool
deriving DecidableEq

/-- `Stage::default`. -/
def Stage.default : Stage where
  name := ""
  agent := ""
  agents := []
  needs := []
  strategy := ""
  partition := ""
  gates := []
  adjudicator := ""
  produces := ""
  coverage := ""
  onPass := ""
  baseline := false
  criterionId := ""
  episode := ""
  unmatchedFanoutProposal := false

/-- Stages by name, in the order of their names. -/
abbrev Stages := Std.ExtTreeMap String Stage

/-- `eq_ignore_ascii_case`. -/
def eqIgnoreAsciiCase (a b : String) : Bool :=
  a.toList.map Char.toLower == b.toList.map Char.toLower

/-! ## Criteria -/

/-- `split_whitespace`. -/
def words (s : String) : List String :=
  ((s.toList.splitOnP isWhite).filter fun word => word ≠ []).map String.ofList

def normalizeWs (s : String) : String := " ".intercalate (words s)

/-- What `text` carries past the criterion it opens with. -/
def criterionRemainder (criterion text : String) : Option String :=
  let criterion := normalizeWs criterion
  if criterion.isEmpty then none
  else
    match stripPrefix criterion (normalizeWs text) with
    | none => none
    | some rest => if rest.isEmpty then some "" else stripPrefix " " rest

/-- `fnv1a_64`. -/
def fnv1a64 (bytes : List UInt8) : UInt64 :=
  bytes.foldl (fun hash b => (hash ^^^ b.toUInt64) * 0x100000001b3) 0xcbf29ce484222325

/-- `{:016x}`. -/
def hex16 (n : UInt64) : String :=
  let digits := Nat.toDigits 16 n.toNat
  String.ofList (List.replicate (16 - digits.length) '0' ++ digits)

theorem mem_toDigits {n : Nat} {c : Char} (h : c ∈ Nat.toDigits 16 n) :
    ∃ d < 16, c = d.digitChar := by
  induction n using Nat.strongRecOn with
  | ind n ih =>
    rw [Nat.toDigits_eq_if (by decide)] at h
    split at h
    · next hn => exact ⟨n, hn, List.mem_singleton.1 h⟩
    · next hn =>
      rcases List.mem_append.1 h with h | h
      · exact ih (n / 16) (by omega) h
      · exact ⟨n % 16, Nat.mod_lt n (by decide), List.mem_singleton.1 h⟩

theorem mem_hex16 {n : UInt64} {c : Char} (h : c ∈ (hex16 n).toList) :
    ∃ d < 16, c = d.digitChar := by
  unfold hex16 at h
  rw [String.toList_ofList] at h
  rcases List.mem_append.1 h with h | h
  · exact ⟨0, by decide, List.eq_of_mem_replicate h⟩
  · exact mem_toDigits h

def criterionStableId (position : Nat) (criterion : String) : String :=
  "c" ++ toString position ++ "-" ++ hex16 (fnv1a64 (normalizeWs criterion).toUTF8.toList)

/-! ## Shapes -/

def isFanOutTemplate (st : Stage) : Bool :=
  !st.agent.isEmpty && eqIgnoreAsciiCase st.strategy "fan-out" && st.produces.isEmpty

def isProducer (st : Stage) : Bool := !st.produces.isEmpty

/-- The first stage of a shape, in the order of their names. -/
def firstStageNamed (stages : Stages) (shape : Stage → Bool) : Option String :=
  (stages.toList.find? fun s => shape s.2).map Prod.fst

/-- The review-only stage whose adjudicator gates the fan-out. -/
def critiqueGateName (stages : Stages) : Option String :=
  (firstStageNamed stages isProducer).bind fun producer =>
    (stages.toList.find? fun s =>
      s.2.agent.isEmpty && !s.2.adjudicator.isEmpty && s.2.needs.contains producer).map Prod.fst

/-! ## The baseline -/

def slugStep (slug : List Char) (c : Char) : List Char :=
  if c.isAlphanum then slug ++ [c.toLower]
  else if slug.getLast? = some '-' then slug
  else slug ++ ['-']

/-- The loop stops once the slug, its outer hyphens off, is 32 characters long. -/
def slugFrom (slug : List Char) : List Char → List Char
  | [] => slug
  | c :: cs =>
    if 32 ≤ (trimMatches (· == '-') (slugStep slug c)).length then slugStep slug c
    else slugFrom (slugStep slug c) cs

def unitSlug (n : Nat) (criterion : String) : String :=
  match trimMatches (· == '-') (slugFrom [] criterion.toList) with
  | [] => "unit-" ++ toString n
  | slug => "unit-" ++ toString n ++ "-" ++ String.ofList slug

/-- The unit the template expands into for the criterion at `position`. -/
def baselineUnit (template : Stage) (needs : List String) (position : Nat) (criterion : String) :
    Stage :=
  { Stage.default with
    name := unitSlug position criterion
    agent := template.agent
    gates := template.gates
    onPass := template.onPass
    partition := template.partition
    needs := needs
    coverage := criterion
    baseline := true
    criterionId := criterionStableId position criterion }

def baselineUnits (template : Stage) (criteria : List String) (producer : Option String) :
    List (String × Stage) :=
  let needs :=
    match producer with
    | some p => if template.needs.contains p then template.needs else template.needs ++ [p]
    | none => template.needs
  criteria.mapIdx fun i criterion =>
    (unitSlug (i + 1) criterion, baselineUnit template needs (i + 1) criterion)

/-! ## Readiness -/

/-- The criteria each consumed template expanded into. -/
abbrev FanoutCriteria := List (String × List String)

def needSatisfied (need : String) (stages : Stages) (integrated : Finset String)
    (fanoutCriteria : FanoutCriteria) : Bool :=
  match fanoutCriteria.lookup need with
  | some criteria => criteria.all fun criterionId =>
      (stages.toList.filter fun s => s.2.criterionId == criterionId).all fun s =>
        decide (s.1 ∈ integrated)
  | none => decide (need ∈ integrated)

/-- In the order of their names, which is the order of the map. -/
def readyStages (stages : Stages) (integrated terminal : Finset String)
    (fanoutCriteria : FanoutCriteria) : List String :=
  (stages.toList.filter fun s => decide (s.1 ∉ terminal) &&
    s.2.needs.all fun need => needSatisfied need stages integrated fanoutCriteria).map Prod.fst

def waveReady (stages : Stages) (integrated terminal : Finset String)
    (critiqueGate : Option String) (fanoutCriteria : FanoutCriteria) : List String :=
  (readyStages stages integrated terminal fanoutCriteria).filter fun n => critiqueGate != some n

section
variable {stages : Stages} {integrated integrated' terminal terminal' : Finset String}
  {critiqueGate : Option String} {fanoutCriteria : FanoutCriteria}

theorem needSatisfied_mono (h : integrated ⊆ integrated') {need : String}
    (hneed : needSatisfied need stages integrated fanoutCriteria = true) :
    needSatisfied need stages integrated' fanoutCriteria = true := by
  unfold needSatisfied at hneed ⊢
  cases hlookup : fanoutCriteria.lookup need with
  | none =>
    rw [hlookup] at hneed
    exact decide_eq_true (h (of_decide_eq_true hneed))
  | some criteria =>
    rw [hlookup] at hneed
    simp only [List.all_eq_true, decide_eq_true_eq] at hneed ⊢
    exact fun c hc s hs => h (hneed c hc s hs)

theorem mem_waveReady {name : String} :
    name ∈ waveReady stages integrated terminal critiqueGate fanoutCriteria ↔
      (∃ st, stages[name]? = some st ∧
        ∀ need ∈ st.needs, needSatisfied need stages integrated fanoutCriteria = true) ∧
      name ∉ terminal ∧ critiqueGate ≠ some name := by
  unfold waveReady readyStages
  rw [List.mem_filter, List.mem_map]
  constructor
  · rintro ⟨⟨s, hs, rfl⟩, hgate⟩
    rw [List.mem_filter, Bool.and_eq_true, decide_eq_true_eq, List.all_eq_true] at hs
    refine ⟨⟨s.2, ?_, hs.2.2⟩, hs.2.1, by simpa using hgate⟩
    exact Std.ExtTreeMap.mem_toList_iff_getElem?_eq_some.1 hs.1
  · rintro ⟨⟨st, hst, hneeds⟩, hterminal, hgate⟩
    refine ⟨⟨(name, st), ?_, rfl⟩, by simpa using hgate⟩
    rw [List.mem_filter, Bool.and_eq_true, decide_eq_true_eq, List.all_eq_true]
    exact ⟨Std.ExtTreeMap.mem_toList_iff_getElem?_eq_some.2 hst, hterminal, hneeds⟩

theorem nodup_waveReady :
    (waveReady stages integrated terminal critiqueGate fanoutCriteria).Nodup := by
  refine List.Nodup.filter _ ?_
  have hkeys : (stages.toList.map Prod.fst).Nodup := by
    rw [Std.ExtTreeMap.map_fst_toList_eq_keys]
    exact Std.ExtTreeMap.nodup_keys
  exact hkeys.sublist (List.filter_sublist.map _)

theorem waveReady_mono (h : integrated ⊆ integrated') {name : String}
    (hname : name ∈ waveReady stages integrated terminal critiqueGate fanoutCriteria)
    (hterminal : name ∉ terminal') :
    name ∈ waveReady stages integrated' terminal' critiqueGate fanoutCriteria := by
  obtain ⟨⟨st, hst, hneeds⟩, -, hgate⟩ := mem_waveReady.1 hname
  exact mem_waveReady.2
    ⟨⟨st, hst, fun need hneed => needSatisfied_mono h (hneeds need hneed)⟩, hterminal, hgate⟩

end

end Rigger.Conductor
