import Rigger.Conductor.SpawnIds

/-!
# Review panels (`rigger-domain/src/{config,review}.rs`)

A panel declares its review steps as a list or by three keys.  `validate_steps` refuses one whose
steps name an agent twice or hold the separator of a step token, or whose adjudicator is not the
last step.  Each agent of a step spawns under the token of its step's kind and of the step's ordinal
among the steps of that kind.
-/

namespace Rigger.Config

open Lib Conductor
open Conductor.Attribution hiding ReadBack

/-! ## Refusals -/

/-- The first of the checks that refuses. -/
def refuse (checks : List (Option String)) : Except String Unit :=
  match checks.findSome? id with
  | some message => .error message
  | none => .ok ()

theorem refuse_eq_ok {checks : List (Option String)} :
    refuse checks = .ok () ↔ ∀ c ∈ checks, c = none := by
  have hiff : checks.findSome? id = none ↔ ∀ c ∈ checks, c = none := List.findSome?_eq_none_iff
  rw [← hiff, refuse]
  cases checks.findSome? id with
  | none => simp
  | some message => simp

/-- The first id that stands before in the list. -/
def repeated (seen : List String) : List String → Option String
  | [] => none
  | id :: ids => if id ∈ seen then some id else repeated (id :: seen) ids

theorem repeated_eq_none {seen ids : List String} :
    repeated seen ids = none ↔ ids.Nodup ∧ ∀ id ∈ ids, id ∉ seen := by
  induction ids generalizing seen with
  | nil => simp [repeated]
  | cons id ids ih =>
    unfold repeated
    split
    · next hid => simp [hid]
    · next hid =>
      rw [ih]
      simp only [List.mem_cons, not_or, List.nodup_cons, forall_eq_or_imp]
      grind

/-- `ids` in order, each id at its first position only. -/
def firstSeen (ids : List String) : List String := firsts id ids

/-! ## Steps -/

inductive ReviewStep where
  | lenses (ids : List String)
  | adversary (id : String)
  | adjudicator (id : String)
deriving DecidableEq

namespace ReviewStep

def agents : ReviewStep → List String
  | lenses ids => ids
  | adversary id | adjudicator id => [id]

def adjudicatorAgent : ReviewStep → Option String
  | adjudicator id => some id
  | lenses _ | adversary _ => none

def kind : ReviewStep → ReviewKind
  | lenses _ => .lens
  | adversary _ => .adversary
  | adjudicator _ => .adjudicator

def key : ReviewStep → String
  | lenses _ => "lenses"
  | adversary _ => "adversary"
  | adjudicator _ => "adjudicator"

end ReviewStep

structure ReviewStepDecl where
  lenses : List String
  adversary : String
  adjudicator : String

def keyedSteps (lenses : List String) (adversary adjudicator : String) : List ReviewStep :=
  (if lenses.isEmpty then [] else [.lenses lenses]) ++
    (if adversary.isEmpty then [] else [.adversary adversary]) ++
    (if adjudicator.isEmpty then [] else [.adjudicator adjudicator])

def ReviewStepDecl.steps (d : ReviewStepDecl) : List ReviewStep :=
  keyedSteps d.lenses d.adversary d.adjudicator

def adjudicatorPositions (steps : List ReviewStep) : List Nat :=
  (steps.zipIdx.filter fun x => x.1.adjudicatorAgent.isSome).map Prod.snd

def stepKeys : List String := (keyedSteps [""] "set" "set").map ReviewStep.key

def stepTokenSeparator : Char := '@'

/-- The error of an id that holds the separator. -/
def checkAgentId (debug : String → String) (id : String) : Option String :=
  if stepTokenSeparator ∈ id.toList then
    some ("names agent " ++ debug id ++
      ": an agent id never contains '@', the separator of a step token; rename the agent")
  else none

/-! ## Panels -/

/-- `light` is the light panel of its `tiers`. -/
inductive ReviewPanel where
  | mk (lenses : List String) (adversary adjudicator : String)
    (steps : Option (List ReviewStepDecl)) (light : Option ReviewPanel)

namespace ReviewPanel

def light : ReviewPanel → Option ReviewPanel
  | mk _ _ _ _ light => light

/-- The entries of the list, or none. -/
def entries : ReviewPanel → List ReviewStepDecl
  | mk _ _ _ steps _ => steps.getD []

def mapForm : ReviewPanel → List ReviewStep
  | mk lenses adversary adjudicator _ _ => keyedSteps lenses adversary adjudicator

def isList : ReviewPanel → Bool
  | mk _ _ _ steps _ => steps.isSome

def steps (p : ReviewPanel) : List ReviewStep :=
  if p.isList then p.entries.flatMap ReviewStepDecl.steps else p.mapForm

def hasAdjudicatorStep (p : ReviewPanel) : Bool := !(adjudicatorPositions p.steps).isEmpty

def fullRoster (p : ReviewPanel) : List String := firstSeen (p.steps.flatMap ReviewStep.agents)

def agentIds : ReviewPanel → List String
  | p@(mk _ _ _ _ none) => firstSeen p.fullRoster
  | p@(mk _ _ _ _ (some light)) => firstSeen (p.fullRoster ++ agentIds light)

section
variable (debug : String → String) (scope : String) (p : ReviewPanel)

def formCheck : Option String :=
  if p.isList ∧ p.mapForm ≠ [] then
    some (scope ++ " sets steps and " ++ ", ".intercalate (p.mapForm.map ReviewStep.key) ++
      ": a panel declares its steps as a list or as a map, never both")
  else none

def entryCheck (entry : ReviewStepDecl × Nat) : Option String :=
  if entry.1.steps.length ≠ 1 then
    some (scope ++ " steps[" ++ toString entry.2 ++ "] sets " ++ toString entry.1.steps.length ++
      " keys: an entry sets exactly one of " ++ ", ".intercalate stepKeys)
  else none

def stepLabel (step : ReviewStep × Nat) : String :=
  if p.isList then "steps[" ++ toString step.2 ++ "]" else step.1.key

def repeatedCheck (step : ReviewStep × Nat) : Option String :=
  (repeated [] step.1.agents).map fun id =>
    scope ++ " " ++ p.stepLabel step ++ " names agent " ++ debug id ++
      " twice: a lens step runs each agent once"

def stepCheck (step : ReviewStep × Nat) : List (Option String) :=
  p.repeatedCheck debug scope step :: step.1.agents.map fun id =>
    (checkAgentId debug id).map fun m => scope ++ " " ++ p.stepLabel step ++ " " ++ m

def adjudicatorCheck : Option String :=
  match adjudicatorPositions p.steps with
  | [] => none
  | [first] =>
    if first + 1 ≠ p.steps.length then
      some (scope ++ " steps[" ++ toString first ++
        "] is an adjudicator step with a step after it: the adjudicator step is the last step")
    else none
  | _ :: second :: _ =>
    some (scope ++ " steps[" ++ toString second ++
      "] is a second adjudicator step: a panel has at most one")

/-- The checks of the panel alone. -/
def ownChecks : List (Option String) :=
  p.formCheck scope :: p.entries.zipIdx.map (entryCheck scope) ++
    p.steps.zipIdx.flatMap (p.stepCheck debug scope) ++ [p.adjudicatorCheck scope]

end

def stepChecks (debug : String → String) (scope : String) : ReviewPanel → List (Option String)
  | p@(mk _ _ _ _ none) => p.ownChecks debug scope
  | p@(mk _ _ _ _ (some light)) =>
    p.ownChecks debug scope ++ stepChecks debug (scope ++ ".tiers.light") light

def validateSteps (debug : String → String) (p : ReviewPanel) : Except String Unit :=
  refuse (p.stepChecks debug "review")

/-- The panel and its light panels. -/
def panels : ReviewPanel → List ReviewPanel
  | p@(mk _ _ _ _ none) => [p]
  | p@(mk _ _ _ _ (some light)) => p :: panels light

def validateDepth (p : ReviewPanel) : Except String Unit :=
  match p.light with
  | none => .ok ()
  | some light =>
    if p.hasAdjudicatorStep = false then
      .error
        ("a review.tiers policy requires its enclosing (full) panel to name an adjudicator step " ++
        "(the gating verdict is mandatory on every review tier - a high-risk unit routes to the " ++
        "full panel, so an empty/adjudicator-less full panel would approve it with no verdict)")
    else if light.hasAdjudicatorStep = false then
      .error
        ("review.tiers.light must name an adjudicator step (the gating verdict is mandatory on " ++
        "every review tier - only the adversary flexes)")
    else .ok ()

end ReviewPanel

/-! ## Tokens -/

/-- `step_ordinal`: the sum of a release build keeps the low 32 bits. -/
def stepOrdinal (steps : List ReviewStep) (index : Nat) : Nat :=
  match steps[index]? with
  | none => 0
  | some step => (((steps.take index).filter fun s => s.kind = step.kind).length + 1) % 2 ^ 32

/-- The tokens of the agents of the step at `index`. -/
def stepTokens (mint : ReviewKind → String → Nat → String) (steps : List ReviewStep) (index : Nat) :
    List String :=
  match steps[index]? with
  | none => []
  | some step => step.agents.map fun agent => mint step.kind agent (stepOrdinal steps index)

def stepRoster (steps : List ReviewStep) (index : Nat) (mint : ReviewKind → String → Nat → String) :
    List String :=
  match steps[index]? with
  | some (.lenses _) => []
  | _ => (List.range (min index steps.length)).flatMap (stepTokens mint steps)

/-! ## What an accepted panel's steps are -/

namespace ReviewPanel

theorem ownChecks_of_mem (debug : String → String) (scope : String) (p : ReviewPanel)
    (h : ∀ c ∈ p.stepChecks debug scope, c = none) {q : ReviewPanel} (hq : q ∈ p.panels) :
    ∃ scope, ∀ c ∈ q.ownChecks debug scope, c = none := by
  match p with
  | mk _ _ _ _ none =>
    rw [panels, List.mem_singleton] at hq
    subst hq
    exact ⟨scope, h⟩
  | mk lenses adversary adjudicator steps (some light) =>
    rw [stepChecks] at h
    rw [panels, List.mem_cons] at hq
    rcases hq with rfl | hq
    · exact ⟨scope, fun c hc => h c (List.mem_append_left _ hc)⟩
    · exact ownChecks_of_mem debug (scope ++ ".tiers.light") light
        (fun c hc => h c (List.mem_append_right _ hc)) hq

end ReviewPanel

/-- What the checks leave of the steps of a panel. -/
structure Stepped (steps : List ReviewStep) : Prop where
  nodup : ∀ step ∈ steps, step.agents.Nodup
  separator : ∀ step ∈ steps, ∀ agent ∈ step.agents, '@' ∉ agent.toList
  spawns : ∀ step ∈ steps, step.agents ≠ []
  last : ∀ i id, steps[i]? = some (.adjudicator id) → i + 1 = steps.length

theorem agents_ne_nil_of_mem_keyedSteps {lenses : List String} {adversary adjudicator : String}
    {step : ReviewStep} (h : step ∈ keyedSteps lenses adversary adjudicator) :
    step.agents ≠ [] := by
  simp only [keyedSteps, List.mem_append, List.mem_ite_nil_left, List.mem_singleton] at h
  rcases h with (⟨hne, rfl⟩ | ⟨-, rfl⟩) | ⟨-, rfl⟩
  · show lenses ≠ []
    simpa using hne
  · exact List.cons_ne_nil _ _
  · exact List.cons_ne_nil _ _

theorem mem_adjudicatorPositions {steps : List ReviewStep} {i : Nat} :
    i ∈ adjudicatorPositions steps ↔ ∃ id, steps[i]? = some (.adjudicator id) := by
  simp only [adjudicatorPositions, List.mem_map, List.mem_filter, List.mem_zipIdx_iff_getElem?,
    Prod.exists, exists_eq_right]
  constructor
  · rintro ⟨step, hstep, hagent⟩
    cases step with
    | lenses ids => cases hagent
    | adversary id => cases hagent
    | adjudicator id => exact ⟨id, hstep⟩
  · rintro ⟨id, hid⟩
    exact ⟨.adjudicator id, hid, rfl⟩

theorem stepped_of_checks {debug : String → String} {scope : String} {p : ReviewPanel}
    (h : ∀ c ∈ p.ownChecks debug scope, c = none) : Stepped p.steps := by
  have hstep : ∀ x ∈ p.steps.zipIdx, ∀ c ∈ p.stepCheck debug scope x, c = none := by
    intro x hx c hc
    refine h c ?_
    rw [ReviewPanel.ownChecks, List.mem_append, List.mem_append]
    exact .inl (.inr (List.mem_flatMap.2 ⟨x, hx, hc⟩))
  have hindexed : ∀ step ∈ p.steps, ∃ i, (step, i) ∈ p.steps.zipIdx := by
    intro step hmem
    obtain ⟨i, hi⟩ := List.mem_iff_getElem?.1 hmem
    exact ⟨i, List.mem_zipIdx_iff_getElem?.2 hi⟩
  refine ⟨fun step hmem => ?_, fun step hmem agent hagent => ?_, fun step hmem => ?_, ?_⟩
  · obtain ⟨i, hi⟩ := hindexed step hmem
    have hnone := hstep _ hi _ List.mem_cons_self
    rw [ReviewPanel.repeatedCheck, Option.map_eq_none_iff] at hnone
    exact (repeated_eq_none.1 hnone).1
  · obtain ⟨i, hi⟩ := hindexed step hmem
    have hnone := hstep _ hi _ (List.mem_cons_of_mem _ (List.mem_map_of_mem hagent))
    rw [Option.map_eq_none_iff, checkAgentId] at hnone
    intro hat
    rw [if_pos (show stepTokenSeparator ∈ agent.toList from hat)] at hnone
    cases hnone
  · unfold ReviewPanel.steps at hmem
    split at hmem
    · obtain ⟨entry, -, hentry⟩ := List.mem_flatMap.1 hmem
      exact agents_ne_nil_of_mem_keyedSteps hentry
    · match p with
      | .mk lenses adversary adjudicator steps light => exact agents_ne_nil_of_mem_keyedSteps hmem
  · intro i id hi
    have hnone : p.adjudicatorCheck scope = none :=
      h _ (List.mem_append_right _ (List.mem_singleton.2 rfl))
    have hmem := mem_adjudicatorPositions.2 ⟨id, hi⟩
    unfold ReviewPanel.adjudicatorCheck at hnone
    split at hnone
    · next hnil =>
      rw [hnil] at hmem
      exact absurd hmem List.not_mem_nil
    · next first hone =>
      rw [hone, List.mem_singleton] at hmem
      subst hmem
      split at hnone
      · cases hnone
      · next hlast => exact Decidable.not_not.1 hlast
    · cases hnone

/-! ## Ordinals -/

/-- How many of the steps are of the kind. -/
def kindCount (steps : List ReviewStep) (kind : ReviewKind) : Nat :=
  (steps.filter fun s => s.kind = kind).length

section
variable {steps : List ReviewStep} {i j : Nat} {step : ReviewStep}

theorem stepOrdinal_eq (h : steps[i]? = some step) :
    stepOrdinal steps i = (kindCount (steps.take i) step.kind + 1) % 2 ^ 32 := by
  rw [stepOrdinal, h]
  rfl

theorem kindCount_take_succ (h : steps[i]? = some step) :
    kindCount (steps.take (i + 1)) step.kind = kindCount (steps.take i) step.kind + 1 := by
  rw [kindCount, List.take_add_one, h, List.filter_append, List.length_append]
  simp [kindCount]

theorem kindCount_take_mono (steps : List ReviewStep) (h : i ≤ j) (kind : ReviewKind) :
    kindCount (steps.take i) kind ≤ kindCount (steps.take j) kind :=
  ((List.take_sublist_take_left h).filter _).length_le

theorem kindCount_take_le (steps : List ReviewStep) (i : Nat) (kind : ReviewKind) :
    kindCount (steps.take i) kind ≤ kindCount steps kind :=
  ((List.take_sublist i steps).filter _).length_le

theorem kindCount_take_lt (h : steps[i]? = some step) :
    kindCount (steps.take i) step.kind < kindCount steps step.kind := by
  have hle := kindCount_take_le steps (i + 1) step.kind
  rw [kindCount_take_succ h] at hle
  exact hle

theorem exists_step_after {kind : ReviewKind} {n : Nat} (h : n < kindCount steps kind) :
    ∃ i step, steps[i]? = some step ∧ step.kind = kind ∧ kindCount (steps.take i) kind = n := by
  induction steps using List.reverseRecOn with
  | nil => cases h
  | append_singleton steps last ih =>
    by_cases hn : n < kindCount steps kind
    · obtain ⟨i, step, hi, hkind, hcount⟩ := ih hn
      have hlt := (List.getElem?_eq_some_iff.1 hi).1
      refine ⟨i, step, ?_, hkind, ?_⟩
      · rw [List.getElem?_append_left hlt, hi]
      · rw [List.take_append_of_le_length (Nat.le_of_lt hlt), hcount]
    · rw [kindCount, List.filter_append, List.length_append] at h
      have hlast : last.kind = kind := by
        by_contra hne
        simp [hne] at h
        exact hn h
      refine ⟨steps.length, last, List.getElem?_concat_length, hlast, ?_⟩
      rw [List.take_left']
      · have hone : (([last].filter fun s => s.kind = kind)).length ≤ 1 := List.length_filter_le _ _
        unfold kindCount at hn ⊢
        omega
      · rfl

variable (hfew : ∀ kind, kindCount steps kind < 2 ^ 32)
include hfew

theorem stepOrdinal_of_few (h : steps[i]? = some step) :
    stepOrdinal steps i = kindCount (steps.take i) step.kind + 1 ∧
    stepOrdinal steps i < 2 ^ 32 := by
  have hlt := kindCount_take_lt h
  have hkind := hfew step.kind
  rw [stepOrdinal_eq h, Nat.mod_eq_of_lt (by omega)]
  omega

theorem stepOrdinal_inj {other : ReviewStep} (hi : steps[i]? = some step)
    (hj : steps[j]? = some other) (hkind : step.kind = other.kind)
    (h : stepOrdinal steps i = stepOrdinal steps j) : i = j := by
  rw [(stepOrdinal_of_few hfew hi).1, (stepOrdinal_of_few hfew hj).1, ← hkind] at h
  have hsame : kindCount (steps.take i) step.kind = kindCount (steps.take j) step.kind := by omega
  rcases Nat.lt_trichotomy i j with hlt | heq | hlt
  · have hmono := kindCount_take_mono steps (Nat.succ_le_of_lt hlt) step.kind
    rw [kindCount_take_succ hi] at hmono
    omega
  · exact heq
  · have hmono := kindCount_take_mono steps (Nat.succ_le_of_lt hlt) step.kind
    rw [hkind, kindCount_take_succ hj, ← hkind] at hmono
    omega

end

/-! ## Tokens -/

/-- The token of each agent of the step at `index`, in order. -/
def tokensAt (steps : List ReviewStep) (index : Nat) : List String :=
  stepTokens reviewStepRole steps index

def tokens (steps : List ReviewStep) : List String :=
  (List.range steps.length).flatMap (tokensAt steps)

/-- What is read off the id of a spawn of `agent` at the step `index`. -/
structure ReadBack (steps : List ReviewStep) (index : Nat) (step : ReviewStep)
    (agent id unit : String)
    (attempt : Nat) : Prop where
  unit : unitOf id = some unit
  role : spawnRole id = reviewStepRole step.kind agent (stepOrdinal steps index)
  attempt : attemptOf id.toList = attempt
  lens : step.kind = .lens → lensAgentOf (spawnRole id) = some agent
  step : reviewStepOf (spawnRole id) = some (step.kind, stepOrdinal steps index)

/-- The tokens of a panel's steps are told apart and read back, each step's roster names those of
the steps before it, and only the last step's is the adjudicator's. -/
structure Legible (steps : List ReviewStep) : Prop where
  distinct : (tokens steps).Nodup
  readBack : ∀ index step, steps[index]? = some step → ∀ agent ∈ step.agents, ∀ unit,
    Separated unit → ∀ attempt < 2 ^ 32, ReadBack steps index step agent
      (spawnId unit (reviewStepRole step.kind agent (stepOrdinal steps index)) attempt) unit attempt
  roster : ∀ index ≤ steps.length, stepRoster steps index reviewStepRole =
    if steps[index]?.map ReviewStep.kind = some .lens then []
    else (List.range index).flatMap (tokensAt steps)
  adjudicator : ∀ index, "adjudicator" ∈ tokensAt steps index → index + 1 = steps.length

section
variable {steps : List ReviewStep} {index : Nat}

theorem mem_tokensAt {token : String} : token ∈ tokensAt steps index ↔
    ∃ step, steps[index]? = some step ∧ ∃ agent ∈ step.agents,
      reviewStepRole step.kind agent (stepOrdinal steps index) = token := by
  unfold tokensAt stepTokens
  cases hstep : steps[index]? with
  | none => simp
  | some step => simp

theorem stepRoster_eq (h : index ≤ steps.length) : stepRoster steps index reviewStepRole =
    if steps[index]?.map ReviewStep.kind = some .lens then []
    else (List.range index).flatMap (tokensAt steps) := by
  unfold stepRoster
  rw [Nat.min_eq_left h]
  cases steps[index]? with
  | none => rfl
  | some step =>
    cases step with
    | lenses ids => rfl
    | adversary id => rfl
    | adjudicator id => rfl

theorem separated_spawnRole (id : String) : Separated (spawnRole id) := by
  obtain ⟨role, hrole, hslash⟩ : ∃ role, ((rsplitOnce '/' id).map Prod.snd).getD id = role ∧
      '/' ∉ role.toList := by
    cases hcut : rsplitOnce '/' id with
    | none =>
      refine ⟨id, rfl, ?_⟩
      rw [rsplitOnce, Option.map_eq_none_iff, rsplitOnceList_eq_none_iff] at hcut
      exact hcut
    | some p => exact ⟨p.2, rfl, ((rsplitOnce_eq_some_iff '/' id p.1 p.2).1 hcut).2⟩
  have hall : ∀ c ∈ (spawnRole id).toList, c ∈ role.toList ∧ c ≠ '#' ∧ c ≠ '~' := by
    intro c hc
    simp only [spawnRole, hrole, String.toList_ofList] at hc
    have hkept := List.mem_takeWhile_imp (p := fun c => decide (c ≠ '#' ∧ c ≠ '~')) hc
    exact ⟨(List.takeWhile_sublist _).subset hc, of_decide_eq_true hkept⟩
  exact ⟨fun h => hslash (hall _ h).1, fun h => (hall _ h).2.1 rfl, fun h => (hall _ h).2.2 rfl⟩

theorem pos_of_reviewStepOf {role : String} {kind : ReviewKind} {k : Nat}
    (h : reviewStepOf role = some (kind, k)) : 1 ≤ k := by
  unfold reviewStepOf at h
  simp only [Option.bind_eq_bind, Option.bind_eq_some_iff, Prod.exists,
    Option.ite_none_right_eq_some, Option.some.injEq, Prod.mk.injEq] at h
  obtain ⟨token, k, htoken, -, -, -, -, rfl⟩ := h
  rcases role_of_stepToken htoken with ⟨rfl, -⟩ | ⟨hk, -⟩
  · exact Nat.le_refl 1
  · omega

variable (h : Stepped steps)
include h

theorem Stepped.adjudicator_first (hindex : index < steps.length) :
    kindCount (steps.take index) .adjudicator = 0 := by
  rw [kindCount, List.length_eq_zero_iff, List.filter_eq_nil_iff]
  intro other hother hsame
  obtain ⟨j, hj⟩ := List.mem_iff_getElem?.1 hother
  have hlt := (List.getElem?_eq_some_iff.1 hj).1
  rw [List.length_take] at hlt
  rw [List.getElem?_take_of_lt (by omega)] at hj
  cases other with
  | lenses ids => cases of_decide_eq_true hsame
  | adversary id => cases of_decide_eq_true hsame
  | adjudicator id =>
    have hlast := h.last j id hj
    omega

/-- Read back, the lenses' ids are free of an id's separators and no ordinal wraps. -/
theorem Stepped.of_legible (hlegible : Legible steps) :
    (∀ ids, .lenses ids ∈ steps → ∀ agent ∈ ids, Separated agent) ∧
      ∀ kind, kindCount steps kind < 2 ^ 32 := by
  have hunit : Separated "u" := ⟨by simp, by simp, by simp⟩
  refine ⟨fun ids hids agent hagent => ?_, fun kind => ?_⟩
  · obtain ⟨index, hindex⟩ := List.mem_iff_getElem?.1 hids
    have hread := hlegible.readBack index _ hindex agent hagent "u" hunit 0 (by decide)
    have hrole := separated_spawnRole (spawnId "u"
      (reviewStepRole .lens agent (stepOrdinal steps index)) 0)
    have hback := hread.role
    rw [show (ReviewStep.lenses ids).kind = .lens from rfl] at hback
    rw [hback, reviewStepRole_eq] at hrole
    have hsub : ∀ c ∈ agent.toList,
      c ∈ (if 2 ≤ stepOrdinal steps index ∧ ReviewKind.lens ≠ .adjudicator
        then kindToken .lens agent ++ "@" ++ toString (stepOrdinal steps index)
        else kindToken .lens agent).toList := by
      intro c hc
      have hlens : c ∈ (kindToken .lens agent).toList := by
        rw [kindToken, lensRole, String.toList_append]
        exact List.mem_append_right _ hc
      split
      · rw [String.toList_append, String.toList_append]
        exact List.mem_append_left _ (List.mem_append_left _ hlens)
      · exact hlens
    exact ⟨fun hc => hrole.slash (hsub _ hc), fun hc => hrole.attempt (hsub _ hc),
      fun hc => hrole.retry (hsub _ hc)⟩
  · by_contra hmany
    obtain ⟨index, step, hstep, rfl, hcount⟩ :=
      exists_step_after (n := 2 ^ 32 - 1) (lt_of_lt_of_le (by decide) (not_lt.1 hmany))
    obtain ⟨agent, hagent⟩ := List.exists_mem_of_ne_nil _
      (h.spawns step (List.mem_of_getElem? hstep))
    have hread := (hlegible.readBack index step hstep agent hagent "u" hunit 0 (by decide)).step
    have hpos := pos_of_reviewStepOf hread
    rw [stepOrdinal_eq hstep, hcount] at hpos
    exact absurd hpos (by decide)

variable (hfew : ∀ kind, kindCount steps kind < 2 ^ 32)
include hfew

variable {agent : String}

theorem Stepped.stepOf {step : ReviewStep} (hstep : steps[index]? = some step)
    (hagent : agent ∈ step.agents) :
    reviewStepOf (reviewStepRole step.kind agent (stepOrdinal steps index)) =
        some (step.kind, stepOrdinal steps index) ∧
      lensAgentOf (reviewStepRole step.kind agent (stepOrdinal steps index)) =
        if step.kind = .lens then some agent else none := by
  have hat := h.separator step (List.mem_of_getElem? hstep) agent hagent
  obtain ⟨heq, hlt⟩ := stepOrdinal_of_few hfew hstep
  refine ⟨?_, lensAgentOf_reviewStepRole step.kind hat (by omega) hlt⟩
  rw [reviewStepOf_reviewStepRole step.kind hat (by omega) hlt]
  split
  · next hkind =>
    rw [heq, hkind, h.adjudicator_first (List.getElem?_eq_some_iff.1 hstep).1]
  · rfl

theorem Stepped.token_inj {i j : Nat} {step other : ReviewStep} (hi : steps[i]? = some step)
    (hj : steps[j]? = some other) {agent' : String} (hagent : agent ∈ step.agents)
    (hagent' : agent' ∈ other.agents)
    (hsame : reviewStepRole step.kind agent (stepOrdinal steps i) =
      reviewStepRole other.kind agent' (stepOrdinal steps j)) : i = j ∧ agent = agent' := by
  obtain ⟨hstep, hlens⟩ := h.stepOf hfew hi hagent
  obtain ⟨hstep', hlens'⟩ := h.stepOf hfew hj hagent'
  rw [hsame, hstep', Option.some.injEq, Prod.mk.injEq] at hstep
  obtain ⟨hkind, hordinal⟩ := hstep
  obtain rfl := stepOrdinal_inj hfew hi hj hkind.symm hordinal.symm
  refine ⟨rfl, ?_⟩
  rw [hi, Option.some.injEq] at hj
  subst hj
  cases step with
  | lenses ids =>
    have hkind : (ReviewStep.lenses ids).kind = .lens := rfl
    rw [hsame, hlens', if_pos hkind, if_pos hkind, Option.some.injEq] at hlens
    exact hlens.symm
  | adversary id => rw [List.mem_singleton.1 hagent, List.mem_singleton.1 hagent']
  | adjudicator id => rw [List.mem_singleton.1 hagent, List.mem_singleton.1 hagent']

theorem Stepped.nodup_tokens : (tokens steps).Nodup := by
  refine List.nodup_flatMap.2 ⟨fun index _ => ?_, ?_⟩
  · unfold tokensAt stepTokens
    cases hstep : steps[index]? with
    | none => exact List.nodup_nil
    | some step =>
      refine List.Nodup.map_on ?_ (h.nodup step (List.mem_of_getElem? hstep))
      intro agent hagent agent' hagent' hsame
      exact (h.token_inj hfew hstep hstep hagent hagent' hsame).2
  · refine List.nodup_range.imp fun {i j} hne => ?_
    intro token hi hj
    obtain ⟨step, hstep, agent, hagent, rfl⟩ := mem_tokensAt.1 hi
    obtain ⟨other, hother, agent', hagent', hsame⟩ := mem_tokensAt.1 hj
    exact hne (h.token_inj hfew hstep hother hagent hagent' hsame.symm).1

theorem Stepped.last_adjudicator (hmem : "adjudicator" ∈ tokensAt steps index) :
    index + 1 = steps.length := by
  obtain ⟨step, hstep, agent, hagent, htoken⟩ := mem_tokensAt.1 hmem
  have hread := (h.stepOf hfew hstep hagent).1
  rw [htoken] at hread
  have hkind : reviewStepOf "adjudicator" = some (.adjudicator, 1) := by decide
  rw [hkind, Option.some.injEq, Prod.mk.injEq] at hread
  cases step with
  | lenses ids => cases hread.1
  | adversary id => cases hread.1
  | adjudicator id => exact h.last index id hstep

/-- Where the lenses' ids are free of an id's separators, each id is read back. -/
theorem Stepped.legible
    (hfree : ∀ ids, .lenses ids ∈ steps → ∀ agent ∈ ids, Separated agent) : Legible steps where
  distinct := h.nodup_tokens hfew
  readBack index step hstep agent hagent unit _ attempt hattempt := by
    have hplain : Separated "" := ⟨by simp, by simp, by simp⟩
    have hrole : Separated (reviewStepRole step.kind agent (stepOrdinal steps index)) := by
      have hmem := List.mem_of_getElem? hstep
      cases step with
      | lenses ids => exact separated_reviewStepRole .lens (hfree ids hmem agent hagent) _
      | adversary id => exact separated_reviewStepRole .adversary hplain _
      | adjudicator id => exact separated_reviewStepRole .adjudicator hplain 1
    obtain ⟨hread, hlens⟩ := h.stepOf hfew hstep hagent
    have hback : spawnRole (spawnId unit (reviewStepRole step.kind agent (stepOrdinal steps index))
        attempt) = reviewStepRole step.kind agent (stepOrdinal steps index) :=
      @spawnRole_spawnRetryId unit _ hrole attempt 0
    refine ⟨(unitOf_spawnRetryId unit _ attempt 0).2 hrole.slash, hback, ?_, fun hkind => ?_, ?_⟩
    · have hlist := toList_spawnRetryId unit
        (reviewStepRole step.kind agent (stepOrdinal steps index)) attempt 0
      rw [← List.cons_append, ← List.append_assoc] at hlist
      exact (congrArg attemptOf hlist).trans (attemptOf_tail _ hattempt 0)
    · rw [if_pos hkind] at hlens
      exact (congrArg lensAgentOf hback).trans hlens
    · exact (congrArg reviewStepOf hback).trans hread
  roster index hindex := stepRoster_eq hindex
  adjudicator index := h.last_adjudicator hfew

end

/-! ## Accepted panels -/

/-- An accepted panel's tokens and its light panels' are told apart and read back exactly where no
id of its lenses holds a separator of a spawn's id and no kind has as many steps as an ordinal
counts. -/
theorem legible_panels_iff (debug : String → String) (p : ReviewPanel)
    (hvalid : p.validateSteps debug = .ok ()) :
    (∀ q ∈ p.panels, Legible q.steps) ↔ ∀ q ∈ p.panels,
      (∀ ids, .lenses ids ∈ q.steps → ∀ agent ∈ ids, Separated agent) ∧
        ∀ kind, kindCount q.steps kind < 2 ^ 32 := by
  have hstepped : ∀ q ∈ p.panels, Stepped q.steps := by
    intro q hq
    obtain ⟨scope, hchecks⟩ := p.ownChecks_of_mem debug "review" (refuse_eq_ok.1 hvalid) hq
    exact stepped_of_checks hchecks
  constructor
  · intro h q hq
    exact (hstepped q hq).of_legible (h q hq)
  · intro h q hq
    exact (hstepped q hq).legible (h q hq).2 (h q hq).1

/-- An adjudicator alone. -/
def lightPanel : ReviewPanel := .mk [] "" "judge" none none

/-- Two lenses, an adversary and an adjudicator, and the light panel. -/
def tieredPanel (lens : String) : ReviewPanel :=
  .mk [lens, "sec"] "attacker" "judge" none (some lightPanel)

theorem legible_tieredPanel :
    Legible (tieredPanel "correctness").steps ∧ Legible lightPanel.steps := by
  have hvalid : (tieredPanel "correctness").validateSteps id = .ok () := by decide
  have hpanels : (tieredPanel "correctness").panels = [tieredPanel "correctness", lightPanel] := rfl
  have hlegible := (legible_panels_iff id _ hvalid).2
  rw [hpanels, List.forall_mem_cons, List.forall_mem_singleton, List.forall_mem_cons,
    List.forall_mem_singleton] at hlegible
  have hsteps : (tieredPanel "correctness").steps = [.lenses ["correctness", "sec"],
      .adversary "attacker", .adjudicator "judge"] := rfl
  have hlight : lightPanel.steps = [.adjudicator "judge"] := rfl
  have hfree : Separated "correctness" ∧ Separated "sec" :=
    ⟨⟨by simp, by simp, by simp⟩, ⟨by simp, by simp, by simp⟩⟩
  refine hlegible ⟨⟨fun ids hids agent hagent => ?_, fun kind => ?_⟩, fun ids hids => ?_,
    fun kind => ?_⟩
  · rw [hsteps] at hids
    simp only [List.mem_cons, ReviewStep.lenses.injEq, reduceCtorEq, List.not_mem_nil,
      or_false] at hids
    subst hids
    simp only [List.mem_cons, List.not_mem_nil, or_false] at hagent
    rcases hagent with rfl | rfl
    · exact hfree.1
    · exact hfree.2
  · cases kind <;> decide
  · rw [hlight] at hids
    simp at hids
  · cases kind <;> decide

/-- A lens whose id holds a slash is accepted, and its spawn's id is read as another unit's. -/
theorem slashed_lens_misread : ¬∀ p : ReviewPanel, p.validateSteps id = .ok () →
    ∀ q ∈ p.panels, Legible q.steps := by
  intro h
  have hlegible := h (tieredPanel "sec/auth") (by decide) _ (List.mem_cons_self)
  have hread := (hlegible.readBack 0 (.lenses ["sec/auth", "sec"]) rfl "sec/auth"
    List.mem_cons_self "u" ⟨by simp, by simp, by simp⟩ 1 (by decide)).unit
  revert hread
  decide

end Rigger.Config
