import Rigger.Domain.Ledger
import Rigger.Domain.Spawn

/-!
# The run's hold (`rigger-domain/src/agent.rs`, `ledger.rs`, `run/read.rs`)

A run is held while a `RunHeld` has no later `RunReleased`.  Every writer of a hold folds the hold
events it reads into the state it carries; folding a tail of the log twice leaves what folding it
once does (`holdFold_again`).
-/

namespace Rigger

open Lib

/-! ## What a failure does to the run -/

inductive AgentFailure where
  | rateLimit
  | overloaded
  | serverError
  | authenticationFailed
  | oauthOrgNotAllowed
  | cloudCredentialError
  | billingError
  | accountOnHold
  | verificationRequired
  | modelNotFound
  | invalidRequest
  | maxOutputTokens
  | unknown
deriving DecidableEq

inductive Disposition where
  | hold
  | wait
  | fault
deriving DecidableEq

structure DispositionRow where
  disposition : Disposition
  action : String
  needsPerson : Bool
  credential : Bool
deriving DecidableEq

def DispositionRow.waits (r : DispositionRow) : Bool := r.disposition ≠ .fault

def apiUnstable : String := "api-unstable"
def operator : String := "operator"
def retriesByItself : String := "none, the run retries by itself"

def holdsFor (action : String) : DispositionRow := ⟨.hold, action, true, false⟩

namespace AgentFailure

def categories : List AgentFailure :=
  [rateLimit, overloaded, serverError, authenticationFailed, oauthOrgNotAllowed,
    cloudCredentialError, billingError, accountOnHold, verificationRequired, modelNotFound,
    invalidRequest, maxOutputTokens, unknown]

def asStr : AgentFailure → String
  | rateLimit => "rate_limit"
  | overloaded => "overloaded"
  | serverError => "server_error"
  | authenticationFailed => "authentication_failed"
  | oauthOrgNotAllowed => "oauth_org_not_allowed"
  | cloudCredentialError => "cloud_credential_error"
  | billingError => "billing_error"
  | accountOnHold => "account_on_hold"
  | verificationRequired => "verification_required"
  | modelNotFound => "model_not_found"
  | invalidRequest => "invalid_request"
  | maxOutputTokens => "max_output_tokens"
  | unknown => "unknown"

/-- A category this binary does not know is `unknown`. -/
def fromCategory (category : String) : AgentFailure :=
  (categories.find? fun c => c.asStr == category).getD unknown

/-- The disposition table. -/
def row : AgentFailure → DispositionRow
  | authenticationFailed | oauthOrgNotAllowed =>
    { holdsFor "run claude auth login" with credential := true }
  | cloudCredentialError => holdsFor "refresh the cloud provider's credentials"
  | billingError => holdsFor "fix the account's billing"
  | accountOnHold => holdsFor "resolve the account's hold"
  | verificationRequired => holdsFor "complete the account's verification"
  | modelNotFound => holdsFor ("fix the agent's configured model, restart rigger run with " ++
      "--rebase-definition, then run rigger release")
  | rateLimit | overloaded | serverError => ⟨.wait, retriesByItself, false, false⟩
  | invalidRequest | maxOutputTokens | unknown => ⟨.fault, "", false, false⟩

end AgentFailure

def causeRow (cause : String) : DispositionRow :=
  if cause = apiUnstable then ⟨.hold, retriesByItself, false, false⟩
  else if cause = operator then holdsFor ""
  else (AgentFailure.fromCategory cause).row

/-! ## Bodies -/

def holdByHost : String := "host"
def holdByProbe : String := "probe"

/-- `held_by`. -/
def heldBy (cause detail holder model : String) : RunHeld :=
  let row := causeRow cause
  ⟨cause, detail, row.action, row.needsPerson, holder, model⟩

def RunHeld.encode (h : RunHeld) : Json :=
  .obj [("cause", .str h.cause), ("detail", .str h.detail), ("action", .str h.action),
    ("needs_person", .bool h.needsPerson), ("by", .str h.by_), ("model", .str h.model)]

/-- The whole seconds from `since` to `now`, 0 for a clock that went backwards. -/
def heldForS (since now : SystemTime) : Int := if since ≤ now then (now - since) / 1000000000 else 0

namespace Ledger

/-- Whether a `RunHeld` of a host or a probe says anything to the open hold. -/
def Hold.movedBy (open_ : Option Hold) (body : RunHeld) : Bool :=
  open_.all fun hold => !hold.operator && body.needsPerson && hold.latest.cause ≠ body.cause

/-! ## The fold -/

def holdTypes : List String := [typeRunStarted, typeRunHeld, typeRunReleased]

def isHoldEvent (e : Event) : Bool := holdTypes.contains e.type_

/-- `fold_holds`: the hold events folded into a state; none where one does not decode. -/
def foldHolds (state : RunState) (events : List Event) : Option RunState :=
  (events.filter isHoldEvent).foldlM RunState.apply state

/-- What one event makes of the open hold. -/
def holdStep (hold : Option Hold) (e : Event) : Option (Option Hold) :=
  if e.type_ = typeRunStarted then (RunStartedFold.decode e.data).map fun _ => hold
  else if e.type_ = typeRunHeld then (Hold.onHeld hold e).map some
  else if e.type_ = typeRunReleased then some none
  else some hold

def holdFold (hold : Option Hold) (events : List Event) : Option (Option Hold) :=
  events.foldlM holdStep hold

theorem apply_hold {s : RunState} {e : Event} (h : isHoldEvent e = true) :
    (s.apply e).map RunState.hold = holdStep s.hold e := by
  unfold RunState.apply holdStep
  by_cases hstarted : e.type_ = typeRunStarted
  · rw [if_pos hstarted, if_pos hstarted, Option.map_map]
    rfl
  · rw [if_neg hstarted, if_neg hstarted]
    by_cases hheld : e.type_ = typeRunHeld
    · rw [if_pos hheld, if_pos hheld, Option.map_map]
      rfl
    · rw [if_neg hheld, if_neg hheld]
      have hreleased : e.type_ = typeRunReleased := by
        simpa [isHoldEvent, holdTypes, hstarted, hheld] using h
      rw [if_pos hreleased, if_pos hreleased]
      rfl

theorem holdStep_of_not {hold : Option Hold} {e : Event} (h : isHoldEvent e = false) :
    holdStep hold e = some hold := by
  have hne : e.type_ ≠ typeRunStarted ∧ e.type_ ≠ typeRunHeld ∧ e.type_ ≠ typeRunReleased := by
    simpa [isHoldEvent, holdTypes] using h
  unfold holdStep
  rw [if_neg hne.1, if_neg hne.2.1, if_neg hne.2.2]

theorem holdFold_cons (hold : Option Hold) (e : Event) (events : List Event) :
    holdFold hold (e :: events) = (holdStep hold e).bind fun hold => holdFold hold events := rfl

theorem holdFold_append (hold : Option Hold) (a b : List Event) :
    holdFold hold (a ++ b) = (holdFold hold a).bind fun hold => holdFold hold b := by
  unfold holdFold
  rw [List.foldlM_append]
  rfl

theorem foldHolds_hold (s : RunState) (events : List Event) :
    (foldHolds s events).map RunState.hold = holdFold s.hold events := by
  unfold foldHolds
  induction events generalizing s with
  | nil => rfl
  | cons e events ih =>
    rw [holdFold_cons]
    cases he : isHoldEvent e with
    | false =>
      rw [List.filter_cons_of_neg (by simp [he]), holdStep_of_not he, ih]
      rfl
    | true =>
      rw [List.filter_cons_of_pos he, List.foldlM_cons, ← apply_hold he]
      cases s.apply e with
      | none => rfl
      | some s' => exact ih s'

theorem holdFold_filter {keep : Event → Bool} (hkeep : ∀ e, isHoldEvent e = true → keep e = true)
    (hold : Option Hold) (events : List Event) :
    holdFold hold (events.filter keep) = holdFold hold events := by
  induction events generalizing hold with
  | nil => rfl
  | cons e events ih =>
    rw [holdFold_cons]
    cases hk : keep e with
    | true =>
      rw [List.filter_cons_of_pos hk, holdFold_cons]
      exact congrArg _ (funext fun hold => ih hold)
    | false =>
      have hnot : isHoldEvent e = false := by
        rw [← Bool.not_eq_true]
        intro he
        rw [hkeep e he] at hk
        cases hk
      rw [List.filter_cons_of_neg (by simp [hk]), holdStep_of_not hnot, ih]
      rfl

/-- What an event does to a hold: its body fails the fold, or it leaves the hold, ends it or is its
latest `RunHeld`. -/
theorem holdStep_cases (e : Event) : (∀ hold, holdStep hold e = none) ∨
    (∀ hold, holdStep hold e = some hold) ∨ (∀ hold, holdStep hold e = some none) ∨
    ∃ latest, ∀ hold, holdStep hold e = some (some ⟨(hold.map Hold.since).getD e.validFrom,
      (hold.map Hold.operator).getD false || latest.by_ == holdByOperator, latest,
      e.revision⟩) := by
  unfold holdStep Hold.onHeld
  by_cases hstarted : e.type_ = typeRunStarted
  · simp only [if_pos hstarted]
    cases RunStartedFold.decode e.data with
    | none => exact Or.inl fun _ => rfl
    | some _ => exact Or.inr (Or.inl fun _ => rfl)
  · simp only [if_neg hstarted]
    by_cases hheld : e.type_ = typeRunHeld
    · simp only [if_pos hheld]
      cases RunHeld.decode e.data with
      | none => exact Or.inl fun _ => rfl
      | some latest => exact Or.inr (Or.inr (Or.inr ⟨latest, fun _ => rfl⟩))
    · simp only [if_neg hheld]
      by_cases hreleased : e.type_ = typeRunReleased
      · exact Or.inr (Or.inr (Or.inl fun _ => if_pos hreleased))
      · exact Or.inr (Or.inl fun _ => if_neg hreleased)

/-- What a list of events does to a hold: it fails, or leaves the hold, or answers one whatever
stood before, or adds its `RunHeld`s to it. -/
theorem holdFold_cases (events : List Event) : (∀ hold, holdFold hold events = none) ∨
    (∀ hold, holdFold hold events = some hold) ∨ (∃ r, ∀ hold, holdFold hold events = some r) ∨
    ∃ since op latest revision, ∀ hold, holdFold hold events =
      some (some ⟨(hold.map Hold.since).getD since, (hold.map Hold.operator).getD false || op,
        latest, revision⟩) := by
  induction events using List.reverseRecOn with
  | nil => exact Or.inr (Or.inl fun _ => rfl)
  | append_singleton events e ih =>
    have hone : ∀ hold, holdFold hold (events ++ [e]) =
        (holdFold hold events).bind fun hold => holdStep hold e := by
      intro hold
      rw [holdFold_append]
      refine congrArg _ (funext fun hold => ?_)
      rw [holdFold_cons]
      cases holdStep hold e <;> rfl
    simp only [hone]
    rcases ih with hfails | hleaves | ⟨r, hconst⟩ | ⟨since, op, latest, revision, hadds⟩
    · exact Or.inl fun hold => by rw [hfails]; rfl
    · simp only [hleaves, Option.bind_some]
      rcases holdStep_cases e with h | h | h | ⟨latest, h⟩
      · exact Or.inl h
      · exact Or.inr (Or.inl h)
      · exact Or.inr (Or.inr (Or.inl ⟨none, h⟩))
      · exact Or.inr (Or.inr (Or.inr ⟨_, _, latest, _, h⟩))
    · simp only [hconst, Option.bind_some]
      cases hr : holdStep r e with
      | none => exact Or.inl fun _ => rfl
      | some r' => exact Or.inr (Or.inr (Or.inl ⟨r', fun _ => rfl⟩))
    · simp only [hadds, Option.bind_some]
      rcases holdStep_cases e with h | h | h | ⟨latest', h⟩
      · exact Or.inl fun _ => h _
      · exact Or.inr (Or.inr (Or.inr ⟨since, op, latest, revision, fun _ => h _⟩))
      · exact Or.inr (Or.inr (Or.inl ⟨none, fun _ => h _⟩))
      · refine Or.inr
          (Or.inr (Or.inr ⟨since, op || latest'.by_ == holdByOperator, latest', e.revision,
          fun hold => (h _).trans ?_⟩))
        rw [Option.map_some, Option.map_some, Option.getD_some, Option.getD_some, Bool.or_assoc]

theorem holdFold_again {hold r : Option Hold} {events : List Event}
    (h : holdFold hold events = some r) : holdFold r events = some r := by
  rcases holdFold_cases events with hfails | hleaves | ⟨r', hconst⟩ | ⟨since, op, latest,
    revision, hadds⟩
  · rw [hfails] at h
    cases h
  · exact hleaves r
  · rw [hconst] at h ⊢
    exact h
  · rw [hadds] at h ⊢
    cases h
    rw [Option.map_some, Option.map_some, Option.getD_some, Option.getD_some, Bool.or_assoc,
      Bool.or_self]

/-! ## The holds of a run -/

structure HoldRelease where
  at_ : SystemTime
  revision : Int
  heldForS : Option Nat

structure HoldSpan where
  hold : Option Hold
  since : SystemTime
  first : Int
  latestAt : SystemTime
  release : Option HoldRelease

/-- The `held_for_s` of a `RunReleased`, 0 where it is left out. -/
def releasedHeldForS (data : Data) : Option Nat := do
  let [holder, heldFor] ← (← data.value).slots ["by", "held_for_s"] | none
  let _ ← Json.orDefault Json.asStr "" holder
  Json.orDefault (Json.asUnsigned 64) 0 heldFor

/-- One event of `holds`: an open span takes it, or a `RunHeld` opens one. -/
def holdsStep (spans : List HoldSpan) (e : Event) : List HoldSpan :=
  match spans.getLast?.filter fun span => span.release.isNone with
  | some span =>
    if e.type_ = typeRunHeld then
      spans.dropLast ++ [{ span with
        hold := span.hold.bind fun hold => Hold.onHeld (some hold) e
        latestAt := e.validFrom }]
    else if e.type_ = typeRunReleased then
      spans.dropLast ++
        [{ span with release := some ⟨e.validFrom, e.revision, releasedHeldForS e.data⟩ }]
    else spans
  | none =>
    if e.type_ = typeRunHeld then
      spans ++ [⟨Hold.onHeld none e, e.validFrom, e.revision, e.validFrom, none⟩]
    else spans

/-- `holds`: a run's holds in log order. -/
def holds (events : List Event) : List HoldSpan := events.foldl holdsStep []

end Ledger

end Rigger
