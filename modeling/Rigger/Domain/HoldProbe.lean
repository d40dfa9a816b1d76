import Rigger.Domain.HoldSpans
import Rigger.Lib.Unbroken

/-!
# The hold probe's delay (`rigger-domain/src/hold_probe.rs`, `progress.rs`)

The open hold is owed a probe after a delay that doubles with each probe of its chain, the holds
behind it that quick re-holds continued (`owedProbe_eq_some`).  The chain is the longest suffix of
the run's holds that `Continues` links, and neither a probe more nor a quick re-hold lowers the
delay, while no line names a revision between the release and the re-hold (`owedProbe_schedule`).
-/

namespace Rigger

open Lib

/-! ## Progress lines -/

def typeAgentProgress : String := "AgentProgress"

structure AgentProgress where
  id : String
  activity : String
  revision : Option Int

def AgentProgress.decode (data : Data) : Option AgentProgress := do
  let [id, activity, revision] ← (← data.value).slots ["id", "activity", "revision"] | none
  pure
    { id := ← Json.required Json.asStr id
      activity := ← Json.required Json.asStr activity
      revision := ← Json.orDefault (Json.asOption (Json.asSigned 63)) none revision }

def agentProgressEvents (progressEvents : List Event) : List Event :=
  progressEvents.filter fun e => e.type_ == typeAgentProgress

def decodedProgress (progressEvents : List Event) : List (Event × AgentProgress) :=
  (agentProgressEvents progressEvents).filterMap fun e =>
    (AgentProgress.decode e.data).map fun line => (e, line)

namespace HoldProbe

open Ledger

/-! ## Durations, in nanoseconds -/

def fromSecs (secs : Nat) : Nat := secs * 1000000000

/-- `Duration::MAX`. -/
def durationMax : Nat := fromSecs (2 ^ 64) - 1

/-- `since.duration_since(earlier).unwrap_or_default()`. -/
def durationSince (since earlier : SystemTime) : Nat := (since - earlier).toNat

/-- `1u32.checked_shl(n).unwrap_or(u32::MAX)`. -/
def shlOrMax (n : Nat) : Nat := if n < 32 then 2 ^ n else 2 ^ 32 - 1

def holdProbeId : String := "hold-probe"

def firstDelay : Nat := fromSecs 60

def maxDelay : Nat := fromSecs 900

def quickReHold : Nat := fromSecs 600

def delayAfter (probes : Nat) : Nat :=
  let doublings := min probes (2 ^ 32 - 1)
  let factor := shlOrMax doublings
  min (min (firstDelay * factor) durationMax) maxDelay

/-! ## The owed probe -/

structure OwedProbe where
  held : RunHeld
  revision : Int
  delay : Nat
  due : SystemTime

def isProbed (hold : Hold) : Bool :=
  !hold.operator && hold.latest.cause != AgentFailure.modelNotFound.asStr

/-- The walk back from the hold that started at `since`, over the holds behind it, latest first. -/
def chainBehind (since : SystemTime) : List (HoldSpan × Hold) → List (Int × Option Int)
  | [] => []
  | (span, hold) :: behind =>
    match span.release with
    | none => []
    | some release =>
      if hold.operator || durationSince since release.at_ > quickReHold then []
      else (span.first, some release.revision) :: chainBehind span.since behind

/-- Whether a line's revision lies in one of the chain's intervals. -/
def inChain (chain : List (Int × Option Int)) (revision : Int) : Bool :=
  chain.any fun c => c.1 ≤ revision && c.2.all fun release => revision < release

def owedProbe (runEvents progressEvents : List Event) (now : SystemTime) : Option OwedProbe := do
  let decoded ← (holds runEvents).mapM fun span => span.hold.map fun hold => (span, hold)
  let (open_, hold) ← decoded.getLast?
  let behind := decoded.dropLast
  if open_.release.isSome || !isProbed hold then none
  else
    let chain := (open_.first, none) :: chainBehind open_.since behind.reverse
    let probes := (decodedProgress progressEvents).filterMap fun p =>
      (p.2.revision.filter fun _ => p.2.id == holdProbeId).bind fun revision =>
        if inChain chain revision then some p.1.validFrom else none
    let delay := delayAfter probes.length
    let last := probes.foldl max open_.latestAt
    some
      { held := hold.latest
        revision := hold.revision
        delay := delay
        due := min (last + delay) (now + delay) }

/-! ## The delay -/

theorem delayAfter_eq (probes : Nat) :
    delayAfter probes = min (firstDelay * 2 ^ probes) maxDelay := by
  have hfirst : firstDelay = 60000000000 := rfl
  have hmax : durationMax = 18446744073709551615999999999 := rfl
  have hcap : maxDelay = 900000000000 := rfl
  unfold delayAfter shlOrMax
  dsimp only
  rw [hfirst, hmax, hcap]
  split
  · next hlt =>
    have heq : min probes (2 ^ 32 - 1) = probes := by omega
    have hle : 2 ^ probes ≤ 2 ^ 31 := Nat.pow_le_pow_right (by decide) (by omega)
    rw [heq]
    omega
  · next hge =>
    -- both are past the cap
    have hle : 2 ^ 32 ≤ 2 ^ probes := Nat.pow_le_pow_right (by decide) (by omega)
    omega

theorem delayAfter_mono {m n : Nat} (h : m ≤ n) : delayAfter m ≤ delayAfter n := by
  rw [delayAfter_eq, delayAfter_eq]
  have hpow : firstDelay * 2 ^ m ≤ firstDelay * 2 ^ n :=
    Nat.mul_le_mul_left _ (Nat.pow_le_pow_right (by decide) h)
  omega

theorem delayAfter_bounds (n : Nat) : firstDelay ≤ delayAfter n ∧ delayAfter n ≤ maxDelay := by
  have hzero : delayAfter 0 = firstDelay := by decide
  refine ⟨hzero ▸ delayAfter_mono (Nat.zero_le n), ?_⟩
  rw [delayAfter_eq]
  exact Nat.min_le_right _ _

/-! ## The chain -/

/-- A hold the next one continued: not an operator's, and released at most 600 s before the next
started. -/
def Continues (span next : HoldSpan) : Prop :=
  (∃ hold ∈ span.hold, hold.operator = false) ∧
    ∃ release ∈ span.release, next.since ≤ release.at_ + quickReHold

instance : DecidableRel Continues := fun span next => by
  unfold Continues
  infer_instance

def interval (span : HoldSpan) : Int × Option Int :=
    (span.first, span.release.map HoldRelease.revision)

theorem durationSince_le {since at_ : Int} :
    durationSince since at_ ≤ quickReHold ↔ since ≤ at_ + quickReHold := by
  unfold durationSince
  omega

theorem decoded_iff {spans : List HoldSpan} {decoded : List (HoldSpan × Hold)} :
    spans.mapM (fun span => span.hold.map fun hold => (span, hold)) = some decoded ↔
      spans = decoded.map Prod.fst ∧ ∀ p ∈ decoded, p.1.hold = some p.2 := by
  rw [mapM_eq_some_iff]
  induction decoded generalizing spans with
  | nil => simp
  | cons p decoded ih =>
    cases spans with
    | nil => simp
    | cons span spans =>
      rw [List.map_cons, List.map_cons, List.map_cons, List.cons.injEq, List.cons.injEq, ih,
        List.forall_mem_cons, Option.map_eq_some_iff]
      constructor
      · rintro ⟨⟨hold, hspan, rfl⟩, hrest⟩
        exact ⟨⟨rfl, hrest.1⟩, hspan, hrest.2⟩
      · rintro ⟨⟨rfl, hspans⟩, hp, hrest⟩
        exact ⟨⟨p.2, hp, rfl⟩, hspans, hrest⟩

theorem chainBehind_eq {behind : List (HoldSpan × Hold)} (h : ∀ p ∈ behind, p.1.hold = some p.2)
    (span : HoldSpan) : chainBehind span.since behind =
      (unbroken Continues span (behind.map Prod.fst)).map interval := by
  induction behind generalizing span with
  | nil => rfl
  | cons p behind ih =>
    obtain ⟨before, hold⟩ := p
    rw [List.forall_mem_cons] at h
    have hhold : before.hold = some hold := h.1
    have hcontinues : Continues before span ↔ hold.operator = false ∧
        ∃ release ∈ before.release, durationSince span.since release.at_ ≤ quickReHold := by
      simp only [Continues, hhold, durationSince_le, Option.mem_some_iff, exists_eq_left']
    rw [List.map_cons, unbroken, chainBehind]
    cases hrelease : before.release with
    | none =>
      rw [if_neg]
      · rfl
      · rw [hcontinues, hrelease]
        rintro ⟨-, release, hmem, -⟩
        cases hmem
    | some release =>
      have hiff : Continues before span ↔
          ¬(hold.operator || durationSince span.since release.at_ > quickReHold) = true := by
        rw [hcontinues, hrelease]
        simp
      dsimp only
      split
      · next hbreak =>
        rw [if_neg (fun hcont => hiff.1 hcont hbreak)]
        rfl
      · next hjoin =>
        rw [if_pos (hiff.2 hjoin), List.map_cons, ih h.2 before, interval, hrelease]
        rfl

/-! ## The probes of a chain -/

/-- The revision each hold-probe line names, and when it was written. -/
def stamps (progressEvents : List Event) : List (Int × SystemTime) :=
  (decodedProgress progressEvents).filterMap fun p =>
    (p.2.revision.filter fun _ => p.2.id == holdProbeId).map fun revision =>
      (revision, p.1.validFrom)

/-- A revision of the hold's: at its first `RunHeld` or later, and before its release. -/
def Covers (span : HoldSpan) (revision : Int) : Prop :=
  span.first ≤ revision ∧ ∀ release ∈ span.release, revision < release.revision

instance (span : HoldSpan) (revision : Int) : Decidable (Covers span revision) := by
  unfold Covers
  infer_instance

/-- When the probes of a chain were made. -/
def probesOf (chain : List HoldSpan) (progressEvents : List Event) : List SystemTime :=
  ((stamps progressEvents).filter fun stamp => chain.any fun span =>
    Covers span stamp.1).map Prod.snd

def owedFor (probes : List SystemTime) (latestAt : SystemTime) (hold : Hold) (now : SystemTime) :
    OwedProbe where
  held := hold.latest
  revision := hold.revision
  delay := delayAfter probes.length
  due := min (probes.foldl max latestAt + delayAfter probes.length) (now + delayAfter probes.length)

theorem inChain_interval (chain : List HoldSpan) (revision : Int) :
    inChain (chain.map interval) revision = chain.any fun span => Covers span revision := by
  rw [inChain, List.any_map]
  congr 1
  funext span
  rw [Bool.eq_iff_iff]
  cases hrelease : span.release <;> simp [interval, Covers, hrelease]

theorem probes_eq (chain : List HoldSpan) (progressEvents : List Event) :
    ((decodedProgress progressEvents).filterMap fun p =>
      (p.2.revision.filter fun _ => p.2.id == holdProbeId).bind fun revision =>
        if inChain (chain.map interval) revision then some p.1.validFrom else none) =
      probesOf chain progressEvents := by
  rw [probesOf, stamps, List.filter_filterMap, List.map_filterMap]
  congr 1
  funext p
  simp only [inChain_interval]
  cases p.2.revision.filter fun _ => p.2.id == holdProbeId with
  | none => rfl
  | some revision =>
    rw [Option.bind_some, Option.map_some, Option.filter_some, apply_ite (Option.map Prod.snd)]
    rfl

theorem unbrokenTo_any (behind : List HoldSpan) (span : HoldSpan) (p : HoldSpan → Bool) :
    (unbrokenTo Continues behind span).any p =
      (span :: unbroken Continues span behind.reverse).any p := by
  rw [unbrokenTo, ← List.reverse_cons, List.any_reverse]

variable {span : HoldSpan} {behind : List HoldSpan} {hold : Hold}

theorem owedProbe_concat {run progress : List Event} {now : SystemTime}
    {behind : List (HoldSpan × Hold)} (hholds : holds run = behind.map Prod.fst ++ [span])
    (hbehind : ∀ p ∈ behind, p.1.hold = some p.2) (hhold : span.hold = some hold) :
    owedProbe run progress now = if span.release.isSome || !isProbed hold then none
      else some (owedFor (probesOf (unbrokenTo Continues (behind.map Prod.fst) span) progress)
        span.latestAt hold now) := by
  have hdecoded : (holds run).mapM (fun span => span.hold.map fun hold => (span, hold)) =
      some (behind ++ [(span, hold)]) := by
    rw [decoded_iff, hholds, List.map_append]
    refine ⟨rfl, fun p hp => ?_⟩
    rcases List.mem_append.1 hp with hp | hp
    · exact hbehind p hp
    · rw [List.mem_singleton.1 hp]
      exact hhold
  unfold owedProbe
  rw [hdecoded]
  simp only [Option.bind_eq_bind, Option.bind_some, List.getLast?_concat, List.dropLast_concat]
  split
  · rfl
  · next hopen =>
    have hrelease : span.release = none := by
      rw [Bool.or_eq_true, not_or, Option.not_isSome_iff_eq_none] at hopen
      exact hopen.1
    have hchain : (span.first, none) :: chainBehind span.since behind.reverse =
        (span :: unbroken Continues span (behind.map Prod.fst).reverse).map interval := by
      rw [chainBehind_eq (fun p hp => hbehind p (List.mem_reverse.1 hp)), List.map_cons, interval,
        hrelease, List.map_reverse]
      rfl
    have hprobes :=
      probes_eq (span :: unbroken Continues span (behind.map Prod.fst).reverse) progress
    have hsame : probesOf (span :: unbroken Continues span (behind.map Prod.fst).reverse) progress =
        probesOf (unbrokenTo Continues (behind.map Prod.fst) span) progress := by
      simp only [probesOf, unbrokenTo_any]
    rw [hchain, hprobes, hsame]
    rfl

theorem owedProbe_eq_some {run progress : List Event} {now : SystemTime} {owed : OwedProbe} :
    owedProbe run progress now = some owed ↔ ∃ (behind : List (HoldSpan × Hold)) (span : HoldSpan)
      (hold : Hold), holds run = behind.map Prod.fst ++ [span] ∧
      (∀ p ∈ behind, p.1.hold = some p.2) ∧
        span.hold = some hold ∧ span.release = none ∧ isProbed hold = true ∧
          owed = owedFor (probesOf (unbrokenTo Continues (behind.map Prod.fst) span) progress)
            span.latestAt hold now := by
  constructor
  · intro h
    have hdecoded : ∃ decoded, (holds run).mapM
        (fun span => span.hold.map fun hold => (span, hold)) = some decoded ∧ decoded ≠ [] := by
      unfold owedProbe at h
      obtain ⟨decoded, hdecoded, hlast⟩ := Option.bind_eq_some_iff.1 h
      obtain ⟨last, hlast, -⟩ := Option.bind_eq_some_iff.1 hlast
      exact ⟨decoded, hdecoded, fun hnil => by rw [hnil] at hlast; cases hlast⟩
    obtain ⟨decoded, hdecoded, hne⟩ := hdecoded
    obtain ⟨hholds, hdecoded⟩ := decoded_iff.1 hdecoded
    rcases List.eq_nil_or_concat' decoded with rfl | ⟨behind, ⟨span, hold⟩, rfl⟩
    · exact absurd rfl hne
    · rw [List.map_append] at hholds
      have hbehind : ∀ p ∈ behind, p.1.hold = some p.2 := fun p hp => hdecoded p (by simp [hp])
      have hhold : span.hold = some hold := hdecoded (span, hold) (by simp)
      rw [owedProbe_concat hholds hbehind hhold] at h
      split at h
      · cases h
      · next hopen =>
        rw [Bool.or_eq_true, not_or, Option.not_isSome_iff_eq_none, Bool.not_eq_true',
          Bool.not_eq_false] at hopen
        exact ⟨behind, span, hold, hholds, hbehind, hhold, hopen.1, hopen.2,
          (Option.some.inj h).symm⟩
  · rintro ⟨behind, span, hold, hholds, hbehind, hhold, hrelease, hprobed, rfl⟩
    rw [owedProbe_concat hholds hbehind hhold, hrelease, hprobed]
    rfl

/-! ## The schedule -/

/-- Holds no operator made, each released at most 600 s before the next started. -/
structure Quick (chain : List HoldSpan) : Prop where
  host : ∀ span ∈ chain, ∃ hold ∈ span.hold, hold.operator = false
  linked : chain.IsChain fun (span next : HoldSpan) =>
    ∃ release ∈ span.release, next.since ≤ release.at_ + quickReHold

theorem quick_concat : Quick (behind ++ [span]) ↔
    (∃ hold ∈ span.hold, hold.operator = false) ∧ (behind ++ [span]).IsChain Continues := by
  constructor
  · rintro ⟨hhost, hlinked⟩
    refine ⟨hhost span (by simp), ?_⟩
    exact hlinked.imp_of_mem_imp fun a b ha _ hab => ⟨hhost a ha, hab⟩
  · rintro ⟨hspan, hchain⟩
    refine ⟨?_, hchain.imp fun a b hab => hab.2⟩
    induction behind with
    | nil =>
      intro a ha
      rw [List.mem_singleton.1 ha]
      exact hspan
    | cons a behind ih =>
      rw [List.cons_append, List.isChain_cons] at hchain
      rw [List.cons_append, List.forall_mem_cons]
      refine ⟨?_, ih hchain.2⟩
      obtain ⟨next, hnext⟩ : ∃ next, next ∈ (behind ++ [span]).head? := by
        cases behind <;> simp
      exact (hchain.1 next hnext).1

/-- The walk's chain is quick, and the longest suffix of the holds that is. -/
theorem quick_unbrokenTo (hspan : ∃ hold ∈ span.hold, hold.operator = false) :
    unbrokenTo Continues behind span <:+ behind ++ [span] ∧
      Quick (unbrokenTo Continues behind span) ∧
        ∀ chain, chain <:+ behind ++ [span] → Quick chain →
          chain <:+ unbrokenTo Continues behind span := by
  refine ⟨unbrokenTo_suffix _ _ _, ?_, fun chain hsuffix hquick => ?_⟩
  · exact quick_concat.2 ⟨hspan, isChain_unbrokenTo _ behind span⟩
  · rcases List.eq_nil_or_concat' chain with rfl | ⟨init, last, rfl⟩
    · exact List.nil_suffix
    · exact suffix_unbrokenTo _ hsuffix (quick_concat.1 hquick).2

theorem le_foldl_max {l : List Int} {a t : Int} (h : t ∈ a :: l) : t ≤ l.foldl max a := by
  induction l generalizing a t with
  | nil => exact Int.le_of_eq (List.mem_singleton.1 h)
  | cons b l ih =>
    rw [List.foldl_cons]
    have hhead : max a b ≤ l.foldl max (max a b) := ih List.mem_cons_self
    rcases List.mem_cons.1 h with rfl | h
    · omega
    · rcases List.mem_cons.1 h with rfl | h
      · omega
      · exact ih (List.mem_cons_of_mem _ h)

theorem due_cases {t last now : Int} (delay : Nat) (h : t ≤ last) :
    t + delay ≤ min (last + delay) (now + delay) ∨ now + delay < t + delay := by
  omega

/-- What a run's holds, its chain and the chain's probes say of the probe that is owed. -/
structure Scheduled (run progress : List Event) (now : SystemTime) (chain : List HoldSpan)
    (owed : OwedProbe) : Prop where
  suffix : chain <:+ holds run
  quick : Quick chain
  longest : ∀ other, other <:+ holds run → Quick other → other <:+ chain
  opened : ∃ span hold, (holds run).getLast? = some span ∧ span.release = none ∧
    span.hold = some hold ∧ hold.operator = false ∧
      hold.latest.cause ≠ AgentFailure.modelNotFound.asStr ∧ owed.held = hold.latest ∧
        owed.revision = hold.revision ∧ ∀ t ∈ span.latestAt :: probesOf chain progress,
          t + owed.delay ≤ owed.due ∨ now + owed.delay < t + owed.delay
  delay_eq : owed.delay = min (firstDelay * 2 ^ (probesOf chain progress).length) maxDelay
  first_le : firstDelay ≤ owed.delay
  le_max : owed.delay ≤ maxDelay
  due_le : owed.due ≤ now + owed.delay

theorem isProbed_iff : isProbed hold = true ↔
    hold.operator = false ∧ hold.latest.cause ≠ AgentFailure.modelNotFound.asStr := by
  simp [isProbed]

theorem scheduled_owedFor {run progress : List Event} {now : SystemTime}
    (hholds : holds run = behind ++ [span]) (hhold : span.hold = some hold)
    (hrelease : span.release = none) (hprobed : isProbed hold = true) :
    Scheduled run progress now (unbrokenTo Continues behind span)
      (owedFor (probesOf (unbrokenTo Continues behind span) progress) span.latestAt hold now) := by
  obtain ⟨hoperator, hcause⟩ := isProbed_iff.1 hprobed
  obtain ⟨hsuffix, hquick, hlongest⟩ := quick_unbrokenTo ⟨hold, hhold, hoperator⟩
  rw [← hholds] at hsuffix
  rw [← hholds] at hlongest
  refine ⟨hsuffix, hquick, hlongest, ?_, delayAfter_eq _, (delayAfter_bounds _).1,
    (delayAfter_bounds _).2, Int.min_le_right _ _⟩
  refine ⟨span, hold, ?_, hrelease, hhold, hoperator, hcause, rfl, rfl, fun t ht => ?_⟩
  · rw [hholds, List.getLast?_concat]
  · exact due_cases _ (le_foldl_max ht)

/-! ## Runs that go on -/

/-- A release ends the open hold, and the next `RunHeld` opens one behind it. -/
theorem holds_rehold {run mid : List Event} {release held : Event}
    (hholds : holds run = behind ++ [span]) (hopen : span.release = none)
    (hreleased : release.type_ = typeRunReleased) (hmid : ∀ e ∈ mid, e.type_ ≠ typeRunHeld)
    (hheld : held.type_ = typeRunHeld) : holds (run ++ release :: (mid ++ [held])) =
      behind ++ [{ span with
        release := some ⟨release.validFrom, release.revision, releasedHeldForS release.data⟩ }] ++
        [⟨Hold.onHeld none held, held.validFrom, held.revision, held.validFrom, none⟩] := by
  have hended : holds (run ++ [release]) = behind ++ [{ span with
      release := some ⟨release.validFrom, release.revision, releasedHeldForS release.data⟩ }] := by
    have hne : release.type_ ≠ typeRunHeld := by
      rw [hreleased]
      decide
    have hlast : openSpan (behind ++ [span]) = some span := by
      rw [openSpan_concat, hopen]
      rfl
    rw [holds_concat, hholds, holdsStep_open hlast, if_neg hne, if_pos hreleased,
      List.dropLast_concat]
  have hstays : ∀ {spans : List HoldSpan}, openSpan spans = none →
      mid.foldl holdsStep spans = spans := by
    intro spans hspans
    induction mid with
    | nil => rfl
    | cons e mid ih =>
      rw [List.forall_mem_cons] at hmid
      rw [List.foldl_cons, holdsStep_closed hspans, if_neg hmid.1]
      exact ih hmid.2
  have hclosed : openSpan (holds (run ++ [release])) = none := by
    rw [hended, openSpan_concat]
    rfl
  have hmoved : holds (run ++ [release] ++ mid) = holds (run ++ [release]) := by
    rw [holds, List.foldl_append]
    exact hstays hclosed
  have hlog : run ++ release :: (mid ++ [held]) = run ++ [release] ++ mid ++ [held] := by simp
  rw [hlog, holds_concat, hmoved, holdsStep_closed hclosed, if_pos hheld, hended]

theorem stamps_append (progress more : List Event) :
    stamps (progress ++ more) = stamps progress ++ stamps more := by
  simp [stamps, decodedProgress, agentProgressEvents]

/-- A chain that covers what another did counts no fewer probes, of a log that goes on. -/
theorem delayAfter_probesOf {chain chain' : List HoldSpan} {progress : List Event}
    (more : List Event)
    (hcovers : ∀ stamp ∈ stamps progress, (∃ span ∈ chain, Covers span stamp.1) →
      ∃ span ∈ chain', Covers span stamp.1) :
    delayAfter (probesOf chain progress).length ≤
      delayAfter (probesOf chain' (progress ++ more)).length := by
  apply delayAfter_mono
  rw [probesOf, probesOf, List.length_map, List.length_map, ← List.countP_eq_length_filter,
    ← List.countP_eq_length_filter, stamps_append, List.countP_append]
  refine Nat.le_add_right_of_le (List.countP_mono_left fun stamp hstamp h => ?_)
  obtain ⟨span, hspan, hcovered⟩ := List.any_eq_true.1 h
  obtain ⟨span', hspan', hcovered'⟩ :=
    hcovers stamp hstamp ⟨span, hspan, of_decide_eq_true hcovered⟩
  exact List.any_eq_true.2 ⟨span', hspan', decide_eq_true hcovered'⟩

theorem unbroken_since {span' : HoldSpan} (h : span.since = span'.since) (l : List HoldSpan) :
    unbroken Continues span l = unbroken Continues span' l := by
  cases l with
  | nil => rfl
  | cons before l => simp only [unbroken, Continues, h]

section
variable {run progress mid : List Event} {now : SystemTime} {owed : OwedProbe}
    {release held : Event}
  {body : RunHeld}

/-- More of the progress log leaves the probe owed, after no shorter delay. -/
theorem owedProbe_more (h : owedProbe run progress now = some owed) (more : List Event)
    (now' : SystemTime) : ∃ owed', owedProbe run (progress ++ more) now' = some owed' ∧
      owed.delay ≤ owed'.delay := by
  obtain ⟨behind, span, hold, hholds, hbehind, hhold, hrelease, hprobed, rfl⟩ :=
    owedProbe_eq_some.1 h
  refine ⟨_, owedProbe_eq_some.2
    ⟨behind, span, hold, hholds, hbehind, hhold, hrelease, hprobed, rfl⟩, ?_⟩
  exact delayAfter_probesOf more fun _ _ h => h

/-- A quick re-hold leaves a probe owed, of every cause but `model_not_found`, and after no shorter
delay where no line names a revision between the release and the re-hold. -/
theorem owedProbe_rehold (h : owedProbe run progress now = some owed)
    (hreleased : release.type_ = typeRunReleased) (hmid : ∀ e ∈ mid, e.type_ ≠ typeRunHeld)
    (hheld : held.type_ = typeRunHeld) (hbody : RunHeld.decode held.data = some body)
    (hby : body.by_ ≠ holdByOperator) (hquick : held.validFrom ≤ release.validFrom + quickReHold)
    (hstamps : ∀ stamp ∈ stamps progress, ¬(release.revision ≤ stamp.1 ∧ stamp.1 < held.revision))
    (more : List Event) (now' : SystemTime) :
    (body.cause = AgentFailure.modelNotFound.asStr →
      owedProbe (run ++ release :: (mid ++ [held])) (progress ++ more) now' = none) ∧
    (body.cause ≠ AgentFailure.modelNotFound.asStr → ∃ owed',
      owedProbe (run ++ release :: (mid ++ [held])) (progress ++ more) now' = some owed' ∧
        owed.delay ≤ owed'.delay) := by
  obtain ⟨behind, span, hold, hholds, hbehind, hhold, hrelease, hprobed, rfl⟩ :=
    owedProbe_eq_some.1 h
  have hrun := holds_rehold hholds hrelease hreleased hmid hheld
  obtain ⟨ended, hended⟩ : ∃ ended : HoldSpan,
      ended = { span with
        release := some ⟨release.validFrom, release.revision, releasedHeldForS release.data⟩ } :=
    ⟨_, rfl⟩
  obtain ⟨next, hnext⟩ : ∃ next : HoldSpan, next =
    ⟨Hold.onHeld none held, held.validFrom, held.revision, held.validFrom, none⟩ := ⟨_, rfl⟩
  obtain ⟨again, hagain⟩ : ∃ again : Hold, again =
    ⟨held.validFrom, false, body, held.revision⟩ := ⟨_, rfl⟩
  rw [← hended, ← hnext] at hrun
  have hdecoded : ∀ p ∈ behind ++ [(ended, hold)], p.1.hold = some p.2 := by
    intro p hp
    rcases List.mem_append.1 hp with hp | hp
    · exact hbehind p hp
    · rw [List.mem_singleton.1 hp, hended]
      exact hhold
  have hrun' : holds (run ++ release :: (mid ++ [held])) =
      (behind ++ [(ended, hold)]).map Prod.fst ++ [next] := by
    rw [hrun, List.map_append]
    rfl
  have hheldAgain : next.hold = some again := by
    rw [hnext, hagain, Hold.onHeld, hbody]
    simp [hby]
  have hopen : next.release = none := by rw [hnext]
  have hend : owedProbe (run ++ release :: (mid ++ [held])) (progress ++ more) now' = _ :=
    owedProbe_concat hrun' hdecoded hheldAgain
  have hprobed' : isProbed again = true ↔ body.cause ≠ AgentFailure.modelNotFound.asStr := by
    rw [isProbed_iff, hagain]
    simp
  constructor
  · intro hcause
    rw [hend, if_pos]
    rw [Bool.or_eq_true, Bool.not_eq_true', ← Bool.not_eq_true, hprobed']
    exact .inr fun hne => hne hcause
  · intro hcause
    rw [hopen, hprobed'.2 hcause] at hend
    refine ⟨_, hend, delayAfter_probesOf more fun stamp hstamp hcovered => ?_⟩
    -- the walk passes from the re-hold to the hold that ended and goes on as it did from there
    have hcontinues : Continues ended next := by
      rw [hended, hnext]
      exact ⟨⟨hold, hhold, (isProbed_iff.1 hprobed).1⟩, _, rfl, hquick⟩
    have hsince : span.since = ended.since := by rw [hended]
    have hwalk : unbroken Continues next ((behind ++ [(ended, hold)]).map Prod.fst).reverse =
        ended :: unbroken Continues span (behind.map Prod.fst).reverse := by
      rw [List.map_append, List.reverse_append, unbroken_since hsince]
      exact if_pos hcontinues
    obtain ⟨covering, hmem, hcovers⟩ := hcovered
    rcases (mem_unbrokenTo Continues).1 hmem with rfl | hmem
    · by_cases hlt : stamp.1 < release.revision
      · refine ⟨ended, (mem_unbrokenTo Continues).2
          (.inr (by rw [hwalk]; exact List.mem_cons_self)), ?_⟩
        rw [hended]
        refine ⟨hcovers.1, fun r hr => ?_⟩
        cases hr
        exact hlt
      · refine ⟨next, (mem_unbrokenTo Continues).2 (.inl rfl), ?_⟩
        rw [hnext]
        refine ⟨Int.not_lt.1 fun hgap => hstamps stamp hstamp ⟨Int.not_lt.1 hlt, hgap⟩,
          fun r hr => ?_⟩
        cases hr
    · refine ⟨covering, (mem_unbrokenTo Continues).2 (.inr ?_), hcovers⟩
      rw [hwalk]
      exact List.mem_cons_of_mem _ hmem

end

/-- A probe is owed of the last hold alone, after a delay its chain's probes double, and neither
more of the progress log nor a quick re-hold shortens it, where no line names a revision between the
release and the re-hold. -/
theorem owedProbe_schedule {run progress : List Event} {now : SystemTime} {owed : OwedProbe}
    (h : owedProbe run progress now = some owed) :
    (∃ chain, Scheduled run progress now chain owed) ∧
    (∀ more now', ∃ owed', owedProbe run (progress ++ more) now' = some owed' ∧
      owed.delay ≤ owed'.delay) ∧
    ∀ (release : Event) (mid : List Event) (held : Event) (body : RunHeld) (more : List Event)
      (now' : SystemTime), release.type_ = typeRunReleased → (∀ e ∈ mid, e.type_ ≠ typeRunHeld) →
      held.type_ = typeRunHeld → RunHeld.decode held.data = some body → body.by_ ≠ holdByOperator →
      held.validFrom ≤ release.validFrom + quickReHold →
      (∀ stamp ∈ stamps progress, ¬(release.revision ≤ stamp.1 ∧ stamp.1 < held.revision)) →
      (body.cause = AgentFailure.modelNotFound.asStr →
        owedProbe (run ++ release :: (mid ++ [held])) (progress ++ more) now' = none) ∧
      (body.cause ≠ AgentFailure.modelNotFound.asStr → ∃ owed',
        owedProbe (run ++ release :: (mid ++ [held])) (progress ++ more) now' = some owed' ∧
          owed.delay ≤ owed'.delay) := by
  refine ⟨?_, owedProbe_more h, ?_⟩
  · obtain ⟨behind, span, hold, hholds, -, hhold, hrelease, hprobed, rfl⟩ := owedProbe_eq_some.1 h
    exact ⟨_, scheduled_owedFor hholds hhold hrelease hprobed⟩
  · intro release mid held body more now' hreleased hmid hheld hbody hby hquick hstamps
    exact owedProbe_rehold h hreleased hmid hheld hbody hby hquick hstamps more now'

/-- A `RunHeld` of the host's, a `RunReleased` and a hold-probe line, `secs` in. -/
def rateLimited (revision secs : Nat) : Event :=
  { Event.new ("e", fromSecs secs) typeRunHeld
      (.json (RunHeld.encode (heldBy "rate_limit" "" holdByHost ""))) with revision := revision }

def released (revision secs : Nat) : Event :=
  { Event.new ("e", fromSecs secs) typeRunReleased (.json (.obj [("held_for_s", .num 100)])) with
    revision := revision }

def probed (revision : Int) (secs : Nat) : Event :=
  Event.new ("e", fromSecs secs) typeAgentProgress
    (.json (.obj [("id", .str holdProbeId), ("activity", .str ""), ("revision", .num revision)]))

theorem owedProbe_schedule_probed : ∃ owed,
    owedProbe [rateLimited 0 100] [probed 0 150] (fromSecs 1000) = some owed ∧
    (∃ chain, Scheduled [rateLimited 0 100] [probed 0 150] (fromSecs 1000) chain owed) ∧
    ∃ owed', owedProbe ([rateLimited 0 100] ++ released 1 200 :: ([] ++ [rateLimited 2 300]))
      ([probed 0 150] ++ []) (fromSecs 1000) = some owed' ∧ owed.delay ≤ owed'.delay := by
  have howed : (owedProbe [rateLimited 0 100] [probed 0 150] (fromSecs 1000)).isSome = true := by
    decide
  obtain ⟨owed, howed⟩ := Option.isSome_iff_exists.1 howed
  obtain ⟨hchain, -, hrehold⟩ := owedProbe_schedule howed
  refine ⟨owed, howed, hchain, ?_⟩
  exact (hrehold (released 1 200) [] (rateLimited 2 300) (heldBy "rate_limit" "" holdByHost "") []
    (fromSecs 1000) rfl (fun e he => by cases he) rfl (by decide) (by decide) (by decide)
    (by decide)).2 (by decide)

/-- A line stamped with the release's own revision counts while the hold stands open and not after
its re-hold, 100 s on. -/
theorem owedProbe_rehold_lowers :
    (owedProbe [rateLimited 0 100] [probed 1 250] (fromSecs 1000)).map OwedProbe.delay =
        some (fromSecs 120) ∧
      (owedProbe [rateLimited 0 100, released 1 200, rateLimited 2 300] [probed 1 250]
        (fromSecs 1000)).map OwedProbe.delay = some (fromSecs 60) := by
  decide

end HoldProbe

end Rigger
