import Rigger.Conductor.Remediate
import Rigger.Domain.Progress
import Rigger.Lib.Run

/-!
# The arithmetic of attempts (`ledger.rs`, `safety.rs`, `progress.rs`, `conductor.rs`)

Attempts, grants and ordinals are `u32`, added without a check: a release build keeps the low 32
bits.  `Tally` counts a unit's attempts and its granted bound over a log, in a word as the fold does
(`tally_word_eq`) or without one.  `attempts_exact_iff` says over which logs every sum is the exact
one and no grant lowers the unit's bound.
-/

namespace Rigger.Conductor

open Lib Ledger Progress

/-! ## The sums of the code -/

/-- What a release build keeps of a `u32` sum or product. -/
def u32 (n : Nat) : Nat := n % 2 ^ 32

theorem u32_eq_self {n : Nat} : u32 n = n ↔ n < 2 ^ 32 := by
  unfold u32
  omega

namespace Word

/-- `safety::remediate`. -/
def remediate (priorAttempts max : Nat) : Remediation where
  decision := if max ≤ u32 (priorAttempts + 1) then .escalate else .retry
  attempts := u32 (priorAttempts + 1)

/-- `InfraRetries::after`. -/
def after (infra : InfraRetries) (status : String) : InfraRetries :=
  if status = statusInfraRetry then ⟨u32 (infra.ordinal + 1), u32 (infra.sinceHalt + 1)⟩
  else ⟨infra.ordinal, 0⟩

/-- `InfraRetries::recorded`. -/
def recorded (events : List Event) (unit : String) (attempt : Nat) : InfraRetries :=
  ((events.filterMap (infraMark unit)).filter fun m => m.2 = attempt).foldl
    (fun infra m => after infra m.1) ⟨0, 0⟩

def implementerRetry (ordinal : Nat) : Nat := u32 (ordinal * u32 (conflictResolveBound + 1))

/-- The first and the last id of `review_retry_window`. -/
def reviewRetryWindow (ordinal : Nat) : Nat × Nat :=
  let first := u32 (ordinal * u32 (reviewerRespawnBound + 1))
  (first, u32 (first + reviewerRespawnBound))

/-- `next_launch_after`. -/
def nextLaunchAfter (latest : Option SpawnLaunched) : Nat :=
  latest.elim 0 fun latest => u32 (latest.launch + 1)

end Word

/-- `launch_records_of`. -/
def launchRecordsOf (progressEvents : List Event) (spawn : String) : List SpawnLaunched :=
  ((decodedLaunches progressEvents).map Prod.snd).filter fun record => record.spawn == spawn

/-- `latest_launch_of`. -/
def latestLaunchOf (records : List SpawnLaunched) : List SpawnLaunched :=
  let latest := (records.map SpawnLaunched.launch).max?
  records.filter fun record => some record.launch == latest

/-- `next_launch`. -/
def nextLaunch (progressEvents : List Event) (spawn : String) : Nat :=
  Word.nextLaunchAfter (latestLaunchOf (launchRecordsOf progressEvents spawn)).getLast?

/-! ## What they are for -/

/-- The attempts a unit made and the bound it was granted. -/
structure Tally where
  attempts : Nat
  bound : Nat
deriving DecidableEq

/-- One event of the log, its sum kept by `keep`. -/
def Tally.add (keep : Nat → Nat) (unit : String) (t : Tally) (e : Event) : Tally where
  attempts := (ofUnit unit (RunState.charged e)).getD t.attempts
  bound := ((ofUnit unit (RunState.granted e)).map fun n => keep (t.attempts + n)).getD t.bound

def tally (keep : Nat → Nat) (unit : String) (log : List Event) : Tally :=
  run (Tally.add keep unit) ⟨0, 0⟩ log

/-- The ordinal one above every launch of the spawn. -/
def launchAbove (progressEvents : List Event) (spawn : String) : Nat :=
  ((launchRecordsOf progressEvents spawn).map fun record => record.launch + 1).max?.getD 0

/-- Wherever the log is read, the code's sums are the exact ones, and a grant lowers no bound. -/
structure Exact (u : Setup) (log progressEvents : List Event) : Prop where
  grants : ∀ past e rest, log = past ++ e :: rest → ∀ n,
    ofUnit u.unit (RunState.granted e) = some n →
    ∀ s s', past.foldlM RunState.apply RunState.new = some s → s.apply e = some s' →
    (s'.unitAt u.unit).resumeBound = (s.unitAt u.unit).attempts + n ∧
      u.maxRetriesFor s ≤ u.maxRetriesFor s'
  remediates : ∀ past rest, log = past ++ rest →
    ∀ s, past.foldlM RunState.apply RunState.new = some s →
    Word.remediate (s.unitAt u.unit).attempts (u.maxRetriesFor s) =
      remediate (s.unitAt u.unit).attempts (u.maxRetriesFor s)
  launches : ∀ spawn, nextLaunch progressEvents spawn = launchAbove progressEvents spawn
  reruns : ∀ past rest, log = past ++ rest → ∀ attempt,
    let infra := InfraRetries.recorded past u.unit attempt
    let ordinal := (Word.recorded past u.unit attempt).ordinal
    Word.recorded past u.unit attempt = infra ∧
      Word.implementerRetry ordinal = implementerRetry infra.ordinal ∧
      Word.reviewRetryWindow ordinal =
        (reviewRetry infra.ordinal, reviewRetry infra.ordinal + reviewerRespawnBound)

/-- The infra reruns the log marks of the unit's attempt. -/
def rerunsMarked (log : List Event) (unit : String) (attempt : Nat) : Nat :=
  (log.filterMap (infraMark unit)).count (statusInfraRetry, attempt)

/-- Each grant and the attempts before it fit a word and reach the bound granted before, but for one
the plain bound covers; no attempt and no launch recorded is the last of a word; and the ids of the
reruns fit one. -/
structure Within (u : Setup) (log progressEvents : List Event) : Prop where
  grants : ∀ past e rest, log = past ++ e :: rest → ∀ n,
    ofUnit u.unit (RunState.granted e) = some n →
    (tally id u.unit past).attempts + n < 2 ^ 32 ∧
      (tally id u.unit past).bound ≤ max ((tally id u.unit past).attempts + n) u.plain
  charges : ∀ e ∈ log, ∀ n, ofUnit u.unit (RunState.charged e) = some n → n + 1 < 2 ^ 32
  launches : ∀ x ∈ decodedLaunches progressEvents, x.2.launch + 1 < 2 ^ 32
  reruns : ∀ attempt, rerunsMarked log u.unit attempt * (conflictResolveBound + 1) < 2 ^ 32

/-! ## The fold -/

theorem tally_concat (keep : Nat → Nat) (unit : String) (past : List Event) (e : Event) :
    tally keep unit (past ++ [e]) = (tally keep unit past).add keep unit e := by
  unfold tally
  rw [run_append]
  rfl

variable {s : RunState}

/-- The fold counts as the tally in a word does. -/
theorem tally_word_eq {log : List Event} (h : log.foldlM RunState.apply RunState.new = some s)
    (unit : String) :
    (s.unitAt unit).attempts = (tally u32 unit log).attempts ∧
      (s.unitAt unit).resumeBound = (tally u32 unit log).bound := by
  induction log using List.reverseRecOn generalizing s with
  | nil =>
    cases h
    exact ⟨rfl, rfl⟩
  | append_singleton past e ih =>
    rw [List.foldlM_append, Option.bind_eq_bind, Option.bind_eq_some_iff] at h
    obtain ⟨s₁, hpast, hlast⟩ := h
    have happly : s₁.apply e = some s := by simpa using hlast
    obtain ⟨hattempts, hbound⟩ := ih hpast
    obtain ⟨-, hwattempts, hwbound⟩ := RunState.written_fields unit e (s₁.unitAt unit)
    rw [RunState.apply_unitAt happly, hwattempts, hwbound, tally_concat, hattempts, hbound]
    exact ⟨rfl, rfl⟩

theorem tally_attempts (keep : Nat → Nat) (unit : String) (log : List Event) :
    (tally keep unit log).attempts =
      (latest (fun e => ofUnit unit (RunState.charged e)) log).getD 0 := by
  induction log using List.reverseRecOn with
  | nil => rfl
  | append_singleton past e ih =>
    rw [tally_concat, latest_concat]
    show (ofUnit unit (RunState.charged e)).getD (tally keep unit past).attempts = _
    rw [ih]
    cases ofUnit unit (RunState.charged e) <;> rfl

theorem tally_exact {unit : String} {log : List Event}
    (h : ∀ past e rest, log = past ++ e :: rest → ∀ n, ofUnit unit (RunState.granted e) = some n →
      (tally id unit past).attempts + n < 2 ^ 32) :
    tally u32 unit log = tally id unit log := by
  induction log using List.reverseRecOn with
  | nil => rfl
  | append_singleton past e ih =>
    have hpast := ih fun past' e' rest hsplit => h past' e' (rest ++ [e]) (by rw [hsplit]; simp)
    rw [tally_concat, tally_concat, hpast]
    unfold Tally.add
    cases hgranted : ofUnit unit (RunState.granted e) with
    | none => rfl
    | some n =>
      have hfits := h past e [] rfl n hgranted
      simp only [Option.map_some, Option.getD_some, id, u32_eq_self.2 hfits]

theorem exists_fold {log : List Event} (h : ∀ e ∈ log, folds e = true) :
    ∃ s, log.foldlM RunState.apply RunState.new = some s :=
  Option.isSome_iff_exists.1 ((RunState.foldlM_apply RunState.new log).1.2 h)

theorem exists_fold_step {log past rest : List Event} {e : Event} (h : ∀ e ∈ log, folds e = true)
    (hsplit : log = past ++ e :: rest) :
    ∃ s s', past.foldlM RunState.apply RunState.new = some s ∧ s.apply e = some s' ∧
      (past ++ [e]).foldlM RunState.apply RunState.new = some s' := by
  have hpast : ∀ x ∈ past ++ [e], folds x = true := by
    intro x hx
    refine h x ?_
    rw [hsplit]
    simp only [List.mem_append, List.mem_cons, List.not_mem_nil, or_false] at hx ⊢
    tauto
  obtain ⟨s', hs'⟩ := exists_fold hpast
  have hstep := hs'
  rw [List.foldlM_append, Option.bind_eq_bind, Option.bind_eq_some_iff] at hstep
  obtain ⟨s, hs, hlast⟩ := hstep
  exact ⟨s, s', hs, by simpa using hlast, hs'⟩

theorem maxRetriesFor_eq {u : Setup} {log : List Event}
    (h : log.foldlM RunState.apply RunState.new = some s) :
    u.maxRetriesFor s = max (tally u32 u.unit log).bound u.plain := by
  rw [Setup.maxRetriesFor, (tally_word_eq h u.unit).2]

/-! ## The ordinals -/

theorem recorded_word (log : List Event) (unit : String) (attempt : Nat) :
    Word.recorded log unit attempt = ⟨u32 (InfraRetries.recorded log unit attempt).ordinal,
      u32 (InfraRetries.recorded log unit attempt).sinceHalt⟩ := by
  unfold Word.recorded InfraRetries.recorded
  induction (log.filterMap (infraMark unit)).filter fun m => m.2 = attempt
    using List.reverseRecOn with
  | nil => rfl
  | append_singleton marks m ih =>
    rw [List.foldl_append, List.foldl_append, List.foldl_cons, List.foldl_nil, List.foldl_cons,
      List.foldl_nil, ih]
    unfold Word.after InfraRetries.after
    split
    · simp [u32]
    · rfl

/-- The ordinal is the count of the reruns marked, and no fewer are counted since a halt. -/
theorem recorded_counts (log : List Event) (unit : String) (attempt : Nat) :
    (InfraRetries.recorded log unit attempt).ordinal = rerunsMarked log unit attempt ∧
      (InfraRetries.recorded log unit attempt).sinceHalt ≤ rerunsMarked log unit attempt := by
  unfold InfraRetries.recorded rerunsMarked
  induction log.filterMap (infraMark unit) using List.reverseRecOn with
  | nil => exact ⟨rfl, Nat.le_refl 0⟩
  | append_singleton marks m ih =>
    obtain ⟨hordinal, hsince⟩ := ih
    rw [List.filter_append, List.foldl_append, List.count_append]
    by_cases hattempt : m.2 = attempt
    · rw [List.filter_singleton, decide_eq_true hattempt, cond_true, List.foldl_cons,
        List.foldl_nil]
      by_cases hstatus : m.1 = statusInfraRetry
      · have hm : m = (statusInfraRetry, attempt) := Prod.ext hstatus hattempt
        rw [InfraRetries.after, if_pos hstatus, hm, List.count_singleton_self]
        exact ⟨congrArg (· + 1) hordinal, Nat.add_le_add_right hsince 1⟩
      · have hm : m ≠ (statusInfraRetry, attempt) := fun h => hstatus (by rw [h])
        rw [InfraRetries.after, if_neg hstatus, List.count_singleton,
          if_neg (by rwa [beq_iff_eq])]
        exact ⟨hordinal, Nat.zero_le _⟩
    · have hm : m ≠ (statusInfraRetry, attempt) := fun h => hattempt (by rw [h])
      rw [List.filter_singleton, decide_eq_false hattempt, cond_false, List.foldl_nil,
        List.count_singleton, if_neg (by rwa [beq_iff_eq])]
      exact ⟨hordinal, hsince⟩

theorem implementerRetry_word (n : Nat) :
    Word.implementerRetry (u32 n) = u32 (implementerRetry n) := by
  simp [Word.implementerRetry, implementerRetry, u32, conflictResolveBound]

theorem reviewRetryWindow_word (n : Nat) : Word.reviewRetryWindow (u32 n) =
    (u32 (reviewRetry n), u32 (reviewRetry n + reviewerRespawnBound)) := by
  simp [Word.reviewRetryWindow, reviewRetry, u32, reviewerRespawnBound]

theorem rerunsMarked_le (past rest : List Event) (unit : String) (attempt : Nat) :
    rerunsMarked past unit attempt ≤ rerunsMarked (past ++ rest) unit attempt := by
  unfold rerunsMarked
  rw [List.filterMap_append, List.count_append]
  exact Nat.le_add_right _ _

/-- The last of the latest launch's records is one of the highest ordinal. -/
theorem getLast?_latestLaunchOf {records : List SpawnLaunched} {n : Nat}
    (h : (records.map SpawnLaunched.launch).max? = some n) :
    ∃ record, (latestLaunchOf records).getLast? = some record ∧ record.launch = n := by
  obtain ⟨x, hx, hlaunch⟩ := List.mem_map.1 (List.max?_mem h)
  have hmem : x ∈ latestLaunchOf records := by
    unfold latestLaunchOf
    rw [List.mem_filter, h, hlaunch]
    exact ⟨hx, beq_self_eq_true _⟩
  obtain ⟨record, hrecord⟩ := Option.isSome_iff_exists.1
    (List.getLast?_isSome.2 (List.ne_nil_of_mem hmem))
  refine ⟨record, hrecord, ?_⟩
  have hlatest := (List.mem_filter.1 (List.mem_of_getLast? hrecord)).2
  rw [h, beq_iff_eq] at hlatest
  exact Option.some.inj hlatest

theorem nextLaunch_eq (progressEvents : List Event) (spawn : String) :
    nextLaunch progressEvents spawn = u32 (launchAbove progressEvents spawn) := by
  unfold nextLaunch launchAbove
  cases hmax : ((launchRecordsOf progressEvents spawn).map SpawnLaunched.launch).max? with
  | none =>
    rw [List.max?_eq_none_iff, List.map_eq_nil_iff] at hmax
    rw [hmax]
    rfl
  | some n =>
    obtain ⟨record, hlast, hlaunch⟩ := getLast?_latestLaunchOf hmax
    have habove : ((launchRecordsOf progressEvents spawn).map fun record =>
      record.launch + 1).max? =
        some (n + 1) := by
      obtain ⟨hmem, hle⟩ := List.max?_eq_some_iff.1 hmax
      obtain ⟨x, hx, rfl⟩ := List.mem_map.1 hmem
      refine List.max?_eq_some_iff.2 ⟨List.mem_map.2 ⟨x, hx, rfl⟩, fun b hb => ?_⟩
      obtain ⟨y, hy, rfl⟩ := List.mem_map.1 hb
      exact Nat.succ_le_succ (hle _ (List.mem_map.2 ⟨y, hy, rfl⟩))
    rw [hlast, habove]
    show u32 (record.launch + 1) = u32 (n + 1)
    rw [hlaunch]

theorem launchAbove_lt_iff (progressEvents : List Event) :
    (∀ spawn, launchAbove progressEvents spawn < 2 ^ 32) ↔
      ∀ x ∈ decodedLaunches progressEvents, x.2.launch + 1 < 2 ^ 32 := by
  constructor
  · intro h x hx
    have hmem : x.2 ∈ launchRecordsOf progressEvents x.2.spawn :=
      List.mem_filter.2 ⟨List.mem_map.2 ⟨x, hx, rfl⟩, beq_self_eq_true _⟩
    refine Nat.lt_of_le_of_lt ?_ (h x.2.spawn)
    unfold launchAbove
    have hlaunch : x.2.launch + 1 ∈ (launchRecordsOf progressEvents x.2.spawn).map fun record =>
        record.launch + 1 := List.mem_map.2 ⟨x.2, hmem, rfl⟩
    obtain ⟨n, hn⟩ := Option.isSome_iff_exists.1 (List.isSome_max?_of_mem hlaunch)
    rw [hn]
    exact (List.max?_eq_some_iff.1 hn).2 _ hlaunch
  · intro h spawn
    unfold launchAbove
    cases hmax : ((launchRecordsOf progressEvents spawn).map fun record =>
      record.launch + 1).max? with
    | none => exact Nat.two_pow_pos 32
    | some n =>
      obtain ⟨record, hrecord, rfl⟩ := List.mem_map.1 (List.max?_mem hmax)
      obtain ⟨x, hx, rfl⟩ := List.mem_map.1 (List.mem_of_mem_filter hrecord)
      exact h x hx

/-! ## The logs that fit -/

section
variable {u : Setup} {log progressEvents : List Event} (hread : ∀ e ∈ log, folds e = true)
include hread

variable {past rest : List Event}

theorem Exact.fits (h : Exact u log progressEvents) {e : Event} (hsplit : log = past ++ e :: rest)
    {n : Nat} (hgranted : ofUnit u.unit (RunState.granted e) = some n) :
    (tally id u.unit past).attempts + n < 2 ^ 32 := by
  obtain ⟨s, s', hs, happly, hs'⟩ := exists_fold_step hread hsplit
  have hsum := (h.grants past e rest hsplit n hgranted s s' hs happly).1
  have hbound : (tally u32 u.unit (past ++ [e])).bound =
      u32 ((tally u32 u.unit past).attempts + n) := by
    rw [tally_concat, Tally.add, hgranted]
    rfl
  rw [(tally_word_eq hs' u.unit).2, (tally_word_eq hs u.unit).1, hbound, u32_eq_self] at hsum
  rwa [tally_attempts] at hsum ⊢

theorem Exact.within (h : Exact u log progressEvents) : Within u log progressEvents where
  grants past e rest hsplit n hgranted := by
    refine ⟨h.fits hread hsplit hgranted, ?_⟩
    obtain ⟨s, s', hs, happly, hs'⟩ := exists_fold_step hread hsplit
    obtain ⟨hsum, hkeeps⟩ := h.grants past e rest hsplit n hgranted s s' hs happly
    have htally : tally u32 u.unit past = tally id u.unit past :=
      tally_exact fun past' e' rest' hpast m hm => by
        have hlog : log = past' ++ e' :: (rest' ++ e :: rest) := by
          rw [hsplit, hpast]
          simp
        exact h.fits hread hlog hm
    rw [maxRetriesFor_eq hs, Setup.maxRetriesFor, hsum, (tally_word_eq hs u.unit).1,
      htally] at hkeeps
    exact Nat.le_trans (Nat.le_max_left _ _) hkeeps
  charges e he n hcharged := by
    obtain ⟨past, rest, hsplit⟩ := List.append_of_mem he
    obtain ⟨s, s', -, -, hs'⟩ := exists_fold_step hread hsplit
    have hattempts : (s'.unitAt u.unit).attempts = n := by
      rw [(tally_word_eq hs' u.unit).1, tally_concat, Tally.add, hcharged]
      rfl
    have hsum := congrArg Remediation.attempts
      (h.remediates (past ++ [e]) rest (by rw [hsplit]; simp) s' hs')
    rw [hattempts] at hsum
    exact u32_eq_self.1 hsum
  launches := by
    refine (launchAbove_lt_iff progressEvents).1 fun spawn => ?_
    rw [← u32_eq_self, ← nextLaunch_eq]
    exact h.launches spawn
  reruns attempt := by
    obtain ⟨-, hretry, -⟩ := h.reruns log [] (by simp) attempt
    rw [recorded_word, implementerRetry_word, u32_eq_self, (recorded_counts _ _ _).1] at hretry
    exact hretry

omit hread in
/-- The sums of the reruns are exact where the ids of the last one fit. -/
theorem Within.reruns_exact (h : Within u log progressEvents) (hsplit : log = past ++ rest)
    (attempt : Nat) :
    let infra := InfraRetries.recorded past u.unit attempt
    let ordinal := (Word.recorded past u.unit attempt).ordinal
    Word.recorded past u.unit attempt = infra ∧
      Word.implementerRetry ordinal = implementerRetry infra.ordinal ∧
      Word.reviewRetryWindow ordinal =
        (reviewRetry infra.ordinal, reviewRetry infra.ordinal + reviewerRespawnBound) := by
  obtain ⟨hordinal, hsince⟩ := recorded_counts past u.unit attempt
  have hfits : rerunsMarked log u.unit attempt * 4 < 2 ^ 32 := h.reruns attempt
  have hle := rerunsMarked_le past rest u.unit attempt
  rw [← hsplit] at hle
  intro infra ordinal
  have hretry : implementerRetry infra.ordinal = infra.ordinal * 4 := rfl
  have hreview : reviewRetry infra.ordinal = infra.ordinal * 3 := rfl
  have hrespawn : reviewerRespawnBound = 2 := rfl
  have hmarked : infra.ordinal = rerunsMarked past u.unit attempt := hordinal
  have hinfra : Word.recorded past u.unit attempt = infra := by
    rw [recorded_word, u32_eq_self.2 (by omega), u32_eq_self.2 (by omega)]
  have hexact : ordinal = u32 infra.ordinal := by
    show (Word.recorded past u.unit attempt).ordinal = _
    rw [recorded_word]
  refine ⟨hinfra, ?_, ?_⟩
  · rw [hexact, implementerRetry_word, u32_eq_self.2 (by omega)]
  · rw [hexact, reviewRetryWindow_word, u32_eq_self.2 (by omega), u32_eq_self.2 (by omega)]

omit hread in
theorem Within.exact (h : Within u log progressEvents) : Exact u log progressEvents where
  grants past e rest hsplit n hgranted s s' hs happly := by
    obtain ⟨hfits, hkeeps⟩ := h.grants past e rest hsplit n hgranted
    have htally : tally u32 u.unit past = tally id u.unit past :=
      tally_exact fun past' e' rest' hpast m hm =>
        (h.grants past' e' (rest' ++ e :: rest) (by rw [hsplit, hpast]; simp) m hm).1
    have hs' : (past ++ [e]).foldlM RunState.apply RunState.new = some s' := by
      rw [List.foldlM_append, hs]
      simpa using happly
    have hbound : (s'.unitAt u.unit).resumeBound = (s.unitAt u.unit).attempts + n := by
      rw [(tally_word_eq hs' u.unit).2, (tally_word_eq hs u.unit).1, tally_concat, Tally.add,
        hgranted, htally]
      exact u32_eq_self.2 hfits
    refine ⟨hbound, ?_⟩
    rw [maxRetriesFor_eq hs, Setup.maxRetriesFor, hbound, (tally_word_eq hs u.unit).1, htally]
    exact Nat.max_le.2 ⟨hkeeps, Nat.le_max_right _ _⟩
  remediates past rest hsplit s hs := by
    have hcount : (s.unitAt u.unit).attempts + 1 < 2 ^ 32 := by
      rw [(tally_word_eq hs u.unit).1, tally_attempts]
      cases hlast : latest (fun e => ofUnit u.unit (RunState.charged e)) past with
      | none => decide
      | some n =>
        obtain ⟨before, e, after, hpast, hcharged, -⟩ := (latest_eq_some_iff _ _ _).1 hlast
        exact h.charges e (by rw [hsplit, hpast]; simp) n hcharged
    unfold Word.remediate remediate
    rw [u32_eq_self.2 hcount]
  launches spawn := by
    rw [nextLaunch_eq, u32_eq_self]
    exact (launchAbove_lt_iff progressEvents).2 h.launches spawn
  reruns past rest hsplit attempt := h.reruns_exact hsplit attempt

end

/-- The arithmetic of attempts is exact over a log, and no grant lowers the unit's bound, where and
only where the log stays within a word. -/
theorem attempts_exact_iff (u : Setup) (log progressEvents : List Event)
    (hread : ∀ e ∈ log, folds e = true) :
    Exact u log progressEvents ↔ Within u log progressEvents :=
  ⟨Exact.within hread, Within.exact⟩

def implemented : Setup := ⟨"u", .implement, 0, 0, 3⟩

def failedAt (attempts : Nat) : Event :=
  Event.new ("f", 0) typeUnitFailed
    (.json (.obj [("id", .str "u"), ("attempts", .num attempts)]))

def escalatedUnit : Event := Event.new ("e", 0) typeUnitEscalated (.json (.obj [("id", .str "u")]))

def grantOf (attempts : Nat) : Event :=
  Event.new ("g", 0) typeUnitResumed
    (.json (.obj [("unit", .str "u"), ("attempts_granted", .num attempts)]))

/-- A unit that escalated, and the largest grant a word holds. -/
def hugeGrant : List Event := [failedAt 3, escalatedUnit, grantOf 4294967295]

/-- A grant of ten, a stop before it is spent, and a grant of one. -/
def smallGrant : List Event := [failedAt 3, escalatedUnit, grantOf 10, escalatedUnit, grantOf 1]

theorem within_resumed : Within implemented [failedAt 3, escalatedUnit, grantOf 2] [] where
  grants past e rest hsplit n hn := by
    have hfailed : ofUnit "u" (RunState.granted (failedAt 3)) = none := by decide +kernel
    have hescalated : ofUnit "u" (RunState.granted escalatedUnit) = none := by decide +kernel
    have hgrant : ofUnit "u" (RunState.granted (grantOf 2)) = some 2 := by decide +kernel
    obtain _ | ⟨_, _ | ⟨_, _ | ⟨_, past⟩⟩⟩ := past
    · cases hsplit
      cases hfailed.symm.trans hn
    · cases hsplit
      cases hescalated.symm.trans hn
    · cases hsplit
      cases hgrant.symm.trans hn
      decide +kernel
    · simp at hsplit
  charges e he n hn := by
    have hcharged : ∀ e ∈ [failedAt 3, escalatedUnit, grantOf 2],
        (ofUnit "u" (RunState.charged e)).getD 3 = 3 := by decide +kernel
    have hthree := hcharged e he
    rw [show ofUnit "u" (RunState.charged e) = some n from hn] at hthree
    rw [show n = 3 from hthree]
    decide
  launches := nofun
  reruns attempt := by
    have hnone : [failedAt 3, escalatedUnit, grantOf 2].filterMap (infraMark "u") = [] := by
      decide +kernel
    rw [rerunsMarked, show implemented.unit = "u" from rfl, hnone]
    simp

/-- A grant above what is spent is summed exactly; one below it is not. -/
theorem attempts_exact_iff_resumed :
    Exact implemented [failedAt 3, escalatedUnit, grantOf 2] [] ∧
      ¬Exact implemented smallGrant [] := by
  refine ⟨(attempts_exact_iff implemented _ [] (by decide +kernel)).2 within_resumed, fun h => ?_⟩
  have hwithin := (attempts_exact_iff implemented smallGrant [] (by decide +kernel)).1 h
  have hgrant : ofUnit "u" (RunState.granted (grantOf 1)) = some 1 := by decide +kernel
  have hbound := (hwithin.grants (smallGrant.take 4) (grantOf 1) [] rfl 1 hgrant).2
  revert hbound
  decide +kernel

/-- The largest grant leaves a bound of two, so the next failure escalates; and a grant lowers a
bound that is not spent. -/
theorem hugeGrant_wraps :
    (project hugeGrant).map (fun run => (run.unitAt "u").resumeBound) = some 2 ∧
      (project hugeGrant).map (fun run => (remediate (run.unitAt "u").attempts
        (implemented.maxRetriesFor run)).decision) = some .escalate ∧
      (project (smallGrant.take 3)).map implemented.maxRetriesFor = some 13 ∧
      (project smallGrant).map implemented.maxRetriesFor = some 4 ∧
      ¬(∀ u log progressEvents, (∀ e ∈ log, folds e = true) → Exact u log progressEvents) := by
  refine ⟨by decide +kernel, by decide +kernel, by decide +kernel, by decide +kernel, fun h => ?_⟩
  have hlog : hugeGrant = [failedAt 3, escalatedUnit] ++ grantOf 4294967295 :: [] := rfl
  have hgranted : ofUnit implemented.unit (RunState.granted (grantOf 4294967295)) =
      some 4294967295 := by decide +kernel
  have hfits := Exact.fits (by decide +kernel) (h implemented hugeGrant [] (by decide +kernel)) hlog
    hgranted
  exact absurd hfits (by decide +kernel)

end Rigger.Conductor
