import Mathlib.Algebra.Order.GroupWithZero.Basic
import Mathlib.Data.Rat.Floor
import Rigger.Lib.HalfEven

/-!
# Failure rules (`rigger-domain/src/failure.rs`, `FailureRuleDef::to_rule` of `config.rs`)

A rule's backoff waits `duration * factor^n` before rerun `n`, at most `max` where there is one.  A
`Duration` is its nanoseconds, below 2^64 seconds; `from_secs_f64` rounds to the nearest, a tie to
the even one, and panics from there on.  The exponent is `n` as an `i32`.
-/

namespace Rigger.Failure

open Lib

/-! ## Rules -/

inductive FailureClass where
  | infra
  | product
  | flaky
deriving DecidableEq

namespace FailureClass

def asStr : FailureClass → String
  | infra => "infra"
  | product => "product"
  | flaky => "flaky"

def parse (s : String) : Option FailureClass :=
  if s = "infra" then some infra
  else if s = "product" then some product
  else if s = "flaky" then some flaky
  else none

theorem parse_asStr (c : FailureClass) : parse c.asStr = some c := by
  cases c <;> rfl

end FailureClass

/-- The nanoseconds of a second. -/
def second : ℕ := 10 ^ 9

/-- A `Duration` is below it. -/
def overlong : ℕ := 2 ^ 64 * second

def fromMillis (ms : UInt64) : ℕ := ms.toNat * 10 ^ 6

def asSecs (duration : ℕ) : ℚ := duration / second

/-- `Duration::from_secs_f64` of what is not negative; none where it panics. -/
def fromSecs (secs : ℚ) : Option ℕ :=
  if halfEven (secs * second) < overlong then some (halfEven (secs * second)) else none

/-- `n as i32`. -/
def asI32 (n : ℕ) : ℤ := if n < 2 ^ 31 then n else n - 2 ^ 32

structure Backoff where
  duration : ℕ
  factor : ℚ
  max : ℕ

/-- The delay before rerun `n`; none where the call panics. -/
def Backoff.delay (b : Backoff) (n : ℕ) : Option ℕ :=
  if b.duration = 0 then some 0
  else
    let scaled := asSecs b.duration * b.factor ^ asI32 n
    let capped := if b.max = 0 then scaled else min scaled (asSecs b.max)
    fromSecs (Max.max capped 0)

structure MatchDef where
  exitStatus : Option Int
  signal : Option Int
  outputRegex : Option String

structure BackoffDef where
  durationMs : UInt64
  factor : ℚ
  maxMs : UInt64

structure FailureRuleDef where
  matcher : MatchDef
  class_ : String
  limit : UInt32
  backoff : BackoffDef

structure FailureRule where
  matcher : MatchDef
  class_ : FailureClass
  limit : ℕ
  backoff : Backoff

/-- `regexError` is the error of a pattern that does not compile. -/
def FailureRuleDef.toRule (debug : String → String) (regexError : String → Option String)
    (d : FailureRuleDef) : Except String FailureRule :=
  match FailureClass.parse d.class_ with
  | none => .error ("failure rule has unknown class " ++ debug d.class_ ++
      " (want infra | product | flaky)")
  | some class_ =>
    match d.matcher.outputRegex.bind fun pattern => (regexError pattern).map fun e =>
      (pattern, e) with
    | some (pattern, e) => .error ("failure rule output_regex " ++ debug pattern ++ ": " ++ e)
    | none => .ok {
        matcher := d.matcher
        class_ := class_
        limit := d.limit.toNat
        backoff := {
          duration := fromMillis d.backoff.durationMs
          factor := if 0 < d.backoff.factor then d.backoff.factor else 1
          max := fromMillis d.backoff.maxMs } }

/-! ## Delays -/

/-- What `to_rule` leaves of a factor and a cap. -/
structure Admitted (b : Backoff) : Prop where
  factor_pos : 0 < b.factor
  max_lt : b.max < overlong

theorem admitted_of_toRule {debug : String → String} {regexError : String → Option String}
    {d : FailureRuleDef} {rule : FailureRule} (h : d.toRule debug regexError = .ok rule) :
    Admitted rule.backoff := by
  unfold FailureRuleDef.toRule at h
  split at h
  · cases h
  · split at h
    · cases h
    · cases h
      constructor
      · show 0 < if 0 < d.backoff.factor then d.backoff.factor else 1
        split
        · assumption
        · exact one_pos
      · have hlt := d.backoff.maxMs.toNat_lt
        show d.backoff.maxMs.toNat * 10 ^ 6 < overlong
        rw [overlong, second]
        omega

namespace Backoff
variable (b : Backoff)

/-- The exact nanoseconds at an exponent. -/
def exact (e : ℤ) : ℚ := b.duration * b.factor ^ e

def capped (e : ℤ) : ℚ := if b.max = 0 then b.exact e else min (b.exact e) b.max

end Backoff

section
variable {b : Backoff} (h : Admitted b)

theorem half_lt_capped {e : ℤ} : 1 / 2 < b.capped e ↔ 1 / 2 < b.exact e := by
  unfold Backoff.capped
  split
  · exact Iff.rfl
  · next hmax =>
    have hone : (1 : ℚ) ≤ b.max := by exact_mod_cast Nat.one_le_iff_ne_zero.2 hmax
    rw [lt_min_iff, and_iff_left (by linarith)]

theorem capped_le (e : ℤ) (hmax : b.max ≠ 0) : halfEven (b.capped e) ≤ b.max := by
  have hle : b.capped e ≤ b.max := by
    rw [Backoff.capped, if_neg hmax]
    exact min_le_right _ _
  exact (halfEven_mono hle).trans (halfEven_natCast b.max).le

theorem asSecs_mul (n : ℕ) : asSecs n * second = n := by
  have hne : (second : ℚ) ≠ 0 := by norm_num [second]
  rw [asSecs, div_mul_cancel₀ _ hne]

include h

theorem Admitted.capped_nonneg (e : ℤ) : 0 ≤ b.capped e := by
  have hexact : 0 ≤ b.exact e := mul_nonneg (Nat.cast_nonneg _) (zpow_pos h.factor_pos e).le
  unfold Backoff.capped
  split
  · exact hexact
  · exact le_min hexact (Nat.cast_nonneg _)

theorem Admitted.delay_eq (hduration : b.duration ≠ 0) (n : ℕ) :
    b.delay n = if halfEven (b.capped (asI32 n)) < overlong then some
    (halfEven (b.capped (asI32 n)))
      else none := by
  have hsecond : (0 : ℚ) < second := by norm_num [second]
  have hscaled : asSecs b.duration * b.factor ^ asI32 n * second = b.exact (asI32 n) := by
    rw [mul_right_comm, asSecs_mul, Backoff.exact]
  have hcapped : (if b.max = 0 then asSecs b.duration * b.factor ^ asI32 n
      else min (asSecs b.duration * b.factor ^ asI32 n) (asSecs b.max)) * second =
        b.capped (asI32 n) := by
    unfold Backoff.capped
    split
    · exact hscaled
    · rw [min_mul_of_nonneg _ _ hsecond.le, hscaled, asSecs_mul]
  unfold Backoff.delay fromSecs
  rw [if_neg hduration]
  dsimp only
  rw [max_mul_of_nonneg _ _ hsecond.le, hcapped, zero_mul, max_eq_left (h.capped_nonneg _)]

/-- The delay overflows where there is no cap and what is exact rounds to 2^64 seconds. -/
theorem Admitted.fits_iff {e : ℤ} :
    halfEven (b.capped e) < overlong ↔ (b.max = 0 → b.exact e < overlong - 1 / 2) := by
  by_cases hmax : b.max = 0
  · have hsucc : overlong - 1 + 1 = overlong := by decide
    have hcast : ((overlong - 1 : ℕ) : ℚ) + 1 / 2 = overlong - 1 / 2 := by
      rw [Nat.cast_sub (by decide)]
      push_cast
      ring
    rw [← not_le, ← hsucc, succ_le_halfEven, pastMiddle_odd (by decide), hcast, not_le, hsucc]
    simp [hmax, Backoff.capped]
  · have hlt := lt_of_le_of_lt (capped_le e hmax) h.max_lt
    exact iff_of_true hlt fun hzero => absurd hzero hmax

end

/-! ## Exponents -/

/-- The greatest exponent below the limit. -/
def topExponent (limit : ℕ) : ℤ := if limit ≤ 2 ^ 31 then limit - 1 else 2 ^ 31 - 1

/-- The least one: from 2^31 on the exponent is negative. -/
def bottomExponent (limit : ℕ) : ℤ := if limit ≤ 2 ^ 31 then 0 else -2 ^ 31

section
variable {limit n : ℕ}

theorem asI32_bounds (hn : n < limit) (hlimit : limit ≤ 2 ^ 32) :
    bottomExponent limit ≤ asI32 n ∧ asI32 n ≤ topExponent limit := by
  unfold bottomExponent topExponent asI32
  split <;> split <;> omega

theorem exists_top (hlimit : 0 < limit) : ∃ n < limit, asI32 n = topExponent limit := by
  unfold topExponent
  split
  · next hsmall =>
    refine ⟨limit - 1, by omega, ?_⟩
    rw [asI32, if_pos (by omega)]
    omega
  · next hlarge => exact ⟨2 ^ 31 - 1, by omega, by decide⟩

theorem exists_bottom (hlimit : 0 < limit) : ∃ n < limit, asI32 n = bottomExponent limit := by
  unfold bottomExponent
  split
  · exact ⟨0, hlimit, by decide⟩
  · next hlarge => exact ⟨2 ^ 31, by omega, by decide⟩

end

section
variable {b : Backoff} (h : Admitted b) {e e' : ℤ}

theorem exact_le (hle : e ≤ e') (hfactor : 1 ≤ b.factor) : b.exact e ≤ b.exact e' :=
  mul_le_mul_of_nonneg_left (zpow_le_zpow_right₀ hfactor hle) (Nat.cast_nonneg _)

theorem capped_mono (hle : e ≤ e') (hfactor : 1 ≤ b.factor) :
    b.capped e ≤ b.capped e' := by
  unfold Backoff.capped
  split
  · exact exact_le hle hfactor
  · exact min_le_min_right _ (exact_le hle hfactor)

include h

theorem Admitted.exact_ge (hle : e ≤ e') (hfactor : b.factor ≤ 1) : b.exact e' ≤ b.exact e :=
  mul_le_mul_of_nonneg_left (zpow_le_zpow_right_of_le_one₀ h.factor_pos hfactor hle)
    (Nat.cast_nonneg _)

theorem Admitted.exact_between {e'' : ℤ} (hle : e ≤ e') (hle' : e' ≤ e'') :
    min (b.exact e) (b.exact e'') ≤ b.exact e' ∧ b.exact e' ≤ max (b.exact e) (b.exact e'') := by
  rcases le_total 1 b.factor with hfactor | hfactor
  · exact ⟨min_le_of_left_le (exact_le hle hfactor), le_max_of_le_right (exact_le hle' hfactor)⟩
  · exact ⟨min_le_of_right_le (h.exact_ge hle' hfactor), le_max_of_le_left (h.exact_ge hle hfactor)⟩

end

/-! ## Reruns -/

/-- Every rerun below the limit has a delay, within the cap, zero only for a base of zero, and not
shorter than an earlier one's where the factor is at least 1. -/
structure Bounded (b : Backoff) (limit : ℕ) : Prop where
  total : ∀ n < limit, ∃ d, b.delay n = some d
  cap : ∀ n < limit, ∀ d, b.delay n = some d → b.max ≠ 0 → d ≤ b.max
  zero : ∀ n < limit, ∀ d, b.delay n = some d → (d = 0 ↔ b.duration = 0)
  mono : 1 ≤ b.factor → ∀ m < limit, ∀ n ≤ m, ∀ d d', b.delay n = some d → b.delay m = some d' →
    d ≤ d'

/-- What keeps the delays below the limit in bounds: at the two exponents furthest apart what is
exact is above half a nanosecond and, uncapped, below half a nanosecond short of 2^64 seconds; and
where the factor is at least 1 either the exponent does not wrap or no rounding tells the two
apart. -/
structure Tame (b : Backoff) (limit : ℕ) : Prop where
  low : 1 / 2 < min (b.exact (bottomExponent limit)) (b.exact (topExponent limit))
  high : b.max = 0 →
    max (b.exact (bottomExponent limit)) (b.exact (topExponent limit)) < overlong - 1 / 2
  wrap : 1 ≤ b.factor → limit ≤ 2 ^ 31 ∨
    ∀ k, PastMiddle k (b.capped (bottomExponent limit)) ↔
    PastMiddle k (b.capped (topExponent limit))

section
variable {b : Backoff} (h : Admitted b) {limit : ℕ}
include h

variable {n : ℕ}

theorem Admitted.delay_of_fits (hduration : b.duration ≠ 0)
    (hfits : halfEven (b.capped (asI32 n)) < overlong) :
    b.delay n = some (halfEven (b.capped (asI32 n))) := by
  rw [h.delay_eq hduration, if_pos hfits]

theorem Admitted.eq_of_delay (hduration : b.duration ≠ 0) {d : ℕ} (hd : b.delay n = some d) :
    d = halfEven (b.capped (asI32 n)) ∧ d < overlong := by
  rw [h.delay_eq hduration] at hd
  split at hd
  · next hfits =>
    cases hd
    exact ⟨rfl, hfits⟩
  · cases hd

theorem Tame.bounded (hlimit : limit ≤ 2 ^ 32) (hduration : b.duration ≠ 0) (ht : Tame b limit) :
    Bounded b limit where
  total n hn := by
    obtain ⟨hbottom, htop⟩ := asI32_bounds hn hlimit
    have hbetween := (h.exact_between hbottom htop).2
    exact ⟨_, h.delay_of_fits hduration
      (h.fits_iff.2 fun hmax => lt_of_le_of_lt hbetween (ht.high hmax))⟩
  cap n _ d hd hmax := by
    rw [(h.eq_of_delay hduration hd).1]
    exact capped_le _ hmax
  zero n hn d hd := by
    obtain ⟨hbottom, htop⟩ := asI32_bounds hn hlimit
    have hhalf := lt_of_lt_of_le ht.low (h.exact_between hbottom htop).1
    have hpos : 0 + 1 ≤ halfEven (b.capped (asI32 n)) :=
      succ_le_halfEven.2 (pastMiddle_zero.2 (half_lt_capped.2 hhalf))
    rw [(h.eq_of_delay hduration hd).1]
    exact iff_of_false (by omega) hduration
  mono hfactor m hm n hnm d d' hd hd' := by
    rw [(h.eq_of_delay hduration hd).1, (h.eq_of_delay hduration hd').1]
    obtain ⟨hbottom, htop⟩ := asI32_bounds (lt_of_le_of_lt hnm hm) hlimit
    obtain ⟨hbottom', htop'⟩ := asI32_bounds hm hlimit
    rcases ht.wrap hfactor with hsmall | halike
    · have hle : asI32 n ≤ asI32 m := by
        unfold asI32
        rw [if_pos (by omega), if_pos (by omega)]
        omega
      exact halfEven_mono (capped_mono hle hfactor)
    · -- every delay is the one delay of the two ends
      calc halfEven (b.capped (asI32 n))
          ≤ halfEven (b.capped (topExponent limit)) := halfEven_mono (capped_mono htop hfactor)
        _ = halfEven (b.capped (bottomExponent limit)) := (halfEven_eq_iff.2 halike).symm
        _ ≤ halfEven (b.capped (asI32 m)) := halfEven_mono (capped_mono hbottom' hfactor)

theorem Bounded.exact_of (hduration : b.duration ≠ 0) (hb : Bounded b limit) (hn : n < limit) :
    1 / 2 < b.exact (asI32 n) ∧ (b.max = 0 → b.exact (asI32 n) < overlong - 1 / 2) := by
  obtain ⟨d, hd⟩ := hb.total n hn
  obtain ⟨heq, hlt⟩ := h.eq_of_delay hduration hd
  have hpos : 0 + 1 ≤ d := Nat.pos_of_ne_zero fun hzero => hduration ((hb.zero n hn d hd).1 hzero)
  rw [heq] at hpos hlt
  exact ⟨half_lt_capped.1 (pastMiddle_zero.1 (succ_le_halfEven.1 hpos)), h.fits_iff.1 hlt⟩

theorem Bounded.tame (hlimit : 0 < limit) (hduration : b.duration ≠ 0) (hb : Bounded b limit) :
    Tame b limit := by
  obtain ⟨n, hn, htop⟩ := exists_top hlimit
  obtain ⟨m, hm, hbottom⟩ := exists_bottom hlimit
  obtain ⟨hlow, hhigh⟩ := hb.exact_of h hduration hn
  obtain ⟨hlow', hhigh'⟩ := hb.exact_of h hduration hm
  rw [htop] at hlow hhigh
  rw [hbottom] at hlow' hhigh'
  refine ⟨lt_min hlow' hlow, fun hmax => max_lt (hhigh' hmax) (hhigh hmax), fun hfactor => ?_⟩
  by_cases hsmall : limit ≤ 2 ^ 31
  · exact .inl hsmall
  · refine .inr (halfEven_eq_iff.1 ?_)
    have hends : bottomExponent limit = asI32 (2 ^ 31) ∧
        topExponent limit = asI32 (2 ^ 31 - 1) := by
      rw [bottomExponent, topExponent, if_neg hsmall, if_neg hsmall]
      exact ⟨by decide, by decide⟩
    obtain ⟨d, hd⟩ := hb.total (2 ^ 31 - 1) (by omega)
    obtain ⟨d', hd'⟩ := hb.total (2 ^ 31) (by omega)
    have hle := hb.mono hfactor (2 ^ 31) (by omega) (2 ^ 31 - 1) (by omega) d d' hd hd'
    rw [(h.eq_of_delay hduration hd).1, (h.eq_of_delay hduration hd').1, ← hends.1,
      ← hends.2] at hle
    have hexponents : bottomExponent limit ≤ topExponent limit := by
      rw [hends.1, hends.2]
      decide
    exact le_antisymm (halfEven_mono (capped_mono hexponents hfactor)) hle

end

theorem bounded_of_zero {b : Backoff} (hduration : b.duration = 0)
    (limit : ℕ) : Bounded b limit := by
  have hzero : ∀ n, b.delay n = some 0 := fun n => by rw [Backoff.delay, if_pos hduration]
  refine ⟨fun n _ => ⟨0, hzero n⟩, fun n _ d hd _ => ?_, fun n _ d hd => ?_,
    fun _ m _ n _ d d' hd _ => ?_⟩
  · rw [hzero, Option.some.injEq] at hd
    omega
  · rw [hzero, Option.some.injEq] at hd
    exact iff_of_true hd.symm hduration
  · rw [hzero, Option.some.injEq] at hd
    omega

/-- Of an accepted rule, every rerun below the limit has a bounded delay exactly where the base is
zero, nothing is rerun, or the factor keeps the delays in bounds at the two ends. -/
theorem bounded_iff (debug : String → String) (regexError : String → Option String)
    (d : FailureRuleDef) (rule : FailureRule) (hrule : d.toRule debug regexError = .ok rule) :
    Bounded rule.backoff rule.limit ↔
      rule.backoff.duration = 0 ∨ rule.limit = 0 ∨ Tame rule.backoff rule.limit := by
  have h := admitted_of_toRule hrule
  have hlimit : rule.limit ≤ 2 ^ 32 := by
    unfold FailureRuleDef.toRule at hrule
    split at hrule
    · cases hrule
    · split at hrule
      · cases hrule
      · cases hrule
        exact d.limit.toNat_lt.le
  constructor
  · intro hb
    by_cases hduration : rule.backoff.duration = 0
    · exact .inl hduration
    · rcases Nat.eq_zero_or_pos rule.limit with hzero | hpos
      · exact .inr (.inl hzero)
      · exact .inr (.inr (hb.tame h hpos hduration))
  · rintro (hduration | hzero | ht)
    · exact bounded_of_zero hduration _
    · rw [hzero]
      exact ⟨by simp, by simp, by simp, by simp⟩
    · by_cases hduration : rule.backoff.duration = 0
      · exact bounded_of_zero hduration _
      · exact ht.bounded h hlimit hduration

/-- A flaky rule of `limit` reruns, the first after a second. -/
def flakyRule (factor : ℚ) (limit : UInt32) : FailureRuleDef := {
  matcher := { exitStatus := none, signal := none, outputRegex := none }
  class_ := "flaky"
  limit := limit
  backoff := { durationMs := 1000, factor := factor, maxMs := 0 } }

theorem bounded_doubling : Bounded { duration := 10 ^ 9, factor := 2, max := 0 } 5 := by
  have hends : bottomExponent 5 = 0 ∧ topExponent 5 = 4 := by decide
  refine (bounded_iff id (fun _ => none) (flakyRule 2 5) _ rfl).2
    (.inr (.inr ⟨?_, fun _ => ?_, ?_⟩))
  · show 1 / 2 <
      min (Backoff.exact { duration := 10 ^ 9, factor := 2, max := 0 } (bottomExponent 5))
      (Backoff.exact { duration := 10 ^ 9, factor := 2, max := 0 } (topExponent 5))
    rw [hends.1, hends.2]
    norm_num [Backoff.exact]
  · show max (Backoff.exact { duration := 10 ^ 9, factor := 2, max := 0 } (bottomExponent 5))
      (Backoff.exact { duration := 10 ^ 9, factor := 2, max := 0 } (topExponent 5)) <
      overlong - 1 / 2
    rw [hends.1, hends.2]
    norm_num [Backoff.exact, overlong, second]
  · exact fun _ => .inl (by decide)

/-- Ten times as long each time, the delay before rerun 20 is longer than a duration is. -/
theorem tenfold_overflows : ¬∀ (d : FailureRuleDef) (rule : FailureRule),
    d.toRule id (fun _ => none) = .ok rule → Bounded rule.backoff rule.limit := by
  intro h
  obtain ⟨d, hd⟩ := (h (flakyRule 10 21) _ rfl).total 20 (by decide)
  have hnone : Backoff.delay { duration := 10 ^ 9, factor := 10, max := 0 } 20 = none := by
    decide +kernel
  cases hnone.symm.trans hd

end Rigger.Failure
