import Mathlib.Algebra.Order.Floor.Ring
import Mathlib.Algebra.Order.Floor.Semiring
import Mathlib.Tactic.Linarith
import Mathlib.Tactic.NormNum

/-!
# Rounding to the nearest natural number, a tie to the even one

`halfEven x` is past `n` exactly where `x` is past the middle between `n` and `n + 1`
(`succ_le_halfEven`), so it is monotone and two values round alike exactly where they are past the
same middles.
-/

namespace Lib

variable {K : Type} [Field K] [LinearOrder K]

/-- Nearer to `n + 1` than to `n`, or between the two with `n` odd. -/
def PastMiddle (n : ℕ) (x : K) : Prop := n + 1 / 2 < x ∨ x = n + 1 / 2 ∧ n % 2 = 1

instance (n : ℕ) (x : K) : Decidable (PastMiddle n x) := instDecidableOr

section
variable {n : ℕ} {x y : K}

theorem PastMiddle.mono (h : PastMiddle n x) (hxy : x ≤ y) : PastMiddle n y := by
  rcases h with hlt | ⟨rfl, hodd⟩
  · exact .inl (lt_of_lt_of_le hlt hxy)
  · rcases hxy.lt_or_eq with hlt | heq
    · exact .inl hlt
    · exact .inr ⟨heq.symm, hodd⟩

theorem pastMiddle_zero : PastMiddle 0 x ↔ 1 / 2 < x := by
  constructor
  · rintro (hlt | ⟨-, hodd⟩)
    · simpa using hlt
    · cases hodd
  · intro h
    exact .inl (by simpa using h)

theorem pastMiddle_odd (hodd : n % 2 = 1) : PastMiddle n x ↔ n + 1 / 2 ≤ x := by
  rw [le_iff_lt_or_eq]
  constructor
  · rintro (hlt | ⟨heq, -⟩)
    · exact .inl hlt
    · exact .inr heq.symm
  · rintro (hlt | heq)
    · exact .inl hlt
    · exact .inr ⟨heq.symm, hodd⟩

end

section
variable [FloorSemiring K] {x y : K}

def halfEven (x : K) : ℕ := if PastMiddle ⌊x⌋₊ x then ⌊x⌋₊ + 1 else ⌊x⌋₊

theorem halfEven_bounds (x : K) : ⌊x⌋₊ ≤ halfEven x ∧ halfEven x ≤ ⌊x⌋₊ + 1 := by
  unfold halfEven
  split <;> omega

variable [IsStrictOrderedRing K]

theorem succ_le_halfEven {n : ℕ} : n + 1 ≤ halfEven x ↔ PastMiddle n x := by
  obtain ⟨hfloor, hceil⟩ := halfEven_bounds x
  rcases Nat.lt_trichotomy n ⌊x⌋₊ with hlt | rfl | hlt
  · have hx : ((n + 1 : ℕ) : K) ≤ x := (Nat.le_floor_iff' (Nat.succ_ne_zero n)).1 hlt
    push_cast at hx
    exact iff_of_true (le_trans hlt hfloor) (.inl (by linarith))
  · unfold halfEven
    split
    · next hpast => exact iff_of_true (Nat.le_refl _) hpast
    · next hpast => exact iff_of_false (by omega) hpast
  · have hx : x < n := Nat.lt_of_floor_lt hlt
    refine iff_of_false (by omega) ?_
    rintro (hpast | ⟨heq, -⟩)
    · linarith
    · linarith

theorem halfEven_mono (h : x ≤ y) : halfEven x ≤ halfEven y := by
  cases hx : halfEven x with
  | zero => exact Nat.zero_le _
  | succ n =>
    have hpast : PastMiddle n x := succ_le_halfEven.1 (le_of_eq hx.symm)
    exact succ_le_halfEven.2 (hpast.mono h)

theorem halfEven_natCast (n : ℕ) : halfEven (n : K) = n := by
  have hnot : ¬PastMiddle n (n : K) := by
    rintro (hlt | ⟨heq, -⟩)
    · linarith
    · linarith
  rw [halfEven, Nat.floor_natCast, if_neg hnot]

theorem halfEven_le_iff {n : ℕ} : halfEven x ≤ n ↔ ¬PastMiddle n x := by
  rw [← succ_le_halfEven, Nat.succ_le_iff, not_lt]

theorem halfEven_eq_iff : halfEven x = halfEven y ↔ ∀ n, PastMiddle n x ↔ PastMiddle n y := by
  constructor
  · intro h n
    rw [← succ_le_halfEven, ← succ_le_halfEven, h]
  · intro h
    refine le_antisymm ?_ ?_
    · exact halfEven_le_iff.2 fun hpast => halfEven_le_iff.1 le_rfl ((h _).1 hpast)
    · exact halfEven_le_iff.2 fun hpast => halfEven_le_iff.1 le_rfl ((h _).2 hpast)

end

end Lib
