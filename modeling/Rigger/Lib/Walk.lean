import Mathlib.Order.Basic

/-!
# Breadth-first walks

`HopsFrom hop seeds n x` says that `x` is `n` hops from a seed, `Within hop seeds n x` that it is at
most `n`.  `Layer hop seeds n reached frontier` is what a breadth-first walk knows after `n` rounds:
it has reached what is within `n` hops and hopped from all of it but the frontier.  A round keeps it
(`Layer.next`), and a walk whose frontier ran out has reached all there is (`Layer.closed`).
-/

namespace Lib

section
variable {α : Type*} (hop : α → α → Prop) (seeds : α → Prop)

inductive HopsFrom : Nat → α → Prop where
  | seed {x : α} : seeds x → HopsFrom 0 x
  | hop {n : Nat} {x y : α} : HopsFrom n x → hop x y → HopsFrom (n + 1) y

def Within (n : Nat) (x : α) : Prop := ∃ k ≤ n, HopsFrom hop seeds k x

structure Layer (n : Nat) (reached frontier : α → Prop) : Prop where
  reached_iff : ∀ x, reached x ↔ Within hop seeds n x
  frontier_reached : ∀ x, frontier x → reached x
  expanded : ∀ x y, reached x → ¬frontier x → hop x y → reached y

variable {hop seeds}

@[simp] theorem hopsFrom_zero {x : α} : HopsFrom hop seeds 0 x ↔ seeds x :=
  ⟨fun h => by cases h; assumption, .seed⟩

@[simp] theorem hopsFrom_succ {n : Nat} {y : α} :
    HopsFrom hop seeds (n + 1) y ↔ ∃ x, HopsFrom hop seeds n x ∧ hop x y := by
  constructor
  · intro h
    cases h with
    | hop hx hxy => exact ⟨_, hx, hxy⟩
  · rintro ⟨x, hx, hxy⟩
    exact .hop hx hxy

theorem within_zero {x : α} : Within hop seeds 0 x ↔ seeds x := by
  constructor
  · rintro ⟨k, hk, hx⟩
    obtain rfl : k = 0 := by omega
    exact hopsFrom_zero.1 hx
  · intro hx
    exact ⟨0, Nat.le_refl 0, .seed hx⟩

theorem within_succ {n : Nat} {y : α} :
    Within hop seeds (n + 1) y ↔ Within hop seeds n y ∨ ∃ x, Within hop seeds n x ∧ hop x y := by
  constructor
  · rintro ⟨k, hk, hy⟩
    rcases Nat.lt_or_ge n k with hlt | hle
    · obtain rfl : k = n + 1 := by omega
      obtain ⟨x, hx, hxy⟩ := hopsFrom_succ.1 hy
      exact .inr ⟨x, ⟨n, Nat.le_refl n, hx⟩, hxy⟩
    · exact .inl ⟨k, hle, hy⟩
  · rintro (⟨k, hk, hy⟩ | ⟨x, ⟨k, hk, hx⟩, hxy⟩)
    · exact ⟨k, by omega, hy⟩
    · exact ⟨k + 1, by omega, .hop hx hxy⟩

theorem Layer.start {reached frontier : α → Prop} (hreached : ∀ x, reached x ↔ seeds x)
    (hfrontier : ∀ x, frontier x ↔ seeds x) : Layer hop seeds 0 reached frontier where
  reached_iff x := by rw [hreached, within_zero]
  frontier_reached x hx := (hreached x).2 ((hfrontier x).1 hx)
  expanded x y hx hnot _ := absurd ((hfrontier x).2 ((hreached x).1 hx)) hnot

namespace Layer

variable {n : Nat} {reached frontier reached' frontier' : α → Prop}

theorem next (h : Layer hop seeds n reached frontier)
    (hreached : ∀ y, reached' y ↔ reached y ∨ ∃ x, frontier x ∧ hop x y)
    (hfrontier : ∀ y, frontier' y ↔ reached' y ∧ ¬reached y) :
    Layer hop seeds (n + 1) reached' frontier' where
  reached_iff y := by
    rw [hreached, within_succ, ← h.reached_iff y]
    constructor
    · rintro (hy | ⟨x, hx, hxy⟩)
      · exact .inl hy
      · exact .inr ⟨x, (h.reached_iff x).1 (h.frontier_reached x hx), hxy⟩
    · rintro (hy | ⟨x, hx, hxy⟩)
      · exact .inl hy
      · by_cases hf : frontier x
        · exact .inr ⟨x, hf, hxy⟩
        · exact .inl (h.expanded x y ((h.reached_iff x).2 hx) hf hxy)
  frontier_reached y hy := ((hfrontier y).1 hy).1
  expanded x y hx hnot hxy := by
    -- What the round reached first is its frontier, so `x` was reached before it.
    have hbefore : reached x := by
      by_contra hnew
      exact hnot ((hfrontier x).2 ⟨hx, hnew⟩)
    by_cases hf : frontier x
    · exact (hreached y).2 (.inr ⟨x, hf, hxy⟩)
    · exact (hreached y).2 (.inl (h.expanded x y hbefore hf hxy))

theorem closed (h : Layer hop seeds n reached frontier) (hempty : ∀ x, ¬frontier x) (m : Nat)
    (x : α) : reached x ↔ Within hop seeds (n + m) x := by
  induction m generalizing x with
  | zero => exact h.reached_iff x
  | succ m ih =>
    rw [← Nat.add_assoc, within_succ, ← ih]
    constructor
    · exact .inl
    · rintro (hx | ⟨y, hy, hyx⟩)
      · exact hx
      · exact h.expanded y x ((ih y).2 hy) (hempty y) hyx

end Layer

end

end Lib
