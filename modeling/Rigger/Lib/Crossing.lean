import Mathlib.Algebra.Order.BigOperators.Group.List
import Mathlib.Data.Nat.Find

/-!
# Crossings of a trace

`rises p n` are the places of a trace of `n` steps at which `p` starts to hold and holds to its end:
there is one at most, and one where `p` holds at the end but failed before (`rises_nonempty_iff`).
Cut anywhere, a trace of a count that never falls crosses a threshold once at most (`crossed_add`).
`countP_filterMap_of_key` counts what a list that has each key once tells of a key.
-/

namespace Lib

section
variable {p : ℕ → Bool} {n : ℕ}

/-- The places after which `p`, which fails there, holds to the end. -/
def rises (p : ℕ → Bool) (n : ℕ) : List ℕ :=
  (List.range n).filter fun i => !p i && (List.range (n + 1)).all fun j =>
    decide (i < j → p j = true)

theorem mem_rises {i : ℕ} :
    i ∈ rises p n ↔ i < n ∧ p i = false ∧ ∀ j, i < j → j ≤ n → p j = true := by
  unfold rises
  simp only [List.mem_filter, List.mem_range, Bool.and_eq_true, Bool.not_eq_true', List.all_eq_true,
    decide_eq_true_eq, Nat.lt_succ_iff]
  constructor
  · rintro ⟨hlt, hfails, hholds⟩
    exact ⟨hlt, hfails, fun j hij hj => hholds j hj hij⟩
  · rintro ⟨hlt, hfails, hholds⟩
    exact ⟨hlt, hfails, fun j hj hij => hholds j hij hj⟩

theorem length_rises_le_one : (rises p n).length ≤ 1 := by
  have hsorted : (rises p n).Pairwise fun i j => i < j := List.pairwise_lt_range.filter _
  match hl : rises p n with
  | [] => simp
  | [_] => simp
  | i :: j :: _ =>
    have hlt : i < j := List.rel_of_pairwise_cons (hl ▸ hsorted) List.mem_cons_self
    have hi := mem_rises.1 (show i ∈ rises p n from hl ▸ List.mem_cons_self)
    have hj := mem_rises.1 (show j ∈ rises p n from hl ▸ List.mem_cons_of_mem _ List.mem_cons_self)
    have hholds := hi.2.2 j hlt (Nat.le_of_lt hj.1)
    rw [hj.2.1] at hholds
    cases hholds

theorem rises_nonempty_iff :
    0 < (rises p n).length ↔ p n = true ∧ ∃ i ≤ n, p i = false := by
  rw [List.length_pos_iff_exists_mem]
  constructor
  · rintro ⟨i, hi⟩
    obtain ⟨hlt, hfails, hholds⟩ := mem_rises.1 hi
    exact ⟨hholds n hlt (Nat.le_refl n), i, Nat.le_of_lt hlt, hfails⟩
  · rintro ⟨hend, i, hi, hfails⟩
    -- the last place at which it fails
    have hlast := Nat.findGreatest_spec (P := fun i => p i = false) hi hfails
    have hle := Nat.findGreatest_le (P := fun i => p i = false) n
    refine ⟨Nat.findGreatest (fun i => p i = false) n, mem_rises.2 ⟨?_, hlast, fun j hj hjn => ?_⟩⟩
    · refine lt_of_le_of_ne hle fun heq => ?_
      rw [heq, hend] at hlast
      cases hlast
    · exact Bool.eq_true_of_not_eq_false (Nat.findGreatest_is_greatest hj hjn)

/-- What is told from the ends, that `p` holds at the second and not at the first, counts the rises
unless `p` holds at both and fails between. -/
theorem eq_length_rises_iff {count : ℕ} (hle : count ≤ 1)
    (hpos : 0 < count ↔ p n = true ∧ p 0 ≠ true) :
    count = (rises p n).length ↔ (p 0 = true → p n = true → ∀ i ≤ n, p i = true) := by
  have hrises := length_rises_le_one (p := p) (n := n)
  have hnonempty := rises_nonempty_iff (p := p) (n := n)
  constructor
  · rintro heq hstart hend i hi
    by_contra hfails
    have hrise := hnonempty.2 ⟨hend, i, hi, Bool.eq_false_of_not_eq_true hfails⟩
    exact (hpos.1 (heq ▸ hrise)).2 hstart
  · intro hthroughout
    have hsame : 0 < count ↔ 0 < (rises p n).length := by
      rw [hpos, hnonempty]
      constructor
      · rintro ⟨hend, hstart⟩
        exact ⟨hend, 0, Nat.zero_le n, Bool.eq_false_of_not_eq_true hstart⟩
      · rintro ⟨hend, i, hi, hfails⟩
        refine ⟨hend, fun hstart => ?_⟩
        rw [hthroughout hstart hend i hi] at hfails
        cases hfails
    omega

end

/-! ## A threshold -/

/-- Whether a count that goes from one value to another reaches the threshold on the way. -/
def crossed (threshold before after : ℕ) : Bool :=
  decide (before < threshold) && decide (threshold ≤ after)

theorem crossed_eq_false_of_eq (threshold c : ℕ) : crossed threshold c c = false := by
  unfold crossed
  rw [Bool.and_eq_false_iff, decide_eq_false_iff_not, decide_eq_false_iff_not]
  omega

/-- What two stretches of a trace cross, one after the other, the whole crosses. -/
theorem crossed_add {threshold a b c : ℕ} (hab : a ≤ b) (hbc : b ≤ c) :
    (crossed threshold a b).toNat + (crossed threshold b c).toNat =
      (crossed threshold a c).toNat := by
  unfold crossed
  by_cases ha : a < threshold <;> by_cases hb : threshold ≤ b <;> by_cases hc : threshold ≤ c <;>
    simp [ha, hb, hc] <;> omega

/-! ## One of each key -/

section
variable {α β κ : Type} [DecidableEq κ] {key : α → κ} {tag : β → κ} {f : α → Option β} {l : List α}

theorem countP_filterMap_of_key (hnodup : (l.map key).Nodup)
    (htag : ∀ x ∈ l, ∀ b ∈ f x, tag b = key x) (k : κ) :
    let told := (l.filterMap f).countP fun b => decide (tag b = k)
    told ≤ 1 ∧ (0 < told ↔ ∃ x ∈ l, key x = k ∧ (f x).isSome = true) := by
  dsimp only
  constructor
  · induction l with
    | nil => simp
    | cons x l ih =>
      obtain ⟨hx, hl⟩ := List.nodup_cons.1 hnodup
      have ih := ih hl fun y hy => htag y (List.mem_cons_of_mem _ hy)
      cases hf : f x with
      | none => rwa [List.filterMap_cons_none hf]
      | some b =>
        rw [List.filterMap_cons_some hf, List.countP_cons]
        split
        · next hk =>
          have hkey : key x = k := (htag x List.mem_cons_self b hf).symm.trans
            (of_decide_eq_true hk)
          have hzero : (l.filterMap f).countP (fun b => decide (tag b = k)) = 0 := by
            refine List.countP_eq_zero.2 fun c hc hck => hx ?_
            obtain ⟨y, hy, hfy⟩ := List.mem_filterMap.1 hc
            have hsame := htag y (List.mem_cons_of_mem _ hy) c hfy
            exact List.mem_map.2 ⟨y, hy, by rw [← hsame, of_decide_eq_true hck, hkey]⟩
          omega
        · exact ih
  · rw [List.countP_pos_iff]
    constructor
    · rintro ⟨b, hb, hk⟩
      obtain ⟨x, hx, hf⟩ := List.mem_filterMap.1 hb
      refine ⟨x, hx, ?_, by rw [hf]; rfl⟩
      rw [← htag x hx b hf]
      exact of_decide_eq_true hk
    · rintro ⟨x, hx, hk, hsome⟩
      obtain ⟨b, hb⟩ := Option.isSome_iff_exists.1 hsome
      exact ⟨b, List.mem_filterMap.2 ⟨x, hx, hb⟩, decide_eq_true ((htag x hx b hb).trans hk)⟩

end

end Lib
