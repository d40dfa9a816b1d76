import Mathlib.Algebra.BigOperators.Group.Finset.Basic
import Mathlib.Algebra.GroupWithZero.Nat

/-!
# Counts over a finite map

`holders p m` is the set of keys whose value passes `p`, `total m` the sum of a map of counts.  An
insertion changes the set at its key only (`holders_insert`), and the sum by what the value at the
key changes by (`total_insert`).
-/

namespace Lib

section
variable {κ β : Type} [Ord κ] [Std.TransOrd κ] [Std.LawfulEqOrd κ] [DecidableEq κ]

def holders (p : β → Bool) (m : Std.ExtTreeMap κ β) : Finset κ :=
  m.keys.toFinset.filter fun k => m[k]?.any p = true

section
variable {p : β → Bool} {m : Std.ExtTreeMap κ β} {k : κ}

theorem mem_holders : k ∈ holders p m ↔ m[k]?.any p = true := by
  unfold holders
  rw [Finset.mem_filter, List.mem_toFinset, Std.ExtTreeMap.mem_keys,
    Std.ExtTreeMap.mem_iff_isSome_getElem?, and_iff_right_iff_imp]
  intro h
  obtain ⟨v, hv, -⟩ := (Option.any_eq_true _ _).1 h
  rw [hv, Option.isSome_some]

theorem holders_insert (p : β → Bool) (m : Std.ExtTreeMap κ β) (k : κ) (v : β) :
    holders p (m.insert k v) =
      if p v = true then insert k (holders p m) else (holders p m).erase k := by
  ext j
  rw [mem_holders, Std.ExtTreeMap.getElem?_insert]
  by_cases hj : k = j
  · subst hj
    rw [if_pos Std.ReflCmp.compare_self, Option.any_some]
    split
    · next hv => exact iff_of_true hv (Finset.mem_insert_self _ _)
    · next hv => exact iff_of_false hv (Finset.notMem_erase _ _)
  · have hne : compare k j ≠ .eq := fun h => hj (Std.LawfulEqCmp.compare_eq_iff_eq.1 h)
    rw [if_neg hne, ← mem_holders]
    split
    · rw [Finset.mem_insert, or_iff_right (Ne.symm hj)]
    · rw [Finset.mem_erase, and_iff_right (Ne.symm hj)]

/-- A value that passes the test as the one before it did changes nothing. -/
theorem holders_insert_of_same {v : β} (h : p v = m[k]?.any p) :
    holders p (m.insert k v) = holders p m := by
  rw [holders_insert]
  split
  · next hv => exact Finset.insert_eq_self.2 (mem_holders.2 (h ▸ hv))
  · next hv => exact Finset.erase_eq_self.2 fun hk => hv (h ▸ mem_holders.1 hk)

theorem card_holders_insert {v : β} (hv : p v = true) (hold : m[k]?.any p = false) :
    (holders p (m.insert k v)).card = (holders p m).card + 1 := by
  have hnew : k ∉ holders p m := by
    rw [mem_holders, hold]
    exact Bool.false_ne_true
  rw [holders_insert, if_pos hv, Finset.card_insert_of_notMem hnew]

theorem holders_mono {q : β → Bool} (h : ∀ v, p v = true → q v = true) :
    holders p m ⊆ holders q m := by
  intro k hk
  rw [mem_holders] at hk ⊢
  obtain ⟨v, hv, hp⟩ := (Option.any_eq_true _ _).1 hk
  rw [hv]
  exact h v hp

theorem card_holders : (holders p m).card = (m.toList.filter fun x => p x.2).length := by
  have hkeys : holders p m = ((m.toList.filter fun x => p x.2).map Prod.fst).toFinset := by
    ext k
    rw [mem_holders, List.mem_toFinset, Option.any_eq_true]
    simp [Std.ExtTreeMap.mem_toList_iff_getElem?_eq_some]
  have hnodup : ((m.toList.filter fun x => p x.2).map Prod.fst).Nodup := by
    refine List.Nodup.sublist (List.filter_sublist.map Prod.fst) ?_
    rw [Std.ExtTreeMap.map_fst_toList_eq_keys]
    exact Std.ExtTreeMap.nodup_keys
  rw [hkeys, List.toFinset_card_of_nodup hnodup, List.length_map]

end

/-! ## Sums -/

variable (m : Std.ExtTreeMap κ Nat)

def total : Nat := ∑ k ∈ m.keys.toFinset, m[k]?.getD 0

theorem total_eq : total m = (m.toList.map Prod.snd).sum := by
  rw [total, List.sum_toFinset _ Std.ExtTreeMap.nodup_keys,
    ← Std.ExtTreeMap.map_fst_toList_eq_keys, List.map_map]
  refine congrArg List.sum (List.map_congr_left fun x hx => ?_)
  have hvalue := Std.ExtTreeMap.mem_toList_iff_getElem?_eq_some.1 hx
  rw [Function.comp_apply, hvalue, Option.getD_some]

theorem total_split (k : κ) :
    total m = m[k]?.getD 0 + ∑ j ∈ m.keys.toFinset.erase k, m[j]?.getD 0 := by
  unfold total
  by_cases hk : k ∈ m.keys.toFinset
  · exact (Finset.add_sum_erase _ _ hk).symm
  · have hnone : m[k]? = none := by
      rw [List.mem_toFinset, Std.ExtTreeMap.mem_keys] at hk
      exact Std.ExtTreeMap.getElem?_eq_none hk
    rw [Finset.erase_eq_self.2 hk, hnone, Option.getD_none, Nat.zero_add]

theorem total_insert (k : κ) (n : Nat) :
    total (m.insert k n) + m[k]?.getD 0 = total m + n := by
  have hkeys : (m.insert k n).keys.toFinset.erase k = m.keys.toFinset.erase k := by
    ext j
    simp only [Finset.mem_erase, List.mem_toFinset, Std.ExtTreeMap.mem_keys,
      Std.ExtTreeMap.mem_insert, Std.LawfulEqCmp.compare_eq_iff_eq]
    exact and_congr_right fun hj => or_iff_right (Ne.symm hj)
  have hrest : ∑ j ∈ m.keys.toFinset.erase k, (m.insert k n)[j]?.getD 0 =
      ∑ j ∈ m.keys.toFinset.erase k, m[j]?.getD 0 := by
    refine Finset.sum_congr rfl fun j hj => ?_
    rw [Std.ExtTreeMap.getElem?_insert, if_neg]
    rw [Std.LawfulEqCmp.compare_eq_iff_eq]
    exact Ne.symm (Finset.ne_of_mem_erase hj)
  rw [total_split _ k, total_split m k, hkeys, hrest, Std.ExtTreeMap.getElem?_insert_self,
    Option.getD_some]
  omega

end

end Lib
