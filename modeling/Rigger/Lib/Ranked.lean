import Mathlib.Data.List.MinMax
import Rigger.Lib.Supersede

/-!
# Ranked lists

Sorted by an order in which no two of its elements tie, a list does not remember the order it came
in (`mergeSort_perm`).  The first element of each key is the least of its key (`exists_firsts`), and
the greatest by a measure that no other as great is before is the one taken
(`argmax_eq_some_of_first`).
-/

namespace Lib

section
variable {α : Type} {le : α → α → Bool}

theorem mergeSort_perm (htrans : ∀ a b c, le a b = true → le b c = true → le a c = true)
    (htotal : ∀ a b, (le a b || le b a) = true) {l l' : List α} (h : l.Perm l')
    (hanti : ∀ a ∈ l, ∀ b ∈ l, le a b = true → le b a = true → a = b) :
    l.mergeSort le = l'.mergeSort le := by
  have hperm : (l.mergeSort le).Perm (l'.mergeSort le) :=
    (List.mergeSort_perm l le).trans (h.trans (List.mergeSort_perm l' le).symm)
  refine hperm.eq_of_pairwise (fun a b ha hb hab hba => ?_)
    (List.pairwise_mergeSort htrans htotal l) (List.pairwise_mergeSort htrans htotal l')
  exact hanti a (List.mem_mergeSort.1 ha) b (h.mem_iff.2 (List.mem_mergeSort.1 hb)) hab hba

end

theorem pairwise_mergeSort_key {α β : Type} [LinearOrder β] (key : α → β) (l : List α) :
    (l.mergeSort fun a b => decide (key a ≤ key b)).Pairwise fun a b => key a ≤ key b := by
  have hsorted : (l.mergeSort fun a b => decide (key a ≤ key b)).Pairwise
      fun a b => decide (key a ≤ key b) = true := by
    refine List.pairwise_mergeSort (fun a b c hab hbc => ?_) (fun a b => ?_) l
    · rw [decide_eq_true_eq] at hab hbc ⊢
      exact hab.trans hbc
    · rw [Bool.or_eq_true, decide_eq_true_eq, decide_eq_true_eq]
      exact le_total _ _
  exact hsorted.imp of_decide_eq_true

section
variable {α κ : Type} [DecidableEq κ] {key : α → κ} {R : α → α → Prop} {l : List α}

/-- Of a list in order, the first of each key is not after any other of it. -/
theorem exists_firsts (hrefl : ∀ x, R x x) (hl : l.Pairwise R) {x : α} (hx : x ∈ l) :
    ∃ y ∈ firsts key l, key y = key x ∧ R y x := by
  induction l using List.reverseRecOn with
  | nil => cases hx
  | append_singleton l z ih =>
    obtain ⟨hl, -, hz⟩ := List.pairwise_append.1 hl
    rw [firsts_concat]
    rcases List.mem_append.1 hx with hx | hx
    · obtain ⟨y, hy, hrest⟩ := ih hl hx
      exact ⟨y, List.mem_append_left _ hy, hrest⟩
    · rw [List.mem_singleton.1 hx]
      by_cases hkey : key z ∈ l.map key
      · obtain ⟨y, hy, heq⟩ := exists_mem_firsts hkey
        exact ⟨y, List.mem_append_left _ hy, heq,
          hz y (mem_of_mem_firsts hy) z (List.mem_singleton.2 rfl)⟩
      · exact ⟨z, List.mem_append_right _
          (by rw [if_neg hkey]; exact List.mem_singleton.2 rfl), rfl,
          hrefl z⟩

end

section
variable {α β : Type} [DecidableEq α] [LinearOrder β] {f : α → β} {l : List α} {r : α → α → Prop}

theorem argmax_eq_some_of_first (hl : l.Pairwise r) {m : α} (hm : m ∈ l) (hle : ∀ a ∈ l, f a ≤ f m)
    (hfirst : ∀ a ∈ l, f m ≤ f a → ¬r a m) : l.argmax f = some m := by
  refine List.argmax_eq_some_iff.2 ⟨hm, hle, fun a ha hge => ?_⟩
  by_contra hlater
  have hbefore := List.pairwise_iff_getElem.1 hl _ _ (List.idxOf_lt_length_of_mem ha)
    (List.idxOf_lt_length_of_mem hm) (Nat.not_le.1 hlater)
  rw [List.getElem_idxOf, List.getElem_idxOf] at hbefore
  exact hfirst a ha hge hbefore

end

end Lib
