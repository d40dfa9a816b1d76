import Mathlib.Data.List.TakeWhile

/-!
# A stable sort and what stands at its end

`sortedAt` sorts the elements of a list with their places; without the places it is the stable sort
of the list (`map_sortedAt`).  An element that no other is above stays last (`sortedAt_concat`), and
what is taken from the end of a sorted list holds nothing below an element it stops at
(`of_mem_takeWhile_reverse`).
-/

namespace Lib

section
variable {α : Type} (le : α → α → Bool)

/-- The elements with their places, sorted; places decide between equals. -/
def sortedAt (l : List α) : List (α × Nat) := l.zipIdx.mergeSort (List.zipIdxLE le)

theorem map_sortedAt (l : List α) : (sortedAt le l).map Prod.fst = l.mergeSort le :=
  List.mergeSort_zipIdx

variable {x : α × Nat} {l : List α} {p : α → Bool}

theorem mem_sortedAt : x ∈ sortedAt le l ↔ l[x.2]? = some x.1 := by
  rw [sortedAt, List.mem_mergeSort]
  exact List.mem_zipIdx_iff_getElem?

variable {le}

theorem zipIdxLE_iff {y : α × Nat} : List.zipIdxLE le x y = true ↔
    le x.1 y.1 = true ∧ (le y.1 x.1 = true → x.2 ≤ y.2) := by
  unfold List.zipIdxLE
  split
  · split
    · next h h' => simp [h, h']
    · next h h' => simp [h, h']
  · next h => simp [h]

section
variable (htrans : ∀ a b c : α, le a b = true → le b c = true → le a c = true)
  (htotal : ∀ a b : α, (le a b || le b a) = true)
include htrans htotal

theorem pairwise_sortedAt (l : List α) :
    (sortedAt le l).Pairwise fun x y => List.zipIdxLE le x y = true :=
  List.pairwise_mergeSort (List.zipIdxLE_trans htrans) (List.zipIdxLE_total htotal) _

theorem sortedAt_concat {l : List α} {x : α} (h : ∀ y ∈ l, le y x = true) :
    sortedAt le (l ++ [x]) = sortedAt le l ++ [(x, l.length)] := by
  have hperm : (sortedAt le (l ++ [x])).Perm (sortedAt le l ++ [(x, l.length)]) := by
    refine (List.mergeSort_perm _ _).trans ?_
    rw [List.zipIdx_append, Nat.zero_add]
    exact (List.mergeSort_perm _ _).symm.append_right _
  have hsorted : (sortedAt le l ++ [(x, l.length)]).Pairwise
      fun x y => List.zipIdxLE le x y = true := by
    refine List.pairwise_append.2 ⟨pairwise_sortedAt htrans htotal l,
      List.pairwise_singleton _ _, ?_⟩
    intro y hy z hz
    rw [List.mem_singleton.1 hz]
    have hget := (mem_sortedAt le).1 hy
    refine zipIdxLE_iff.2 ⟨h y.1 (List.mem_of_getElem? hget), fun _ => ?_⟩
    obtain ⟨hlt, -⟩ := List.getElem?_eq_some_iff.1 hget
    exact Nat.le_of_lt hlt
  refine hperm.eq_of_pairwise (fun y z hy hz hyz hzy => ?_)
    (pairwise_sortedAt htrans htotal _) hsorted
  have hget := (mem_sortedAt le).1 hy
  have hget' := (mem_sortedAt le).1 (hperm.mem_iff.2 hz)
  rw [zipIdxLE_iff] at hyz hzy
  have hplace : y.2 = z.2 := Nat.le_antisymm (hyz.2 hzy.1) (hzy.2 hyz.1)
  rw [hplace, hget'] at hget
  exact Prod.ext (Option.some.inj hget).symm hplace

end

theorem of_mem_takeWhile_reverse {R : α → α → Prop} (hl : l.Pairwise R) {x y : α}
    (hx : x ∈ l.reverse.takeWhile p) (hy : y ∈ l) (hne : ¬R y x) : p y = true := by
  have hmem : y ∈ l.reverse.takeWhile p ++ l.reverse.dropWhile p := by
    rw [List.takeWhile_append_dropWhile, List.mem_reverse]
    exact hy
  rcases List.mem_append.1 hmem with hin | hout
  · exact List.mem_takeWhile_imp hin
  · have hpair : (l.reverse.takeWhile p ++ l.reverse.dropWhile p).Pairwise fun a b => R b a := by
      rw [List.takeWhile_append_dropWhile]
      exact List.pairwise_reverse.2 hl
    exact absurd ((List.pairwise_append.1 hpair).2.2 x hx y hout) hne

theorem takeWhile_sublist {q : α → Bool} (h : ∀ x, p x = true → q x = true) (l : List α) :
    (l.takeWhile p).Sublist (l.takeWhile q) := by
  induction l with
  | nil => exact List.Sublist.refl _
  | cons x l ih =>
    by_cases hp : p x = true
    · rw [List.takeWhile_cons_of_pos hp, List.takeWhile_cons_of_pos (h x hp)]
      exact ih.cons_cons x
    · rw [List.takeWhile_cons_of_neg hp]
      exact List.nil_sublist _

end

end Lib
