import Mathlib.Data.List.Destutter
import Mathlib.Data.List.Sort

/-!
# Merging reads of one sorted list

`merge key a b` sorts two lists into one by `key` and keeps the first of each run of equal keys.
Where both are read off one strictly sorted list, the merge is the part of it they cover between
them, whatever they share (`merge_eq`).
-/

namespace Lib

section
variable {α κ : Type} [LinearOrder κ] (key : α → κ)

/-- The first of each run of equal keys. -/
def dedupByKey (l : List α) : List α := l.destutter fun a b => key a ≠ key b

def merge (a b : List α) : List α :=
  dedupByKey key ((a ++ b).insertionSort fun x y => key x ≤ key y)

theorem sorted_insertionSort (l : List α) :
    (l.insertionSort fun x y => key x ≤ key y).Pairwise fun x y => key x ≤ key y := by
  have htotal : Std.Total fun x y : α => key x ≤ key y := ⟨fun x y => le_total (key x) (key y)⟩
  have htrans : IsTrans α fun x y => key x ≤ key y := ⟨fun _ _ _ h h' => le_trans h h'⟩
  exact List.pairwise_insertionSort _ l

variable {key}

theorem exists_key_mem_destutter' (x : α) (l : List α) {y : α} (hy : y ∈ x :: l) :
    ∃ z ∈ l.destutter' (fun a b => key a ≠ key b) x, key z = key y := by
  induction l generalizing x y with
  | nil => exact ⟨x, by simp, by rw [List.mem_singleton.1 hy]⟩
  | cons w l ih =>
    by_cases hkey : key x ≠ key w
    · rw [List.destutter'_cons, if_pos hkey]
      rcases List.mem_cons.1 hy with rfl | hy
      · exact ⟨y, by simp, rfl⟩
      · obtain ⟨z, hz, heq⟩ := ih w hy
        exact ⟨z, List.mem_cons_of_mem _ hz, heq⟩
    · rw [List.destutter'_cons, if_neg hkey]
      rcases List.mem_cons.1 hy with rfl | hy
      · exact ih y List.mem_cons_self
      · rcases List.mem_cons.1 hy with heq | hy
        · obtain ⟨z, hz, hzx⟩ := ih x (y := x) List.mem_cons_self
          exact ⟨z, hz, by rw [hzx, heq, not_not.1 hkey]⟩
        · exact ih x (List.mem_cons_of_mem _ hy)

variable {l : List α}

variable (key) in
theorem exists_key_mem_dedupByKey {y : α} (hy : y ∈ l) : ∃ z ∈ dedupByKey key l, key z = key y := by
  cases l with
  | nil => cases hy
  | cons x l => exact exists_key_mem_destutter' x l hy

theorem strictly_sorted (hle : l.Pairwise fun x y => key x ≤ key y)
    (hne : l.IsChain fun x y => key x ≠ key y) : l.Pairwise fun x y => key x < key y := by
  induction l with
  | nil => exact List.Pairwise.nil
  | cons x l ih =>
    obtain ⟨hx, hl⟩ := List.pairwise_cons.1 hle
    obtain ⟨hhead, htail⟩ := List.isChain_cons.1 hne
    refine List.pairwise_cons.2 ⟨fun z hz => ?_, ih hl htail⟩
    cases l with
    | nil => cases hz
    | cons y l =>
      have hxy : key x < key y := lt_of_le_of_ne (hx y (by simp)) (hhead y (by simp))
      rcases List.mem_cons.1 hz with rfl | hz
      · exact hxy
      · exact hxy.trans_le ((List.pairwise_cons.1 hl).1 z hz)

theorem sorted_dedupByKey (h : l.Pairwise fun x y => key x ≤ key y) :
    (dedupByKey key l).Pairwise fun x y => key x < key y :=
  strictly_sorted (h.sublist (List.destutter_sublist _ l)) (List.isChain_destutter _ l)

variable (key) in
theorem sorted_merge (a b : List α) : (merge key a b).Pairwise fun x y => key x < key y :=
  sorted_dedupByKey (sorted_insertionSort key (a ++ b))

/-- The merge of two reads is what they cover of the list they were read off. -/
theorem merge_eq {a b c : List α} (hc : c.Pairwise fun x y => key x < key y)
    (hmem : ∀ x, x ∈ c ↔ x ∈ a ∨ x ∈ b) : merge key a b = c := by
  have hsub : ∀ x, x ∈ merge key a b → x ∈ c := by
    intro x hx
    have hsorted := (List.destutter_sublist _ _).subset hx
    rw [List.mem_insertionSort, List.mem_append] at hsorted
    exact (hmem x).2 hsorted
  have hinj : ∀ x ∈ c, ∀ y ∈ c, key x = key y → x = y := fun x hx y hy heq =>
    List.inj_on_of_nodup_map (List.pairwise_map.2 (hc.imp fun h => ne_of_lt h)) hx hy heq
  have hanti : Std.Antisymm fun x y : α => key x < key y :=
    ⟨fun x y (h : key x < key y) h' => absurd h' (lt_asymm h)⟩
  have hirrefl : Std.Irrefl fun x y : α => key x < key y := ⟨fun x => lt_irrefl (key x)⟩
  refine (sorted_merge key a b).eq_of_mem_iff hc fun x => ⟨hsub x, fun hx => ?_⟩
  -- the sort keeps x, and the row the cut keeps for x's key can only be x
  have hsorted : x ∈ (a ++ b).insertionSort fun x y => key x ≤ key y := by
    rw [List.mem_insertionSort, List.mem_append]
    exact (hmem x).1 hx
  obtain ⟨z, hz, heq⟩ := exists_key_mem_dedupByKey key hsorted
  rw [← hinj z (hsub z hz) x hx heq]
  exact hz

end

end Lib
