import Mathlib.Data.List.Count
import Mathlib.Logic.Function.Basic

/-!
# Requests and their answers, paired by count

Requests and answers name a key each.  `owed` walks the requests in order, lets the first
`answered k` of a key `k` go and keeps the rest: a key is kept as often as its requests outnumber
its answers (`count_owed`).
-/

namespace Lib

section
variable {α κ : Type} [DecidableEq κ] (key : α → κ) (answered : κ → Nat)

/-- The requests no answer is left for, `seen k` answers of a key being used up. -/
def owed (seen : κ → Nat) : List α → List α
  | [] => []
  | r :: rs =>
    if seen (key r) < answered (key r) then
      owed (Function.update seen (key r) (seen (key r) + 1)) rs
    else r :: owed seen rs

theorem count_owed (seen : κ → Nat) (rs : List α) (k : κ) :
    ((owed key answered seen rs).map key).count k =
      (rs.map key).count k - (answered k - seen k) := by
  induction rs generalizing seen with
  | nil => simp [owed]
  | cons r rs ih =>
    unfold owed
    by_cases hr : key r = k
    · subst hr
      split
      · rw [ih, Function.update_self, List.map_cons, List.count_cons_self]
        omega
      · rw [List.map_cons, List.count_cons_self, ih, List.map_cons, List.count_cons_self]
        omega
    · rw [List.map_cons, List.count_cons_of_ne hr]
      split
      · rw [ih, Function.update_of_ne (Ne.symm hr)]
      · rw [List.map_cons, List.count_cons_of_ne hr, ih]

theorem exists_owed_iff (rs : List α) (k : κ) :
    (∃ r ∈ owed key answered (fun _ => 0) rs, key r = k) ↔ answered k < (rs.map key).count k := by
  have hcount := count_owed key answered (fun _ => 0) rs k
  rw [Nat.sub_zero] at hcount
  rw [← List.mem_map, ← List.count_pos_iff, hcount]
  omega

end

end Lib
