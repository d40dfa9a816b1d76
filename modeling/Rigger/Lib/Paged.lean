import Mathlib.Algebra.GroupWithZero.Nat
import Mathlib.Data.List.MinMax
import Rigger.Lib.Grouped
import Rigger.Lib.Supersede

/-!
# Pages of ranked candidates

Each slot shows one of its candidates, the first of the least rank (`mem_shown`).  A page reads a
list in order and gives each key one row, until it has the rows it was asked for: it is the first
rows of the whole page (`page_eq`).
-/

namespace Lib

/-! ## Slots -/

section
variable {α σ ρ : Type} [LinearOrder ρ] [DecidableEq σ] (cmp : σ → σ → Ordering) [Std.TransCmp cmp]
  (slot : α → σ) (rank : α → ρ) (l : List α)

/-- The candidate of a slot. -/
def leader (s : σ) : Option α := (l.filter fun a => slot a = s).argmin rank

/-- A pass over the candidates, each taking its slot from one it ranks before. -/
def leaders : Std.ExtTreeMap σ (Option α) cmp :=
  gather cmp (List.argAux fun a b => rank a < rank b) none (l.map fun a => (slot a, a))

def shown : List α := (leaders cmp slot rank l).toList.filterMap Prod.snd

variable {cmp slot rank l} [Std.LawfulEqCmp cmp]

theorem leader_eq_some {s : σ} {a : α} (h : leader slot rank l s = some a) : a ∈ l ∧
    slot a = s := by
  have hmem := List.argmin_mem (Option.mem_def.2 h)
  rw [List.mem_filter, decide_eq_true_eq] at hmem
  exact hmem

theorem ofGroup_map_slot (s : σ) :
    ofGroup s (l.map fun a => (slot a, a)) = l.filter fun a => slot a = s := by
  unfold ofGroup
  rw [List.filter_map, List.map_map]
  exact List.map_id' _

theorem getElem?_leaders (s : σ) :
    (leaders cmp slot rank l)[s]?.bind id = leader slot rank l s := by
  unfold leaders leader
  rw [getElem?_gather, ofGroup_map_slot]
  split
  · next h =>
    rw [h]
    rfl
  · rfl

theorem mem_shown {a : α} : a ∈ shown cmp slot rank l ↔ leader slot rank l (slot a) = some a := by
  unfold shown
  rw [List.mem_filterMap]
  constructor
  · rintro ⟨⟨s, b⟩, hentry, hb⟩
    have hget := Std.ExtTreeMap.mem_toList_iff_getElem?_eq_some.1 hentry
    have hleader : (leaders cmp slot rank l)[s]?.bind id = leader slot rank l s :=
      getElem?_leaders s
    rw [hget] at hleader
    rw [show b = some a from hb] at hleader
    rw [(leader_eq_some hleader.symm).2]
    exact hleader.symm
  · intro h
    have hleader : (leaders cmp slot rank l)[slot a]?.bind id = leader slot rank l (slot a) :=
      getElem?_leaders (slot a)
    rw [← hleader, Option.bind_eq_some_iff] at h
    obtain ⟨b, hget, hb⟩ := h
    exact ⟨(slot a, b), Std.ExtTreeMap.mem_toList_iff_getElem?_eq_some.2 hget, hb⟩

end

/-! ## Pages -/

section
variable {α β κ : Type} [DecidableEq κ] (key : α → κ) (row : α → β) (k : ℕ)

/-- The rows of a list after those of `out`, until there are `k`. -/
def pageFrom : List α → List κ → List β → List β
  | [], _, out => out
  | a :: l, seen, out =>
    if key a ∈ seen then pageFrom l seen out
    else if k ≤ (out ++ [row a]).length then out ++ [row a]
    else pageFrom l (key a :: seen) (out ++ [row a])

variable {key row k}

theorem pageFrom_eq (l : List α) (seen : List κ) {out : List β} (hout : out.length < k) :
    pageFrom key row k l seen out =
      out ++ ((firstsFrom key seen l).map row).take (k - out.length) := by
  induction l generalizing seen out with
  | nil => simp [pageFrom, firstsFrom]
  | cons a l ih =>
    unfold pageFrom firstsFrom
    by_cases hseen : key a ∈ seen
    · rw [if_pos hseen, if_pos hseen, ih seen hout]
    · rw [if_neg hseen, if_neg hseen, List.map_cons]
      have hlength : (out ++ [row a]).length = out.length + 1 := by simp
      obtain ⟨n, hn⟩ := Nat.exists_eq_succ_of_ne_zero (Nat.sub_ne_zero_of_lt hout)
      rw [hlength, hn, List.take_succ_cons]
      by_cases hfull : k ≤ out.length + 1
      · have hzero : n = 0 := by omega
        rw [if_pos hfull, hzero, List.take_zero]
      · rw [if_neg hfull, ih _ (by omega), hlength, List.append_assoc, List.singleton_append]
        rw [show k - (out.length + 1) = n by omega]

variable {l : List α}

theorem mem_firsts_map {c : κ} : c ∈ (firsts key l).map key ↔ ∃ a ∈ l, key a = c := by
  constructor
  · intro h
    obtain ⟨a, ha, hkey⟩ := List.mem_map.1 h
    exact ⟨a, mem_of_mem_firsts ha, hkey⟩
  · rintro ⟨a, ha, hkey⟩
    obtain ⟨b, hb, hbkey⟩ := exists_mem_firsts (List.mem_map.2 ⟨a, ha, hkey⟩)
    exact List.mem_map.2 ⟨b, hb, hbkey⟩

theorem sum_of_nodup (hl : (l.map key).Nodup) (c : κ) (n : ℕ) :
    (l.map fun a => if key a = c then n else 0).sum = if c ∈ l.map key then n else 0 := by
  induction l with
  | nil => rfl
  | cons a l ih =>
    rw [List.map_cons, List.nodup_cons] at hl
    rw [List.map_cons, List.sum_cons, ih hl.2]
    by_cases hkey : key a = c
    · have hmem : c ∈ (a :: l).map key := List.mem_map.2 ⟨a, List.mem_cons_self, hkey⟩
      rw [if_pos hkey, if_neg (hkey ▸ hl.1), if_pos hmem, Nat.add_zero]
    · have hiff : c ∈ (a :: l).map key ↔ c ∈ l.map key := by
        rw [List.map_cons, List.mem_cons, or_iff_right (Ne.symm hkey)]
      rw [if_neg hkey, Nat.zero_add]
      simp only [hiff]

theorem page_eq (l : List α) (hk : k ≠ 0) :
    pageFrom key row k l [] [] = ((firsts key l).map row).take k := by
  rw [pageFrom_eq l [] (Nat.pos_of_ne_zero hk)]
  rfl

end

end Lib
