import Mathlib.Data.List.TakeWhile

/-!
# The blocks of a list

An element that opens a block is its first, and what follows belongs to it up to an element that
stops it; an element that opens one stops the one before.  `blocks` reads each block ahead of its
opening, `owners` says of each element which block it is in from a count and a flag: an element's
number is its block's place, and the elements of a number are the block (`blocks_placed`).
-/

namespace Lib

section
variable {α : Type} (opens stops : α → Bool)

def blocks : List α → List (List α)
  | [] => []
  | x :: l => if opens x then (x :: l.takeWhile fun y => !stops y) :: blocks l else blocks l

/-- The number of each element's block; `count` were opened, the last of which may be open. -/
def owners (count : Nat) (isOpen : Bool) : List α → List (Option Nat)
  | [] => []
  | x :: l =>
    if opens x then some (count + 1) :: owners (count + 1) true l
    else if stops x then none :: owners count false l
    else if isOpen then some count :: owners count isOpen l
    else none :: owners count isOpen l

variable {opens stops}

theorem owners_of_opens {x : α} (h : opens x = true) (count : Nat) (isOpen : Bool) (l : List α) :
    owners opens stops count isOpen (x :: l) =
      some (count + 1) :: owners opens stops (count + 1) true l := by
  rw [owners, if_pos h]

/-- An element that opens no block has no number or the open one's. -/
theorem owners_of_not_opens {x : α} (h : ¬opens x = true) (count : Nat) (isOpen : Bool)
    (l : List α) :
    ∃ owner isOpen', owners opens stops count isOpen (x :: l) =
      owner :: owners opens stops count isOpen' l ∧ (∀ n, owner = some n → n = count) ∧
      (isOpen = false → owner = none ∧ isOpen' = false) := by
  rw [owners, if_neg h]
  split
  · exact ⟨none, false, rfl, by simp, by simp⟩
  · split
    · next hopen => exact ⟨some count, isOpen, rfl, by simp, by simp [hopen]⟩
    · exact ⟨none, isOpen, rfl, by simp, fun h => ⟨rfl, h⟩⟩

@[simp] theorem length_owners (count : Nat) (isOpen : Bool) (l : List α) :
    (owners opens stops count isOpen l).length = l.length := by
  induction l generalizing count isOpen with
  | nil => rfl
  | cons x l ih =>
    by_cases hx : opens x = true
    · rw [owners_of_opens hx, List.length_cons, List.length_cons, ih]
    · obtain ⟨owner, isOpen', heq, -⟩ := owners_of_not_opens hx count isOpen l
      rw [heq, List.length_cons, List.length_cons, ih]

variable {l block : List α}

theorem mem_owners {count n : Nat} {isOpen : Bool}
    (h : some n ∈ owners opens stops count isOpen l) :
    count ≤ n ∧ n ≤ count + (blocks opens stops l).length ∧ (isOpen = false → count < n) := by
  induction l generalizing count isOpen with
  | nil => cases h
  | cons x l ih =>
    by_cases hx : opens x = true
    · rw [owners_of_opens hx] at h
      rw [blocks, if_pos hx, List.length_cons]
      rcases List.mem_cons.1 h with h | h
      · cases h
        omega
      · have := ih h
        omega
    · obtain ⟨owner, isOpen', heq, howner, hclosed⟩ := owners_of_not_opens hx count isOpen l
      rw [heq] at h
      rw [blocks, if_neg hx]
      rcases List.mem_cons.1 h with h | h
      · have hn := howner n h.symm
        refine ⟨by omega, by omega, fun hopen => ?_⟩
        rw [(hclosed hopen).1] at h
        cases h
      · obtain ⟨hlow, hhigh, hstrict⟩ := ih h
        exact ⟨hlow, hhigh, fun hopen => hstrict (hclosed hopen).2⟩

theorem owners_open (hstops : ∀ x, opens x = true → stops x = true) (count : Nat) (l : List α) :
    owners opens stops count true l =
      List.replicate (l.takeWhile fun y => !stops y).length (some count) ++
        owners opens stops count false (l.dropWhile fun y => !stops y) := by
  induction l with
  | nil => rfl
  | cons x l ih =>
    by_cases hx : stops x = true
    · rw [List.takeWhile_cons_of_neg (by simp [hx]), List.dropWhile_cons_of_neg (by simp [hx])]
      show _ = owners opens stops count false (x :: l)
      rw [owners, owners]
      simp [hx]
    · have hopens : ¬opens x = true := fun h => hx (hstops x h)
      rw [List.takeWhile_cons_of_pos (by simp [hx]),
        List.dropWhile_cons_of_pos (by simp [hx]), owners,
        if_neg hopens, if_neg hx, if_pos rfl, ih, List.length_cons, List.replicate_succ,
        List.cons_append]

theorem blocks_placed (hstops : ∀ x, opens x = true → stops x = true) {i : Nat}
    (h : (blocks opens stops l)[i]? = some block) (count : Nat) (isOpen : Bool) :
    ∃ before after numbers numbers', l = before ++ (block ++ after) ∧
      owners opens stops count isOpen l =
        numbers ++ (List.replicate block.length (some (count + i + 1)) ++ numbers') ∧
      numbers.length = before.length ∧ some (count + i + 1) ∉ numbers ∧
      some (count + i + 1) ∉ numbers' := by
  induction l generalizing i count isOpen with
  | nil => cases h
  | cons x l ih =>
    by_cases hx : opens x = true
    · rw [blocks, if_pos hx] at h
      rw [owners_of_opens hx]
      cases i with
      | zero =>
        cases h
        refine ⟨[], l.dropWhile fun y => !stops y, [],
          owners opens stops (count + 1) false (l.dropWhile fun y => !stops y),
          by simp [List.takeWhile_append_dropWhile], ?_, rfl, List.not_mem_nil, fun hmem => ?_⟩
        · rw [owners_open hstops]
          rfl
        · have := (mem_owners hmem).2.2 rfl
          omega
      | succ i =>
        obtain ⟨before, after, numbers, numbers', hl, howners, hlength, hnot, hnot'⟩ :=
          ih h (count + 1) true
        have hn : count + 1 + i + 1 = count + (i + 1) + 1 := by omega
        rw [hn] at howners hnot hnot'
        refine ⟨x :: before, after, some (count + 1) :: numbers, numbers', by rw [hl]; rfl,
          by rw [howners]; rfl, by simp [hlength], ?_, hnot'⟩
        rw [List.mem_cons, not_or]
        refine ⟨fun heq => ?_, hnot⟩
        rw [Option.some_inj] at heq
        omega
    · rw [blocks, if_neg hx] at h
      obtain ⟨owner, isOpen', heq, howner, -⟩ := owners_of_not_opens hx count isOpen l
      obtain ⟨before, after, numbers, numbers', hl, howners, hlength, hnot, hnot'⟩ :=
        ih h count isOpen'
      refine ⟨x :: before, after, owner :: numbers, numbers', by rw [hl]; rfl,
        by rw [heq, howners]; rfl, by simp [hlength], ?_, hnot'⟩
      rw [List.mem_cons, not_or]
      refine ⟨fun hnumber => ?_, hnot⟩
      have := howner _ hnumber.symm
      omega

theorem mem_blocks (h : block ∈ blocks opens stops l) :
    ∃ first rest, block = first :: rest ∧ opens first = true ∧ ∀ x ∈ rest, stops x = false := by
  induction l with
  | nil => cases h
  | cons x l ih =>
    unfold blocks at h
    split at h
    · next hx =>
      rcases List.mem_cons.1 h with rfl | h
      · refine ⟨x, _, rfl, hx, fun y hy => ?_⟩
        simpa using List.mem_takeWhile_imp hy
      · exact ih h
    · exact ih h

theorem blocks_dropWhile (hstops : ∀ x, opens x = true → stops x = true) (l : List α) :
    blocks opens stops (l.dropWhile fun y => !stops y) = blocks opens stops l := by
  induction l with
  | nil => rfl
  | cons x l ih =>
    by_cases hx : stops x = true
    · rw [List.dropWhile_cons_of_neg (by simp [hx])]
    · rw [List.dropWhile_cons_of_pos (by simp [hx]), ih, blocks, if_neg fun h => hx (hstops x h)]

theorem filter_owners (hstops : ∀ x, opens x = true → stops x = true) (l : List α) (n : Nat) :
    ((l.zip (owners opens stops 0 false l)).filter fun row => row.2 == some n).map Prod.fst =
      if n = 0 then [] else ((blocks opens stops l)[n - 1]?).getD [] := by
  have hnone : some n ∉ owners opens stops 0 false l →
      ((l.zip (owners opens stops 0 false l)).filter fun row => row.2 == some n) = [] := by
    intro hnot
    refine List.filter_eq_nil_iff.2 fun row hrow hn => hnot ?_
    have hmem := (List.of_mem_zip (show (row.1, row.2) ∈ _ from hrow)).2
    rwa [beq_iff_eq.1 hn] at hmem
  by_cases hn : n = 0
  · rw [if_pos hn, hnone fun h => absurd ((mem_owners h).2.2 rfl) (by omega)]
    rfl
  · rw [if_neg hn]
    obtain ⟨i, rfl⟩ := Nat.exists_eq_succ_of_ne_zero hn
    cases hblock : (blocks opens stops l)[i.succ - 1]? with
    | none =>
      rw [hnone fun h => ?_]
      · rfl
      · have hle := (mem_owners h).2.1
        rw [List.getElem?_eq_none_iff] at hblock
        omega
    | some block =>
      obtain ⟨before, after, numbers, numbers', hl, howners, hlength, hnot, hnot'⟩ :=
        blocks_placed hstops hblock 0 false
      have hi : 0 + (i.succ - 1) + 1 = i.succ := by omega
      rw [hi] at howners hnot hnot'
      have hafter : numbers'.length = after.length := by
        have htotal := congrArg List.length howners
        have hsize := congrArg List.length hl
        simp only [length_owners, List.length_append, List.length_replicate] at htotal hsize
        omega
      have hout : ∀ (rows : List α) (ns : List (Option Nat)), some i.succ ∉ ns →
          ((rows.zip ns).filter fun row => row.2 == some i.succ) = [] := by
        intro rows ns hns
        refine List.filter_eq_nil_iff.2 fun row hrow hn => hns ?_
        have hmem := (List.of_mem_zip (show (row.1, row.2) ∈ _ from hrow)).2
        rwa [beq_iff_eq.1 hn] at hmem
      have hin : ((block.zip (List.replicate block.length (some i.succ))).filter
          fun row => row.2 == some i.succ) =
          block.zip (List.replicate block.length (some i.succ)) := by
        refine List.filter_eq_self.2 fun row hrow => ?_
        have hmem := (List.of_mem_zip (show (row.1, row.2) ∈ _ from hrow)).2
        simpa using (List.mem_replicate.1 hmem).2
      have hrows : l.zip (owners opens stops 0 false l) = (before ++ (block ++ after)).zip
          (numbers ++ (List.replicate block.length (some i.succ) ++ numbers')) :=
        congrArg₂ List.zip hl howners
      rw [hrows, List.zip_append hlength.symm, List.zip_append (by simp), List.filter_append,
        List.filter_append, hout _ _ hnot, hout _ _ hnot', hin, List.nil_append, List.append_nil,
        List.map_fst_zip (by simp)]
      rfl

end

end Lib
