import Mathlib.Data.List.Basic

/-!
# Disjoint occurrences

`matchIndices` scans a list for a needle from left to right and goes on after each match, so a match
hides the occurrences that overlap it.  A scan that asks for a boundary before an occurrence finds
the needle in every text it stands in at one exactly where the needle does not start again within
itself at a boundary (`scan_finds_iff`).
-/

namespace Lib

section
variable {α : Type} [DecidableEq α] (needle : List α)

/-- The matches with what stands before and after each, `skip` elements of a match still to come. -/
def matchFrom (before : List α) : ℕ → List α → List (List α × List α)
  | _, [] => []
  | skip + 1, c :: cs => matchFrom (before ++ [c]) skip cs
  | 0, c :: cs =>
    if needle <+: c :: cs then
      (before, (c :: cs).drop needle.length) :: matchFrom (before ++ [c]) (needle.length - 1) cs
    else matchFrom (before ++ [c]) 0 cs

def matchIndices (l : List α) : List (List α × List α) := matchFrom needle [] 0 l

variable {needle}

end

/-! ## Boundaries -/

section
variable {α : Type} (inner : α → Bool)

/-- Nothing inner stands last. -/
def EndsOuter (l : List α) : Prop := ∀ c ∈ l.getLast?, inner c = false

/-- Nowhere within the needle does it start again after something that is not inner. -/
def SelfApart (needle : List α) : Prop :=
  ∀ a b c, needle = a ++ b → needle = b ++ c → a ≠ [] → b ≠ [] → ¬EndsOuter inner a

variable {inner}

theorem endsOuter_iff {l : List α} :
    EndsOuter inner l ↔ l.getLast?.all (fun c => !inner c) = true := by
  unfold EndsOuter
  cases l.getLast? <;> simp

end

section
variable {α : Type} [DecidableEq α] {inner : α → Bool} {needle : List α} {before : List α}
  {v l : List α}

/-- The scan meets an occurrence at a boundary, where the needle does not start again at one. -/
theorem mem_matchFrom (hapart : SelfApart inner needle) (hneedle : needle ≠ []) {u : List α}
    {skip : ℕ} (hskip : skip ≤ u.length) (hbefore : EndsOuter inner (before ++ u)) :
    (before ++ u, v) ∈ matchFrom needle before skip (u ++ needle ++ v) := by
  induction u generalizing before skip with
  | nil =>
    have hzero : skip = 0 := Nat.le_zero.1 hskip
    obtain ⟨c, cs, rfl⟩ := List.exists_cons_of_ne_nil hneedle
    subst hzero
    rw [List.append_nil, List.nil_append, List.cons_append, matchFrom,
      if_pos ⟨v, by rw [List.cons_append]⟩]
    refine List.mem_cons.2 (.inl ?_)
    rw [← List.cons_append, List.drop_left]
  | cons c u ih =>
    have hstep : before ++ c :: u = before ++ [c] ++ u := by simp
    rw [hstep] at hbefore ⊢
    rw [List.cons_append, List.cons_append]
    cases skip with
    | succ skip =>
      rw [matchFrom]
      exact ih (by simpa using hskip) hbefore
    | zero =>
      rw [matchFrom]
      split
      · next hpre =>
        refine List.mem_cons_of_mem _ (ih ?_ hbefore)
        -- a match that reached into the occurrence would be the needle starting again within itself
        by_contra hlong
        obtain ⟨w, hw⟩ := hpre
        have hlt : (c :: u).length < needle.length := by
          rw [List.length_cons]
          omega
        obtain ⟨b, hb, hbw⟩ : ∃ b, needle = c :: u ++ b ∧ needle ++ v = b ++ w := by
          have heq : needle ++ w = c :: u ++ (needle ++ v) := by
            rw [hw, List.cons_append, List.append_assoc]
          rcases List.append_eq_append_iff.1 heq with ⟨b, hb, -⟩ | ⟨b, hb, hbw⟩
          · rw [hb, List.length_append] at hlt
            omega
          · exact ⟨b, hb, hbw⟩
        have hbne : b ≠ [] := by
          rintro rfl
          rw [hb, List.append_nil] at hlt
          exact Nat.lt_irrefl _ hlt
        obtain ⟨c', hc'⟩ : ∃ c', needle = b ++ c' := by
          rcases List.append_eq_append_iff.1 hbw with ⟨d, hd, -⟩ | ⟨d, hd, -⟩
          · -- the border is no longer than the needle
            have hlength : d = [] := by
              rw [← List.length_eq_zero_iff]
              have h₁ := congrArg List.length hb
              have h₂ := congrArg List.length hd
              rw [List.length_append, List.length_cons] at h₁
              rw [List.length_append] at h₂
              omega
            exact ⟨[], by rw [hd, hlength, List.append_nil, List.append_nil]⟩
          · exact ⟨d, hd⟩
        refine hapart (c :: u) b c' hb hc' (List.cons_ne_nil _ _) hbne fun x hx => hbefore x ?_
        rw [Option.mem_def, ← hstep, List.getLast?_append, hx]
        rfl
      · exact ih (Nat.zero_le _) hbefore

theorem matchFrom_of_short {skip : ℕ} (hshort : l.length < needle.length) :
    matchFrom needle before skip l = [] := by
  induction l generalizing before skip with
  | nil => cases skip <;> rfl
  | cons c cs ih =>
    have hrest : cs.length < needle.length := Nat.lt_of_succ_lt hshort
    cases skip with
    | succ skip => exact ih hrest
    | zero =>
      rw [matchFrom, if_neg fun hpre => absurd hpre.length_le (Nat.not_le.2 hshort)]
      exact ih hrest

theorem matchFrom_skip {pre : List α} :
    matchFrom needle before pre.length (pre ++ l) = matchFrom needle (before ++ pre) 0 l := by
  induction pre generalizing before with
  | nil => rw [List.append_nil]; rfl
  | cons c pre ih =>
    rw [List.length_cons, List.cons_append, matchFrom, ih, List.append_assoc]
    rfl

/-- After something else than its first element, a needle that what follows is too short for is met
once. -/
theorem matchIndices_once {p c : α} {cs : List α} (hp : p ≠ c) (hv : v.length < (c :: cs).length) :
    matchIndices (c :: cs) (p :: (c :: cs ++ v)) = [([p], v)] := by
  rw [matchIndices, matchFrom, if_neg fun hpre => hp (List.cons_prefix_cons.1 hpre).1.symm,
    List.cons_append, matchFrom, if_pos ⟨v, rfl⟩, ← List.cons_append, List.drop_left,
    List.length_cons, Nat.add_sub_cancel, matchFrom_skip, matchFrom_of_short hv]
  rfl

section
variable (inner) (test : List α → Bool)

/-- The scan meets an occurrence nothing inner stands before, and after which the test holds. -/
def scanFinds (needle l : List α) : Bool :=
  (matchIndices needle l).any fun occ => occ.1.getLast?.all (fun c => !inner c) && test occ.2

/-- There is such an occurrence. -/
def Stands (needle l : List α) : Prop :=
  ∃ u v, l = u ++ needle ++ v ∧ EndsOuter inner u ∧ test v = true

end

variable {test : List α → Bool}

theorem scanFinds_of_stands (hapart : SelfApart inner needle) (hneedle : needle ≠ [])
    (h : Stands inner test needle l) : scanFinds inner test needle l = true := by
  obtain ⟨u, v, rfl, hu, hv⟩ := h
  refine List.any_eq_true.2 ⟨(u, v), mem_matchFrom hapart hneedle (Nat.zero_le _) hu, ?_⟩
  rw [Bool.and_eq_true]
  exact ⟨endsOuter_iff.1 hu, hv⟩

/-- The scan finds the needle in every text it stands in just where it does not start again within
itself at a boundary. -/
theorem scan_finds_iff (hneedle : needle ≠ []) (hinner : ∀ c, ∃ p, p ≠ c ∧ inner p = true)
    (hend : test [] = true) :
    (∀ l, Stands inner test needle l → scanFinds inner test needle l = true) ↔
      SelfApart inner needle := by
  constructor
  · intro hfinds a b c hab hbc ha hb hends
    obtain ⟨x, xs, hx⟩ := List.exists_cons_of_ne_nil hneedle
    obtain ⟨p, hp, hpinner⟩ := hinner x
    have hstands : Stands inner test needle (p :: a ++ needle) := by
      refine ⟨p :: a, [], by rw [List.append_nil], ?_, hend⟩
      intro y hy
      obtain ⟨z, zs, rfl⟩ := List.exists_cons_of_ne_nil ha
      exact hends y (by rwa [List.getLast?_cons_cons] at hy)
    have hlength : c.length < needle.length := by
      have hone := congrArg List.length hab
      have hother := congrArg List.length hbc
      rw [List.length_append] at hone hother
      have hpos := List.length_pos_iff.2 hb
      omega
    have honce : matchIndices needle (p :: a ++ needle) = [([p], c)] := by
      have htext : p :: a ++ needle = p :: (needle ++ c) := by
        rw [List.cons_append, hbc, ← List.append_assoc, ← hab, hbc]
      rw [htext, hx]
      rw [hx] at hlength
      exact matchIndices_once hp hlength
    have hfound := hfinds _ hstands
    rw [scanFinds, honce] at hfound
    simp [hpinner] at hfound
  · exact fun hapart l hl => scanFinds_of_stands hapart hneedle hl

end

end Lib
