import Mathlib.Data.List.SplitBy
import Mathlib.Data.Set.Basic
import Mathlib.Order.MinMax

/-!
# Following a log

A follower holds a set of a log's positions and a cursor.  It is `Followed` up to the cursor where
it holds everything owed up to there, whatever it holds past it.  A list `Spans` a stretch of the
log where it names everything owed there; a follower that holds such a stretch from its cursor or
below moves its cursor to the end (`Followed.advance`), and one that starts over what it holds
starts just below the first position it misses (`seedAt`).
-/

namespace Lib

/-! ## Chunks -/

section
variable {α : Type} (n : Nat)

/-- Up to `k` elements more of the chunk under way, and the chunks after it. -/
def chunkFrom : Nat → List α → List α × List (List α)
  | _, [] => ([], [])
  | 0, x :: l => ([], (x :: (chunkFrom n l).1) :: (chunkFrom n l).2)
  | k + 1, x :: l => (x :: (chunkFrom k l).1, (chunkFrom k l).2)

/-- The chunks of at most `n + 1` elements of a list. -/
def chunks (l : List α) : List (List α) := (chunkFrom n 0 l).2

theorem chunkFrom_eq (k : Nat) (l : List α) :
    chunkFrom n k l = (l.take k, chunks n (l.drop k)) := by
  induction l generalizing k with
  | nil => simp [chunkFrom, chunks]
  | cons x l ih =>
    cases k with
    | zero => rfl
    | succ k =>
      rw [chunkFrom, ih, List.take_succ_cons, List.drop_succ_cons]

theorem chunks_cons (x : α) (l : List α) :
    chunks n (x :: l) = (x :: l.take n) :: chunks n (l.drop n) := by
  rw [chunks, chunkFrom, chunkFrom_eq]

@[simp] theorem chunks_nil : chunks n ([] : List α) = [] := rfl

@[elab_as_elim] theorem chunks_induction {motive : List α → Prop} (l : List α) (nil : motive [])
    (cons : ∀ x l, motive (l.drop n) → motive (x :: l)) : motive l := by
  induction hlen : l.length using Nat.strong_induction_on generalizing l with
  | _ k ih =>
    cases l with
    | nil => exact nil
    | cons x l =>
      refine cons x l (ih _ ?_ (l.drop n) rfl)
      rw [← hlen, List.length_drop, List.length_cons]
      omega

theorem flatten_chunks (l : List α) : (chunks n l).flatten = l := by
  induction l using chunks_induction n with
  | nil => rw [chunks_nil, List.flatten_nil]
  | cons x l ih => rw [chunks_cons, List.flatten_cons, ih, List.cons_append, List.take_append_drop]

/-- What cuts every list into parts of it cuts a list of lists into parts of their whole. -/
theorem flatten_flatMap {cut : List α → List (List α)} (h : ∀ l, (cut l).flatten = l)
    (ls : List (List α)) : (ls.flatMap cut).flatten = ls.flatten := by
  induction ls with
  | nil => rfl
  | cons l ls ih => rw [List.flatMap_cons, List.flatten_append, h, ih, List.flatten_cons]

theorem ne_nil_of_mem_chunks {l part : List α} (h : part ∈ chunks n l) : part ≠ [] := by
  induction l using chunks_induction n with
  | nil => simp at h
  | cons x l ih =>
    rw [chunks_cons, List.mem_cons] at h
    rcases h with rfl | h
    · exact List.cons_ne_nil _ _
    · exact ih h

end

/-! ## What is owed -/

section
variable (owed held : Set ℕ)

/-- Everything owed up to the cursor is held. -/
def Followed (c : ℕ) : Prop := ∀ p ∈ owed, p ≤ c → p ∈ held

/-- `l` names everything owed past `a` and up to `b`. -/
def Spans (a : ℕ) (l : List ℕ) (b : ℕ) : Prop := ∀ p ∈ owed, a < p → p ≤ b → p ∈ l

variable {owed held} {owed' held' : Set ℕ} {a a' b c : ℕ} {l more : List ℕ}

theorem followed_zero (h : ∀ p ∈ owed, 0 < p) : Followed owed held 0 := by
  intro p hp hle
  have := h p hp
  omega

/-- What comes to be owed comes past the cursor, and what is held stays. -/
theorem Followed.grow (h : Followed owed held c) (howed : ∀ p ∈ owed', p ≤ c → p ∈ owed)
    (hheld : held ⊆ held') : Followed owed' held' c :=
  fun p hp hle => hheld (h p (howed p hp hle) hle)

theorem Spans.grow (h : Spans owed a l b) (howed : ∀ p ∈ owed', p ≤ b → p ∈ owed) :
    Spans owed' a l b :=
  fun p hp ha hb => h p (howed p hp hb) ha hb

/-- A follower that holds a stretch from its cursor or below is followed to the stretch's end. -/
theorem Followed.advance (h : Followed owed held c) (hspans : Spans owed a l b) (hle : a ≤ c)
    (hgrown : held ⊆ held') (hl : ∀ p ∈ l, p ∈ held') : Followed owed held' (max c b) := by
  intro p hp hpb
  by_cases hpc : p ≤ c
  · exact hgrown (h p hp hpc)
  · have hb : p ≤ b := (le_max_iff.1 hpb).resolve_left hpc
    exact hl p (hspans p hp (by omega) hb)

variable {x : ℕ}

theorem le_last_of_sorted (hsorted : l.Pairwise (· < ·)) (hx : l.getLast? = some x) :
    ∀ p ∈ l, p ≤ x := by
  obtain ⟨init, rfl⟩ := List.getLast?_eq_some_iff.1 hx
  intro p hp
  rcases List.mem_append.1 hp with hinit | hlast
  · exact Nat.le_of_lt ((List.pairwise_append.1 hsorted).2.2 p hinit x (List.mem_singleton_self x))
  · exact Nat.le_of_eq (List.mem_singleton.1 hlast)

/-- Of a stretch named in order, its first part spans as far as its last position goes. -/
theorem Spans.first (h : Spans owed a (l ++ more) b) (hsorted : (l ++ more).Pairwise (· < ·))
    (hx : l.getLast? = some x) (hb : x ≤ b) : Spans owed a l x := by
  intro p hp ha hpx
  rcases List.mem_append.1 (h p hp ha (hpx.trans hb)) with hmem | hmem
  · exact hmem
  · have := (List.pairwise_append.1 hsorted).2.2 x (List.mem_of_getLast? hx) p hmem
    omega

theorem Spans.after (h : Spans owed a (l ++ more) b) (hsorted : (l ++ more).Pairwise (· < ·))
    (hx : l.getLast? = some x) (hax : a ≤ x) : Spans owed x more b := by
  intro p hp hxp hpb
  rcases List.mem_append.1 (h p hp (by omega) hpb) with hmem | hmem
  · have := le_last_of_sorted (List.pairwise_append.1 hsorted).1 hx p hmem
    omega
  · exact hmem

/-- The first positions past a place, in order, span to the last of them. -/
theorem spans_take (hsorted : l.Pairwise (· < ·)) (a k : ℕ)
    (hx : ((l.filter fun p => a < p).take k).getLast? = some x) :
    Spans {p | p ∈ l} a ((l.filter fun p => a < p).take k) x := by
  have hpast : Spans {p | p ∈ l} a (l.filter fun p => a < p) x := fun p hp ha _ =>
    List.mem_filter.2 ⟨hp, decide_eq_true ha⟩
  rw [← List.take_append_drop k (l.filter fun p => a < p)] at hpast
  refine hpast.first ?_ hx le_rfl
  rw [List.take_append_drop]
  exact hsorted.sublist List.filter_sublist

end

/-! ## Where to start -/

section
variable (live : List ℕ) (held : ℕ → Bool) (h : ℕ)

/-- The positions missing up to `h`. -/
def missing : List ℕ := live.filter fun p => p ≤ h && !held p

/-- Just below the first position missing up to `h`, else `h`. -/
def seedAt : ℕ := ((missing live held h).head?.map fun p => p - 1).getD h

variable {live held h} {p : ℕ}

theorem mem_missing : p ∈ missing live held h ↔ p ∈ live ∧ p ≤ h ∧ held p = false := by
  rw [missing, List.mem_filter, Bool.and_eq_true, decide_eq_true_eq, Bool.not_eq_true']

theorem seedAt_le : seedAt live held h ≤ h := by
  unfold seedAt
  cases hfirst : (missing live held h).head? with
  | none => exact le_rfl
  | some p =>
    have := (mem_missing.1 (List.mem_of_head? hfirst)).2.1
    show p - 1 ≤ h
    omega

theorem le_seedAt {c : ℕ} (hc : c ≤ h) (hfollowed : Followed {p | p ∈ live} {p | held p = true} c) :
    c ≤ seedAt live held h := by
  unfold seedAt
  cases hfirst : (missing live held h).head? with
  | none => exact hc
  | some p =>
    obtain ⟨hlive, -, hmiss⟩ := mem_missing.1 (List.mem_of_head? hfirst)
    have hlt : c < p := by
      by_contra hle
      have hheld : held p = true := hfollowed p hlive (by omega)
      rw [hmiss] at hheld
      cases hheld
    show c ≤ p - 1
    omega

variable (hsorted : live.Pairwise (· < ·))
include hsorted

theorem first_missing_le {q : ℕ} (hfirst : (missing live held h).head? = some p)
    (hq : q ∈ missing live held h) : p ≤ q := by
  obtain ⟨rest, hrest⟩ := List.head?_eq_some_iff.1 hfirst
  have hmissing : (missing live held h).Pairwise (· < ·) := hsorted.sublist List.filter_sublist
  rw [hrest] at hq hmissing
  rcases List.mem_cons.1 hq with rfl | hq
  · exact le_rfl
  · exact Nat.le_of_lt ((List.pairwise_cons.1 hmissing).1 q hq)

theorem seedAt_lt (hpos : ∀ p ∈ live, 0 < p) (hp : p ∈ missing live held h) :
    seedAt live held h < p := by
  unfold seedAt
  cases hfirst : (missing live held h).head? with
  | none => rw [List.head?_eq_none_iff.1 hfirst] at hp; cases hp
  | some q =>
    have hq := hpos q (mem_missing.1 (List.mem_of_head? hfirst)).1
    have := first_missing_le hsorted hfirst hp
    show q - 1 < p
    omega

theorem followed_seedAt (held : ℕ → Bool) (h : ℕ) (hpos : ∀ p ∈ live, 0 < p) :
    Followed {p | p ∈ live} {p | held p = true} (seedAt live held h) := by
  intro p hp hle
  by_contra hnot
  have hmissing : p ∈ missing live held h :=
    mem_missing.2 ⟨hp, hle.trans seedAt_le, Bool.eq_false_iff.2 hnot⟩
  have := seedAt_lt hsorted hpos hmissing
  omega

end

end Lib
