import Rigger.Lib.Cut

/-!
# A text in pieces

`pieces c rest l` is what stands of `l` between the separators `c :: rest`.  A separator that begins
nowhere in itself leaves one way to take a text apart: what the pieces join to has these pieces
(`pieces_intercalate`), so two texts are equal where their pieces are.
-/

namespace Lib

variable {α : Type} [DecidableEq α] {c : α} {rest : List α} {l : List α}

theorem splitAround_eq_none : splitAround (c :: rest) l = none ↔ ¬c :: rest <:+: l := by
  constructor
  · induction l with
    | nil =>
      intro _ h
      exact List.cons_ne_nil c rest (List.infix_nil.1 h)
    | cons x xs ih =>
      intro hnone h
      unfold splitAround at hnone
      split at hnone
      · cases hnone
      · next hpre =>
        rw [Option.map_eq_none_iff] at hnone
        rcases List.infix_cons_iff.1 h with h | h
        · exact hpre (List.isPrefixOf_iff_prefix.2 h)
        · exact ih hnone h
  · intro h
    cases hcut : splitAround (c :: rest) l with
    | none => rfl
    | some p =>
      obtain ⟨heq, -⟩ := splitAround_eq_some hcut
      exact absurd ⟨p.1, p.2, heq.symm⟩ h

theorem splitAround_lt {a b : List α} (h : splitAround (c :: rest) l = some (a, b)) :
    b.length < l.length := by
  rw [(splitAround_eq_some h).1, List.length_append, List.length_append, List.length_cons]
  omega

def pieces (c : α) (rest l : List α) : List (List α) :=
  match _h : splitAround (c :: rest) l with
  | none => [l]
  | some (a, b) => a :: pieces c rest b
termination_by l.length
decreasing_by exact splitAround_lt _h

omit [DecidableEq α] in
/-- A separator stands to the left or to the right of what is no part of it. -/
theorem infix_append_cons {d : α} (hd : d ∉ c :: rest) {x w : List α}
    (h : c :: rest <:+: x ++ d :: w) : c :: rest <:+: x ∨ c :: rest <:+: w := by
  induction x with
  | nil =>
    rcases List.infix_cons_iff.1 h with hpre | h
    · rw [List.cons_prefix_cons] at hpre
      exact absurd (hpre.1 ▸ List.mem_cons_self) hd
    · exact .inr h
  | cons y x ih =>
    rcases List.infix_cons_iff.1 h with hpre | h
    · have hx : y :: x <+: y :: (x ++ d :: w) := List.prefix_append (y :: x) (d :: w)
      rcases List.prefix_or_prefix_of_prefix hpre hx with hin | ⟨m, hm⟩
      · exact .inl hin.isInfix
      · cases m with
        | nil =>
          rw [List.append_nil] at hm
          exact .inl (hm ▸ List.infix_rfl)
        | cons e m =>
          have hpre' : (y :: x) ++ e :: m <+: (y :: x) ++ d :: w := hm ▸ hpre
          rw [List.prefix_append_right_inj, List.cons_prefix_cons] at hpre'
          refine absurd ?_ hd
          rw [← hm, ← hpre'.1]
          exact List.mem_append_cons_self
    · rcases ih h with h | h
      · exact .inl (List.infix_cons h)
      · exact .inr h

theorem pieces_of_free (h : ¬c :: rest <:+: l) : pieces c rest l = [l] := by
  rw [pieces]
  split
  · rfl
  · next a b hcut =>
    rw [splitAround_eq_none.2 h] at hcut
    cases hcut

theorem pieces_ne_nil (l : List α) : pieces c rest l ≠ [] := by
  rw [pieces]
  split
  · exact List.cons_ne_nil _ _
  · exact List.cons_ne_nil _ _

theorem exists_pieces (c : α) (rest l : List α) : ∃ first more, pieces c rest l = first :: more :=
  List.exists_cons_of_ne_nil (pieces_ne_nil l)

/-- A text has one piece, or is cut after its first. -/
theorem pieces_cases (c : α) (rest l : List α) : (¬c :: rest <:+: l) ∨
    ∃ a b, l = a ++ c :: (rest ++ b) ∧ (¬c :: rest <:+: a) ∧ b.length < l.length := by
  cases hcut : splitAround (c :: rest) l with
  | none => exact .inl (splitAround_eq_none.1 hcut)
  | some p =>
    obtain ⟨heq, hfree⟩ := splitAround_eq_some hcut
    refine .inr ⟨p.1, p.2, ?_, hfree (List.cons_ne_nil c rest), splitAround_lt hcut⟩
    rw [heq]
    simp

section
variable (hc : c ∉ rest)
include hc

theorem pieces_append {a b : List α} (ha : ¬c :: rest <:+: a) :
    pieces c rest (a ++ c :: (rest ++ b)) = a :: pieces c rest b := by
  rw [pieces]
  split
  · next hnone =>
    rw [splitAround_append hc ha] at hnone
    cases hnone
  · next a' b' hcut =>
    rw [splitAround_append hc ha] at hcut
    cases hcut
    rfl

theorem pieces_append_sep (x z : List α) :
    pieces c rest (x ++ c :: (rest ++ z)) = pieces c rest x ++ pieces c rest z := by
  induction hn : x.length using Nat.strongRecOn generalizing x with
  | ind n ih =>
    rcases pieces_cases c rest x with hfree | ⟨a, b, rfl, hfree, hlt⟩
    · rw [pieces_append hc hfree, pieces_of_free hfree]
      rfl
    · rw [List.append_assoc, List.cons_append, List.append_assoc, pieces_append hc hfree,
        ih b.length (hn ▸ hlt) b rfl, pieces_append hc hfree]
      rfl

theorem free_of_mem_pieces {l p : List α} (h : p ∈ pieces c rest l) : ¬c :: rest <:+: p := by
  induction hn : l.length using Nat.strongRecOn generalizing l with
  | ind n ih =>
    rcases pieces_cases c rest l with hfree | ⟨a, b, rfl, hfree, hlt⟩
    · rw [pieces_of_free hfree, List.mem_singleton] at h
      rwa [h]
    · rw [pieces_append hc hfree, List.mem_cons] at h
      rcases h with rfl | h
      · exact hfree
      · exact ih b.length (hn ▸ hlt) h rfl

variable {more : List (List α)} {first : List α}

/-- What does not hold the separator, up to something that is no part of it, joins the first
piece. -/
theorem pieces_prepend {d : α} (hd : d ∉ c :: rest) {x w : List α} (hx : ¬c :: rest <:+: x)
    (hw : pieces c rest w = first :: more) :
    pieces c rest (x ++ d :: w) = (x ++ d :: first) :: more := by
  have hfree : ∀ {a : List α}, ¬c :: rest <:+: a → ¬c :: rest <:+: x ++ d :: a := by
    intro a ha h
    rcases infix_append_cons hd h with h | h
    · exact hx h
    · exact ha h
  rcases pieces_cases c rest w with hone | ⟨a, b, rfl, ha, -⟩
  · rw [pieces_of_free hone] at hw
    cases hw
    exact pieces_of_free (hfree hone)
  · rw [pieces_append hc ha] at hw
    cases hw
    have := pieces_append hc (hfree ha) (b := b)
    rwa [List.append_assoc, List.cons_append] at this

theorem length_pieces_le (d : α) (hd : d ∉ c :: rest) (x w : List α) :
    (pieces c rest w).length ≤ (pieces c rest (x ++ d :: w)).length := by
  induction hn : x.length using Nat.strongRecOn generalizing x with
  | ind n ih =>
    rcases pieces_cases c rest x with hfree | ⟨a, b, rfl, hfree, hlt⟩
    · obtain ⟨first, more, hw⟩ := exists_pieces c rest w
      rw [pieces_prepend hc hd hfree hw, hw]
      exact Nat.le_refl _
    · rw [List.append_assoc, List.cons_append, List.append_assoc, pieces_append hc hfree]
      exact Nat.le_succ_of_le (ih b.length (hn ▸ hlt) b rfl)

theorem pieces_flatMap {β : Type} (f : β → List α) (before : List α) (l : List β) :
    pieces c rest (before ++ l.flatMap fun x => c :: (rest ++ f x)) =
      pieces c rest before ++ l.flatMap fun x => pieces c rest (f x) := by
  induction l generalizing before with
  | nil => simp
  | cons x l ih =>
    rw [List.flatMap_cons, List.flatMap_cons, List.cons_append, List.append_assoc,
      pieces_append_sep hc, ih (f x)]

theorem pieces_intercalate (hfree : ∀ p ∈ first :: more, ¬c :: rest <:+: p) :
    pieces c rest ((c :: rest).intercalate (first :: more)) = first :: more := by
  induction more generalizing first with
  | nil =>
    rw [List.intercalate_singleton]
    exact pieces_of_free (hfree first List.mem_cons_self)
  | cons second more ih =>
    rw [List.intercalate_cons_of_ne_nil (List.cons_ne_nil second more), List.append_assoc,
      List.cons_append, pieces_append hc (hfree first List.mem_cons_self),
      ih fun p hp => hfree p (List.mem_cons_of_mem first hp)]

theorem intercalate_pieces (l : List α) : (c :: rest).intercalate (pieces c rest l) = l := by
  induction hn : l.length using Nat.strongRecOn generalizing l with
  | ind n ih =>
    rcases pieces_cases c rest l with hfree | ⟨a, b, rfl, hfree, hlt⟩
    · rw [pieces_of_free hfree, List.intercalate_singleton]
    · rw [pieces_append hc hfree, List.intercalate_cons_of_ne_nil (pieces_ne_nil b),
        ih b.length (hn ▸ hlt) b rfl]
      simp

end

end Lib
