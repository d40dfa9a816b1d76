import Rigger.Lib.Cut

/-!
# The words of a text

`wordsOf keep l` are the maximal runs of the characters `keep` keeps.  `collapse keep sep l` keeps
those characters and puts one `sep` for every run of others; with the outer ones off, that is the
words joined by `sep` (`trim_collapse`), so two texts collapse alike just where their words agree
(`intercalate_inj`).
-/

namespace Lib

section
variable (keep : Char → Bool) (sep : Char)

/-- The words of a text read after `word`, which they begin with where it has not ended. -/
def wordsFrom (word : List Char) : List Char → List (List Char)
  | [] => if word.isEmpty then [] else [word]
  | c :: l =>
    if keep c then wordsFrom (word ++ [c]) l
    else if word.isEmpty then wordsFrom [] l
    else word :: wordsFrom [] l

def wordsOf (l : List Char) : List (List Char) := wordsFrom keep [] l

def collapseStep (out : List Char) (c : Char) : List Char :=
  if keep c then out ++ [c] else if out.getLast? = some sep then out else out ++ [sep]

def collapse (l : List Char) : List Char := l.foldl (collapseStep keep sep) []

variable {keep sep} {word l : List Char} {w : List Char} {ws : List (List Char)}

theorem mem_wordsFrom (hword : ∀ c ∈ word, keep c = true) (hw : w ∈ wordsFrom keep word l) :
    w ≠ [] ∧ ∀ c ∈ w, keep c = true := by
  induction l generalizing word with
  | nil =>
    unfold wordsFrom at hw
    split at hw
    · cases hw
    · next hne =>
      cases List.mem_singleton.1 hw
      exact ⟨by simpa using hne, hword⟩
  | cons c l ih =>
    unfold wordsFrom at hw
    split at hw
    · next hc =>
      refine ih (fun x hx => ?_) hw
      rcases List.mem_append.1 hx with hx | hx
      · exact hword x hx
      · cases List.mem_singleton.1 hx
        exact hc
    · split at hw
      · exact ih (by simp) hw
      · next hne =>
        rcases List.mem_cons.1 hw with rfl | hw
        · exact ⟨by simpa using hne, hword⟩
        · exact ih (by simp) hw

theorem mem_wordsOf (hw : w ∈ wordsOf keep l) : w ≠ [] ∧ ∀ c ∈ w, keep c = true :=
  mem_wordsFrom (by simp) hw

theorem subset_of_mem_wordsFrom (hw : w ∈ wordsFrom keep word l) : w ⊆ word ++ l := by
  induction l generalizing word with
  | nil =>
    unfold wordsFrom at hw
    split at hw
    · cases hw
    · rw [List.mem_singleton.1 hw, List.append_nil]
      exact List.Subset.refl word
  | cons c l ih =>
    have hrest : l ⊆ word ++ c :: l := fun x hx =>
      List.mem_append_right _ (List.mem_cons_of_mem c hx)
    unfold wordsFrom at hw
    split at hw
    · have hsub := ih hw
      rwa [List.append_assoc, List.singleton_append] at hsub
    · split at hw
      · exact fun x hx => hrest (ih hw hx)
      · rcases List.mem_cons.1 hw with rfl | hw
        · exact List.subset_append_left _ _
        · exact fun x hx => hrest (ih hw hx)

theorem subset_of_mem_wordsOf (hw : w ∈ wordsOf keep l) : w ⊆ l :=
  subset_of_mem_wordsFrom hw

/-- The words are the parts between what is not kept, but for the empty ones. -/
theorem wordsFrom_eq_filter (word l : List Char) : wordsFrom keep word l =
    ((l.splitOnP fun c => !keep c).modifyHead (word ++ ·)).filter fun w => w ≠ [] := by
  induction l generalizing word with
  | nil => cases word <;> simp [wordsFrom]
  | cons c l ih =>
    rw [wordsFrom, List.splitOnP_cons_eq_if_modifyHead]
    obtain ⟨first, rest, hparts⟩ := List.exists_cons_of_ne_nil
      (List.splitOnP_ne_nil (fun c => !keep c) l)
    cases hc : keep c with
    | true => simp [ih, hparts]
    | false => cases word <;> simp [ih, hparts]

theorem wordsOf_eq_filter (l : List Char) : wordsOf keep l =
    (l.splitOnP fun c => !keep c).filter fun w => w ≠ [] := by
  obtain ⟨first, rest, hparts⟩ := List.exists_cons_of_ne_nil
    (List.splitOnP_ne_nil (fun c => !keep c) l)
  rw [wordsOf, wordsFrom_eq_filter, hparts]
  rfl

theorem wordsOf_append_cons (a b : List Char) {c : Char} (hc : keep c = false) :
    wordsOf keep (a ++ c :: b) = wordsOf keep a ++ wordsOf keep b := by
  rw [wordsOf_eq_filter, List.splitOnP_append_cons a b (by rw [hc]; rfl), List.filter_append,
    ← wordsOf_eq_filter, ← wordsOf_eq_filter]

theorem wordsFrom_append (hw : ∀ c ∈ w, keep c = true) :
    wordsFrom keep word (w ++ l) = wordsFrom keep (word ++ w) l := by
  induction w generalizing word with
  | nil => rw [List.nil_append, List.append_nil]
  | cons c w ih =>
    rw [List.cons_append, wordsFrom, if_pos (hw c List.mem_cons_self),
      ih fun x hx => hw x (List.mem_cons_of_mem _ hx), List.append_assoc, List.singleton_append]

theorem wordsOf_cons (hw : ∀ c ∈ w, keep c = true) (hne : w ≠ []) {c : Char} (hc : keep c = false) :
    wordsOf keep (w ++ c :: l) = w :: wordsOf keep l := by
  have hempty : w.isEmpty = false := by simpa using hne
  rw [wordsOf, wordsFrom_append hw, List.nil_append, wordsFrom, hc, hempty]
  rfl

theorem wordsOf_word (hw : ∀ c ∈ w, keep c = true) (hne : w ≠ []) : wordsOf keep w = [w] := by
  have hempty : w.isEmpty = false := by simpa using hne
  have happend : wordsFrom keep [] (w ++ []) = wordsFrom keep ([] ++ w) [] := wordsFrom_append hw
  rw [List.append_nil, List.nil_append] at happend
  rw [wordsOf, happend, wordsFrom, hempty]
  rfl

theorem wordsFrom_ne_nil (hne : word ≠ []) : wordsFrom keep word l ≠ [] := by
  induction l generalizing word with
  | nil =>
    have hempty : word.isEmpty = false := by simpa using hne
    simp [wordsFrom, hempty]
  | cons c l ih =>
    have hempty : word.isEmpty = false := by simpa using hne
    rw [wordsFrom, hempty]
    cases keep c with
    | true => exact ih (by simp)
    | false => simp

theorem wordsOf_eq_nil {l : List Char} : wordsOf keep l = [] ↔ ∀ c ∈ l, keep c = false := by
  induction l with
  | nil => simp [wordsOf, wordsFrom]
  | cons c l ih =>
    rw [List.forall_mem_cons, ← ih]
    cases hc : keep c with
    | true =>
      have hwords : wordsOf keep (c :: l) = wordsFrom keep [c] l := by simp [wordsOf, wordsFrom, hc]
      rw [hwords]
      exact iff_of_false (wordsFrom_ne_nil (List.cons_ne_nil c [])) fun h => Bool.noConfusion h.1
    | false =>
      have hwords : wordsOf keep (c :: l) = wordsOf keep l := by simp [wordsOf, wordsFrom, hc]
      rw [hwords]
      exact ⟨fun h => ⟨rfl, h⟩, And.right⟩

/-- What the loop has written once it read `l`: after a word, the words with the one it goes on
from; after a separator, the words of `l`. -/
theorem foldl_collapseStep (hsep : keep sep = false) (l : List Char) :
    (∀ pre word, word ≠ [] → (∀ c ∈ word, keep c = true) → ∃ rest, (rest = [] ∨ rest = [sep]) ∧
      l.foldl (collapseStep keep sep) (pre ++ word) =
        pre ++ [sep].intercalate (wordsFrom keep word l) ++ rest) ∧
    ∀ pre, ∃ rest, (rest = [] ∨ rest = [sep] ∧ wordsOf keep l ≠ []) ∧
      l.foldl (collapseStep keep sep) (pre ++ [sep]) =
        pre ++ [sep] ++ [sep].intercalate (wordsOf keep l) ++ rest := by
  induction l with
  | nil =>
    refine ⟨fun pre word hne _ => ⟨[], Or.inl rfl, ?_⟩, fun pre => ⟨[], Or.inl rfl, ?_⟩⟩
    · have hempty : word.isEmpty = false := by simpa using hne
      simp [wordsFrom, hempty]
    · simp [wordsOf, wordsFrom]
  | cons c l ih =>
    obtain ⟨ihword, ihsep⟩ := ih
    constructor
    · intro pre word hne hword
      have hempty : word.isEmpty = false := by simpa using hne
      rw [List.foldl_cons, collapseStep, wordsFrom, hempty]
      cases hc : keep c with
      | true =>
        rw [if_pos rfl, if_pos rfl, List.append_assoc]
        refine ihword pre (word ++ [c]) (by simp) fun x hx => ?_
        rcases List.mem_append.1 hx with hx | hx
        · exact hword x hx
        · cases List.mem_singleton.1 hx
          exact hc
      | false =>
        have hlast : (pre ++ word).getLast? ≠ some sep := by
          intro h
          rw [List.getLast?_append_of_ne_nil _ hne] at h
          have hkept := hword sep (List.mem_of_getLast? h)
          rw [hsep] at hkept
          cases hkept
        obtain ⟨rest, hrest, heq⟩ := ihsep (pre ++ word)
        simp only [Bool.false_eq_true, if_false, if_neg hlast]
        rw [heq]
        by_cases hnone : wordsOf keep l = []
        · refine ⟨[sep], Or.inr rfl, ?_⟩
          have hrest : rest = [] := hrest.resolve_right fun h => h.2 hnone
          have hnone' : wordsFrom keep [] l = [] := hnone
          rw [hrest, hnone, hnone']
          simp
        · refine ⟨rest, hrest.imp_right And.left, ?_⟩
          have hne' : wordsFrom keep [] l ≠ [] := hnone
          rw [List.intercalate_cons_of_ne_nil hne', wordsOf]
          simp only [List.append_assoc]
    · intro pre
      rw [List.foldl_cons, collapseStep]
      cases hc : keep c with
      | true =>
        obtain ⟨rest, hrest, heq⟩ := ihword (pre ++ [sep]) [c] (by simp) fun x hx => by
          cases List.mem_singleton.1 hx
          exact hc
        have hwords : wordsOf keep (c :: l) = wordsFrom keep [c] l := by
          simp [wordsOf, wordsFrom, hc]
        rw [if_pos rfl, heq, hwords]
        refine ⟨rest, hrest.imp_right fun h => ⟨h, wordsFrom_ne_nil (by simp)⟩, rfl⟩
      | false =>
        have hlast : (pre ++ [sep]).getLast? = some sep := by simp
        have hwords : wordsOf keep (c :: l) = wordsOf keep l := by
          simp [wordsOf, wordsFrom, hc]
        simp only [Bool.false_eq_true, if_false, if_pos hlast, hwords]
        exact ihsep pre

variable (sep) in
/-- Words joined by a separator begin and end with a character that is kept. -/
theorem ends_intercalate (hws : ∀ w ∈ ws, w ≠ [] ∧ ∀ c ∈ w, keep c = true) (hne : ws ≠ []) :
    (∃ x m, keep x = true ∧ [sep].intercalate ws = x :: m) ∧
      ∃ m y, keep y = true ∧ [sep].intercalate ws = m ++ [y] := by
  induction ws with
  | nil => exact absurd rfl hne
  | cons w ws ih =>
    obtain ⟨hw, hkept⟩ := hws w List.mem_cons_self
    constructor
    · cases w with
      | nil => exact absurd rfl hw
      | cons x w =>
        rw [List.intercalate_cons_cons_left]
        exact ⟨x, _, hkept x List.mem_cons_self, rfl⟩
    · by_cases hnone : ws = []
      · obtain ⟨m, y, rfl⟩ := (List.eq_nil_or_concat w).resolve_left hw
        rw [hnone, List.intercalate_singleton, List.concat_eq_append]
        exact ⟨m, y, hkept y (by simp), rfl⟩
      · obtain ⟨-, m, y, hy, heq⟩ := ih (fun v hv => hws v (List.mem_cons_of_mem _ hv)) hnone
        rw [List.intercalate_cons_of_ne_nil hnone, heq, ← List.append_assoc]
        exact ⟨_, y, hy, rfl⟩

theorem trim_intercalate (hsep : keep sep = false) (hws : ∀ w ∈ ws, w ≠ [] ∧ ∀ c ∈ w, keep c = true)
    {a b : List Char} (ha : ∀ c ∈ a, c = sep) (hb : ∀ c ∈ b, c = sep) :
    trimMatches (· == sep) (a ++ [sep].intercalate ws ++ b) = [sep].intercalate ws := by
  have hall : ∀ {l : List Char}, (∀ c ∈ l, c = sep) → ∀ c ∈ l, (c == sep) = true := by
    intro l hl c hc
    rw [hl c hc, beq_self_eq_true]
  have hkeeps : ∀ {c}, keep c = true → ¬(c == sep) = true := by
    intro c hc heq
    rw [beq_iff_eq.1 heq, hsep] at hc
    cases hc
  unfold trimMatches
  rw [List.append_assoc, List.dropWhile_append_of_pos (hall ha)]
  by_cases hne : ws = []
  · rw [hne, List.intercalate_nil, List.nil_append]
    have hdrop : (b ++ []).dropWhile (· == sep) = [] := List.dropWhile_append_of_pos (hall hb)
    rw [List.append_nil] at hdrop
    rw [hdrop]
    rfl
  · obtain ⟨⟨x, m, hx, hfirst⟩, m', y, hy, hlast⟩ := ends_intercalate sep hws hne
    have hdrop : ([sep].intercalate ws ++ b).dropWhile (· == sep) = [sep].intercalate ws ++ b := by
      rw [hfirst, List.cons_append, List.dropWhile_cons_of_neg (p := (· == sep)) (hkeeps hx)]
    have hreverse : ∀ c ∈ b.reverse, (c == sep) = true := by
      intro c hc
      exact hall hb c (List.mem_reverse.1 hc)
    rw [hdrop, List.reverse_append, List.dropWhile_append_of_pos hreverse, hlast,
      List.reverse_append, List.reverse_singleton, List.singleton_append,
      List.dropWhile_cons_of_neg (p := (· == sep)) (hkeeps hy), List.reverse_cons,
      List.reverse_reverse]

/-- What is collapsed, its outer separators off, is the words joined by one separator each. -/
theorem trim_collapse (hsep : keep sep = false) (l : List Char) :
    trimMatches (· == sep) (collapse keep sep l) = [sep].intercalate (wordsOf keep l) := by
  cases l with
  | nil => rfl
  | cons c l =>
    obtain ⟨hword, hrun⟩ := foldl_collapseStep hsep l
    have hstep : collapse keep sep (c :: l) =
        l.foldl (collapseStep keep sep) (collapseStep keep sep [] c) := rfl
    cases hc : keep c with
    | true =>
      obtain ⟨rest, hrest, heq⟩ := hword [] [c] (by simp) (by simp [hc])
      have hwords : wordsOf keep (c :: l) = wordsFrom keep [c] l := by
        simp [wordsOf, wordsFrom, hc]
      have hout : collapseStep keep sep [] c = [] ++ [c] := by simp [collapseStep, hc]
      rw [hstep, hout, heq, ← hwords]
      refine trim_intercalate hsep (fun w hw => mem_wordsOf hw) (by simp) ?_
      rcases hrest with rfl | rfl <;> simp
    | false =>
      obtain ⟨rest, hrest, heq⟩ := hrun []
      have hwords : wordsOf keep (c :: l) = wordsOf keep l := by simp [wordsOf, wordsFrom, hc]
      have hout : collapseStep keep sep [] c = [] ++ [sep] := by simp [collapseStep, hc]
      rw [hstep, hout, heq, hwords]
      refine trim_intercalate hsep (fun w hw => mem_wordsOf hw) (by simp) ?_
      rcases hrest with rfl | ⟨rfl, -⟩ <;> simp

theorem intercalate_inj (hsep : keep sep = false) {ws' : List (List Char)}
    (hws : ∀ w ∈ ws, w ≠ [] ∧ ∀ c ∈ w, keep c = true)
    (hws' : ∀ w ∈ ws', w ≠ [] ∧ ∀ c ∈ w, keep c = true)
    (h : [sep].intercalate ws = [sep].intercalate ws') : ws = ws' := by
  have hout : ∀ {vs : List (List Char)}, (∀ w ∈ vs, w ≠ [] ∧ ∀ c ∈ w, keep c = true) →
      ∀ w ∈ vs, sep ∉ w := by
    intro vs hvs w hw hmem
    have hkept := (hvs w hw).2 sep hmem
    rw [hsep] at hkept
    cases hkept
  have hempty : ∀ {vs : List (List Char)}, (∀ w ∈ vs, w ≠ [] ∧ ∀ c ∈ w, keep c = true) →
      [sep].intercalate vs = [] → vs = [] := by
    intro vs hvs heq
    by_contra hne
    obtain ⟨⟨x, m, -, hfirst⟩, -⟩ := ends_intercalate sep hvs hne
    rw [hfirst] at heq
    cases heq
  by_cases hne : ws = []
  · rw [hne, List.intercalate_nil] at h
    rw [hne, hempty hws' h.symm]
  · have hne' : ws' ≠ [] := by
      intro hnil
      rw [hnil, List.intercalate_nil] at h
      exact hne (hempty hws h)
    rw [← List.splitOn_intercalate sep (hout hws) hne, h,
      List.splitOn_intercalate sep (hout hws') hne']

theorem wordsOf_intercalate (hsep : keep sep = false)
    (hws : ∀ w ∈ ws, w ≠ [] ∧ ∀ c ∈ w, keep c = true) :
    wordsOf keep ([sep].intercalate ws) = ws := by
  induction ws with
  | nil => rfl
  | cons w ws ih =>
    obtain ⟨hne, hkept⟩ := hws w List.mem_cons_self
    cases ws with
    | nil => rw [List.intercalate_singleton, wordsOf_word hkept hne]
    | cons v vs =>
      rw [List.intercalate_cons_cons, List.append_assoc, List.singleton_append,
        wordsOf_cons hkept hne hsep, ih fun x hx => hws x (List.mem_cons_of_mem _ hx)]

theorem intercalate_append {us : List (List Char)} (hne : ws ≠ []) (hmore : us ≠ []) :
    [sep].intercalate (ws ++ us) = [sep].intercalate ws ++ sep :: [sep].intercalate us := by
  induction ws with
  | nil => exact absurd rfl hne
  | cons w ws ih =>
    by_cases hlast : ws = []
    · rw [hlast, List.singleton_append, List.intercalate_cons_of_ne_nil hmore,
        List.intercalate_singleton, List.append_assoc, List.singleton_append]
    · have hboth : ws ++ us ≠ [] := List.append_ne_nil_of_left_ne_nil hlast us
      rw [List.cons_append, List.intercalate_cons_of_ne_nil hboth, ih hlast,
        List.intercalate_cons_of_ne_nil hlast]
      simp only [List.append_assoc]

/-- What follows words joined in front, after a separator, is the rest of the words joined. -/
theorem intercalate_eq_append_cons_iff (hsep : keep sep = false) {vs : List (List Char)}
    {rest : List Char} (hws : ∀ w ∈ ws, w ≠ [] ∧ ∀ c ∈ w, keep c = true)
    (hvs : ∀ w ∈ vs, w ≠ [] ∧ ∀ c ∈ w, keep c = true) (hne : ws ≠ []) :
    [sep].intercalate vs = [sep].intercalate ws ++ sep :: rest ↔
      ∃ us, us ≠ [] ∧ vs = ws ++ us ∧ rest = [sep].intercalate us := by
  constructor
  · intro h
    have hsplit : vs = ws ++ wordsOf keep rest := by
      have hwords := congrArg (wordsOf keep) h
      rwa [wordsOf_intercalate hsep hvs, wordsOf_append_cons _ _ hsep,
        wordsOf_intercalate hsep hws] at hwords
    have hmore : wordsOf keep rest ≠ [] := by
      intro hnone
      rw [hsplit, hnone, List.append_nil] at h
      have hlength := congrArg List.length h
      rw [List.length_append, List.length_cons] at hlength
      omega
    refine ⟨wordsOf keep rest, hmore, hsplit, ?_⟩
    rw [hsplit, intercalate_append hne hmore] at h
    exact (List.cons.inj (List.append_cancel_left h)).2.symm
  · rintro ⟨us, hmore, rfl, rfl⟩
    exact intercalate_append hne hmore

end

end Lib
