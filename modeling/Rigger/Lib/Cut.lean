import Mathlib.Algebra.GroupWithZero.Nat
import Mathlib.Data.List.Basic
import Mathlib.Data.List.Forall2
import Mathlib.Data.List.Induction

/-!
# Cutting text: separators, byte offsets and decimal numerals

`splitOnce c s` cuts `s` at its first `c`, `rsplitOnce c s` at its last one; both are
characterised by the equation a caller needs (`splitOnce_eq_some_iff`,
`rsplitOnce_eq_some_iff`), so a grammar that cuts from both ends is proved without
unfolding either.

`slice s lo hi` is the text between two byte offsets of the UTF-8 encoding of `s`,
`none` where an offset is past the end or inside a character (`Boundary`).

`toString` writes a number in digits and without leading zeros; every non-empty run of digits is
such a numeral after some zeros (`digits_eq_zeros_append`).
-/

namespace Lib

/-! ## Lists -/

section lists
variable {α : Type} [DecidableEq α]

/-- A list cut at its first `c`, which neither half keeps. -/
def splitOnceList (c : α) : List α → Option (List α × List α)
  | [] => none
  | x :: xs => if x = c then some ([], xs) else (splitOnceList c xs).map fun p => (x :: p.1, p.2)

/-- A list cut at its last `c`. -/
def rsplitOnceList (c : α) (l : List α) : Option (List α × List α) :=
  (splitOnceList c l.reverse).map fun p => (p.2.reverse, p.1.reverse)

/-- A list cut around the first place `sep` stands. -/
def splitAround (sep : List α) : List α → Option (List α × List α)
  | [] => if sep = [] then some ([], []) else none
  | x :: xs =>
    if sep.isPrefixOf (x :: xs) then some ([], (x :: xs).drop sep.length)
    else (splitAround sep xs).map fun p => (x :: p.1, p.2)

theorem splitOnceList_eq_some_iff (c : α) (l a b : List α) :
    splitOnceList c l = some (a, b) ↔ l = a ++ c :: b ∧ c ∉ a := by
  induction l generalizing a with
  | nil => simp [splitOnceList]
  | cons x xs ih =>
    unfold splitOnceList
    by_cases hx : x = c
    · subst hx
      cases a with
      | nil => simp [eq_comm]
      | cons y a =>
        simp only [if_true, Option.some.injEq, Prod.mk.injEq, List.cons_append, List.cons.injEq,
          List.mem_cons, not_or]
        constructor
        · rintro ⟨h, -⟩; cases h
        · rintro ⟨⟨h, -⟩, hne, -⟩; exact absurd h hne
    · cases a with
      | nil => simp [hx]
      | cons y a =>
        simp only [if_neg hx, Option.map_eq_some_iff, Prod.exists, Prod.mk.injEq, List.cons.injEq,
          List.cons_append, List.mem_cons, not_or]
        constructor
        · rintro ⟨a', b', h, ⟨rfl, rfl⟩, rfl⟩
          obtain ⟨rfl, hc⟩ := (ih a').1 h
          exact ⟨⟨rfl, rfl⟩, fun e => hx e.symm, hc⟩
        · rintro ⟨⟨rfl, rfl⟩, -, hc⟩
          exact ⟨a, b, (ih a).2 ⟨rfl, hc⟩, ⟨rfl, rfl⟩, rfl⟩

variable {a b : List α}

/-- What stands before the first `c` and after it is unique. -/
theorem append_cons_inj {c : α} {a' b' : List α} (ha : c ∉ a) (ha' : c ∉ a')
    (h : a ++ c :: b = a' ++ c :: b') : a = a' ∧ b = b' := by
  have hcut := (splitOnceList_eq_some_iff c _ a b).2 ⟨rfl, ha⟩
  rw [h, (splitOnceList_eq_some_iff c _ a' b').2 ⟨rfl, ha'⟩] at hcut
  cases hcut
  exact ⟨rfl, rfl⟩

theorem rsplitOnceList_eq_some_iff (c : α) (l a b : List α) :
    rsplitOnceList c l = some (a, b) ↔ l = a ++ c :: b ∧ c ∉ b := by
  unfold rsplitOnceList
  simp only [Option.map_eq_some_iff, Prod.exists, Prod.mk.injEq]
  constructor
  · rintro ⟨x, y, h, rfl, rfl⟩
    obtain ⟨hl, hc⟩ := (splitOnceList_eq_some_iff c _ x y).1 h
    refine ⟨?_, by simpa using hc⟩
    have := congrArg List.reverse hl
    simpa using this
  · rintro ⟨rfl, hc⟩
    exact ⟨b.reverse, a.reverse, (splitOnceList_eq_some_iff c _ _ _).2 ⟨by simp, by simpa using hc⟩,
      by simp, by simp⟩

theorem splitOnceList_eq_none_iff {c : α} {l : List α} : splitOnceList c l = none ↔ c ∉ l := by
  constructor
  · intro hnone hmem
    obtain ⟨a, b, rfl, ha⟩ := List.eq_append_cons_of_mem hmem
    rw [(splitOnceList_eq_some_iff c _ a b).2 ⟨rfl, ha⟩] at hnone
    cases hnone
  · intro hnot
    cases hcut : splitOnceList c l with
    | none => rfl
    | some p =>
      obtain ⟨rfl, -⟩ := (splitOnceList_eq_some_iff c _ _ _).1 hcut
      exact absurd List.mem_append_cons_self hnot

theorem rsplitOnceList_eq_none_iff {c : α} {l : List α} : rsplitOnceList c l = none ↔ c ∉ l := by
  rw [rsplitOnceList, Option.map_eq_none_iff, splitOnceList_eq_none_iff, List.mem_reverse]

/-- A list cut around the last place `sep` stands. -/
def rsplitAround (sep l : List α) : Option (List α × List α) :=
  (splitAround sep.reverse l.reverse).map fun p => (p.2.reverse, p.1.reverse)

/-- The half before the cut holds no `sep`. -/
theorem splitAround_eq_some {sep l : List α} (h : splitAround sep l = some (a, b)) :
    l = a ++ sep ++ b ∧ (sep ≠ [] → ¬sep <:+: a) := by
  induction l generalizing a with
  | nil =>
    unfold splitAround at h
    split at h
    · next hsep =>
      cases h
      exact ⟨by rw [hsep]; rfl, fun hne => absurd hsep hne⟩
    · cases h
  | cons x xs ih =>
    unfold splitAround at h
    split at h
    · next hsep =>
      obtain ⟨rest, hrest⟩ := List.isPrefixOf_iff_prefix.1 hsep
      rw [← hrest, List.drop_left, Option.some.injEq, Prod.mk.injEq] at h
      obtain ⟨rfl, rfl⟩ := h
      refine ⟨hrest.symm, fun hne hin => hne (List.infix_nil.1 hin)⟩
    · next hsep =>
      obtain ⟨⟨a', b'⟩, hcut, heq⟩ := Option.map_eq_some_iff.1 h
      cases heq
      obtain ⟨rfl, hnot⟩ := ih hcut
      refine ⟨rfl, fun hne hin => ?_⟩
      rcases List.infix_cons_iff.1 hin with hpre | hin
      · refine hsep (List.isPrefixOf_iff_prefix.2 (hpre.trans ?_))
        rw [List.append_assoc]
        exact List.prefix_append (x :: a') _
      · exact hnot hne hin

/-- A separator that begins nowhere in itself is cut around where the half before it holds none. -/
theorem splitAround_append {c : α} {rest : List α} (hc : c ∉ rest) (ha : ¬c :: rest <:+: a) :
    splitAround (c :: rest) (a ++ c :: (rest ++ b)) = some (a, b) := by
  induction a with
  | nil => simp [splitAround]
  | cons x a ih =>
    have hpre : (c :: rest).isPrefixOf (x :: (a ++ c :: (rest ++ b))) = false := by
      rw [Bool.eq_false_iff]
      intro hpre
      rw [List.isPrefixOf_iff_prefix, List.cons_prefix_cons] at hpre
      obtain ⟨rfl, hpre⟩ := hpre
      -- The rest of it would stand in `a`, or hold the separator's first place.
      rcases List.prefix_or_prefix_of_prefix hpre (List.prefix_append a _) with hin | hin
      · exact ha (List.cons_prefix_cons.2 ⟨rfl, hin⟩).isInfix
      · obtain ⟨m, rfl⟩ := hin
        cases m with
        | nil =>
          rw [List.append_nil] at ha
          exact ha List.infix_rfl
        | cons y m =>
          rw [List.prefix_append_right_inj, List.cons_prefix_cons] at hpre
          exact hc (hpre.1 ▸ List.mem_append_cons_self)
    have ha' : ¬c :: rest <:+: a := fun hin => ha (List.infix_cons hin)
    rw [List.cons_append, splitAround, if_neg (by rw [hpre]; exact Bool.false_ne_true), ih ha']
    rfl

end lists

/-! ## Strings -/

def splitOnce (c : Char) (s : String) : Option (String × String) :=
  (splitOnceList c s.toList).map fun p => (String.ofList p.1, String.ofList p.2)

def rsplitOnce (c : Char) (s : String) : Option (String × String) :=
  (rsplitOnceList c s.toList).map fun p => (String.ofList p.1, String.ofList p.2)

theorem map_ofList_eq_some_iff (o : Option (List Char × List Char)) (a b : String) :
    (o.map fun p => (String.ofList p.1, String.ofList p.2)) = some (a, b) ↔
      o = some (a.toList, b.toList) := by
  cases o with
  | none => simp
  | some p =>
    obtain ⟨x, y⟩ := p
    simp only [Option.map_some, Option.some.injEq, Prod.mk.injEq]
    constructor
    · rintro ⟨rfl, rfl⟩; simp
    · rintro ⟨rfl, rfl⟩; simp

theorem splitOnce_eq_some_iff (c : Char) (s a b : String) :
    splitOnce c s = some (a, b) ↔ s = a ++ String.singleton c ++ b ∧ c ∉ a.toList := by
  rw [splitOnce, map_ofList_eq_some_iff, splitOnceList_eq_some_iff, ← String.toList_inj]
  simp

theorem rsplitOnce_eq_some_iff (c : Char) (s a b : String) :
    rsplitOnce c s = some (a, b) ↔ s = a ++ String.singleton c ++ b ∧ c ∉ b.toList := by
  rw [rsplitOnce, map_ofList_eq_some_iff, rsplitOnceList_eq_some_iff, ← String.toList_inj]
  simp

/-- What follows `pre` in `s`, where `s` starts with it. -/
def stripPrefix (pre s : String) : Option String :=
  (s.toList.dropPrefix? pre.toList).map String.ofList

theorem stripPrefix_append (pre s : String) : stripPrefix pre (pre ++ s) = some s := by
  rw [stripPrefix, String.toList_append, List.dropPrefix?_append_of_beq _ (beq_self_eq_true _)]
  simp

theorem stripPrefix_eq_some {pre s rest : String} (h : stripPrefix pre s = some rest) :
    s = pre ++ rest := by
  obtain ⟨cut, hcut, rfl⟩ := Option.map_eq_some_iff.1 h
  rw [List.dropPrefix?_eq_some_iff] at hcut
  obtain ⟨p, hs, hp⟩ := hcut
  rw [← String.toList_inj, hs, String.toList_append, String.toList_ofList]
  rw [beq_iff_eq] at hp
  rw [hp]

theorem stripPrefix_append_append (a b s : String) :
    stripPrefix (a ++ b) (a ++ s) = stripPrefix b s := by
  unfold stripPrefix
  rw [String.toList_append, String.toList_append]
  generalize a.toList = l
  induction l with
  | nil => rfl
  | cons c l ih => rw [← ih]; simp [List.dropPrefix?]

/-- What is left of a text with what `p` takes off both its ends. -/
def trimMatches (p : Char → Bool) (l : List Char) : List Char :=
  ((l.dropWhile p).reverse.dropWhile p).reverse

/-- What is trimmed off both ends satisfies `p`. -/
theorem trimMatches_eq (p : Char → Bool) (l : List Char) : ∃ pre post,
    l = pre ++ trimMatches p l ++ post ∧ (∀ c ∈ pre, p c = true) ∧ ∀ c ∈ post, p c = true := by
  have htake : ∀ l : List Char, ∀ c ∈ l.takeWhile p, p c = true := fun l c hc =>
    List.all_eq_true.1 List.all_takeWhile c hc
  refine ⟨l.takeWhile p, ((l.dropWhile p).reverse.takeWhile p).reverse, ?_, htake l, ?_⟩
  · rw [trimMatches, List.append_assoc, ← List.reverse_append, List.takeWhile_append_dropWhile,
      List.reverse_reverse, List.takeWhile_append_dropWhile]
  · exact fun c hc => htake _ c (List.mem_reverse.1 hc)

variable {p : Char → Bool} {l : List Char} {c : Char}

theorem trimMatches_of_none (h : ∀ c ∈ l, p c = false) : trimMatches p l = l := by
  obtain ⟨pre, post, heq, hpre, hpost⟩ := trimMatches_eq p l
  have hnone : ∀ {m : List Char}, (∀ c ∈ m, p c = true) → (∀ c ∈ m, c ∈ l) → m = [] := by
    intro m hm hsub
    refine List.eq_nil_iff_forall_not_mem.2 fun c hc => ?_
    have hnot := h c (hsub c hc)
    rw [hm c hc] at hnot
    cases hnot
  have hfront : pre = [] := hnone hpre fun c hc => by rw [heq]; simp [hc]
  have hback : post = [] := hnone hpost fun c hc => by rw [heq]; simp [hc]
  rw [hfront, hback, List.nil_append, List.append_nil] at heq
  exact heq.symm

theorem getLast?_trimMatches (h : (trimMatches p l).getLast? = some c) : p c = false := by
  rw [trimMatches, List.getLast?_reverse] at h
  have hnot := List.head?_dropWhile_not p (l.dropWhile p).reverse
  rw [h] at hnot
  exact hnot

theorem head?_trimMatches (h : (trimMatches p l).head? = some c) : p c = false := by
  have hsuffix := List.dropWhile_suffix p (l := (l.dropWhile p).reverse)
  obtain ⟨post, hpost⟩ := List.reverse_prefix.2 hsuffix
  rw [List.reverse_reverse] at hpost
  have hhead : (l.dropWhile p).head? = some c := by
    rw [← hpost]
    cases hm : trimMatches p l with
    | nil =>
      rw [hm] at h
      cases h
    | cons d m =>
      rw [hm] at h
      cases h
      rw [show ((l.dropWhile p).reverse.dropWhile p).reverse = c :: m from hm]
      rfl
  have hnot := List.head?_dropWhile_not p l
  rw [hhead] at hnot
  exact hnot

/-! ## Byte offsets -/

/-- The bytes of the UTF-8 encoding of `cs`. -/
def byteLen (cs : List Char) : Nat := (cs.map Char.utf8Size).sum

@[simp] theorem byteLen_nil : byteLen [] = 0 := rfl

@[simp] theorem byteLen_cons (c : Char) (cs : List Char) :
    byteLen (c :: cs) = c.utf8Size + byteLen cs := by simp [byteLen]

@[simp] theorem byteLen_append (a b : List Char) : byteLen (a ++ b) = byteLen a + byteLen b := by
  simp [byteLen]

/-- `n` is the end of a character of `s` or its start: a byte offset a slice may be taken at. -/
def Boundary (s : String) (n : Nat) : Prop :=
  ∃ a b : List Char, s.toList = a ++ b ∧ n = byteLen a

theorem Boundary.le_size {s : String} {n : Nat} (h : Boundary s n) : n ≤ byteLen s.toList := by
  obtain ⟨a, b, hs, rfl⟩ := h
  rw [hs, byteLen_append]
  omega

/-- `cs` cut at the byte offset `n`, `none` when `n` is no boundary of it. -/
def cutAt : List Char → Nat → Option (List Char × List Char)
  | cs, 0 => some ([], cs)
  | [], _ + 1 => none
  | c :: cs, n + 1 =>
    if c.utf8Size ≤ n + 1 then (cutAt cs (n + 1 - c.utf8Size)).map fun p => (c :: p.1, p.2)
    else none

theorem cutAt_append (a b : List Char) : cutAt (a ++ b) (byteLen a) = some (a, b) := by
  induction a with
  | nil => cases b <;> simp [cutAt]
  | cons c a ih =>
    have hc := c.utf8Size_pos
    obtain ⟨m, hm⟩ : ∃ m, byteLen (c :: a) = m + 1 := ⟨c.utf8Size + byteLen a - 1, by simp; omega⟩
    rw [hm, List.cons_append, cutAt, ← hm]
    simp only [byteLen_cons, Nat.le_add_right, if_true, Nat.add_sub_cancel_left, ih,
      Option.map_some]

/-- The text of `s` from the byte offset `lo` to the byte offset `hi`. -/
def slice (s : String) (lo hi : Nat) : Option String := do
  let (_, rest) ← cutAt s.toList lo
  let (mid, _) ← cutAt rest (hi - lo)
  pure (String.ofList mid)

theorem slice_middle (s : String) (a m b : List Char) (h : s.toList = a ++ m ++ b) :
    slice s (byteLen a) (byteLen a + byteLen m) = some (String.ofList m) := by
  unfold slice
  rw [h, List.append_assoc, cutAt_append]
  simp [cutAt_append]

/-! ## Texts in parts -/

section
variable {τ σ α : Type} {takes takes' : τ → List α → Prop}

/-- The text is cut in parts, one for each token in order, each a part its token takes. -/
def Cuts (takes : τ → List α → Prop) (ts : List τ) (l : List α) : Prop :=
  ∃ parts, parts.flatten = l ∧ List.Forall₂ takes ts parts

theorem Cuts.mono (h : ∀ t part, takes t part → takes' t part) {ts : List τ} {l : List α}
    (hcuts : Cuts takes ts l) : Cuts takes' ts l := by
  obtain ⟨parts, hl, hparts⟩ := hcuts
  exact ⟨parts, hl, hparts.imp h⟩

theorem cuts_map {f : σ → τ} {ts : List σ} {l : List α} :
    Cuts takes (ts.map f) l ↔ Cuts (fun t => takes (f t)) ts l := by
  unfold Cuts
  simp only [List.forall₂_map_left_iff]

end

/-! ## Decimal numerals -/

theorem all_isDigit_toString (n : Nat) : (toString n).toList.all Char.isDigit = true := by
  apply List.all_eq_true.2
  intro c hc
  rw [Nat.toString_eq_ofList_toDigits, String.toList_ofList] at hc
  exact Nat.isDigit_of_mem_toDigits (by decide) (by decide) hc

theorem not_mem_digits (hc : c.isDigit = false) (n : Nat) : c ∉ (toString n).toList := by
  intro h
  have hdigit := List.all_eq_true.1 (all_isDigit_toString n) c h
  rw [hc] at hdigit
  cases hdigit

theorem digits_ne_nil (n : Nat) : (toString n).toList ≠ [] := by
  rw [Nat.toString_eq_ofList_toDigits, String.toList_ofList]
  exact Nat.toDigits_ne_nil

theorem toString_nat_inj {m n : Nat} (h : toString m = toString n) : m = n := by
  have := congrArg (fun s : String => Nat.ofDigitChars 10 s.toList 0) h
  simpa [Nat.toString_eq_ofList_toDigits] using this

theorem exists_digitChar (h : c.isDigit = true) : ∃ d < 10, c = Nat.digitChar d := by
  have hall : ∀ n : Fin 58, 48 ≤ n.val → Char.ofNat n = Nat.digitChar (n - 48) := by decide
  simp only [Char.isDigit, Bool.and_eq_true, decide_eq_true_eq, UInt32.le_iff_toNat_le] at h
  have hlo : 48 ≤ c.toNat := h.1
  have hhi : c.toNat ≤ 57 := h.2
  refine ⟨c.toNat - 48, by omega, ?_⟩
  rw [← hall ⟨c.toNat, by omega⟩ hlo, Char.ofNat_toNat]

/-- Induction on the digits from the left: a digit after the numeral of a positive number makes
the next one, a digit after zeros starts one. -/
theorem digits_eq_zeros_append (l : List Char) (hne : l ≠ [])
    (hl : l.all Char.isDigit = true) :
    ∃ zeros n : Nat, l = List.replicate zeros '0' ++ (toString n).toList := by
  simp only [Nat.toString_eq_ofList_toDigits, String.toList_ofList]
  induction l using List.reverseRecOn with
  | nil => exact absurd rfl hne
  | append_singleton init c ih =>
    simp only [List.all_append, Bool.and_eq_true, List.all_cons, List.all_nil, and_true] at hl
    obtain ⟨d, hd, rfl⟩ := exists_digitChar hl.2
    have hdigit : Nat.toDigits 10 d = [d.digitChar] := Nat.toDigits_of_lt_base hd
    by_cases hinit : init = []
    · exact ⟨0, d, by simp [hinit, hdigit]⟩
    · obtain ⟨zeros, n, hn⟩ := ih hinit hl.1
      rcases Nat.eq_zero_or_pos n with rfl | hpos
      · refine ⟨zeros + 1, d, ?_⟩
        rw [hn, hdigit, Nat.toDigits_zero, List.replicate_succ']
      · refine ⟨zeros, 10 * n + d, ?_⟩
        rw [hn, ← Nat.toDigits_append_toDigits (by decide) hpos hd, hdigit, List.append_assoc]

end Lib
