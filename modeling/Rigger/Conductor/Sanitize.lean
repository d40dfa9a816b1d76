import Rigger.Conductor.Wave
import Rigger.Lib.Words

/-!
# A unit's branch and worktree (`rigger-conductor/src/conductor.rs`)

`sanitize_for_path` keeps the ASCII letters and digits of an id and writes one hyphen for any run of
other characters between them.  Every branch it makes is a name git takes (`validRef_unitBranch`);
two ids share a branch, and a worktree, where they have the same words (`unitBranch_eq_iff`).
-/

namespace Rigger.Conductor

open Lib

def sanitizeForPath (id : String) : String :=
  match trimMatches (· == '-') (collapse Char.isAlphanum '-' id.toList) with
  | [] => "unit"
  | trimmed => String.ofList trimmed

def unitBranch (unitId : String) : String := "rigger/u/" ++ sanitizeForPath unitId

/-- `UNIT_WORKTREE_PREFIX`. -/
def unitWorktreePrefix : String := "rigger-wt-"

def unitWorktreeDir (scratchRoot unitId : String) : String :=
  scratchRoot ++ "/" ++ unitWorktreePrefix ++ sanitizeForPath unitId

/-! ## Words -/

/-- The words of an id; one without any counts as the word it falls back to. -/
def idWords (id : String) : List (List Char) :=
  match wordsOf Char.isAlphanum id.toList with
  | [] => ["unit".toList]
  | ws => ws

theorem alphanum_unit : ∀ c ∈ "unit".toList, c.isAlphanum = true := List.all_eq_true.1 (by decide)

theorem unit_ne_nil : "unit".toList ≠ [] := List.cons_ne_nil _ _

variable {id a b : String} {c : Char}

theorem mem_idWords {w : List Char} (hw : w ∈ idWords id) :
    w ≠ [] ∧ ∀ c ∈ w, c.isAlphanum = true := by
  unfold idWords at hw
  split at hw
  · cases List.mem_singleton.1 hw
    exact ⟨unit_ne_nil, alphanum_unit⟩
  · exact mem_wordsOf hw

theorem idWords_ne_nil (id : String) : idWords id ≠ [] := by
  unfold idWords
  split
  · exact List.cons_ne_nil _ _
  · next hne => exact hne

theorem sanitizeForPath_eq (id : String) :
    sanitizeForPath id = String.ofList (['-'].intercalate (idWords id)) := by
  unfold sanitizeForPath idWords
  rw [trim_collapse (by decide)]
  cases hws : wordsOf Char.isAlphanum id.toList with
  | nil => rfl
  | cons w ws =>
    obtain ⟨⟨x, m, -, hfirst⟩, -⟩ := ends_intercalate '-'
      (fun v hv => mem_wordsOf (hws ▸ hv)) (List.cons_ne_nil w ws)
    rw [hfirst]

theorem sanitizeForPath_eq_iff : sanitizeForPath a = sanitizeForPath b ↔ idWords a = idWords b := by
  rw [sanitizeForPath_eq, sanitizeForPath_eq]
  constructor
  · intro h
    have hlist := String.ofList_injective h
    exact intercalate_inj (by decide) (fun _ => mem_idWords) (fun _ => mem_idWords) hlist
  · intro h
    rw [h]

theorem unitBranch_eq_iff : unitBranch a = unitBranch b ↔ idWords a = idWords b := by
  rw [← sanitizeForPath_eq_iff, unitBranch, unitBranch, String.append_right_inj]

theorem unitWorktreeDir_eq_iff {scratchRoot : String} :
    unitWorktreeDir scratchRoot a = unitWorktreeDir scratchRoot b ↔ idWords a = idWords b := by
  rw [← sanitizeForPath_eq_iff, unitWorktreeDir, unitWorktreeDir, String.append_right_inj]

/-! ## The units of the criteria -/

theorem wordsOf_unitSlug (n : Nat) (criterion : String) : ∃ rest,
    wordsOf Char.isAlphanum (unitSlug n criterion).toList =
      "unit".toList :: (toString n).toList :: rest := by
  have hdigits : ∀ c ∈ (toString n).toList, c.isAlphanum = true := by
    intro c hc
    have hdigit := List.all_eq_true.1 (all_isDigit_toString n) c hc
    rw [Char.isAlphanum, hdigit, Bool.or_true]
  have hne : (toString n).toList ≠ [] := by
    rw [Nat.toString_eq_ofList_toDigits, String.toList_ofList]
    exact Nat.toDigits_ne_nil
  have hunit : ∀ l, wordsOf Char.isAlphanum ("unit-".toList ++ l) =
      "unit".toList :: wordsOf Char.isAlphanum l := fun l =>
    wordsOf_cons (w := "unit".toList) (c := '-') alphanum_unit unit_ne_nil (by decide)
  unfold unitSlug
  split
  · rw [String.toList_append, hunit, wordsOf_word hdigits hne]
    exact ⟨[], rfl⟩
  · rw [String.toList_append, String.toList_append, String.toList_append, List.append_assoc,
      List.append_assoc, hunit]
    have hhyphen : "-".toList = ['-'] := by decide
    rw [hhyphen, List.singleton_append, wordsOf_cons hdigits hne (by decide)]
    exact ⟨_, rfl⟩

theorem idWords_unitSlug_inj {m n : Nat} {x y : String}
    (h : idWords (unitSlug m x) = idWords (unitSlug n y)) : m = n := by
  obtain ⟨rest, hm⟩ := wordsOf_unitSlug m x
  obtain ⟨rest', hn⟩ := wordsOf_unitSlug n y
  unfold idWords at h
  rw [hm, hn] at h
  have hdigits := (List.cons.inj (List.cons.inj h).2).1
  exact toString_nat_inj (String.toList_inj.1 hdigits)

/-! ## Refs -/

/-- What `git check-ref-format --branch` takes: slash-separated components, none empty, none that
begins with a dot or ends in `.lock`, and no character or sequence that revisions use. -/
structure ValidRef (name : List Char) : Prop where
  components : ∀ w ∈ name.splitOn '/', w ≠ [] ∧ w.head? ≠ some '.' ∧ ¬".lock".toList <:+ w
  chars : ∀ c ∈ name, ' ' < c ∧ c ∉ ['~', '^', ':', '?', '*', '[', '\\', '\x7f']
  dots : ¬"..".toList <:+: name
  last : name.getLast? ≠ some '.'
  braces : ¬['@', '\x7b'] <:+: name
  at_ : name ≠ ['@']
  dash : name.head? ≠ some '-'

/-- A character of the branches `sanitize_for_path` names. -/
def isPlain (c : Char) : Bool := c.isAlphanum || c == '-' || c == '/'

theorem plain_chars (hc : isPlain c = true) :
    ' ' < c ∧ c ∉ ['~', '^', ':', '?', '*', '[', '\\', '\x7f'] := by
  constructor
  · change ((decide (c.val ≥ 'A'.val ∧ c.val ≤ 'Z'.val) ||
      (decide (c.val ≥ 'a'.val) && decide (c.val ≤ 'z'.val))) ||
      (decide (c.val ≥ '0'.val) && decide (c.val ≤ '9'.val)) || c == '-' || c == '/') = true at hc
    simp only [Bool.or_eq_true, Bool.and_eq_true, decide_eq_true_eq, beq_iff_eq] at hc
    rw [Char.lt_def]
    rcases hc with (((⟨h, -⟩ | ⟨h, -⟩) | ⟨h, -⟩) | rfl) | rfl
    · exact UInt32.lt_of_lt_of_le (b := 'A'.val) (by decide) h
    · exact UInt32.lt_of_lt_of_le (b := 'a'.val) (by decide) h
    · exact UInt32.lt_of_lt_of_le (b := '0'.val) (by decide) h
    · decide
    · decide
  · intro hmem
    simp only [List.mem_cons, List.not_mem_nil, or_false] at hmem
    rcases hmem with rfl | rfl | rfl | rfl | rfl | rfl | rfl | rfl <;> cases hc

theorem plain_ne (hc : isPlain c = true) : c ≠ '.' ∧ c ≠ '@' := by
  constructor
  · rintro rfl
    cases hc
  · rintro rfl
    cases hc

theorem mem_sanitizeForPath (hc : c ∈ (sanitizeForPath id).toList) :
    c.isAlphanum = true ∨ c = '-' := by
  rw [sanitizeForPath_eq, String.toList_ofList] at hc
  have hmem : ∀ {ws : List (List Char)}, (∀ w ∈ ws, w ≠ [] ∧ ∀ c ∈ w, c.isAlphanum = true) →
      c ∈ ['-'].intercalate ws → c.isAlphanum = true ∨ c = '-' := by
    intro ws hws hc
    induction ws with
    | nil => cases hc
    | cons w ws ih =>
      by_cases hnone : ws = []
      · rw [hnone, List.intercalate_singleton] at hc
        exact Or.inl ((hws w List.mem_cons_self).2 c hc)
      · rw [List.intercalate_cons_of_ne_nil hnone, List.mem_append, List.mem_append] at hc
        rcases hc with (hc | hc) | hc
        · exact Or.inl ((hws w List.mem_cons_self).2 c hc)
        · exact Or.inr (List.mem_singleton.1 hc)
        · exact ih (fun v hv => hws v (List.mem_cons_of_mem _ hv)) hc
  exact hmem (fun _ => mem_idWords) hc

theorem sanitizeForPath_ne_nil (id : String) : (sanitizeForPath id).toList ≠ [] := by
  rw [sanitizeForPath_eq, String.toList_ofList]
  obtain ⟨⟨x, m, -, hfirst⟩, -⟩ :=
    ends_intercalate '-' (fun _ => mem_idWords) (idWords_ne_nil id)
  rw [hfirst]
  exact List.cons_ne_nil _ _

theorem validRef_unitBranch (id : String) : ValidRef (unitBranch id).toList := by
  have hname : (unitBranch id).toList = "rigger/u/".toList ++ (sanitizeForPath id).toList :=
    String.toList_append
  have hplain : ∀ c ∈ (unitBranch id).toList, isPlain c = true := by
    intro c hc
    rw [hname, List.mem_append] at hc
    rcases hc with hc | hc
    · exact List.all_eq_true.1 (by decide : "rigger/u/".toList.all isPlain = true) c hc
    · rcases mem_sanitizeForPath hc with hc | rfl
      · rw [isPlain, hc]
        rfl
      · decide
  have hdot : '.' ∉ (unitBranch id).toList := fun hc => (plain_ne (hplain _ hc)).1 rfl
  have hat : '@' ∉ (unitBranch id).toList := fun hc => (plain_ne (hplain _ hc)).2 rfl
  have hslash : '/' ∉ (sanitizeForPath id).toList := by
    intro hc
    rcases mem_sanitizeForPath hc with hc | hc <;> cases hc
  have hjoin : (unitBranch id).toList =
      ['/'].intercalate ["rigger".toList, "u".toList, (sanitizeForPath id).toList] := by
    have hpre : "rigger/u/".toList = "rigger".toList ++ ['/'] ++ ("u".toList ++ ['/']) := by decide
    rw [hname, List.intercalate_cons_cons, List.intercalate_cons_cons, List.intercalate_singleton,
      hpre, List.append_assoc]
  have hsplit : (unitBranch id).toList.splitOn '/' =
      ["rigger".toList, "u".toList, (sanitizeForPath id).toList] := by
    rw [hjoin, List.splitOn_intercalate '/' _ (List.cons_ne_nil _ _)]
    · intro w hw
      simp only [List.mem_cons, List.not_mem_nil, or_false] at hw
      rcases hw with rfl | rfl | rfl
      · decide
      · decide
      · exact hslash
  refine ⟨fun w hw => ?_, fun c hc => plain_chars (hplain c hc), ?_, ?_, ?_, ?_, ?_⟩
  · rw [hsplit] at hw
    have hout : w ≠ [] ∧ '.' ∉ w := by
      simp only [List.mem_cons, List.not_mem_nil, or_false] at hw
      rcases hw with rfl | rfl | rfl
      · decide
      · decide
      · refine ⟨sanitizeForPath_ne_nil id, fun hc => hdot ?_⟩
        rw [hname]
        exact List.mem_append_right _ hc
    refine ⟨hout.1, fun hhead => hout.2 (List.mem_of_head? hhead), fun hsuffix => hout.2 ?_⟩
    exact hsuffix.subset (by decide)
  · exact fun hwithin => hdot (hwithin.subset (by decide))
  · exact fun hlast => hdot (List.mem_of_getLast? hlast)
  · exact fun hwithin => hat (hwithin.subset (by decide))
  · intro heq
    rw [heq] at hat
    exact hat List.mem_cons_self
  · have hpre : "rigger/u/".toList = 'r' :: "igger/u/".toList := by decide
    rw [hname, hpre, List.cons_append, List.head?_cons]
    decide

end Rigger.Conductor
