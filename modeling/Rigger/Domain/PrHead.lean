import Rigger.Conductor.Criterion
import Rigger.Conductor.Sanitize
import Rigger.Lib.Pieces

/-!
# The head of a release's pull request (`rigger-domain/src/ledger.rs`)

A run's head is named by the stem of its spec and the first characters of its id.  The stem keeps
the dots of a file's name, so the head is a name git takes just where no word of that name stands on
both sides of two dots, and two runs have the same head where their specs' stems and the first
twelve characters of their ids agree (`prHeadBranch_iff`).
-/

namespace Rigger.Release

open Lib Conductor

def shortRunId (runId : String) : String := String.ofList (runId.toList.take 12)

def prHeadBranch (specPath runId : String) : String :=
  let stem := specStem specPath
  let short := shortRunId runId
  let slug :=
    match stem.isEmpty, short.isEmpty with
    | false, false => stem ++ "-" ++ short
    | false, true => stem
    | true, false => short
    | true, true => ""
  "pr/" ++ slug

/-! ## What a stem keeps -/

/-- A character no trim takes: neither a hyphen nor a dot. -/
def isWord (c : Char) : Bool := c.isAlphanum || c == '_'

def trimmed (c : Char) : Bool := c == '-' || c == '.'

/-- Two dots with a word on both sides of them. -/
def Dotted (l : List Char) : Prop :=
  ∃ a b, l = a ++ '.' :: '.' :: b ∧ (∃ c ∈ a, isWord c = true) ∧ ∃ c ∈ b, isWord c = true

theorem refSafe_cons (dash : Bool) (x : Char) (l : List Char) : refSafe dash (x :: l) =
    if x.isAlphanum || x == '-' || x == '_' || x == '.' then x :: refSafe false l
    else if dash then refSafe true l else '-' :: refSafe true l := rfl

variable {c : Char} {l : List Char} {specPath : String} {dash : Bool}

theorem mem_refSafe (h : c ∈ refSafe dash l) : isWord c = true ∨ trimmed c = true := by
  induction l generalizing dash with
  | nil => cases h
  | cons x l ih =>
    rw [refSafe_cons] at h
    split at h
    · next hx =>
      rcases List.mem_cons.1 h with rfl | h
      · simp only [Bool.or_eq_true] at hx
        simp only [isWord, trimmed, Bool.or_eq_true]
        tauto
      · exact ih h
    · split at h
      · exact ih h
      · rcases List.mem_cons.1 h with rfl | h
        · exact .inr rfl
        · exact ih h

theorem mem_refSafe_word (hc : isWord c = true) : c ∈ refSafe dash l ↔ c ∈ l := by
  have hdash : c ≠ '-' := by
    rintro rfl
    cases hc
  induction l generalizing dash with
  | nil => rfl
  | cons x l ih =>
    have hrest : ∀ dash, c ∈ refSafe dash l ↔ c ∈ l := fun _ => ih
    rw [refSafe_cons]
    split
    · rw [List.mem_cons, List.mem_cons, hrest]
    · next hx =>
      have hne : c ≠ x := by
        rintro rfl
        apply hx
        simp only [isWord, Bool.or_eq_true] at hc ⊢
        tauto
      split
      · rw [hrest, List.mem_cons, or_iff_right hne]
      · rw [List.mem_cons, hrest, List.mem_cons, or_iff_right hdash, or_iff_right hne]

theorem refSafe_append_dots (dash : Bool) (a b : List Char) :
    refSafe dash (a ++ '.' :: '.' :: b) = refSafe dash a ++ '.' :: '.' :: refSafe false b := by
  induction a generalizing dash with
  | nil => rfl
  | cons x a ih =>
    rw [List.cons_append, refSafe_cons, refSafe_cons]
    split
    · rw [ih, List.cons_append]
    · split
      · exact ih true
      · rw [ih, List.cons_append]

theorem refSafe_dots {u v : List Char} (h : refSafe dash l = u ++ '.' :: '.' :: v) :
    ∃ a b, l = a ++ '.' :: '.' :: b ∧ refSafe dash a = u ∧ refSafe false b = v := by
  induction l generalizing dash u with
  | nil =>
    have hlength := congrArg List.length h
    simp [refSafe] at hlength
  | cons x l ih =>
    rw [refSafe_cons] at h
    split at h
    · next hx =>
      cases u with
      | nil =>
        obtain ⟨rfl, hrest⟩ := List.cons.inj h
        -- the second dot is written where it is read, as no hyphen stands for what is before it
        cases l with
        | nil => cases hrest
        | cons y l =>
          rw [refSafe_cons] at hrest
          split at hrest
          · obtain ⟨rfl, htail⟩ := List.cons.inj hrest
            exact ⟨[], l, rfl, rfl, htail⟩
          · exact absurd (List.cons.inj hrest).1 (by decide)
      | cons y u =>
        obtain ⟨rfl, hrest⟩ := List.cons.inj h
        obtain ⟨a, b, rfl, ha, hb⟩ := ih hrest
        refine ⟨x :: a, b, rfl, ?_, hb⟩
        rw [refSafe_cons, if_pos hx, ha]
    · next hx =>
      split at h
      · next hdash =>
        obtain ⟨a, b, rfl, ha, hb⟩ := ih h
        refine ⟨x :: a, b, rfl, ?_, hb⟩
        rw [refSafe_cons, if_neg hx, if_pos hdash, ha]
      · next hdash =>
        cases u with
        | nil => exact absurd (List.cons.inj h).1 (by decide)
        | cons y u =>
          obtain ⟨rfl, hrest⟩ := List.cons.inj h
          obtain ⟨a, b, rfl, ha, hb⟩ := ih hrest
          refine ⟨x :: a, b, rfl, ?_, hb⟩
          rw [refSafe_cons, if_neg hx, if_neg hdash, ha]

theorem dotted_refSafe (dash : Bool) (l : List Char) : Dotted (refSafe dash l) ↔ Dotted l := by
  constructor
  · rintro ⟨u, v, h, ⟨c, hc, hword⟩, d, hd, hword'⟩
    obtain ⟨a, b, rfl, rfl, rfl⟩ := refSafe_dots h
    exact ⟨a, b, rfl, ⟨c, (mem_refSafe_word hword).1 hc, hword⟩, d,
      (mem_refSafe_word hword').1 hd, hword'⟩
  · rintro ⟨a, b, rfl, ⟨c, hc, hword⟩, d, hd, hword'⟩
    exact ⟨_, _, refSafe_append_dots dash a b, ⟨c, (mem_refSafe_word hword).2 hc, hword⟩, d,
      (mem_refSafe_word hword').2 hd, hword'⟩

theorem not_trimmed_of_word (h : isWord c = true) : trimmed c = false := by
  by_contra htrim
  rw [Bool.not_eq_false, trimmed, Bool.or_eq_true, beq_iff_eq, beq_iff_eq] at htrim
  rcases htrim with rfl | rfl <;> cases h

/-- Trimming leaves two dots where a word stands on both sides of them. -/
theorem infix_trimMatches (hl : ∀ c ∈ l, isWord c = true ∨ trimmed c = true) :
    ['.', '.'] <:+: trimMatches trimmed l ↔ Dotted l := by
  obtain ⟨pre, post, heq, hpre, hpost⟩ := trimMatches_eq trimmed l
  have hword : ∀ c ∈ l, trimmed c = false → isWord c = true := by
    intro c hc hnot
    refine (hl c hc).resolve_right fun htrim => ?_
    rw [hnot] at htrim
    cases htrim
  constructor
  · rintro ⟨u, v, h⟩
    have hmem : ∀ c ∈ trimMatches trimmed l, c ∈ l := by
      intro c hc
      rw [heq]
      simp [hc]
    have hu : ∃ c ∈ u, isWord c = true := by
      cases u with
      | nil =>
        have hdot : (trimMatches trimmed l).head? = some '.' := by rw [← h]; rfl
        exact absurd (head?_trimMatches hdot) (by decide)
      | cons c u =>
        have hhead : (trimMatches trimmed l).head? = some c := by rw [← h]; rfl
        refine ⟨c, List.mem_cons_self, hword c (hmem c ?_) (head?_trimMatches hhead)⟩
        exact List.mem_of_mem_head? hhead
    have hv : ∃ c ∈ v, isWord c = true := by
      rcases List.eq_nil_or_concat' v with rfl | ⟨v, c, rfl⟩
      · have hdot : (trimMatches trimmed l).getLast? = some '.' := by
          rw [← h, List.append_nil, List.getLast?_append]
          rfl
        exact absurd (getLast?_trimMatches hdot) (by decide)
      · have hlast : (trimMatches trimmed l).getLast? = some c := by
          rw [← h, ← List.append_assoc, List.getLast?_concat]
        refine ⟨c, by simp, hword c (hmem c ?_) (getLast?_trimMatches hlast)⟩
        exact List.mem_of_mem_getLast? hlast
    obtain ⟨c, hc, hcword⟩ := hu
    obtain ⟨d, hd, hdword⟩ := hv
    refine ⟨pre ++ u, v ++ post, ?_, ⟨c, by simp [hc], hcword⟩, d, by simp [hd], hdword⟩
    rw [heq, ← h]
    simp
  · rintro ⟨a, b, h, ⟨c, hc, hcword⟩, d, hd, hdword⟩
    have hkept : ∀ {x : Char}, isWord x = true → ∀ {m : List Char}, (∀ c ∈ m, trimmed c = true) →
        x ∉ m := by
      intro x hx m hm hmem
      have htrim := hm x hmem
      rw [not_trimmed_of_word hx] at htrim
      cases htrim
    have hsplit : pre ++ (trimMatches trimmed l ++ post) = a ++ ('.' :: '.' :: b) := by
      rw [← h, ← List.append_assoc, ← heq]
    rcases List.append_eq_append_iff.1 hsplit with ⟨m, ha, hm⟩ | ⟨m, hpre', -⟩
    · -- the dots stand within what is left, as a word follows them
      have hb : trimMatches trimmed l ++ post = (m ++ ['.', '.']) ++ b := by
        rw [hm]
        simp
      rcases List.append_eq_append_iff.1 hb with ⟨n, -, hn⟩ | ⟨n, hn, -⟩
      · refine absurd ?_ (hkept hdword hpost)
        rw [hn]
        exact List.mem_append_right _ hd
      · rw [hn, List.append_assoc]
        exact ⟨m, n, by simp⟩
    · refine absurd ?_ (hkept hcword hpre)
      rw [hpre']
      exact List.mem_append_left _ hc

/-- The dots of a stem are those of its file's name that words stand around. -/
theorem infix_specStem (specPath : String) :
    ['.', '.'] <:+: (specStem specPath).toList ↔ Dotted (fileStem specPath).toList := by
  rw [specStem, String.toList_ofList]
  exact (infix_trimMatches fun c hc => mem_refSafe hc).trans (dotted_refSafe false _)

theorem mem_specStem (h : c ∈ (specStem specPath).toList) : isWord c = true ∨ trimmed c = true := by
  rw [specStem, String.toList_ofList] at h
  obtain ⟨pre, post, heq, -, -⟩ := trimMatches_eq (fun c => c == '-' || c == '.')
    (refSafe false (fileStem specPath).toList)
  have hmem : c ∈ refSafe false (fileStem specPath).toList := by
    rw [heq]
    simp [h]
  exact mem_refSafe hmem

theorem head?_specStem (h : (specStem specPath).toList.head? = some c) : trimmed c = false := by
  rw [specStem, String.toList_ofList] at h
  exact head?_trimMatches h

/-! ## Run ids -/

def hexDigits : List Char :=
  ['0', '1', '2', '3', '4', '5', '6', '7', '8', '9', 'a', 'b', 'c', 'd', 'e', 'f']

def isHex (c : Char) : Bool := hexDigits.contains c

/-- The groups of a random uuid, as `Uuid::new_v4` writes it. -/
structure Uuid where
  timeLow : List Char
  timeMid : List Char
  timeHigh : List Char
  variant : List Char
  node : List Char
  lengths : [timeLow, timeMid, timeHigh, variant, node].map List.length = [8, 4, 4, 4, 12]
  hex : ∀ c ∈ timeLow ++ timeMid ++ timeHigh ++ variant ++ node, isHex c = true
  version : timeHigh.head? = some '4'
  reserved : ∃ c ∈ ['8', '9', 'a', 'b'], variant.head? = some c

namespace Uuid

def text (id : Uuid) : String := String.ofList
  (['-'].intercalate [id.timeLow, id.timeMid, id.timeHigh, id.variant, id.node])

/-- The first group, and three digits of the second after its hyphen. -/
theorem shortRunId_text (id : Uuid) :
    (shortRunId id.text).toList = id.timeLow ++ '-' :: id.timeMid.take 3 := by
  have hlow : id.timeLow.length = 8 := (List.cons.inj id.lengths).1
  have hmid : id.timeMid.length = 4 := (List.cons.inj (List.cons.inj id.lengths).2).1
  obtain ⟨rest, hrest⟩ : ∃ rest, ['-'].intercalate
      [id.timeLow, id.timeMid, id.timeHigh, id.variant, id.node] =
        id.timeLow ++ '-' :: (id.timeMid ++ rest) := by
    refine ⟨'-' :: ['-'].intercalate [id.timeHigh, id.variant, id.node], ?_⟩
    rw [List.intercalate_cons_cons, List.intercalate_cons_cons]
    simp
  rw [shortRunId, text, String.toList_ofList, String.toList_ofList, hrest,
    List.take_append, hlow, List.take_of_length_le (by omega)]
  simp [List.take_append, hmid]

theorem length_shortRunId (id : Uuid) : (shortRunId id.text).toList.length = 12 := by
  have hlow : id.timeLow.length = 8 := (List.cons.inj id.lengths).1
  have hmid : id.timeMid.length = 4 := (List.cons.inj (List.cons.inj id.lengths).2).1
  rw [shortRunId_text]
  simp [hlow, hmid]

theorem mem_shortRunId {id : Uuid} {c : Char} (h : c ∈ (shortRunId id.text).toList) :
    isHex c = true ∨ c = '-' := by
  rw [shortRunId_text, List.mem_append, List.mem_cons] at h
  rcases h with h | h | h
  · exact .inl (id.hex c (by simp [h]))
  · exact .inr h
  · exact .inl (id.hex c (by simp [List.mem_of_mem_take h]))

theorem getLast?_shortRunId (id : Uuid) : ∃ c, (shortRunId id.text).toList.getLast? = some c ∧
    isHex c = true := by
  have hmid : id.timeMid.length = 4 := (List.cons.inj (List.cons.inj id.lengths).2).1
  rcases List.eq_nil_or_concat' (id.timeMid.take 3) with hnil | ⟨init, c, hc⟩
  · have hlength := congrArg List.length hnil
    simp [hmid] at hlength
  · refine ⟨c, ?_, id.hex c ?_⟩
    · rw [shortRunId_text, hc, ← List.cons_append, ← List.append_assoc, List.getLast?_concat]
    · have hmem : c ∈ id.timeMid.take 3 := by
        rw [hc]
        simp
      simp [List.mem_of_mem_take hmem]

end Uuid

/-! ## The head -/

theorem prHeadBranch_eq (specPath : String) (id : Uuid) : (prHeadBranch specPath id.text).toList =
    'p' :: 'r' :: '/' :: ((if (specStem specPath).toList = [] then []
      else (specStem specPath).toList ++ ['-']) ++ (shortRunId id.text).toList) := by
  have hshort : (shortRunId id.text).isEmpty = false := by
    rw [Bool.eq_false_iff, Ne, String.isEmpty_iff]
    intro h
    have hlength := id.length_shortRunId
    rw [h] at hlength
    cases hlength
  unfold prHeadBranch
  dsimp only
  rw [hshort]
  by_cases hstem : (specStem specPath).toList = []
  · have hempty : (specStem specPath).isEmpty = true := by
      rw [String.isEmpty_iff, ← String.toList_inj, hstem]
      rfl
    rw [hempty, if_pos hstem]
    simp
  · have hempty : (specStem specPath).isEmpty = false := by
      rw [Bool.eq_false_iff, Ne, String.isEmpty_iff]
      rintro h
      rw [h] at hstem
      exact hstem rfl
    rw [hempty, if_neg hstem]
    simp

theorem hex_chars (h : isHex c = true) : isWord c = true ∧ c ≠ 'k' := by
  have hmem : c ∈ hexDigits := List.contains_iff_mem.1 h
  have hall : hexDigits.all (fun c => isWord c && c != 'k') = true := by decide
  have hc := List.all_eq_true.1 hall c hmem
  rw [Bool.and_eq_true, bne_iff_ne] at hc
  exact hc

theorem kept_chars (h : isWord c = true ∨ trimmed c = true) :
    (' ' < c ∧ c ∉ ['~', '^', ':', '?', '*', '[', '\\', '\x7f']) ∧ c ≠ '/' ∧ c ≠ '@' := by
  have hplain : ∀ {c : Char}, isPlain c = true → c ≠ '/' →
      (' ' < c ∧ c ∉ ['~', '^', ':', '?', '*', '[', '\\', '\x7f']) ∧ c ≠ '/' ∧ c ≠ '@' :=
    fun hc hslash => ⟨plain_chars hc, hslash, (plain_ne hc).2⟩
  simp only [isWord, trimmed, Bool.or_eq_true, beq_iff_eq] at h
  rcases h with (h | rfl) | rfl | rfl
  · refine hplain (by rw [isPlain, h]; rfl) ?_
    rintro rfl
    cases h
  · decide
  · decide
  · decide

/-- What follows `pr/` in a head. -/
structure Slug (specPath : String) (slug : List Char) : Prop where
  chars : ∀ c ∈ slug, isWord c = true ∨ trimmed c = true
  first : slug.head? ≠ some '.'
  last : ∃ c, slug.getLast? = some c ∧ isHex c = true
  dots : ['.', '.'] <:+: slug ↔ ['.', '.'] <:+: (specStem specPath).toList

theorem exists_slug (specPath : String) (id : Uuid) : ∃ slug, Slug specPath slug ∧
    (prHeadBranch specPath id.text).toList = 'p' :: 'r' :: '/' :: slug := by
  obtain ⟨last, hlast, hhex⟩ := id.getLast?_shortRunId
  have hshort : ∀ c ∈ (shortRunId id.text).toList, isWord c = true ∨ trimmed c = true := by
    intro c hc
    rcases Uuid.mem_shortRunId hc with hc | rfl
    · exact .inl (hex_chars hc).1
    · exact .inr rfl
  have hnodot : '.' ∉ (shortRunId id.text).toList := by
    intro hc
    rcases Uuid.mem_shortRunId hc with hc | hc
    · exact absurd (hex_chars hc).1 (by decide)
    · exact absurd hc (by decide)
  have hfree : ¬['.', '.'] <:+: (shortRunId id.text).toList := fun h =>
    hnodot (h.subset List.mem_cons_self)
  refine ⟨_, ?_, prHeadBranch_eq specPath id⟩
  by_cases hstem : (specStem specPath).toList = []
  · rw [if_pos hstem, List.nil_append]
    refine ⟨hshort, fun h => hnodot (List.mem_of_mem_head? h), ⟨last, hlast, hhex⟩, ?_⟩
    rw [hstem]
    exact ⟨fun h => absurd h hfree, fun h => absurd (List.infix_nil.1 h) (List.cons_ne_nil _ _)⟩
  · rw [if_neg hstem, List.append_assoc, List.singleton_append]
    refine ⟨fun c hc => ?_, fun h => ?_, ⟨last, ?_, hhex⟩, ?_⟩
    · rcases List.mem_append.1 hc with hc | hc
      · exact mem_specStem hc
      · rcases List.mem_cons.1 hc with rfl | hc
        · exact .inr rfl
        · exact hshort c hc
    · obtain ⟨c, stem, hc⟩ := List.exists_cons_of_ne_nil hstem
      rw [hc] at h
      cases h
      have hhead : (specStem specPath).toList.head? = some '.' := by rw [hc]; rfl
      exact absurd (head?_specStem hhead) (by decide)
    · rw [List.getLast?_append, List.getLast?_cons, hlast]
      rfl
    · constructor
      · intro h
        rcases infix_append_cons (by decide) h with h | h
        · exact h
        · exact absurd h hfree
      · exact fun h => h.trans (List.prefix_append _ _).isInfix

/-- Git takes the head just where no word of the spec's name stands on both sides of two dots. -/
theorem validRef_prHeadBranch (specPath : String) (id : Uuid) :
    ValidRef (prHeadBranch specPath id.text).toList ↔ ¬Dotted (fileStem specPath).toList := by
  obtain ⟨slug, hslug, hlist⟩ := exists_slug specPath id
  obtain ⟨last, hlast, hhex⟩ := hslug.last
  have hdots : ['.', '.'] <:+: (prHeadBranch specPath id.text).toList ↔
      Dotted (fileStem specPath).toList := by
    rw [← infix_specStem, ← hslug.dots, hlist]
    constructor
    · intro h
      have hpr : ['p', 'r'] ++ '/' :: slug = 'p' :: 'r' :: '/' :: slug := rfl
      rw [← hpr] at h
      rcases infix_append_cons (by decide) h with h | h
      · exact absurd (h.subset List.mem_cons_self) (by decide)
      · exact h
    · exact fun h => List.infix_cons (List.infix_cons (List.infix_cons h))
  have hne : slug ≠ [] := by
    rintro rfl
    cases hlast
  have hend : (prHeadBranch specPath id.text).toList.getLast? = some last := by
    rw [hlist]
    simp [List.getLast?_cons, hlast]
  have hchars : ∀ c ∈ (prHeadBranch specPath id.text).toList,
      (' ' < c ∧ c ∉ ['~', '^', ':', '?', '*', '[', '\\', '\x7f']) ∧ c ≠ '@' := by
    intro c hc
    rw [hlist] at hc
    simp only [List.mem_cons] at hc
    rcases hc with rfl | rfl | rfl | hc
    · decide
    · decide
    · decide
    · have := kept_chars (hslug.chars c hc)
      exact ⟨this.1, this.2.2⟩
  have hslash : '/' ∉ slug := fun h => (kept_chars (hslug.chars _ h)).2.1 rfl
  have hsplit : (prHeadBranch specPath id.text).toList.splitOn '/' = [['p', 'r'], slug] := by
    have hjoin : 'p' :: 'r' :: '/' :: slug = ['/'].intercalate [['p', 'r'], slug] := by
      rw [List.intercalate_cons_cons, List.intercalate_singleton]
      rfl
    rw [hlist, hjoin, List.splitOn_intercalate '/' _ (List.cons_ne_nil _ _)]
    intro w hw
    simp only [List.mem_cons, List.not_mem_nil, or_false] at hw
    rcases hw with rfl | rfl
    · decide
    · exact hslash
  constructor
  · intro hvalid hdotted
    exact hvalid.dots (hdots.2 hdotted)
  · intro hnot
    refine ⟨fun w hw => ?_, fun c hc => (hchars c hc).1, fun h => hnot (hdots.1 h), ?_, ?_, ?_, ?_⟩
    · rw [hsplit] at hw
      simp only [List.mem_cons, List.not_mem_nil, or_false] at hw
      rcases hw with rfl | rfl
      · decide
      · refine ⟨hne, hslug.first, ?_⟩
        rintro ⟨init, hinit⟩
        rw [← hinit, List.getLast?_append] at hlast
        have hk : 'k' = last := Option.some.inj hlast
        exact (hex_chars hhex).2 hk.symm
    · rw [hend]
      rintro ⟨⟩
      exact absurd (hex_chars hhex).1 (by decide)
    · exact fun h => (hchars '@' (h.subset List.mem_cons_self)).2 rfl
    · rw [hlist]
      exact fun h => absurd (List.cons.inj h).1 (by decide)
    · rw [hlist]
      exact fun h => absurd (Option.some.inj h) (by decide)

theorem prHeadBranch_eq_iff {specPath' : String} {id id' : Uuid} :
    prHeadBranch specPath id.text = prHeadBranch specPath' id'.text ↔
      shortRunId id.text = shortRunId id'.text ∧ specStem specPath = specStem specPath' := by
  rw [← String.toList_inj, prHeadBranch_eq, prHeadBranch_eq]
  constructor
  · intro h
    simp only [List.cons.injEq, true_and] at h
    have hlength : (shortRunId id.text).toList.length = (shortRunId id'.text).toList.length := by
      rw [id.length_shortRunId, id'.length_shortRunId]
    obtain ⟨hstem, hshort⟩ := List.append_inj' h hlength
    refine ⟨String.toList_inj.1 hshort, String.toList_inj.1 ?_⟩
    split at hstem
    · next hnil =>
      split at hstem
      · next hnil' => rw [hnil, hnil']
      · exact absurd hstem.symm (List.append_ne_nil_of_right_ne_nil _ (List.cons_ne_nil _ _))
    · split at hstem
      · exact absurd hstem (List.append_ne_nil_of_right_ne_nil _ (List.cons_ne_nil _ _))
      · exact List.append_cancel_right hstem
  · rintro ⟨hshort, hstem⟩
    rw [hshort, hstem]

/-- A head is a name git takes just where no word of the spec's name stands on both sides of two
dots, and two heads differ just where the runs' short ids or the stems of their specs do. -/
theorem prHeadBranch_iff (specPath specPath' : String) (id id' : Uuid) :
    (ValidRef (prHeadBranch specPath id.text).toList ↔ ¬Dotted (fileStem specPath).toList) ∧
      (prHeadBranch specPath id.text ≠ prHeadBranch specPath' id'.text ↔
        shortRunId id.text ≠ shortRunId id'.text ∨ specStem specPath ≠ specStem specPath') := by
  refine ⟨validRef_prHeadBranch specPath id, ?_⟩
  rw [Ne, prHeadBranch_eq_iff]
  exact not_and_or

/-- `7ad52031-01f{digit}-4d37-aa19-ad48090f84a5`. -/
def runOf (digit : Char) (h : isHex digit = true) : Uuid where
  timeLow := ['7', 'a', 'd', '5', '2', '0', '3', '1']
  timeMid := ['0', '1', 'f', digit]
  timeHigh := ['4', 'd', '3', '7']
  variant := ['a', 'a', '1', '9']
  node := ['a', 'd', '4', '8', '0', '9', '0', 'f', '8', '4', 'a', '5']
  lengths := rfl
  hex := by simpa [isHex, hexDigits] using h
  version := rfl
  reserved := ⟨'a', by decide, rfl⟩

theorem shortRunId_runOf (digit : Char) (h : isHex digit = true) :
    (shortRunId (runOf digit h).text).toList =
      ['7', 'a', 'd', '5', '2', '0', '3', '1', '-', '0', '1', 'f'] := by
  rw [Uuid.shortRunId_text]
  rfl

theorem text_runOf_ne : (runOf '1' (by decide)).text ≠ (runOf '2' (by decide)).text := by
  intro h
  have hlist := congrArg String.toList h
  rw [Uuid.text, Uuid.text, String.toList_ofList, String.toList_ofList] at hlist
  exact absurd hlist (by decide)

theorem dotted_stem : Dotted (fileStem "a..b.md").toList := by
  have hstem : (fileStem "a..b.md").toList = ['a', '.', '.', 'b'] := by decide
  rw [hstem]
  exact ⟨['a'], ['b'], rfl, ⟨'a', by simp, rfl⟩, 'b', by simp, rfl⟩

/-- A spec named with two dots has no head git takes, and two runs of one spec may share a head. -/
theorem prHeadBranch_fails : ¬ValidRef
    (prHeadBranch "a..b.md" (runOf '1' (by decide)).text).toList ∧
    (runOf '1' (by decide)).text ≠ (runOf '2' (by decide)).text ∧
      prHeadBranch "a.md" (runOf '1' (by decide)).text =
        prHeadBranch "a.md" (runOf '2' (by decide)).text := by
  have hshort :
      shortRunId (runOf '1' (by decide)).text = shortRunId (runOf '2' (by decide)).text := by
    rw [← String.toList_inj, shortRunId_runOf, shortRunId_runOf]
  have hsame := prHeadBranch_eq_iff.2 ⟨hshort, Eq.refl (specStem "a.md")⟩
  exact ⟨fun h => (validRef_prHeadBranch _ _).1 h dotted_stem, text_runOf_ne, hsame⟩

end Rigger.Release
