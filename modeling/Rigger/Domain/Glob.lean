import Rigger.Lib.Cut

/-!
# Globs over repository paths (`rigger-domain/src/review.rs`)

A glob's reading is a cut of the path: each of its tokens takes one part, `**` any run of
characters, `*` one without a slash, `?` one character that is no slash, and every other character
itself.  The code translates the glob to the text of a regular expression and asks a regex engine.
The engine is handed in with what its documentation says of the expressions the translation writes
(`Documented`): its dot takes no line break, so the two readings part where a `**` has one to take
(`globMatches_iff`).
-/

namespace Rigger.Review

open Lib

/-! ## The reference -/

inductive Token where
  | anyRun
  | segmentRun
  | one
  | literal (c : Char)
deriving DecidableEq

/-- A glob's tokens; `**` takes the slash after it. -/
def tokens : List Char → List Token
  | '*' :: '*' :: '/' :: cs => .anyRun :: tokens cs
  | '*' :: '*' :: cs => .anyRun :: tokens cs
  | '*' :: cs => .segmentRun :: tokens cs
  | '?' :: cs => .one :: tokens cs
  | c :: cs => .literal c :: tokens cs
  | [] => []

def Token.Takes : Token → List Char → Prop
  | .anyRun, _ => True
  | .segmentRun, part => '/' ∉ part
  | .one, part => ∃ c, part = [c] ∧ c ≠ '/'
  | .literal c, part => part = [c]

/-- The path read by the glob. -/
def Reads (pattern path : String) : Prop := Cuts Token.Takes (tokens pattern.toList) path.toList

/-! ## The translation -/

/-- The characters the translation escapes. -/
def escaped (c : Char) : Bool :=
  ['.', '+', '(', ')', '|', '[', ']', '\x7b', '\x7d', '^', '$', '\\'].contains c

def translate : List Char → List Char
  | '*' :: '*' :: '/' :: cs => '.' :: '*' :: translate cs
  | '*' :: '*' :: cs => '.' :: '*' :: translate cs
  | '*' :: cs => '[' :: '^' :: '/' :: ']' :: '*' :: translate cs
  | '?' :: cs => '[' :: '^' :: '/' :: ']' :: translate cs
  | c :: cs => (if escaped c then ['\\', c] else [c]) ++ translate cs
  | [] => []

def globRegex (pattern : String) : String :=
  String.ofList ('^' :: (translate pattern.toList ++ ['$']))

/-- `Regex::new`, with `is_match` of what it compiles; none where it answers an error. -/
abbrev RegexNew := String → Option (String → Bool)

/-- `glob_matches`. -/
def globMatches (new : RegexNew) (pattern path : String) : Bool :=
  ((new (globRegex pattern)).map fun isMatch => isMatch path).getD false

/-! ## The engine -/

/-- The expressions the translation writes one after the other. -/
inductive Atom where
  | anyStar
  | noSlashStar
  | noSlash
  | literal (c : Char)

/-- The characters the engine's syntax gives a meaning. -/
def meta_ (c : Char) : Bool := escaped c || c == '*' || c == '?'

def Atom.text : Atom → List Char
  | .anyStar => ['.', '*']
  | .noSlashStar => ['[', '^', '/', ']', '*']
  | .noSlash => ['[', '^', '/', ']']
  | .literal c => if meta_ c then ['\\', c] else [c]

/-- What each of them matches: a dot any character but a line break, a negated class any character
but its own. -/
def Atom.Takes : Atom → List Char → Prop
  | .anyStar, part => '\n' ∉ part
  | .noSlashStar, part => '/' ∉ part
  | .noSlash, part => ∃ c, part = [c] ∧ c ≠ '/'
  | .literal c, part => part = [c]

def anchored (atoms : List Atom) : String :=
  String.ofList ('^' :: (atoms.flatMap Atom.text ++ ['$']))

/-- An expression the engine compiles (it refuses one past its size limit) matches, anchored at both
ends, the texts that are cut in parts its atoms match. -/
def Documented (new : RegexNew) : Prop :=
  ∀ (atoms : List Atom) (isMatch : String → Bool), new (anchored atoms) = some isMatch →
    ∀ text : String, isMatch text = true ↔ Cuts Atom.Takes atoms text.toList

/-! ## Agreement -/

/-- The expression a token is translated to. -/
def Token.atom : Token → Atom
  | .anyRun => .anyStar
  | .segmentRun => .noSlashStar
  | .one => .noSlash
  | .literal c => .literal c

theorem translate_eq (cs : List Char) :
    translate cs = ((tokens cs).map Token.atom).flatMap Atom.text := by
  induction cs using tokens.induct with
  | case1 cs ih => simp [translate, tokens, ih, Token.atom, Atom.text]
  | case2 cs hslash ih =>
    rw [tokens.eq_2 cs hslash, translate.eq_2 cs hslash, ih]
    simp [Token.atom, Atom.text]
  | case3 cs hstar₁ hstar₂ ih =>
    rw [tokens.eq_3 cs hstar₁ hstar₂, translate.eq_3 cs hstar₁ hstar₂, ih]
    simp [Token.atom, Atom.text]
  | case4 cs ih => simp [translate, tokens, ih, Token.atom, Atom.text]
  | case5 c cs h₁ h₂ hstar hone ih =>
    rw [tokens.eq_5 c cs h₁ h₂ hstar hone, translate.eq_5 c cs h₁ h₂ hstar hone, ih]
    have hstar' : (c == '*') = false := beq_eq_false_iff_ne.2 hstar
    have hone' : (c == '?') = false := beq_eq_false_iff_ne.2 hone
    have hmeta : meta_ c = escaped c := by
      rw [meta_, hstar', hone', Bool.or_false, Bool.or_false]
    simp [Token.atom, Atom.text, hmeta]
  | case6 => rfl

theorem globRegex_eq (pattern : String) :
    globRegex pattern = anchored ((tokens pattern.toList).map Token.atom) := by
  rw [globRegex, anchored, translate_eq]

/-- A token takes a part, and a `**` one without a line break. -/
def Token.TakesUnbroken (t : Token) (part : List Char) : Prop :=
  t.Takes part ∧ (t = .anyRun → '\n' ∉ part)

theorem Token.atom_takes (t : Token) (part : List Char) :
    t.atom.Takes part ↔ t.TakesUnbroken part := by
  unfold TakesUnbroken
  cases t with
  | anyRun => exact ⟨fun h => ⟨True.intro, fun _ => h⟩, fun h => h.2 rfl⟩
  | segmentRun => simp [atom, Atom.Takes, Takes]
  | one => simp [atom, Atom.Takes, Takes]
  | literal c => simp [atom, Atom.Takes, Takes]

/-- The path read by the glob with no line break under a `**`. -/
def ReadsUnbroken (pattern path : String) : Prop :=
  Cuts Token.TakesUnbroken (tokens pattern.toList) path.toList

variable {pattern path : String}

theorem ReadsUnbroken.reads (h : ReadsUnbroken pattern path) :
    Reads pattern path := Cuts.mono (fun _ _ ht => ht.1) h

theorem Reads.unbroken (hpath : '\n' ∉ path.toList) (h : Reads pattern path) :
    ReadsUnbroken pattern path := by
  have hcuts : ∀ (ts : List Token) (parts : List (List Char)), '\n' ∉ parts.flatten →
      List.Forall₂ Token.Takes ts parts → List.Forall₂ Token.TakesUnbroken ts parts := by
    intro ts parts hfree hparts
    induction hparts with
    | nil => exact .nil
    | @cons t part ts parts ht _ ih =>
      rw [List.flatten_cons, List.mem_append, not_or] at hfree
      exact .cons ⟨ht, fun _ => hfree.1⟩ (ih hfree.2)
  obtain ⟨parts, hl, hparts⟩ := h
  exact ⟨parts, hl, hcuts _ parts (hl ▸ hpath) hparts⟩

theorem globMatches_eq_true_iff {new : RegexNew} (hnew : Documented new) (pattern path : String) :
    globMatches new pattern path = true ↔
      (new (globRegex pattern)).isSome = true ∧ ReadsUnbroken pattern path := by
  unfold globMatches
  cases hcompiled : new (globRegex pattern) with
  | none => simp
  | some isMatch =>
    have hmatch := hnew _ isMatch (globRegex_eq pattern ▸ hcompiled) path
    have hcuts : Cuts Atom.Takes ((tokens pattern.toList).map Token.atom) path.toList ↔
        ReadsUnbroken pattern path := by
      have hsame : (fun t : Token => t.atom.Takes) = Token.TakesUnbroken :=
        funext fun t => funext fun part => propext (t.atom_takes part)
      rw [cuts_map, ReadsUnbroken, hsame]
    simp only [Option.map_some, Option.getD_some, Option.isSome_some, true_and]
    exact hmatch.trans hcuts

/-- The code reads a glob as its reference does just where the engine compiles the translation and
the path, where the glob reads it at all, is read with no line break under a `**`. -/
theorem globMatches_iff (new : RegexNew) (hnew : Documented new) (pattern path : String) :
    (globMatches new pattern path = true ↔ Reads pattern path) ↔
      (Reads pattern path →
        (new (globRegex pattern)).isSome = true ∧ ReadsUnbroken pattern path) := by
  rw [globMatches_eq_true_iff hnew]
  constructor
  · exact fun h => h.2
  · exact fun h => ⟨fun hm => hm.2.reads, h⟩

/-! ## An engine -/

/-- The expressions of a text the translation writes. -/
def atomsOf : List Char → List Atom
  | '\\' :: c :: cs => .literal c :: atomsOf cs
  | '.' :: '*' :: cs => .anyStar :: atomsOf cs
  | '[' :: '^' :: '/' :: ']' :: '*' :: cs => .noSlashStar :: atomsOf cs
  | '[' :: '^' :: '/' :: ']' :: cs => .noSlash :: atomsOf cs
  | c :: cs => .literal c :: atomsOf cs
  | [] => []

theorem Atom.text_literal (c : Char) :
    (Atom.literal c).text = if meta_ c then ['\\', c] else [c] := rfl

theorem text_ne_star (atoms : List Atom) (cs : List Char) :
    atoms.flatMap Atom.text ≠ '*' :: cs := by
  cases atoms with
  | nil => exact (List.cons_ne_nil _ _).symm
  | cons atom atoms =>
    rw [List.flatMap_cons]
    cases atom with
    | anyStar => simp [Atom.text]
    | noSlashStar => simp [Atom.text]
    | noSlash => simp [Atom.text]
    | literal c =>
      rw [Atom.text_literal]
      split
      · simp
      · rename_i hc
        rintro h
        cases h
        exact hc (by decide)

theorem atomsOf_text (atoms : List Atom) : atomsOf (atoms.flatMap Atom.text) = atoms := by
  induction atoms with
  | nil => rfl
  | cons atom atoms ih =>
    rw [List.flatMap_cons]
    cases atom with
    | anyStar => simp [Atom.text, atomsOf, ih]
    | noSlashStar => simp [Atom.text, atomsOf, ih]
    | noSlash =>
      show atomsOf ('[' :: '^' :: '/' :: ']' :: atoms.flatMap Atom.text) = _
      rw [atomsOf.eq_4 _ (text_ne_star atoms), ih]
    | literal c =>
      rw [Atom.text_literal]
      split
      · simp [atomsOf, ih]
      · rename_i hc
        have hplain : ∀ d, meta_ d = true → c ≠ d := by
          rintro d hd rfl
          exact hc hd
        show atomsOf (c :: atoms.flatMap Atom.text) = _
        rw [atomsOf.eq_5 _ _ (fun _ _ h _ => hplain _ (by decide) h)
          (fun _ h _ => hplain _ (by decide) h) (fun _ h _ => hplain _ (by decide) h)
          (fun _ h _ => hplain _ (by decide) h), ih]

open Classical in
/-- An engine as documented: what is between the anchors, read back as the expressions it writes. -/
noncomputable def documentedEngine : RegexNew := fun regex =>
  some fun text => decide (Cuts Atom.Takes (atomsOf (regex.toList.drop 1).dropLast) text.toList)

theorem documentedEngine_documented : Documented documentedEngine := by
  intro atoms isMatch hcompiled text
  cases hcompiled
  have hbetween : atomsOf ((anchored atoms).toList.drop 1).dropLast = atoms := by
    simp [anchored, atomsOf_text]
  rw [hbetween]
  exact @decide_eq_true_iff _ (Classical.propDecidable _)

/-- A path with a line break: its glob is `**`, which reads it, and the code does not. -/
theorem globMatches_lineBreak :
    ¬(globMatches documentedEngine "**" "a\nb" = true ↔ Reads "**" "a\nb") := by
  have htokens : tokens "**".toList = [.anyRun] := by decide
  have hreads : Reads "**" "a\nb" := by
    rw [Reads, htokens]
    exact ⟨["a\nb".toList], by simp, .cons True.intro .nil⟩
  have hbroken : ¬ReadsUnbroken "**" "a\nb" := by
    rw [ReadsUnbroken, htokens]
    rintro ⟨parts, hl, hparts⟩
    cases hparts with
    | cons ht hrest =>
      cases hrest
      refine ht.2 rfl ?_
      rw [List.flatten_cons, List.flatten_nil, List.append_nil] at hl
      rw [hl]
      decide
  intro h
  exact hbroken ((globMatches_eq_true_iff documentedEngine_documented _ _).1 (h.2 hreads)).2

/-- Below a directory, over a path without a line break. -/
theorem globMatches_below :
    globMatches documentedEngine "src/**" "src/a.rs" = true ↔ Reads "src/**" "src/a.rs" :=
  (globMatches_iff documentedEngine documentedEngine_documented "src/**" "src/a.rs").2 fun h =>
    ⟨rfl, h.unbroken (by decide)⟩

end Rigger.Review
