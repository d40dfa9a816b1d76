import Mathlib.Data.List.DropRight
import Rigger.Conductor.Served
import Rigger.Grounder.RankedPage
import Rigger.Lib.Pieces

/-!
# Code terms (`rigger-grounder/src/grounder/symbols/grounder.rs`, `code_terms`)

What a criterion names as code, and nothing of its prose: the paths and the symbols of its code
spans and of its words that are shaped like identifiers.  A term read from a criterion is the term
of a criterion of its own (`codeTerms_quoted`).
-/

namespace Rigger.Grounder

open Lib
open Conductor (isWhite words)
open Conductor.Proposed (inWord words_eq)

/-- Unicode's letters by their case, too. -/
structure Letters extends Alphabet where
  isLowercase : Char → Bool
  isUppercase : Char → Bool
  lowercase_ne_empty : ∀ s, s ≠ "" → lowercase s ≠ ""

/-- A symbol as it is written and the name an index holds it under. -/
structure CodeTerms.Named where
  text : String
  name : String
deriving DecidableEq

structure CodeTerms where
  names : List CodeTerms.Named
  paths : List String
deriving DecidableEq

def keywords : List String := ["fn", "pub", "mut", "self", "let", "use", "mod", "impl"]

def fileExtensions : List String :=
  ["rs", "md", "toml", "yml", "yaml", "json", "sh", "py", "ts", "js", "txt", "lock", "html", "css",
    "db"]

/-! ## Pieces -/

/-- What stands outside the groups, `depth` of them open. -/
def stripFrom : ℕ → List Char → List Char
  | _, [] => []
  | depth, c :: cs =>
    if c = '<' ∨ c = '(' then stripFrom (depth + 1) cs
    else if (c = '>' ∨ c = ')') ∧ 0 < depth then stripFrom (depth - 1) cs
    else if depth = 0 then c :: stripFrom depth cs
    else stripFrom depth cs

def stripGroups (text : String) : String := String.ofList (stripFrom 0 text.toList)

def surrounding (c : Char) : Bool :=
  [',', ';', ':', '!', '?', '&', '*', '"', '\'', '(', ')', '[', ']'].contains c

def cleanPiece (piece : String) : String :=
  String.ofList ((trimMatches surrounding piece.toList).rdropWhile (· == '.'))

def isPath (term : String) : Bool :=
  term.toList.contains '/' || term.toList.head? == some '.' ||
    (rsplitOnce '.' term).any fun cut => cut.1 != "" && fileExtensions.contains cut.2

def pathLeaf (path : String) : String :=
  let tail := ((rsplitAround [':', ':'] path.toList).map Prod.snd).getD path.toList
  String.ofList (((rsplitOnceList '.' tail).map Prod.snd).getD tail)

section
variable (x : Letters)

def meaningful (piece : String) : Bool :=
  decide (2 ≤ piece.toList.length) && piece.toList.any x.alphanumeric

def identifierShaped (token : String) : Bool :=
  token.toList.contains '_' || holdsText token "::" ||
    (token.toList.any x.isLowercase && (token.toList.drop 1).any x.isUppercase)

/-- Names joined by `::` and `.`. -/
def isSymbol (piece : String) : Bool :=
  ((pieces ':' [':'] piece.toList).flatMap fun s => s.splitOn '.').all fun s =>
    !s.isEmpty && s.all fun c => x.alphanumeric c || c == '_'

namespace CodeTerms

def empty : CodeTerms := ⟨[], []⟩

def isEmpty (terms : CodeTerms) : Bool := terms.names.isEmpty && terms.paths.isEmpty

def addPiece (terms : CodeTerms) (piece : String) : CodeTerms :=
  if !meaningful x piece || keywords.contains piece then terms
  else if isPath piece then
    if terms.paths.contains piece then terms else { terms with paths := terms.paths ++ [piece] }
  else if isSymbol x piece && !terms.names.any fun n => n.text == piece then
    { terms with names := terms.names ++ [⟨piece, pathLeaf piece⟩] }
  else terms

/-- A span names code where one piece of it is left. -/
def addSpan (terms : CodeTerms) (span : String) : CodeTerms :=
  match ((words (stripGroups span)).map cleanPiece).filter
    fun piece => meaningful x piece && !keywords.contains piece with
  | [one] => terms.addPiece x one
  | _ => terms

def addWord (terms : CodeTerms) (word : String) : CodeTerms :=
  let piece := cleanPiece (stripGroups word)
  if identifierShaped x piece then terms.addPiece x piece else terms

/-- The parts between backticks are spans where their number is odd. -/
def addPart (terms : CodeTerms) (part : String × ℕ) : CodeTerms :=
  if part.2 % 2 = 1 then terms.addSpan x part.1 else (words part.1).foldl (addWord x) terms

end CodeTerms

def codeTerms (query : String) : CodeTerms :=
  (((query.toList.splitOn '`').map String.ofList).zipIdx).foldl (CodeTerms.addPart x) .empty

end

/-! ## What a term is -/

/-- What a piece is once it is cut and cleaned. -/
structure Piece (s : List Char) : Prop where
  untick : '`' ∉ s
  unwhite : ∀ c ∈ s, isWhite c = false
  unopened : ∀ c ∈ s, c ≠ '<' ∧ c ≠ '('
  head : ∀ c ∈ s.head?, surrounding c = false
  last : ∀ c ∈ s.getLast?, c ≠ '.'

variable {cs : List Char}

theorem mem_stripFrom {depth : ℕ} {c : Char} (h : c ∈ stripFrom depth cs) :
    c ∈ cs ∧ c ≠ '<' ∧ c ≠ '(' := by
  induction cs generalizing depth with
  | nil => cases h
  | cons d cs ih =>
    have htail : ∀ {depth}, c ∈ stripFrom depth cs → c ∈ d :: cs ∧ c ≠ '<' ∧ c ≠ '(' :=
      fun h => (ih h).imp_left (List.mem_cons_of_mem d)
    unfold stripFrom at h
    split at h
    · exact htail h
    · next hopen =>
      split at h
      · exact htail h
      · split at h
        · rcases List.mem_cons.1 h with rfl | h
          · exact ⟨List.mem_cons_self, not_or.1 hopen⟩
          · exact htail h
        · exact htail h

theorem stripFrom_zero (h : ∀ c ∈ cs, c ≠ '<' ∧ c ≠ '(') : stripFrom 0 cs = cs := by
  induction cs with
  | nil => rfl
  | cons c cs ih =>
    obtain ⟨hangle, hround⟩ := h c List.mem_cons_self
    rw [stripFrom, if_neg (not_or.2 ⟨hangle, hround⟩), if_neg fun hclose =>
      Nat.lt_irrefl 0 hclose.2,
      if_pos rfl, ih fun d hd => h d (List.mem_cons_of_mem c hd)]

theorem trimMatches_isInfix (p : Char → Bool) (l : List Char) : trimMatches p l <:+: l := by
  obtain ⟨pre, post, heq, -⟩ := trimMatches_eq p l
  exact ⟨pre, post, heq.symm⟩

theorem piece_cleanPiece {piece : String} (htick : '`' ∉ piece.toList)
    (hwhite : ∀ c ∈ piece.toList, isWhite c = false)
    (hopen : ∀ c ∈ piece.toList, c ≠ '<' ∧ c ≠ '(') : Piece (cleanPiece piece).toList := by
  have hleading := List.rdropWhile_prefix (· == '.') (trimMatches surrounding piece.toList)
  have hsub : ∀ c ∈ (cleanPiece piece).toList, c ∈ piece.toList := by
    intro c hc
    rw [cleanPiece, String.toList_ofList] at hc
    exact (trimMatches_isInfix _ _).subset (hleading.subset hc)
  refine ⟨fun h => htick (hsub _ h), fun c hc => hwhite c (hsub c hc),
    fun c hc => hopen c (hsub c hc), fun c hc => ?_, fun c hc => ?_⟩
  · rw [cleanPiece, String.toList_ofList] at hc
    obtain ⟨rest, hrest⟩ := hleading
    refine head?_trimMatches (p := surrounding) (l := piece.toList) ?_
    rw [← hrest, List.head?_append, hc]
    rfl
  · rw [cleanPiece, String.toList_ofList] at hc
    obtain ⟨hne, hlast⟩ := List.mem_getLast?_eq_getLast hc
    rintro rfl
    have hnot := List.rdropWhile_last_not (· == '.') (trimMatches surrounding piece.toList) hne
    rw [← hlast] at hnot
    exact hnot rfl

theorem cleanPiece_point {piece : String} (h : Piece piece.toList) (hne : piece ≠ "") :
    cleanPiece (piece ++ ".") = piece := by
  have hnot : trimMatches surrounding (piece.toList ++ ['.']) = piece.toList ++ ['.'] := by
    obtain ⟨c, cs, hcs⟩ := List.exists_cons_of_ne_nil (l := piece.toList) (by simpa using hne)
    have hc : surrounding c = false := h.head c (by rw [hcs]; rfl)
    rw [trimMatches, hcs, List.cons_append, List.dropWhile_cons_of_neg (by simp [hc]),
      ← List.cons_append, List.reverse_append, List.reverse_singleton, List.singleton_append,
      List.dropWhile_cons_of_neg (by decide), List.reverse_cons, List.reverse_reverse]
  rw [cleanPiece, String.toList_append, show ".".toList = ['.'] from rfl, hnot,
    List.rdropWhile_concat_pos _ _ _ rfl]
  rw [List.rdropWhile_eq_self_iff.2, String.ofList_toList]
  intro hne'
  have hlast := h.last _ (List.getLast_mem_getLast? hne')
  simpa using hlast

/-! ## The terms of a criterion -/

section
variable {x : Letters}

/-- A piece that is no noise, kept for a path or else for a symbol. -/
structure IsTerm (x : Letters) (ofPath : Bool) (t : String) : Prop where
  piece : Piece t.toList
  meaningful : meaningful x t = true
  unreserved : keywords.contains t = false
  path : isPath t = ofPath
  symbol : ofPath = false → isSymbol x t = true

variable {ofPath : Bool}

theorem IsTerm.ne_empty {t : String} (h : IsTerm x ofPath t) : t ≠ "" := by
  rintro rfl
  exact absurd h.meaningful (by simp [Grounder.meaningful])

namespace CodeTerms

structure Valid (x : Letters) (terms : CodeTerms) : Prop where
  paths : ∀ t ∈ terms.paths, IsTerm x true t
  names : ∀ n ∈ terms.names, IsTerm x false n.text ∧ n.name = pathLeaf n.text
  once : terms.paths.Nodup

theorem valid_empty : Valid x empty := ⟨by simp [empty], by simp [empty], List.nodup_nil⟩

variable {terms : CodeTerms}

theorem valid_addPiece (h : Valid x terms) {piece : String} (hpiece : Piece piece.toList) :
    Valid x (terms.addPiece x piece) := by
  unfold addPiece
  split
  · exact h
  · next hkept =>
    rw [Bool.or_eq_true, not_or, Bool.not_eq_true', Bool.not_eq_false, Bool.not_eq_true] at hkept
    split
    · next hpath =>
      split
      · exact h
      · next hnew =>
        have hnew : piece ∉ terms.paths := fun hmem => hnew (List.contains_iff_mem.2 hmem)
        refine ⟨fun t ht => ?_, h.names, ?_⟩
        · rcases List.mem_append.1 ht with ht | ht
          · exact h.paths t ht
          · cases List.mem_singleton.1 ht
            exact ⟨hpiece, hkept.1, hkept.2, hpath, fun hf => by cases hf⟩
        · rw [List.nodup_append_comm]
          exact List.nodup_cons.2 ⟨hnew, h.once⟩
    · next hpath =>
      split
      · next hsymbol =>
        refine ⟨h.paths, fun n hn => ?_, h.once⟩
        rcases List.mem_append.1 hn with hn | hn
        · exact h.names n hn
        · cases List.mem_singleton.1 hn
          rw [Bool.and_eq_true] at hsymbol
          exact ⟨⟨hpiece, hkept.1, hkept.2, Bool.eq_false_iff.2 hpath, fun _ => hsymbol.1⟩, rfl⟩
      · exact h

end CodeTerms

theorem mem_of_mem_words {text word : String} (hword : word ∈ words text) {c : Char}
    (hc : c ∈ word.toList) : c ∈ text.toList ∧ isWhite c = false := by
  rw [words_eq] at hword
  obtain ⟨w, hw, rfl⟩ := List.mem_map.1 hword
  rw [String.toList_ofList] at hc
  refine ⟨subset_of_mem_wordsOf hw hc, ?_⟩
  simpa [inWord] using (mem_wordsOf hw).2 c hc

theorem mem_stripGroups {text : String} {c : Char} (hc : c ∈ (stripGroups text).toList) :
    c ∈ text.toList ∧ c ≠ '<' ∧ c ≠ '(' := by
  rw [stripGroups, String.toList_ofList] at hc
  exact mem_stripFrom hc

namespace CodeTerms

variable {terms : CodeTerms}

theorem valid_addSpan (h : Valid x terms) {span : String} (htick : '`' ∉ span.toList) :
    Valid x (terms.addSpan x span) := by
  unfold addSpan
  split
  · next one hone =>
    have hmem : one ∈ (words (stripGroups span)).map cleanPiece :=
      (List.mem_filter.1 (hone ▸ List.mem_singleton_self one)).1
    obtain ⟨word, hword, rfl⟩ := List.mem_map.1 hmem
    have hchar := fun c hc => mem_of_mem_words (c := c) hword hc
    exact valid_addPiece h (piece_cleanPiece (fun hc => htick (mem_stripGroups (hchar _ hc).1).1)
      (fun c hc => (hchar c hc).2) fun c hc => (mem_stripGroups (hchar c hc).1).2)
  · exact h

theorem valid_addWord (h : Valid x terms) {text word : String} (htick : '`' ∉ text.toList)
    (hword : word ∈ words text) : Valid x (terms.addWord x word) := by
  have hchar := fun c hc => mem_of_mem_words (c := c) hword (mem_stripGroups hc).1
  unfold addWord
  dsimp only
  split
  · exact valid_addPiece h (piece_cleanPiece (fun hc => htick (hchar _ hc).1)
      (fun c hc => (hchar c hc).2) fun c hc => (mem_stripGroups hc).2)
  · exact h

theorem valid_addPart (h : Valid x terms) {part : String × ℕ} (htick : '`' ∉ part.1.toList) :
    Valid x (terms.addPart x part) := by
  unfold addPart
  split
  · exact valid_addSpan h htick
  · exact List.foldlRecOn (words part.1) (addWord x) h fun terms h word hword =>
      valid_addWord h htick hword

end CodeTerms

theorem codeTerms_valid (x : Letters) (query : String) : (codeTerms x query).Valid x := by
  unfold codeTerms
  refine List.foldlRecOn _ (CodeTerms.addPart x) CodeTerms.valid_empty fun terms h part hpart => ?_
  obtain ⟨p, hp, hpart⟩ := List.mem_map.1 (List.fst_mem_of_mem_zipIdx hpart)
  refine CodeTerms.valid_addPart h ?_
  rw [← hpart, String.toList_ofList]
  exact not_mem_of_mem_splitOn hp

/-! ## A criterion of one term -/

namespace CodeTerms

theorem addPart_empty (terms : CodeTerms) (number : ℕ) : terms.addPart x ("", number) = terms := by
  have hwords : words "" = [] := by rw [words_eq]; rfl
  unfold addPart addSpan
  rw [show stripGroups "" = "" from rfl, hwords]
  split <;> rfl

variable {ofPath : Bool}

theorem addPiece_empty {t : String} (h : IsTerm x ofPath t) :
    empty.addPiece x t = if ofPath then ⟨[], [t]⟩ else ⟨[⟨t, pathLeaf t⟩], []⟩ := by
  rw [addPiece, h.meaningful, h.unreserved, h.path]
  cases ofPath with
  | true => rfl
  | false =>
    rw [h.symbol rfl]
    rfl

theorem addSpan_point {t : String} (h : IsTerm x ofPath t) :
    empty.addSpan x (t ++ ".") = if ofPath then ⟨[], [t]⟩ else ⟨[⟨t, pathLeaf t⟩], []⟩ := by
  have hstrip : stripGroups (t ++ ".") = t ++ "." := by
    rw [stripGroups, stripFrom_zero, String.ofList_toList]
    intro c hc
    rw [String.toList_append, List.mem_append] at hc
    rcases hc with hc | hc
    · exact h.piece.unopened c hc
    · cases List.mem_singleton.1 hc
      decide
  have hwords : words (t ++ ".") = [t ++ "."] := by
    rw [words_eq, Conductor.Proposed.wordsIn, wordsOf_word, List.map_singleton,
      String.ofList_toList]
    · intro c hc
      rw [String.toList_append, List.mem_append] at hc
      rcases hc with hc | hc
      · rw [inWord, h.piece.unwhite c hc]
        rfl
      · cases List.mem_singleton.1 hc
        decide
    · simp
  unfold addSpan
  rw [hstrip, hwords, List.map_singleton, cleanPiece_point h.piece h.ne_empty,
    List.filter_cons_of_pos (by rw [h.meaningful, h.unreserved]; rfl), List.filter_nil]
  exact addPiece_empty h

end CodeTerms

/-- The term in a code span, a point after it. -/
def quoted (t : String) : String := "`" ++ t ++ ".`"

theorem codeTerms_quoted {t : String} (h : IsTerm x ofPath t) :
    codeTerms x (quoted t) = if ofPath then ⟨[], [t]⟩ else ⟨[⟨t, pathLeaf t⟩], []⟩ := by
  have htick : '`' ∉ t.toList ++ ['.'] := by
    rw [List.mem_append, not_or]
    exact ⟨h.piece.untick, by decide⟩
  have hparts : (quoted t).toList.splitOn '`' = [[], t.toList ++ ['.'], []] := by
    have hlist : (quoted t).toList = [] ++ '`' :: ((t.toList ++ ['.']) ++ '`' :: []) := by
      simp [quoted]
    rw [hlist, List.splitOn_append_cons_self, List.splitOn_append_cons_self,
      List.splitOn_eq_singleton htick, List.splitOn_nil]
    rfl
  have hspan : String.ofList (t.toList ++ ['.']) = t ++ "." := by
    rw [← String.toList_inj]
    simp
  rw [codeTerms, hparts]
  simp only [List.map_cons, List.map_nil, hspan, String.ofList_nil, List.zipIdx_cons,
    List.zipIdx_nil,
    List.foldl_cons, List.foldl_nil]
  have hodd : (0 + 1) % 2 = 1 := rfl
  rw [CodeTerms.addPart_empty, CodeTerms.addPart_empty, CodeTerms.addPart, if_pos hodd,
    CodeTerms.addSpan_point h]

end

end Rigger.Grounder
