import Rigger.Domain.Review
import Rigger.Grounder.CodeTerms
import Rigger.Lib.LogicalPath
import Rigger.Lib.Occurrence
import Rigger.Lib.Supersede

/-!
# The blast radius (`rigger-grounder/src/grounder/symbols/grounder.rs`, `blast_radius`;
`rigger-grounder/src/grounder/mod.rs`, `ground_identifier`)

The files a criterion may touch: those its terms name or define, those that call what it names, and
those that hold the text of a name nothing defines.  The safe view is what its terms bring in one by
one (`mem_safe`), so criteria overlap where a term of each brings in the same file.

A path that is not spelled by its file's names brings itself in as it stands, which no other
spelling of the file does (`Denotes.eq_of_byPath`), and the text search passes over an occurrence
that a match before it overlaps (`lineMatches_iff`).  `blastRadius_overlaps_iff` says where these
keep two views apart.
-/

namespace Rigger.Grounder

open Lib
open Conductor (trim)

/-- What grounding reads of a project: its index, the files of its tree by their names from the
root, and the files the walk of the text search visits and can read, in its order. -/
structure Project where
  index : IndexedFiles
  holds : String → Bool
  searched : List (String × String)
  indexed_clean : ∀ path fs, index[path]? = some fs → CleanPath path
  searched_clean : ∀ f ∈ searched, CleanPath f.1
  /-- The lines of a tree are fewer than a `usize` counts. -/
  fits : (searched.map fun f => (Review.lines f.2).length).sum < 2 ^ 64 - 1

/-! ## The text search (`Grep`) -/

/-- `[A-Za-z0-9_]`. -/
def isWord (c : Char) : Bool := c.isAlphanum || c == '_'

/-- What may follow a needle: anything where it is a prefix. -/
def endsWhole (needle after : List Char) : Bool :=
  needle.getLast? == some '_' || after.head?.all fun c => !isWord c

def lineMatches (line needle : List Char) (bounded : Bool) : Bool :=
  if bounded then scanFinds isWord (endsWhole needle) needle line
  else (splitAround needle line).isSome

section
variable (x : Letters) (P : Project)

def searchFile (needle : List Char) (bounded : Bool) (file : String × String) : List Ref :=
  ((Review.lines file.2).zipIdx 1).filterMap fun line =>
    if lineMatches (x.lowercase line.1).toList needle bounded then
      some ⟨file.1, line.2 % 2 ^ 32, trim line.1⟩
    else none

def search (query : String) (k : ℕ) (bounded : Bool) : List Ref :=
  if query.isEmpty || k == 0 then []
  else (P.searched.flatMap (searchFile x (x.lowercase query).toList bounded)).take k

def groundIdentifier (term : String) (k : ℕ) : List Ref := search x P term k true

end

def textSearchSkips : List String := ["specs/", "docs/audit/"]

def skipped (file : String) : Bool := textSearchSkips.any fun skip => (stripPrefix skip file).isSome

/-! ## The views -/

structure BlastRadius where
  precise : List String
  safe : List String
deriving DecidableEq

section
variable (x : Letters) (P : Project) (terms : CodeTerms)

/-- A path term is the path or ends it. -/
def namesPath (t path : String) : Bool := path == t || endsWith path ("/" ++ t)

def definesName (fs : FileSymbols) (name : String) : Bool := fs.defs.any fun d => d.name == name

def callsName (fs : FileSymbols) (name : String) : Bool := fs.calls.any fun r => r.name == name

namespace CodeTerms

def definers : List String :=
  (P.index.toList.filter fun f =>
    terms.paths.any (namesPath · f.1) || terms.names.any fun n =>
      definesName f.2 n.name).map Prod.fst

def referencers : List String :=
  (P.index.toList.filter fun f => terms.names.any fun n => callsName f.2 n.name).map Prod.fst

end CodeTerms

def foundPath (t : String) : Bool := P.index.toList.any fun f => namesPath t f.1

def definedName (name : String) : Bool := P.index.toList.any fun f => definesName f.2 name

/-- `is_file` of a relative path under the root, which goes nowhere up. -/
def Project.isFile (t : String) : Bool := (placed t).any P.holds

def isAbsolute (t : String) : Bool := t.toList.head? == some '/'

namespace CodeTerms

/-- The paths that are no indexed file's, and are files of the tree. -/
def unindexed : List String :=
  terms.paths.filter fun t =>
    !foundPath P t && !isAbsolute t && !(segments t).contains ".." && P.isFile t

def allDefiners : List String := terms.definers P ++ terms.unindexed P

def structural : List String :=
  terms.allDefiners P ++ (terms.referencers P).filter fun f => !(terms.allDefiners P).contains f

def textHits : List Ref :=
  (terms.names.filter fun n => !definedName P n.name).flatMap fun n =>
    groundIdentifier x P n.text (2 ^ 64 - 1)

def grepTail : List String :=
  (firstsFrom id (terms.structural P)
    (((terms.textHits x P).filter fun r => !skipped r.file).map Ref.file)).mergeSort
      fun a b => decide (a ≤ b)

end CodeTerms

def blastRadius (query : String) (k : ℕ) : BlastRadius :=
  let terms := codeTerms x query
  if terms.isEmpty then ⟨[], []⟩
  else ⟨(terms.structural P).take k, terms.structural P ++ terms.grepTail x P⟩

end

/-! ## What a view holds -/

namespace Project

variable (P : Project)

def Indexed (file : String) : Prop := ∃ fs, P.index[file]? = some fs

def Defines (name file : String) : Prop :=
  ∃ fs, P.index[file]? = some fs ∧ ∃ d ∈ fs.defs, d.name = name

def Calls (name file : String) : Prop :=
  ∃ fs, P.index[file]? = some fs ∧ ∃ r ∈ fs.calls, r.name = name

def Defined (name : String) : Prop := ∃ file, P.Defines name file

/-- From the root of the tree a path stands for a file of it. -/
def Denotes (t file : String) : Prop :=
  isAbsolute t = false ∧ ".." ∉ segments t ∧ placed t = some file ∧ P.holds file = true

/-- A searched file has a line for which `test` holds. -/
def HasLine (test : String → Prop) (file : String) : Prop :=
  ∃ content, (file, content) ∈ P.searched ∧ ∃ line ∈ Review.lines content, test line

/-- A searched file has a line that the search meets the text in. -/
def Finds (x : Letters) (text file : String) : Prop :=
  P.HasLine (fun line =>
    lineMatches (x.lowercase line).toList (x.lowercase text).toList true = true) file

/-- A searched file has a line that holds the text as a whole identifier. -/
def HoldsWhole (x : Letters) (text file : String) : Prop :=
  P.HasLine (fun line => Stands isWord (endsWhole (x.lowercase text).toList)
    (x.lowercase text).toList (x.lowercase line).toList) file

end Project

section
variable {P : Project} {terms : CodeTerms}

theorem mem_toList_index {f : String × FileSymbols} :
    f ∈ P.index.toList ↔ P.index[f.1]? = some f.2 :=
  Std.ExtTreeMap.mem_toList_iff_getElem?_eq_some

theorem definedName_iff {name : String} : definedName P name = true ↔ P.Defined name := by
  rw [definedName, List.any_eq_true]
  constructor
  · rintro ⟨f, hf, hdefines⟩
    obtain ⟨d, hd, hname⟩ := List.any_eq_true.1 hdefines
    exact ⟨f.1, f.2, mem_toList_index.1 hf, d, hd, beq_iff_eq.1 hname⟩
  · rintro ⟨file, fs, hfs, d, hd, hname⟩
    exact ⟨(file, fs), mem_toList_index.2 hfs, List.any_eq_true.2 ⟨d, hd, beq_iff_eq.2 hname⟩⟩

theorem foundPath_iff {t : String} :
    foundPath P t = true ↔ ∃ path, P.Indexed path ∧ namesPath t path = true := by
  rw [foundPath, List.any_eq_true]
  constructor
  · rintro ⟨f, hf, hnames⟩
    exact ⟨f.1, ⟨f.2, mem_toList_index.1 hf⟩, hnames⟩
  · rintro ⟨path, ⟨fs, hfs⟩, hnames⟩
    exact ⟨(path, fs), mem_toList_index.2 hfs, hnames⟩

namespace CodeTerms

variable {file : String}

theorem mem_definers : file ∈ terms.definers P ↔
    (P.Indexed file ∧ ∃ t ∈ terms.paths, namesPath t file = true) ∨
      ∃ n ∈ terms.names, P.Defines n.name file := by
  rw [definers, List.mem_map]
  constructor
  · rintro ⟨f, hf, rfl⟩
    obtain ⟨hf, hterm⟩ := List.mem_filter.1 hf
    have hfs := mem_toList_index.1 hf
    rcases Bool.or_eq_true_iff.1 hterm with hpath | hname
    · exact .inl ⟨⟨f.2, hfs⟩, List.any_eq_true.1 hpath⟩
    · obtain ⟨n, hn, hdefines⟩ := List.any_eq_true.1 hname
      obtain ⟨d, hd, hname⟩ := List.any_eq_true.1 hdefines
      exact .inr ⟨n, hn, f.2, hfs, d, hd, beq_iff_eq.1 hname⟩
  · rintro (⟨⟨fs, hfs⟩, hpath⟩ | ⟨n, hn, fs, hfs, d, hd, hname⟩)
    · refine ⟨(file, fs), List.mem_filter.2 ⟨mem_toList_index.2 hfs, ?_⟩, rfl⟩
      exact Bool.or_eq_true_iff.2 (.inl (List.any_eq_true.2 hpath))
    · refine ⟨(file, fs), List.mem_filter.2 ⟨mem_toList_index.2 hfs, ?_⟩, rfl⟩
      refine Bool.or_eq_true_iff.2 (.inr (List.any_eq_true.2 ⟨n, hn, ?_⟩))
      exact List.any_eq_true.2 ⟨d, hd, beq_iff_eq.2 hname⟩

theorem mem_referencers : file ∈ terms.referencers P ↔ ∃ n ∈ terms.names, P.Calls n.name file := by
  rw [referencers, List.mem_map]
  constructor
  · rintro ⟨f, hf, rfl⟩
    obtain ⟨hf, hname⟩ := List.mem_filter.1 hf
    obtain ⟨n, hn, hcalls⟩ := List.any_eq_true.1 hname
    obtain ⟨r, hr, hname⟩ := List.any_eq_true.1 hcalls
    exact ⟨n, hn, f.2, mem_toList_index.1 hf, r, hr, beq_iff_eq.1 hname⟩
  · rintro ⟨n, hn, fs, hfs, r, hr, hname⟩
    refine ⟨(file, fs), List.mem_filter.2 ⟨mem_toList_index.2 hfs, ?_⟩, rfl⟩
    exact List.any_eq_true.2 ⟨n, hn, List.any_eq_true.2 ⟨r, hr, beq_iff_eq.2 hname⟩⟩

/-- A path no indexed file is named by. -/
theorem mem_unindexed {t : String} : t ∈ terms.unindexed P ↔ t ∈ terms.paths ∧
    (¬∃ path, P.Indexed path ∧ namesPath t path = true) ∧ ∃ file, P.Denotes t file := by
  rw [unindexed, List.mem_filter, ← foundPath_iff, Project.isFile]
  simp only [Bool.and_eq_true, Bool.not_eq_true', Option.any_eq_true, List.contains_eq_mem,
    decide_eq_false_iff_not, Project.Denotes, Bool.not_eq_true, exists_and_left, and_assoc]

theorem mem_structural :
    file ∈ terms.structural P ↔ file ∈ terms.allDefiners P ∨ file ∈ terms.referencers P := by
  rw [structural, List.mem_append, List.mem_filter]
  by_cases hdefiner : file ∈ terms.allDefiners P <;> simp [hdefiner]

end CodeTerms

/-! ## What the search finds -/

section
variable {x : Letters}

theorem searchFile_length (needle : List Char) (bounded : Bool) (f : String × String) :
    (searchFile x needle bounded f).length ≤ (Review.lines f.2).length := by
  refine (List.length_filterMap_le _ _).trans ?_
  rw [List.length_zipIdx]

variable {term file : String}

theorem groundIdentifier_eq (P : Project) (hterm : term ≠ "") :
    groundIdentifier x P term (2 ^ 64 - 1) =
      P.searched.flatMap (searchFile x (x.lowercase term).toList true) := by
  rw [groundIdentifier, search, if_neg (by simpa using hterm), List.take_of_length_le]
  refine le_trans ?_ P.fits.le
  rw [List.length_flatMap]
  exact List.sum_le_sum fun f _ => searchFile_length _ _ f

theorem mem_groundIdentifier (hterm : term ≠ "") :
    (∃ r ∈ groundIdentifier x P term (2 ^ 64 - 1), r.file = file) ↔ P.Finds x term file := by
  rw [groundIdentifier_eq P hterm]
  constructor
  · rintro ⟨r, hr, rfl⟩
    obtain ⟨f, hf, hr⟩ := List.mem_flatMap.1 hr
    obtain ⟨line, hline, hsome⟩ := List.mem_filterMap.1 hr
    split at hsome
    · next hmatches =>
      cases hsome
      exact ⟨f.2, hf, line.1, List.fst_mem_of_mem_zipIdx hline, hmatches⟩
    · cases hsome
  · rintro ⟨content, hf, line, hline, hmatches⟩
    obtain ⟨i, hi⟩ := List.mem_iff_getElem?.1 hline
    refine ⟨_, List.mem_flatMap.2 ⟨(file, content), hf, List.mem_filterMap.2
      ⟨(line, 1 + i), List.mk_add_mem_zipIdx_iff_getElem?.2 hi, if_pos hmatches⟩⟩, rfl⟩

theorem mem_grepTail (hvalid : terms.Valid x) : file ∈ terms.grepTail x P ↔
    (∃ n ∈ terms.names, ¬P.Defined n.name ∧ P.Finds x n.text file ∧ skipped file = false) ∧
      file ∉ terms.structural P := by
  have hmem : ∀ l, file ∈ (firstsFrom id (terms.structural P) l).map id ↔
      file ∈ l.map id ∧ file ∉ terms.structural P := fun _ => mem_map_firstsFrom
  simp only [List.map_id] at hmem
  rw [CodeTerms.grepTail, List.mem_mergeSort, hmem]
  refine and_congr_left fun _ => ?_
  rw [List.mem_map]
  constructor
  · rintro ⟨r, hr, rfl⟩
    obtain ⟨hr, hskip⟩ := List.mem_filter.1 hr
    obtain ⟨n, hn, hr⟩ := List.mem_flatMap.1 hr
    obtain ⟨hn, hundefined⟩ := List.mem_filter.1 hn
    rw [Bool.not_eq_true', ← Bool.not_eq_true, definedName_iff] at hundefined
    rw [Bool.not_eq_true'] at hskip
    exact ⟨n, hn, hundefined, (mem_groundIdentifier (hvalid.names n hn).1.ne_empty).1 ⟨r, hr, rfl⟩,
      hskip⟩
  · rintro ⟨n, hn, hundefined, hfinds, hskip⟩
    obtain ⟨r, hr, rfl⟩ := (mem_groundIdentifier (hvalid.names n hn).1.ne_empty).2 hfinds
    rw [← definedName_iff, Bool.not_eq_true, ← Bool.not_eq_true'] at hundefined
    rw [← Bool.not_eq_true'] at hskip
    exact ⟨r,
      List.mem_filter.2 ⟨List.mem_flatMap.2 ⟨n, List.mem_filter.2 ⟨hn, hundefined⟩, hr⟩, hskip⟩,
      rfl⟩

theorem grepTail_sorted (x : Letters) (P : Project) (terms : CodeTerms) :
    (terms.grepTail x P).Pairwise (· < ·) := by
  have hnodup : ((firstsFrom id (terms.structural P)
      (((terms.textHits x P).filter fun r => !skipped r.file).map Ref.file)).map id).Nodup :=
    nodup_map_firstsFrom _ _
  rw [List.map_id] at hnodup
  have hle := pairwise_mergeSort_key (id : String → String) (firstsFrom id (terms.structural P)
    (((terms.textHits x P).filter fun r => !skipped r.file).map Ref.file))
  exact (hle.and ((List.mergeSort_perm _ _).nodup_iff.2 hnodup)).imp fun h => lt_of_le_of_ne h.1 h.2

end

/-! ## The parts of a view -/

section
variable (x : Letters) (P : Project)

/-- What the views of the terms are made of. -/
structure Parts (terms : CodeTerms) (definers referencers hits : List String) : Prop where
  definer : ∀ file, file ∈ definers ↔
    ((P.Indexed file ∧ ∃ t ∈ terms.paths, namesPath t file = true) ∨
      ∃ n ∈ terms.names, P.Defines n.name file) ∨
    file ∈ terms.paths ∧ (¬∃ path, P.Indexed path ∧ namesPath file path = true) ∧
      ∃ held, P.Denotes file held
  referencer : ∀ file, file ∈ referencers ↔
    (∃ n ∈ terms.names, P.Calls n.name file) ∧ file ∉ definers
  hit : ∀ file, file ∈ hits ↔
    (∃ n ∈ terms.names, ¬P.Defined n.name ∧ P.Finds x n.text file ∧ skipped file = false) ∧
      file ∉ definers ++ referencers
  once : (definers ++ referencers ++ hits).Nodup
  sorted : hits.Pairwise (· < ·)

end

section
variable {x : Letters}

theorem nodup_indexed (P : Project) (p : String × FileSymbols → Bool) :
    ((P.index.toList.filter p).map Prod.fst).Nodup := by
  refine (List.Sublist.map Prod.fst List.filter_sublist).nodup ?_
  rw [Std.ExtTreeMap.map_fst_toList_eq_keys]
  exact Std.ExtTreeMap.nodup_keys

theorem CodeTerms.nodup_allDefiners (hvalid : terms.Valid x) : (terms.allDefiners P).Nodup := by
  refine (nodup_indexed P _).append (hvalid.once.filter _) fun file hdefiner hunindexed => ?_
  obtain ⟨hpath, hfree, -⟩ := CodeTerms.mem_unindexed.1 hunindexed
  obtain ⟨f, hf, rfl⟩ := List.mem_map.1 hdefiner
  refine hfree ⟨f.1, ⟨f.2, mem_toList_index.1 (List.mem_filter.1 hf).1⟩, ?_⟩
  simp [namesPath]

theorem parts_codeTerms (hvalid : terms.Valid x) : Parts x P terms (terms.allDefiners P)
    ((terms.referencers P).filter fun f => !(terms.allDefiners P).contains f)
    (terms.grepTail x P) where
  definer file := by
    rw [CodeTerms.allDefiners, List.mem_append, CodeTerms.mem_definers, CodeTerms.mem_unindexed]
  referencer file := by
    rw [List.mem_filter, CodeTerms.mem_referencers, Bool.not_eq_true', List.contains_eq_mem,
      decide_eq_false_iff_not]
  hit file := mem_grepTail hvalid
  once := by
    have hstructural : (terms.structural P).Nodup := by
      refine (CodeTerms.nodup_allDefiners hvalid).append ((nodup_indexed P _).filter _) ?_
      intro file hdefiner hother
      have hnot := (List.mem_filter.1 hother).2
      rw [Bool.not_eq_true', List.contains_eq_mem, decide_eq_false_iff_not] at hnot
      exact hnot hdefiner
    refine hstructural.append ((grepTail_sorted x P terms).imp fun h => ne_of_lt h) ?_
    exact fun file hfile htail => ((mem_grepTail hvalid).1 htail).2 hfile
  sorted := grepTail_sorted x P terms

theorem CodeTerms.views_empty (x : Letters) (P : Project) :
    CodeTerms.empty.structural P = [] ∧ CodeTerms.empty.grepTail x P = [] := by
  simp [empty, structural, grepTail, allDefiners, definers, referencers, unindexed, textHits,
    firstsFrom]

/-- No terms are no exception. -/
theorem blastRadius_eq (x : Letters) (P : Project) (query : String) (k : ℕ) :
    blastRadius x P query k = ⟨((codeTerms x query).structural P).take k,
      (codeTerms x query).structural P ++ (codeTerms x query).grepTail x P⟩ := by
  unfold blastRadius
  generalize codeTerms x query = terms
  dsimp only
  split
  · next hempty =>
    rw [CodeTerms.isEmpty, Bool.and_eq_true, List.isEmpty_iff, List.isEmpty_iff] at hempty
    obtain rfl : terms = .empty := by
      obtain ⟨names, paths⟩ := terms
      obtain ⟨rfl, rfl⟩ := hempty
      rfl
    rw [(CodeTerms.views_empty x P).1, (CodeTerms.views_empty x P).2, List.take_nil]
    rfl
  · rfl

end

end

/-! ## What a term brings in -/

namespace Project

variable (P : Project)

/-- What a path term brings in: the indexed files it names, or itself where it is the path of a file
of the tree. -/
def ByPath (t e : String) : Prop :=
  (P.Indexed e ∧ namesPath t e = true) ∨
    e = t ∧ (¬∃ path, P.Indexed path ∧ namesPath t path = true) ∧ ∃ file, P.Denotes t file

/-- What a symbol brings in. -/
def ByName (x : Letters) (n : CodeTerms.Named) (e : String) : Prop :=
  P.Defines n.name e ∨ P.Calls n.name e ∨ ¬P.Defined n.name ∧ P.Finds x n.text e ∧ skipped e = false

variable {P} {e t file : String}

theorem ByName.clean {x : Letters} {n : CodeTerms.Named} (h : P.ByName x n e) : CleanPath e := by
  rcases h with ⟨fs, hfs, -⟩ | ⟨fs, hfs, -⟩ | ⟨-, ⟨content, hf, -⟩, -⟩
  · exact P.indexed_clean e fs hfs
  · exact P.indexed_clean e fs hfs
  · exact P.searched_clean _ hf

theorem clean_of_namesPath {path : String} (hpath : P.Indexed path)
    (hnames : namesPath t path = true) : CleanPath t := by
  obtain ⟨fs, hfs⟩ := hpath
  have hclean := P.indexed_clean path fs hfs
  rcases Bool.or_eq_true_iff.1 hnames with heq | hends
  · rwa [← beq_iff_eq.1 heq]
  · obtain ⟨pre, hpre⟩ := of_decide_eq_true hends
    have hpath : path = String.ofList pre ++ "/" ++ t := by
      rw [← String.toList_inj, ← hpre]
      simp
    exact CleanPath.of_append (hpath ▸ hclean)

theorem Denotes.not_clean (h : P.Denotes t file) (hne : t ≠ file) : ¬CleanPath t :=
  fun hclean => hne (Option.some_inj.1 (hclean.placed.symm.trans h.2.2.1))

/-- A path spelled otherwise than by its names brings itself in alone. -/
theorem Denotes.byPath (h : P.Denotes t file) (hne : t ≠ file) : P.ByPath t e ↔ e = t := by
  have hspelled := h.not_clean hne
  unfold ByPath
  constructor
  · rintro (⟨hindexed, hnames⟩ | ⟨heq, -⟩)
    · exact absurd (clean_of_namesPath hindexed hnames) hspelled
    · exact heq
  · exact fun heq => .inr ⟨heq, fun ⟨path, hindexed, hnames⟩ =>
      hspelled (clean_of_namesPath hindexed hnames), file, h⟩

/-- Each brings in a path of names, or itself. -/
theorem ByPath.clean (h : P.ByPath t e) : CleanPath e ∨ e = t := by
  rcases h with ⟨⟨fs, hfs⟩, -⟩ | ⟨heq, -⟩
  · exact .inl (P.indexed_clean e fs hfs)
  · exact .inr heq

theorem Denotes.exists_byPath (h : P.Denotes t file) : ∃ e, P.ByPath t e := by
  by_cases hfound : ∃ path, P.Indexed path ∧ namesPath t path = true
  · obtain ⟨path, hpath⟩ := hfound
    exact ⟨path, .inl hpath⟩
  · exact ⟨t, .inr ⟨rfl, hfound, file, h⟩⟩

theorem Denotes.eq_of_byPath {u : String} (ht : P.Denotes t file) (hu : P.Denotes u file)
    (hte : P.ByPath t e) (hue : P.ByPath u e) : t = u := by
  by_cases htne : t = file
  · by_cases hune : u = file
    · rw [htne, hune]
    · cases (hu.byPath hune).1 hue
      exact (hte.clean.resolve_left (hu.not_clean hune)).symm
  · cases (ht.byPath htne).1 hte
    exact hue.clean.resolve_left (ht.not_clean htne)

end Project

section
variable {x : Letters} {P : Project} {e t file : String} {n : CodeTerms.Named}

theorem mem_structural_iff {terms : CodeTerms} : e ∈ terms.structural P ↔
    (∃ t ∈ terms.paths, P.ByPath t e) ∨
      ∃ n ∈ terms.names, P.Defines n.name e ∨ P.Calls n.name e := by
  rw [CodeTerms.mem_structural, CodeTerms.allDefiners, List.mem_append, CodeTerms.mem_definers,
    CodeTerms.mem_unindexed, CodeTerms.mem_referencers]
  constructor
  · rintro (((⟨hindexed, t, ht, hnames⟩ | ⟨n, hn, hdefines⟩) | ⟨ht, hfree, hfile⟩) | ⟨n, hn,
      hcalls⟩)
    · exact .inl ⟨t, ht, .inl ⟨hindexed, hnames⟩⟩
    · exact .inr ⟨n, hn, .inl hdefines⟩
    · exact .inl ⟨e, ht, .inr ⟨rfl, hfree, hfile⟩⟩
    · exact .inr ⟨n, hn, .inr hcalls⟩
  · rintro (⟨t, ht, ⟨hindexed, hnames⟩ | ⟨rfl, hfree, hfile⟩⟩ | ⟨n, hn, hdefines | hcalls⟩)
    · exact .inl (.inl (.inl ⟨hindexed, t, ht, hnames⟩))
    · exact .inl (.inr ⟨ht, hfree, hfile⟩)
    · exact .inl (.inl (.inr ⟨n, hn, hdefines⟩))
    · exact .inr ⟨n, hn, hcalls⟩

variable {k : ℕ}

/-- The safe view is what its terms bring in. -/
theorem mem_safe {query : String} : e ∈ (blastRadius x P query k).safe ↔
    (∃ t ∈ (codeTerms x query).paths, P.ByPath t e) ∨
      ∃ n ∈ (codeTerms x query).names, P.ByName x n e := by
  rw [blastRadius_eq, List.mem_append, mem_grepTail (codeTerms_valid x query), mem_structural_iff]
  constructor
  · rintro ((hpath | ⟨n, hn, hdefines | hcalls⟩) | ⟨⟨n, hn, hfinds⟩, -⟩)
    · exact .inl hpath
    · exact .inr ⟨n, hn, .inl hdefines⟩
    · exact .inr ⟨n, hn, .inr (.inl hcalls)⟩
    · exact .inr ⟨n, hn, .inr (.inr hfinds)⟩
  · rintro (hpath | ⟨n, hn, hdefines | hcalls | hfinds⟩)
    · exact .inl (.inl hpath)
    · exact .inl (.inr ⟨n, hn, .inl hdefines⟩)
    · exact .inl (.inr ⟨n, hn, .inr hcalls⟩)
    · exact or_iff_not_imp_left.2 fun hnot => ⟨⟨n, hn, hfinds⟩, hnot⟩

/-! ## Overlap -/

section
variable (x P)

/-- The safe views share a file, whatever the cuts of the precise ones. -/
def Shares (q r : String) : Prop :=
  ∀ k l, ∃ e, e ∈ (blastRadius x P q k).safe ∧ e ∈ (blastRadius x P r l).safe

end

variable {q r : String}

theorem shares_of_byName {m : CodeTerms.Named} (hn : n ∈ (codeTerms x q).names)
    (hm : m ∈ (codeTerms x r).names) (hq : P.ByName x n e) (hr : P.ByName x m e) :
    Shares x P q r := fun _ _ => ⟨e, mem_safe.2 (.inr ⟨n, hn, hq⟩), mem_safe.2 (.inr ⟨m, hm, hr⟩)⟩

/-- Any criteria that name a symbol share a file exactly where it brings in one. -/
theorem shares_name_iff (hn : n ∈ (codeTerms x q).names) :
    (∀ q r, n ∈ (codeTerms x q).names → n ∈ (codeTerms x r).names → Shares x P q r) ↔
      ∃ e, P.ByName x n e := by
  constructor
  · intro hshares
    obtain ⟨hterm, hleaf⟩ := (codeTerms_valid x q).names n hn
    have hquoted : codeTerms x (quoted n.text) = ⟨[n], []⟩ := by
      rw [codeTerms_quoted hterm, ← hleaf]
      rfl
    have hself : n ∈ (codeTerms x (quoted n.text)).names := by simp [hquoted]
    obtain ⟨e, he, -⟩ := hshares _ _ hself hself 0 0
    rw [mem_safe, hquoted] at he
    exact ⟨e, by simpa using he⟩
  · rintro ⟨e, he⟩ q r hq hr
    exact shares_of_byName hq hr he he

/-- A path some criterion names. -/
def PathTerm (x : Letters) (t : String) : Prop := ∃ q, t ∈ (codeTerms x q).paths

theorem PathTerm.quoted (h : PathTerm x t) : codeTerms x (quoted t) = ⟨[], [t]⟩ := by
  obtain ⟨q, ht⟩ := h
  rw [codeTerms_quoted ((codeTerms_valid x q).paths t ht)]
  rfl

theorem PathTerm.mem_safe (h : PathTerm x t) :
    e ∈ (blastRadius x P (Grounder.quoted t) k).safe ↔ P.ByPath t e := by
  rw [Grounder.mem_safe, h.quoted]
  simp

/-- Any criteria that hold two paths of one file share a file exactly where the two are spelled
alike. -/
theorem shares_paths_iff {u : String} (ht : PathTerm x t) (hu : PathTerm x u)
    (htfile : P.Denotes t file) (hufile : P.Denotes u file) :
    (∀ q r, t ∈ (codeTerms x q).paths → u ∈ (codeTerms x r).paths → Shares x P q r) ↔ t = u := by
  constructor
  · intro hshares
    obtain ⟨e, hte, hue⟩ := hshares (quoted t) (quoted u) (by simp [ht.quoted])
      (by simp [hu.quoted]) 0 0
    rw [ht.mem_safe] at hte
    rw [hu.mem_safe] at hue
    exact htfile.eq_of_byPath hufile hte hue
  · rintro rfl q r hq hr k l
    obtain ⟨e, he⟩ := htfile.exists_byPath
    exact ⟨e, mem_safe.2 (.inl ⟨t, hq, he⟩), mem_safe.2 (.inl ⟨t, hr, he⟩)⟩

/-- Any criterion that holds a path of an indexed file and any that names a symbol the file defines
or calls share a file exactly where the path is spelled by its names. -/
theorem shares_path_name_iff {r₀ : String} (ht : PathTerm x t) (hn : n ∈ (codeTerms x r₀).names)
    (hfile : P.Denotes t file) (hindexed : P.Indexed file)
    (hsymbol : P.Defines n.name file ∨ P.Calls n.name file) :
    (∀ q r, t ∈ (codeTerms x q).paths → (∃ m ∈ (codeTerms x r).names, m.name = n.name) →
      Shares x P q r) ↔ t = file := by
  constructor
  · intro hshares
    by_contra hne
    obtain ⟨hterm, hleaf⟩ := (codeTerms_valid x r₀).names n hn
    have hquoted := codeTerms_quoted hterm
    obtain ⟨e, hte, hne'⟩ := hshares (quoted t) (quoted n.text) (by simp [ht.quoted])
      ⟨⟨n.text, pathLeaf n.text⟩, by simp [hquoted], hleaf.symm⟩ 0 0
    rw [ht.mem_safe, hfile.byPath hne] at hte
    rw [mem_safe, hquoted] at hne'
    rcases hne' with ⟨_, hmem, -⟩ | ⟨m, -, hm⟩
    · cases hmem
    · exact hfile.not_clean hne (hte ▸ hm.clean)
  · rintro rfl q r hq ⟨m, hm, hname⟩ k l
    refine ⟨t, mem_safe.2 (.inl ⟨t, hq, .inl ⟨hindexed, ?_⟩⟩), mem_safe.2 (.inr ⟨m, hm, ?_⟩)⟩
    · simp [namesPath]
    · rw [← hname] at hsymbol
      exact hsymbol.imp_right .inl

theorem nodup_safe (x : Letters) (P : Project) (q : String) (k : ℕ) :
    (blastRadius x P q k).safe.Nodup := by
  rw [blastRadius_eq]
  exact (parts_codeTerms (codeTerms_valid x q)).once

/-- What is no path of names stands in a view as a path term of a file of the tree. -/
theorem denotes_of_mem_safe (h : e ∈ (blastRadius x P q k).safe) (hspelled : ¬CleanPath e) :
    e ∈ (codeTerms x q).paths ∧ ∃ file, P.Denotes e file ∧ e ≠ file := by
  rcases mem_safe.1 h with ⟨t, ht, hby⟩ | ⟨n, -, hby⟩
  · obtain rfl := hby.clean.resolve_left hspelled
    refine ⟨ht, ?_⟩
    rcases hby with ⟨⟨fs, hfs⟩, -⟩ | ⟨-, -, file, hfile⟩
    · exact absurd (P.indexed_clean e fs hfs) hspelled
    · refine ⟨file, hfile, fun heq => hspelled ?_⟩
      rw [heq]
      exact cleanPath_of_placed hfile.2.2.1 hfile.2.1
  · exact absurd hby.clean hspelled

/-- Whatever holds a file of the tree that a path spells otherwise than by its names is that
path. -/
def SpelledOnce (x : Letters) (P : Project) (terms : CodeTerms) : Prop :=
  ∀ t ∈ terms.paths, ∀ file, P.Denotes t file → t ≠ file → ∀ e, placed e = some file →
    (∀ u ∈ terms.paths, P.ByPath u e → u = t) ∧ ∀ n ∈ terms.names, ¬P.ByName x n e

theorem SpelledOnce.eq (h : SpelledOnce x P (codeTerms x q)) {a b : String}
    (ha : a ∈ (blastRadius x P q k).safe) (hb : b ∈ (blastRadius x P q k).safe)
    (hplaced : placed a = placed b) (hspelled : ¬CleanPath a) : a = b := by
  obtain ⟨hterm, file, hfile, hne⟩ := denotes_of_mem_safe ha hspelled
  obtain ⟨hpaths, hnames⟩ := h a hterm file hfile hne b (hplaced ▸ hfile.2.2.1)
  rcases mem_safe.1 hb with ⟨u, hu, hby⟩ | ⟨n, hn, hby⟩
  · rw [hpaths u hu hby, hfile.byPath hne] at hby
    exact hby.symm
  · exact absurd hby (hnames n hn)

/-- No file is held twice under any spelling exactly where a path spelled otherwise than by the
names of its file is alone to hold it. -/
theorem placed_once_iff (x : Letters) (P : Project) (q : String) :
    (∀ k, ((blastRadius x P q k).safe.map placed).Nodup) ↔ SpelledOnce x P (codeTerms x q) := by
  constructor
  · intro honce t ht file hfile hne e hplaced
    have hinj := (List.nodup_map_iff_inj_on (nodup_safe x P q 0)).1 (honce 0)
    have hsame : e ∈ (blastRadius x P q 0).safe → e = t := fun he =>
      hinj e he t (mem_safe.2 (.inl ⟨t, ht, (hfile.byPath hne).2 rfl⟩))
        (hplaced.trans hfile.2.2.1.symm)
    refine ⟨fun u hu hby => ?_, fun n hn hby => ?_⟩
    · obtain rfl := hsame (mem_safe.2 (.inl ⟨u, hu, hby⟩))
      exact (hby.clean.resolve_left (hfile.not_clean hne)).symm
    · obtain rfl := hsame (mem_safe.2 (.inr ⟨n, hn, hby⟩))
      exact hfile.not_clean hne hby.clean
  · intro hspelled k
    rw [List.nodup_map_iff_inj_on (nodup_safe x P q k)]
    intro a ha b hb hplaced
    by_cases hcleana : CleanPath a
    · by_cases hcleanb : CleanPath b
      · rw [hcleana.placed, hcleanb.placed] at hplaced
        exact Option.some_inj.1 hplaced
      · exact (hspelled.eq hb ha hplaced.symm hcleanb).symm
    · exact hspelled.eq ha hb hplaced hcleana

/-! ## Undefined text -/

theorem isWord_other (c : Char) : ∃ p, p ≠ c ∧ isWord p = true := by
  by_cases hc : c = 'a'
  · exact ⟨'b', by rw [hc]; decide, by decide⟩
  · exact ⟨'a', fun h => hc h.symm, by decide⟩

/-- The search meets a text in every line that holds it as a whole identifier exactly where it does
not start again within itself after what is no part of an identifier. -/
theorem lineMatches_iff {needle : List Char} (hneedle : needle ≠ []) :
    (∀ line, Stands isWord (endsWhole needle) needle line → lineMatches line needle true = true) ↔
      SelfApart isWord needle :=
  scan_finds_iff hneedle isWord_other (by simp [endsWhole])

example : lineMatches "xa::a::a".toList "a::a".toList true = false := by decide

theorem lowercase_text_ne_nil (hn : n ∈ (codeTerms x q).names) :
    (x.lowercase n.text).toList ≠ [] := by
  have hne := x.lowercase_ne_empty _ ((codeTerms_valid x q).names n hn).1.ne_empty
  simpa using hne

/-- A file that holds an undefined text as a whole identifier is in the view of the criteria that
name it. -/
theorem byName_of_holdsWhole (hn : n ∈ (codeTerms x q).names) (hundefined : ¬P.Defined n.name)
    (hapart : SelfApart isWord (x.lowercase n.text).toList) (hholds : P.HoldsWhole x n.text file)
    (hskip : skipped file = false) : P.ByName x n file := by
  obtain ⟨content, hf, line, hline, hstands⟩ := hholds
  exact .inr (.inr ⟨hundefined, ⟨content, hf, line, hline,
    (lineMatches_iff (lowercase_text_ne_nil hn)).2 hapart _ hstands⟩, hskip⟩)

/-! ## The overlap of related criteria -/

/-- The views are the definers, the callers that define nothing and the sorted text matches of the
criterion's terms, the precise one their ranked part up to `k`; criteria that name a defined symbol
in common share a file.  Those of a common file by its path, by a path and a symbol, or by an
undefined text share one exactly where the paths are spelled alike, the path by the file's names,
and the search meets the text, as it does wherever a text that does not start again within itself
stands whole; and no file is held twice exactly where each is spelled once. -/
theorem blastRadius_overlaps_iff (x : Letters) (P : Project) :
    (∀ q, ∃ definers referencers hits, Parts x P (codeTerms x q) definers referencers hits ∧
      ∀ k, blastRadius x P q k =
        ⟨(definers ++ referencers).take k, definers ++ referencers ++ hits⟩) ∧
    (∀ q r, ∀ n ∈ (codeTerms x q).names, ∀ m ∈ (codeTerms x r).names, n.name = m.name →
      P.Defined n.name → Shares x P q r) ∧
    (∀ t u file, PathTerm x t → PathTerm x u → P.Denotes t file → P.Denotes u file →
      ((∀ q r, t ∈ (codeTerms x q).paths → u ∈ (codeTerms x r).paths → Shares x P q r) ↔ t = u)) ∧
    (∀ t file q₀, PathTerm x t → P.Denotes t file → P.Indexed file → ∀ n ∈ (codeTerms x q₀).names,
      P.Defined n.name → P.Defines n.name file ∨ P.Calls n.name file →
      ((∀ q r, t ∈ (codeTerms x q).paths → (∃ m ∈ (codeTerms x r).names, m.name = n.name) →
        Shares x P q r) ↔ t = file)) ∧
    (∀ q₀, ∀ n ∈ (codeTerms x q₀).names,
      ((∀ line, Stands isWord (endsWhole (x.lowercase n.text).toList)
        (x.lowercase n.text).toList line →
        lineMatches line (x.lowercase n.text).toList true = true) ↔
          SelfApart isWord (x.lowercase n.text).toList) ∧
      (¬P.Defined n.name →
        ((∀ q r, n ∈ (codeTerms x q).names → n ∈ (codeTerms x r).names → Shares x P q r) ↔
          ∃ file, P.Calls n.name file ∨ P.Finds x n.text file ∧ skipped file = false)) ∧
      (SelfApart isWord (x.lowercase n.text).toList → ¬P.Defined n.name →
        (∃ file, P.HoldsWhole x n.text file ∧ skipped file = false) →
        ∀ q r, n ∈ (codeTerms x q).names → n ∈ (codeTerms x r).names → Shares x P q r)) ∧
    ∀ q, (∀ k, ((blastRadius x P q k).safe.map placed).Nodup) ↔
        SpelledOnce x P (codeTerms x q) := by
  refine ⟨fun q => ⟨_, _, _, parts_codeTerms (codeTerms_valid x q), blastRadius_eq x P q⟩, ?_,
    fun t u file => shares_paths_iff, ?_, ?_, placed_once_iff x P⟩
  · rintro q r n hn m hm hname ⟨file, hdefines⟩
    exact shares_of_byName hn hm (.inl hdefines) (.inl (hname ▸ hdefines))
  · intro t file q₀ ht hfile hindexed n hn _ hsymbol
    exact shares_path_name_iff ht hn hfile hindexed hsymbol
  · refine fun q₀ n hn => ⟨lineMatches_iff (lowercase_text_ne_nil hn), fun hundefined => ?_, ?_⟩
    · rw [shares_name_iff hn]
      refine exists_congr fun file => ?_
      have hnot : ¬P.Defines n.name file := fun hdefines => hundefined ⟨file, hdefines⟩
      simp [Project.ByName, hundefined, hnot]
    rintro hapart hundefined ⟨file, hholds, hskip⟩ q r hq hr
    exact shares_of_byName hq hr (byName_of_holdsWhole hq hundefined hapart hholds hskip)
      (byName_of_holdsWhole hr hundefined hapart hholds hskip)

end

/-! ## Two spellings of a file -/

def plainLetters : Letters where
  toAlphabet := plainAlphabet
  isLowercase := Char.isLower
  isUppercase := Char.isUpper
  lowercase_ne_empty _ h := h

def oneFile : Project where
  index := (∅ : IndexedFiles).insert "src/a.rs" ⟨.rust, [functionAt "alpha_run" 1], [], false⟩
  holds file := file == "src/a.rs"
  searched := [("src/a.rs", "fn alpha_run() {}")]
  indexed_clean path fs h := by
    rw [Std.ExtTreeMap.getElem?_insert] at h
    split at h
    · next heq =>
      rw [← Std.LawfulEqCmp.compare_eq_iff_eq.1 heq]
      unfold CleanPath
      decide
    · simp at h
  searched_clean := by
    unfold CleanPath
    decide
  fits := by decide

theorem denotes_oneFile : oneFile.Denotes "./src/a.rs" "src/a.rs" ∧
    oneFile.Denotes "src/a.rs" "src/a.rs" := by
  unfold Project.Denotes
  decide

theorem dotted_terms : codeTerms plainLetters "`./src/a.rs`" = ⟨[], ["./src/a.rs"]⟩ := by
  decide +kernel

theorem plain_terms : codeTerms plainLetters "`src/a.rs`" = ⟨[], ["src/a.rs"]⟩ := by
  decide +kernel

theorem named_terms : codeTerms plainLetters "`alpha_run``src/a.rs`" =
    ⟨[⟨"alpha_run", "alpha_run"⟩], ["src/a.rs"]⟩ := by
  decide +kernel

/-- Criteria that name the file by its names share it, whatever else they name. -/
theorem overlaps_oneFile : Shares plainLetters oneFile "`src/a.rs`" "`alpha_run``src/a.rs`" :=
  have hterm : "src/a.rs" ∈ (codeTerms plainLetters "`src/a.rs`").paths := by
    rw [plain_terms]
    exact List.mem_singleton_self _
  have hother : "src/a.rs" ∈ (codeTerms plainLetters "`alpha_run``src/a.rs`").paths := by
    rw [named_terms]
    exact List.mem_singleton_self _
  ((blastRadius_overlaps_iff plainLetters oneFile).2.2.1 "src/a.rs" "src/a.rs" "src/a.rs" ⟨_, hterm⟩
    ⟨_, hother⟩ denotes_oneFile.2 denotes_oneFile.2).2 rfl _ _ hterm hother

/-- One that spells it with a `.` shares nothing with one that does not. -/
theorem dotted_path_apart : "./src/a.rs" ∈ (codeTerms plainLetters "`./src/a.rs`").paths ∧
    "src/a.rs" ∈ (codeTerms plainLetters "`src/a.rs`").paths ∧
    oneFile.Denotes "./src/a.rs" "src/a.rs" ∧ oneFile.Denotes "src/a.rs" "src/a.rs" ∧
    ¬Shares plainLetters oneFile "`./src/a.rs`" "`src/a.rs`" := by
  refine ⟨by simp [dotted_terms], by simp [plain_terms], denotes_oneFile.1, denotes_oneFile.2, ?_⟩
  intro hshares
  obtain ⟨e, hdotted, hplain⟩ := hshares 0 0
  rw [mem_safe, dotted_terms] at hdotted
  rw [mem_safe, plain_terms] at hplain
  simp only [List.mem_singleton, List.not_mem_nil, exists_eq_left, false_and,
    exists_false, or_false]
    at hdotted hplain
  exact absurd (denotes_oneFile.1.eq_of_byPath denotes_oneFile.2 hdotted hplain) (by decide)

end Rigger.Grounder
