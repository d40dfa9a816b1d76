import Rigger.Grounder.ExtractEvents
import Rigger.Lib.Paged

/-!
# The ranked page (`rigger-grounder/src/grounder/symbols/grounder.rs`, `ground_ranked`)

Every definition and call reference whose name a term of the query matches is a candidate of its
line, and a line shows the best ranked of its candidates alone.  The page gives each entity one row:
a definition is its own, a call reference is of the sole definition of its name in its language, or
else of that name and language.

What a line does not show has no row of its own, and a name with several definitions none of whose
references is shown keeps no row for them (`rankedPage_rows`, `shared_line_hides`).
-/

namespace Rigger.Grounder

open Lib

/-! ## The index (`symbols/model.rs`) -/

/-- The file map of a `SymbolIndex`. -/
abbrev IndexedFiles := Std.ExtTreeMap String FileSymbols

/-- The references of no kind. -/
def FileSymbols.calls (fs : FileSymbols) : List SymRef := fs.refs.filter fun r => r.refKind.isNone

namespace IndexedFiles

variable (idx : IndexedFiles)

def filesOf (lang : Lang) : List FileSymbols :=
  (idx.toList.map Prod.snd).filter fun fs => fs.lang = lang

def referenceDegree (name : String) (lang : Lang) : ℕ :=
  ((idx.filesOf lang).flatMap FileSymbols.calls).countP fun r => r.name == name

/-- The count of `name_occurrence_map` at a name and language, 0 where it has none. -/
def nameOccurrences (countRefs : Bool) (name : String) (lang : Lang) : ℕ :=
  ((idx.filesOf lang).flatMap FileSymbols.defs).countP (fun d => d.name == name) +
    if countRefs then idx.referenceDegree name lang else 0

/-- The sites of the definitions of a name and language. -/
def defSites (name : String) (lang : Lang) : List (String × ℕ) :=
  idx.toList.flatMap fun x =>
    if x.2.lang = lang then (x.2.defs.filter fun d => d.name == name).map fun d => (x.1, d.line)
    else []

end IndexedFiles

/-! ## Terms -/

/-- Unicode's letters and digits, and its lower case. -/
structure Alphabet where
  alphanumeric : Char → Bool
  lowercase : String → String

/-- The runs of letters, digits and underscores of two characters at least. -/
def queryTerms (x : Alphabet) (query : String) : List String :=
  ((query.toList.splitOnP fun c => !x.alphanumeric c && c != '_').filter
    fun run => decide (2 ≤ run.length)).map String.ofList

/-! ## Candidates -/

inductive HitKind where
  | def_
  | ref
deriving DecidableEq

structure ScoredHit where
  nameCoverage : ℕ
  test : Bool
  coverage : ℕ
  tier : ℕ
  commonness : ℕ
  lexical : ℕ
  file : String
  line : ℕ
  name : String
  lang : Lang
  kind : HitKind
deriving DecidableEq

abbrev Rank := ℕᵒᵈ ×ₗ Bool ×ₗ ℕᵒᵈ ×ₗ ℕᵒᵈ ×ₗ ℕ ×ₗ ℕᵒᵈ ×ₗ String ×ₗ ℕ

/-- A line of a file. -/
structure Slot where
  file : String
  line : ℕ
deriving DecidableEq

/-- The order of the pair. -/
instance : Ord Slot := ⟨compareLex (compareOn Slot.file) (compareOn Slot.line)⟩

instance : Std.TransOrd Slot :=
  inferInstanceAs (Std.TransCmp (compareLex (compareOn Slot.file) (compareOn Slot.line)))

instance : Std.LawfulEqOrd Slot where
  eq_of_compare {a b} h := by
    have hboth : (compare a.file b.file).then (compare a.line b.line) = .eq := h
    rw [Ordering.then_eq_eq, Std.LawfulEqCmp.compare_eq_iff_eq, Std.LawfulEqCmp.compare_eq_iff_eq]
      at hboth
    cases a
    cases b
    simp_all

namespace ScoredHit

def rank (h : ScoredHit) : Rank :=
  toLex (.toDual h.nameCoverage, toLex (h.test, toLex (.toDual h.coverage, toLex (.toDual h.tier,
    toLex (h.commonness, toLex (.toDual h.lexical, toLex (h.file, h.line)))))))

def slot (h : ScoredHit) : Slot := ⟨h.file, h.line⟩

end ScoredHit

section
variable (x : Alphabet) (idx : IndexedFiles) (terms : List String)

/-- The best tier a term gives a name: it is the name, or it occurs in it. -/
def tierOf (name : String) : ℕ :=
  terms.foldl (fun tier t => max tier (if name = t then 2 else if holdsText name t then 1 else 0)) 0

def scoreOne (path : String) (lang : Lang) (name : String) (line : ℕ) (kind : HitKind) (lexical : ℕ)
    (test : Bool) : Option ScoredHit :=
  let lowerTerms := terms.map x.lowercase
  let inName := fun t => holdsText (x.lowercase name) t
  if tierOf terms name = 0 then none
  else some
    { nameCoverage := lowerTerms.countP inName
      test := test || isDevOnly path
      coverage := lowerTerms.countP fun t => inName t || holdsText (x.lowercase path) t
      tier := tierOf terms name
      commonness := idx.nameOccurrences true name lang
      lexical := lexical
      file := path
      line := line
      name := name
      lang := lang
      kind := kind }

/-- The candidates of one file: its definitions, then its call references. -/
def candidatesOf (file : String × FileSymbols) : List ScoredHit :=
  (file.2.defs.filterMap fun d =>
      scoreOne x idx terms file.1 file.2.lang d.name d.line .def_ 3 d.isTest) ++
    file.2.calls.filterMap fun r =>
      scoreOne x idx terms file.1 file.2.lang r.name r.line .ref 2 r.isTest

def candidates : List ScoredHit := idx.toList.flatMap (candidatesOf x idx terms)

def scoredHits : List ScoredHit :=
  (shown compare ScoredHit.slot ScoredHit.rank (candidates x idx terms)).mergeSort
    fun a b => decide (a.rank ≤ b.rank)

end

/-! ## Rows -/

structure Ref where
  file : String
  line : ℕ
  text : String
deriving DecidableEq

structure RankedRef where
  loc : Ref
  degree : ℕ
deriving DecidableEq

inductive EntityKey where
  | def_ (name file : String) (line : ℕ)
  | standalone (name : String) (lang : Lang)
deriving DecidableEq

section
variable (x : Alphabet) (idx : IndexedFiles)

/-- The entity of a call reference. -/
def referenceKey (name : String) (lang : Lang) : EntityKey :=
  match idx.defSites name lang with
  | [(file, line)] => .def_ name file line
  | _ => .standalone name lang

def entityKey (h : ScoredHit) : EntityKey :=
  match h.kind with
  | .def_ => .def_ h.name h.file h.line
  | .ref => referenceKey idx h.name h.lang

def degreeOf (h : ScoredHit) : ℕ :=
  match entityKey idx h with
  | .def_ .. =>
    if 1 < (idx.defSites h.name h.lang).length then 0 else idx.referenceDegree h.name h.lang
  | .standalone .. => idx.referenceDegree h.name h.lang

def rankedRef (h : ScoredHit) : RankedRef := ⟨⟨h.file, h.line, h.name⟩, degreeOf idx h⟩

def groundRanked (query : String) (k : ℕ) : List RankedRef :=
  if query.isEmpty || k == 0 then []
  else
    let terms := queryTerms x query
    if terms.isEmpty then []
    else pageFrom (entityKey idx) (rankedRef idx) k (scoredHits x idx terms) [] []

end

/-! ## Matches -/

/-- Some term is the name or occurs in it. -/
def Matches (terms : List String) (name : String) : Prop :=
  ∃ t ∈ terms, name = t ∨ holdsText name t = true

theorem foldl_max_eq_zero {f : String → ℕ} {terms : List String} {tier : ℕ} :
    terms.foldl (fun tier t => max tier (f t)) tier = 0 ↔ tier = 0 ∧ ∀ t ∈ terms, f t = 0 := by
  induction terms generalizing tier with
  | nil => simp
  | cons t terms ih =>
    rw [List.foldl_cons, ih, Nat.max_eq_zero_iff, List.forall_mem_cons, and_assoc]

theorem tierOf_ne_zero {terms : List String} {name : String} :
    tierOf terms name ≠ 0 ↔ Matches terms name := by
  unfold tierOf Matches
  rw [Ne, foldl_max_eq_zero, not_and_or, or_iff_right (not_not.2 rfl)]
  push Not
  refine exists_congr fun t => and_congr_right fun _ => ?_
  by_cases hname : name = t
  · simp [hname]
  · cases holdsText name t <;> simp [hname]

section
variable {x : Alphabet} {idx : IndexedFiles} {terms : List String} {name : String} {lang : Lang}
  {h : ScoredHit}

theorem scoreOne_eq_some {path : String} {line lexical : ℕ} {kind : HitKind} {test : Bool}
    (hsome : scoreOne x idx terms path lang name line kind lexical test =
      some h) : Matches terms name ∧ h.file = path ∧ h.line = line ∧ h.name = name ∧ h.lang = lang ∧
        h.kind = kind := by
  unfold scoreOne at hsome
  split at hsome
  · cases hsome
  · next htier =>
    cases hsome
    exact ⟨tierOf_ne_zero.1 htier, rfl, rfl, rfl, rfl, rfl⟩

theorem exists_scoreOne (x : Alphabet) (idx : IndexedFiles) (hname : Matches terms name)
    (path : String) (lang : Lang) (line lexical : ℕ) (kind : HitKind) (test : Bool) :
    ∃ h, scoreOne x idx terms path lang name line kind lexical test = some h := by
  unfold scoreOne
  rw [if_neg (tierOf_ne_zero.2 hname)]
  exact ⟨_, rfl⟩

theorem mem_defSites {file : String} {line : ℕ} :
    (file, line) ∈ idx.defSites name lang ↔ ∃ fs, idx[file]? = some fs ∧ fs.lang = lang ∧
      ∃ d ∈ fs.defs, d.name = name ∧ d.line = line := by
  unfold IndexedFiles.defSites
  rw [List.mem_flatMap]
  constructor
  · rintro ⟨⟨path, fs⟩, hfs, hsite⟩
    split at hsite
    · next hlang =>
      obtain ⟨d, hd, heq⟩ := List.mem_map.1 hsite
      cases heq
      obtain ⟨hd, hname⟩ := List.mem_filter.1 hd
      exact ⟨fs, Std.ExtTreeMap.mem_toList_iff_getElem?_eq_some.1 hfs, hlang, d, hd,
        beq_iff_eq.1 hname, rfl⟩
    · cases hsite
  · rintro ⟨fs, hfs, hlang, d, hd, hname, hline⟩
    refine ⟨(file, fs), Std.ExtTreeMap.mem_toList_iff_getElem?_eq_some.2 hfs, ?_⟩
    rw [if_pos hlang]
    exact List.mem_map.2 ⟨d, List.mem_filter.2 ⟨hd, beq_iff_eq.2 hname⟩, by rw [hline]⟩

/-- A call reference of a name and language stands at a line. -/
def CallAt (idx : IndexedFiles) (name : String) (lang : Lang) (s : Slot) : Prop :=
  ∃ fs, idx[s.file]? = some fs ∧ fs.lang = lang ∧ ∃ r ∈ fs.calls, r.name = name ∧ r.line = s.line

theorem mem_candidates : h ∈ candidates x idx terms ↔
    ∃ fs, idx[h.file]? = some fs ∧ h ∈ candidatesOf x idx terms (h.file, fs) := by
  unfold candidates
  rw [List.mem_flatMap]
  constructor
  · rintro ⟨⟨path, fs⟩, hfs, hh⟩
    have hfile : h.file = path := by
      rcases List.mem_append.1 hh with hh | hh
      · obtain ⟨d, -, hd⟩ := List.mem_filterMap.1 hh
        exact (scoreOne_eq_some hd).2.1
      · obtain ⟨r, -, hr⟩ := List.mem_filterMap.1 hh
        exact (scoreOne_eq_some hr).2.1
    rw [hfile]
    exact ⟨fs, Std.ExtTreeMap.mem_toList_iff_getElem?_eq_some.1 hfs, hh⟩
  · rintro ⟨fs, hfs, hh⟩
    exact ⟨(h.file, fs), Std.ExtTreeMap.mem_toList_iff_getElem?_eq_some.2 hfs, hh⟩

/-- The candidates of a line that are definitions are those of the names the terms match. -/
theorem exists_def_candidate {s : Slot} :
    (∃ h ∈ candidates x idx terms, h.kind = .def_ ∧ h.name = name ∧ h.lang = lang ∧ h.slot = s) ↔
      (s.file, s.line) ∈ idx.defSites name lang ∧ Matches terms name := by
  rw [mem_defSites]
  constructor
  · rintro ⟨h, hh, hkind, rfl, rfl, rfl⟩
    obtain ⟨fs, hfs, hh⟩ := mem_candidates.1 hh
    rcases List.mem_append.1 hh with hh | hh
    · obtain ⟨d, hd, hsome⟩ := List.mem_filterMap.1 hh
      obtain ⟨hmatches, -, hline, hname, hlang, -⟩ := scoreOne_eq_some hsome
      exact ⟨⟨fs, hfs, hlang.symm, d, hd, hname.symm, hline.symm⟩, hname ▸ hmatches⟩
    · obtain ⟨r, hr, hsome⟩ := List.mem_filterMap.1 hh
      rw [(scoreOne_eq_some hsome).2.2.2.2.2] at hkind
      cases hkind
  · rintro ⟨⟨fs, hfs, rfl, d, hd, rfl, hline⟩, hmatches⟩
    obtain ⟨h, hsome⟩ := exists_scoreOne x idx hmatches s.file fs.lang d.line 3 .def_
      d.isTest
    obtain ⟨-, hfile, hline', hname, hlang, hkind⟩ := scoreOne_eq_some hsome
    refine ⟨h, mem_candidates.2 ⟨fs, hfile ▸ hfs, ?_⟩, hkind, hname, hlang, ?_⟩
    · rw [hfile]
      exact List.mem_append_left _ (List.mem_filterMap.2 ⟨d, hd, hsome⟩)
    · rw [ScoredHit.slot, hfile, hline', hline]

theorem exists_ref_candidate {s : Slot} :
    (∃ h ∈ candidates x idx terms, h.kind = .ref ∧ h.name = name ∧ h.lang = lang ∧ h.slot = s) ↔
      CallAt idx name lang s ∧ Matches terms name := by
  unfold CallAt
  constructor
  · rintro ⟨h, hh, hkind, rfl, rfl, rfl⟩
    obtain ⟨fs, hfs, hh⟩ := mem_candidates.1 hh
    rcases List.mem_append.1 hh with hh | hh
    · obtain ⟨d, hd, hsome⟩ := List.mem_filterMap.1 hh
      rw [(scoreOne_eq_some hsome).2.2.2.2.2] at hkind
      cases hkind
    · obtain ⟨r, hr, hsome⟩ := List.mem_filterMap.1 hh
      obtain ⟨hmatches, -, hline, hname, hlang, -⟩ := scoreOne_eq_some hsome
      exact ⟨⟨fs, hfs, hlang.symm, r, hr, hname.symm, hline.symm⟩, hname ▸ hmatches⟩
  · rintro ⟨⟨fs, hfs, rfl, r, hr, rfl, hline⟩, hmatches⟩
    obtain ⟨h, hsome⟩ := exists_scoreOne x idx hmatches s.file fs.lang r.line 2 .ref
      r.isTest
    obtain ⟨-, hfile, hline', hname, hlang, hkind⟩ := scoreOne_eq_some hsome
    refine ⟨h, mem_candidates.2 ⟨fs, hfile ▸ hfs, ?_⟩, hkind, hname, hlang, ?_⟩
    · rw [hfile]
      exact List.mem_append_right _ (List.mem_filterMap.2 ⟨r, hr, hsome⟩)
    · rw [ScoredHit.slot, hfile, hline', hline]

end

/-! ## Entities -/

/-- The name and language of an entity; a definition's is its file's. -/
def EntityKey.of (idx : IndexedFiles) (name : String) (lang : Lang) : EntityKey → Bool
  | .def_ n file _ => n == name && (idx[file]?).any fun fs => decide (fs.lang = lang)
  | .standalone n l => n == name && decide (l = lang)

section
variable {x : Alphabet} {idx : IndexedFiles} {terms : List String} {name : String} {lang : Lang}

theorem EntityKey.of_inj {name' : String} {lang' : Lang} {key : EntityKey}
    (h : key.of idx name lang = true) (h' : key.of idx name' lang' = true) :
    name = name' ∧ lang = lang' := by
  cases key with
  | standalone n l =>
    simp only [EntityKey.of, Bool.and_eq_true, beq_iff_eq, decide_eq_true_eq] at h h'
    exact ⟨h.1.symm.trans h'.1, h.2.symm.trans h'.2⟩
  | def_ n file line =>
    simp only [EntityKey.of, Bool.and_eq_true, beq_iff_eq, Option.any_eq_true, decide_eq_true_eq]
      at h h'
    obtain ⟨hname, fs, hfs, hlang⟩ := h
    obtain ⟨hname', fs', hfs', hlang'⟩ := h'
    rw [hfs] at hfs'
    cases hfs'
    exact ⟨hname.symm.trans hname', hlang.symm.trans hlang'⟩

theorem of_defSites {file : String} {line : ℕ} (h : (file, line) ∈ idx.defSites name lang) :
    (EntityKey.def_ name file line).of idx name lang = true := by
  obtain ⟨fs, hfs, hlang, -⟩ := mem_defSites.1 h
  simp [EntityKey.of, hfs, hlang]

/-- A call reference is of the sole definition of its name and language, or of these two. -/
theorem referenceKey_cases (idx : IndexedFiles) (name : String) (lang : Lang) :
    (∃ file line, idx.defSites name lang = [(file, line)] ∧
      referenceKey idx name lang = .def_ name file line) ∨
    (idx.defSites name lang).length ≠ 1 ∧ referenceKey idx name lang = .standalone name lang := by
  unfold referenceKey
  match idx.defSites name lang with
  | [] => exact .inr ⟨by simp, rfl⟩
  | [(file, line)] => exact .inl ⟨file, line, rfl, rfl⟩
  | _ :: _ :: _ => exact .inr ⟨by simp, rfl⟩

/-- No call reference is of an entity of another language. -/
theorem of_referenceKey (idx : IndexedFiles) (name : String) (lang : Lang) :
    (referenceKey idx name lang).of idx name lang = true := by
  rcases referenceKey_cases idx name lang with ⟨file, line, hsites, hkey⟩ | ⟨-, hkey⟩
  · rw [hkey]
    exact of_defSites (by rw [hsites]; exact List.mem_cons_self)
  · rw [hkey]
    simp [EntityKey.of]

theorem referenceKey_eq_def {n file : String} {line : ℕ} :
    referenceKey idx name lang = .def_ n file line ↔
      n = name ∧ idx.defSites name lang = [(file, line)] := by
  rcases referenceKey_cases idx name lang with ⟨file', line', hsites, hkey⟩ | ⟨hlength, hkey⟩
  · rw [hkey, hsites]
    constructor
    · rintro ⟨⟩
      exact ⟨rfl, rfl⟩
    · rintro ⟨rfl, heq⟩
      cases heq
      rfl
  · rw [hkey]
    constructor
    · rintro ⟨⟩
    · rintro ⟨-, hsites⟩
      rw [hsites] at hlength
      exact absurd rfl hlength

theorem referenceKey_eq_standalone {n : String} {l : Lang} :
    referenceKey idx name lang = .standalone n l ↔
      n = name ∧ l = lang ∧ (idx.defSites name lang).length ≠ 1 := by
  rcases referenceKey_cases idx name lang with ⟨file', line', hsites, hkey⟩ | ⟨hlength, hkey⟩
  · rw [hkey, hsites]
    constructor
    · rintro ⟨⟩
    · rintro ⟨-, -, hlength⟩
      exact absurd rfl hlength
  · rw [hkey]
    constructor
    · rintro ⟨⟩
      exact ⟨rfl, rfl, hlength⟩
    · rintro ⟨rfl, rfl, -⟩
      rfl

variable {h : ScoredHit}

theorem def_site (hh : h ∈ candidates x idx terms) (hkind : h.kind = .def_) :
    (h.file, h.line) ∈ idx.defSites h.name h.lang :=
  (exists_def_candidate.1 ⟨h, hh, hkind, rfl, rfl, rfl⟩).1

theorem of_entityKey (hh : h ∈ candidates x idx terms) :
    (entityKey idx h).of idx h.name h.lang = true := by
  unfold entityKey
  cases hkind : h.kind with
  | def_ => exact of_defSites (def_site hh hkind)
  | ref => exact of_referenceKey idx h.name h.lang

/-- The row the call references are of carries their count, and the other rows none. -/
theorem degreeOf_eq (hh : h ∈ candidates x idx terms) : degreeOf idx h =
    if entityKey idx h = referenceKey idx h.name h.lang then idx.referenceDegree h.name h.lang
    else 0 := by
  unfold degreeOf entityKey
  cases hkind : h.kind with
  | ref =>
    rcases referenceKey_cases idx h.name h.lang with ⟨file, line, hsites, hkey⟩ | ⟨-, hkey⟩
    · simp only [hkey, hsites, List.length_singleton, lt_irrefl, if_true, if_false]
    · simp only [hkey, if_true]
  | def_ =>
    have hsite := def_site hh hkind
    rcases referenceKey_cases idx h.name h.lang with ⟨file, line, hsites, hkey⟩ | ⟨hlength, hkey⟩
    · rw [hsites, List.mem_singleton] at hsite
      cases hsite
      simp only [hkey, hsites, List.length_singleton, lt_irrefl, if_true, if_false]
    · have hseveral : 1 < (idx.defSites h.name h.lang).length := by
        have hpos := List.length_pos_of_mem hsite
        omega
      simp only [hkey, hseveral, if_true, reduceCtorEq, if_false]

end

/-! ## The page -/

section
variable (x : Alphabet) (idx : IndexedFiles) (terms : List String)

/-- The candidate a line shows, the first of its best ranked. -/
def lineShows : Slot → Option ScoredHit :=
  leader ScoredHit.slot ScoredHit.rank (candidates x idx terms)

/-- A line shows a definition of the name. -/
def ShowsDef (name : String) (s : Slot) : Prop :=
  ∃ h, lineShows x idx terms s = some h ∧ h.kind = .def_ ∧ h.name = name

/-- Some line shows a call reference of the name and language. -/
def ShowsRef (name : String) (lang : Lang) : Prop :=
  ∃ s h, lineShows x idx terms s = some h ∧ h.kind = .ref ∧ h.name = name ∧ h.lang = lang

/-- What a page of entities and their rows holds. -/
structure Faithful (page : List (EntityKey × RankedRef)) : Prop where
  nodup : (page.map Prod.fst).Nodup
  def_iff : ∀ name file line, .def_ name file line ∈ page.map Prod.fst ↔
    ShowsDef x idx terms name ⟨file, line⟩ ∨
      ∃ lang, idx.defSites name lang = [(file, line)] ∧ ShowsRef x idx terms name lang
  standalone_iff : ∀ name lang, .standalone name lang ∈ page.map Prod.fst ↔
    (idx.defSites name lang).length ≠ 1 ∧ ShowsRef x idx terms name lang
  row : ∀ r ∈ page, ∃ h, lineShows x idx terms ⟨r.2.loc.file, r.2.loc.line⟩ = some h ∧
    r = (entityKey idx h, rankedRef idx h)
  degrees : ∀ name lang, ((page.filter fun r => r.1.of idx name lang).map fun r => r.2.degree).sum =
    if referenceKey idx name lang ∈ page.map Prod.fst then idx.referenceDegree name lang else 0

/-- What lines show: matches, and of a line whose matches are all of one definition, or all of one
name's call references, one of these. -/
structure Shows : Prop where
  def_site : ∀ name s, ShowsDef x idx terms name s →
    Matches terms name ∧ ∃ lang, (s.file, s.line) ∈ idx.defSites name lang
  ref_site : ∀ name lang, ShowsRef x idx terms name lang →
    Matches terms name ∧ ∃ s, CallAt idx name lang s
  def_alone : ∀ name lang s, (s.file, s.line) ∈ idx.defSites name lang → Matches terms name →
    (∀ h ∈ candidates x idx terms, h.slot = s → h.kind = .def_ ∧ h.name = name) →
    ShowsDef x idx terms name s
  ref_alone : ∀ name lang s, CallAt idx name lang s → Matches terms name →
    (∀ h ∈ candidates x idx terms, h.slot = s → h.kind = .ref ∧ h.name = name ∧ h.lang = lang) →
    ShowsRef x idx terms name lang

/-- The entities of the whole page with their rows. -/
def wholePage : List (EntityKey × RankedRef) :=
  (firsts (entityKey idx) (scoredHits x idx terms)).map fun h => (entityKey idx h, rankedRef idx h)

end

section
variable {x : Alphabet} {idx : IndexedFiles} {terms : List String} {h : ScoredHit}

theorem mem_scoredHits : h ∈ scoredHits x idx terms ↔ lineShows x idx terms h.slot = some h := by
  unfold scoredHits
  rw [List.mem_mergeSort]
  exact mem_shown

theorem mem_candidates_of_scored (hh : h ∈ scoredHits x idx terms) : h ∈ candidates x idx terms :=
  (leader_eq_some (mem_scoredHits.1 hh)).1

theorem map_fst_wholePage : (wholePage x idx terms).map Prod.fst =
    (firsts (entityKey idx) (scoredHits x idx terms)).map (entityKey idx) := by
  unfold wholePage
  rw [List.map_map]
  rfl

theorem groundRanked_eq {query : String} (hterms : queryTerms x query ≠ []) (k : ℕ) :
    groundRanked x idx query k = ((wholePage x idx (queryTerms x query)).map Prod.snd).take k := by
  have hquery : query.isEmpty = false := by
    rw [← Bool.not_eq_true]
    intro hempty
    rw [String.isEmpty_iff] at hempty
    subst hempty
    exact hterms rfl
  unfold groundRanked wholePage
  rw [hquery, Bool.false_or, List.map_map]
  by_cases hk : k = 0
  · rw [if_pos (by rw [hk]; rfl), hk, List.take_zero]
  · rw [if_neg (by simpa using hk), if_neg (by simpa using hterms), page_eq _ hk]
    rfl

theorem mem_keys {key : EntityKey} : key ∈ (wholePage x idx terms).map Prod.fst ↔
    ∃ s h, lineShows x idx terms s = some h ∧ entityKey idx h = key := by
  rw [map_fst_wholePage, mem_firsts_map]
  constructor
  · rintro ⟨h, hh, hkey⟩
    exact ⟨h.slot, h, mem_scoredHits.1 hh, hkey⟩
  · rintro ⟨s, h, hshows, hkey⟩
    refine ⟨h, mem_scoredHits.2 ?_, hkey⟩
    rw [(leader_eq_some hshows).2]
    exact hshows

/-- Of the rows of a name and language, the one the call references are of counts. -/
theorem degrees_wholePage (name : String) (lang : Lang) :
    (((wholePage x idx terms).filter fun r => r.1.of idx name lang).map fun r => r.2.degree).sum =
      if referenceKey idx name lang ∈ (wholePage x idx terms).map Prod.fst then
        idx.referenceDegree name lang else 0 := by
  have hrows : ((wholePage x idx terms).filter fun r => r.1.of idx name lang).map
      (fun r => r.2.degree) =
        ((firsts (entityKey idx) (scoredHits x idx terms)).filter fun h =>
          (entityKey idx h).of idx name lang).map fun h =>
            if entityKey idx h = referenceKey idx name lang then idx.referenceDegree name lang
            else 0 := by
    unfold wholePage
    rw [List.filter_map, List.map_map]
    refine List.map_congr_left fun h hh => ?_
    obtain ⟨hh, hof⟩ := List.mem_filter.1 hh
    have hcandidate := mem_candidates_of_scored (mem_of_mem_firsts hh)
    obtain ⟨hname, hlang⟩ := EntityKey.of_inj (of_entityKey hcandidate) hof
    show degreeOf idx h = _
    rw [degreeOf_eq hcandidate, hname, hlang]
  have hnodup : (((firsts (entityKey idx) (scoredHits x idx terms)).filter fun h =>
      (entityKey idx h).of idx name lang).map (entityKey idx)).Nodup :=
    (nodup_firsts_map (scoredHits x idx terms)).sublist (List.filter_sublist.map _)
  have hmem : referenceKey idx name lang ∈
      ((firsts (entityKey idx) (scoredHits x idx terms)).filter fun h =>
        (entityKey idx h).of idx name lang).map (entityKey idx) ↔
      referenceKey idx name lang ∈ (wholePage x idx terms).map Prod.fst := by
    rw [map_fst_wholePage, List.mem_map, List.mem_map]
    refine exists_congr fun h => ⟨fun hh => ⟨List.mem_of_mem_filter hh.1, hh.2⟩, fun hh => ?_⟩
    exact ⟨List.mem_filter.2 ⟨hh.1, by rw [hh.2]; exact of_referenceKey idx name lang⟩, hh.2⟩
  rw [hrows, sum_of_nodup hnodup]
  simp only [hmem]

theorem faithful_wholePage : Faithful x idx terms (wholePage x idx terms) where
  nodup := by
    rw [map_fst_wholePage]
    exact nodup_firsts_map _
  def_iff name file line := by
    rw [mem_keys]
    constructor
    · rintro ⟨s, h, hshows, hkey⟩
      unfold entityKey at hkey
      cases hkind : h.kind with
      | def_ =>
        rw [hkind] at hkey
        cases hkey
        refine .inl ⟨h, ?_, hkind, rfl⟩
        rw [← (leader_eq_some hshows).2] at hshows
        exact hshows
      | ref =>
        rw [hkind] at hkey
        obtain ⟨hname, hsites⟩ := referenceKey_eq_def.1 hkey
        exact .inr ⟨h.lang, hname ▸ hsites, s, h, hshows, hkind, hname.symm, rfl⟩
    · rintro (⟨h, hshows, hkind, rfl⟩ | ⟨lang, hsites, s, h, hshows, hkind, rfl, rfl⟩)
      · refine ⟨_, h, hshows, ?_⟩
        have hslot := (leader_eq_some hshows).2
        rw [entityKey, hkind]
        cases hslot
        rfl
      · exact ⟨s, h, hshows, by rw [entityKey, hkind]; exact referenceKey_eq_def.2 ⟨rfl, hsites⟩⟩
  standalone_iff name lang := by
    rw [mem_keys]
    constructor
    · rintro ⟨s, h, hshows, hkey⟩
      unfold entityKey at hkey
      cases hkind : h.kind with
      | def_ =>
        rw [hkind] at hkey
        cases hkey
      | ref =>
        rw [hkind] at hkey
        obtain ⟨hname, hlang, hlength⟩ := referenceKey_eq_standalone.1 hkey
        exact ⟨hname ▸ hlang ▸ hlength, s, h, hshows, hkind, hname.symm, hlang.symm⟩
    · rintro ⟨hlength, s, h, hshows, hkind, rfl, rfl⟩
      exact ⟨s, h, hshows,
        by rw [entityKey, hkind]; exact referenceKey_eq_standalone.2 ⟨rfl, rfl, hlength⟩⟩
  row r hr := by
    obtain ⟨h, hh, rfl⟩ := List.mem_map.1 hr
    exact ⟨h, mem_scoredHits.1 (mem_of_mem_firsts hh), rfl⟩
  degrees name lang := degrees_wholePage name lang

theorem exists_lineShows (hh : h ∈ candidates x idx terms) :
    ∃ h', lineShows x idx terms h.slot = some h' := by
  refine Option.ne_none_iff_exists'.1 fun hnone => ?_
  rw [lineShows, leader, List.argmin_eq_none, List.filter_eq_nil_iff] at hnone
  exact hnone h hh (decide_eq_true rfl)

theorem shows : Shows x idx terms where
  def_site := by
    rintro name s ⟨h, hshows, hkind, rfl⟩
    obtain ⟨hh, rfl⟩ := leader_eq_some hshows
    obtain ⟨hsite, hmatches⟩ := exists_def_candidate.1 ⟨h, hh, hkind, rfl, rfl, rfl⟩
    exact ⟨hmatches, h.lang, hsite⟩
  ref_site := by
    rintro name lang ⟨s, h, hshows, hkind, rfl, rfl⟩
    obtain ⟨hh, rfl⟩ := leader_eq_some hshows
    obtain ⟨hcall, hmatches⟩ := exists_ref_candidate.1 ⟨h, hh, hkind, rfl, rfl, rfl⟩
    exact ⟨hmatches, h.slot, hcall⟩
  def_alone name lang s hsite hmatches halone := by
    obtain ⟨h, hh, -, -, -, rfl⟩ := exists_def_candidate.2 ⟨hsite, hmatches⟩
    obtain ⟨h', hshows⟩ := exists_lineShows hh
    obtain ⟨hh', hslot⟩ := leader_eq_some hshows
    obtain ⟨hkind, hname⟩ := halone h' hh' hslot
    exact ⟨h', hshows, hkind, hname⟩
  ref_alone name lang s hcall hmatches halone := by
    obtain ⟨h, hh, -, -, -, rfl⟩ := exists_ref_candidate.2 ⟨hcall, hmatches⟩
    obtain ⟨h', hshows⟩ := exists_lineShows hh
    obtain ⟨hh', hslot⟩ := leader_eq_some hshows
    exact ⟨h.slot, h', hshows, halone h' hh' hslot⟩

/-- Pages are the first rows of one whole page, which has a row for each definition a line shows,
for each definition that is the only one of its name and language and a shown call reference of
these, and for the shown call references of each name and language with no definition or several;
the rows of a name and language add up to its call references where the row those are of is there,
and no call reference is of a row of another language. -/
theorem rankedPage_rows (x : Alphabet) (idx : IndexedFiles) (query : String)
    (hterms : queryTerms x query ≠ []) :
    (∀ k k', k ≤ k' → groundRanked x idx query k = (groundRanked x idx query k').take k) ∧
    (∃ page, Faithful x idx (queryTerms x query) page ∧
      ∀ k, groundRanked x idx query k = (page.map Prod.snd).take k) ∧
    Shows x idx (queryTerms x query) ∧
    ∀ name lang, (referenceKey idx name lang).of idx name lang = true := by
  refine ⟨fun k k' hk => ?_, ⟨_, faithful_wholePage, groundRanked_eq hterms⟩, shows,
    of_referenceKey idx⟩
  rw [groundRanked_eq hterms, groundRanked_eq hterms, List.take_take, Nat.min_eq_left hk]

end

/-! ## Two definitions on one line -/

def plainAlphabet : Alphabet := ⟨Char.isAlphanum, id⟩

def functionAt (name : String) (line : ℕ) : Def :=
  ⟨.function, name, line, name, none, false, false, none, none⟩

def sharedLine : IndexedFiles :=
  (∅ : IndexedFiles).insert "a.rs"
    ⟨.rust, [functionAt "alpha_run" 1, functionAt "beta_run" 1], [], false⟩

theorem queryTerms_run : queryTerms plainAlphabet "run" = ["run"] := by decide

/-- The pages of a line that holds two definitions. -/
theorem sharedLine_pages :
    (∃ page, Faithful plainAlphabet sharedLine ["run"] page ∧
      ∀ k, groundRanked plainAlphabet sharedLine "run" k = (page.map Prod.snd).take k) ∧
    Shows plainAlphabet sharedLine ["run"] ∧
    groundRanked plainAlphabet sharedLine "run" 1 =
      (groundRanked plainAlphabet sharedLine "run" 2).take 1 := by
  obtain ⟨hpages, hpage, hshows, -⟩ := rankedPage_rows plainAlphabet sharedLine "run"
    (by rw [queryTerms_run]; decide)
  rw [queryTerms_run] at hpage hshows
  exact ⟨hpage, hshows, hpages 1 2 (by decide)⟩

/-- The line shows the first of its definitions, and no page has a row of the second. -/
theorem shared_line_hides : ("a.rs", 1) ∈ sharedLine.defSites "beta_run" .rust ∧
    Matches (queryTerms plainAlphabet "run") "beta_run" ∧
    ∀ k, ∀ r ∈ groundRanked plainAlphabet sharedLine "run" k, r.loc.text ≠ "beta_run" := by
  rw [queryTerms_run]
  refine ⟨by decide, ⟨"run", List.mem_cons_self, by decide⟩, fun k r hr htext => ?_⟩
  rw [groundRanked_eq (by rw [queryTerms_run]; decide), queryTerms_run] at hr
  obtain ⟨row, hrow, rfl⟩ := List.mem_map.1 (List.mem_of_mem_take hr)
  obtain ⟨h, hshows, rfl⟩ := faithful_wholePage.row row hrow
  have hslot : ∀ h ∈ candidates plainAlphabet sharedLine ["run"], h.slot = ⟨"a.rs", 1⟩ := by
    decide +kernel
  have hfirst : (lineShows plainAlphabet sharedLine ["run"] ⟨"a.rs", 1⟩).map ScoredHit.name =
      some "alpha_run" := by
    decide +kernel
  obtain ⟨hh, -⟩ := leader_eq_some hshows
  rw [show (⟨(rankedRef sharedLine h).loc.file, (rankedRef sharedLine h).loc.line⟩ : Slot) = _ from
    hslot h hh] at hshows
  rw [hshows, Option.map_some, Option.some_inj] at hfirst
  exact absurd (htext.symm.trans hfirst) (by decide)

end Rigger.Grounder
