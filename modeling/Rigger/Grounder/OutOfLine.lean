import Rigger.Lib.Cut
import Rigger.Lib.LogicalPath
import Rigger.Lib.Worklist

/-!
# Out-of-line test modules (`rigger-grounder/src/grounder/symbols/events.rs`)

A `mod name;` names a file: by its `#[path]`, or by the directory and the name of the file that
declares it.  The files test modules name, and the files they name in turn, hold test code only;
they are collected by a worklist.
-/

namespace Rigger.Grounder

open Lib

/-! ## Definitions -/

inductive Kind where
  | function | method | type | trait | impl | module | constant | constructor | macro_ | declaration
  | static | variant | field | variable | property | other
deriving DecidableEq

structure Def where
  kind : Kind
  name : String
  line : ℕ
  path : String
  parent : Option String
  isTest : Bool
  isOutOfLineModule : Bool
  pathOverride : Option String
  enclosingInlineModulePath : Option String

/-! ## Candidates -/

def dirOf (path : String) : String := ((rsplitOnce '/' path).map Prod.fst).getD ""

/-- The last segment. -/
def baseOf (path : String) : String := ((rsplitOnce '/' path).map Prod.snd).getD path

def joinUnder (base rest : String) : String := if base.isEmpty then rest else base ++ "/" ++ rest

def pushSegment (stack : List String) (segment : String) : Option (List String) :=
  if segment = "" ∨ segment = "." then some stack
  else if segment = ".." then
    if stack = [] then none else some stack.dropLast
  else some (stack ++ [segment])

def normalizeLogicalPath (path : String) : Option String :=
  ((segments path).foldlM pushSegment []).map ("/".intercalate ·)

def pathOverrideNamesAnUnresolvableShape (p : String) : Bool :=
  if p.toList.head? = some '/' then true
  else if (splitAround "://".toList p.toList).isSome then true
  else
    match p.toList with
    | c :: ':' :: _ => c.isAlpha
    | _ => false

/-- Whether a file's name owns its own directory. -/
def ownsDirectory (base : String) : Prop := base = "mod.rs" ∨ base = "lib.rs" ∨ base = "main.rs"

instance (base : String) : Decidable (ownsDirectory base) := instDecidableOr

/-- `strip_suffix(".rs")`, or the name itself. -/
def stemOf (base : String) : String :=
  if ".rs".toList <:+ base.toList then String.ofList (base.toList.take (base.toList.length - 3))
  else base

def moduleDir (path : String) : String :=
  if ownsDirectory (baseOf path) then dirOf path else joinUnder (dirOf path) (stemOf (baseOf path))

def inlineDir (declaringPath : String) (d : Def) : String :=
  match d.enclosingInlineModulePath with
  | some chain => joinUnder (moduleDir declaringPath) chain
  | none => moduleDir declaringPath

/-- The directory an override is joined under. -/
def overrideBase (declaringPath : String) (d : Def) : String :=
  match d.enclosingInlineModulePath with
  | some _ => inlineDir declaringPath d
  | none => dirOf declaringPath

def moduleCandidates (declaringPath : String) (d : Def) : List String :=
  match d.pathOverride with
  | some p =>
    if pathOverrideNamesAnUnresolvableShape p then []
    else (normalizeLogicalPath (joinUnder (overrideBase declaringPath d) p)).toList
  | none => [d.name ++ ".rs", d.name ++ "/mod.rs"].map (joinUnder (inlineDir declaringPath d))

/-! ## The index -/

/-- A module's name is one segment, and the inline modules around it are a path of names. -/
structure Named (d : Def) : Prop where
  name : Clean d.name ∧ '/' ∉ d.name.toList
  chain : ∀ chain, d.enclosingInlineModulePath = some chain → CleanPath chain

/-- The definitions of each file, by its path in the project. -/
structure SymbolIndex where
  files : Std.ExtTreeMap String (List Def)
  clean : ∀ path ∈ files, CleanPath path
  named : ∀ (path : String) defs, files[path]? = some defs → ∀ d ∈ defs,
    d.isOutOfLineModule → Named d

section
variable (idx : SymbolIndex)

def resolveOutOfLineTarget (declaringPath : String) (d : Def) : Option String :=
  (moduleCandidates declaringPath d).find? fun candidate => idx.files.contains candidate

/-- The targets of a file's out-of-line modules of which `marked` holds. -/
def targets (marked : Def → Bool) (path : String) : List String :=
  ((idx.files[path]?).getD []).filterMap fun d =>
    if d.kind = .module ∧ d.isOutOfLineModule ∧ marked d then resolveOutOfLineTarget idx
      path d else none

/-- The seeds in the order of the files, each pushed once, and then the worklist. -/
def outOfLineTestModuleFiles (fuel : ℕ) : Option (Std.ExtTreeSet String) :=
  Worklist.run (targets idx fun _ => true) fuel
    ((idx.files.keys.flatMap (targets idx Def.isTest)).foldl Worklist.push ⟨∅, []⟩)

end

/-! ## The closure -/

/-- Some file of the index declares the module, out of line. -/
def Declares (idx : SymbolIndex) (path : String) (d : Def) : Prop :=
  ∃ defs, idx.files[path]? = some defs ∧ d ∈ defs ∧ d.kind = .module ∧ d.isOutOfLineModule

/-- Holds the target of every test module, and with a file those of all its modules. -/
structure TestClosed (idx : SymbolIndex) (files : String → Prop) : Prop where
  seeds : ∀ path d target, Declares idx path d → d.isTest →
    resolveOutOfLineTarget idx path d = some target → files target
  closed : ∀ path d target, files path → Declares idx path d →
    resolveOutOfLineTarget idx path d = some target → files target

section
variable {idx : SymbolIndex} {path target : String}

theorem mem_targets {marked : Def → Bool} : target ∈ targets idx marked path ↔
    ∃ d, Declares idx path d ∧ marked d ∧ resolveOutOfLineTarget idx path d = some target := by
  unfold targets Declares
  simp only [List.mem_filterMap, Option.ite_none_right_eq_some]
  constructor
  · rintro ⟨d, hd, ⟨hkind, hmodule, hmarked⟩, htarget⟩
    cases hdefs : idx.files[path]? with
    | none =>
      rw [hdefs] at hd
      cases hd
    | some defs =>
      rw [hdefs] at hd
      exact ⟨d, ⟨defs, rfl, hd, hkind, hmodule⟩, hmarked, htarget⟩
  · rintro ⟨d, ⟨defs, hdefs, hd, hkind, hmodule⟩, hmarked, htarget⟩
    exact ⟨d, by rw [hdefs]; exact hd, ⟨hkind, hmodule, hmarked⟩, htarget⟩

theorem mem_files_of_target {d : Def} (h : resolveOutOfLineTarget idx path d = some target) :
    target ∈ idx.files :=
  Std.ExtTreeMap.contains_iff_mem.1 (List.find?_some h)

theorem targets_bounded (path : String) : ∀ target ∈ targets idx (fun _ => true) path,
    target ∈ idx.files.keys := by
  intro target htarget
  obtain ⟨d, -, -, hresolve⟩ := mem_targets.1 htarget
  exact Std.ExtTreeMap.mem_keys.2 (mem_files_of_target hresolve)

theorem mem_seeds : target ∈ idx.files.keys.flatMap (targets idx Def.isTest) ↔
    ∃ path d, Declares idx path d ∧ d.isTest ∧ resolveOutOfLineTarget idx path d = some target := by
  rw [List.mem_flatMap]
  constructor
  · rintro ⟨path, -, htarget⟩
    obtain ⟨d, hd⟩ := mem_targets.1 htarget
    exact ⟨path, d, hd⟩
  · rintro ⟨path, d, hdeclares, hrest⟩
    have hpath : path ∈ idx.files.keys := by
      obtain ⟨defs, hdefs, -⟩ := hdeclares
      rw [Std.ExtTreeMap.mem_keys, Std.ExtTreeMap.mem_iff_isSome_getElem?, hdefs]
      rfl
    exact ⟨path, hpath, mem_targets.2 ⟨d, hdeclares, hrest⟩⟩

/-- The worklist ends with the least closed set, of files of the index. -/
theorem outOfLineTestModuleFiles_least (idx : SymbolIndex) :
    ∃ files, Ends (outOfLineTestModuleFiles idx) files ∧ TestClosed idx (· ∈ files) ∧
      (∀ other, TestClosed idx other → ∀ path ∈ files, other path) ∧ ∀ path ∈ files,
        path ∈ idx.files := by
  obtain ⟨files, hends, hfiles⟩ := Worklist.run_pushes (targets idx fun _ => true) targets_bounded
    (idx.files.keys.flatMap (targets idx Def.isTest))
  refine ⟨files, hends, ⟨?_, ?_⟩, ?_, ?_⟩
  · intro path d target hdeclares htest hresolve
    exact (hfiles target).2 ⟨target, mem_seeds.2 ⟨path, d, hdeclares, htest, hresolve⟩, .refl⟩
  · intro path d target hpath hdeclares hresolve
    obtain ⟨seed, hseed, hreach⟩ := (hfiles path).1 hpath
    exact (hfiles target).2 ⟨seed, hseed, hreach.tail (mem_targets.2 ⟨d, hdeclares, rfl, hresolve⟩)⟩
  · intro other hother path hpath
    obtain ⟨seed, hseed, hreach⟩ := (hfiles path).1 hpath
    induction hreach with
    | refl =>
      obtain ⟨from_, d, hdeclares, htest, hresolve⟩ := mem_seeds.1 hseed
      exact hother.seeds from_ d _ hdeclares htest hresolve
    | @tail from_ target hfrom hstep ih =>
      obtain ⟨d, hdeclares, -, hresolve⟩ := mem_targets.1 hstep
      exact hother.closed from_ d target
        (ih ((hfiles from_).2 ⟨seed, hseed, hfrom⟩)) hdeclares hresolve
  · intro path hpath
    obtain ⟨seed, hseed, hreach⟩ := (hfiles path).1 hpath
    induction hreach with
    | refl =>
      obtain ⟨_, d, -, -, hresolve⟩ := mem_seeds.1 hseed
      exact mem_files_of_target hresolve
    | tail _ hstep _ =>
      obtain ⟨d, -, -, hresolve⟩ := mem_targets.1 hstep
      exact mem_files_of_target hresolve

end

/-! ## Overrides -/

theorem pushSegment_dotdot (stack : List String) (name : String) :
    pushSegment (stack ++ [name]) ".." = some stack := by
  rw [pushSegment, if_neg (by decide), if_pos rfl, if_neg (by simp), List.dropLast_concat]

theorem pushSegment_of_clean {segment : String} (h : Clean segment) (stack : List String) :
    pushSegment stack segment = some (stack ++ [segment]) := by
  obtain ⟨hempty, hdot, hup⟩ := h
  rw [pushSegment, if_neg (by simp [hempty, hdot]), if_neg hup]

/-- The fold of the segments is the lexical resolution. -/
theorem foldlM_pushSegment {stack path names : List String} :
    path.foldlM pushSegment stack = some names ↔ Resolves stack path names := by
  constructor
  · intro h
    induction path generalizing stack with
    | nil =>
      cases h
      exact .done _
    | cons segment rest ih =>
      rw [List.foldlM_cons] at h
      obtain ⟨next, hpush, hrest⟩ := Option.bind_eq_some_iff.1 h
      have hresolves := ih hrest
      unfold pushSegment at hpush
      split at hpush
      · next hstay =>
        cases hpush
        exact .stay hstay hresolves
      · next hstay =>
        split at hpush
        · next hup =>
          subst hup
          split at hpush
          · cases hpush
          · next hne =>
            cases hpush
            rw [← List.dropLast_append_getLast hne]
            exact .up _ hresolves
        · next hup =>
          cases hpush
          exact .down ⟨fun h => hstay (.inl h), fun h => hstay (.inr h), hup⟩ hresolves
  · intro h
    induction h with
    | done stack => rfl
    | stay hsegment _ ih =>
      rw [List.foldlM_cons, pushSegment, if_pos hsegment]
      exact ih
    | up name _ ih =>
      rw [List.foldlM_cons, pushSegment_dotdot]
      exact ih
    | down hsegment _ ih =>
      rw [List.foldlM_cons, pushSegment_of_clean hsegment]
      exact ih

theorem normalizeLogicalPath_eq_some {path file : String} : normalizeLogicalPath path = some file ↔
    ∃ names, Resolves [] (segments path) names ∧ "/".intercalate names = file := by
  rw [normalizeLogicalPath, Option.map_eq_some_iff]
  simp only [foldlM_pushSegment]

theorem normalizeLogicalPath_eq_none {path : String} : normalizeLogicalPath path = none ↔
    ∀ names, ¬Resolves [] (segments path) names := by
  rw [normalizeLogicalPath, Option.map_eq_none_iff, Option.eq_none_iff_forall_ne_some]
  exact forall_congr' fun names => not_congr foldlM_pushSegment

/-- What an override names: nothing of a shape no path of the project has or where it climbs above
the root, and else the one file it resolves to on its base directory. -/
structure OverrideOf (path : String) (d : Def) (p : String) : Prop where
  shape : pathOverrideNamesAnUnresolvableShape p → moduleCandidates path d = []
  climbs : (∀ names, ¬Resolves [] (segments (joinUnder (overrideBase path d) p)) names) →
    moduleCandidates path d = []
  file : ¬pathOverrideNamesAnUnresolvableShape p → ∀ names,
    Resolves [] (segments (joinUnder (overrideBase path d) p)) names →
      moduleCandidates path d = ["/".intercalate names]

variable {d : Def} {base : String}

theorem overrideOf {path p : String} (h : d.pathOverride = some p) : OverrideOf path d p where
  shape hshape := by
    rw [moduleCandidates, h]
    exact if_pos hshape
  climbs hnone := by
    rw [moduleCandidates, h]
    dsimp only
    rw [normalizeLogicalPath_eq_none.2 hnone]
    split <;> rfl
  file hshape names hnames := by
    rw [moduleCandidates, h]
    dsimp only
    rw [if_neg hshape, normalizeLogicalPath_eq_some.2 ⟨names, hnames, rfl⟩]
    rfl

/-! ## Names -/

/-- The segments of what a directory is joined before. -/
def under (base : String) : List String := if base.isEmpty then [] else segments base

theorem segments_joinUnder (base rest : String) :
    segments (joinUnder base rest) = under base ++ segments rest := by
  unfold joinUnder under
  split
  · rw [List.nil_append]
  · exact segments_append base rest

theorem clean_under (h : base = "" ∨ CleanPath base) : ∀ segment ∈ under base, Clean segment := by
  unfold under
  split
  · simp
  · next hne =>
    exact h.resolve_left fun hempty => hne (by rw [hempty]; rfl)

/-- The last segment of a path of names is a name, under the root or a path of names. -/
theorem clean_cut {path : String} (h : CleanPath path) :
    (dirOf path = "" ∨ CleanPath (dirOf path)) ∧ Clean (baseOf path) ∧
    '/' ∉ (baseOf path).toList := by
  unfold dirOf baseOf
  cases hcut : rsplitOnce '/' path with
  | none =>
    rw [rsplitOnce, Option.map_eq_none_iff, rsplitOnceList_eq_none_iff] at hcut
    refine ⟨.inl rfl, ?_, hcut⟩
    exact h path (by rw [segments_of_free hcut]; exact List.mem_singleton.2 rfl)
  | some p =>
    obtain ⟨hpath, hbase⟩ := (rsplitOnce_eq_some_iff '/' path p.1 p.2).1 hcut
    have hsegments : segments path = segments p.1 ++ [p.2] := by
      rw [hpath]
      exact (segments_append p.1 p.2).trans (by rw [segments_of_free hbase])
    rw [CleanPath, hsegments, List.forall_mem_append, List.forall_mem_singleton] at h
    exact ⟨.inr h.1, h.2, hbase⟩

theorem free_stemOf (h : '/' ∉ base.toList) : '/' ∉ (stemOf base).toList := by
  unfold stemOf
  split
  · rw [String.toList_ofList]
    exact fun hmem => h (List.mem_of_mem_take hmem)
  · exact h

/-- A file whose own directory its modules are looked up in, one at the root without a stem, or one
whose stem is a name. -/
def StemNames (path : String) : Prop :=
  ownsDirectory (baseOf path) ∨ dirOf path = "" ∧ stemOf (baseOf path) = "" ∨
    Clean (stemOf (baseOf path))

theorem under_moduleDir {path : String} (h : CleanPath path) :
    (∀ segment ∈ under (moduleDir path), Clean segment) ↔ StemNames path := by
  obtain ⟨hdir, -, hfree⟩ := clean_cut h
  have hdirs := clean_under hdir
  have hstem := segments_of_free (free_stemOf hfree)
  unfold moduleDir StemNames
  by_cases howns : ownsDirectory (baseOf path)
  · rw [if_pos howns]
    exact iff_of_true hdirs (.inl howns)
  · rw [if_neg howns]
    by_cases hroot : dirOf path = "" ∧ stemOf (baseOf path) = ""
    · rw [hroot.1, hroot.2]
      exact iff_of_true (by simp [under, joinUnder]) (.inr (.inl ⟨rfl, rfl⟩))
    · have hne : (joinUnder (dirOf path) (stemOf (baseOf path))).isEmpty = false := by
        rw [Bool.eq_false_iff, ne_eq, String.isEmpty_iff]
        unfold joinUnder
        split
        · next hdirempty => exact fun hempty => hroot ⟨String.isEmpty_iff.1 hdirempty, hempty⟩
        · simp
      rw [under, if_neg (by rw [hne]; decide), segments_joinUnder, hstem, List.forall_mem_append,
        List.forall_mem_singleton]
      constructor
      · exact fun hclean => .inr (.inr hclean.2)
      · exact fun hnames => ⟨hdirs, (hnames.resolve_left howns).resolve_left hroot⟩

/-- A file that a module's name gives is a path of names where the directory before it is. -/
theorem clean_named (h : Named d) (directory : String) :
    (∀ leaf ∈ [d.name ++ ".rs", d.name ++ "/mod.rs"], CleanPath (joinUnder directory leaf)) ↔
      ∀ segment ∈ under directory, Clean segment := by
  obtain ⟨hname, hfree⟩ := h.name
  have hflat : segments (d.name ++ ".rs") = [d.name ++ ".rs"] := segments_of_free (by simp [hfree])
  have hnested : segments (d.name ++ "/mod.rs") = [d.name, "mod.rs"] := by
    have hjoin : d.name ++ "/mod.rs" = d.name ++ "/" ++ "mod.rs" := by
      rw [String.append_assoc]
      rfl
    have hleaf : segments "mod.rs" = ["mod.rs"] := segments_of_free (by simp)
    rw [hjoin, segments_append, segments_of_free hfree, hleaf]
    rfl
  have hlong : Clean (d.name ++ ".rs") := by
    have hlength : (d.name ++ ".rs").toList.length = d.name.toList.length + 3 := by simp
    have hne : ∀ s : String, s.toList.length < 3 → d.name ++ ".rs" ≠ s := by
      rintro s hs rfl
      omega
    exact ⟨hne "" (by decide), hne "." (by decide), hne ".." (by decide)⟩
  simp only [CleanPath, List.forall_mem_cons, List.not_mem_nil, IsEmpty.forall_iff, implies_true,
    and_true, segments_joinUnder, hflat, hnested, List.forall_mem_append]
  constructor
  · exact fun hclean => hclean.1.1
  · exact fun hdirectory => ⟨⟨hdirectory, hlong⟩, hdirectory, hname, by decide⟩

theorem under_inlineDir {path : String} (h : CleanPath path) (hnamed : Named d) :
    (∀ segment ∈ under (inlineDir path d), Clean segment) ↔ StemNames path := by
  rw [← under_moduleDir h]
  unfold inlineDir
  split
  · next chain hchain =>
    have hclean := hnamed.chain chain hchain
    have hne : (joinUnder (moduleDir path) chain).isEmpty = false := by
      rw [Bool.eq_false_iff, ne_eq, String.isEmpty_iff]
      unfold joinUnder
      split
      · exact hclean.ne_empty
      · simp
    rw [under, if_neg (by rw [hne]; decide), segments_joinUnder, List.forall_mem_append]
    exact ⟨fun hall => hall.1, fun hdirectory => ⟨hdirectory, hclean⟩⟩
  · exact Iff.rfl

/-- Where every candidate is a path of names: without an override, where the declaring file's name
gives a directory; with one, where it does not lead to the root itself. -/
def Resolvable (path : String) (d : Def) : Prop :=
  match d.pathOverride with
  | none => StemNames path
  | some p => ¬pathOverrideNamesAnUnresolvableShape p →
      ¬Resolves [] (segments (joinUnder (overrideBase path d) p)) []

theorem candidates_clean {path : String} (h : CleanPath path) (hnamed : Named d) :
    (∀ c ∈ moduleCandidates path d, CleanPath c) ↔ Resolvable path d := by
  unfold Resolvable
  cases hoverride : d.pathOverride with
  | none =>
    rw [moduleCandidates, hoverride, ← under_inlineDir h hnamed, ← clean_named hnamed]
    exact List.forall_mem_map
  | some p =>
    have hof : OverrideOf path d p := overrideOf hoverride
    dsimp only
    by_cases hshape : pathOverrideNamesAnUnresolvableShape p
    · rw [hof.shape hshape]
      exact iff_of_true (by simp) fun hnot => absurd hshape hnot
    · by_cases hnone : ∀ names, ¬Resolves [] (segments (joinUnder (overrideBase path d) p)) names
      · rw [hof.climbs hnone]
        exact iff_of_true (by simp) fun _ => hnone []
      · obtain ⟨names, hnames⟩ := not_forall_not.1 hnone
        rw [hof.file hshape names hnames, List.forall_mem_singleton]
        constructor
        · intro hclean _ hroot
          have hsame : names = [] := by
            have hfold := (foldlM_pushSegment.2 hnames).symm.trans (foldlM_pushSegment.2 hroot)
            exact Option.some.inj hfold
          rw [hsame] at hclean
          exact hclean.ne_empty String.intercalate_nil
        · intro hroot
          refine hnames.cleanPath ?_
          rintro rfl
          exact hroot hshape hnames

/-- The test files of an index are the least closed set of its files.  An override names one file at
most, what it resolves to; and the candidates of a module are paths of names exactly where the
declaring file's name gives a directory, or the override does not lead to the root itself. -/
theorem out_of_line_modules (idx : SymbolIndex) :
    (∃ files, Ends (outOfLineTestModuleFiles idx) files ∧ TestClosed idx (· ∈ files) ∧
      (∀ other, TestClosed idx other → ∀ path ∈ files, other path) ∧
      ∀ path ∈ files, path ∈ idx.files) ∧
    ∀ path d, Declares idx path d →
      (∀ p, d.pathOverride = some p → OverrideOf path d p) ∧
      ((∀ c ∈ moduleCandidates path d, CleanPath c) ↔ Resolvable path d) := by
  refine ⟨outOfLineTestModuleFiles_least idx, fun path d hdeclares => ⟨fun p => overrideOf, ?_⟩⟩
  obtain ⟨defs, hdefs, hd, -, hmodule⟩ := hdeclares
  have hpath : path ∈ idx.files := by
    rw [Std.ExtTreeMap.mem_iff_isSome_getElem?, hdefs]
    rfl
  exact candidates_clean (idx.clean path hpath) (idx.named path defs hdefs d hd hmodule)

/-- `#[path = "."] mod x;` at the top of `lib.rs`. -/
def rootOverride : Def := {
  kind := .module
  name := "x"
  line := 1
  path := "x"
  parent := none
  isTest := false
  isOutOfLineModule := true
  pathOverride := some "."
  enclosingInlineModulePath := none }

theorem named_rootOverride : Named rootOverride where
  name := ⟨by decide, by simp [rootOverride]⟩
  chain := nofun

def rootOverrideIndex : SymbolIndex where
  files := (∅ : Std.ExtTreeMap String (List Def)).insert "lib.rs" [rootOverride]
  clean path hpath := by
    rw [Std.ExtTreeMap.mem_insert] at hpath
    have heq : "lib.rs" = path :=
      Std.LawfulEqCmp.compare_eq_iff_eq.1 (hpath.resolve_right Std.ExtTreeMap.not_mem_empty)
    subst heq
    have hsegments : segments "lib.rs" = ["lib.rs"] := segments_of_free (by simp)
    rw [CleanPath, hsegments, List.forall_mem_singleton]
    decide
  named path defs hdefs d hd _ := by
    rw [Std.ExtTreeMap.getElem?_insert] at hdefs
    split at hdefs
    · cases hdefs
      rw [List.mem_singleton.1 hd]
      exact named_rootOverride
    · simp at hdefs

/-- It names the root, no file. -/
theorem rootOverride_names_root : ¬∀ (idx : SymbolIndex) (path : String) (d : Def),
    Declares idx path d → ∀ c ∈ moduleCandidates path d, CleanPath c := by
  intro h
  have hdeclares : Declares rootOverrideIndex "lib.rs" rootOverride :=
    ⟨[rootOverride], by simp [rootOverrideIndex], List.mem_singleton.2 rfl, rfl, rfl⟩
  have hcandidates : moduleCandidates "lib.rs" rootOverride = [""] := by decide
  have hclean := h _ _ _ hdeclares "" (by rw [hcandidates]; exact List.mem_singleton.2 rfl)
  exact hclean.ne_empty rfl

end Rigger.Grounder
