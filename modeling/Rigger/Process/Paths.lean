import Rigger.Lib.Utf8

/-!
# Working directories and the paths they read as (`rigger-process/src/reap.rs`)

The kernel writes a process's working directory as its path, with ` (deleted)` after it once it was
unlinked.  `is_inside` takes that text off the end of the lossily decoded link and compares the
rest with the base, component by component.  A live directory may itself be named so:
`isInside_link` says which directories read as one at or under the base.
-/

namespace Rigger.Reap

open Lib

abbrev Bytes := List UInt8

/-- A name a directory may hold: not empty, `.` or `..`, and without a slash. -/
def IsName (bytes : Bytes) : Prop := bytes ≠ [] ∧ bytes ≠ [46] ∧ bytes ≠ [46, 46] ∧ 47 ∉ bytes

instance (bytes : Bytes) : Decidable (IsName bytes) :=
  inferInstanceAs (Decidable (_ ∧ _ ∧ _ ∧ _))

structure FileName where
  bytes : Bytes
  isName : IsName bytes
deriving DecidableEq

def readName (part : Bytes) : Option FileName := if h : IsName part then some ⟨part, h⟩ else none

@[simp] theorem readName_bytes (name : FileName) : readName name.bytes = some name :=
  dif_pos name.isName

theorem readName_eq_some {part : Bytes} {name : FileName} :
    readName part = some name ↔ name.bytes = part := by
  constructor
  · intro h
    unfold readName at h
    split at h
    · cases h
      rfl
    · cases h
  · rintro rfl
    exact readName_bytes name

/-! ## Components -/

inductive Component where
  | rootDir
  | curDir
  | parentDir
  | normal (name : FileName)
deriving DecidableEq

/-- What stands between two slashes; nothing and `.` are no component. -/
def component (part : Bytes) : Option Component :=
  if part = [46, 46] then some .parentDir else (readName part).map .normal

/-- `Path::components`. -/
def components (path : Bytes) : List Component :=
  let parts := path.splitOn 47
  let named := parts.filterMap component
  if path.head? = some 47 then .rootDir :: named
  else if parts.head? = some [46] then .curDir :: named
  else named

def Component.bytes : Component → Bytes
  | .rootDir => []
  | .curDir => [46]
  | .parentDir => [46, 46]
  | .normal name => name.bytes

/-- `Components::as_path`. -/
def asPath (parts : List Component) : Bytes :=
  if parts = [.rootDir] then [47] else [47].intercalate (parts.map Component.bytes)

/-- Every name after a slash. -/
def trail (names : List FileName) : Bytes := names.flatMap fun name => 47 :: name.bytes

/-- An absolute path without `.`, `..` and links. -/
def pathBuf (names : List FileName) : Bytes := if names = [] then [47] else trail names

theorem component_name (name : FileName) : component name.bytes = some (.normal name) := by
  rw [component, if_neg name.isName.2.2.1, readName_bytes]
  rfl

variable {last : Bytes} {base : List FileName}

theorem splitOn_trail (names : List FileName) (hlast : 47 ∉ last) (part : Bytes)
    (hpart : 47 ∉ part) :
    (part ++ trail names ++ 47 :: last).splitOn 47 =
      part :: names.map FileName.bytes ++ [last] := by
  induction names generalizing part with
  | nil =>
    rw [trail, List.flatMap_nil, List.append_nil, List.splitOn_append_cons_self_of_not_mem hpart,
      List.splitOn_eq_singleton hlast]
    rfl
  | cons name names ih =>
    have h := ih name.bytes name.isName.2.2.2
    have hcut : part ++ trail (name :: names) ++ 47 :: last =
        part ++ 47 :: (name.bytes ++ trail names ++ 47 :: last) := by
      simp [trail]
    rw [hcut, List.splitOn_append_cons_self_of_not_mem hpart, h]
    rfl

theorem components_trail (names : List FileName) (hlast : 47 ∉ last) :
    components (trail names ++ 47 :: last) =
      .rootDir :: (names.map .normal ++ (component last).toList) := by
  have hsplit := splitOn_trail names hlast [] (by simp)
  rw [List.nil_append] at hsplit
  have hhead : (trail names ++ 47 :: last).head? = some 47 := by
    cases names with
    | nil => rfl
    | cons name names => rfl
  have hempty : component [] = none := by decide
  have hlast' : [last].filterMap component = (component last).toList := by
    cases h : component last <;> simp [h]
  have hnames : (names.map FileName.bytes).filterMap component = names.map .normal := by
    rw [List.filterMap_map, ← List.filterMap_eq_map]
    exact List.filterMap_congr fun name _ => component_name name
  unfold components
  dsimp only
  rw [if_pos hhead, hsplit, List.cons_append, List.filterMap_cons_none hempty,
    List.filterMap_append, hnames, hlast']

theorem pathBuf_concat (names : List FileName) (name : FileName) :
    pathBuf (names ++ [name]) = trail names ++ 47 :: name.bytes := by
  rw [pathBuf, if_neg (by simp)]
  simp [trail]

theorem components_pathBuf (names : List FileName) :
    components (pathBuf names) = .rootDir :: names.map .normal := by
  rcases List.eq_nil_or_concat names with rfl | ⟨init, name, rfl⟩
  · have h : (47 : UInt8) ∉ ([] : Bytes) := by simp
    exact components_trail [] h
  · rw [List.concat_eq_append, pathBuf_concat, components_trail init name.isName.2.2.2,
      component_name, List.map_append]
    rfl

/-! ## Names as text -/

/-- A name decoded as UTF-8 is still a name. -/
def FileName.lossy (name : FileName) : FileName where
  bytes := Lib.lossy name.bytes
  isName := by
    obtain ⟨hne, hdot, hdots, hslash⟩ := name.isName
    refine ⟨fun h => hne ?_, fun h => hdot ?_, fun h => hdots ?_, fun h => hslash ?_⟩
    · exact lossy_eq_ascii (by simp) h
    · exact lossy_eq_ascii (by decide +kernel) h
    · exact lossy_eq_ascii (by decide +kernel) h
    · exact mem_of_mem_lossy (by decide) h

def FileName.IsUtf8 (name : FileName) : Prop := name.lossy = name

theorem trail_concat (names : List FileName) (name : FileName) :
    trail (names ++ [name]) = trail names ++ 47 :: name.bytes := by
  simp [trail]

theorem lossy_trail (names : List FileName) :
    lossy (trail names) = trail (names.map FileName.lossy) := by
  induction names using List.reverseRecOn with
  | nil => rfl
  | append_singleton names name ih =>
    rw [trail_concat, lossy_append_ascii (by decide), ih, List.map_append, List.map_singleton,
      trail_concat]
    rfl

/-! ## Working directories -/

/-- A process's working directory: where it lies, or lay when it was unlinked. -/
structure Cwd where
  dir : List FileName
  unlinked : Bool
deriving DecidableEq

/-- `" (deleted)"`. -/
def deletedSuffix : Bytes := [32, 40, 100, 101, 108, 101, 116, 101, 100, 41]

/-- What `readlink` of `/proc/<pid>/cwd` answers. -/
def Cwd.link (cwd : Cwd) : Bytes := pathBuf cwd.dir ++ if cwd.unlinked then deletedSuffix else []

/-- `str::strip_suffix`. -/
def stripSuffix (suf text : Bytes) : Option Bytes :=
  if suf.isSuffixOf text then some (text.take (text.length - suf.length)) else none

def stripDeletedSuffix (cwd : Bytes) : Bytes := (stripSuffix deletedSuffix (lossy cwd)).getD cwd

def isInside (cwd : Bytes) (base : List FileName) : Bool :=
  (Component.rootDir :: base.map .normal).isPrefixOf (components (stripDeletedSuffix cwd))

/-- The directory is the base or lies under it. -/
def Cwd.Inside (cwd : Cwd) (base : List FileName) : Prop := base <+: cwd.dir

instance (cwd : Cwd) (base : List FileName) : Decidable (cwd.Inside base) :=
  inferInstanceAs (Decidable (_ <+: _))

variable {text rest : Bytes} {cwd : Cwd}

theorem stripSuffix_eq_some {suf : Bytes} :
    stripSuffix suf text = some rest ↔ text = rest ++ suf := by
  unfold stripSuffix
  split
  · next h =>
    obtain ⟨before, rfl⟩ := List.isSuffixOf_iff_suffix.1 h
    simp
  · next h =>
    constructor
    · intro heq
      cases heq
    · rintro rfl
      exact absurd (List.isSuffixOf_iff_suffix.2 ⟨rest, rfl⟩) h

theorem deletedSuffix_ascii : ∀ a ∈ deletedSuffix, a < 0x80 := by decide +kernel

theorem slash_not_mem_deletedSuffix : (47 : UInt8) ∉ deletedSuffix := by decide

/-- The directory the link of one is taken for: its names decoded, the suffix off the last. -/
def Cwd.shown (cwd : Cwd) : List FileName :=
  if cwd.unlinked then cwd.dir.map FileName.lossy
  else match cwd.dir.getLast? with
    | none => []
    | some last =>
      match stripSuffix deletedSuffix last.bytes with
      | some rest => cwd.dir.dropLast.map FileName.lossy ++ (readName (lossy rest)).toList
      | none => cwd.dir

theorem normal_injective : Function.Injective Component.normal := by
  intro a b h
  cases h
  rfl

/-- What a path's text is compared as: its names, and the last one where it is a name. -/
theorem prefix_components_iff (base names : List FileName) (hlast : 47 ∉ last) :
    (Component.rootDir :: base.map .normal).isPrefixOf (components (trail names ++ 47 :: last)) =
      true ↔ base <+: names ++ (readName last).toList := by
  rw [List.isPrefixOf_iff_prefix, components_trail names hlast, List.cons_prefix_cons]
  simp only [true_and]
  unfold component
  split
  · next h =>
    -- `..` is a component, but none of the base's.
    have hname : readName last = none := by
      rw [h]
      decide
    rw [hname, Option.toList_some, Option.toList_none, List.append_nil, List.prefix_concat_iff,
      List.prefix_map_iff_of_injective normal_injective]
    constructor
    · rintro (h | h)
      · have hmem : Component.parentDir ∈ base.map Component.normal := by simp [h]
        obtain ⟨name, -, hname⟩ := List.mem_map.1 hmem
        cases hname
      · exact h
    · exact .inr
  · have hmap : ((readName last).map Component.normal).toList =
        (readName last).toList.map .normal := by
      cases readName last <;> rfl
    rw [hmap, ← List.map_append, List.prefix_map_iff_of_injective normal_injective]

theorem stripDeletedSuffix_append (text : Bytes) :
    stripDeletedSuffix (text ++ deletedSuffix) = lossy text := by
  rw [stripDeletedSuffix, lossy_append_ascii_text _ deletedSuffix_ascii,
    stripSuffix_eq_some.2 rfl, Option.getD_some]

theorem stripDeletedSuffix_of_not (h : ∀ rest, text ≠ rest ++ deletedSuffix) :
    stripDeletedSuffix text = text := by
  have hnone : stripSuffix deletedSuffix (lossy text) = none := by
    rw [Option.eq_none_iff_forall_ne_some]
    intro rest hrest
    obtain ⟨before, hbefore, -⟩ := lossy_eq_append deletedSuffix_ascii (stripSuffix_eq_some.1 hrest)
    exact h before hbefore
  rw [stripDeletedSuffix, hnone, Option.getD_none]

/-- A text that ends in the suffix after a slash has it behind that slash. -/
theorem suffix_after_slash (h : text ++ 47 :: last = rest ++ deletedSuffix) (hlast : 47 ∉ last) :
    ∃ m, last = m ++ deletedSuffix ∧ rest = text ++ 47 :: m := by
  rcases List.append_eq_append_iff.1 h with ⟨m, rfl, hm⟩ | ⟨m, rfl, hm⟩
  · cases m with
    | nil =>
      have hslash : (47 : UInt8) ∈ deletedSuffix := by
        rw [← List.nil_append deletedSuffix, ← hm]
        exact List.mem_cons_self
      exact absurd hslash slash_not_mem_deletedSuffix
    | cons b m =>
      rw [List.cons_append, List.cons.injEq] at hm
      obtain ⟨rfl, rfl⟩ := hm
      exact ⟨m, rfl, rfl⟩
  · have hslash : (47 : UInt8) ∈ deletedSuffix := by
      rw [hm]
      exact List.mem_append_cons_self
    exact absurd hslash slash_not_mem_deletedSuffix

theorem prefix_pathBuf_iff (base names : List FileName) :
    (Component.rootDir :: base.map .normal).isPrefixOf (components (pathBuf names)) = true ↔
      base <+: names := by
  rw [List.isPrefixOf_iff_prefix, components_pathBuf, List.cons_prefix_cons,
    List.prefix_map_iff_of_injective normal_injective]
  simp

theorem lossy_pathBuf (names : List FileName) :
    lossy (pathBuf names) = pathBuf (names.map FileName.lossy) := by
  cases names with
  | nil => exact lossy_ascii (by decide +kernel)
  | cons name names =>
    rw [pathBuf, if_neg (by simp), lossy_trail, pathBuf, if_neg (by simp)]

theorem isInside_live (dir base : List FileName) :
    isInside (Cwd.link ⟨dir, false⟩) base = true ↔ base <+: Cwd.shown ⟨dir, false⟩ := by
  have hlink : Cwd.link ⟨dir, false⟩ = pathBuf dir := List.append_nil _
  rw [isInside, hlink]
  rcases List.eq_nil_or_concat dir with rfl | ⟨init, last, rfl⟩
  · have hkept : stripDeletedSuffix (pathBuf []) = pathBuf [] := by decide
    rw [hkept, prefix_pathBuf_iff]
    rfl
  · rw [List.concat_eq_append, pathBuf_concat]
    cases hrest : stripSuffix deletedSuffix last.bytes with
    | some rest =>
      have hbytes := stripSuffix_eq_some.1 hrest
      have hslash : 47 ∉ lossy rest := by
        intro h
        refine last.isName.2.2.2 ?_
        rw [hbytes]
        exact List.mem_append_left _ (mem_of_mem_lossy (by decide) h)
      have hshown : Cwd.shown ⟨init ++ [last], false⟩ =
          init.map FileName.lossy ++ (readName (lossy rest)).toList := by
        simp [Cwd.shown, hrest]
      have hcut : trail init ++ 47 :: (rest ++ deletedSuffix) =
          (trail init ++ 47 :: rest) ++ deletedSuffix := by
        simp
      rw [hbytes, hcut, stripDeletedSuffix_append, lossy_append_ascii (by decide), lossy_trail,
        prefix_components_iff base _ hslash, hshown]
    | none =>
      -- The link ends in the suffix just where the last name does.
      have hnot : ∀ rest, trail init ++ 47 :: last.bytes ≠ rest ++ deletedSuffix := by
        intro rest h
        obtain ⟨m, hm, -⟩ := suffix_after_slash h last.isName.2.2.2
        rw [stripSuffix_eq_some.2 hm] at hrest
        cases hrest
      have hkept := stripDeletedSuffix_of_not hnot
      have hshown : Cwd.shown ⟨init ++ [last], false⟩ = init ++ [last] := by
        simp [Cwd.shown, hrest]
      rw [hkept, ← pathBuf_concat, prefix_pathBuf_iff, hshown]

theorem isInside_link (cwd : Cwd) (base : List FileName) :
    isInside cwd.link base = true ↔ base <+: cwd.shown := by
  obtain ⟨dir, _ | _⟩ := cwd
  · exact isInside_live dir base
  · have hlink : Cwd.link ⟨dir, true⟩ = pathBuf dir ++ deletedSuffix := rfl
    rw [isInside, hlink, stripDeletedSuffix_append, lossy_pathBuf, prefix_pathBuf_iff]
    rfl

/-! ## Directories taken for others -/

/-- A live directory beside the base, with the base's name and the suffix. -/
def Cwd.Marked (cwd : Cwd) (base : List FileName) : Prop :=
  cwd.unlinked = false ∧ ∃ parent last name, cwd.dir = parent ++ [last] ∧ base = parent ++ [name] ∧
    last.bytes = name.bytes ++ deletedSuffix

/-- A directory outside the base whose path is not UTF-8 and, decoded, lies in it. -/
def Cwd.Undecodable (cwd : Cwd) (base : List FileName) : Prop :=
  (∃ name ∈ cwd.dir, ¬name.IsUtf8) ∧ base <+: cwd.shown ∧ ¬cwd.Inside base

def Cwd.Mistaken (cwd : Cwd) (base : List FileName) : Prop :=
  cwd.Marked base ∨ cwd.Undecodable base

theorem Cwd.Marked.not_inside (h : cwd.Marked base) : ¬cwd.Inside base := by
  obtain ⟨-, parent, last, name, hdir, rfl, hlast⟩ := h
  intro hin
  rw [Cwd.Inside, hdir] at hin
  have heq := (List.prefix_append_right_inj parent).1 hin
  rw [List.cons_prefix_cons] at heq
  have hbytes := congrArg List.length (congrArg FileName.bytes heq.1 ▸ hlast)
  simp [deletedSuffix] at hbytes

/-- A directory whose names are all UTF-8 is taken for another just where it is marked. -/
theorem Cwd.shown_of_utf8 (hutf8 : ∀ name ∈ cwd.dir, name.IsUtf8) (h : base <+: cwd.shown) :
    cwd.Inside base ∨ cwd.Marked base := by
  have hmap : ∀ names : List FileName, (∀ name ∈ names, name.IsUtf8) →
      names.map FileName.lossy = names := fun names h => by
    rw [List.map_congr_left h, List.map_id']
  obtain ⟨dir, _ | _⟩ := cwd
  · rcases List.eq_nil_or_concat dir with rfl | ⟨init, last, rfl⟩
    · exact .inl h
    rw [List.concat_eq_append] at *
    cases hrest : stripSuffix deletedSuffix last.bytes with
    | none =>
      left
      show base <+: init ++ [last]
      simpa [Cwd.shown, hrest] using h
    | some rest =>
      have hbytes := stripSuffix_eq_some.1 hrest
      have hlast : Lib.lossy last.bytes = last.bytes :=
        congrArg FileName.bytes (hutf8 last (by simp))
      rw [hbytes, lossy_append_ascii_text _ deletedSuffix_ascii] at hlast
      have hsame : lossy rest = rest := List.append_cancel_right hlast
      have hbefore : base <+: init ++ (readName rest).toList := by
        simpa [Cwd.shown, hrest, hsame, hmap init fun name hname => hutf8 name (by simp [hname])]
          using h
      cases hname : readName rest with
      | none =>
        rw [hname, Option.toList_none, List.append_nil] at hbefore
        exact .inl (hbefore.trans (List.prefix_append _ _))
      | some name =>
        rw [hname, Option.toList_some, List.prefix_concat_iff] at hbefore
        rcases hbefore with hbase | hbase
        · refine .inr ⟨rfl, init, last, name, rfl, hbase, ?_⟩
          rw [readName_eq_some.1 hname, hbytes]
        · exact .inl (hbase.trans (List.prefix_append _ _))
  · left
    have hshown : Cwd.shown ⟨dir, true⟩ = dir.map FileName.lossy := rfl
    rw [hshown, hmap dir hutf8] at h
    exact h

theorem Cwd.inside_iff (h : isInside cwd.link base = true) :
    cwd.Inside base ↔ ¬cwd.Mistaken base := by
  have hshown := (isInside_link cwd base).1 h
  constructor
  · rintro hin (hmarked | hundecodable)
    · exact hmarked.not_inside hin
    · exact hundecodable.2.2 hin
  · intro hnot
    by_contra hout
    by_cases hutf8 : ∀ name ∈ cwd.dir, name.IsUtf8
    · rcases Cwd.shown_of_utf8 hutf8 hshown with hin | hmarked
      · exact hout hin
      · exact hnot (.inl hmarked)
    · simp only [not_forall, exists_prop] at hutf8
      exact hnot (.inr ⟨hutf8, hshown, hout⟩)

end Rigger.Reap
