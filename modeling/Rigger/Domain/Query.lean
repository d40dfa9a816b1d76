import Mathlib.Data.String.Basic
import Rigger.Lib.Cut

/-!
# Node ids (`rigger-domain/src/contextgraph/query.rs`)

A code entity's id is its file's path, `::` and its path in the file; a placeholder's is its file's
path, `::` and its leaf behind the sigil `%`.  `IsPath` says of a file's path that the one cut of an
id gives it back (`splitId_entityId`).
-/

namespace Rigger

open Lib

def placeholderSigil : String := "%"

/-! ## The one cut -/

/-- A list cut at its first `::`. -/
def splitPathList : List Char → Option (List Char × List Char)
  | [] => none
  | [_] => none
  | c :: d :: rest =>
    if c = ':' ∧ d = ':' then some ([], rest)
    else (splitPathList (d :: rest)).map fun p => (c :: p.1, p.2)

/-- The file half of an id and, where it holds a `::`, its rest half. -/
def splitId (id : String) : String × Option String :=
  match splitPathList id.toList with
  | some (file, rest) => (String.ofList file, some (String.ofList rest))
  | none => (id, none)

def leafOf (id : String) : Option String := (splitId id).2.bind (stripPrefix placeholderSigil)

def entityId (file rest : String) : String := file ++ "::" ++ rest

def placeholderId (file leaf : String) : String := entityId file (placeholderSigil ++ leaf)

/-- A path no `::` is read in, nor begun by the one an id joins it with. -/
def IsPath (file : String) : Prop := splitPathList (file.toList ++ [':']) = none

instance (file : String) : Decidable (IsPath file) := by unfold IsPath; infer_instance

theorem splitPathList_append {file : List Char} (h : splitPathList (file ++ [':']) = none)
    (rest : List Char) : splitPathList (file ++ ':' :: ':' :: rest) = some (file, rest) := by
  induction file with
  | nil => simp [splitPathList]
  | cons c file ih =>
    cases file with
    | nil =>
      have hc : c ≠ ':' := by
        rintro rfl
        simp [splitPathList] at h
      show splitPathList (c :: ':' :: (':' :: rest)) = _
      rw [splitPathList, if_neg fun hcd => hc hcd.1]
      simp [splitPathList]
    | cons d file =>
      have hcd : ¬(c = ':' ∧ d = ':') := by
        intro hcd
        simp [splitPathList, hcd] at h
      have hrest : splitPathList ((d :: file) ++ [':']) = none := by
        simpa [splitPathList, hcd] using h
      show splitPathList (c :: d :: (file ++ ':' :: ':' :: rest)) = _
      rw [splitPathList, if_neg hcd, ← List.cons_append, ih hrest]
      rfl

variable {file : String}

theorem splitId_entityId (h : IsPath file) (rest : String) :
    splitId (entityId file rest) = (file, some rest) := by
  have hcut : splitPathList (entityId file rest).toList = some (file.toList, rest.toList) := by
    have := splitPathList_append h rest.toList
    simpa [entityId] using this
  rw [splitId, hcut]
  simp

theorem leafOf_placeholderId (h : IsPath file) (leaf : String) :
    leafOf (placeholderId file leaf) = some leaf := by
  rw [leafOf, placeholderId, splitId_entityId h]
  exact stripPrefix_append _ _

/-! ## The store's spellings -/

/-- The `<file>::` id range. -/
def idRange (file id : String) : Bool := file ++ "::" ≤ id && id < file ++ ":;"

/-- The text of an edge's target after its first `::`, all but its first character where it holds
none. -/
def edgeText (to_ : String) : String :=
  match splitPathList to_.toList with
  | some (_, rest) => String.ofList rest
  | none => String.ofList (to_.toList.drop 1)

/-- The target is spelled `<file>::<leaf>` or `<file>::%<leaf>`. -/
def edgeBindsLeaf (to_ leaf : String) : Bool :=
  edgeText to_ == leaf || edgeText to_ == placeholderSigil ++ leaf

/-! ## What a record's reference names -/

def isLineSpan (s : String) : Bool :=
  let (first, last) := (splitOnce '-' s).getD (s, s)
  [first, last].all fun n => !n.isEmpty && n.toList.all Char.isDigit

def sansLineSpan (path : String) : String :=
  match rsplitOnce ':' path with
  | some (file, span) => if isLineSpan span then file else path
  | none => path

/-- The file a path-shaped id names: its last segment carries an extension. -/
def fileOf (id : String) : Option String :=
  let file := (splitId id).1
  let file := ((splitOnce '#' file).map Prod.fst).getD file
  let lastSegment := ((rsplitOnce '/' file).map Prod.snd).getD file
  let namesAFile := (rsplitOnce '.' lastSegment).any fun (stem, ext) =>
    !stem.isEmpty && !ext.isEmpty
  if namesAFile then some file else none

/-- The file a citation of its lines names; any other reference as written. -/
def referencedId (reference : String) : String :=
  let path := sansLineSpan reference
  match fileOf path with
  | some file => if file == path && !path.toList.contains ':' then path else reference
  | none => reference

example : referencedId "tests/x.rs:12-20" = "tests/x.rs" := by decide

end Rigger
