import Rigger.Conductor.Emit
import Rigger.Domain.Review
import Rigger.Lib.Blocks
import Rigger.Lib.Grouped
import Rigger.Lib.Pieces

/-!
# The criteria of a spec (`rigger-domain/src/spec.rs`)

A criterion is a checkbox line and every line after it up to the next checkbox, a blank line or a
heading.  One walk of the lines joins each criterion's text ahead of its checkbox, another numbers
the lines from a count and a flag, and the lints read the second: `oneGrammar` says that both are
one reading of the text.
-/

namespace Rigger.Spec

open Lib
open Conductor (isWhite trim)
open Review (lines)

/-! ## Lines -/

def stripChar (c : Char) : List Char → Option (List Char)
  | [] => none
  | x :: l => if x = c then some l else none

def checkboxText (line : String) : Option String := do
  let rest := line.toList.dropWhile isWhite
  let rest ← (stripChar '-' rest).or (stripChar '*' rest)
  let rest ← stripChar '[' (rest.dropWhile isWhite)
  let mark ← rest.head?
  if mark ∈ [' ', 'x', 'X'] then
    let rest ← stripChar ']' rest.tail
    let text := trim (String.ofList rest)
    if text.isEmpty then none else some text
  else none

def headingLevel (line : String) : Option Nat :=
  let trimmed := line.toList.dropWhile isWhite
  let hashes := (trimmed.takeWhile (· = '#')).length
  if 1 ≤ hashes ∧ hashes ≤ 6 ∧ trimmed[hashes]? = some ' ' then some hashes else none

def isCheckbox (line : String) : Bool := (checkboxText line).isSome

def criterionBlockBoundary (line : String) : Bool :=
  (trim line).isEmpty || (headingLevel line).isSome || isCheckbox line

/-! ## Criteria -/

/-- The inner loop of `extract_criteria`: the lines up to a boundary are joined on. -/
def joinLines (joined : String) : List String → String × List String
  | [] => (joined, [])
  | line :: rest =>
    if criterionBlockBoundary line then (joined, line :: rest)
    else joinLines (joined ++ " " ++ trim line) rest

theorem joinLines_length (joined : String) (l : List String) :
    (joinLines joined l).2.length ≤ l.length := by
  induction l generalizing joined with
  | nil => exact Nat.le_refl _
  | cons line rest ih =>
    unfold joinLines
    split
    · exact Nat.le_refl _
    · exact Nat.le_succ_of_le (ih _)

def extractFrom : List String → List String
  | [] => []
  | line :: rest =>
    match checkboxText line with
    | some first => (joinLines first rest).1 :: extractFrom (joinLines first rest).2
    | none => extractFrom rest
termination_by l => l.length
decreasing_by
  · exact Nat.lt_succ_of_le (joinLines_length first rest)
  · exact Nat.lt_succ_self _

def extractCriteria (text : String) : List String := extractFrom (lines text)

def checkboxOpeningLines (text : String) : List String := (lines text).filterMap checkboxText

/-- The criterion each line is of. -/
def lineCriterion (text : String) : List (Option Nat) :=
  owners isCheckbox criterionBlockBoundary 0 false (lines text)

/-- A body joined onto a criterion's entry. -/
def pushBody (entry body : String) : String :=
  (if entry.isEmpty then entry else entry ++ " ") ++ body

def bodyOf (line : String) : String := (checkboxText line).getD (trim line)

def criterionBlocks (text : String) : Std.ExtTreeMap Nat String :=
  ((lines text).zip (lineCriterion text)).foldl (fun out row =>
    row.2.elim out fun idx => out.insert idx (pushBody (out[idx]?.getD "") (bodyOf row.1))) ∅

/-! ## Shape advisories -/

/-- The width of what a line is indented by, in bytes. -/
def indentOf (line : String) : Nat :=
  byteLen line.toList - byteLen (line.toList.dropWhile isWhite)

def truncateForMessage (s : String) : String :=
  if s.toList.length ≤ 60 then s else String.ofList (s.toList.take 60) ++ "..."

def plainBulletText (trimmed : String) : Option String :=
  ((stripPrefix "- " trimmed).or (stripPrefix "* " trimmed)).map fun body =>
    truncateForMessage (trim body)

/-- The maps of `sub_bullet_criteria`'s loop. -/
structure Bullets where
  checkboxIndent : Std.ExtTreeMap Nat Nat
  out : Std.ExtTreeMap Nat String

/-- A line of the loop. -/
def Bullets.read (b : Bullets) (row : String × Option Nat) : Bullets :=
  row.2.elim b fun idx =>
    if isCheckbox row.1 then
      { b with checkboxIndent := b.checkboxIndent.insertIfNew idx (indentOf row.1) }
    else
      b.checkboxIndent[idx]?.elim b fun cbIndent =>
        if indentOf row.1 ≤ cbIndent then b
        else (plainBulletText (String.ofList (row.1.toList.dropWhile isWhite))).elim b fun bullet =>
          { b with out := b.out.insertIfNew idx bullet }

def subBulletCriteria (text : String) : Std.ExtTreeMap Nat String :=
  (((lines text).zip (lineCriterion text)).foldl Bullets.read ⟨∅, ∅⟩).out

inductive ShapeRule where
  | multiBehavior
  | subBulletAsUnit
  | overLong
deriving DecidableEq

structure ShapeAdvisory where
  rule : ShapeRule
  criterion : Nat
  detail : String
deriving DecidableEq

def maxCriterionLen : Nat := 240

/-- `matches(sep).count()`. -/
def occurrences (sep text : String) : Nat :=
  match sep.toList with
  | [] => text.toList.length + 1
  | c :: rest => (pieces c rest text.toList).length - 1

/-- `lower` is `str::to_lowercase`. -/
def multiBehaviorCoordinators (lower : String → String) (criterion : String) : Option Nat :=
  let count := ([", and ", ", then ", "; "].map fun sep => occurrences sep (lower criterion)).sum
  if 2 ≤ count then some count else none

/-- The advisories of the `n`-th criterion. -/
def shapeOf (lower : String → String) (subBullets : Std.ExtTreeMap Nat String) (n : Nat)
    (criterion : String) : List ShapeAdvisory :=
  let len := criterion.toList.length
  ((multiBehaviorCoordinators lower criterion).map fun count => ⟨.multiBehavior, n,
    "packs multiple observable behaviors (" ++ toString count ++ " clause coordinators)"⟩).toList ++
  (subBullets[n]?.map fun bullet => ⟨.subBulletAsUnit, n,
    "an indented sub-bullet reads as a separate criterion (\"" ++ bullet ++ "\")"⟩).toList ++
  if maxCriterionLen < len then
    [⟨.overLong, n, "is " ++ toString len ++
      " characters; a verbatim planner copy of a criterion this long is unreliable"⟩]
  else []

def specShapeAdvisories (lower : String → String) (text : String) : List ShapeAdvisory :=
  let subBullets := subBulletCriteria text
  ((checkboxOpeningLines text).mapIdx fun i criterion =>
    shapeOf lower subBullets (i + 1) criterion).flatten

/-! ## Blocks -/

theorem boundary_of_isCheckbox (line : String) (h : isCheckbox line = true) :
    criterionBlockBoundary line = true := by
  unfold criterionBlockBoundary
  rw [h, Bool.or_true]

def blocksOf (text : String) : List (List String) :=
  blocks isCheckbox criterionBlockBoundary (lines text)

/-- The text of a criterion from its lines. -/
def blockText : List String → String
  | [] => ""
  | first :: rest =>
    rest.foldl (fun joined line => joined ++ " " ++ trim line) ((checkboxText first).getD "")

variable {text : String} {block : List String}
  {line joined : String} {rows : List (String × Option Nat)} {b : Bullets}

theorem checkboxText_ne_empty (h : checkboxText line = some text) : text ≠ "" := by
  unfold checkboxText at h
  obtain ⟨rest, -, h⟩ := Option.bind_eq_some_iff.1 h
  obtain ⟨rest, -, h⟩ := Option.bind_eq_some_iff.1 h
  obtain ⟨mark, -, h⟩ := Option.bind_eq_some_iff.1 h
  split at h
  · obtain ⟨rest, -, h⟩ := Option.bind_eq_some_iff.1 h
    dsimp only at h
    split at h
    · cases h
    · next hne =>
      cases h
      rwa [String.isEmpty_iff] at hne
  · cases h

theorem joinLines_eq (joined : String) (l : List String) : joinLines joined l =
    ((l.takeWhile fun y => !criterionBlockBoundary y).foldl
      (fun joined line => joined ++ " " ++ trim line) joined,
      l.dropWhile fun y => !criterionBlockBoundary y) := by
  induction l generalizing joined with
  | nil => rfl
  | cons line rest ih =>
    unfold joinLines
    split
    · next h =>
      rw [List.takeWhile_cons_of_neg (by simp [h]), List.dropWhile_cons_of_neg (by simp [h])]
      rfl
    · next h =>
      rw [List.takeWhile_cons_of_pos (by simp [h]), List.dropWhile_cons_of_pos (by simp [h]), ih]
      rfl

theorem extractFrom_eq (l : List String) :
    extractFrom l = (blocks isCheckbox criterionBlockBoundary l).map blockText := by
  induction l using extractFrom.induct with
  | case1 =>
    rw [extractFrom]
    rfl
  | case2 line rest first h ih =>
    have hcheck : isCheckbox line = true := by
      rw [isCheckbox, h]
      rfl
    rw [extractFrom, h]
    dsimp only
    rw [ih, joinLines_eq, blocks_dropWhile boundary_of_isCheckbox, blocks, if_pos hcheck,
      List.map_cons, blockText, h]
    rfl
  | case3 line rest h ih =>
    have hcheck : ¬isCheckbox line = true := by
      rw [isCheckbox, h]
      exact Bool.false_ne_true
    rw [extractFrom, h]
    dsimp only
    rw [ih, blocks, if_neg hcheck]

theorem extractCriteria_eq (text : String) :
    extractCriteria text = (blocksOf text).map blockText := extractFrom_eq _

theorem openings_eq (l : List String) : (l.filterMap checkboxText).map some =
    (blocks isCheckbox criterionBlockBoundary l).map fun block =>
      block.head?.bind checkboxText := by
  induction l with
  | nil => rfl
  | cons line l ih =>
    cases h : checkboxText line with
    | none =>
      have hcheck : ¬isCheckbox line = true := by
        rw [isCheckbox, h]
        exact Bool.false_ne_true
      rw [List.filterMap_cons_none h, blocks, if_neg hcheck, ih]
    | some first =>
      have hcheck : isCheckbox line = true := by
        rw [isCheckbox, h]
        rfl
      rw [List.filterMap_cons_some h, blocks, if_pos hcheck, List.map_cons, List.map_cons, ih,
        List.head?_cons, Option.bind_some, h]

theorem mem_blocksOf (h : block ∈ blocksOf text) :
    ∃ first rest opening, block = first :: rest ∧ checkboxText first = some opening ∧
      ∀ line ∈ rest, criterionBlockBoundary line = false := by
  obtain ⟨first, rest, rfl, hfirst, hrest⟩ := mem_blocks h
  obtain ⟨opening, hopening⟩ := Option.isSome_iff_exists.1 hfirst
  exact ⟨first, rest, opening, rfl, hopening, hrest⟩

theorem append_ne_empty {s : String} (h : s ≠ "") (t : String) : s ++ t ≠ "" := by
  intro heq
  exact h (String.append_eq_empty_iff.1 heq).1

theorem joined_ne_empty (h : joined ≠ "") (rest : List String) :
    rest.foldl (fun joined line => joined ++ " " ++ trim line) joined ≠ "" := by
  induction rest generalizing joined with
  | nil => exact h
  | cons line rest ih => exact ih (append_ne_empty (append_ne_empty h _) _)

theorem blockText_ne_empty (h : block ∈ blocksOf text) : blockText block ≠ "" := by
  obtain ⟨first, rest, opening, rfl, hopening, -⟩ := mem_blocksOf h
  rw [blockText, hopening]
  exact joined_ne_empty (checkboxText_ne_empty hopening) rest

/-! ## The map of texts -/

theorem pushBody_of_ne {entry : String} (h : entry ≠ "") (body : String) :
    pushBody entry body = entry ++ " " ++ body := by
  rw [pushBody, if_neg (by simpa [String.isEmpty_iff] using h)]

theorem bodyOf_of_not_boundary (h : criterionBlockBoundary line = false) :
    bodyOf line = trim line := by
  cases hcheck : checkboxText line with
  | none => rw [bodyOf, hcheck, Option.getD_none]
  | some t =>
    rw [boundary_of_isCheckbox line (by rw [isCheckbox, hcheck]; rfl)] at h
    cases h

theorem foldl_pushBody_rest {rest : List String}
    (hrest : ∀ line ∈ rest, criterionBlockBoundary line = false) (h : joined ≠ "") :
    (rest.map bodyOf).foldl pushBody joined =
      rest.foldl (fun joined line => joined ++ " " ++ trim line) joined := by
  induction rest generalizing joined with
  | nil => rfl
  | cons line rest ih =>
    obtain ⟨hline, hrest⟩ := List.forall_mem_cons.1 hrest
    rw [List.map_cons, List.foldl_cons, List.foldl_cons, bodyOf_of_not_boundary hline,
      pushBody_of_ne h]
    exact ih hrest (append_ne_empty (append_ne_empty h _) _)

theorem foldl_pushBody (h : block ∈ blocksOf text) :
    (block.map bodyOf).foldl pushBody "" = blockText block := by
  obtain ⟨first, rest, opening, rfl, hopening, hrest⟩ := mem_blocksOf h
  have hbody : pushBody "" (bodyOf first) = opening := by
    rw [bodyOf, hopening]
    exact String.empty_append
  rw [List.map_cons, List.foldl_cons, hbody,
    foldl_pushBody_rest hrest (checkboxText_ne_empty hopening), blockText, hopening]
  rfl

/-- The writes of `criterion_blocks`. -/
def bodies (text : String) : List (Nat × String) :=
  ((lines text).zip (lineCriterion text)).filterMap fun row =>
    row.2.map fun idx => (idx, bodyOf row.1)

theorem criterionBlocks_eq (text : String) :
    criterionBlocks text = gather compare pushBody "" (bodies text) := by
  unfold criterionBlocks gather bodies
  rw [List.foldl_filterMap]
  refine congrArg (fun f => List.foldl f ∅ _) (funext₂ fun out row => ?_)
  cases row.2 <;> rfl

theorem ofGroup_bodies (text : String) (n : Nat) : ofGroup n (bodies text) =
    (if n = 0 then [] else ((blocksOf text)[n - 1]?).getD []).map bodyOf := by
  have hrows := filter_owners boundary_of_isCheckbox (lines text) n
  unfold blocksOf
  rw [← hrows, ofGroup, bodies, List.filter_filterMap, List.map_filterMap, List.map_map]
  rw [← List.filterMap_eq_map, List.filterMap_filter]
  refine List.filterMap_congr fun row _ => ?_
  cases hrow : row.2 with
  | none => simp
  | some idx =>
    by_cases hn : idx = n
    · simp [hn]
    · simp [hn]

theorem criterionBlocks_get (text : String) (n : Nat) : (criterionBlocks text)[n]? =
    if n = 0 then none else (extractCriteria text)[n - 1]? := by
  rw [criterionBlocks_eq, getElem?_gather, ofGroup_bodies, extractCriteria_eq, List.getElem?_map]
  by_cases hn : n = 0
  · rw [if_pos hn, if_pos hn]
    rfl
  · rw [if_neg hn, if_neg hn]
    cases hblock : (blocksOf text)[n - 1]? with
    | none => rfl
    | some block =>
      have hmem := List.mem_of_getElem? hblock
      obtain ⟨first, rest, opening, rfl, -, -⟩ := mem_blocksOf hmem
      rw [Option.getD_some, if_neg (by simp), foldl_pushBody hmem]
      rfl

/-! ## Sub-bullets -/

/-- What the maps hold of the rows read. -/
structure Bullets.Of (rows : List (String × Option Nat)) (b : Bullets) : Prop where
  indent : ∀ n i, b.checkboxIndent[n]? = some i →
    ∃ opening, (opening, some n) ∈ rows ∧ isCheckbox opening = true ∧ indentOf opening = i
  bullet : ∀ n bullet, b.out[n]? = some bullet → ∃ line opening, (line, some n) ∈ rows ∧
    (opening, some n) ∈ rows ∧ isCheckbox opening = true ∧ isCheckbox line = false ∧
    indentOf opening < indentOf line ∧
    plainBulletText (String.ofList (line.toList.dropWhile isWhite)) = some bullet

theorem Bullets.Of.mono {rows' : List (String × Option Nat)} (h : b.Of rows) (hsub : rows ⊆ rows') :
    b.Of rows' where
  indent n i hi := by
    obtain ⟨opening, hmem, hrest⟩ := h.indent n i hi
    exact ⟨opening, hsub hmem, hrest⟩
  bullet n bullet hb := by
    obtain ⟨line, opening, hline, hopening, hrest⟩ := h.bullet n bullet hb
    exact ⟨line, opening, hsub hline, hsub hopening, hrest⟩

theorem Bullets.Of.read (h : b.Of rows) (row : String × Option Nat) :
    (b.read row).Of (rows ++ [row]) := by
  have hold := h.mono (List.subset_append_left rows [row])
  have hmem : row ∈ rows ++ [row] := by simp
  obtain ⟨line, owner⟩ := row
  unfold Bullets.read
  cases owner with
  | none => exact hold
  | some idx =>
    dsimp only [Option.elim_some]
    split
    · next hcheck =>
      refine ⟨fun n i hi => ?_, hold.bullet⟩
      rw [Std.ExtTreeMap.getElem?_insertIfNew] at hi
      split at hi
      · next hnew =>
        cases hi
        rw [compare_eq_iff_eq] at hnew
        exact ⟨line, hnew.1 ▸ hmem, hcheck, rfl⟩
      · exact hold.indent n i hi
    · next hcheck =>
      cases hindent : b.checkboxIndent[idx]? with
      | none => exact hold
      | some cbIndent =>
        dsimp only [Option.elim_some]
        split
        · exact hold
        · next hdeeper =>
          cases hbullet : plainBulletText (String.ofList (line.toList.dropWhile isWhite)) with
          | none => exact hold
          | some text =>
            refine ⟨hold.indent, fun n bullet hb => ?_⟩
            dsimp only [Option.elim_some] at hb
            rw [Std.ExtTreeMap.getElem?_insertIfNew] at hb
            split at hb
            · next hnew =>
              cases hb
              rw [compare_eq_iff_eq] at hnew
              obtain ⟨opening, hopening, hopenCheck, rfl⟩ := hold.indent idx cbIndent hindent
              rw [← hnew.1]
              exact ⟨line, opening, hmem, hopening, hopenCheck, by simpa using hcheck, by omega,
                hbullet⟩
            · exact hold.bullet n bullet hb

theorem subBulletCriteria_of (text : String) : ∃ b : Bullets,
    subBulletCriteria text = b.out ∧ b.Of ((lines text).zip (lineCriterion text)) := by
  refine ⟨_, rfl, ?_⟩
  induction (lines text).zip (lineCriterion text) using List.reverseRecOn with
  | nil => exact ⟨fun n i h => by simp at h, fun n bullet h => by simp at h⟩
  | append_singleton rows row ih =>
    rw [List.foldl_concat]
    exact ih.read row

/-! ## One grammar -/

/-- What an advisory's rule says of the criterion it names. -/
def ShapeAdvisory.Fires (lower : String → String) (text opening : String)
    (a : ShapeAdvisory) : Prop :=
  match a.rule with
  | .multiBehavior => (multiBehaviorCoordinators lower opening).isSome = true
  | .subBulletAsUnit => a.criterion ∈ subBulletCriteria text
  | .overLong => maxCriterionLen < opening.toList.length

theorem mem_shapeOf {lower : String → String} {opening : String} {n : Nat} {a : ShapeAdvisory}
    (h : a ∈ shapeOf lower (subBulletCriteria text) n opening) :
    a.criterion = n ∧ a.Fires lower text opening := by
  unfold shapeOf at h
  rw [List.mem_append, List.mem_append, Option.mem_toList, Option.mem_toList] at h
  rcases h with (h | h) | h
  · obtain ⟨count, hcount, rfl⟩ := Option.map_eq_some_iff.1 h
    refine ⟨rfl, ?_⟩
    show (multiBehaviorCoordinators lower opening).isSome = true
    rw [hcount]
    rfl
  · obtain ⟨bullet, hbullet, rfl⟩ := Option.map_eq_some_iff.1 h
    refine ⟨rfl, ?_⟩
    show n ∈ subBulletCriteria text
    rw [Std.ExtTreeMap.mem_iff_isSome_getElem?, hbullet]
    rfl
  · split at h
    · next hlen =>
      rw [List.mem_singleton.1 h]
      exact ⟨rfl, hlen⟩
    · cases h

/-- Both walks and the lints read the same criteria, by the same numbers. -/
structure OneGrammar (lower : String → String) (text : String) : Prop where
  keys : ∀ n, n ∈ criterionBlocks text ↔ 1 ≤ n ∧ n ≤ (extractCriteria text).length
  texts : ∀ n, 1 ≤ n → (criterionBlocks text)[n]? = (extractCriteria text)[n - 1]?
  nonempty : ∀ criterion ∈ extractCriteria text, criterion ≠ ""
  openings : (checkboxOpeningLines text).length = (extractCriteria text).length
  numbers : (lineCriterion text).length = (lines text).length ∧
    ∀ n, some n ∈ lineCriterion text → 1 ≤ n ∧ n ≤ (extractCriteria text).length
  placed : ∀ i criterion, (extractCriteria text)[i]? = some criterion →
    ∃ before first rest after numbers numbers',
      lines text = before ++ (first :: rest ++ after) ∧
      lineCriterion text =
        numbers ++ (List.replicate (first :: rest).length (some (i + 1)) ++ numbers') ∧
      numbers.length = before.length ∧ some (i + 1) ∉ numbers ∧ some (i + 1) ∉ numbers' ∧
      isCheckbox first = true ∧ checkboxText first = (checkboxOpeningLines text)[i]? ∧
      (∀ line ∈ rest, criterionBlockBoundary line = false) ∧ criterion = blockText (first :: rest)
  subBullets : ∀ n bullet, (subBulletCriteria text)[n]? = some bullet → ∃ line opening,
    (line, some n) ∈ (lines text).zip (lineCriterion text) ∧
    (opening, some n) ∈ (lines text).zip (lineCriterion text) ∧ isCheckbox opening = true ∧
    isCheckbox line = false ∧ indentOf opening < indentOf line ∧
    plainBulletText (String.ofList (line.toList.dropWhile isWhite)) = some bullet
  advisories : ∀ a ∈ specShapeAdvisories lower text, 1 ≤ a.criterion ∧
    ∃ opening, (checkboxOpeningLines text)[a.criterion - 1]? = some opening ∧
      a.Fires lower text opening

theorem oneGrammar (lower : String → String) (text : String) : OneGrammar lower text where
  keys n := by
    rw [Std.ExtTreeMap.mem_iff_isSome_getElem?, criterionBlocks_get]
    split
    · next h => simp [h]
    · next h =>
      rw [Option.isSome_iff_ne_none, ne_eq, List.getElem?_eq_none_iff]
      omega
  texts n hn := by rw [criterionBlocks_get, if_neg (by omega)]
  nonempty criterion h := by
    rw [extractCriteria_eq] at h
    obtain ⟨block, hblock, rfl⟩ := List.mem_map.1 h
    exact blockText_ne_empty hblock
  openings := by
    have hlength := congrArg List.length (openings_eq (lines text))
    rw [List.length_map, List.length_map] at hlength
    rw [extractCriteria_eq, List.length_map]
    exact hlength
  numbers := by
    refine ⟨length_owners _ _ _, fun n h => ?_⟩
    obtain ⟨-, hle, hlt⟩ := mem_owners h
    rw [extractCriteria_eq, List.length_map]
    refine ⟨hlt rfl, ?_⟩
    rwa [Nat.zero_add] at hle
  placed i criterion h := by
    rw [extractCriteria_eq, List.getElem?_map] at h
    obtain ⟨block, hblock, rfl⟩ := Option.map_eq_some_iff.1 h
    obtain ⟨first, rest, opening, rfl, hopening, hrest⟩ :=
      mem_blocksOf (List.mem_of_getElem? hblock)
    obtain ⟨before, after, numbers, numbers', hl, howners, hlength, hnot, hnot'⟩ :=
      blocks_placed boundary_of_isCheckbox hblock 0 false
    rw [Nat.zero_add] at howners hnot hnot'
    refine ⟨before, first, rest, after, numbers, numbers', hl, howners, hlength, hnot,
      hnot', ?_, ?_,
      hrest, rfl⟩
    · rw [isCheckbox, hopening]
      rfl
    · have hplace := congrArg (fun l => l[i]?) (openings_eq (lines text))
      have hown : (blocks isCheckbox criterionBlockBoundary (lines text))[i]? =
          some (first :: rest) := hblock
      rw [List.getElem?_map, List.getElem?_map, hown] at hplace
      obtain ⟨x, hx, hsame⟩ := Option.map_eq_some_iff.1 hplace
      have hfirst : some x = checkboxText first := hsame
      rw [← hfirst]
      exact hx.symm
  subBullets n bullet h := by
    obtain ⟨b, hb, hof⟩ := subBulletCriteria_of text
    rw [hb] at h
    exact hof.bullet n bullet h
  advisories a h := by
    unfold specShapeAdvisories at h
    obtain ⟨shapes, hshapes, ha⟩ := List.mem_flatten.1 h
    obtain ⟨i, hi, rfl⟩ := List.mem_mapIdx.1 hshapes
    obtain ⟨hn, hfires⟩ := mem_shapeOf ha
    rw [hn]
    exact ⟨by omega, _, List.getElem?_eq_getElem hi, hfires⟩

end Rigger.Spec
