import Mathlib.Data.Prod.Lex
import Mathlib.Data.String.Basic
import Mathlib.Algebra.Order.BigOperators.Group.List
import Rigger.Lib.Serde
import Rigger.Domain.Contextgraph
import Rigger.Grounder.DefPaths

/-!
# The structural batch of a file (`rigger-grounder/src/grounder/symbols/events.rs`,
`extract_events`)

A file's definitions become one event for each path, a parent's before its children's, then come its
references and the rows of its out-of-line modules; the first event starts the file's batch.  Events
are ordered by the length of the chain of parents above them, which ends where the paths are those
`def_paths` gives (`exists_chainLength`).
-/

namespace Rigger.Grounder

open Lib

/-! ## Files -/

inductive Lang where
  | rust | cSharp | js | ts | go | python
deriving DecidableEq

def langStr : Lang → String
  | .rust => "rust"
  | .cSharp => "csharp"
  | .js => "js"
  | .ts => "ts"
  | .go => "go"
  | .python => "python"

def kindStr : Kind → String
  | .function => "function"
  | .method => "method"
  | .type => "type"
  | .trait => "trait"
  | .impl => "impl"
  | .module => "module"
  | .constant => "constant"
  | .constructor => "constructor"
  | .macro_ => "macro"
  | .declaration => "declaration"
  | .static => "static"
  | .variant => "variant"
  | .field => "field"
  | .variable => "variable"
  | .property => "property"
  | .other => "other"

structure SymRef where
  name : String
  line : ℕ
  enclosing : Option String
  isTest : Bool
  refKind : Option String

structure FileSymbols where
  lang : Lang
  defs : List Def
  refs : List SymRef
  partial_ : Bool

/-! ## Dev-only paths -/

/-- `Path::extension`. -/
def fileExtension (path : String) : Option String :=
  (((path.toList.splitOn '/').filter fun part => part ≠ [] ∧ part ≠ ['.']).getLast?).bind
      fun name =>
    if name = ['.', '.'] then none
    else
      match rsplitOnceList '.' name with
      | some ([], _) => none
      | some (_, extension) => some (String.ofList extension)
      | none => none

/-- The language of `for_path`, with no override. -/
def forPath (path : String) : Option Lang :=
  (fileExtension path).bind fun
    | "rs" => some .rust
    | "cs" => some .cSharp
    | "ts" | "tsx" => some .ts
    | "js" | "mjs" | "cjs" | "jsx" => some .js
    | "go" => some .go
    | "py" => some .python
    | _ => none

def endsWith (s suffix : String) : Bool := decide (suffix.toList <:+ s.toList)

def holdsText (s part : String) : Bool := (splitAround part.toList s.toList).isSome

def isDevOnly (path : String) : Bool :=
  let name := baseOf path
  let lang := forPath path
  let devDir := fun dir : String =>
    ["tests", "benches", "examples", "__tests__"].contains dir ||
      (lang == some .cSharp && (endsWith dir "Test" || endsWith dir "Tests"))
  (((dirOf path).toList.splitOn '/').map String.ofList).any devDir ||
    match lang with
    | some .go => endsWith name "_test.go"
    | some .python => (stripPrefix "test_" name).isSome || endsWith name "_test.py"
    | some .js | some .ts => holdsText name ".test." || holdsText name ".spec."
    | some .rust | some .cSharp | none => false

/-! ## Events -/

/-- An event of a batch, by its payload. -/
inductive Structural where
  | entity (c : CodeEntityExtracted)
  | edge (r : EdgeInferred)

namespace Structural

def fresh : Structural → Bool
  | entity c => c.fresh
  | edge r => r.fresh

def setFresh : Structural → Structural
  | entity c => entity { c with fresh := true }
  | edge r => edge { r with fresh := true }

/-- The definition an event is of, but for the mark of its batch. -/
def entity? : Structural → Option CodeEntityExtracted
  | entity c => some { c with fresh := false }
  | edge _ => none

end Structural

/-- `empty_structural_boundary_event`. -/
def boundaryEvent (file lang : String) (partial_ : Bool) : Structural :=
  .edge ⟨file, "", lang, true, none, 0, false, partial_, none⟩

section
variable (file : String) (fs : FileSymbols)

def entityOf (d : Def) : CodeEntityExtracted where
  file := file
  name := d.name
  path := if d.path ≠ d.name then some d.path else none
  parent := d.parent
  kind := kindStr d.kind
  line := d.line
  lang := langStr fs.lang
  fresh := false
  partial_ := fs.partial_

def referenceOf (r : SymRef) : EdgeInferred where
  file := file
  name := r.name
  lang := langStr fs.lang
  fresh := false
  caller := r.enclosing
  line := 0
  isTest := false
  partial_ := fs.partial_
  refKind := r.refKind

/-- The row of an out-of-line module that names a candidate. -/
def moduleRow (d : Def) : Option EdgeInferred :=
  let candidates := moduleCandidates file d
  if candidates = [] then none
  else
    some
      { file := file
        name := (String.singleton moduleCandidateSeparator).intercalate candidates
        lang := langStr fs.lang
        fresh := false
        caller := some d.path
        line := 0
        isTest := false
        partial_ := fs.partial_
        refKind := some refKindModule }

def survivors : List Def := fs.defs.filter fun d => !d.isTest

/-- The references by name and line. -/
def references : List EdgeInferred :=
  ((fs.refs.filter fun r => !r.isTest).mergeSort fun a b =>
    decide (toLex (a.name, a.line) ≤ toLex (b.name, b.line))).map (referenceOf file fs)

def moduleRows : List EdgeInferred :=
  ((survivors fs).filter fun d => d.isOutOfLineModule).filterMap (moduleRow file fs)

end

/-! ## One definition for each path -/

def pathPrecedence (d : Def) : ℕ ×ₗ ℕ := toLex (definitionPrecedence (kindStr d.kind) d.line)

/-- The definition held at each path, with its place among the survivors. -/
abbrev Emitted := Std.ExtTreeMap String (Def × ℕ)

def hold (emitted : Emitted) (d : Def × ℕ) : Emitted :=
  match emitted[d.1.path]? with
  | none => emitted.insert d.1.path d
  | some held =>
    if pathPrecedence d.1 < pathPrecedence held.1 then emitted.insert d.1.path d else emitted

def emittedOf (survivors : List Def) : Emitted := survivors.zipIdx.foldl hold ∅

/-- None where the chain is longer than `fuel`. -/
def chainLength (emitted : Emitted) : ℕ → Option String → Option ℕ
  | _, none => some 0
  | 0, some _ => none
  | fuel + 1, some path =>
    match emitted[path]? with
    | none => some 1
    | some d => (chainLength emitted fuel d.1.parent).map (1 + ·)

/-- The definitions held, in the order of the survivors. -/
def heldDefs (survivors : List Def) : List Def :=
  (survivors.zipIdx.filter fun d =>
    ((emittedOf survivors)[d.1.path]?).map Prod.snd = some d.2).map Prod.fst

def emissionKey (x : ℕ × Def) : ℕ ×ₗ String ×ₗ String := toLex (x.1, toLex (x.2.name, x.2.path))

/-- The definitions held, a parent before its children. -/
def emittedDefs (fuel : ℕ) (survivors : List Def) : Option (List Def) :=
  ((heldDefs survivors).mapM fun d =>
    (chainLength (emittedOf survivors) fuel d.parent).map fun n => (n, d)).map fun keyed =>
      (keyed.mergeSort fun a b => decide (emissionKey a ≤ emissionKey b)).map Prod.snd

/-- The first event starts the batch; a batch with none is its boundary. -/
def stamped (boundary : Structural) : List Structural → List Structural
  | [] => [boundary]
  | first :: rest => first.setFresh :: rest

def extractEvents (fuel : ℕ) (file : String) (fs : FileSymbols) : Option (List Structural) :=
  let boundary := boundaryEvent file (langStr fs.lang) fs.partial_
  if isDevOnly file then some [boundary]
  else
    (emittedDefs fuel (survivors fs)).map fun defs =>
      stamped boundary (defs.map (fun d => .entity (entityOf file fs d)) ++
        (references file fs ++ moduleRows file fs).map .edge)

/-! ## What is held -/

/-- What is held at a path of the definitions read: the first of the least precedence. -/
def HeldAt (l : List (Def × ℕ)) (path : String) : Option (Def × ℕ) → Prop
  | none => ∀ x ∈ l, x.1.path ≠ path
  | some held => held.1.path = path ∧ ∃ before after, l = before ++ held :: after ∧
      (∀ x ∈ before, x.1.path = path → pathPrecedence held.1 < pathPrecedence x.1) ∧
      ∀ x ∈ after, x.1.path = path → pathPrecedence held.1 ≤ pathPrecedence x.1

variable {path : String} {d : Def × ℕ}

theorem HeldAt.other {l : List (Def × ℕ)} {o : Option (Def × ℕ)} (h : HeldAt l path o)
    (hd : d.1.path ≠ path) : HeldAt (l ++ [d]) path o := by
  cases o with
  | none =>
    intro x hx
    rcases List.mem_append.1 hx with hx | hx
    · exact h x hx
    · rwa [List.mem_singleton.1 hx]
  | some held =>
    obtain ⟨hpath, before, after, rfl, hbefore, hafter⟩ := h
    refine ⟨hpath, before, after ++ [d], by simp, hbefore, fun x hx hxpath => ?_⟩
    rcases List.mem_append.1 hx with hx | hx
    · exact hafter x hx hxpath
    · rw [List.mem_singleton.1 hx] at hxpath
      exact absurd hxpath hd

variable {held : Def × ℕ} {emitted : Emitted} {events : List Structural} {boundary : Structural}

theorem HeldAt.later {l : List (Def × ℕ)} (h : HeldAt l path (some held))
    (hle : pathPrecedence held.1 ≤ pathPrecedence d.1) : HeldAt (l ++ [d]) path (some held) := by
  obtain ⟨hpath, before, after, rfl, hbefore, hafter⟩ := h
  refine ⟨hpath, before, after ++ [d], by simp, hbefore, fun x hx hxpath => ?_⟩
  rcases List.mem_append.1 hx with hx | hx
  · exact hafter x hx hxpath
  · rwa [List.mem_singleton.1 hx]

theorem HeldAt.lesser {l : List (Def × ℕ)} (h : HeldAt l path (some held)) (hd : d.1.path = path)
    (hlt : pathPrecedence d.1 < pathPrecedence held.1) : HeldAt (l ++ [d]) path (some d) := by
  obtain ⟨-, before, after, rfl, hbefore, hafter⟩ := h
  refine ⟨hd, before ++ held :: after, [], by simp, fun x hx hxpath => ?_, by simp⟩
  rcases List.mem_append.1 hx with hx | hx
  · exact lt_trans hlt (hbefore x hx hxpath)
  · rcases List.mem_cons.1 hx with rfl | hx
    · exact hlt
    · exact lt_of_lt_of_le hlt (hafter x hx hxpath)

theorem heldAt_foldl (l : List (Def × ℕ)) (path : String) :
    HeldAt l path (l.foldl hold ∅)[path]? := by
  induction l using List.reverseRecOn with
  | nil => simp [HeldAt]
  | append_singleton l d ih =>
    rw [List.foldl_append, List.foldl_cons, List.foldl_nil]
    generalize l.foldl hold ∅ = emitted at ih
    have hinsert : ∀ {p : String}, (emitted.insert d.1.path d)[p]? =
        if d.1.path = p then some d else emitted[p]? := by
      intro p
      rw [Std.ExtTreeMap.getElem?_insert]
      simp
    by_cases hd : d.1.path = path
    · subst hd
      unfold hold
      cases hheld : emitted[d.1.path]? with
      | none =>
        rw [hheld] at ih
        dsimp only
        rw [hinsert, if_pos rfl]
        exact ⟨rfl, l, [], by simp, fun x hx hxpath => absurd hxpath (ih x hx), by simp⟩
      | some held =>
        rw [hheld] at ih
        dsimp only
        split
        · next hlt =>
          rw [hinsert, if_pos rfl]
          exact ih.lesser rfl hlt
        · next hge =>
          rw [hheld]
          exact ih.later (not_lt.1 hge)
    · have hsame : (hold emitted d)[path]? = emitted[path]? := by
        unfold hold
        split
        · rw [hinsert, if_neg hd]
        · split
          · rw [hinsert, if_neg hd]
          · rfl
      rw [hsame]
      exact ih.other hd

/-- The definition is the first of its path by precedence and then by place. -/
def First (l : List Def) (d : Def) : Prop :=
  ∃ before after, l = before ++ d :: after ∧
    (∀ x ∈ before, x.path = d.path → pathPrecedence d < pathPrecedence x) ∧
    ∀ x ∈ after, x.path = d.path → pathPrecedence d ≤ pathPrecedence x

section
variable {l : List Def}

theorem emittedOf_eq_some {path : String} {x : Def × ℕ} (h : (emittedOf l)[path]? = some x) :
    x.1.path = path ∧ l[x.2]? = some x.1 ∧ First l x.1 := by
  have hheld := heldAt_foldl l.zipIdx path
  rw [show (l.zipIdx.foldl hold ∅)[path]? = some x from h] at hheld
  obtain ⟨rfl, before, after, hsplit, hbefore, hafter⟩ := hheld
  have hmem : x ∈ l.zipIdx := hsplit ▸ List.mem_append_cons_self
  refine ⟨rfl, List.mem_zipIdx_iff_getElem?.1 hmem, before.map Prod.fst,
    after.map Prod.fst, ?_, ?_, ?_⟩
  · have hfst := congrArg (List.map Prod.fst) hsplit
    rw [List.zipIdx_map_fst, List.map_append, List.map_cons] at hfst
    exact hfst
  · intro y hy hpath
    obtain ⟨z, hz, rfl⟩ := List.mem_map.1 hy
    exact hbefore z hz hpath
  · intro y hy hpath
    obtain ⟨z, hz, rfl⟩ := List.mem_map.1 hy
    exact hafter z hz hpath

theorem exists_emittedOf {d : Def} (hd : d ∈ l) : ∃ x, (emittedOf l)[d.path]? = some x := by
  have hheld := heldAt_foldl l.zipIdx d.path
  cases hx : (emittedOf l)[d.path]? with
  | some x => exact ⟨x, rfl⟩
  | none =>
    rw [show (l.zipIdx.foldl hold ∅)[d.path]? = none from hx] at hheld
    obtain ⟨i, hi⟩ := List.mem_iff_getElem?.1 hd
    exact absurd rfl (hheld (d, i) (List.mem_zipIdx_iff_getElem?.2 hi))

/-- A definition is held where it stands. -/
theorem mem_heldDefs {d : Def} : d ∈ heldDefs l ↔
    ∃ i, (emittedOf l)[d.path]? = some (d, i) := by
  unfold heldDefs
  rw [List.mem_map]
  constructor
  · rintro ⟨⟨d, i⟩, hmem, rfl⟩
    rw [List.mem_filter, List.mem_zipIdx_iff_getElem?, decide_eq_true_eq] at hmem
    obtain ⟨hat, hheld⟩ := hmem
    obtain ⟨x, hx, hplace⟩ := Option.map_eq_some_iff.1 hheld
    obtain ⟨-, hat', -⟩ := emittedOf_eq_some hx
    rw [hplace] at hat'
    rw [show l[(d, i).2]? = some d from hat] at hat'
    exact ⟨i, by rw [hx]; exact congrArg some (Prod.ext (Option.some.inj hat').symm hplace)⟩
  · rintro ⟨i, hi⟩
    refine ⟨(d, i), ?_, rfl⟩
    rw [List.mem_filter, List.mem_zipIdx_iff_getElem?, decide_eq_true_eq, hi]
    exact ⟨(emittedOf_eq_some hi).2.1, rfl⟩

theorem nodup_heldDefs (l : List Def) : ((heldDefs l).map Def.path).Nodup := by
  unfold heldDefs
  rw [List.map_map, List.Nodup, List.pairwise_map]
  have hplaces : (l.zipIdx.filter fun d =>
      ((emittedOf l)[d.1.path]?).map Prod.snd = some d.2).Pairwise fun a b => a.2 < b.2 := by
    refine List.Pairwise.filter _ (List.pairwise_map.1 ?_)
    rw [List.zipIdx_map_snd]
    exact List.pairwise_lt_range'
  refine hplaces.imp_of_mem fun {a b} ha hb hlt hpath => ?_
  have ha := of_decide_eq_true (List.mem_filter.1 ha).2
  have hb := of_decide_eq_true (List.mem_filter.1 hb).2
  rw [show a.1.path = b.1.path from hpath, hb] at ha
  exact Nat.lt_irrefl _ (Option.some.inj ha ▸ hlt)

end

/-! ## Chains -/

theorem chainLength_mono {fuel fuel' : ℕ} {parent : Option String} {n : ℕ}
    (h : chainLength emitted fuel parent = some n) (hle : fuel ≤ fuel') :
    chainLength emitted fuel' parent = some n := by
  induction fuel generalizing parent fuel' n with
  | zero =>
    cases parent with
    | none => cases fuel' <;> exact h
    | some path => cases h
  | succ fuel ih =>
    obtain ⟨k, rfl⟩ := Nat.exists_eq_add_of_le' (Nat.one_le_of_lt (Nat.lt_of_succ_le hle))
    cases parent with
    | none => exact h
    | some path =>
      unfold chainLength at h ⊢
      cases hheld : emitted[path]? with
      | none =>
        rw [hheld] at h
        exact h
      | some x =>
        rw [hheld] at h
        obtain ⟨m, hm, rfl⟩ := Option.map_eq_some_iff.1 h
        dsimp only
        rw [ih hm (Nat.le_of_succ_le_succ hle)]
        rfl

theorem chainLength_parent {fuel : ℕ} {x : Def × ℕ} {n : ℕ}
    (h : chainLength emitted fuel (some path) = some n) (hheld : emitted[path]? = some x) :
    ∃ m, chainLength emitted fuel x.1.parent = some m ∧ n = 1 + m := by
  cases fuel with
  | zero => cases h
  | succ fuel =>
    unfold chainLength at h
    rw [hheld] at h
    obtain ⟨m, hm, rfl⟩ := Option.map_eq_some_iff.1 h
    exact ⟨m, chainLength_mono hm (Nat.le_succ fuel), rfl⟩

/-- A parent has fewer separators than its child. -/
def Grows (l : List Def) : Prop :=
  ∀ d ∈ l, ∀ p, d.parent = some p → separators p < separators d.path

section
variable {l : List Def} (hgrows : Grows l)
include hgrows

theorem exists_chainLength {fuel : ℕ} {path : String} (h : separators path < fuel) :
    ∃ n, chainLength (emittedOf l) fuel (some path) = some n := by
  induction fuel generalizing path with
  | zero => exact absurd h (Nat.not_lt_zero _)
  | succ fuel ih =>
    unfold chainLength
    cases hheld : (emittedOf l)[path]? with
    | none => exact ⟨1, rfl⟩
    | some x =>
      obtain ⟨rfl, hat, -⟩ := emittedOf_eq_some hheld
      dsimp only
      cases hparent : x.1.parent with
      | none =>
        refine ⟨1, ?_⟩
        cases fuel <;> rfl
      | some p =>
        have hlt := hgrows x.1 (List.mem_of_getElem? hat) p hparent
        obtain ⟨n, hn⟩ := ih (Nat.lt_of_lt_of_le hlt (Nat.le_of_lt_succ h))
        exact ⟨1 + n, by rw [hn]; rfl⟩

theorem exists_chainLength_of_mem {d : Def} (hd : d ∈ l) :
    ∃ n, chainLength (emittedOf l) (l.map fun d => separators d.path).sum d.parent = some n := by
  cases hparent : d.parent with
  | none => exact ⟨0, by cases (l.map fun d => separators d.path).sum <;> rfl⟩
  | some p =>
    refine exists_chainLength hgrows (Nat.lt_of_lt_of_le (hgrows d hd p hparent) ?_)
    exact List.single_le_sum (fun _ _ => Nat.zero_le _) _ (List.mem_map.2 ⟨d, hd, rfl⟩)

/-- What is emitted are the definitions held, each after the one at its parent's path. -/
theorem exists_emittedDefs : ∃ defs fuel₀, (∀ fuel, fuel₀ ≤ fuel → emittedDefs fuel l = some defs) ∧
    defs.Perm (heldDefs l) ∧ ∀ before d after p, defs = before ++ d :: after → d.parent = some p →
      p ∈ defs.map Def.path → p ∈ before.map Def.path := by
  let fuel₀ := (l.map fun d => separators d.path).sum
  let rank := fun d : Def => (chainLength (emittedOf l) fuel₀ d.parent).getD 0
  have hheld : ∀ d ∈ heldDefs l, d ∈ l := by
    intro d hd
    obtain ⟨i, hi⟩ := mem_heldDefs.1 hd
    exact List.mem_of_getElem? (emittedOf_eq_some hi).2.1
  have hrank : ∀ d ∈ heldDefs l, chainLength (emittedOf l) fuel₀ d.parent = some (rank d) := by
    intro d hd
    obtain ⟨n, hn⟩ := exists_chainLength_of_mem hgrows (hheld d hd)
    show chainLength (emittedOf l) fuel₀ d.parent = some (Option.getD _ 0)
    rw [hn]
    rfl
  let keyed := ((heldDefs l).map fun d => (rank d, d)).mergeSort fun a b =>
    decide (emissionKey a ≤ emissionKey b)
  have hperm : keyed.Perm ((heldDefs l).map fun d => (rank d, d)) := List.mergeSort_perm _ _
  have hkeyed : ∀ x ∈ keyed, x.2 ∈ heldDefs l ∧ x.1 = rank x.2 := by
    intro x hx
    obtain ⟨d, hd, rfl⟩ := List.mem_map.1 (hperm.mem_iff.1 hx)
    exact ⟨hd, rfl⟩
  have hsorted : keyed.Pairwise fun a b => a.1 ≤ b.1 := by
    refine (pairwise_mergeSort_key emissionKey _).imp fun {a b} hle => ?_
    unfold emissionKey at hle
    rw [Prod.Lex.toLex_le_toLex] at hle
    rcases hle with hlt | ⟨heq, -⟩
    · exact Nat.le_of_lt hlt
    · exact Nat.le_of_eq heq
  refine ⟨keyed.map Prod.snd, fuel₀, fun fuel hfuel => ?_, ?_, ?_⟩
  · have hmapM : ((heldDefs l).mapM fun d =>
        (chainLength (emittedOf l) fuel d.parent).map fun n => (n, d)) =
          some ((heldDefs l).map fun d => (rank d, d)) := by
      rw [mapM_eq_some_iff, List.map_map]
      refine List.map_congr_left fun d hd => ?_
      rw [chainLength_mono (hrank d hd) hfuel]
      rfl
    rw [emittedDefs, hmapM]
    rfl
  · have h := hperm.map Prod.snd
    rwa [List.map_map, show Prod.snd ∘ (fun d => (rank d, d)) = id from rfl, List.map_id] at h
  · intro before d after p hsplit hparent hp
    obtain ⟨b, rest, hkeys, rfl, hrest⟩ := List.map_eq_append_iff.1 hsplit
    obtain ⟨x, a, rfl, rfl, rfl⟩ := List.map_eq_cons_iff.1 hrest
    have hmem : ∀ y ∈ b ++ x :: a, y.2 ∈ heldDefs l ∧ y.1 = rank y.2 := hkeys ▸ hkeyed
    have hx := hmem x List.mem_append_cons_self
    -- the definition held at the parent's path has the shorter chain
    obtain ⟨_, hpd, rfl⟩ := List.mem_map.1 hp
    obtain ⟨y, hy, rfl⟩ := List.mem_map.1 hpd
    rw [hkeys] at hy
    obtain ⟨i, hi⟩ := mem_heldDefs.1 (hmem y hy).1
    have hchain := hrank x.2 hx.1
    rw [hparent] at hchain
    obtain ⟨m, hm, hsucc⟩ := chainLength_parent hchain hi
    rw [hrank y.2 (hmem y hy).1] at hm
    have hlt : y.1 < x.1 := by
      rw [(hmem y hy).2, hx.2, hsucc, Option.some.inj hm]
      omega
    rcases List.mem_append.1 hy with hy | hy
    · exact List.mem_map.2 ⟨y.2, List.mem_map.2 ⟨y, hy, rfl⟩, rfl⟩
    · rcases List.mem_cons.1 hy with rfl | hy
      · exact absurd hlt (Nat.lt_irrefl _)
      · rw [hkeys, List.pairwise_append] at hsorted
        have hle := List.rel_of_pairwise_cons hsorted.2.1 hy
        omega

end

/-! ## Batches -/

/-- The events of a file and the definitions they are of: one for each path of a definition that is
no test, the first of it, a parent's before its children's; the first event alone starts the
batch. -/
structure Batch (file : String) (fs : FileSymbols) (events : List Structural) (defs : List Def) :
    Prop where
  entities : events.filterMap Structural.entity? = defs.map (entityOf file fs)
  once : (defs.map Def.path).Nodup
  paths : ∀ p, p ∈ defs.map Def.path ↔ ∃ d ∈ fs.defs, d.isTest = false ∧ d.path = p
  first : ∀ d ∈ defs, First (survivors fs) d
  parents : ∀ before d after p, defs = before ++ d :: after → d.parent = some p →
    p ∈ defs.map Def.path → p ∈ before.map Def.path
  fresh : ∃ first rest, events = first :: rest ∧ first.fresh = true ∧ ∀ e ∈ rest, e.fresh = false

@[simp] theorem Structural.entity?_setFresh (e : Structural) : e.setFresh.entity? = e.entity? := by
  cases e <;> rfl

@[simp] theorem Structural.fresh_setFresh (e : Structural) : e.setFresh.fresh = true := by
  cases e <;> rfl

theorem fresh_stamped (hboundary : boundary.fresh = true)
    (hevents : ∀ e ∈ events, e.fresh = false) :
    ∃ first rest, stamped boundary events = first :: rest ∧ first.fresh = true ∧
      ∀ e ∈ rest, e.fresh = false := by
  cases events with
  | nil => exact ⟨boundary, [], rfl, hboundary, by simp⟩
  | cons first rest =>
    exact ⟨first.setFresh, rest, rfl, first.fresh_setFresh, fun e he =>
      hevents e (List.mem_cons_of_mem _ he)⟩

theorem entities_stamped (hboundary : boundary.entity? = none) :
    (stamped boundary events).filterMap Structural.entity? =
      events.filterMap Structural.entity? := by
  cases events with
  | nil => rw [stamped, List.filterMap_cons_none hboundary]
  | cons first rest =>
    rw [stamped, List.filterMap_cons, List.filterMap_cons, Structural.entity?_setFresh]

section
variable {file : String} {fs : FileSymbols}

theorem fresh_of_mem_edges {r : EdgeInferred}
    (h : r ∈ references file fs ++ moduleRows file fs) : r.fresh = false := by
  rcases List.mem_append.1 h with h | h
  · obtain ⟨x, -, rfl⟩ := List.mem_map.1 h
    rfl
  · obtain ⟨d, -, hd⟩ := List.mem_filterMap.1 h
    unfold moduleRow at hd
    dsimp only at hd
    split at hd
    · cases hd
    · cases hd
      rfl

theorem mem_heldDefs_path {l : List Def} {p : String} :
    p ∈ (heldDefs l).map Def.path ↔ ∃ d ∈ l, d.path = p := by
  rw [List.mem_map]
  constructor
  · rintro ⟨d, hd, rfl⟩
    obtain ⟨i, hi⟩ := mem_heldDefs.1 hd
    exact ⟨d, List.mem_of_getElem? (emittedOf_eq_some hi).2.1, rfl⟩
  · rintro ⟨d, hd, rfl⟩
    obtain ⟨⟨held, i⟩, hheld⟩ := exists_emittedOf hd
    obtain ⟨hpath, -, -⟩ := emittedOf_eq_some hheld
    exact ⟨held, mem_heldDefs.2 ⟨i, by rw [show held.path = d.path from hpath]; exact hheld⟩, hpath⟩

theorem batch_of_emitted {defs : List Def} (hperm : defs.Perm (heldDefs (survivors fs)))
    (hparents : ∀ before d after p, defs = before ++ d :: after → d.parent = some p →
      p ∈ defs.map Def.path → p ∈ before.map Def.path) :
    Batch file fs (stamped (boundaryEvent file (langStr fs.lang) fs.partial_)
      (defs.map (fun d => .entity (entityOf file fs d)) ++
        (references file fs ++ moduleRows file fs).map .edge)) defs where
  entities := by
    rw [entities_stamped rfl, List.filterMap_append, List.filterMap_map, List.filterMap_map]
    have hentity : Structural.entity? ∘ (fun d => .entity (entityOf file fs d)) =
        some ∘ entityOf file fs := rfl
    have hedge : Structural.entity? ∘ Structural.edge = fun _ => none := rfl
    rw [hentity, hedge, List.filterMap_eq_map, List.filterMap_none, List.append_nil]
  once := (hperm.map Def.path).nodup_iff.2 (nodup_heldDefs _)
  paths p := by
    rw [(hperm.map Def.path).mem_iff, mem_heldDefs_path]
    simp only [survivors, List.mem_filter, Bool.not_eq_true', and_assoc]
  first d hd := by
    obtain ⟨i, hi⟩ := mem_heldDefs.1 (hperm.mem_iff.1 hd)
    exact (emittedOf_eq_some hi).2.2
  parents := hparents
  fresh := by
    refine fresh_stamped rfl fun e he => ?_
    rcases List.mem_append.1 he with he | he
    · obtain ⟨d, -, rfl⟩ := List.mem_map.1 he
      rfl
    · obtain ⟨r, hr, rfl⟩ := List.mem_map.1 he
      exact fresh_of_mem_edges hr

theorem grows_survivors {t : DefRanges}
    (h : fs.defs.map (fun d => (d.path, d.parent)) = defPaths t) : Grows (survivors fs) := by
  intro d hd p hp
  have hmem : (d.path, d.parent) ∈ defPaths t :=
    h ▸ List.mem_map.2 ⟨d, (List.mem_filter.1 hd).1, rfl⟩
  exact separators_lt hmem hp

end

/-- The paths of a parsed file form a forest, and the extraction of a file with them ends in its
batch; at a dev-only path that is its boundary. -/
theorem extractEvents_of_defPaths (t : DefRanges) : Forest t ∧ ∀ file fs,
    fs.defs.map (fun d => (d.path, d.parent)) = defPaths t →
      ∃ events, (∃ fuel₀, ∀ fuel, fuel₀ ≤ fuel → extractEvents fuel file fs = some events) ∧
        (isDevOnly file = false → ∃ defs, Batch file fs events defs) ∧
        (isDevOnly file = true →
          events = [boundaryEvent file (langStr fs.lang) fs.partial_]) := by
  refine ⟨forest t, fun file fs hpaths => ?_⟩
  obtain ⟨defs, fuel₀, hemitted, hperm, hparents⟩ := exists_emittedDefs (grows_survivors hpaths)
  cases hdev : isDevOnly file with
  | true =>
    refine ⟨_, ⟨0, fun fuel _ => ?_⟩, fun h => (by cases h), fun _ => rfl⟩
    rw [extractEvents, hdev, if_pos rfl]
  | false =>
    refine ⟨_, ⟨fuel₀, fun fuel hfuel => ?_⟩, fun _ => ⟨defs, batch_of_emitted hperm hparents⟩,
      fun h => (by cases h)⟩
    rw [extractEvents, hdev, hemitted fuel hfuel]
    rfl

/-- A type, an impl of it and a method. -/
def methodRanges : DefRanges where
  ranges := [⟨0, 10, "S", .type, .other⟩, ⟨11, 40, "impl S", .impl, .implItem "S" none⟩,
    ⟨20, 30, "f", .method, .other⟩]
  sourceLen := 41
  inside := by decide
  headed := by simp [implHeader]
  oneGrammar := .inl (by decide)

def methodSymbols : FileSymbols where
  lang := .rust
  defs := [⟨.type, "S", 1, "S", none, false, false, none, none⟩,
    ⟨.impl, "impl S", 3, "impl S", none, false, false, none, none⟩,
    ⟨.method, "f", 4, "S::f", some "impl S", false, false, none, none⟩]
  refs := []
  partial_ := false

theorem defPaths_methodRanges :
    methodSymbols.defs.map (fun d => (d.path, d.parent)) = defPaths methodRanges := by
  have hlen : methodRanges.spanLen 0 = 10 ∧ methodRanges.spanLen 1 = 29 ∧
      methodRanges.spanLen 2 = 10 := by decide
  have hrange : List.range methodRanges.ranges.length = [0, 1, 2] := rfl
  have horder : methodRanges.order = [1, 0, 2] := by
    simp [DefRanges.order, hrange, List.mergeSort, hlen, List.MergeSort.Internal.splitInTwo]
  unfold defPaths resolveAll
  rw [horder]
  decide +kernel

theorem extractEvents_of_methodRanges : isDevOnly "src/s.rs" = false ∧
    ∃ events fuel, extractEvents fuel "src/s.rs" methodSymbols = some events ∧
      ∃ defs, Batch "src/s.rs" methodSymbols events defs := by
  have hdev : isDevOnly "src/s.rs" = false := by decide +kernel
  obtain ⟨events, ⟨fuel, hfuel⟩, hbatch, -⟩ :=
    (extractEvents_of_defPaths methodRanges).2 "src/s.rs" methodSymbols defPaths_methodRanges
  exact ⟨hdev, events, fuel, hfuel fuel (Nat.le_refl fuel), hbatch hdev⟩

/-- The file at a dev-only path has no event for its definitions. -/
theorem tests_file_is_boundary :
    ¬∀ (t : DefRanges) (file : String) (fs : FileSymbols),
      fs.defs.map (fun d => (d.path, d.parent)) = defPaths t →
        ∃ fuel events, extractEvents fuel file fs = some events ∧
          ∃ defs, Batch file fs events defs := by
  intro h
  obtain ⟨fuel, events, hevents, defs, hbatch⟩ :=
    h methodRanges "tests/s.rs" methodSymbols defPaths_methodRanges
  have hdev : isDevOnly "tests/s.rs" = true := by decide +kernel
  rw [extractEvents, hdev, if_pos rfl] at hevents
  cases hevents
  have hnone : defs.map (entityOf "tests/s.rs" methodSymbols) = [] := hbatch.entities.symm
  have hmem := (hbatch.paths "S").2 ⟨_, List.mem_cons_self, rfl, rfl⟩
  rw [List.map_eq_nil_iff.1 hnone] at hmem
  exact absurd hmem List.not_mem_nil

end Rigger.Grounder
