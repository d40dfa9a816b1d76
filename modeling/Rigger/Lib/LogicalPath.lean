import Mathlib.Data.List.Basic

/-!
# Logical paths

A path is a text of segments between slashes.  `Resolves` walks segments down from a stack of names,
`.` and the empty segment staying and `..` going up; it ends nowhere where `..` climbs above the
root. What it ends at is a list of names (`Resolves.clean`), and a path of names has these names for
its segments (`segments_intercalate`).  A path that does not go up is `placed` at one of names,
itself where it is one.
-/

namespace Lib

/-! ## Segments -/

def segments (path : String) : List String := (path.toList.splitOn '/').map String.ofList

/-- A segment that names something. -/
def Clean (segment : String) : Prop := segment ≠ "" ∧ segment ≠ "." ∧ segment ≠ ".."

instance (segment : String) : Decidable (Clean segment) := instDecidableAnd

def CleanPath (path : String) : Prop := ∀ segment ∈ segments path, Clean segment

theorem segments_of_free {name : String} (h : '/' ∉ name.toList) : segments name = [name] := by
  rw [segments, List.splitOn_eq_singleton h, List.map_singleton, String.ofList_toList]

theorem segments_append (a b : String) : segments (a ++ "/" ++ b) = segments a ++ segments b := by
  have hlist : (a ++ "/" ++ b).toList = a.toList ++ '/' :: b.toList := by simp
  rw [segments, hlist, List.splitOn_append_cons_self, List.map_append]
  rfl

theorem segments_ne_nil (path : String) : segments path ≠ [] := by
  rw [segments, ne_eq, List.map_eq_nil_iff]
  exact List.splitOn_ne_nil _ _

theorem segments_empty : segments "" = [""] := segments_of_free (by simp)

variable {path : String} {names : List String}

theorem CleanPath.ne_empty (h : CleanPath path) : path ≠ "" := by
  rintro rfl
  exact (h "" (by rw [segments_empty]; exact List.mem_singleton.2 rfl)).1 rfl

theorem intercalate_segments (path : String) : "/".intercalate (segments path) = path := by
  have hid : String.toList ∘ String.ofList = id := funext fun l => String.toList_ofList
  rw [← String.toList_inj, String.toList_intercalate, segments, List.map_map, hid, List.map_id]
  exact List.intercalate_splitOn '/'

theorem segments_intercalate (hne : names ≠ []) (hfree : ∀ name ∈ names, '/' ∉ name.toList) :
    segments ("/".intercalate names) = names := by
  have hlist : ("/".intercalate names).toList = ['/'].intercalate (names.map String.toList) :=
    String.toList_intercalate
  have hparts : ∀ l ∈ names.map String.toList, '/' ∉ l := by
    intro l hl
    obtain ⟨name, hname, rfl⟩ := List.mem_map.1 hl
    exact hfree name hname
  rw [segments, hlist, List.splitOn_intercalate '/' hparts (by simpa using hne), List.map_map]
  have hid : String.ofList ∘ String.toList = id := funext fun s => String.ofList_toList
  rw [hid, List.map_id]

theorem not_mem_of_mem_splitOn {c : Char} {l part : List Char} (h : part ∈ l.splitOn c) :
    c ∉ part := by
  induction l generalizing part with
  | nil =>
    rw [List.splitOn_nil, List.mem_singleton] at h
    rw [h]
    exact List.not_mem_nil
  | cons x xs ih =>
    rw [List.splitOn_cons_eq_if_modifyHead] at h
    split at h
    · rcases List.mem_cons.1 h with rfl | h
      · exact List.not_mem_nil
      · exact ih h
    · next hne =>
      have hx : c ≠ x := by
        rintro rfl
        exact hne (beq_self_eq_true c)
      cases hsplit : xs.splitOn c with
      | nil => exact absurd hsplit (List.splitOn_ne_nil c xs)
      | cons first more =>
        rw [hsplit] at h ih
        rcases List.mem_cons.1 h with rfl | h
        · rw [List.mem_cons, not_or]
          exact ⟨hx, ih List.mem_cons_self⟩
        · exact ih (List.mem_cons_of_mem _ h)

theorem free_of_mem_segments {segment : String} (h : segment ∈ segments path) :
    '/' ∉ segment.toList := by
  obtain ⟨l, hl, rfl⟩ := List.mem_map.1 h
  rw [String.toList_ofList]
  exact not_mem_of_mem_splitOn hl

theorem CleanPath.of_append {a b : String} (h : CleanPath (a ++ "/" ++ b)) : CleanPath b := by
  intro segment hsegment
  refine h segment ?_
  rw [segments_append]
  exact List.mem_append_right _ hsegment

/-! ## Placement -/

/-- The path of names a path of the root stands for that does not go up; one that ends in no name
stands for no file. -/
def placed (path : String) : Option String :=
  if (segments path).getLast? = some "" ∨ (segments path).getLast? = some "." then none
  else some ("/".intercalate ((segments path).filter fun segment => segment ≠ "" ∧ segment ≠ "."))

theorem CleanPath.placed (h : CleanPath path) : placed path = some path := by
  have hlast : ∀ segment, (segments path).getLast? = some segment → Clean segment :=
      fun segment hs =>
    h segment (List.mem_of_getLast? hs)
  rw [Lib.placed, if_neg, List.filter_eq_self.2, intercalate_segments]
  · intro segment hsegment
    exact decide_eq_true ⟨(h segment hsegment).1, (h segment hsegment).2.1⟩
  · rintro (hs | hs)
    · exact (hlast _ hs).1 rfl
    · exact (hlast _ hs).2.1 rfl

theorem cleanPath_of_placed {file : String} (h : placed path = some file)
    (hup : ".." ∉ segments path) : CleanPath file := by
  unfold placed at h
  split at h
  · cases h
  · next hlast =>
    cases h
    obtain ⟨last, hmem⟩ : ∃ last, (segments path).getLast? = some last :=
      ⟨_, List.getLast?_eq_some_getLast (segments_ne_nil path)⟩
    rw [hmem, Option.some_inj, Option.some_inj, not_or] at hlast
    have hkept : ∀ {segment}, segment ∈ (segments path).filter (fun s => s ≠ "" ∧ s ≠ ".") →
        segment ∈ segments path ∧ segment ≠ "" ∧ segment ≠ "." := fun hs =>
      (List.mem_filter.1 hs).imp_right of_decide_eq_true
    rw [CleanPath, segments_intercalate]
    · intro segment hsegment
      obtain ⟨hin, hempty, hdot⟩ := hkept hsegment
      exact ⟨hempty, hdot, fun heq => hup (heq ▸ hin)⟩
    · exact List.ne_nil_of_mem (List.mem_filter.2 ⟨List.mem_of_getLast? hmem, decide_eq_true hlast⟩)
    · exact fun segment hsegment => free_of_mem_segments (hkept hsegment).1

/-! ## Resolution -/

/-- From the names of a stack, what the segments lead to. -/
inductive Resolves : List String → List String → List String → Prop where
  | done (stack : List String) : Resolves stack [] stack
  | stay {stack rest names : List String} {segment : String}
    (hsegment : segment = "" ∨ segment = ".")
      (hrest : Resolves stack rest names) : Resolves stack (segment :: rest) names
  | up {stack rest names : List String} (name : String) (hrest : Resolves stack rest names) :
      Resolves (stack ++ [name]) (".." :: rest) names
  | down {stack rest names : List String} {segment : String} (hsegment : Clean segment)
      (hrest : Resolves (stack ++ [segment]) rest names) : Resolves stack (segment :: rest) names

variable {stack : List String}

theorem Resolves.clean {path : List String} (h : Resolves stack path names)
    (hstack : ∀ name ∈ stack, Clean name) : ∀ name ∈ names, Clean name := by
  induction h with
  | done stack => exact hstack
  | stay _ _ ih => exact ih hstack
  | up name _ ih => exact ih fun x hx => hstack x (List.mem_append_left _ hx)
  | down hsegment _ ih =>
    refine ih ?_
    rw [List.forall_mem_append, List.forall_mem_singleton]
    exact ⟨hstack, hsegment⟩

theorem Resolves.subset {path : List String} (h : Resolves stack path names) :
    ∀ name ∈ names, name ∈ stack ∨ name ∈ path := by
  induction h with
  | done stack => exact fun name hname => .inl hname
  | stay _ _ ih => exact fun name hname => (ih name hname).imp_right (List.mem_cons_of_mem _)
  | up last _ ih =>
    intro name hname
    rcases ih name hname with h | h
    · exact .inl (List.mem_append_left _ h)
    · exact .inr (List.mem_cons_of_mem _ h)
  | down _ _ ih =>
    intro name hname
    rcases ih name hname with h | h
    · rcases List.mem_append.1 h with h | h
      · exact .inl h
      · exact .inr (List.mem_singleton.1 h ▸ List.mem_cons_self)
    · exact .inr (List.mem_cons_of_mem _ h)

/-- What a path of the root resolves to is a path of names, or the root. -/
theorem Resolves.cleanPath (h : Resolves [] (segments path) names) (hne : names ≠ []) :
    CleanPath ("/".intercalate names) := by
  have hfree : ∀ name ∈ names, '/' ∉ name.toList := fun name hname =>
    free_of_mem_segments ((h.subset name hname).resolve_left List.not_mem_nil)
  rw [CleanPath, segments_intercalate hne hfree]
  exact h.clean (by simp)

end Lib
