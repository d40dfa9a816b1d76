import Mathlib.Data.List.Induction
import Mathlib.Data.List.Count

/-!
# A log cut at its opening rows

Every row of the log lies in a window, the number of opening rows up to it (`windowAt`).  `openings`
is one pass that writes down where each window opens, and `slices` cuts the log at those places: the
slice it cuts for a window holds exactly the rows that lie in it (`slices_openings`).
-/

namespace Lib

section
variable {α : Type} (starts : List Nat) (l : List α)

def sliceOf (bounds : Nat × Nat) : List α := (l.take bounds.2).drop bounds.1

/-- Each slice ends where the next starts, the last one with the list. -/
def slices : List (List α) := (starts.zip (starts.drop 1 ++ [l.length])).map (sliceOf l)

theorem zip_bounds {b : Nat} (n : Nat) : (starts ++ [b]).zip ((starts ++ [b]).drop 1 ++ [n]) =
    starts.zip ((starts ++ [b]).drop 1) ++ [(b, n)] := by
  rw [List.zip_append (by simp)]
  rfl

theorem slices_concat (b : Nat) : slices (starts ++ [b]) l =
    (starts.zip ((starts ++ [b]).drop 1)).map (sliceOf l) ++ [l.drop b] := by
  unfold slices
  rw [zip_bounds, List.map_append]
  simp [sliceOf]

variable {starts l}

theorem sliceOf_concat {bounds : Nat × Nat} {x : α} (h : bounds.2 ≤ l.length) :
    sliceOf (l ++ [x]) bounds = sliceOf l bounds := by
  unfold sliceOf
  rw [List.take_append_of_le_length h]

theorem map_sliceOf_concat {ends : List Nat} {x : α} (h : ∀ n ∈ ends, n ≤ l.length) :
    (starts.zip ends).map (sliceOf (l ++ [x])) = (starts.zip ends).map (sliceOf l) :=
  List.map_congr_left fun _ hb => sliceOf_concat (h _ (List.of_mem_zip hb).2)

end

section
variable {α : Type} (opens : α → Bool)

def windowAt (l : List α) (i : Nat) : Nat := (l.take (i + 1)).countP opens

/-- The rows that lie in a window. -/
def windowSlice (l : List α) (w : Nat) : List α :=
  (l.zipIdx.filter fun x => windowAt opens l x.2 = w).map Prod.fst

/-- Where the first window opens, and each one an opening row opens. -/
def openings (l : List α) : List Nat := 0 :: (l.zipIdx.filter fun x => opens x.1).map Prod.snd

variable (l : List α) (x : α)

theorem windowAt_concat {i : Nat} (h : i < l.length) :
    windowAt opens (l ++ [x]) i = windowAt opens l i := by
  unfold windowAt
  rw [List.take_append_of_le_length h]

theorem windowAt_length : windowAt opens (l ++ [x]) l.length = (l ++ [x]).countP opens := by
  unfold windowAt
  rw [List.take_of_length_le (by simp)]

theorem windowSlice_concat (w : Nat) : windowSlice opens (l ++ [x]) w =
    windowSlice opens l w ++ if (l ++ [x]).countP opens = w then [x] else [] := by
  have hold : (l.zipIdx.filter fun y => windowAt opens (l ++ [x]) y.2 = w) =
      l.zipIdx.filter fun y => windowAt opens l y.2 = w := by
    refine List.filter_congr fun y hy => ?_
    rw [windowAt_concat]
    simpa using List.snd_lt_of_mem_zipIdx hy
  unfold windowSlice
  rw [List.zipIdx_append, List.filter_append, hold, List.map_append]
  congr 1
  rw [List.zipIdx_singleton, Nat.zero_add, List.filter_cons, windowAt_length, List.filter_nil]
  by_cases hw : (l ++ [x]).countP opens = w
  · rw [if_pos hw, if_pos (decide_eq_true hw), List.map_singleton]
  · rw [if_neg hw, if_neg (by simpa using hw), List.map_nil]

theorem openings_concat :
    openings opens (l ++ [x]) = openings opens l ++ if opens x then [l.length] else [] := by
  unfold openings
  rw [List.zipIdx_append, List.filter_append, List.map_append, List.cons_append]
  cases hx : opens x <;> simp [hx]

theorem length_openings : (openings opens l).length = l.countP opens + 1 := by
  induction l using List.reverseRecOn with
  | nil => rfl
  | append_singleton l x ih =>
    rw [openings_concat, List.length_append, ih, List.countP_append]
    cases hx : opens x <;> simp [hx]

variable {opens l} in
theorem le_of_mem_openings {n : Nat} (h : n ∈ openings opens l) : n ≤ l.length := by
  rcases List.mem_cons.1 h with rfl | h
  · exact Nat.zero_le _
  · obtain ⟨y, hy, rfl⟩ := List.mem_map.1 h
    exact Nat.le_of_lt (by simpa using List.snd_lt_of_mem_zipIdx (List.mem_filter.1 hy).1)

theorem windowSlice_of_lt {w : Nat} (h : l.countP opens < w) : windowSlice opens l w = [] := by
  unfold windowSlice
  rw [List.map_eq_nil_iff, List.filter_eq_nil_iff]
  intro y _
  have hle : windowAt opens l y.2 ≤ l.countP opens := (List.take_sublist _ _).countP_le
  simp only [decide_eq_true_eq]
  omega

theorem map_windowSlice_concat {n : Nat} (h : n ≤ (l ++ [x]).countP opens) :
    (List.range n).map (windowSlice opens (l ++ [x])) =
      (List.range n).map (windowSlice opens l) := by
  refine List.map_congr_left fun w hw => ?_
  have hlt := List.mem_range.1 hw
  rw [windowSlice_concat, if_neg (by omega), List.append_nil]

theorem slices_openings :
    slices (openings opens l) l = (List.range (l.countP opens + 1)).map (windowSlice opens l) := by
  induction l using List.reverseRecOn with
  | nil => rfl
  | append_singleton l x ih =>
    obtain ⟨init, b, hopenings⟩ : ∃ init b, openings opens l = init ++ [b] :=
      ⟨_, _, (List.dropLast_concat_getLast (List.cons_ne_nil _ _)).symm⟩
    have hle : ∀ n ∈ (init ++ [b]).drop 1, n ≤ l.length := by
      intro n hn
      exact le_of_mem_openings (hopenings ▸ List.mem_of_mem_drop hn)
    rw [openings_concat, hopenings]
    rw [hopenings] at ih
    cases hx : opens x with
    | false =>
      have hcount : (l ++ [x]).countP opens = l.countP opens := by simp [List.countP_append, hx]
      have hb : b ∈ openings opens l := by
        rw [hopenings]
        simp
      rw [slices_concat, List.range_succ, List.map_append] at ih
      obtain ⟨hinit, hlast⟩ := List.append_inj' ih rfl
      rw [if_neg Bool.false_ne_true, List.append_nil, slices_concat, map_sliceOf_concat hle, hinit,
        hcount, List.range_succ, List.map_append, map_windowSlice_concat _ _ _ (by omega),
        List.drop_append_of_le_length (le_of_mem_openings hb), (List.cons.inj hlast).1,
        List.map_singleton,
        windowSlice_concat, if_pos hcount]
    | true =>
      have hcount : (l ++ [x]).countP opens = l.countP opens + 1 := by simp [List.countP_append, hx]
      have hends : ∀ n ∈ (init ++ [b] ++ [l.length]).drop 1, n ≤ l.length := by
        intro n hn
        rw [List.drop_append_of_le_length (by simp)] at hn
        rcases List.mem_append.1 hn with hn | hn
        · exact hle n hn
        · exact Nat.le_of_eq (List.mem_singleton.1 hn)
      have hcut : ((init ++ [b]).zip ((init ++ [b] ++ [l.length]).drop 1)).map (sliceOf l) =
          slices (init ++ [b]) l := by
        rw [List.drop_append_of_le_length (by simp)]
        rfl
      have hrange : List.range (l.countP opens + 1 + 1) =
          List.range (l.countP opens + 1) ++ [l.countP opens + 1] := List.range_succ
      rw [if_pos rfl, slices_concat, map_sliceOf_concat hends, hcut, ih, hcount, hrange,
        List.map_append, map_windowSlice_concat _ _ _ (by omega), List.drop_left,
        List.map_singleton, windowSlice_concat, windowSlice_of_lt _ _ (Nat.lt_succ_self _),
        if_pos hcount]
      rfl

end

end Lib
