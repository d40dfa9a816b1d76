import Mathlib.Data.List.Chain
import Mathlib.Data.List.Nodup
import Rigger.Lib.Worklist

/-!
# Depth-first search in three colours

`visit needs` marks a node gray, walks what it needs, and marks it black; a gray node it meets on
the way closes a cycle.  The gray nodes are the path from the root, and the black ones stand in an
order in which each comes after all it needs (`Sound`), so a search that ends with a node found it
on a cycle, and one that ends with none has ordered all its roots (`search_sound`).  Every visit
takes a white node of the graph, so the search ends.
-/

namespace Lib

inductive Color where
  | white
  | gray
  | black
deriving DecidableEq

section
variable {α : Type} [Ord α] [Std.TransOrd α]

abbrev Colors (α : Type) [Ord α] := Std.ExtTreeMap α Color

def Colors.of (colors : Colors α) (x : α) : Color := colors[x]?.getD .white

namespace Dfs

/-- Walk what a node needs; an error is a node met on the path to it. -/
def walk (visit : α → Colors α → Option (Except α (Colors α))) :
    List α → Colors α → Option (Except α (Colors α))
  | [], colors => some (.ok colors)
  | m :: ms, colors =>
    match colors.of m with
    | .gray => some (.error m)
    | .black => walk visit ms colors
    | .white =>
      (visit m colors).bind fun
        | .error bad => some (.error bad)
        | .ok colors => walk visit ms colors

variable (needs : α → List α)

/-- Each level of fuel takes one more node on the path. -/
def visit : Nat → α → Colors α → Option (Except α (Colors α))
  | 0, _, _ => none
  | fuel + 1, n, colors =>
    (walk (visit fuel) (needs n) (colors.insert n .gray)).map fun
      | .error bad => .error bad
      | .ok colors => .ok (colors.insert n .black)

/-- The node the search of the roots found, if any. -/
def search (fuel : Nat) : List α → Colors α → Option (Option α)
  | [], _ => some none
  | n :: ns, colors =>
    if colors.of n = .white then
      (visit needs fuel n colors).bind fun
        | .error bad => some (some bad)
        | .ok colors => search fuel ns colors
    else search fuel ns colors

/-! ## Orders -/

def Needs (x y : α) : Prop := y ∈ needs x

/-- Each of the list comes after all it needs. -/
def Ordered (order : List α) : Prop :=
  ∀ before x after, order = before ++ x :: after → ∀ y ∈ needs x, y ∈ before

variable {needs} {order : List α}

omit [Ord α] [Std.TransOrd α] in
theorem Ordered.concat (h : Ordered needs order) {n : α} (hn : ∀ y ∈ needs n, y ∈ order) :
    Ordered needs (order ++ [n]) := by
  intro before x after heq y hy
  rcases List.eq_nil_or_concat after with rfl | ⟨after, z, rfl⟩
  · obtain ⟨rfl, hlast⟩ := List.append_inj' heq rfl
    cases hlast
    exact hn y hy
  · rw [List.concat_eq_append, ← List.cons_append, ← List.append_assoc] at heq
    exact h before x after (List.append_inj' heq rfl).1 y hy

omit [Ord α] [Std.TransOrd α] in
theorem Ordered.before {before after : List α} {x y : α}
    (h : Ordered needs (before ++ x :: after)) (hxy : Relation.TransGen (Needs needs) x y) :
    y ∈ before := by
  induction hxy with
  | single hy => exact h before x after rfl _ hy
  | @tail y z _ hz ih =>
    obtain ⟨early, late, rfl⟩ := List.append_of_mem ih
    have hearly := h early y (late ++ x :: after) (by simp) z hz
    exact List.mem_append_left _ hearly

omit [Ord α] [Std.TransOrd α] in
theorem Ordered.acyclic (h : Ordered needs order) (hnodup : order.Nodup) {x : α} (hx : x ∈ order) :
    ¬Relation.TransGen (Needs needs) x x := by
  intro hcycle
  obtain ⟨before, after, rfl⟩ := List.append_of_mem hx
  have hdisjoint := (List.nodup_append'.1 hnodup).2.2
  exact hdisjoint (h.before hcycle) List.mem_cons_self

/-! ## What a search knows -/

/-- The gray nodes are the path, the latest first; the black ones are in order. -/
structure Sound (needs : α → List α) (path order : List α) (colors : Colors α) : Prop where
  gray : ∀ x, colors.of x = .gray ↔ x ∈ path
  black : ∀ x, colors.of x = .black ↔ x ∈ order
  chain : path.IsChain fun x y => Needs needs y x
  nodup : order.Nodup
  ordered : Ordered needs order

omit [Ord α] [Std.TransOrd α] in
theorem reaches_head {n : α} {path : List α} (h : (n :: path).IsChain fun x y => Needs needs y x)
    {m : α} (hm : m ∈ n :: path) : Relation.ReflTransGen (Needs needs) m n := by
  induction path generalizing n with
  | nil =>
    rw [List.mem_singleton.1 hm]
  | cons p path ih =>
    rcases List.mem_cons.1 hm with rfl | hm
    · exact .refl
    · obtain ⟨hp, hpath⟩ := List.isChain_cons_cons.1 h
      exact (ih hpath hm).tail hp

theorem sound_empty : Sound needs [] [] ∅ where
  gray x := by simp [Colors.of]
  black x := by simp [Colors.of]
  chain := List.isChain_nil
  nodup := List.nodup_nil
  ordered before x after h := by simp at h

variable [Std.LawfulEqOrd α] {path : List α} {colors : Colors α} {n : α}

theorem of_insert [DecidableEq α] (colors : Colors α) (n : α) (c : Color) (x : α) :
    Colors.of (colors.insert n c) x = if n = x then c else colors.of x := by
  unfold Colors.of
  rw [Std.ExtTreeMap.getElem?_insert]
  by_cases hx : n = x
  · rw [if_pos (Std.LawfulEqCmp.compare_eq_iff_eq.2 hx), if_pos hx, Option.getD_some]
  · rw [if_neg fun h => hx (Std.LawfulEqCmp.compare_eq_iff_eq.1 h), if_neg hx]

theorem Sound.enter (h : Sound needs path order colors) (hn : colors.of n = .white)
    (hchain : (n :: path).IsChain fun x y => Needs needs y x) :
    Sound needs (n :: path) order (colors.insert n .gray) where
  gray x := by
    classical
    rw [of_insert]
    split
    · next hx => exact iff_of_true rfl (hx ▸ List.mem_cons_self)
    · next hx => rw [h.gray, List.mem_cons, or_iff_right (Ne.symm hx)]
  black x := by
    classical
    rw [of_insert, ← h.black]
    split
    · next hx =>
      subst hx
      rw [hn]
      exact iff_of_false Color.noConfusion Color.noConfusion
    · exact Iff.rfl
  chain := hchain
  nodup := h.nodup
  ordered := h.ordered

theorem Sound.leave (h : Sound needs (n :: path) order colors) (hn : n ∉ path)
    (hneeds : ∀ y ∈ needs n, y ∈ order) :
    Sound needs path (order ++ [n]) (colors.insert n .black) where
  gray x := by
    classical
    rw [of_insert]
    split
    · next hx => exact iff_of_false Color.noConfusion (hx ▸ hn)
    · next hx => rw [h.gray, List.mem_cons, or_iff_right (Ne.symm hx)]
  black x := by
    classical
    rw [of_insert, List.mem_append, List.mem_singleton, ← h.black]
    split
    · next hx => exact iff_of_true rfl (.inr hx.symm)
    · next hx => rw [or_iff_left (Ne.symm hx)]
  chain := h.chain.tail
  nodup := by
    refine List.nodup_append'.2 ⟨h.nodup, List.nodup_singleton n, ?_⟩
    intro x hx hx'
    rw [List.mem_singleton.1 hx', ← h.black, (h.gray n).2 List.mem_cons_self] at hx
    exact Color.noConfusion hx
  ordered := h.ordered.concat hneeds

/-! ## A visit -/

/-- What of `bound` is white. -/
def room (bound : List α) (colors : Colors α) : Nat :=
  (bound.filter fun x => colors.of x = .white).length

theorem room_insert_le {bound : List α} {c : Color} (hc : c ≠ .white) :
    room bound (colors.insert n c) ≤ room bound colors := by
  classical
  refine (List.monotone_filter_right bound fun x hx => ?_).length_le
  rw [decide_eq_true_iff, of_insert] at hx
  split at hx
  · exact absurd hx hc
  · exact decide_eq_true hx

theorem room_insert_lt {bound : List α} {c : Color} (hc : c ≠ .white) (hn : n ∈ bound)
    (hwhite : colors.of n = .white) : room bound (colors.insert n c) < room bound colors := by
  classical
  have hsplit : bound.filter (fun x => Colors.of (colors.insert n c) x = .white) =
      (bound.filter fun x => colors.of x = .white).filter (· ≠ n) := by
    rw [List.filter_filter]
    refine List.filter_congr fun x _ => ?_
    rw [of_insert]
    by_cases hx : n = x
    · simp [hx, hc]
    · simp [hx, Ne.symm hx]
  rw [room, hsplit, room, List.length_filter_lt_length_iff_exists]
  exact ⟨n, List.mem_filter.2 ⟨hn, decide_eq_true hwhite⟩, by simp⟩

/-- The node an error names is on a cycle; without one, the path stays and more is in order. -/
def Outcome (needs : α → List α) (bound path order : List α) (colors : Colors α) (wanted : List α) :
    Except α (Colors α) → Prop
  | .error bad => Relation.TransGen (Needs needs) bad bad
  | .ok colors' => ∃ order', Sound needs path order' colors' ∧ order ⊆ order' ∧ wanted ⊆ order' ∧
      room bound colors' ≤ room bound colors

/-- The visit of a white node, where no more than `r` is white. -/
def Visits (needs : α → List α) (bound : List α) (r : Nat) : Prop :=
  ∀ path order colors n, room bound colors ≤ r → Sound needs path order colors →
    colors.of n = .white → n ∈ bound → (n :: path).IsChain (fun x y => Needs needs y x) →
    ∃ out, (∀ fuel ≥ room bound colors, visit needs fuel n colors = some out) ∧
      Outcome needs bound path order colors [n] out

variable {bound : List α}

omit [Std.LawfulEqOrd α] in
theorem walk_sound {r : Nat} (hvisits : Visits needs bound r)
    (hbound : ∀ x, ∀ y ∈ needs x, y ∈ bound) (ms : List α) (hms : ∀ m ∈ ms, m ∈ needs n)
    (hroom : room bound colors ≤ r) (h : Sound needs (n :: path) order colors) :
    ∃ out, (∀ fuel ≥ room bound colors, walk (visit needs fuel) ms colors = some out) ∧
      Outcome needs bound (n :: path) order colors ms out := by
  induction ms generalizing order colors with
  | nil =>
    exact ⟨.ok colors, fun _ _ => rfl, order, h, List.Subset.refl _, List.nil_subset _,
      Nat.le_refl _⟩
  | cons m ms ih =>
    have hm : Needs needs n m := hms m List.mem_cons_self
    have hms : ∀ m ∈ ms, m ∈ needs n := fun x hx => hms x (List.mem_cons_of_mem m hx)
    cases hcolor : colors.of m with
    | gray =>
      refine ⟨.error m, fun fuel _ => by simp only [walk, hcolor], ?_⟩
      exact Relation.TransGen.tail' (reaches_head h.chain ((h.gray m).1 hcolor)) hm
    | black =>
      obtain ⟨out, hwalk, hout⟩ := ih hms hroom h
      refine ⟨out, fun fuel hfuel => by simp only [walk, hcolor, hwalk fuel hfuel], ?_⟩
      cases out with
      | error bad => exact hout
      | ok colors' =>
        obtain ⟨order', hsound, hold, hwanted, hle⟩ := hout
        exact ⟨order', hsound, hold, List.cons_subset.2 ⟨hold ((h.black m).1 hcolor), hwanted⟩, hle⟩
    | white =>
      obtain ⟨out, hvisit, hout⟩ := hvisits (n :: path) order colors m hroom h hcolor
        (hbound n m hm)
        (List.isChain_cons_cons.2 ⟨hm, h.chain⟩)
      cases out with
      | error bad =>
        exact ⟨.error bad, fun fuel hfuel => by simp [walk, hcolor, hvisit fuel hfuel], hout⟩
      | ok colors₁ =>
        obtain ⟨order₁, hsound₁, hold₁, hwanted₁, hle₁⟩ := hout
        obtain ⟨out, hwalk, hout⟩ := ih hms (Nat.le_trans hle₁ hroom) hsound₁
        refine ⟨out, fun fuel hfuel => ?_, ?_⟩
        · simp [walk, hcolor, hvisit fuel hfuel, hwalk fuel (Nat.le_trans hle₁ hfuel)]
        · cases out with
          | error bad => exact hout
          | ok colors' =>
            obtain ⟨order', hsound, hold, hwanted, hle⟩ := hout
            have hm' : m ∈ order' := hold (hwanted₁ List.mem_cons_self)
            exact ⟨order', hsound, fun x hx => hold (hold₁ hx), List.cons_subset.2 ⟨hm', hwanted⟩,
              Nat.le_trans hle hle₁⟩

theorem visits (hbound : ∀ x, ∀ y ∈ needs x, y ∈ bound) (r : Nat) : Visits needs bound r := by
  induction r with
  | zero =>
    intro path order colors n hroom _ hwhite hn _
    have hlt := room_insert_lt (c := .gray) Color.noConfusion hn hwhite
    omega
  | succ r ih =>
    intro path order colors n hroom h hwhite hn hchain
    have hlt := room_insert_lt (c := .gray) Color.noConfusion hn hwhite
    have hnew : n ∉ path := by
      rw [← h.gray, hwhite]
      exact Color.noConfusion
    obtain ⟨out, hwalk, hout⟩ := walk_sound ih hbound (needs n) (fun _ hm => hm) (by omega)
      (h.enter hwhite hchain)
    cases out with
    | error bad =>
      refine ⟨.error bad, fun fuel hfuel => ?_, hout⟩
      obtain ⟨fuel, rfl⟩ := Nat.exists_eq_succ_of_ne_zero (Nat.ne_of_gt (by omega : 0 < fuel))
      rw [visit, hwalk fuel (by omega)]
      rfl
    | ok colors' =>
      obtain ⟨order', hsound, hold, hwanted, hle⟩ := hout
      refine ⟨.ok (colors'.insert n .black), fun fuel hfuel => ?_, order' ++ [n],
        hsound.leave hnew hwanted, ?_, ?_, ?_⟩
      · obtain ⟨fuel, rfl⟩ := Nat.exists_eq_succ_of_ne_zero (Nat.ne_of_gt (by omega : 0 < fuel))
        rw [visit, hwalk fuel (by omega)]
        rfl
      · exact fun x hx => List.mem_append_left _ (hold hx)
      · exact List.subset_append_right _ _
      · have hblack : room bound (colors'.insert n .black) ≤ room bound colors' :=
          room_insert_le Color.noConfusion
        omega

/-! ## The search -/

theorem search_from (hbound : ∀ x, ∀ y ∈ needs x, y ∈ bound) (roots : List α)
    (hroots : ∀ x ∈ roots, x ∈ bound) (h : Sound needs [] order colors) :
    ∃ found, (∀ fuel ≥ room bound colors, search needs fuel roots colors = some found) ∧
      match found with
      | some bad => Relation.TransGen (Needs needs) bad bad
      | none => ∃ order', order'.Nodup ∧ Ordered needs order' ∧ order ⊆ order' ∧
          roots ⊆ order' := by
  induction roots generalizing order colors with
  | nil =>
    exact ⟨none, fun _ _ => rfl, order, h.nodup, h.ordered, List.Subset.refl _, List.nil_subset _⟩
  | cons n roots ih =>
    have hroots' : ∀ x ∈ roots, x ∈ bound := fun x hx => hroots x (List.mem_cons_of_mem n hx)
    by_cases hwhite : colors.of n = .white
    · obtain ⟨out, hvisit, hout⟩ := visits hbound _ [] order colors n (Nat.le_refl _) h hwhite
        (hroots n List.mem_cons_self) (List.isChain_singleton n)
      cases out with
      | error bad =>
        exact ⟨some bad, fun fuel hfuel => by simp [search, hwhite, hvisit fuel hfuel], hout⟩
      | ok colors₁ =>
        obtain ⟨order₁, hsound₁, hold₁, hwanted₁, hle₁⟩ := hout
        obtain ⟨found, hsearch, hfound⟩ := ih hroots' hsound₁
        refine ⟨found, fun fuel hfuel => ?_, ?_⟩
        · simp [search, hwhite, hvisit fuel hfuel, hsearch fuel (Nat.le_trans hle₁ hfuel)]
        · cases found with
          | some bad => exact hfound
          | none =>
            obtain ⟨order', hnodup, hordered, hold, hmem⟩ := hfound
            have hn : n ∈ order' := hold (hwanted₁ List.mem_cons_self)
            exact ⟨order', hnodup, hordered, fun x hx => hold (hold₁ hx),
              List.cons_subset.2 ⟨hn, hmem⟩⟩
    · obtain ⟨found, hsearch, hfound⟩ := ih hroots' h
      refine ⟨found, fun fuel hfuel => ?_, ?_⟩
      · rw [search, if_neg hwhite, hsearch fuel hfuel]
      · cases found with
        | some bad => exact hfound
        | none =>
          obtain ⟨order', hnodup, hordered, hold, hmem⟩ := hfound
          -- with nothing on the path, a node that is not white is black
          have hblack : colors.of n = .black := by
            cases hcolor : colors.of n with
            | white => exact absurd hcolor hwhite
            | gray => exact absurd ((h.gray n).1 hcolor) List.not_mem_nil
            | black => rfl
          exact ⟨order', hnodup, hordered, hold,
            List.cons_subset.2 ⟨hold ((h.black n).1 hblack), hmem⟩⟩

/-- The search ends; the node it finds is on a cycle, and one that finds none has put the roots in
an order in which each node comes after all it needs. -/
theorem search_sound {bound : List α} (hbound : ∀ x, ∀ y ∈ needs x, y ∈ bound) {roots : List α}
    (hroots : ∀ x ∈ roots, x ∈ bound) :
    ∃ found, Ends (search needs · roots ∅) found ∧
      match found with
      | some bad => Relation.TransGen (Needs needs) bad bad
      | none => ∃ order, order.Nodup ∧ Ordered needs order ∧ roots ⊆ order := by
  obtain ⟨found, hsearch, hfound⟩ := search_from hbound roots hroots sound_empty
  refine ⟨found, ⟨_, hsearch⟩, ?_⟩
  cases found with
  | some bad => exact hfound
  | none =>
    obtain ⟨order, hnodup, hordered, -, hmem⟩ := hfound
    exact ⟨order, hnodup, hordered, hmem⟩

end Dfs

end

end Lib
