import Mathlib.Logic.Relation
import Mathlib.Data.List.Basic

/-!
# The closure of a set under a worklist

`Worklist.run next` pops an element, marks and pushes what of `next` of it is not marked yet, and
goes on until nothing is left to pop.  What it has marked and not pushed it has looked around from
(`Sound.expanded`), so with nothing left it has marked the closure of the seeds (`Sound.closed`).
Where `next` stays within a list, a round empties the work or marks an element of that list, so the
search ends (`run_closure`), whatever the order it pops in.

A loop on fuel `Ends` with what it answers on all fuel but too little.
-/

namespace Lib

section
variable {β γ : Type} {loop : Nat → Option β} {b c : β}

def Ends (loop : Nat → Option β) (b : β) : Prop := ∃ enough, ∀ fuel ≥ enough, loop fuel = some b

theorem Ends.unique (hb : Ends loop b) (hc : Ends loop c) : b = c := by
  obtain ⟨n, hb⟩ := hb
  obtain ⟨m, hc⟩ := hc
  have heq : some b = some c :=
    (hb (max n m) (Nat.le_max_left n m)).symm.trans (hc (max n m) (Nat.le_max_right n m))
  exact Option.some.inj heq

theorem Ends.bind {next : Nat → β → Option γ} {d : γ} (hb : Ends loop b)
    (hd : Ends (fun fuel => next fuel b) d) : Ends
    (fun fuel => (loop fuel).bind (next fuel)) d := by
  obtain ⟨n, hb⟩ := hb
  obtain ⟨m, hd⟩ := hd
  refine ⟨max n m, fun fuel hfuel => Option.bind_eq_some_iff.2 ⟨b, ?_, ?_⟩⟩
  · exact hb fuel (Nat.le_trans (Nat.le_max_left n m) hfuel)
  · exact hd fuel (Nat.le_trans (Nat.le_max_right n m) hfuel)

theorem Ends.map (hb : Ends loop b) (f : β → γ) : Ends (fun fuel => (loop fuel).map f) (f b) := by
  obtain ⟨n, hb⟩ := hb
  exact ⟨n, fun fuel hfuel => Option.map_eq_some_iff.2 ⟨b, hb fuel hfuel, rfl⟩⟩

end

section
variable {α : Type} [Ord α]

/-- What a search has reached, and what of it it has yet to look around from, the next one first. -/
structure Worklist (α : Type) [Ord α] where
  reached : Std.ExtTreeSet α
  work : List α

variable [Std.TransOrd α]

namespace Worklist

def push (s : Worklist α) (x : α) : Worklist α :=
  if x ∈ s.reached then s else ⟨s.reached.insert x, x :: s.work⟩

/-- The last seed is popped first. -/
def start (seeds : List α) : Worklist α := ⟨.ofList seeds, seeds.reverse⟩

def run (next : α → List α) : Nat → Worklist α → Option (Std.ExtTreeSet α)
  | 0, _ => none
  | fuel + 1, s =>
    match s.work with
    | [] => some s.reached
    | x :: work => run next fuel ((next x).foldl push ⟨s.reached, work⟩)

/-! ## A round -/

variable {x y : α} {bound : List α}

theorem mem_work_push {s : Worklist α} :
    y ∈ (s.push x).work ↔ y ∈ s.work ∨ y = x ∧ x ∉ s.reached := by
  unfold push
  split
  · next h => simp [h]
  · next h => simp [h, or_comm]

variable [Std.LawfulEqOrd α]

theorem mem_insert {set : Std.ExtTreeSet α} : y ∈ set.insert x ↔ y ∈ set ∨ y = x := by
  rw [Std.ExtTreeSet.mem_insert, Std.LawfulEqCmp.compare_eq_iff_eq, or_comm, eq_comm]

theorem mem_push {s : Worklist α} : y ∈ (s.push x).reached ↔ y ∈ s.reached ∨ y = x := by
  unfold push
  split
  · next h =>
    constructor
    · exact .inl
    · rintro (hy | rfl)
      · exact hy
      · exact h
  · exact mem_insert

variable {xs : List α}

theorem mem_pushes {s : Worklist α} : y ∈ (xs.foldl push s).reached ↔ y ∈ s.reached ∨ y ∈ xs := by
  induction xs generalizing s with
  | nil => simp
  | cons x xs ih => rw [List.foldl_cons, ih, mem_push, List.mem_cons, or_assoc]

/-- What is marked is on the work as it is marked, and what was on the work stays there. -/
theorem mem_work_pushes {s : Worklist α} :
    y ∈ (xs.foldl push s).work ↔ y ∈ s.work ∨ y ∈ xs ∧ y ∉ s.reached := by
  induction xs generalizing s with
  | nil => simp
  | cons x xs ih =>
    rw [List.foldl_cons, ih, mem_work_push, mem_push, List.mem_cons]
    by_cases hy : y = x
    · subst hy
      simp
    · simp [hy]

/-! ## What a search knows -/

structure Sound (next : α → List α) (seeds : α → Prop) (s : Worklist α) : Prop where
  seeded : ∀ x, seeds x → x ∈ s.reached
  reachable : ∀ y ∈ s.reached, ∃ x, seeds x ∧ Relation.ReflTransGen (fun x y => y ∈ next x) x y
  marked : ∀ x ∈ s.work, x ∈ s.reached
  expanded : ∀ x ∈ s.reached, x ∈ s.work ∨ ∀ y ∈ next x, y ∈ s.reached

variable {next : α → List α}

theorem sound_start (seeds : List α) : Sound next (· ∈ seeds) (start seeds) where
  seeded x hx := by
    classical
    rw [start, Std.ExtTreeSet.mem_ofList, List.contains_iff_mem]
    exact hx
  reachable y hy := by
    classical
    rw [start, Std.ExtTreeSet.mem_ofList, List.contains_iff_mem] at hy
    exact ⟨y, hy, .refl⟩
  marked x hx := by
    classical
    rw [start, Std.ExtTreeSet.mem_ofList, List.contains_iff_mem]
    exact List.mem_reverse.1 hx
  expanded x hx := by
    classical
    rw [start, Std.ExtTreeSet.mem_ofList, List.contains_iff_mem] at hx
    exact .inl (List.mem_reverse.2 hx)

variable {seeds : α → Prop} {s : Worklist α}

theorem Sound.round (h : s.Sound next seeds) {work : List α} (hwork : s.work = x :: work) :
    Sound next seeds ((next x).foldl push ⟨s.reached, work⟩) where
  seeded y hy := mem_pushes.2 (.inl (h.seeded y hy))
  reachable y hy := by
    rcases mem_pushes.1 hy with hy | hy
    · exact h.reachable y hy
    · obtain ⟨z, hz, hzx⟩ := h.reachable x (h.marked x (hwork ▸ List.mem_cons_self))
      exact ⟨z, hz, hzx.tail hy⟩
  marked y hy := by
    rcases mem_work_pushes.1 hy with hy | hy
    · exact mem_pushes.2 (.inl (h.marked y (hwork ▸ List.mem_cons_of_mem x hy)))
    · exact mem_pushes.2 (.inr hy.1)
  expanded y hy := by
    by_cases hbefore : y ∈ s.reached
    · rcases h.expanded y hbefore with hmem | hall
      · rw [hwork, List.mem_cons] at hmem
        rcases hmem with rfl | hmem
        · exact .inr fun z hz => mem_pushes.2 (.inr hz)
        · exact .inl (mem_work_pushes.2 (.inl hmem))
      · exact .inr fun z hz => mem_pushes.2 (.inl (hall z hz))
    · have hnew : y ∈ next x := (mem_pushes.1 hy).resolve_left hbefore
      exact .inl (mem_work_pushes.2 (.inr ⟨hnew, hbefore⟩))

omit [Std.LawfulEqOrd α] in
theorem Sound.closed (h : s.Sound next seeds) (hwork : s.work = []) (y : α) :
    y ∈ s.reached ↔ ∃ x, seeds x ∧ Relation.ReflTransGen (fun x y => y ∈ next x) x y := by
  refine ⟨h.reachable y, ?_⟩
  rintro ⟨x, hx, hxy⟩
  induction hxy with
  | refl => exact h.seeded x hx
  | @tail y z _ hyz ih =>
    rcases h.expanded y ih with hmem | hall
    · rw [hwork] at hmem
      exact absurd hmem List.not_mem_nil
    · exact hall z hyz

/-! ## The search ends -/

/-- What of `bound` is not marked yet, with the work. -/
def room (bound : List α) (s : Worklist α) : Nat :=
  (bound.filter (· ∉ s.reached)).length + s.work.length

theorem room_push (hx : x ∈ bound) : room bound (s.push x) ≤ room bound s := by
  unfold push
  split
  · exact Nat.le_refl _
  · next hnew =>
    have hlt : (bound.filter (· ∉ s.reached.insert x)).length <
        (bound.filter (· ∉ s.reached)).length := by
      have hsplit : bound.filter (· ∉ s.reached.insert x) =
          (bound.filter (· ∉ s.reached)).filter (· ∉ s.reached.insert x) := by
        rw [List.filter_filter]
        apply List.filter_congr
        intro y _
        rw [Bool.eq_iff_iff, Bool.and_eq_true, decide_eq_true_iff, decide_eq_true_iff,
          mem_insert, not_or]
        exact ⟨fun h => ⟨h, h.1⟩, fun h => h.1⟩
      rw [hsplit, List.length_filter_lt_length_iff_exists]
      exact ⟨x, List.mem_filter.2 ⟨hx, decide_eq_true hnew⟩, by simp⟩
    simp only [room, List.length_cons]
    omega

theorem room_pushes (hxs : ∀ x ∈ xs, x ∈ bound) : room bound (xs.foldl push s) ≤ room bound s := by
  induction xs generalizing s with
  | nil => exact Nat.le_refl _
  | cons x xs ih =>
    rw [List.foldl_cons]
    exact Nat.le_trans (ih fun y hy => hxs y (List.mem_cons_of_mem x hy))
      (room_push (hxs x List.mem_cons_self))

theorem run_sound (hbound : ∀ x, ∀ y ∈ next x, y ∈ bound) (h : s.Sound next seeds) :
    ∃ reached, (∀ fuel > room bound s, run next fuel s = some reached) ∧
      ∀ y, y ∈ reached ↔ ∃ x, seeds x ∧ Relation.ReflTransGen (fun x y => y ∈ next x) x y := by
  induction hroom : room bound s using Nat.strongRecOn generalizing s with
  | ind n ih =>
    subst hroom
    cases hwork : s.work with
    | nil =>
      refine ⟨s.reached, fun fuel hfuel => ?_, h.closed hwork⟩
      obtain ⟨fuel, rfl⟩ := Nat.exists_eq_succ_of_ne_zero (Nat.ne_of_gt (Nat.zero_lt_of_lt hfuel))
      simp only [run, hwork]
    | cons x work =>
      have hlt : room bound ((next x).foldl push ⟨s.reached, work⟩) < room bound s := by
        refine Nat.lt_of_le_of_lt (room_pushes (hbound x)) ?_
        simp only [room, hwork, List.length_cons]
        omega
      obtain ⟨reached, hrun, hreached⟩ := ih _ hlt (h.round hwork) rfl
      refine ⟨reached, fun fuel hfuel => ?_, hreached⟩
      obtain ⟨fuel, rfl⟩ := Nat.exists_eq_succ_of_ne_zero (Nat.ne_of_gt (Nat.zero_lt_of_lt hfuel))
      simp only [run, hwork]
      exact hrun fuel (by omega)

variable (next) in
theorem run_closure (hbound : ∀ x, ∀ y ∈ next x, y ∈ bound) (seeds : List α) :
    ∃ reached, Ends (run next · (start seeds)) reached ∧
      ∀ y, y ∈ reached ↔ ∃ x ∈ seeds, Relation.ReflTransGen (fun x y => y ∈ next x) x y := by
  obtain ⟨reached, hrun, hreached⟩ := run_sound hbound (sound_start seeds)
  exact ⟨reached, ⟨_, hrun⟩, hreached⟩

/-- Marked and pushed one by one, the seeds are searched from as the seeds at the start are. -/
theorem sound_pushes (seeds : List α) : Sound next (· ∈ seeds) (seeds.foldl push ⟨∅, []⟩) where
  seeded x hx := mem_pushes.2 (.inr hx)
  reachable y hy := ⟨y, (mem_pushes.1 hy).resolve_left Std.ExtTreeSet.not_mem_empty, .refl⟩
  marked x hx := mem_pushes.2 (.inr ((mem_work_pushes.1 hx).resolve_left List.not_mem_nil).1)
  expanded x hx := by
    have hseed := (mem_pushes.1 hx).resolve_left Std.ExtTreeSet.not_mem_empty
    exact .inl (mem_work_pushes.2 (.inr ⟨hseed, Std.ExtTreeSet.not_mem_empty⟩))

variable (next) in
theorem run_pushes (hbound : ∀ x, ∀ y ∈ next x, y ∈ bound) (seeds : List α) :
    ∃ reached, Ends (run next · (seeds.foldl push ⟨∅, []⟩)) reached ∧
      ∀ y, y ∈ reached ↔ ∃ x ∈ seeds, Relation.ReflTransGen (fun x y => y ∈ next x) x y := by
  obtain ⟨reached, hrun, hreached⟩ := run_sound hbound (sound_pushes seeds)
  exact ⟨reached, ⟨_, hrun⟩, hreached⟩

end Worklist

end

end Lib
