import Rigger.Lib.Latest

/-!
# A list of writes by group

`gather` adds each write of a list to its group's entry of a map, which then holds what the group's
own writes add up to (`getElem?_gather`); `grouped` is the map of maps where a write files a value
under a label, `groupedSets` that of sets of labels.  `greatest` reads a map's last entry
(`greatest_eq_some_iff`).
-/

namespace Lib

section
variable {ρ κ β : Type} {cmp : ρ → ρ → Ordering} [Std.TransCmp cmp]

/-- The value under the greatest key. -/
def greatest (m : Std.ExtTreeMap ρ β cmp) : Option β := m.maxKey?.bind fun k => m[k]?

theorem greatest_eq_none_iff (m : Std.ExtTreeMap ρ β cmp) : greatest m = none ↔ m = ∅ := by
  unfold greatest
  rw [← Std.ExtTreeMap.maxKey?_eq_none_iff, Option.bind_eq_none_iff]
  constructor
  · intro h
    refine Option.eq_none_iff_forall_not_mem.2 fun k hk => ?_
    have hmem := Std.ExtTreeMap.maxKey?_mem hk
    rw [Std.ExtTreeMap.mem_iff_isSome_getElem?, h k hk] at hmem
    exact Bool.false_ne_true hmem
  · intro h k hk
    rw [h] at hk
    cases hk

variable [Std.LawfulEqCmp cmp]

theorem greatest_eq_some_iff (m : Std.ExtTreeMap ρ β cmp) (v : β) : greatest m = some v ↔
    ∃ k, m[k]? = some v ∧ ∀ k' ∈ m, (cmp k' k).isLE = true := by
  unfold greatest
  rw [Option.bind_eq_some_iff]
  refine exists_congr fun k => ?_
  rw [Std.ExtTreeMap.maxKey?_eq_some_iff_mem_and_forall, and_comm]
  refine and_congr_right fun hv => and_iff_right ?_
  rw [Std.ExtTreeMap.mem_iff_isSome_getElem?, hv, Option.isSome_some]

variable [DecidableEq ρ]

/-- A group's own writes. -/
def ofGroup {ν : Type} (group : ρ) (writes : List (ρ × ν)) : List ν :=
  (writes.filter fun w => w.1 = group).map Prod.snd

theorem ofGroup_eq_nil_iff {ν : Type} {group : ρ} {writes : List (ρ × ν)} :
    ofGroup group writes = [] ↔ ∀ w ∈ writes, w.1 ≠ group := by
  unfold ofGroup
  simp [List.filter_eq_nil_iff]

/-- Each write is added to its group's entry, which `start` opens. -/
def gather {ν : Type} (cmp : ρ → ρ → Ordering) [Std.TransCmp cmp] (add : β → ν → β) (start : β)
    (writes : List (ρ × ν)) : Std.ExtTreeMap ρ β cmp :=
  writes.foldl (fun m w => m.insert w.1 (add (m[w.1]?.getD start) w.2)) ∅

theorem getElem?_gather {ν : Type} (add : β → ν → β) (start : β)
    (writes : List (ρ × ν)) (group : ρ) :
    (gather cmp add start writes)[group]? =
      if ofGroup group writes = [] then none else some
          ((ofGroup group writes).foldl add start) := by
  induction writes using List.reverseRecOn with
  | nil => simp [gather, ofGroup]
  | append_singleton writes w ih =>
    have hstep : gather cmp add start (writes ++ [w]) = (gather cmp add start writes).insert w.1
        (add ((gather cmp add start writes)[w.1]?.getD start) w.2) := List.foldl_concat ..
    rw [hstep, Std.ExtTreeMap.getElem?_insert]
    by_cases hw : w.1 = group
    · have hown : ofGroup group (writes ++ [w]) = ofGroup group writes ++ [w.2] := by
        simp [ofGroup, hw]
      rw [if_pos (by simp [hw]), hown, if_neg (by simp), hw, ih, List.foldl_concat]
      split
      · next h => simp [h]
      · simp
    · have hown : ofGroup group (writes ++ [w]) = ofGroup group writes := by simp [ofGroup, hw]
      rw [if_neg (by simpa using hw), hown, ih]

/-- Where it does not matter in which order writes are added, neither does theirs. -/
theorem gather_perm {ν : Type} {add : β → ν → β} {start : β} {writes writes' : List (ρ × ν)}
    (hadd : ∀ b x y, add (add b x) y = add (add b y) x) (h : writes.Perm writes') :
    gather cmp add start writes = gather cmp add start writes' := by
  apply Std.ExtTreeMap.ext_getElem?
  intro group
  have hown : (ofGroup group writes).Perm (ofGroup group writes') := (h.filter _).map _
  have hnil : ofGroup group writes = [] ↔ ofGroup group writes' = [] := by
    rw [← List.length_eq_zero_iff, hown.length_eq, List.length_eq_zero_iff]
  have hfold := hown.foldl_eq' (fun x _ y _ b => hadd b x y) start
  rw [getElem?_gather, getElem?_gather, hfold]
  simp only [hnil]

variable [Ord κ] [Std.TransOrd κ]

/-- `entry(group).or_default().insert(label, value)`. -/
def fileUnder (m : Std.ExtTreeMap ρ (Std.ExtTreeMap κ β) cmp) (w : ρ × κ × β) :
    Std.ExtTreeMap ρ (Std.ExtTreeMap κ β) cmp :=
  m.insert w.1 ((m[w.1]?.getD ∅).insert w.2.1 w.2.2)

variable (cmp) in
def grouped (writes : List (ρ × κ × β)) : Std.ExtTreeMap ρ (Std.ExtTreeMap κ β) cmp :=
  writes.foldl fileUnder ∅

theorem getElem?_grouped (writes : List (ρ × κ × β)) (group : ρ) : (grouped cmp writes)[group]? =
    if ofGroup group writes = [] then none else some (collect (ofGroup group writes)) := by
  have hgather : grouped cmp writes =
      gather cmp (fun (m : Std.ExtTreeMap κ β) w => m.insert w.1 w.2) ∅ writes := rfl
  rw [hgather, getElem?_gather]
  rfl

variable {writes : List (ρ × κ × β)}

theorem mem_grouped {group : ρ} : group ∈ grouped cmp writes ↔ ∃ w ∈ writes, w.1 = group := by
  rw [Std.ExtTreeMap.mem_iff_isSome_getElem?, getElem?_grouped]
  split
  · next h =>
    refine iff_of_false Bool.false_ne_true ?_
    rintro ⟨w, hw, hgroup⟩
    exact ofGroup_eq_nil_iff.1 h w hw hgroup
  · next h =>
    rw [ofGroup_eq_nil_iff] at h
    push Not at h
    exact iff_of_true rfl h

theorem grouped_eq_empty_iff : grouped cmp writes = ∅ ↔ writes = [] := by
  constructor
  · intro h
    refine List.eq_nil_iff_forall_not_mem.2 fun w hw => ?_
    have hmem : w.1 ∈ grouped cmp writes := mem_grouped.2 ⟨w, hw, rfl⟩
    rw [h] at hmem
    exact Std.ExtTreeMap.not_mem_empty hmem
  · rintro rfl
    rfl

end

/-! ## Sets of labels -/

section
variable {ρ κ : Type} [Ord ρ] [Std.TransOrd ρ] [Std.LawfulEqOrd ρ] [DecidableEq ρ]
variable [Ord κ] [Std.TransOrd κ] [Std.LawfulEqOrd κ]

theorem mem_foldl_insert {xs : List κ} {set : Std.ExtTreeSet κ} {x : κ} :
    x ∈ xs.foldl (fun set x => set.insert x) set ↔ x ∈ set ∨ x ∈ xs := by
  induction xs generalizing set with
  | nil => simp
  | cons y xs ih =>
    rw [List.foldl_cons, ih, Std.ExtTreeSet.mem_insert, Std.LawfulEqCmp.compare_eq_iff_eq,
      List.mem_cons, or_comm (a := _ = _), or_assoc, eq_comm]

/-- `entry(group).or_default().insert(label)`. -/
def groupedSets (writes : List (ρ × κ)) : Std.ExtTreeMap ρ (Std.ExtTreeSet κ) :=
  gather compare (fun set x => set.insert x) ∅ writes

variable {writes : List (ρ × κ)}

theorem mem_groupedSets {group : ρ} {x : κ} :
    x ∈ (((groupedSets writes)[group]?.map (·.toList)).getD []) ↔ (group, x) ∈ writes := by
  have hown : x ∈ ofGroup group writes ↔ (group, x) ∈ writes := by
    simp [ofGroup]
  rw [groupedSets, getElem?_gather, ← hown]
  split
  · next h => simp [h]
  · rw [Option.map_some, Option.getD_some, Std.ExtTreeSet.mem_toList, mem_foldl_insert]
    simp

theorem groupedSets_perm {writes' : List (ρ × κ)} (h : writes.Perm writes') :
    groupedSets writes = groupedSets writes' := by
  refine gather_perm (fun set x y => Std.ExtTreeSet.ext_mem fun z => ?_) h
  simp only [Std.ExtTreeSet.mem_insert]
  exact or_left_comm

end

end Lib
