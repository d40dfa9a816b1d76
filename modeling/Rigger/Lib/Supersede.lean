import Mathlib.Data.List.Induction
import Mathlib.Data.List.Nodup
import Mathlib.Order.Lattice

/-!
# Arrivals that supersede earlier ones

Items arrive one after another, and each removes the ones before it that it beats.  `Removed` says
which are gone at the end: those a later arrival beats.  Where `beats` compares ranks and the items
arrive in the order of their ranks, the highest remain (`not_removed_iff_of_sorted`).

`firsts` keeps the first arrival of each key.
-/

namespace Lib

/-! ## Removal -/

section
variable {α : Type} {beats beats' : α → α → Prop} {l : List α} {a b : α}

def Removed (beats : α → α → Prop) (l : List α) (a : α) : Prop :=
  ∃ before b after, l = before ++ b :: after ∧ a ∈ before ∧ beats b a

theorem removed_concat : Removed beats (l ++ [b]) a ↔ Removed beats l a ∨ a ∈ l ∧ beats b a := by
  constructor
  · rintro ⟨before, x, after, h, ha, hbeats⟩
    rcases List.eq_nil_or_concat after with rfl | ⟨after', y, rfl⟩
    · obtain ⟨rfl, hx⟩ := List.append_inj' h rfl
      cases hx
      exact Or.inr ⟨ha, hbeats⟩
    · rw [List.concat_eq_append, ← List.cons_append, ← List.append_assoc] at h
      obtain ⟨rfl, -⟩ := List.append_inj' h rfl
      exact Or.inl ⟨before, x, after', rfl, ha, hbeats⟩
  · rintro (⟨before, x, after, rfl, ha, hbeats⟩ | ⟨ha, hbeats⟩)
    · refine ⟨before, x, after ++ [b], ?_, ha, hbeats⟩
      rw [List.append_assoc, List.cons_append]
    · exact ⟨l, b, [], rfl, ha, hbeats⟩

theorem Removed.mem (h : Removed beats l a) : a ∈ l := by
  obtain ⟨before, b, after, rfl, ha, -⟩ := h
  exact List.mem_append_left _ ha

theorem removed_congr (h : ∀ a ∈ l, ∀ b ∈ l, beats b a ↔ beats' b a) :
    Removed beats l a ↔ Removed beats' l a := by
  constructor
  · rintro ⟨before, b, after, rfl, ha, hbeats⟩
    refine ⟨before, b, after, rfl, ha, ?_⟩
    exact (h a (List.mem_append_left _ ha) b List.mem_append_cons_self).1 hbeats
  · rintro ⟨before, b, after, rfl, ha, hbeats⟩
    refine ⟨before, b, after, rfl, ha, ?_⟩
    exact (h a (List.mem_append_left _ ha) b List.mem_append_cons_self).2 hbeats

theorem removed_map {β : Type} {f : α → β} {beats' : β → β → Prop}
    (hinj : ∀ a ∈ l, ∀ b ∈ l, f a = f b → a = b)
    (hpairs : l.Pairwise fun a b => (beats b a ↔ beats' (f b) (f a))) (ha : a ∈ l) :
    Removed beats' (l.map f) (f a) ↔ Removed beats l a := by
  constructor
  · rintro ⟨before', b', after', hsplit, hmem, hbeats⟩
    obtain ⟨before, rest, rfl, rfl, hrest⟩ := List.map_eq_append_iff.1 hsplit
    obtain ⟨b, after, rfl, rfl, -⟩ := List.map_eq_cons_iff.1 hrest
    obtain ⟨x, hx, hsame⟩ := List.mem_map.1 hmem
    obtain rfl := hinj x (List.mem_append_left _ hx) a ha hsame
    refine ⟨before, b, after, rfl, hx, ?_⟩
    exact ((List.pairwise_append.1 hpairs).2.2 x hx b List.mem_cons_self).2 hbeats
  · rintro ⟨before, b, after, rfl, hbefore, hbeats⟩
    refine ⟨before.map f, f b, after.map f, by simp, List.mem_map_of_mem hbefore, ?_⟩
    exact ((List.pairwise_append.1 hpairs).2.2 a hbefore b List.mem_cons_self).1 hbeats

/-- Items of one kind are removed among themselves, where only those beat one another. -/
theorem removed_filter {p : α → Bool} (hkind : ∀ b, beats b a → p b = true) (ha : p a = true) :
    Removed beats (l.filter p) a ↔ Removed beats l a := by
  induction l using List.reverseRecOn with
  | nil => rfl
  | append_singleton l b ih =>
    rw [List.filter_append, removed_concat]
    cases hb : p b with
    | true =>
      rw [List.filter_cons_of_pos hb, List.filter_nil, removed_concat, ih, List.mem_filter]
      simp only [ha, and_true]
    | false =>
      rw [List.filter_cons_of_neg (by simp [hb]), List.filter_nil, List.append_nil, ih]
      have hnot : ¬(a ∈ l ∧ beats b a) := by
        rintro ⟨-, hbeats⟩
        rw [hkind b hbeats] at hb
        cases hb
      simp only [hnot, or_false]

theorem not_removed_getLast (hnodup : (l ++ [b]).Nodup) : ¬Removed beats (l ++ [b]) b := by
  rw [removed_concat]
  have hb : b ∉ l := by
    intro hmem
    exact (List.nodup_append'.1 hnodup).2.2 hmem List.mem_cons_self
  rintro (h | ⟨h, -⟩)
  · exact hb h.mem
  · exact hb h

/-- Among what arrives in the order of its ranks, the items of the highest rank remain. -/
theorem not_removed_iff_of_sorted {ρ : Type} [LinearOrder ρ] {rank : α → ρ}
    (hrank : l.Pairwise fun a b => (beats b a ↔ rank a < rank b))
    (hsorted : l.Pairwise fun a b => rank a ≤ rank b) (ha : a ∈ l) :
    ¬Removed beats l a ↔ ∀ b ∈ l, rank b ≤ rank a := by
  constructor
  · intro hnot b hb
    refine le_of_not_gt fun hlt => ?_
    obtain ⟨before, after, rfl⟩ := List.append_of_mem hb
    have hbefore : a ∈ before := by
      rcases List.mem_append.1 ha with hbefore | hrest
      · exact hbefore
      · rcases List.mem_cons.1 hrest with rfl | hafter
        · exact absurd hlt (lt_irrefl _)
        · have hle := List.rel_of_pairwise_cons (List.pairwise_append.1 hsorted).2.1 hafter
          exact absurd hlt (not_lt_of_ge hle)
    refine hnot ⟨before, b, after, rfl, hbefore, ?_⟩
    exact ((List.pairwise_append.1 hrank).2.2 a hbefore b List.mem_cons_self).2 hlt
  · rintro hle ⟨before, b, after, rfl, hbefore, hbeats⟩
    have hlt := ((List.pairwise_append.1 hrank).2.2 a hbefore b List.mem_cons_self).1 hbeats
    exact absurd hlt (not_lt_of_ge (hle b List.mem_append_cons_self))

end

/-! ## First arrivals -/

section
variable {α κ : Type} [DecidableEq κ] (key : α → κ)

/-- The first item of each key that is not among those met before. -/
def firstsFrom (met : List κ) : List α → List α
  | [] => []
  | a :: l => if key a ∈ met then firstsFrom met l else a :: firstsFrom (key a :: met) l

def firsts (l : List α) : List α := firstsFrom key [] l

variable {key}

theorem firstsFrom_concat (met : List κ) (l : List α) (a : α) :
    firstsFrom key met (l ++ [a]) =
      firstsFrom key met l ++ if key a ∈ met ∨ key a ∈ l.map key then [] else [a] := by
  induction l generalizing met with
  | nil =>
    show (if key a ∈ met then [] else [a]) = [] ++ _
    simp
  | cons x l ih =>
    rw [List.cons_append, firstsFrom, firstsFrom]
    by_cases hx : key x ∈ met
    · rw [if_pos hx, if_pos hx, ih]
      have hiff : key a ∈ met ∨ key a ∈ (x :: l).map key ↔ key a ∈ met ∨ key a ∈ l.map key := by
        rw [List.map_cons, List.mem_cons]
        constructor
        · rintro (h | h | h)
          · exact Or.inl h
          · exact Or.inl (h ▸ hx)
          · exact Or.inr h
        · exact Or.imp_right Or.inr
      simp only [hiff]
    · rw [if_neg hx, if_neg hx, ih, List.cons_append]
      have hiff : key a ∈ key x :: met ∨ key a ∈ l.map key ↔
          key a ∈ met ∨ key a ∈ (x :: l).map key := by
        rw [List.map_cons, List.mem_cons, List.mem_cons, or_comm (a := key a = key x), or_assoc]
      simp only [hiff]

variable {l : List α}

theorem mem_map_firstsFrom {met : List κ} {k : κ} :
    k ∈ (firstsFrom key met l).map key ↔ k ∈ l.map key ∧ k ∉ met := by
  induction l generalizing met with
  | nil => simp [firstsFrom]
  | cons a l ih =>
    rw [firstsFrom, List.map_cons, List.mem_cons]
    split
    · next ha =>
      rw [ih]
      refine ⟨fun h => ⟨.inr h.1, h.2⟩, fun h => ⟨h.1.resolve_left ?_, h.2⟩⟩
      rintro rfl
      exact h.2 ha
    · next ha =>
      rw [List.map_cons, List.mem_cons, ih, List.mem_cons, not_or]
      constructor
      · rintro (rfl | ⟨hk, -, hmet⟩)
        · exact ⟨.inl rfl, ha⟩
        · exact ⟨.inr hk, hmet⟩
      · rintro ⟨hk, hmet⟩
        by_cases heq : k = key a
        · exact .inl heq
        · exact .inr ⟨hk.resolve_left heq, heq, hmet⟩

theorem nodup_map_firstsFrom (met : List κ) (l : List α) :
    ((firstsFrom key met l).map key).Nodup := by
  induction l generalizing met with
  | nil => exact List.nodup_nil
  | cons a l ih =>
    rw [firstsFrom]
    split
    · exact ih met
    · rw [List.map_cons, List.nodup_cons, mem_map_firstsFrom]
      exact ⟨fun h => h.2 List.mem_cons_self, ih (key a :: met)⟩

theorem firsts_concat (l : List α) (a : α) :
    firsts key (l ++ [a]) = firsts key l ++ if key a ∈ l.map key then [] else [a] := by
  rw [firsts, firstsFrom_concat, firsts]
  simp only [List.not_mem_nil, false_or]

theorem firsts_sublist (l : List α) : (firsts key l).Sublist l := by
  induction l using List.reverseRecOn with
  | nil => exact List.Sublist.refl _
  | append_singleton l x ih =>
    rw [firsts_concat]
    refine List.Sublist.append ih ?_
    split
    · exact List.nil_sublist _
    · exact List.Sublist.refl _

theorem mem_of_mem_firsts {a : α} (h : a ∈ firsts key l) : a ∈ l :=
  (firsts_sublist l).subset h

theorem exists_mem_firsts {k : κ} (h : k ∈ l.map key) : ∃ a ∈ firsts key l, key a = k := by
  induction l using List.reverseRecOn with
  | nil => cases h
  | append_singleton l x ih =>
    rw [firsts_concat]
    by_cases hk : k ∈ l.map key
    · obtain ⟨a, ha, hkey⟩ := ih hk
      exact ⟨a, List.mem_append_left _ ha, hkey⟩
    · rw [List.map_append, List.mem_append] at h
      obtain ⟨y, hy, hkey⟩ := List.mem_map.1 (h.resolve_left hk)
      cases List.mem_singleton.1 hy
      refine ⟨x, List.mem_append_right _ ?_, hkey⟩
      rw [if_neg (hkey ▸ hk)]
      exact List.mem_cons_self

theorem nodup_firsts_map (l : List α) : ((firsts key l).map key).Nodup := by
  induction l using List.reverseRecOn with
  | nil => exact List.nodup_nil
  | append_singleton l x ih =>
    rw [firsts_concat]
    split
    · rwa [List.append_nil]
    · next hx =>
      rw [List.map_append]
      refine List.nodup_append'.2 ⟨ih, List.nodup_cons.2 ⟨List.not_mem_nil, List.nodup_nil⟩, ?_⟩
      intro k hk hk'
      obtain ⟨a, ha, rfl⟩ := List.mem_map.1 hk
      rw [List.map_cons, List.map_nil, List.mem_singleton] at hk'
      exact hx (hk' ▸ List.mem_map_of_mem (mem_of_mem_firsts ha))

end

end Lib
