import Mathlib.Data.List.Nodup
import Mathlib.Order.Lattice

/-!
# Logs of redelivered rows

Rows come in the order of their keys, and some come again.  A log appends each row it takes once: it
stays in order and holds what was delivered and taken (`Kept.deliver`), whatever came again.
-/

namespace Lib

section
variable {α κ : Type} [LinearOrder κ] (key : α → κ) (takes : α → Bool)

/-- The log after one delivery: a key it holds is passed over, and so is a row it does not take. -/
def deliver (log : List α) (a : α) : List α :=
  if log.any (fun b => key b == key a) then log else if takes a then log ++ [a] else log

/-- A delivery that came before, or one above all that did. -/
def InOrder (delivered : List α) (a : α) : Prop :=
  a ∈ delivered ∨ ∀ b ∈ delivered, key b < key a

/-- What a log keeps of the rows delivered to it. -/
structure Kept (delivered log : List α) : Prop where
  sorted : log.Pairwise fun a b => key a < key b
  mem_iff : ∀ a, a ∈ log ↔ a ∈ delivered ∧ takes a = true
  apart : ∀ a ∈ delivered, ∀ b ∈ delivered, key a = key b → a = b

end

section
variable {α κ : Type} [LinearOrder κ] {key : α → κ} {takes : α → Bool}
    {delivered log : List α} {a : α} {l : List α}

theorem eq_of_sorted (h : l.Pairwise fun a b => key a < key b) :
    ∀ a ∈ l, ∀ b ∈ l, key a = key b → a = b := by
  have hnodup : (l.map key).Nodup := List.pairwise_map.2 (h.imp fun hlt => hlt.ne)
  exact fun a ha b hb hkey => List.inj_on_of_nodup_map hnodup ha hb hkey

theorem Kept.nil : Kept key takes [] [] := ⟨.nil, by simp, by simp⟩

theorem Kept.of_sorted (h : l.Pairwise fun a b => key a < key b)
    (htakes : ∀ a ∈ l, takes a = true) :
    Kept key takes l l :=
  ⟨h, fun a => ⟨fun ha => ⟨ha, htakes a ha⟩, And.left⟩, eq_of_sorted h⟩

/-- The keys of a log name its rows among what may be delivered next. -/
theorem Kept.any_key (h : Kept key takes delivered log) (ha : InOrder key delivered a) :
    log.any (fun b => key b == key a) = true ↔ a ∈ log := by
  simp only [List.any_eq_true, beq_iff_eq]
  constructor
  · rintro ⟨b, hb, hkey⟩
    have hdelivered := ((h.mem_iff b).1 hb).1
    rcases ha with ha | habove
    · rwa [← h.apart b hdelivered a ha hkey]
    · exact absurd hkey (habove b hdelivered).ne
  · exact fun ha => ⟨a, ha, rfl⟩

theorem Kept.deliver (h : Kept key takes delivered log) (ha : InOrder key delivered a) :
    Kept key takes (a :: delivered) (deliver key takes log a) := by
  have hapart : ∀ b ∈ a :: delivered, ∀ c ∈ a :: delivered, key b = key c → b = c := by
    rcases ha with hmem | habove
    · intro b hb c hc
      have hback : ∀ d ∈ a :: delivered, d ∈ delivered := by
        simpa using hmem
      exact h.apart b (hback b hb) c (hback c hc)
    · intro b hb c hc hkey
      rcases List.mem_cons.1 hb with hb | hb <;> rcases List.mem_cons.1 hc with hc | hc
      · rw [hb, hc]
      · exact absurd (hb ▸ hkey) (habove c hc).ne'
      · exact absurd (hc ▸ hkey) (habove b hb).ne
      · exact h.apart b hb c hc hkey
  have hheld := h.any_key ha
  unfold Lib.deliver
  by_cases hmem : a ∈ log
  · rw [if_pos (hheld.2 hmem)]
    refine ⟨h.sorted, fun b => ?_, hapart⟩
    rw [h.mem_iff, List.mem_cons]
    constructor
    · exact fun hb => ⟨.inr hb.1, hb.2⟩
    · rintro ⟨rfl | hb, htakes⟩
      · exact (h.mem_iff b).1 hmem
      · exact ⟨hb, htakes⟩
  · rw [if_neg fun hany => hmem (hheld.1 hany)]
    cases htakes : takes a with
    | false =>
      rw [if_neg Bool.false_ne_true]
      refine ⟨h.sorted, fun b => ?_, hapart⟩
      rw [h.mem_iff, List.mem_cons]
      constructor
      · exact fun hb => ⟨.inr hb.1, hb.2⟩
      · rintro ⟨rfl | hb, hb'⟩
        · rw [htakes] at hb'
          cases hb'
        · exact ⟨hb, hb'⟩
    | true =>
      rw [if_pos rfl]
      -- a row delivered before would be in the log, so this one is above it
      have habove : ∀ b ∈ log, key b < key a := fun b hb =>
        ha.elim (fun ha => absurd ((h.mem_iff a).2 ⟨ha, htakes⟩) hmem)
          fun habove => habove b ((h.mem_iff b).1 hb).1
      refine ⟨List.pairwise_append.2 ⟨h.sorted, List.pairwise_singleton _ _, ?_⟩,
        fun b => ?_, hapart⟩
      · simpa using habove
      · rw [List.mem_append, List.mem_singleton, h.mem_iff, List.mem_cons]
        constructor
        · rintro (hb | rfl)
          · exact ⟨.inr hb.1, hb.2⟩
          · exact ⟨.inl rfl, htakes⟩
        · rintro ⟨rfl | hb, hb'⟩
          · exact .inr rfl
          · exact .inl ⟨hb, hb'⟩

end

end Lib
