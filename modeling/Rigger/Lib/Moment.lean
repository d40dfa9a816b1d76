import Mathlib.Data.List.Infix
import Rigger.Lib.Run

/-!
# Moments of a growing log

Where a step of a machine appends at most one item to a log, every list between what the log was
and what it is now is what the log was at some moment of the run (`exists_moment`).
-/

namespace Lib

section
variable {σ ι α : Type} {step : σ → ι → σ} {log : σ → List α}
  (hstep : ∀ s i, log (step s i) = log s ∨ ∃ a, log (step s i) = log s ++ [a])
include hstep

theorem log_grows (s : σ) (is : List ι) : log s <+: log (run step s is) := by
  induction is generalizing s with
  | nil => exact List.prefix_rfl
  | cons i is ih =>
    refine List.IsPrefix.trans ?_ (ih (step s i))
    rcases hstep s i with h | ⟨a, h⟩
    · rw [h]
    · rw [h]
      exact List.prefix_append _ _

theorem exists_moment {s : σ} {is : List ι} {l : List α} (hs : log s <+: l)
    (hl : l <+: log (run step s is)) :
    ∃ before after, is = before ++ after ∧ log (run step s before) = l := by
  induction is generalizing s with
  | nil => exact ⟨[], [], rfl, hs.eq_of_length_le hl.length_le⟩
  | cons i is ih =>
    by_cases heq : log s = l
    · exact ⟨[], i :: is, rfl, heq⟩
    · have hnext : log (step s i) <+: l := by
        obtain ⟨rest, rfl⟩ := hs
        rcases hstep s i with h | ⟨a, h⟩
        · rw [h]
          exact List.prefix_append _ _
        · rw [h]
          cases rest with
          | nil => exact absurd (List.append_nil _).symm heq
          | cons b rest =>
            -- the item the step appended is the next one of `l`, as both are heads of the last log
            have hgrows := log_grows hstep (step s i) is
            rw [h] at hgrows
            have hb : log s ++ [b] <+: log s ++ b :: rest := ⟨rest, by simp⟩
            have hsame := List.prefix_of_prefix_length_le hgrows (hb.trans hl) (by simp)
            rw [hsame.eq_of_length (by simp)]
            exact hb
      obtain ⟨before, after, rfl, hlog⟩ := ih hnext hl
      exact ⟨i :: before, after, rfl, hlog⟩

end

end Lib
