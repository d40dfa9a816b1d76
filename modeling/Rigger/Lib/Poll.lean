import Mathlib.Data.List.Infix
import Mathlib.Order.Lattice

/-!
# Polling a growing list past a watermark

`rows` is sorted by `key` and grows at its end.  A poll answers the rows past the watermark
that `accept` takes and moves the watermark to the last of them (`advance`).  Whatever the
list grew by between two polls, the polls together answer exactly the accepted rows past the
first watermark, each once and in order (`poll_append`).
-/

namespace Lib

section
variable {ρ κ : Type} [LinearOrder κ] (key : ρ → κ) (accept : ρ → Bool)

def poll (after : κ) (rows : List ρ) : List ρ :=
  rows.filter fun r => decide (after < key r) && accept r

/-- The watermark after a batch: the key of its last row. -/
def advance (after : κ) (batch : List ρ) : κ := (batch.getLast?.map key).getD after

variable {key accept} {rows : List ρ}

theorem mem_poll {after : κ} {r : ρ} :
    r ∈ poll key accept after rows ↔ r ∈ rows ∧ after < key r ∧ accept r = true := by
  simp [poll]

omit [LinearOrder κ] in
theorem advance_append (after : κ) (a b : List ρ) :
    advance key after (a ++ b) = advance key (advance key after a) b := by
  unfold advance
  rw [List.getLast?_append]
  cases b.getLast? <;> simp

omit [LinearOrder κ] in
theorem advance_map {τ : Type} (g : τ → ρ) (after : κ) (batch : List τ) :
    advance key after (batch.map g) = advance (fun x => key (g x)) after batch := by
  rw [advance, List.getLast?_map, Option.map_map]
  rfl

variable (accept) in
theorem sorted_poll (hs : rows.Pairwise fun a b => key a < key b) (after : κ) :
    (poll key accept after rows).Pairwise fun a b => key a < key b :=
  hs.sublist List.filter_sublist

/-- Every answered row sits at or below the new watermark, and the watermark never falls. -/
theorem le_advance {after : κ} {batch : List ρ} (hs : batch.Pairwise fun a b => key a < key b)
    (ha : ∀ r ∈ batch, after < key r) :
    after ≤ advance key after batch ∧ ∀ r ∈ batch, key r ≤ advance key after batch := by
  rcases List.eq_nil_or_concat batch with rfl | ⟨init, last, rfl⟩
  · simp [advance]
  · rw [List.concat_eq_append] at *
    have hlast : advance key after (init ++ [last]) = key last := by simp [advance]
    rw [hlast]
    refine ⟨le_of_lt (ha last (by simp)), fun r hr => ?_⟩
    rcases List.mem_append.1 hr with hr | hr
    · exact le_of_lt ((List.pairwise_append.1 hs).2.2 r hr last (by simp))
    · rw [List.mem_singleton.1 hr]

omit [LinearOrder κ] in
theorem advance_mem (after : κ) (batch : List ρ) :
    advance key after batch = after ∨ ∃ r ∈ batch, advance key after batch = key r := by
  unfold advance
  cases h : batch.getLast? with
  | none => exact Or.inl rfl
  | some r => exact Or.inr ⟨r, List.mem_of_getLast? h, rfl⟩

theorem poll_append {new : List ρ} (hs : (rows ++ new).Pairwise fun a b => key a < key b)
    (after : κ) :
    poll key accept after rows ++
        poll key accept (advance key after (poll key accept after rows)) (rows ++ new) =
      poll key accept after (rows ++ new) := by
  obtain ⟨hrows, -, hcross⟩ := List.pairwise_append.1 hs
  obtain ⟨hle, hbelow⟩ := le_advance (sorted_poll accept hrows after)
    (fun r hr => (mem_poll.1 hr).2.1)
  -- nothing of the old rows lies past the watermark, and the new rows pass both watermarks alike
  have hold : poll key accept (advance key after (poll key accept after rows)) rows = [] := by
    apply List.filter_eq_nil_iff.2
    intro r hr
    simp only [Bool.and_eq_true, decide_eq_true_eq, not_and]
    intro hlt haccept
    exact absurd hlt (not_lt_of_ge (hbelow r (mem_poll.2 ⟨hr, lt_of_le_of_lt hle hlt, haccept⟩)))
  have hnew : poll key accept (advance key after (poll key accept after rows)) new =
      poll key accept after new := by
    apply List.filter_congr
    intro r hr
    congr 1
    rw [decide_eq_decide]
    rcases advance_mem after (poll key accept after rows) with
      h | ⟨q, hq, h⟩
    · rw [h]
    · have hqr := hcross q (mem_poll.1 hq).1 r hr
      have hq' := (mem_poll.1 hq).2.1
      rw [h]
      exact iff_of_true hqr (hq'.trans hqr)
  unfold poll at *
  rw [List.filter_append, hold, hnew, List.nil_append, List.filter_append]

end

end Lib
