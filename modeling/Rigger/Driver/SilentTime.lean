import Rigger.Driver.Liveness

/-!
# A spawn's silent time (`rigger-driver/src/liveness.rs`)

`silentTime` walks the holds, the retry delays and the stretches no supervisor watched in the order
they start.  However they lie, it counts the moments from the last line to now that none of them
excuses (`silentTime_measure`), so it stays within that window, depends on no order, falls with
every span added and grows with the clock.
-/

namespace Rigger.Liveness

open Lib

/-! ## What excuses a moment -/

/-- A stretch no supervisor watched: before the first beat, and between beats more than the bound
apart, the last of them and now among them. -/
def Unwatched (lastLine now : Int) (beats : List Int) (t : Int) : Prop :=
  (∃ first ∈ (beats ++ [now]).head?, lastLine ≤ t ∧ t < first) ∨
    ∃ before a b after, beats ++ [now] = before ++ a :: b :: after ∧ supervisedBeatGap < b - a ∧
      a ≤ t ∧ t < b

def Excused (lastLine now : Int) (holds retries : List Span) (beats : Option (List Int))
    (t : Int) : Prop :=
  (∃ span, (span ∈ holds ∨ span ∈ retries) ∧ span.start ≤ t ∧ t < span.stop) ∨
    ∃ bs ∈ beats, Unwatched lastLine now bs t

theorem mem_zip_tail {l : List Int} {a b : Int} :
    (a, b) ∈ l.zip l.tail ↔ ∃ before after, l = before ++ a :: b :: after := by
  induction l with
  | nil => simp
  | cons x l ih =>
    cases l with
    | nil =>
      constructor
      · intro h
        cases h
      · rintro ⟨before, after, h⟩
        have hlength := congrArg List.length h
        simp at hlength
        omega
    | cons y l =>
      have hstep : (a, b) ∈ (x :: y :: l).zip (x :: y :: l).tail ↔
          (a, b) = (x, y) ∨ (a, b) ∈ (y :: l).zip (y :: l).tail := List.mem_cons
      rw [hstep, ih]
      constructor
      · rintro (h | ⟨before, after, h⟩)
        · cases h
          exact ⟨[], l, rfl⟩
        · exact ⟨x :: before, after, by rw [h]; rfl⟩
      · rintro ⟨before, after, h⟩
        cases before with
        | nil =>
          cases h
          exact .inl rfl
        | cons z before => exact .inr ⟨before, after, (List.cons.inj h).2⟩

theorem unwatched_iff {a b : Int} : unwatched a b = true ↔ supervisedBeatGap < b - a := by
  have hgap : 0 < supervisedBeatGap := by
    have := second_pos
    unfold supervisedBeatGap
    omega
  rw [unwatched, decide_eq_true_eq, elapsed]
  split <;> omega

theorem mem_unsupervised {lastLine now t : Int} {beats : List Int} :
    (∃ span ∈ unsupervised lastLine now beats, span.Covers t) ↔ Unwatched lastLine now beats t := by
  obtain ⟨first, hfirst⟩ : ∃ first, (beats ++ [now]).head? = some first := by
    cases beats <;> simp
  have hhead : (beats ++ [now]).headD now = first := by
    rw [List.headD_eq_head?_getD, hfirst, Option.getD_some]
  unfold unsupervised Unwatched
  dsimp only
  rw [hhead, hfirst]
  constructor
  · rintro ⟨span, hspan, hcovers⟩
    rcases List.mem_cons.1 hspan with rfl | hspan
    · exact .inl ⟨first, rfl, hcovers⟩
    · obtain ⟨⟨a, b⟩, hpair, rfl⟩ := List.mem_map.1 hspan
      obtain ⟨hzip, hgap⟩ := List.mem_filter.1 hpair
      obtain ⟨before, after, hmarks⟩ := mem_zip_tail.1 hzip
      exact .inr ⟨before, a, b, after, hmarks, unwatched_iff.1 hgap, hcovers⟩
  · rintro (⟨_, ⟨⟩, hcovers⟩ | ⟨before, a, b, after, hmarks, hgap, hcovers⟩)
    · exact ⟨_, List.mem_cons_self, hcovers⟩
    · refine ⟨⟨a, b⟩, List.mem_cons_of_mem _ (List.mem_map.2 ⟨(a, b), ?_, rfl⟩), hcovers⟩
      exact List.mem_filter.2 ⟨mem_zip_tail.2 ⟨before, after, hmarks⟩, unwatched_iff.2 hgap⟩

/-- The silent moments are those of the window that nothing excuses. -/
theorem silentTime_ncard (lastLine now : Int) (holds retries : List Span)
    (beats : Option (List Int)) :
    silentTime lastLine now holds retries beats =
      { t | (lastLine ≤ t ∧ t < now) ∧ ¬Excused lastLine now holds retries beats t }.ncard := by
  have hset : uncovered (holds ++ retries ++ (beats.map (unsupervised lastLine now)).getD [])
      lastLine now =
        { t | (lastLine ≤ t ∧ t < now) ∧ ¬Excused lastLine now holds retries beats t } := by
    ext t
    have hbeats : (∃ span ∈ (beats.map (unsupervised lastLine now)).getD [], span.Covers t) ↔
        ∃ bs ∈ beats, Unwatched lastLine now bs t := by
      cases beats with
      | none => simp
      | some bs =>
        rw [Option.map_some, Option.getD_some, mem_unsupervised]
        simp
    rw [mem_uncovered, Set.mem_ofPred_eq, Excused, ← hbeats]
    refine and_congr_right fun _ => ?_
    simp only [List.mem_append]
    constructor
    · rintro h (⟨span, hspan, hcovers⟩ | ⟨span, hspan, hcovers⟩)
      · exact h span (.inl hspan) hcovers
      · exact h span (.inr hspan) hcovers
    · rintro h span (hspan | hspan) hcovers
      · exact h (.inl ⟨span, hspan, hcovers⟩)
      · exact h (.inr ⟨span, hspan, hcovers⟩)
  rw [silentTime_eq, hset]

/-! ## How it moves -/

section
variable {lastLine now now' : Int} {holds holds' retries retries' : List Span}
  {beats beats' : Option (List Int)}

/-- A window whose silent moments are among another's is silent for no longer. -/
theorem silentTime_le {lastLine' : Int} (h : ∀ t, lastLine ≤ t → t < now →
    ¬Excused lastLine now holds retries beats t →
      (lastLine' ≤ t ∧ t < now') ∧ ¬Excused lastLine' now' holds' retries' beats' t) :
    silentTime lastLine now holds retries beats ≤
        silentTime lastLine' now' holds' retries' beats' := by
  rw [silentTime_ncard, silentTime_ncard, Int.ofNat_le]
  refine Set.ncard_le_ncard (fun t ht => h t ht.1.1 ht.1.2 ht.2) ?_
  refine (Finset.Ico lastLine' now').finite_toSet.subset fun t ht => ?_
  rw [Finset.mem_coe, Finset.mem_Ico]
  exact ht.1

theorem silentTime_nonneg : 0 ≤ silentTime lastLine now holds retries beats := by
  rw [silentTime_ncard]
  exact Int.natCast_nonneg _

theorem silentTime_wall : silentTime lastLine now [] [] none = elapsed lastLine now := by
  rw [silentTime_eq, elapsed_eq_ncard]
  rfl

theorem silentTime_le_elapsed :
    silentTime lastLine now holds retries beats ≤ elapsed lastLine now := by
  rw [← silentTime_wall]
  refine silentTime_le fun t hle hlt _ => ⟨⟨hle, hlt⟩, ?_⟩
  rintro (⟨span, hspan | hspan, -⟩ | ⟨bs, hbs, -⟩)
  · cases hspan
  · cases hspan
  · cases hbs

theorem excused_mono {t : Int} (hholds : ∀ span, span ∈ holds ∨ span ∈ retries →
    span ∈ holds' ∨ span ∈ retries') (h : Excused lastLine now holds retries beats t) :
    Excused lastLine now holds' retries' beats t := by
  rcases h with ⟨span, hspan, hcovers⟩ | hbeats
  · exact .inl ⟨span, hholds span hspan, hcovers⟩
  · exact .inr hbeats

theorem silentTime_anti (h : ∀ span, span ∈ holds ∨ span ∈ retries →
    span ∈ holds' ∨ span ∈ retries') :
    silentTime lastLine now holds' retries' beats ≤ silentTime lastLine now holds retries beats :=
  silentTime_le fun _ hle hlt hnot => ⟨⟨hle, hlt⟩, fun hexcused => hnot (excused_mono h hexcused)⟩

end

/-- Silent time counts the moments of the window that no hold, retry delay or unwatched stretch
excuses, and moves with them. -/
theorem silentTime_measure (lastLine now : Int) (holds retries : List Span)
    (beats : Option (List Int)) :
    silentTime lastLine now holds retries beats =
        { t | (lastLine ≤ t ∧ t < now) ∧ ¬Excused lastLine now holds retries beats t }.ncard ∧
      (now ≤ lastLine → silentTime lastLine now holds retries beats = 0) ∧
      0 ≤ silentTime lastLine now holds retries beats ∧
      (lastLine ≤ now → silentTime lastLine now holds retries beats ≤ now - lastLine) ∧
      (∀ holds' retries', (holds' ++ retries').Perm (holds ++ retries) →
        silentTime lastLine now holds' retries' beats =
          silentTime lastLine now holds retries beats) ∧
      (∀ span, silentTime lastLine now (span :: holds) retries beats ≤
          silentTime lastLine now holds retries beats ∧
        silentTime lastLine now holds (span :: retries) beats ≤
          silentTime lastLine now holds retries beats) ∧
      ∀ now', now ≤ now' →
        silentTime lastLine now holds retries none ≤
          silentTime lastLine now' holds retries none := by
  refine ⟨silentTime_ncard .., fun h => ?_, silentTime_nonneg, fun h => ?_,
    fun holds' retries' h => ?_,
    fun span => ⟨?_, ?_⟩, fun now' h => ?_⟩
  · have hle : silentTime lastLine now holds retries beats ≤ elapsed lastLine now :=
      silentTime_le_elapsed
    have hnonneg : 0 ≤ silentTime lastLine now holds retries beats := silentTime_nonneg
    unfold elapsed at hle
    split at hle <;> omega
  · have hle : silentTime lastLine now holds retries beats ≤ elapsed lastLine now :=
      silentTime_le_elapsed
    unfold elapsed at hle
    split at hle <;> omega
  · have hsame : ∀ span, (span ∈ holds' ∨ span ∈ retries') ↔ (span ∈ holds ∨ span ∈ retries) := by
      intro span
      rw [← List.mem_append, ← List.mem_append]
      exact h.mem_iff
    exact Int.le_antisymm (silentTime_anti fun span => (hsame span).2)
      (silentTime_anti fun span => (hsame span).1)
  · exact silentTime_anti fun _ h => h.imp_left (List.mem_cons_of_mem span)
  · exact silentTime_anti fun _ h => h.imp_right (List.mem_cons_of_mem span)
  · refine silentTime_le fun t hle hlt hnot =>
      ⟨⟨hle, Int.lt_of_lt_of_le hlt h⟩, fun hexcused => hnot ?_⟩
    -- without beats what excuses a moment does not depend on the clock
    rcases hexcused with hspan | ⟨bs, hbs, -⟩
    · exact .inl hspan
    · cases hbs

end Rigger.Liveness
