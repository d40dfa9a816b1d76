import Mathlib.Data.List.Basic
import Mathlib.Order.Basic

/-!
# Runs of a state machine

`run step s is` is the state a machine reaches from `s` on the inputs `is`, one after another.
`Along P s is` says that `P` holds of every input of the run and of the state it meets.  An
invariant is proved for one step and holds of the run (`run_invariant`), also where a step keeps
it only under `P` (`run_invariant_along`), or relates the state to what the steps told
(`run_trace_along`).
-/

namespace Lib

section
variable {σ ι : Type} (step : σ → ι → σ)

def run (s : σ) (is : List ι) : σ := is.foldl step s

@[simp] theorem run_nil (s : σ) : run step s [] = s := rfl

@[simp] theorem run_cons (s : σ) (i : ι) (is : List ι) :
    run step s (i :: is) = run step (step s i) is := rfl

theorem run_append (s : σ) (is js : List ι) :
    run step s (is ++ js) = run step (run step s is) js := List.foldl_append

/-- `P` holds of every input of the run, at the state it meets. -/
def Along (P : σ → ι → Prop) (s : σ) : List ι → Prop
  | [] => True
  | i :: is => P s i ∧ Along P (step s i) is

instance Along.decidable {P : σ → ι → Prop} [∀ s i, Decidable (P s i)] :
    ∀ (s : σ) (is : List ι), Decidable (Along step P s is)
  | _, [] => inferInstanceAs (Decidable True)
  | s, i :: is =>
    have : Decidable (Along step P (step s i) is) := Along.decidable (step s i) is
    inferInstanceAs (Decidable (_ ∧ _))

variable {step} {P : σ → ι → Prop} {I : σ → Prop} {is : List ι} {s : σ}

theorem along_append {js : List ι} :
    Along step P s (is ++ js) ↔ Along step P s is ∧ Along step P (run step s is) js := by
  induction is generalizing s with
  | nil => simp [Along]
  | cons i is ih =>
    show P s i ∧ Along step P (step s i) (is ++ js) ↔
      (P s i ∧ Along step P (step s i) is) ∧ Along step P (run step (step s i) is) js
    rw [ih, and_assoc]

theorem Along.imp {Q : σ → ι → Prop} (hPQ : ∀ s i, P s i → Q s i) (h : Along step P s is) :
    Along step Q s is := by
  induction is generalizing s with
  | nil => exact True.intro
  | cons i is ih => exact ⟨hPQ s i h.1, ih h.2⟩

theorem along_of_forall {Q : ι → Prop} (h : ∀ i ∈ is, Q i) : Along step (fun _ i => Q i) s is := by
  induction is generalizing s with
  | nil => exact True.intro
  | cons i is ih => exact ⟨h i (by simp), ih fun j hj => h j (List.mem_cons_of_mem _ hj)⟩

/-- What every step under `P` keeps holds after a run whose steps all meet `P`. -/
theorem run_invariant_along (hstep : ∀ s i, P s i → I s → I (step s i)) (hP : Along step P s is)
    (h : I s) : I (run step s is) := by
  induction is generalizing s with
  | nil => exact h
  | cons i is ih => exact ih hP.2 (hstep s i hP.1 h)

theorem along_of_invariant {Q : σ → ι → Prop} (hstep : ∀ s i, P s i → I s → I (step s i))
    (hQ : ∀ s i, P s i → I s → Q s i) (hP : Along step P s is) (h : I s) : Along step Q s is := by
  induction is generalizing s with
  | nil => exact True.intro
  | cons i is ih => exact ⟨hQ s i hP.1 h, ih hP.2 (hstep s i hP.1 h)⟩

theorem run_invariant (hstep : ∀ s i, I s → I (step s i)) (h : I s) (is : List ι) :
    I (run step s is) := by
  induction is generalizing s with
  | nil => exact h
  | cons i is ih => exact ih (hstep s i h)

/-! ## Measures -/

section
variable {α : Type} [PartialOrder α] {f : σ → α} {Q : σ → ι → Prop}
  (hstep : ∀ s i, I s → I (step s i))
  (hle : ∀ s i, I s → P s i → f (step s i) ≤ f s)
include hstep hle

theorem run_measure_le {s : σ} {is : List ι} (h : I s) (hP : Along step P s is) :
    f (run step s is) ≤ f s := by
  induction is generalizing s with
  | nil => exact le_refl _
  | cons i is ih => exact (ih (hstep s i h) hP.2).trans (hle s i h hP.1)

/-- Where no step raises a measure and the run ends no lower than it began, every step keeps it. -/
theorem along_of_measure (heq : ∀ s i, I s → P s i → f (step s i) = f s → Q s i) {s : σ}
    {is : List ι} (h : I s) (hP : Along step P s is) (hend : f s ≤ f (run step s is)) :
    Along step Q s is := by
  induction is generalizing s with
  | nil => exact True.intro
  | cons i is ih =>
    have hfirst := hle s i h hP.1
    have hrest := run_measure_le hstep hle (hstep s i h) hP.2
    refine ⟨heq s i h hP.1 (le_antisymm hfirst (hend.trans hrest)), ?_⟩
    exact ih (hstep s i h) hP.2 (hfirst.trans hend)

end

theorem along_iff_prefix :
    Along step P s is ↔ ∀ before i after, is = before ++ i :: after → P (run step s before) i := by
  constructor
  · rintro h before i after rfl
    exact (along_append.1 h).2.1
  · intro h
    induction is generalizing s with
    | nil => exact True.intro
    | cons i is ih =>
      refine ⟨h [] i is rfl, ih fun before j after heq => ?_⟩
      exact h (i :: before) j after (by rw [heq]; rfl)

end

/-! ## What a run tells -/

section
variable {σ ι ο : Type}

/-- What every step of the run tells, at the state it meets. -/
def trace (tell : σ → ι → List ο) (step : σ → ι → σ) (s : σ) : List ι → List ο
  | [] => []
  | i :: is => tell s i ++ trace tell step (step s i) is

variable {tell : σ → ι → List ο}

theorem trace_append (step : σ → ι → σ) (s : σ) (is js : List ι) :
    trace tell step s (is ++ js) = trace tell step s is ++ trace tell step (run step s is) js := by
  induction is generalizing s with
  | nil => rfl
  | cons i is ih =>
    show tell s i ++ trace tell step (step s i) (is ++ js) =
      (tell s i ++ trace tell step (step s i) is) ++ trace tell step (run step (step s i) is) js
    rw [ih, List.append_assoc]

/-- What every step keeps of its state and of what was told before it holds after the run. -/
theorem run_trace_along {step : σ → ι → σ} {P : σ → ι → Prop} {I : List ο → σ → Prop}
    (hstep : ∀ told s i, P s i → I told s → I (told ++ tell s i) (step s i)) {told : List ο} {s : σ}
    {is : List ι} (hP : Along step P s is) (h : I told s) :
    I (told ++ trace tell step s is) (run step s is) := by
  induction is generalizing told s with
  | nil =>
    show I (told ++ []) s
    rwa [List.append_nil]
  | cons i is ih =>
    show I (told ++ (tell s i ++ trace tell step (step s i) is)) (run step (step s i) is)
    rw [← List.append_assoc]
    exact ih hP.2 (hstep told s i hP.1 h)

end

/-! ## Steps that may fail -/

section
variable {σ ι : Type} {step : σ → ι → Option σ} {P : σ → ι → Prop} {I : σ → Prop}

/-- `P` holds of every input of the run, at the state it meets, as far as the run goes. -/
def AlongM (step : σ → ι → Option σ) (P : σ → ι → Prop) (s : σ) : List ι → Prop
  | [] => True
  | i :: is => P s i ∧ ∀ s', step s i = some s' → AlongM step P s' is

variable {ο : Type} {tell : σ → ι → List ο}

/-- What every step tells, as far as the run goes. -/
def traceM (tell : σ → ι → List ο) (step : σ → ι → Option σ) (s : σ) : List ι → List ο
  | [] => []
  | i :: is => tell s i ++ ((step s i).map fun s' => traceM tell step s' is).getD []

theorem foldlM_trace_along {I : List ο → σ → Prop}
    (hstep : ∀ told s i s', P s i → step s i = some s' → I told s → I (told ++ tell s i) s')
    {told : List ο} {s s' : σ} {is : List ι} (hP : AlongM step P s is)
    (hrun : is.foldlM step s = some s') (h : I told s) : I (told ++ traceM tell step s is) s' := by
  induction is generalizing told s with
  | nil =>
    rw [List.foldlM_nil, Option.pure_def, Option.some.injEq] at hrun
    rw [traceM, List.append_nil]
    exact hrun ▸ h
  | cons i is ih =>
    rw [List.foldlM_cons, Option.bind_eq_bind, Option.bind_eq_some_iff] at hrun
    obtain ⟨next, hnext, hrest⟩ := hrun
    rw [traceM, hnext, Option.map_some, Option.getD_some, ← List.append_assoc]
    exact ih (hP.2 next hnext) hrest (hstep told s i next hP.1 hnext h)

end

end Lib
