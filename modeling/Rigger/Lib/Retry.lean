import Mathlib.Data.List.Induction
import Mathlib.Data.List.Infix

/-!
# Bounded retries

`retry` makes one attempt for each entry of a window until one answers; a window whose attempts all
ask for another is spent, and the state they leave answers.  Every attempt leaves a trace.

What a run traces is read off its attempts one at a time (`Runs.met`), and two loops whose attempts
agree along a run end alike (`Runs.rerun`).
-/

namespace Lib

/-- What one attempt ends in, with its trace: an answer, or the state the next attempt begins
from. -/
inductive Attempt (σ τ α : Type) where
  | answered (t : τ) (a : α) (s : σ)
  | redriven (t : τ) (s : σ)

def Attempt.trace {σ τ α : Type} : Attempt σ τ α → τ
  | answered t _ _ => t
  | redriven t _ => t

structure Retried (σ τ α : Type) where
  trace : List τ
  answer : α
  state : σ

section
variable {ι σ τ α : Type} (attempt : ι → σ → Attempt σ τ α) (spent : σ → α)

def retry : List ι → σ → Retried σ τ α
  | [], s => ⟨[], spent s, s⟩
  | i :: is, s =>
    match attempt i s with
    | .answered t a s' => ⟨[t], a, s'⟩
    | .redriven t s' =>
      let rest := retry is s'
      ⟨t :: rest.trace, rest.answer, rest.state⟩

/-- The runs of the loop: a spent window, an answer, and one more attempt. -/
inductive Runs : List ι → σ → List τ → α → σ → Prop
  | spent (s : σ) : Runs [] s [] (spent s) s
  | answered {i : ι} {is : List ι} {s s' : σ} {t : τ} {a : α} (h : attempt i s = .answered t a s') :
    Runs (i :: is) s [t] a s'
  | redriven {i : ι} {is : List ι} {s s' s'' : σ} {t : τ} {ts : List τ} {a : α}
    (h : attempt i s = .redriven t s') (hrest : Runs is s' ts a s'') : Runs (i :: is) s
    (t :: ts) a s''

variable {attempt spent}

theorem runs_retry (is : List ι) (s : σ) : Runs attempt spent is s (retry attempt spent is s).trace
    (retry attempt spent is s).answer (retry attempt spent is s).state := by
  induction is generalizing s with
  | nil => exact .spent s
  | cons i is ih =>
    rw [retry]
    cases h : attempt i s with
    | answered t a s' => exact .answered h
    | redriven t s' => exact .redriven h (ih s')

namespace Runs

variable {is : List ι} {s s' : σ} {ts : List τ} {a : α}

/-- The attempts that leave a label leave those of the window's first entries, in its order. -/
theorem labels {β : Type} {label : τ → Option β} {f : ι → β} (h : Runs attempt spent is s ts a s')
    (hans : ∀ i s t a s', attempt i s = .answered t a s' → ∀ b ∈ label t, b = f i)
    (hred : ∀ i s t s', attempt i s = .redriven t s' → label t = some (f i)) :
    ts.filterMap label <+: is.map f := by
  induction h with
  | spent s => exact List.prefix_rfl
  | @answered i is s s' t a hattempt =>
    cases hlabel : label t with
    | none =>
      rw [List.filterMap_cons_none hlabel]
      exact List.nil_prefix
    | some b =>
      rw [List.filterMap_cons_some hlabel, hans i s t a s' hattempt b hlabel]
      exact List.cons_prefix_cons.2 ⟨rfl, List.nil_prefix⟩
  | @redriven i is s s' _ t _ _ hattempt _ ih =>
    rw [List.filterMap_cons_some (hred i s t s' hattempt), List.map_cons]
    exact List.cons_prefix_cons.2 ⟨rfl, ih⟩

section
variable {φ : Type} (view : σ → φ) (after : φ → τ → φ)
  (hview : ∀ i s t s', attempt i s = .redriven t s' → view s' = after (view s) t)
include hview

/-- The attempt behind each trace: it met what the traces before its own leave, and it answered only
where its trace is the last. -/
theorem met (h : Runs attempt spent is s ts a s') {before later : List τ} {t : τ}
    (hts : ts = before ++ t :: later) :
    ∃ i ∈ is, ∃ s₁, view s₁ = before.foldl after (view s) ∧
      ((∃ s₂, attempt i s₁ = .redriven t s₂) ∨ (later = [] ∧ attempt i s₁ = .answered t a s')) := by
  induction h generalizing before with
  | spent s =>
    cases before with
    | nil => cases hts
    | cons _ _ => cases hts
  | @answered i is s s' t' a hattempt =>
    cases before with
    | nil =>
      cases hts
      exact ⟨i, List.mem_cons_self, s, rfl, .inr ⟨rfl, hattempt⟩⟩
    | cons b before =>
      obtain ⟨-, hnil⟩ := List.cons.inj hts
      exact absurd hnil.symm (by simp)
  | @redriven i is s s₁ s'' t' ts a hattempt hrest ih =>
    cases before with
    | nil =>
      cases hts
      exact ⟨i, List.mem_cons_self, s, rfl, .inl ⟨s₁, hattempt⟩⟩
    | cons b before =>
      obtain ⟨rfl, htail⟩ := List.cons.inj hts
      obtain ⟨j, hj, s₂, hs₂, hcase⟩ := ih htail
      refine ⟨j, List.mem_cons_of_mem _ hj, s₂, ?_, hcase⟩
      rw [hs₂, hview i s t' s₁ hattempt, List.foldl_cons]

theorem ended (h : Runs attempt spent is s ts a s') :
    (∃ before t, ts = before ++ [t] ∧ ∃ i ∈ is, ∃ s₁, view s₁ = before.foldl after (view s) ∧
      attempt i s₁ = .answered t a s') ∨
    (ts.length = is.length ∧ a = spent s' ∧ view s' = ts.foldl after (view s) ∧
      ∀ t ∈ ts, ∃ i s₁ s₂, attempt i s₁ = .redriven t s₂) := by
  induction h with
  | spent s => exact .inr ⟨rfl, rfl, rfl, by simp⟩
  | @answered i is s s' t a hattempt =>
    exact .inl ⟨[], t, rfl, i, List.mem_cons_self, s, rfl, hattempt⟩
  | @redriven i is s s₁ s'' t ts a hattempt hrest ih =>
    have hfirst := hview i s t s₁ hattempt
    rcases ih with ⟨before, t', rfl, j, hj, s₂, hs₂, hans⟩ | ⟨hlength, ha, hs'', hall⟩
    · refine .inl ⟨t :: before, t', rfl, j, List.mem_cons_of_mem _ hj, s₂, ?_, hans⟩
      rw [hs₂, hfirst, List.foldl_cons]
    · refine .inr ⟨congrArg Nat.succ hlength, ha, by rw [hs'', hfirst, List.foldl_cons], ?_⟩
      exact List.forall_mem_cons.2 ⟨⟨i, s, s₁, hattempt⟩, hall⟩

end

/-- A second loop whose attempts answer and redrive as the run's own did, along a relation of their
states, answers as the run did. -/
theorem rerun {σ' τ' α' : Type} {attempt' : ι → σ' → Attempt σ' τ' α'} {spent' : σ' → α'}
    {R E : σ → σ' → Prop} {A : α → α' → Prop} {P : τ → Prop} {r : σ'}
    (h : Runs attempt spent is s ts a s') (hspent : ∀ s r, R s r → A (spent s) (spent' r) ∧ E s r)
    (hans : ∀ i s r t a s', R s r → P t → attempt i s = .answered t a s' →
      ∃ t' a' r', attempt' i r = .answered t' a' r' ∧ A a a' ∧ E s' r')
    (hred : ∀ i s r t s', R s r → P t → attempt i s = .redriven t s' →
      ∃ t' r', attempt' i r = .redriven t' r' ∧ R s' r')
    (hP : ∀ t ∈ ts, P t) (hR : R s r) :
    A a (retry attempt' spent' is r).answer ∧ E s' (retry attempt' spent' is r).state := by
  induction h generalizing r with
  | spent s => exact hspent s r hR
  | @answered i is s s' t a hattempt =>
    obtain ⟨t', a', r', hr', hends⟩ := hans i s r t a s' hR (hP t List.mem_cons_self) hattempt
    rw [retry, hr']
    exact hends
  | @redriven i is s s₁ s'' t ts a hattempt hrest ih =>
    obtain ⟨t', r', hr', hR'⟩ := hred i s r t s₁ hR (hP t List.mem_cons_self) hattempt
    rw [retry, hr']
    exact ih (fun t ht => hP t (List.mem_cons_of_mem _ ht)) hR'

end Runs

end

theorem countP_le_one {α : Type} {p : α → Bool} {l : List α}
    (h : ∀ before a later, l = before ++ a :: later → p a = true → before.any p = false) :
    l.countP p ≤ 1 := by
  induction l using List.reverseRecOn with
  | nil => exact Nat.zero_le 1
  | append_singleton l a ih =>
    rw [List.countP_append, List.countP_singleton]
    split
    · next ha =>
      have hnone := h l a [] rfl ha
      rw [List.countP_eq_zero.2 fun x hx hpx => ?_]
      rw [List.any_eq_false] at hnone
      exact hnone x hx hpx
    · refine ih fun before b later hl hb => h before b (later ++ [a]) ?_ hb
      rw [hl, List.append_assoc, List.cons_append]

end Lib
