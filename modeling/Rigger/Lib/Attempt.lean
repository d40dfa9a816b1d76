import Mathlib.Data.List.DropRight

/-!
# Attempts of a key

A log starts keys and records outcomes of them.  An outcome belongs to its key's latest start before
it.  `outcomes serves k log` are the outcomes of `k` that belong to starts `serves` takes, whichever
of them; `fresh` are those of the last such start, `before` those of the earlier ones.  The last
outcome over all of them is the last start's own, or, where it has none, an earlier start's
(`getLast?_outcomes`).
-/

namespace Lib

inductive Happening (κ τ ω : Type) where
  | start (key : κ) (tag : τ)
  | outcome (key : κ) (o : ω)

namespace Happening

variable {κ τ ω : Type} [DecidableEq κ] (serves : τ → Bool) (k : κ)

/-- Whether the start in force of the key after the log is one that serves. -/
def inForce (current : Bool) : List (Happening κ τ ω) → Bool
  | [] => current
  | start key tag :: log => inForce (if key = k then serves tag else current) log
  | outcome _ _ :: log => inForce current log

/-- The outcomes of the key under a start that serves; `current` says whether the log opens under
one. -/
def outcomesFrom (current : Bool) : List (Happening κ τ ω) → List ω
  | [] => []
  | start key tag :: log => outcomesFrom (if key = k then serves tag else current) log
  | outcome key o :: log =>
    if key = k ∧ current then o :: outcomesFrom current log else outcomesFrom current log

def outcomes (log : List (Happening κ τ ω)) : List ω := outcomesFrom serves k false log

def isServing : Happening κ τ ω → Bool
  | start key tag => key == k && serves tag
  | outcome _ _ => false

/-- The outcomes of the key's last start that serves. -/
def fresh (log : List (Happening κ τ ω)) : List ω :=
  outcomesFrom serves k (log.any (isServing serves k))
    (log.rtakeWhile fun h => !isServing serves k h)

/-- The outcomes of its earlier starts that serve. -/
def before (log : List (Happening κ τ ω)) : List ω :=
  outcomes serves k (log.rdropWhile fun h => !isServing serves k h)

variable {serves k}

theorem inForce_append (current : Bool) (a b : List (Happening κ τ ω)) :
    inForce serves k current (a ++ b) = inForce serves k (inForce serves k current a) b := by
  induction a generalizing current with
  | nil => rfl
  | cons h a ih =>
    cases h with
    | start key tag => exact ih _
    | outcome key o => exact ih _

theorem outcomesFrom_append (current : Bool) (a b : List (Happening κ τ ω)) :
    outcomesFrom serves k current (a ++ b) =
      outcomesFrom serves k current a ++ outcomesFrom serves k (inForce serves k current a) b := by
  induction a generalizing current with
  | nil => rfl
  | cons h a ih =>
    cases h with
    | start key tag => exact ih _
    | outcome key o =>
      by_cases hcounts : key = k ∧ current = true
      · show (if key = k ∧ current then o :: outcomesFrom serves k current (a ++ b) else _) =
          (if key = k ∧ current then _ else _) ++ _
        rw [if_pos hcounts, if_pos hcounts, ih]
        rfl
      · show (if key = k ∧ current then _ else outcomesFrom serves k current (a ++ b)) =
          (if key = k ∧ current then _ else _) ++ _
        rw [if_neg hcounts, if_neg hcounts]
        exact ih _

theorem outcomes_concat (log : List (Happening κ τ ω)) (h : Happening κ τ ω) :
    outcomes serves k (log ++ [h]) =
      outcomes serves k log ++ outcomesFrom serves k (inForce serves k false log) [h] :=
  outcomesFrom_append false log [h]

theorem inForce_rdropWhile (log : List (Happening κ τ ω)) :
    inForce serves k false (log.rdropWhile fun h => !isServing serves k h) =
      log.any (isServing serves k) := by
  induction log using List.reverseRecOn with
  | nil => rfl
  | append_singleton log h ih =>
    rw [List.any_append, List.any_cons, List.any_nil, Bool.or_false]
    cases hserving : isServing serves k h with
    | false =>
      rw [List.rdropWhile_concat_pos _ _ _ (by simp [hserving]), Bool.or_false]
      exact ih
    | true =>
      rw [List.rdropWhile_concat_neg _ _ _ (by simp [hserving]), Bool.or_true, inForce_append]
      cases h with
      | start key tag =>
        have hboth : key = k ∧ serves tag = true := by simpa [isServing] using hserving
        show (if key = k then serves tag else _) = true
        rw [if_pos hboth.1, hboth.2]
      | outcome key o => cases hserving

theorem outcomes_eq (log : List (Happening κ τ ω)) :
    outcomes serves k log = before serves k log ++ fresh serves k log := by
  conv_lhs =>
    rw [← List.rdropWhile_append_rtakeWhile (p := fun h => !isServing serves k h) (l := log)]
  rw [outcomes, outcomesFrom_append, inForce_rdropWhile]
  rfl

theorem getLast?_outcomes (log : List (Happening κ τ ω)) : (outcomes serves k log).getLast? =
    (fresh serves k log).getLast?.or (before serves k log).getLast? := by
  rw [outcomes_eq, List.getLast?_append]

end Happening

end Lib
