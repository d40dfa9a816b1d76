import Mathlib.Data.List.Infix

/-!
# The `LIKE` operator

`like fold pattern text`: `%` takes any run of characters, `_` any one character and every
other character of the pattern itself up to `fold` (SQLite's default folds the ASCII letters).
There is no escape character.

* A text takes its own prefix followed by `%`, wildcards in that prefix included
  (`like_prefix`).
* `%` alone takes every text (`like_all`).
-/

namespace Lib

def like (fold : Char → Char) : List Char → List Char → Bool
  | [], t => t.isEmpty
  | c :: p, t =>
    if c = '%' then t.tails.any (like fold p)
    else match t with
      | [] => false
      | x :: t => (c = '_' || fold c = fold x) && like fold p t

/-- The characters `like` reads as wildcards. -/
def isWildcard (c : Char) : Bool := c = '%' || c = '_'

section
variable (fold : Char → Char)

theorem like_percent (p t : List Char) :
    like fold ('%' :: p) t = true ↔ ∃ s, s <:+ t ∧ like fold p s = true := by
  simp [like, List.any_eq_true]

theorem like_all (t : List Char) : like fold ['%'] t = true :=
  (like_percent fold [] t).2 ⟨[], List.nil_suffix, rfl⟩

theorem like_prefix (p t : List Char) : like fold (p ++ ['%']) (p ++ t) = true := by
  induction p with
  | nil => exact like_all fold t
  | cons c p ih =>
    by_cases hc : c = '%'
    · subst hc
      exact (like_percent fold _ _).2 ⟨p ++ t, List.suffix_cons _ _, ih⟩
    · simp [like, hc, ih]

end

end Lib
