import Mathlib.Data.Finset.Card
import Mathlib.Data.List.Count
import Rigger.Lib.Latest

/-!
# Openings and closings of keys

Some rows of a list open a key and some close one.  Where every closing row finds its key opened and
not closed since (`Matched`), what stands open after the list makes up the difference of the two
counts, so the closings never outnumber the openings (`Matched.countP_le`).
-/

namespace Lib

section
variable {α κ : Type} (opened closed : α → Option κ)

/-- The key was opened and not closed since. -/
def StandsOpen (l : List α) (k : κ) : Prop :=
  Since (fun x => opened x = some k) (fun x => closed x = some k) l

def Matched (l : List α) : Prop :=
  ∀ before x after, l = before ++ x :: after →
    ∀ k, closed x = some k → StandsOpen opened closed before k

variable {opened closed} {l : List α} {x : α}

theorem matched_nil : Matched opened closed [] := by
  intro before x after heq
  simp at heq

theorem matched_concat : Matched opened closed (l ++ [x]) ↔
    Matched opened closed l ∧ ∀ k, closed x = some k → StandsOpen opened closed l k := by
  constructor
  · intro h
    exact ⟨fun before y after heq => h before y (after ++ [x]) (by rw [heq]; simp), h l x [] rfl⟩
  · rintro ⟨hl, hx⟩ before y after heq k hk
    by_contra hopen
    rcases (exists_split_concat
      (P := fun before y => ∃ k, closed y = some k ∧ ¬StandsOpen opened closed before k)).1
        ⟨before, y, after, heq, k, hk, hopen⟩ with ⟨b, z, a, rfl, k, hk, hopen⟩ | ⟨k, hk, hopen⟩
    · exact hopen (hl b z a rfl k hk)
    · exact hopen (hx k hk)

theorem Matched.of_append {a b : List α} (h : Matched opened closed (a ++ b)) :
    Matched opened closed a :=
  fun before x after heq => h before x (after ++ b) (by rw [heq]; simp)

variable [DecidableEq κ]

theorem Matched.exists_open (h : Matched opened closed l) : ∃ standing : Finset κ,
    (∀ k, k ∈ standing ↔ StandsOpen opened closed l k) ∧
      l.countP (fun x => (closed x).isSome) + standing.card ≤
        l.countP fun x => (opened x).isSome := by
  induction l using List.reverseRecOn with
  | nil => exact ⟨∅, fun k => by simp [StandsOpen, not_since_nil], by simp⟩
  | append_singleton l x ih =>
    obtain ⟨hl, hx⟩ := matched_concat.1 h
    obtain ⟨standing, hmem, hcard⟩ := ih hl
    have hopen : ∀ k, StandsOpen opened closed (l ++ [x]) k ↔
        opened x = some k ∨ StandsOpen opened closed l k ∧ closed x ≠ some k := fun k =>
        since_concat
    -- a closing row takes its key away
    obtain ⟨left, hleft, hless⟩ : ∃ left : Finset κ,
        (∀ k, k ∈ left ↔ StandsOpen opened closed l k ∧ closed x ≠ some k) ∧
          left.card + (closed x).isSome.toNat = standing.card := by
      cases hclosed : closed x with
      | none => exact ⟨standing, fun k => by simp [hmem], rfl⟩
      | some j =>
        have hj : j ∈ standing := (hmem j).2 (hx j hclosed)
        refine ⟨standing.erase j, fun k => ?_, Finset.card_erase_add_one hj⟩
        rw [Finset.mem_erase, hmem, and_comm, ne_eq, ne_eq, Option.some.injEq, eq_comm]
    have hcount : ∀ f : α → Option κ, (l ++ [x]).countP (fun y => (f y).isSome) =
        l.countP (fun y => (f y).isSome) + (f x).isSome.toNat := by
      intro f
      rw [List.countP_append, List.countP_singleton]
      cases f x <;> rfl
    rw [hcount, hcount]
    cases hopened : opened x with
    | none =>
      refine ⟨left, fun k => ?_, ?_⟩
      · rw [hopen, hopened, hleft, or_iff_right (Option.some_ne_none k).symm]
      · rw [Option.isSome_none, Bool.toNat_false]
        omega
    | some j =>
      refine ⟨insert j left, fun k => ?_, ?_⟩
      · rw [Finset.mem_insert, hopen, hopened, hleft, Option.some.injEq, eq_comm]
      · have hinsert := Finset.card_insert_le j left
        rw [Option.isSome_some, Bool.toNat_true]
        omega

theorem Matched.countP_le (h : Matched opened closed l) :
    l.countP (fun x => (closed x).isSome) ≤ l.countP fun x => (opened x).isSome := by
  obtain ⟨standing, -, hcard⟩ := h.exists_open
  omega

end

end Lib
