import Mathlib.Data.Int.Interval
import Mathlib.Data.Set.Card

/-!
# The time outside a set of spans

A walk over spans in the order they start, from a cursor on, adds up what lies before each span and
moves the cursor past it.  What it adds up is the number of moments no span covers (`outside_eq`),
however the spans overlap.
-/

namespace Lib

structure Span where
  start : Int
  stop : Int
deriving DecidableEq

def Span.Covers (s : Span) (t : Int) : Prop := s.start ≤ t ∧ t < s.stop

/-- The moments from `a` to `b` that no span covers. -/
def uncovered (spans : List Span) (a b : Int) : Set Int :=
  { t | (a ≤ t ∧ t < b) ∧ ∀ s ∈ spans, ¬s.Covers t }

/-- The time from `a` to `b`, none where `b` is before `a`. -/
def elapsed (a b : Int) : Int := if a ≤ b then b - a else 0

def earlier (a b : Int) : Int := if a ≤ b then a else b

def later (a b : Int) : Int := if a ≤ b then b else a

/-- One span of the walk: what is added up, and the cursor. -/
def pass (now : Int) (w : Int × Int) (s : Span) : Int × Int :=
  (w.1 + elapsed w.2 (earlier s.start now), later w.2 s.stop)

/-- What the walk leaves outside the spans, from `first` to `now`. -/
def outside (spans : List Span) (first now : Int) : Int :=
  let w := spans.foldl (pass now) (0, first)
  w.1 + elapsed w.2 now

theorem lt_earlier {a b t : Int} : t < earlier a b ↔ t < a ∧ t < b := by
  unfold earlier
  split <;> omega

theorem later_le {a b t : Int} : later a b ≤ t ↔ a ≤ t ∧ b ≤ t := by
  unfold later
  split <;> omega

section
variable {now : Int} {spans : List Span}

theorem mem_uncovered {a b t : Int} :
    t ∈ uncovered spans a b ↔ (a ≤ t ∧ t < b) ∧ ∀ s ∈ spans, ¬s.Covers t := Iff.rfl

theorem elapsed_eq_ncard (a b : Int) : elapsed a b = (uncovered [] a b).ncard := by
  have hset : uncovered [] a b = (Finset.Ico a b : Finset Int) := by
    ext t
    rw [mem_uncovered, Finset.mem_coe, Finset.mem_Ico]
    exact and_iff_left fun s hs => by cases hs
  rw [hset, Set.ncard_coe_finset, Int.card_Ico]
  unfold elapsed
  split <;> omega

theorem finite_uncovered (spans : List Span) (a b : Int) : (uncovered spans a b).Finite := by
  refine (Finset.Ico a b).finite_toSet.subset fun t ht => ?_
  rw [Finset.mem_coe, Finset.mem_Ico]
  exact ht.1

/-- The moments before the first span, and those past it that no later span covers. -/
theorem uncovered_cons {s : Span} {cursor : Int} (hs : s.start < s.stop)
    (hfirst : ∀ x ∈ spans, s.start ≤ x.start) : uncovered (s :: spans) cursor now =
      uncovered [] cursor (earlier s.start now) ∪ uncovered spans (later cursor s.stop) now := by
  ext t
  rw [Set.mem_union, mem_uncovered, mem_uncovered, mem_uncovered, lt_earlier, later_le]
  constructor
  · rintro ⟨⟨hge, hlt⟩, hnone⟩
    have hout : ¬(s.start ≤ t ∧ t < s.stop) := hnone s List.mem_cons_self
    have hrest : ∀ x ∈ spans, ¬x.Covers t := fun x hx => hnone x (List.mem_cons_of_mem _ hx)
    by_cases hbefore : t < s.start
    · exact Or.inl ⟨⟨hge, hbefore, hlt⟩, fun x hx => by cases hx⟩
    · exact Or.inr ⟨⟨⟨hge, by omega⟩, hlt⟩, hrest⟩
  · rintro (⟨⟨hge, hbefore, hlt⟩, -⟩ | ⟨⟨⟨hge, hpast⟩, hlt⟩, hrest⟩)
    · refine ⟨⟨hge, hlt⟩, fun x hx hcovers => ?_⟩
      have hcovers : x.start ≤ t ∧ t < x.stop := hcovers
      rcases List.mem_cons.1 hx with rfl | hx
      · omega
      · have := hfirst x hx
        omega
    · refine ⟨⟨hge, hlt⟩, fun x hx hcovers => ?_⟩
      rcases List.mem_cons.1 hx with rfl | hx
      · have hcovers : x.start ≤ t ∧ t < x.stop := hcovers
        omega
      · exact hrest x hx hcovers

theorem foldl_pass (hne : ∀ s ∈ spans, s.start < s.stop)
    (hsorted : spans.Pairwise fun a b => a.start ≤ b.start) (sum cursor : Int) :
    (spans.foldl (pass now) (sum, cursor)).1 +
      elapsed (spans.foldl (pass now) (sum, cursor)).2 now =
        sum + (uncovered spans cursor now).ncard := by
  induction spans generalizing sum cursor with
  | nil =>
    rw [← elapsed_eq_ncard]
    rfl
  | cons s spans ih =>
    obtain ⟨hfirst, hrest⟩ := List.pairwise_cons.1 hsorted
    have hs := hne s List.mem_cons_self
    have hdisjoint : Disjoint (uncovered [] cursor (earlier s.start now))
        (uncovered spans (later cursor s.stop) now) := by
      rw [Set.disjoint_left]
      intro t ht hlate
      have hbefore := (lt_earlier.1 ht.1.2).1
      have hpast := (later_le.1 hlate.1.1).2
      omega
    rw [List.foldl_cons, uncovered_cons hs hfirst,
      Set.ncard_union_eq hdisjoint (finite_uncovered _ _ _) (finite_uncovered _ _ _)]
    rw [show pass now (sum, cursor) s = (sum + elapsed cursor (earlier s.start now),
      later cursor s.stop) from rfl, ih (fun x hx => hne x (List.mem_cons_of_mem _ hx)) hrest,
      elapsed_eq_ncard]
    push_cast
    omega

theorem outside_eq (hne : ∀ s ∈ spans, s.start < s.stop)
    (hsorted : spans.Pairwise fun a b => a.start ≤ b.start) (first : Int) :
    outside spans first now = (uncovered spans first now).ncard := by
  have h : outside spans first now = 0 + ((uncovered spans first now).ncard : Int) :=
    foldl_pass hne hsorted 0 first
  rw [h, zero_add]

end

end Lib
