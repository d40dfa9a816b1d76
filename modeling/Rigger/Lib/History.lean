import Mathlib.Data.List.Basic
import Mathlib.Logic.Function.Basic

/-!
# Histories of commits, and a branch that moves along them

`past g s` holds `s` and every commit before it.  A new commit is named by no older one, so pasts
are ordered (`History.Sound`).  A branch moves from commit to commit, and where it only moves
forward (`Chained`) its moves are in the past of its tip.  Resetting it to where it stood before
its last moves takes off exactly what they brought (`mem_past_iff_of_last`).
-/

namespace Lib

/-! ## Commits -/

structure History (κ : Type) where
  made : List κ
  past : κ → List κ

namespace History
variable {κ : Type}

/-- A history of one commit. -/
def root (s : κ) : History κ := ⟨[s], fun _ => [s]⟩

structure Sound (g : History κ) : Prop where
  self : ∀ s ∈ g.made, s ∈ g.past s
  sub : ∀ s ∈ g.made, ∀ c ∈ g.past s, c ∈ g.made
  trans : ∀ s ∈ g.made, ∀ c ∈ g.past s, g.past c ⊆ g.past s
  antisymm : ∀ s ∈ g.made, ∀ t ∈ g.made, s ∈ g.past t → t ∈ g.past s → s = t

theorem sound_root (s : κ) : (root s).Sound where
  self := by simp [root]
  sub := by simp [root]
  trans := by simp [root]
  antisymm := by simp [root]

variable [DecidableEq κ]

def commit (g : History κ) (s : κ) (parents : List κ) : History κ where
  made := s :: g.made
  past := Function.update g.past s (s :: parents.flatMap g.past)

section
variable {g : History κ} {s : κ} {parents : List κ}

theorem past_commit_self (g : History κ) (s : κ) (parents : List κ) :
    (g.commit s parents).past s = s :: parents.flatMap g.past := Function.update_self ..

theorem past_commit_of_ne {t : κ} (h : t ≠ s) : (g.commit s parents).past t = g.past t :=
  Function.update_of_ne h ..

theorem past_commit_of_made (hs : s ∉ g.made) {t : κ} (ht : t ∈ g.made) :
    (g.commit s parents).past t = g.past t :=
  past_commit_of_ne fun h => hs (h ▸ ht)

theorem Sound.commit (h : g.Sound) (hs : s ∉ g.made) (hparents : ∀ p ∈ parents, p ∈ g.made) :
    (g.commit s parents).Sound := by
  have hnew : ∀ c ∈ (g.commit s parents).past s, c = s ∨ c ∈ g.made ∧ ∃ p ∈ parents,
      c ∈ g.past p := by
    intro c hc
    rw [past_commit_self, List.mem_cons, List.mem_flatMap] at hc
    refine hc.imp_right fun ⟨p, hp, hcp⟩ => ?_
    exact ⟨h.sub p (hparents p hp) c hcp, p, hp, hcp⟩
  refine ⟨?_, ?_, ?_, ?_⟩
  · intro t ht
    rcases List.mem_cons.1 ht with rfl | ht
    · rw [past_commit_self]
      exact List.mem_cons_self
    · rw [past_commit_of_made hs ht]
      exact h.self t ht
  · intro t ht c hc
    rcases List.mem_cons.1 ht with rfl | ht
    · rcases hnew c hc with rfl | ⟨hmade, -⟩
      · exact List.mem_cons_self
      · exact List.mem_cons_of_mem _ hmade
    · rw [past_commit_of_made hs ht] at hc
      exact List.mem_cons_of_mem _ (h.sub t ht c hc)
  · intro t ht c hc x hx
    rcases List.mem_cons.1 ht with rfl | ht
    · rcases hnew c hc with rfl | ⟨hmade, p, hp, hcp⟩
      · exact hx
      · rw [past_commit_of_made hs hmade] at hx
        rw [past_commit_self]
        exact List.mem_cons_of_mem _
          (List.mem_flatMap.2 ⟨p, hp, h.trans p (hparents p hp) c hcp hx⟩)
    · rw [past_commit_of_made hs ht] at hc ⊢
      rw [past_commit_of_made hs (h.sub t ht c hc)] at hx
      exact h.trans t ht c hc hx
  · -- no older commit holds the new one
    have hfirst : ∀ t ∈ g.made, s ∉ (g.commit s parents).past t := by
      intro t ht hmem
      rw [past_commit_of_made hs ht] at hmem
      exact hs (h.sub t ht s hmem)
    intro a ha b hb hab hba
    rcases List.mem_cons.1 ha with rfl | hold
    · rcases List.mem_cons.1 hb with rfl | hold'
      · rfl
      · exact absurd hab (hfirst b hold')
    · rcases List.mem_cons.1 hb with rfl | hold'
      · exact absurd hba (hfirst a hold)
      · rw [past_commit_of_made hs hold'] at hab
        rw [past_commit_of_made hs hold] at hba
        exact h.antisymm a hold b hold' hab hba

end
end History

/-! ## Moves of a branch -/

structure Moved (ω κ : Type) where
  who : ω
  source : κ
  target : κ
deriving DecidableEq

section
variable {ω κ : Type}

/-- The branch stood at `first`, moved forward by every move, and stands at `last`. -/
def Chained (g : History κ) (first : κ) : List (Moved ω κ) → κ → Prop
  | [], last => first = last
  | m :: ms, last => m.source = first ∧ m.target ∈ g.made ∧ first ∈ g.past m.target ∧
      first ≠ m.target ∧ Chained g m.target ms last

variable {g : History κ} {first last : κ} {ms ns : List (Moved ω κ)}

theorem chained_append : Chained g first (ms ++ ns) last ↔
    ∃ mid, Chained g first ms mid ∧ Chained g mid ns last := by
  induction ms generalizing first with
  | nil => simp [Chained]
  | cons m ms ih =>
    rw [List.cons_append]
    show (_ ∧ _ ∧ _ ∧ _ ∧ Chained g m.target (ms ++ ns) last) ↔
      ∃ mid, (_ ∧ _ ∧ _ ∧ _ ∧ Chained g m.target ms mid) ∧ Chained g mid ns last
    rw [ih]
    constructor
    · rintro ⟨hsource, hmade, hpast, hne, mid, hms, hns⟩
      exact ⟨mid, ⟨hsource, hmade, hpast, hne, hms⟩, hns⟩
    · rintro ⟨mid, ⟨hsource, hmade, hpast, hne, hms⟩, hns⟩
      exact ⟨hsource, hmade, hpast, hne, mid, hms, hns⟩

theorem Chained.made (hfirst : first ∈ g.made) (h : Chained g first ms last) : last ∈ g.made := by
  induction ms generalizing first with
  | nil => exact h ▸ hfirst
  | cons m ms ih => exact ih h.2.1 h.2.2.2.2

theorem Chained.brought (h : Chained g first ms last) {x : κ} (hx : x ∈ g.past last) :
    x ∈ g.past first ∨ ∃ m ∈ ms, x ∈ g.past m.target ∧ x ∉ g.past m.source := by
  by_cases hheld : x ∈ g.past first
  · exact .inl hheld
  induction ms generalizing first with
  | nil =>
    subst h
    exact .inl hx
  | cons m ms ih =>
    obtain ⟨hsource, -, -, -, hrest⟩ := h
    by_cases htarget : x ∈ g.past m.target
    · exact .inr ⟨m, List.mem_cons_self, htarget, hsource ▸ hheld⟩
    · rcases ih hrest htarget with hx | ⟨n, hn, hx⟩
      · exact absurd hx htarget
      · exact .inr ⟨n, List.mem_cons_of_mem _ hn, hx⟩

variable (hg : g.Sound) (hfirst : first ∈ g.made)
include hg hfirst

theorem Chained.grows (h : Chained g first ms last) : g.past first ⊆ g.past last := by
  induction ms generalizing first with
  | nil => exact h ▸ List.Subset.refl _
  | cons m ms ih =>
    obtain ⟨-, hmade, hpast, -, hrest⟩ := h
    exact List.Subset.trans (hg.trans m.target hmade first hpast) (ih hmade hrest)

/-- A move starts after where the branch first stood and ends before where it stands. -/
theorem Chained.mem (h : Chained g first ms last) {m : Moved ω κ} (hm : m ∈ ms) :
    m.source ∈ g.made ∧ m.target ∈ g.made ∧ g.past first ⊆ g.past m.source ∧
      m.source ∈ g.past m.target ∧ m.source ≠ m.target ∧ g.past m.target ⊆ g.past last := by
  induction ms generalizing first with
  | nil => cases hm
  | cons x ms ih =>
    obtain ⟨hsource, hmade, hpast, hne, hrest⟩ := h
    rcases List.mem_cons.1 hm with rfl | hm
    · subst hsource
      exact ⟨hfirst, hmade, List.Subset.refl _, hpast, hne, hrest.grows hg hmade⟩
    · obtain ⟨hs, ht, hfrom, hrest'⟩ := ih hmade hrest hm
      exact ⟨hs, ht, List.Subset.trans (hg.trans _ hmade _ hpast) hfrom, hrest'⟩

/-- Resetting a branch to where it stood before its last moves takes off what they brought, and
nothing else: the last moves are one mover's, and it made none before. -/
theorem Chained.mem_past_iff_of_last {mid : κ} {who : ω} (hms : Chained g first ms mid)
    (hns : Chained g mid ns last) (hown : ∀ m ∈ ns, m.who = who) (hother : ∀ m ∈ ms, m.who ≠ who)
    (x : κ) : x ∈ g.past mid ↔ x ∈ g.past last ∧
      ∀ m ∈ ms ++ ns, m.who = who → x ∈ g.past m.target → x ∈ g.past m.source := by
  have hmid := hms.made hfirst
  constructor
  · intro hx
    refine ⟨hns.grows hg hmid hx, fun m hm hwho _ => ?_⟩
    rcases List.mem_append.1 hm with hm | hm
    · exact absurd hwho (hother m hm)
    · exact (hns.mem hg hmid hm).2.2.1 hx
  · rintro ⟨hx, hkept⟩
    rcases hns.brought hx with hx | ⟨m, hm, htarget, hsource⟩
    · exact hx
    · exact absurd (hkept m (List.mem_append_right _ hm) (hown m hm) htarget) hsource

end

section
variable {ω κ : Type} [DecidableEq κ]

/-- The moves that led a branch to where it is reset, and those made since. -/
def movesTo (s : κ) (ms : List (Moved ω κ)) : List (Moved ω κ) := ms.takeWhile (·.source ≠ s)

def movesSince (s : κ) (ms : List (Moved ω κ)) : List (Moved ω κ) := ms.dropWhile (·.source ≠ s)

theorem movesTo_append_movesSince (s : κ) (ms : List (Moved ω κ)) :
    movesTo s ms ++ movesSince s ms = ms := List.takeWhile_append_dropWhile

variable {ms : List (Moved ω κ)} {g : History κ}

theorem Chained.split {first last s : κ} (h : Chained g first ms last)
    (hne : movesSince s ms ≠ []) :
    Chained g first (movesTo s ms) s ∧ Chained g s (movesSince s ms) last := by
  have hsource : ((movesSince s ms).head hne).source = s := by
    have hnot := List.head_dropWhile_not (fun m : Moved ω κ => decide (m.source ≠ s)) hne
    exact not_not.1 (of_decide_eq_false hnot)
  rw [← movesTo_append_movesSince s ms, chained_append] at h
  obtain ⟨mid, hto, hsince⟩ := h
  obtain ⟨m, rest, hrest⟩ := List.exists_cons_of_ne_nil hne
  simp only [hrest, List.head_cons] at hsource
  have hmid : mid = s := by
    rw [hrest] at hsince
    exact hsince.1.symm.trans hsource
  exact ⟨hmid ▸ hto, hmid ▸ hsince⟩

theorem Chained.commit {first last : κ} {s : κ} {parents : List κ} (hs : s ∉ g.made)
    (h : Chained g first ms last) : Chained (g.commit s parents) first ms last := by
  induction ms generalizing first with
  | nil => exact h
  | cons m ms ih =>
    obtain ⟨hsource, hmade, hpast, hne, hrest⟩ := h
    refine ⟨hsource, List.mem_cons_of_mem _ hmade, ?_, hne, ih hrest⟩
    rw [History.past_commit_of_made hs hmade]
    exact hpast

end

end Lib
