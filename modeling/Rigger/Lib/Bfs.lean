import Mathlib.Data.List.Basic
import Mathlib.Data.List.Chain
import Mathlib.Order.Lattice.Nat
import Rigger.Lib.Walk

/-!
# Breadth-first search through a queue

`dist hop seeds x` is the least number of hops from a seed to `x`.  `Scan hop seeds current queue
visited` is what a search holds while it hops from `current`: the queue stands in order of distance,
at most one hop beyond `current`, and all visited but `current` and the queue is hopped from.  So a
node met from `current` is one hop beyond it (`Scan.dist_met`), and meeting it (`Scan.meet`) or
popping the next node (`Scan.next`) keeps the scan.

`rings next seeds n` is the search a ring at a time: the nodes nearer than `n` hops, and those `n`
hops away, each in the order a queue would hold them.
-/

namespace Lib

section
variable {α : Type*} (hop : α → α → Prop) (seeds : α → Prop)

noncomputable def dist (x : α) : Nat := sInf {n | HopsFrom hop seeds n x}

structure Scan (current : α) (queue : List α) (visited : α → Prop) : Prop where
  seeded : ∀ x, seeds x → visited x
  reached : ∀ x, visited x → ∃ n, HopsFrom hop seeds n x
  current_visited : visited current
  queue_visited : ∀ x ∈ queue, visited x
  near : ∀ x ∈ queue, dist hop seeds current ≤ dist hop seeds x
  far : ∀ x ∈ queue, dist hop seeds x ≤ dist hop seeds current + 1
  sorted : queue.Pairwise fun x y => dist hop seeds x ≤ dist hop seeds y
  expanded : ∀ x, visited x → x ≠ current → x ∉ queue → ∀ y, hop x y → visited y

variable {hop seeds}

/-! ## Distance -/

variable {n : Nat} {x : α} {chain : List α}

theorem dist_le (h : HopsFrom hop seeds n x) : dist hop seeds x ≤ n := Nat.sInf_le h

theorem hopsFrom_dist (h : HopsFrom hop seeds n x) :
    HopsFrom hop seeds (dist hop seeds x) x :=
    Nat.sInf_mem (s := {n | HopsFrom hop seeds n x}) ⟨n, h⟩

theorem dist_seed (h : seeds x) : dist hop seeds x = 0 := Nat.le_zero.1 (dist_le (.seed h))

theorem dist_hop_le {y : α} (h : HopsFrom hop seeds n x) (hxy : hop x y) :
    dist hop seeds y ≤ dist hop seeds x + 1 := dist_le (.hop (hopsFrom_dist h) hxy)

/-! ## The scan -/

namespace Scan

variable {current : α} {queue : List α} {visited : α → Prop} {rest : List α}

theorem start {seed : α} (h : ∀ x, seeds x ↔ x = seed ∨ x ∈ rest) :
    Scan hop seeds seed rest seeds where
  seeded _ hx := hx
  reached _ hx := ⟨0, .seed hx⟩
  current_visited := (h seed).2 (.inl rfl)
  queue_visited x hx := (h x).2 (.inr hx)
  near x hx := by rw [dist_seed ((h seed).2 (.inl rfl))]; exact Nat.zero_le _
  far x hx := by rw [dist_seed ((h x).2 (.inr hx))]; exact Nat.zero_le _
  sorted := List.pairwise_of_forall_mem_list fun x hx y _ => by
    rw [dist_seed ((h x).2 (.inr hx))]
    exact Nat.zero_le _
  expanded x hx hne hnot := by
    rcases (h x).1 hx with rfl | hx
    · exact absurd rfl hne
    · exact absurd hx hnot

variable (h : Scan hop seeds current queue visited)
include h

/-- What is no further than `current` is visited: it was met from a node nearer than `current`. -/
theorem covered {n : Nat} {x : α} (hx : HopsFrom hop seeds n x) (hn : n ≤ dist hop seeds current) :
    visited x := by
  induction hx with
  | seed hx => exact h.seeded _ hx
  | @hop n x y hx hxy ih =>
    have hlt : dist hop seeds x < dist hop seeds current := Nat.lt_of_le_of_lt (dist_le hx) hn
    apply h.expanded x (ih (by omega)) _ _ y hxy
    · rintro rfl
      exact Nat.lt_irrefl _ hlt
    · intro hmem
      have := h.near x hmem
      omega

theorem dist_met {y : α} (hy : hop current y) (hnew : ¬visited y) :
    dist hop seeds y = dist hop seeds current + 1 := by
  obtain ⟨n, hn⟩ := h.reached current h.current_visited
  apply Nat.le_antisymm (dist_hop_le hn hy)
  by_contra hlt
  exact hnew (h.covered (hopsFrom_dist (.hop hn hy)) (by omega))

theorem meet {y : α} (hy : hop current y) (hnew : ¬visited y) :
    Scan hop seeds current (queue ++ [y]) fun x => visited x ∨ x = y where
  seeded x hx := .inl (h.seeded x hx)
  reached x hx := by
    rcases hx with hx | rfl
    · exact h.reached x hx
    · obtain ⟨n, hn⟩ := h.reached current h.current_visited
      exact ⟨n + 1, .hop hn hy⟩
  current_visited := .inl h.current_visited
  queue_visited x hx := by
    rcases List.mem_append.1 hx with hx | hx
    · exact .inl (h.queue_visited x hx)
    · exact .inr (List.mem_singleton.1 hx)
  near x hx := by
    rcases List.mem_append.1 hx with hx | hx
    · exact h.near x hx
    · rw [List.mem_singleton.1 hx, h.dist_met hy hnew]
      omega
  far x hx := by
    rcases List.mem_append.1 hx with hx | hx
    · exact h.far x hx
    · rw [List.mem_singleton.1 hx, h.dist_met hy hnew]
  sorted := by
    refine List.pairwise_append.2 ⟨h.sorted, List.pairwise_singleton _ _, fun x hx z hz => ?_⟩
    rw [List.mem_singleton.1 hz, h.dist_met hy hnew]
    exact h.far x hx
  expanded x hx hne hnot z hz := by
    rw [List.mem_append, List.mem_singleton, not_or] at hnot
    exact .inl (h.expanded x (hx.resolve_right hnot.2) hne hnot.1 z hz)

theorem congr {visited' : α → Prop} (heq : ∀ x, visited' x ↔ visited x) :
    Scan hop seeds current queue visited' := by
  obtain rfl : visited' = visited := funext fun x => propext (heq x)
  exact h

omit h in
theorem next {c : α} (h : Scan hop seeds current (c :: rest) visited)
    (hall : ∀ y, hop current y → visited y) : Scan hop seeds c rest visited where
  seeded := h.seeded
  reached := h.reached
  current_visited := h.queue_visited c List.mem_cons_self
  queue_visited x hx := h.queue_visited x (List.mem_cons_of_mem c hx)
  near x hx := (List.pairwise_cons.1 h.sorted).1 x hx
  far x hx := by
    have hc := h.near c List.mem_cons_self
    have := h.far x (List.mem_cons_of_mem c hx)
    omega
  sorted := (List.pairwise_cons.1 h.sorted).2
  expanded x hx hne hnot := by
    by_cases hcur : x = current
    · rw [hcur]
      exact hall
    · exact h.expanded x hx hcur (List.not_mem_cons_of_ne_of_not_mem hne hnot)

omit h in
theorem exhausted {n : Nat} {x : α} (h : Scan hop seeds current [] visited)
    (hall : ∀ y, hop current y → visited y) (hx : HopsFrom hop seeds n x) : visited x := by
  induction hx with
  | seed hx => exact h.seeded _ hx
  | @hop n x y _ hxy ih =>
    by_cases hcur : x = current
    · exact hall y (hcur ▸ hxy)
    · exact h.expanded x ih hcur List.not_mem_nil y hxy

end Scan

/-! ## Chains -/

/-- A chain of hops back from `x`, nearest end first, that loses one of the distance at each
step. -/
def Descends (hop : α → α → Prop) (seeds : α → Prop) : List α → Prop :=
  List.IsChain fun y x => hop x y ∧ dist hop seeds y = dist hop seeds x + 1

theorem hopsFrom_of_isChain {a b : α} (hchain : chain.IsChain hop) (ha : chain.head? = some a)
    (hb : chain.getLast? = some b) (hn : HopsFrom hop seeds n a) :
    HopsFrom hop seeds (n + (chain.length - 1)) b := by
  induction chain generalizing a n with
  | nil => cases ha
  | cons x rest ih =>
    obtain rfl : x = a := by simpa using ha
    cases rest with
    | nil =>
      obtain rfl : x = b := by simpa using hb
      exact hn
    | cons y rest =>
      rw [List.isChain_cons_cons] at hchain
      rw [List.getLast?_cons_cons] at hb
      have := ih hchain.2 rfl hb (.hop hn hchain.1)
      rwa [show n + ((x :: y :: rest).length - 1) = n + 1 + ((y :: rest).length - 1) by simp; omega]

theorem Descends.nodup (h : Descends hop seeds chain) : chain.Nodup := by
  have hsorted : chain.Pairwise fun y x => dist hop seeds x < dist hop seeds y :=
    (h.imp fun y x hxy => by omega : chain.IsChain _).pairwise
  exact hsorted.imp fun {y x} hlt heq => by
    rw [heq] at hlt
    exact Nat.lt_irrefl _ hlt

end

/-! ## Rings -/

section
variable {α : Type*} [DecidableEq α]

/-- What of `xs` is not met yet, once each, in order. -/
def newcomers : List α → List α → List α
  | _, [] => []
  | met, x :: xs => if x ∈ met then newcomers met xs else x :: newcomers (x :: met) xs

theorem mem_newcomers {met xs : List α} {y : α} : y ∈ newcomers met xs ↔ y ∈ xs ∧ y ∉ met := by
  induction xs generalizing met with
  | nil => simp [newcomers]
  | cons x xs ih =>
    rw [newcomers]
    split
    · next hx =>
      rw [ih, List.mem_cons]
      constructor
      · exact fun h => ⟨.inr h.1, h.2⟩
      · rintro ⟨rfl | h, hnot⟩
        · exact absurd hx hnot
        · exact ⟨h, hnot⟩
    · next hx =>
      rw [List.mem_cons, ih, List.mem_cons, List.mem_cons]
      by_cases hy : y = x
      · rw [hy]
        simp [hx]
      · simp [hy]

/-- The nodes nearer than `n` hops, and the ring `n` hops away. -/
def rings (next : α → List α) (seeds : List α) : Nat → List α × List α
  | 0 => ([], seeds)
  | n + 1 =>
    ((rings next seeds n).1 ++ (rings next seeds n).2,
      newcomers ((rings next seeds n).1 ++ (rings next seeds n).2)
        ((rings next seeds n).2.flatMap next))

variable {next : α → List α} {seeds : List α}

theorem layer_rings (n : Nat) :
    Layer (fun x y => y ∈ next x) (· ∈ seeds) n
      (· ∈ (rings next seeds n).1 ++ (rings next seeds n).2) (· ∈ (rings next seeds n).2) := by
  induction n with
  | zero => exact Layer.start (fun x => by rfl) fun x => Iff.rfl
  | succ n ih =>
    apply ih.next
    · intro y
      rw [rings, List.mem_append, mem_newcomers, List.mem_flatMap]
      tauto
    · intro y
      rw [rings, List.mem_append, mem_newcomers]
      tauto

theorem mem_rings_within {n : Nat} {x : α} :
    x ∈ (rings next seeds n).1 ++ (rings next seeds n).2 ↔
      Within (fun x y => y ∈ next x) (· ∈ seeds) n x := (layer_rings n).reached_iff x

theorem mem_rings_before {n : Nat} {x : α} :
    x ∈ (rings next seeds n).1 ↔ ∃ k < n, HopsFrom (fun x y => y ∈ next x) (· ∈ seeds) k x := by
  cases n with
  | zero => simp [rings]
  | succ n =>
    rw [rings, mem_rings_within]
    simp only [Within, Nat.lt_succ_iff]

end

end Lib
