import Mathlib.Data.List.Basic
import Mathlib.Data.List.Nodup
import Mathlib.Tactic.Common

/-!
# A table with an `AUTOINCREMENT` key and a unique index

`Table index` holds `(position, record)` rows in position order, with the highest position
ever issued (`seq`).  The structure carries what the database guarantees: positions increase
along the rows, lie in `1 … seq`, and no two rows share their `index`.  `insert` issues
`seq + 1`, above every position ever issued, and answers `none` where the unique index refuses
the record; `update` rewrites records that keep their index; `delete` keeps `seq`, so a
deleted position is never issued again.
-/

namespace Lib

structure Table {ρ κ : Type} (index : ρ → κ) where
  rows : List (Nat × ρ)
  seq : Nat
  sorted : rows.Pairwise fun a b => a.1 < b.1
  issued : ∀ r ∈ rows, 0 < r.1 ∧ r.1 ≤ seq
  unique : rows.Pairwise fun a b => index a.2 ≠ index b.2

namespace Table

section
variable {ρ κ : Type} {index : ρ → κ}

def empty : Table index := ⟨[], 0, List.Pairwise.nil, by simp, List.Pairwise.nil⟩

theorem nodup_positions (t : Table index) : (t.rows.map Prod.fst).Nodup :=
  List.pairwise_map.2 (t.sorted.imp Nat.ne_of_lt)

variable {t : Table index}

theorem eq_of_position {r r' : Nat × ρ} (hr : r ∈ t.rows) (hr' : r' ∈ t.rows) (h : r.1 = r'.1) :
    r = r' :=
  List.inj_on_of_nodup_map t.nodup_positions hr hr' h

/-- The row `insert` adds, where the unique index takes it. -/
def insert [DecidableEq κ] (t : Table index) (x : ρ) : Option (Table index) :=
  if h : ∀ r ∈ t.rows, index r.2 ≠ index x then
    some
      { rows := t.rows ++ [(t.seq + 1, x)]
        seq := t.seq + 1
        sorted := by
          refine List.pairwise_append.2 ⟨t.sorted, by simp, fun a ha b hb => ?_⟩
          have := (t.issued a ha).2
          rw [List.mem_singleton.1 hb]
          omega
        issued := by
          intro r hr
          rcases List.mem_append.1 hr with hr | hr
          · have := t.issued r hr
            omega
          · rw [List.mem_singleton.1 hr]
            exact ⟨Nat.succ_pos _, Nat.le_refl _⟩
        unique := by
          refine List.pairwise_append.2 ⟨t.unique, by simp, fun a ha b hb => ?_⟩
          rw [List.mem_singleton.1 hb]
          exact h a ha }
  else none

theorem insert_eq_some [DecidableEq κ] {u : Table index} {x : ρ} (h : t.insert x = some u) :
    u.rows = t.rows ++ [(t.seq + 1, x)] ∧ u.seq = t.seq + 1 := by
  unfold insert at h
  split at h
  · cases h; exact ⟨rfl, rfl⟩
  · cases h

theorem insert_isSome [DecidableEq κ] {x : ρ} (h : ∀ r ∈ t.rows, index r.2 ≠ index x) :
    ∃ u, t.insert x = some u := by
  unfold insert
  rw [dif_pos h]
  exact ⟨_, rfl⟩

/-- Rewrite the record at each position by `f`, which keeps the index. -/
def update (t : Table index) (f : Nat → ρ → ρ) (hf : ∀ n x, index (f n x) = index x) :
    Table index where
  rows := t.rows.map fun r => (r.1, f r.1 r.2)
  seq := t.seq
  sorted := List.pairwise_map.2 (t.sorted.imp fun h => h)
  issued := by
    intro r hr
    obtain ⟨r', hr', rfl⟩ := List.mem_map.1 hr
    exact t.issued r' hr'
  unique := List.pairwise_map.2 (t.unique.imp fun h => by simpa [hf] using h)

/-- Keep the rows `keep` accepts. -/
def delete (t : Table index) (keep : Nat × ρ → Bool) : Table index where
  rows := t.rows.filter keep
  seq := t.seq
  sorted := t.sorted.sublist List.filter_sublist
  issued := fun r hr => t.issued r (List.mem_of_mem_filter hr)
  unique := t.unique.sublist List.filter_sublist

@[simp] theorem rows_empty : (empty : Table index).rows = [] := rfl

@[simp] theorem rows_update (t : Table index) (f : Nat → ρ → ρ) (hf) :
    (t.update f hf).rows = t.rows.map fun r => (r.1, f r.1 r.2) := rfl

theorem foldl_update {ι : Type} (f : ι → Nat → ρ → ρ) (hf : ∀ i n x, index (f i n x) = index x)
    (is : List ι) (t : Table index) :
    (is.foldl (fun t i => t.update (f i) (hf i)) t).rows =
        t.rows.map (fun r => (r.1, is.foldl (fun x i => f i r.1 x) r.2)) ∧
      (is.foldl (fun t i => t.update (f i) (hf i)) t).seq = t.seq := by
  induction is generalizing t with
  | nil => simp
  | cons i is ih =>
    obtain ⟨hrows, hseq⟩ := ih (t.update (f i) (hf i))
    refine ⟨?_, hseq⟩
    rw [List.foldl_cons, hrows, rows_update, List.map_map]
    rfl

end

end Table

/-! ## Folds that only one item moves -/

section
variable {α β : Type} {f : β → α → β} {l : List α}

theorem foldl_eq_self (h : ∀ x ∈ l, ∀ b, f b x = b) (b : β) : l.foldl f b = b := by
  induction l generalizing b with
  | nil => rfl
  | cons x l ih =>
    obtain ⟨hx, hl⟩ := List.forall_mem_cons.1 h
    rw [List.foldl_cons, hx, ih hl]

theorem foldl_eq_single {a : α} (ha : a ∈ l) (hnodup : l.Nodup)
    (h : ∀ x ∈ l, x ≠ a → ∀ b, f b x = b) (b : β) : l.foldl f b = f b a := by
  induction l generalizing b with
  | nil => cases ha
  | cons x l ih =>
    obtain ⟨hx, hl⟩ := List.nodup_cons.1 hnodup
    rw [List.foldl_cons]
    by_cases hxa : x = a
    · subst hxa
      exact foldl_eq_self (fun y hy => h y (List.mem_cons_of_mem _ hy)
        fun hyx => hx (hyx ▸ hy)) _
    · rw [h x List.mem_cons_self hxa]
      exact ih ((List.mem_cons.1 ha).resolve_left (Ne.symm hxa)) hl
        (fun y hy => h y (List.mem_cons_of_mem _ hy)) b

end

end Lib
