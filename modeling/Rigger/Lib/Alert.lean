import Mathlib.Data.List.Nodup
import Mathlib.Order.Lattice
import Rigger.Lib.Latest

/-!
# Alerts on a polled list

Each poll answers rows, each with a key and a size.  A watcher that remembers the last poll tells
the rows whose size is not the one it remembers for their key (`changes`).  They are the news of the
poll, the rows whose key is new or whose size grew, just where no row's size falls
(`changes_eq_news_iff`).
-/

namespace Lib

section
variable {α κ ν : Type} [DecidableEq κ] (key : α → κ) (size : α → ν)

/-- The size the rows of a poll leave for a key. -/
def remembered (rows : List α) (k : κ) : Option ν :=
  latest (fun a => if key a = k then some (size a) else none) rows

def changes [DecidableEq ν] (before now : List α) : List α :=
  now.filter fun a => remembered key size before (key a) != some (size a)

/-- Each poll with the one before it, the first with none. -/
def turns (polls : List (List α)) : List (List α × List α) := ([] :: polls).zip polls

variable {key size} {rows : List α}

theorem remembered_eq_some (h : (rows.map key).Nodup) {b : α} (hb : b ∈ rows) :
    remembered key size rows (key b) = some (size b) := by
  refine latest_eq_of_unique hb (if_pos rfl) fun c hc v hv => ?_
  obtain ⟨hkey, hsize⟩ := Option.ite_none_right_eq_some.1 hv
  rw [← Option.some.inj hsize, List.inj_on_of_nodup_map h hc hb hkey]

theorem remembered_eq_none {k : κ} (h : ∀ b ∈ rows, key b ≠ k) :
    remembered key size rows k = none :=
  (latest_eq_none_iff _ _).2 fun b hb => if_neg (h b hb)

section
variable [LinearOrder ν]

variable (key size) in
/-- The rows of a poll whose key the poll before it had not, or had with a lesser size. -/
def news (before now : List α) : List α :=
  now.filter fun a => before.all fun b => decide (key b = key a → size b < size a)

variable {before : List α}

theorem changed_iff (h : (before.map key).Nodup) {a : α} :
    (remembered key size before (key a) != some (size a)) =
        (before.all fun b => decide (key b = key a → size b < size a)) ↔
      ∀ b ∈ before, key b = key a → size b ≤ size a := by
  by_cases hstood : ∃ b ∈ before, key b = key a
  · obtain ⟨b, hb, hkey⟩ := hstood
    have hsame : ∀ c ∈ before, key c = key a → c = b := fun c hc hca =>
      List.inj_on_of_nodup_map h hc hb (hca.trans hkey.symm)
    have hall : (before.all fun c => decide (key c = key a → size c < size a)) =
        decide (size b < size a) := by
      rw [Bool.eq_iff_iff, List.all_eq_true, decide_eq_true_eq]
      constructor
      · intro hbefore
        exact of_decide_eq_true (hbefore b hb) hkey
      · intro hlt c hc
        refine decide_eq_true fun hca => ?_
        rw [hsame c hc hca]
        exact hlt
    have hle : (∀ c ∈ before, key c = key a → size c ≤ size a) ↔ size b ≤ size a := by
      constructor
      · exact fun hbefore => hbefore b hb hkey
      · intro hle c hc hca
        rw [hsame c hc hca]
        exact hle
    rw [hall, hle, ← hkey, remembered_eq_some h hb, Bool.eq_iff_iff, bne_iff_ne, decide_eq_true_eq,
      ne_eq, Option.some.injEq]
    constructor
    · intro hiff
      by_cases heq : size b = size a
      · exact le_of_eq heq
      · exact le_of_lt (hiff.1 heq)
    · exact fun hle => ⟨lt_of_le_of_ne hle, fun hlt => ne_of_lt hlt⟩
  · have hnew : ∀ b ∈ before, key b ≠ key a := fun b hb hkey => hstood ⟨b, hb, hkey⟩
    rw [remembered_eq_none hnew]
    refine iff_of_true ?_ fun b hb hkey => absurd hkey (hnew b hb)
    rw [Bool.eq_iff_iff]
    exact iff_of_true rfl (List.all_eq_true.2 fun b hb =>
      decide_eq_true fun hkey => absurd hkey (hnew b hb))

theorem changes_eq_news_iff {now : List α} (h : (before.map key).Nodup) :
    changes key size before now = news key size before now ↔
      ∀ a ∈ now, ∀ b ∈ before, key b = key a → size b ≤ size a := by
  unfold changes news
  refine ⟨fun heq a ha => (changed_iff h).1 ?_, fun hle => ?_⟩
  · have hmem : ∀ p : α → Bool, a ∈ now.filter p ↔ p a = true := fun p =>
      List.mem_filter.trans (and_iff_right ha)
    exact Bool.eq_iff_iff.2 ((hmem _).symm.trans
      ((iff_of_eq (congrArg (a ∈ ·) heq)).trans (hmem _)))
  · exact List.filter_congr fun a ha => (changed_iff h).2 (hle a ha)

end

end

end Lib
