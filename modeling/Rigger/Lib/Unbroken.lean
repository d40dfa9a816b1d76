import Mathlib.Data.List.Chain
import Mathlib.Data.List.Infix

/-!
# The longest unbroken suffix of a list

`unbroken R a l` walks a list outwards from its end `a` while each item is related to the one it was
reached from.  Together with `a` it is the longest suffix whose neighbours are all related
(`suffix_unbrokenTo`).
-/

namespace Lib

variable {α : Type} (R : α → α → Prop) [DecidableRel R]

/-- What `l` leads with, each item related to the one before it and the first to `a`. -/
def unbroken (a : α) : List α → List α
  | [] => []
  | b :: l => if R b a then b :: unbroken b l else []

/-- The items up to `a` that no break parts from it, in the list's order. -/
def unbrokenTo (l : List α) (a : α) : List α := (unbroken R a l.reverse).reverse ++ [a]

theorem unbroken_leads (a : α) (l : List α) : unbroken R a l <+: l := by
  induction l generalizing a with
  | nil => exact List.prefix_rfl
  | cons b l ih =>
    unfold unbroken
    split
    · exact List.cons_prefix_cons.2 ⟨rfl, ih b⟩
    · exact List.nil_prefix

theorem isChain_unbroken (a : α) (l : List α) :
    (a :: unbroken R a l).IsChain fun x y => R y x := by
  induction l generalizing a with
  | nil => exact .singleton a
  | cons b l ih =>
    unfold unbroken
    split
    · next hb => exact .cons_cons hb (ih b)
    · exact .singleton a

variable {l : List α} {a : α}

theorem prefix_unbroken {p : List α} (hp : p <+: l) (hchain : (a :: p).IsChain fun x y => R y x) :
    p <+: unbroken R a l := by
  induction l generalizing a p with
  | nil => exact hp
  | cons b l ih =>
    cases p with
    | nil => exact List.nil_prefix
    | cons c p =>
      obtain ⟨rfl, hrest⟩ := List.cons_prefix_cons.1 hp
      obtain ⟨hc, hchain⟩ := List.isChain_cons_cons.1 hchain
      rw [unbroken, if_pos hc]
      exact List.cons_prefix_cons.2 ⟨rfl, ih hrest hchain⟩

theorem mem_unbrokenTo {b : α} : b ∈ unbrokenTo R l a ↔ b = a ∨ b ∈ unbroken R a l.reverse := by
  rw [unbrokenTo, List.mem_append, List.mem_reverse, List.mem_singleton, or_comm]

theorem unbrokenTo_suffix (l : List α) (a : α) : unbrokenTo R l a <:+ l ++ [a] := by
  have hback := List.reverse_suffix.2 (unbroken_leads R a l.reverse)
  rw [List.reverse_reverse] at hback
  obtain ⟨before, hbefore⟩ := hback
  refine ⟨before, ?_⟩
  rw [unbrokenTo, ← List.append_assoc, hbefore]

theorem isChain_unbrokenTo (l : List α) (a : α) : (unbrokenTo R l a).IsChain R := by
  have hback := isChain_unbroken R a l.reverse
  rw [unbrokenTo, ← List.reverse_cons, List.isChain_reverse]
  exact hback

theorem suffix_unbrokenTo {s : List α} (hs : s <:+ l ++ [a]) (hchain : s.IsChain R) :
    s <:+ unbrokenTo R l a := by
  rcases List.eq_nil_or_concat' s with rfl | ⟨init, b, rfl⟩
  · exact List.nil_suffix
  · obtain ⟨before, hbefore⟩ := hs
    rw [← List.append_assoc] at hbefore
    obtain ⟨hinit, hb⟩ := List.append_inj' hbefore rfl
    cases hb
    rw [← List.isChain_reverse, List.reverse_concat] at hchain
    have hpre : init.reverse <+: l.reverse := by
      rw [← hinit, List.reverse_append]
      exact List.prefix_append _ _
    have hwalk := List.reverse_suffix.2 (prefix_unbroken R hpre hchain)
    rw [List.reverse_reverse] at hwalk
    obtain ⟨more, hmore⟩ := hwalk
    exact ⟨more, by rw [unbrokenTo, ← hmore, List.append_assoc]⟩

end Lib
