import Rigger.Graph.Cursor

/-!
# What a seeding finds

The ledger read against the log's live positions.  On a file that owes nothing and carries no cursor
the seeding creates one exactly where the file's prefix of the log is whole, an empty ledger beside
an empty log included, but for positions young enough that their appender may still fold them; the
cursor is the greatest one up to the ledger's highest position that no live position at or below it
is missing from (`seedCursor_seeds_iff`).
-/

namespace Rigger.Graph

open Lib

/-- A live position up to `h` the ledger misses is young: its appender may still fold it. -/
def YoungMisses (f : Folded) (live : List Nat) (stampOf : Nat → Option SystemTime)
    (now : SystemTime)
    (h : Nat) : Prop :=
  ∀ p ∈ live, p ≤ h → p ∉ f.applied → ∃ stamp, stampOf p = some stamp ∧
    now - stamp ≤ catchUpHorizon

/-- The prefix a ledger records of a log is whole but for young misses. -/
def PrefixWhole (f : Folded) (live : List Nat) (stampOf : Nat → Option SystemTime)
    (now : SystemTime) : Prop :=
  (f.applied = ∅ ∧ live = []) ∨
    ∃ h head, f.highestApplied = some h ∧ live.getLast? = some head ∧ h ≤ head ∧
      YoungMisses f live stampOf now h

theorem olderThan_eq_false_iff {stamp : Option SystemTime} {now : SystemTime} :
    olderThan stamp catchUpHorizon now = false ↔
      ∃ at_, stamp = some at_ ∧ now - at_ ≤ catchUpHorizon := by
  unfold olderThan
  cases stamp with
  | none => simp
  | some at_ =>
    have hpos : 0 < catchUpHorizon := by decide
    rw [Bool.and_eq_false_iff, decide_eq_false_iff_not, decide_eq_false_iff_not, Int.not_le,
      Int.not_lt]
    constructor
    · rintro (hlt | hle)
      · exact ⟨at_, rfl, Int.le_of_lt (Int.lt_trans (Int.sub_neg_of_lt hlt) hpos)⟩
      · exact ⟨at_, rfl, hle⟩
    · rintro ⟨stamp, heq, hle⟩
      cases heq
      exact Or.inr hle

section
variable {f : File}

theorem hasApplied_eq_false_iff {f : Folded} {p : Nat} : f.hasApplied p = false ↔
    p ∉ f.applied := by
  rw [Folded.hasApplied, ← Bool.not_eq_true, Std.ExtTreeSet.contains_iff_mem]

theorem highestApplied_eq_none {f : Folded} : f.highestApplied = none ↔ f.applied = ∅ := by
  rw [Folded.highestApplied, List.getLast?_eq_none_iff, Std.ExtTreeSet.toList_eq_nil_iff]

theorem seedThrough_of_current (hrebuild : f.rebuild = none) :
    f.seedThrough = f.folded.highestApplied := by
  unfold File.seedThrough
  rw [hrebuild]

section
variable {live : List Nat} {stampOf : Nat → Option SystemTime} {now : SystemTime} {h : Nat}
  (hrebuild : f.rebuild = none) (hh : f.folded.highestApplied = some h)
include hrebuild hh

theorem missedPositions_eq : f.missedPositions live = missing live f.folded.hasApplied h := by
  unfold File.missedPositions
  rw [seedThrough_of_current hrebuild, hh]

theorem oldMiss_eq_false_iff :
    f.oldMiss live stampOf now = false ↔ YoungMisses f.folded live stampOf now h := by
  unfold File.oldMiss
  rw [missedPositions_eq hrebuild hh, List.any_eq_false]
  constructor
  · intro hall p hp hle hnot
    have hmissing : p ∈ missing live f.folded.hasApplied h :=
      mem_missing.2 ⟨hp, hle, hasApplied_eq_false_iff.2 hnot⟩
    exact olderThan_eq_false_iff.1 (Bool.eq_false_iff.2 (hall p hmissing))
  · intro hyoung p hp
    obtain ⟨hlive, hle, hnot⟩ := mem_missing.1 hp
    rw [olderThan_eq_false_iff.2 (hyoung p hlive hle (hasApplied_eq_false_iff.1 hnot))]
    exact Bool.false_ne_true

end

theorem seedPosition_empty {live : List Nat} {stampOf : Nat → Option SystemTime} {now : SystemTime}
    (hh : f.folded.highestApplied = none) :
    f.seedPosition live stampOf now = if live = [] then some 0 else none := by
  unfold File.seedPosition
  rw [hh]
  cases live using List.reverseRecOn with
  | nil => rfl
  | append_singleton live x => rw [List.getLast?_concat, if_neg (by simp)]

/-- Where the prefix is whole the cursor is seeded just below the first miss. -/
theorem seedPosition_eq {live : List Nat} {stampOf : Nat → Option SystemTime} {now : SystemTime}
    (hrebuild : f.rebuild = none) {c : Nat} :
    f.seedPosition live stampOf now = some c ↔ PrefixWhole f.folded live stampOf now ∧
      c = (f.folded.highestApplied.map (seedAt live f.folded.hasApplied)).getD 0 := by
  cases hh : f.folded.highestApplied with
  | none =>
    have happlied : f.folded.applied = ∅ := highestApplied_eq_none.1 hh
    rw [seedPosition_empty hh]
    constructor
    · intro hsome
      split at hsome
      · next hempty =>
        cases hsome
        exact ⟨Or.inl ⟨happlied, hempty⟩, rfl⟩
      · cases hsome
    · rintro ⟨⟨-, hempty⟩ | ⟨h, _, hhigh, -⟩, rfl⟩
      · rw [if_pos hempty]
        rfl
      · rw [hh] at hhigh
        cases hhigh
  | some h =>
    have hnonempty : f.folded.applied ≠ ∅ := fun hempty => by
      rw [highestApplied_eq_none.2 hempty] at hh
      cases hh
    unfold File.seedPosition
    rw [hh, missedPositions_eq hrebuild hh]
    cases hlast : live.getLast? with
    | none =>
      constructor
      · nofun
      · rintro ⟨⟨hempty, -⟩ | ⟨_, _, -, hhead, -⟩, -⟩
        · exact absurd hempty hnonempty
        · rw [hlast] at hhead
          cases hhead
    | some head =>
      dsimp only
      rw [show (((missing live f.folded.hasApplied h).head?.map fun p => p - 1).getD h) =
        seedAt live f.folded.hasApplied h from rfl]
      constructor
      · intro hsome
        split at hsome
        · next hcond =>
          rw [Bool.and_eq_true, decide_eq_true_eq, Bool.not_eq_true'] at hcond
          cases hsome
          exact ⟨Or.inr ⟨h, head, hh, hlast, hcond.1,
            (oldMiss_eq_false_iff hrebuild hh).1 hcond.2⟩, rfl⟩
        · cases hsome
      · rintro ⟨⟨hempty, -⟩ | ⟨h', head', hh', hhead, hle, hyoung⟩, rfl⟩
        · exact absurd hempty hnonempty
        · rw [hh, Option.some.injEq] at hh'
          rw [hlast, Option.some.injEq] at hhead
          subst hh' hhead
          rw [if_pos]
          · rfl
          · rw [Bool.and_eq_true, decide_eq_true_eq, Bool.not_eq_true']
            exact ⟨hle, (oldMiss_eq_false_iff hrebuild hh).2 hyoung⟩

/-- On a file that owes nothing and carries no cursor the seeding loses nothing exactly where its
prefix of the log is whole but for young misses; the cursor it then creates is the greatest one up
to the ledger's highest position below which the ledger misses no live position, and every live
position missed up to the highest lies past it.  Where it finds the prefix violated it leaves the
file as it was. -/
theorem seedCursor_seeds_iff (f : File) (store : String) (live : List Nat)
    (stampOf : Nat → Option SystemTime) (logHead : Option Nat) (now : SystemTime)
    (hcursor : f.caughtUp = none) (howed : f.rebuildOwed = false) (hrebuild : f.rebuild = none)
    (hsorted : live.Pairwise (· < ·)) (hpos : ∀ p ∈ live, 0 < p) :
    let (seeded, lost) := f.seedCursor store live stampOf logHead now
    (lost = false ↔ PrefixWhole f.folded live stampOf now) ∧ (lost = true → seeded = f) ∧
      (lost = false → ∃ c, seeded = { f with caughtUp := some ⟨c, some store⟩ } ∧
        (∀ p ∈ live, p ≤ c → p ∈ f.folded.applied) ∧
        (∀ h, f.folded.highestApplied = some h → c ≤ h ∧
          (∀ p ∈ live, p ≤ h → p ∉ f.folded.applied → c < p) ∧
          ∀ c' ≤ h, (∀ p ∈ live, p ≤ c' → p ∈ f.folded.applied) → c' ≤ c)) := by
  have hheld : {p | f.folded.hasApplied p = true} = {p | p ∈ f.folded.applied} :=
    Set.ext fun p => Std.ExtTreeSet.contains_iff_mem
  have hnot : ¬(f.rebuildOwed || f.rebuild.isSome) = true := by
    rw [howed, hrebuild]
    exact Bool.false_ne_true
  unfold File.seedCursor
  rw [hcursor]
  dsimp only
  rw [if_neg hnot]
  cases hseed : f.seedPosition live stampOf now with
  | none =>
    refine ⟨⟨nofun, fun hwhole => ?_⟩, fun _ => rfl, nofun⟩
    rw [(seedPosition_eq hrebuild).2 ⟨hwhole, rfl⟩] at hseed
    cases hseed
  | some c =>
    obtain ⟨hwhole, hc⟩ := (seedPosition_eq hrebuild).1 hseed
    refine ⟨⟨fun _ => hwhole, fun _ => rfl⟩, nofun, fun _ => ⟨c, ?_, ?_, ?_⟩⟩
    · unfold File.createCursor
      rw [hcursor]
      rfl
    · cases hh : f.folded.highestApplied with
      | none =>
        rcases hwhole with ⟨-, hempty⟩ | ⟨_, _, hhigh, -⟩
        · rw [hempty]
          nofun
        · rw [hh] at hhigh
          cases hhigh
      | some h =>
        have hfollowed := followed_seedAt hsorted f.folded.hasApplied h hpos
        rw [hheld] at hfollowed
        rw [hh] at hc
        subst hc
        exact hfollowed
    · intro h hh
      rw [hh] at hc
      subst hc
      refine ⟨seedAt_le, fun p hp hle hmiss => ?_, fun c' hle hfollowed => ?_⟩
      · exact seedAt_lt hsorted hpos (mem_missing.2 ⟨hp, hle, hasApplied_eq_false_iff.2 hmiss⟩)
      · refine le_seedAt hle ?_
        rw [hheld]
        exact hfollowed

/-- The third position is missing, its appender a moment ago. -/
def youngMiss : File :=
  ⟨{ Folded.empty with applied := ((∅ : Std.ExtTreeSet Nat).insert 1 |>.insert 2).insert 4 },
    projectionVersion, none, none⟩

theorem seedCursor_seeds_youngMiss :
    (youngMiss.seedCursor "db" [1, 2, 3, 4, 5] (fun p => some p) (some 5) 5).2 = false ↔
      PrefixWhole youngMiss.folded [1, 2, 3, 4, 5] (fun p => some p) 5 :=
  (seedCursor_seeds_iff youngMiss "db" [1, 2, 3, 4, 5] (fun p => some p) (some 5) 5 rfl
    (by decide +kernel) rfl (by decide) (by decide)).1

/-- The cursor is seeded just below the miss. -/
example : (youngMiss.seedCursor "db" [1, 2, 3, 4, 5] (fun p => some p) (some 5) 5).1.caughtUp =
    some ⟨2, some "db"⟩ := by decide +kernel

end

end Rigger.Graph
