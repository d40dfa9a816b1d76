import Rigger.Conductor.Attribution
import Rigger.Domain.Spawn

/-!
# The grammar of spawn ids (`rigger-domain/src/spawn.rs`)

A spawn's id is `{unit}/{role}#{attempt}`, with `~retry{n}` after it from the first rerun on, and a
review step's role is its kind's token, with `@{k}` after it from the second step on.  The readers
cut an id from either end.  Over units and roles free of the id's separators each of them reads back
what was minted (`spawnId_grammar`).
-/

namespace Rigger.Conductor.Attribution

open Lib

/-! ## Readers -/

/-- `unit_role_of`. -/
def unitRoleOf (id : String) : String :=
  String.ofList (id.toList.takeWhile fun c => c ≠ '#' ∧ c ≠ '~')

/-- `step_suffix`: no leading zero and no sign, at least 2. -/
def stepSuffix (suffix : String) : Option Nat :=
  match suffix.toList.head? with
  | some c =>
    if '1' ≤ c ∧ c ≤ '9' then (parseU32 suffix.toList).filter fun k => decide (2 ≤ k) else none
  | none => none

/-- `step_token`: a role's token and step ordinal. -/
def stepToken (role : String) : Option (String × Nat) :=
  match splitOnce '@' role with
  | none => some (role, 1)
  | some (token, suffix) => (stepSuffix suffix).map fun k => (token, k)

/-- The kind of review a role's token names. -/
def kindOf (token : String) : Option ReviewKind :=
  if token = "adversary" then some .adversary
  else if token = "adjudicator" then some .adjudicator
  else if (stripPrefix "lens:" token).isSome then some .lens
  else none

/-- `review_step_of`. -/
def reviewStepOf (role : String) : Option (ReviewKind × Nat) := do
  let (token, k) ← stepToken role
  let kind ← kindOf token
  if kind ≠ .adjudicator ∨ k = 1 then some (kind, k) else none

/-- `lens_agent_of`. -/
def lensAgentOf (role : String) : Option String :=
  (stepToken role).bind fun t => stripPrefix "lens:" t.1

/-! ## Ids -/

/-- Free of the separators an id is cut at. -/
structure Separated (s : String) : Prop where
  slash : '/' ∉ s.toList
  attempt : '#' ∉ s.toList
  retry : '~' ∉ s.toList

theorem Separated.append {a b : String} (ha : Separated a) (hb : Separated b) : Separated
    (a ++ b) := by
  have hmem : ∀ c, c ∉ a.toList → c ∉ b.toList → c ∉ (a ++ b).toList := by
    intro c hca hcb
    rw [String.toList_append, List.mem_append]
    rintro (h | h)
    · exact hca h
    · exact hcb h
  exact ⟨hmem _ ha.slash hb.slash, hmem _ ha.attempt hb.attempt, hmem _ ha.retry hb.retry⟩

theorem takeWhile_seat {l : List Char} (hattempt : '#' ∉ l) (hretry : '~' ∉ l) (rest : List Char) :
    (l ++ '#' :: rest).takeWhile (fun c => c ≠ '#' ∧ c ≠ '~') = l := by
  have hall : ∀ c ∈ l, decide (c ≠ '#' ∧ c ≠ '~') = true := by
    intro c hc
    refine decide_eq_true ⟨?_, ?_⟩
    · rintro rfl
      exact hattempt hc
    · rintro rfl
      exact hretry hc
  rw [List.takeWhile_append_of_pos hall]
  simp

section
variable {unit role : String} (hunit : Separated unit) (hrole : Separated role) (attempt : Nat)
  {retry : Nat}

theorem toList_spawnRetryId (unit role : String) (attempt retry : Nat) :
    (spawnRetryId unit role attempt retry).toList = unit.toList ++ '/' :: (role.toList ++
      '#' :: ((toString attempt).toList ++ (retryMark retry).toList)) := by
  rw [spawnRetryId_eq]
  simp

include hrole in
theorem spawnRole_spawnRetryId : spawnRole (spawnRetryId unit role attempt retry) = role := by
  have hcut : rsplitOnce '/' (spawnRetryId unit role attempt retry) =
      some (unit, role ++ ("#" ++ toString attempt ++ retryMark retry)) := by
    refine (rsplitOnce_eq_some_iff _ _ _ _).2 ⟨?_, ?_⟩
    · rw [spawnRetryId_eq]
      simp only [String.append_assoc]
      rfl
    · rw [String.toList_append, List.mem_append]
      rintro (h | h)
      · exact hrole.slash h
      · exact tail_not_slash attempt retry h
  have htail : (role ++ ("#" ++ toString attempt ++ retryMark retry)).toList =
      role.toList ++ '#' :: ((toString attempt).toList ++ (retryMark retry).toList) := by
    simp
  unfold spawnRole
  simp only [hcut, Option.map_some, Option.getD_some, htail,
    takeWhile_seat hrole.attempt hrole.retry, String.ofList_toList]

include hunit hrole in
theorem unitRoleOf_spawnRetryId :
    unitRoleOf (spawnRetryId unit role attempt retry) = unit ++ "/" ++ role := by
  have hlist : (spawnRetryId unit role attempt retry).toList = (unit ++ "/" ++ role).toList ++
      '#' :: ((toString attempt).toList ++ (retryMark retry).toList) := by
    rw [toList_spawnRetryId]
    simp
  have hfree : ∀ c, c ≠ '/' → c ∉ unit.toList → c ∉ role.toList →
      c ∉ (unit ++ "/" ++ role).toList := by
    intro c hslash hu hr
    simp only [String.toList_append, List.mem_append, not_or]
    exact ⟨⟨hu, by simpa using hslash⟩, hr⟩
  unfold unitRoleOf
  rw [hlist, takeWhile_seat (hfree _ (by decide) hunit.attempt hrole.attempt)
    (hfree _ (by decide) hunit.retry hrole.retry), String.ofList_toList]

end

/-! ## Review steps -/

/-- The token of a kind's first step. -/
def kindToken (kind : ReviewKind) (agent : String) : String :=
  match kind with
  | .lens => lensRole agent
  | .adversary => "adversary"
  | .adjudicator => "adjudicator"

theorem head?_toDigits (n : Nat) (hn : 0 < n) :
    ∃ c, (Nat.toDigits 10 n).head? = some c ∧ '1' ≤ c ∧ c ≤ '9' := by
  have hdigit : ∀ d < 10, 0 < d → '1' ≤ d.digitChar ∧ d.digitChar ≤ '9' := by decide
  induction n using Nat.strongRecOn with
  | ind n ih =>
    rw [Nat.toDigits_eq_if (by decide)]
    split
    · rename_i hlt
      exact ⟨_, rfl, hdigit n hlt hn⟩
    · obtain ⟨c, hc, hbounds⟩ := ih (n / 10) (by omega) (by omega)
      exact ⟨c, by rw [List.head?_append, hc]; rfl, hbounds⟩

variable {k : Nat} {token agent : String} {kind : ReviewKind}

theorem stepSuffix_toString (hk : 2 ≤ k) (hlt : k < 2 ^ 32) : stepSuffix (toString k) = some k := by
  obtain ⟨c, hc, hbounds⟩ := head?_toDigits k (by omega)
  have hhead : (toString k).toList.head? = some c := by
    rw [Nat.toString_eq_ofList_toDigits, String.toList_ofList, hc]
  unfold stepSuffix
  rw [hhead]
  dsimp only
  rw [if_pos hbounds, parseU32_digits hlt, Option.filter_some, if_pos (decide_eq_true hk)]

theorem toString_of_stepSuffix {suffix : String} (h : stepSuffix suffix = some k) :
    suffix = toString k ∧ 2 ≤ k := by
  unfold stepSuffix at h
  split at h
  case h_2 => cases h
  case h_1 c hc =>
    split at h
    case isFalse => cases h
    case isTrue hbounds =>
      obtain ⟨hparse, hk⟩ := Option.filter_eq_some_iff.1 h
      refine ⟨?_, of_decide_eq_true hk⟩
      unfold parseU32 at hparse
      have hplus : suffix.toList.head? ≠ some '+' := by
        rw [hc, ne_eq, Option.some.injEq]
        rintro rfl
        exact absurd hbounds.1 (by decide)
      rw [if_neg hplus] at hparse
      simp only [Option.ite_none_right_eq_some, Option.some.injEq] at hparse
      obtain ⟨⟨hne, hdigits, -⟩, hvalue⟩ := hparse
      obtain ⟨zeros, n, hn⟩ := digits_eq_zeros_append _ hne hdigits
      -- the first digit is not zero, so the numeral has no zeros before it
      have hzeros : zeros = 0 := by
        cases zeros with
        | zero => rfl
        | succ zeros =>
          rw [hn, List.replicate_succ] at hc
          cases hc
          exact absurd hbounds.1 (by decide)
      rw [hzeros, List.replicate_zero, List.nil_append] at hn
      have hsuffix : suffix = toString n := String.toList_inj.1 hn
      have hself : Nat.ofDigitChars 10 (toString n).toList 0 = n := by
        rw [Nat.toString_eq_ofList_toDigits, String.toList_ofList, Nat.ofDigitChars_ten_toDigits]
      rw [← hvalue, hn, hself, hsuffix]

theorem stepToken_bare {role : String} (h : '@' ∉ role.toList) :
    stepToken role = some (role, 1) := by
  unfold stepToken
  cases hcut : splitOnce '@' role with
  | none => rfl
  | some p =>
    obtain ⟨rfl, -⟩ := (splitOnce_eq_some_iff _ _ _ _).1 hcut
    exact absurd (by simp) h

theorem stepToken_stepped (h : '@' ∉ token.toList) (hk : 2 ≤ k) (hlt : k < 2 ^ 32) :
    stepToken (token ++ "@" ++ toString k) = some (token, k) := by
  have hcut : splitOnce '@' (token ++ "@" ++ toString k) = some (token, toString k) :=
    (splitOnce_eq_some_iff _ _ _ _).2 ⟨rfl, h⟩
  unfold stepToken
  rw [hcut]
  dsimp only
  rw [stepSuffix_toString hk hlt, Option.map_some]

/-- A role is its token, with the step after it from the second step on. -/
theorem role_of_stepToken {role : String} (h : stepToken role = some (token, k)) :
    k = 1 ∧ role = token ∨ 2 ≤ k ∧ role = token ++ "@" ++ toString k := by
  unfold stepToken at h
  split at h
  · cases h
    exact .inl ⟨rfl, rfl⟩
  · rename_i cut suffix hcut
    obtain ⟨k', hk', hsame⟩ := Option.map_eq_some_iff.1 h
    cases hsame
    obtain ⟨rfl, hk⟩ := toString_of_stepSuffix hk'
    exact .inr ⟨hk, ((splitOnce_eq_some_iff _ _ _ _).1 hcut).1⟩

theorem reviewStepRole_eq (kind : ReviewKind) (agent : String) (k : Nat) :
    reviewStepRole kind agent k =
      if 2 ≤ k ∧ kind ≠ .adjudicator then kindToken kind agent ++ "@" ++ toString k
      else kindToken kind agent := by
  cases kind <;> simp [reviewStepRole, kindToken]

theorem kindToken_at (h : '@' ∉ agent.toList) : '@' ∉ (kindToken kind agent).toList := by
  cases kind with
  | lens =>
    simp only [kindToken, lensRole, String.toList_append, List.mem_append, not_or]
    exact ⟨by simp, h⟩
  | adversary => simp [kindToken]
  | adjudicator => simp [kindToken]

theorem stepToken_reviewStepRole (kind : ReviewKind) (h : '@' ∉ agent.toList) (hk : 1 ≤ k)
    (hlt : k < 2 ^ 32) :
    stepToken (reviewStepRole kind agent k) =
      some (kindToken kind agent, if kind = .adjudicator then 1 else k) := by
  rw [reviewStepRole_eq]
  split
  · rename_i hstep
    rw [stepToken_stepped (kindToken_at h) hstep.1 hlt, if_neg hstep.2]
  · rename_i hbare
    rw [stepToken_bare (kindToken_at h)]
    split
    · rfl
    · rename_i hkind
      have hone : k = 1 := by
        by_contra hne
        exact hbare ⟨by omega, hkind⟩
      rw [hone]

theorem stripPrefix_lens (agent : String) : stripPrefix "lens:" (lensRole agent) = some agent :=
  stripPrefix_append "lens:" agent

theorem kindOf_kindToken (kind : ReviewKind) (agent : String) :
    kindOf (kindToken kind agent) = some kind := by
  cases kind with
  | lens =>
    have hopen : ∀ s : String, s.toList.head? = some 'a' → lensRole agent ≠ s := by
      rintro s hs rfl
      simp [lensRole] at hs
    unfold kindOf kindToken
    rw [if_neg (hopen _ (by simp)), if_neg (hopen _ (by simp)), stripPrefix_lens]
    rfl
  | adversary => rfl
  | adjudicator => rfl

theorem kindToken_of_kindOf (h : kindOf token = some kind) :
    ∃ agent, token = kindToken kind agent := by
  unfold kindOf at h
  split at h
  · rename_i hadversary
    cases h
    exact ⟨"", hadversary⟩
  · split at h
    · rename_i hadjudicator
      cases h
      exact ⟨"", hadjudicator⟩
    · split at h
      · rename_i hlens
        cases h
        obtain ⟨agent, hagent⟩ := Option.isSome_iff_exists.1 hlens
        exact ⟨agent, stripPrefix_eq_some hagent⟩
      · cases h

/-! ## The grammar -/

theorem reviewStepOf_reviewStepRole (kind : ReviewKind) (h : '@' ∉ agent.toList) (hk : 1 ≤ k)
    (hlt : k < 2 ^ 32) :
    reviewStepOf (reviewStepRole kind agent k) =
      some (kind, if kind = .adjudicator then 1 else k) := by
  unfold reviewStepOf
  rw [stepToken_reviewStepRole kind h hk hlt]
  simp only [Option.bind_eq_bind, Option.bind_some, kindOf_kindToken]
  refine if_pos ?_
  by_cases hkind : kind = .adjudicator
  · exact .inr (if_pos hkind)
  · exact .inl hkind

theorem lensAgentOf_reviewStepRole (kind : ReviewKind) (h : '@' ∉ agent.toList) (hk : 1 ≤ k)
    (hlt : k < 2 ^ 32) :
    lensAgentOf (reviewStepRole kind agent k) = if kind = .lens then some agent else none := by
  unfold lensAgentOf
  rw [stepToken_reviewStepRole kind h hk hlt, Option.bind_some]
  cases kind with
  | lens => exact stripPrefix_lens agent
  | adversary =>
    show stripPrefix "lens:" "adversary" = none
    decide
  | adjudicator =>
    show stripPrefix "lens:" "adjudicator" = none
    decide

theorem reviewStepRole_of_reviewStepOf {role : String} (h : reviewStepOf role = some (kind, k)) :
    ∃ agent, role = reviewStepRole kind agent k := by
  unfold reviewStepOf at h
  simp only [Option.bind_eq_bind, Option.bind_eq_some_iff, Prod.exists,
    Option.ite_none_right_eq_some, Option.some.injEq, Prod.mk.injEq] at h
  obtain ⟨token, k, hrole, kind, hkind, honce, rfl, rfl⟩ := h
  obtain ⟨agent, rfl⟩ := kindToken_of_kindOf hkind
  refine ⟨agent, ?_⟩
  rw [reviewStepRole_eq]
  rcases role_of_stepToken hrole with ⟨rfl, rfl⟩ | ⟨hk, rfl⟩
  · rw [if_neg (by omega)]
  · rw [if_pos ⟨hk, honce.resolve_right (by omega)⟩]

theorem separated_reviewStepRole (kind : ReviewKind) (h : Separated agent) (k : Nat) :
    Separated (reviewStepRole kind agent k) := by
  have htoken : Separated (kindToken kind agent) := by
    cases kind with
    | lens => exact Separated.append ⟨by simp, by simp, by simp⟩ h
    | adversary => exact ⟨by simp [kindToken], by simp [kindToken], by simp [kindToken]⟩
    | adjudicator => exact ⟨by simp [kindToken], by simp [kindToken], by simp [kindToken]⟩
  rw [reviewStepRole_eq]
  split
  · refine (htoken.append ⟨by simp, by simp, by simp⟩).append ?_
    exact ⟨not_mem_digits (by decide) k, not_mem_digits (by decide) k, not_mem_digits (by decide) k⟩
  · exact htoken

/-- The grammar of spawn ids.  Over units and roles free of its separators every reader of an id
answers what it was minted from, so different seats, attempts and reruns have different ids; a
review step is read back off its role, with the agent of a lens; and no other token is read as a
step. -/
theorem spawnId_grammar :
    (∀ unit role : String, Separated unit → Separated role → ∀ attempt < 2 ^ 32, ∀ retry < 2 ^ 32,
      unitOf (spawnRetryId unit role attempt retry) = some unit ∧
        spawnRole (spawnRetryId unit role attempt retry) = role ∧
        attemptOf (spawnRetryId unit role attempt retry).toList = attempt ∧
        retryOf (spawnRetryId unit role attempt retry) = retry ∧
        unitRoleOf (spawnRetryId unit role attempt retry) = unit ++ "/" ++ role) ∧
    (∀ unit role unit' role' : String, Separated unit → Separated role → Separated unit' →
      Separated role' → ∀ attempt < 2 ^ 32, ∀ retry < 2 ^ 32, ∀ attempt' < 2 ^ 32,
      ∀ retry' < 2 ^ 32,
      spawnRetryId unit role attempt retry = spawnRetryId unit' role' attempt' retry' →
        unit = unit' ∧ role = role' ∧ attempt = attempt' ∧ retry = retry') ∧
    (∀ (unit : String) (kind : ReviewKind) (agent : String) (k : Nat), Separated unit →
      Separated agent → '@' ∉ agent.toList → 1 ≤ k → k < 2 ^ 32 →
      ∀ attempt < 2 ^ 32, ∀ retry < 2 ^ 32,
      reviewStepOf (spawnRole (spawnRetryId unit (reviewStepRole kind agent k) attempt retry)) =
          some (kind, if kind = .adjudicator then 1 else k) ∧
        lensAgentOf (spawnRole (spawnRetryId unit (reviewStepRole kind agent k) attempt retry)) =
          if kind = .lens then some agent else none) ∧
    ∀ (role : String) (kind : ReviewKind) (k : Nat), reviewStepOf role = some (kind, k) →
      ∃ agent, role = reviewStepRole kind agent k := by
  have hread : ∀ unit role : String, Separated unit → Separated role → ∀ attempt < 2 ^ 32,
      ∀ retry < 2 ^ 32, unitOf (spawnRetryId unit role attempt retry) = some unit ∧
        spawnRole (spawnRetryId unit role attempt retry) = role ∧
        attemptOf (spawnRetryId unit role attempt retry).toList = attempt ∧
        retryOf (spawnRetryId unit role attempt retry) = retry := by
    intro unit role _ hrole attempt hattempt retry hretry
    refine ⟨(unitOf_spawnRetryId unit role attempt retry).2 hrole.slash,
      spawnRole_spawnRetryId hrole attempt, ?_, ?_⟩
    · have hlist : (spawnRetryId unit role attempt retry).toList =
          (unit ++ "/" ++ role).toList ++
            '#' :: ((toString attempt).toList ++ (retryMark retry).toList) := by
        rw [toList_spawnRetryId]
        simp
      rw [hlist, attemptOf_tail _ hattempt]
    · rw [spawnRetryId_eq, retryOf_tail _ _ hretry]
  refine ⟨?_, ?_, ?_, fun role kind k => reviewStepRole_of_reviewStepOf⟩
  · intro unit role hunit hrole attempt hattempt retry hretry
    obtain ⟨h₁, h₂, h₃, h₄⟩ := hread unit role hunit hrole attempt hattempt retry hretry
    exact ⟨h₁, h₂, h₃, h₄, unitRoleOf_spawnRetryId hunit hrole attempt⟩
  · intro unit role unit' role' hunit hrole hunit' hrole' attempt hattempt retry hretry attempt'
      hattempt' retry' hretry' hsame
    obtain ⟨h₁, h₂, h₃, h₄⟩ := hread unit role hunit hrole attempt hattempt retry hretry
    obtain ⟨h₁', h₂', h₃', h₄'⟩ := hread unit' role' hunit' hrole' attempt' hattempt' retry' hretry'
    rw [hsame] at h₁ h₂ h₃ h₄
    exact ⟨Option.some.inj (h₁.symm.trans h₁'), h₂.symm.trans h₂', h₃.symm.trans h₃',
      h₄.symm.trans h₄'⟩
  · intro unit kind agent k _ hagent hat hk hlt attempt _ retry _
    rw [spawnRole_spawnRetryId (separated_reviewStepRole kind hagent k) attempt]
    exact ⟨reviewStepOf_reviewStepRole kind hat hk hlt, lensAgentOf_reviewStepRole kind hat hk hlt⟩

/-- A lens's second step, rerun once on the first attempt. -/
example : spawnRetryId "u1" (reviewStepRole .lens "sdet" 2) 0 1 = "u1/lens:sdet@2#0~retry1" := by
  decide

end Rigger.Conductor.Attribution
