import Rigger.Domain.Ledger
import Rigger.Domain.Review
import Rigger.Domain.Spawn

/-!
# The two readers of a verdict (`rigger-domain/src/review.rs`, `rigger-domain/src/spawn.rs`)

The integration gate reads an adjudicator's output through `lastVerdict`, the last line whose
verdict is a text, and everything that reads a recorded disposition through `Adjudication::parse`,
the last line with any field of one.  `approvals_agree_iff` says on which outputs the two read one
verdict.

`line` parses one line of an output, trimmed.
-/

namespace Rigger.Review

open Lib
open Conductor (trim)
open Ledger (RequiredItem)

/-- `Adjudication`, with every field. -/
structure Adjudicated where
  upheld : List String
  discarded : List String
  cause : Option String
  verdict : Option String
  required : List RequiredItem
deriving DecidableEq

def verdictText (v : Json) : Option String := (v.get "verdict").bind Json.asStr

/-- What `Adjudication::parse` reads off the line it keeps. -/
def Adjudicated.of (v : Json) : Adjudicated where
  upheld := Adjudication.strArray "upheld" v
  discarded := Adjudication.strArray "discarded" v
  cause := ((v.get "cause").bind Json.asStr).filter (· ≠ "")
  verdict := verdictText v
  required := ((v.get "required").bind (Json.asList RequiredItem.decode)).getD []

def carriesDisposition (v : Json) : Bool :=
  ["verdict", "upheld", "discarded"].any fun key => (v.get key).isSome

section
variable (line : String → Option Json)

/-- `Adjudication::parse`. -/
def Adjudicated.parse (output : String) : Option Adjudicated :=
  (lines output).reverse.findSome? fun text => do
    let v ← line (trim text)
    if carriesDisposition v then some (.of v) else none

/-- `eq_ignore_ascii_case(VERDICT_APPROVE)`. -/
def isApprove (verdict : String) : Bool :=
  verdict.toList.map Char.toLower = verdictApprove.toList

/-! ## Lines -/

/-- The verdict text a line carries. -/
def verdictOn (text : String) : Option String := (line (trim text)).bind verdictText

/-- A line carries a field of a disposition. -/
def CarriesOn (text : String) : Prop := ∃ v, line (trim text) = some v ∧ carriesDisposition v = true

/-- The output's last verdict text approves, and a line after it carries a field of a disposition:
its `upheld` or `discarded` ids, or a verdict that is no text. -/
def Buried (output : String) : Prop :=
  ∃ before approval after word, lines output = before ++ approval :: after ∧
    verdictOn line approval = some word ∧ isApprove word = true ∧
    (∀ text ∈ after, verdictOn line text = none) ∧ ∃ text ∈ after, CarriesOn line text

variable {line} {text output : String}

theorem CarriesOn.of_verdictOn {word : String} (h : verdictOn line text = some word) :
    CarriesOn line text := by
  obtain ⟨v, hv, hword⟩ := Option.bind_eq_some_iff.1 h
  obtain ⟨member, hmember, -⟩ := Option.bind_eq_some_iff.1 hword
  refine ⟨v, hv, List.any_eq_true.2 ⟨"verdict", by simp, ?_⟩⟩
  rw [hmember]
  rfl

theorem lastVerdict_eq (output : String) :
    lastVerdict line output = (lines output).reverse.findSome? (verdictOn line) := by
  unfold lastVerdict
  refine congrArg (fun f => (lines output).reverse.findSome? f) (funext fun text => ?_)
  unfold verdictOn verdictText
  cases line (trim text) <;> rfl

theorem mem_of_first {α : Type} {P : α → Prop} {l₁ l₂ a b : List α} {t x : α}
    (h : l₁ ++ t :: l₂ = a ++ b) (hfirst : ∀ y ∈ l₁, ¬P y) (hx : x ∈ a) (hP : P x) : t ∈ a := by
  rcases List.append_eq_append_iff.1 h with ⟨m, rfl, hm⟩ | ⟨m, rfl, -⟩
  · have hxm : x ∈ m := (List.mem_append.1 hx).resolve_left fun hl => hfirst x hl hP
    cases m with
    | nil => cases hxm
    | cons y m =>
      rw [List.cons_append, List.cons.injEq] at hm
      rw [hm.1]
      exact List.mem_append_cons_self
  · exact absurd hP (hfirst x (List.mem_append_left m hx))

/-! ## Agreement -/

/-- A line read first from the end, in the order of the output. -/
theorem findSome?_reverse_eq_some_iff {α β : Type} {f : α → Option β} {l : List α} {b : β} :
    l.reverse.findSome? f = some b ↔ ∃ before a after, l = before ++ a :: after ∧ f a = some b ∧
      ∀ x ∈ after, f x = none := by
  rw [List.findSome?_eq_some_iff]
  constructor
  · rintro ⟨l₁, a, l₂, hl, ha, hnone⟩
    refine ⟨l₂.reverse, a, l₁.reverse, ?_, ha, fun x hx => hnone x (List.mem_reverse.1 hx)⟩
    rw [← List.reverse_inj, hl]
    simp
  · rintro ⟨before, a, after, rfl, ha, hnone⟩
    exact ⟨after.reverse, a,
      before.reverse, by simp, ha, fun x hx => hnone x (List.mem_reverse.1 hx)⟩

theorem parsed_eq_none_iff :
    (do let v ← line (trim text); if carriesDisposition v then some (Adjudicated.of v) else none) =
      (none : Option Adjudicated) ↔ ¬CarriesOn line text := by
  unfold CarriesOn
  cases line (trim text) with
  | none => simp
  | some v => simp

/-- What the parse keeps is its line's, and no later line carries a field. -/
theorem parse_eq_some {a : Adjudicated} (h : Adjudicated.parse line output = some a) :
    ∃ before text after, lines output = before ++ text :: after ∧ CarriesOn line text ∧
      a.verdict = verdictOn line text ∧ ∀ later ∈ after, ¬CarriesOn line later := by
  obtain ⟨before, text, after, hlines, hread, hafter⟩ := findSome?_reverse_eq_some_iff.1 h
  obtain ⟨v, hv, hkept⟩ := Option.bind_eq_some_iff.1 hread
  obtain ⟨hcarries, hof⟩ := Option.ite_none_right_eq_some.1 hkept
  cases hof
  refine ⟨before, text, after, hlines, ⟨v, hv, hcarries⟩, ?_, fun later hlater =>
    parsed_eq_none_iff.1 (hafter later hlater)⟩
  rw [verdictOn, hv]
  rfl

/-- The last line that carries a field is after every buried approval, so it carries no verdict. -/
theorem Buried.verdictOn_eq_none (h : Buried line output) {before after : List String}
    (hlines : lines output = before ++ text :: after)
    (hafter : ∀ later ∈ after, ¬CarriesOn line later) : verdictOn line text = none := by
  obtain ⟨before', approval, after', word, hlines', -, -, hsilent, found, hfound, hcarries⟩ := h
  have hsame : after.reverse ++ text :: before.reverse =
      after'.reverse ++ approval :: before'.reverse := by
    have := congrArg List.reverse (hlines.symm.trans hlines')
    simpa using this
  have hmem := mem_of_first hsame (fun y hy => hafter y (List.mem_reverse.1 hy))
    (List.mem_reverse.2 hfound) hcarries
  exact hsilent text (List.mem_reverse.1 hmem)

theorem Buried.approves (h : Buried line output) : verdictApproves line output = true := by
  obtain ⟨before, approval, after, word, hlines, hword, happrove, hsilent, -⟩ := h
  have hlast : lastVerdict line output = some word := by
    rw [lastVerdict_eq]
    exact findSome?_reverse_eq_some_iff.2 ⟨before, approval, after, hlines, hword, hsilent⟩
  unfold verdictApproves
  rw [hlast]
  exact happrove

/-- The gate and the parse read one verdict off an output just where no approval is buried. -/
theorem approvals_agree_iff (line : String → Option Json) (output : String) :
    (verdictApproves line output = true ↔
      ∃ a word, Adjudicated.parse line output = some a ∧ a.verdict = some word ∧
        isApprove word = true) ↔ ¬Buried line output := by
  cases hparse : Adjudicated.parse line output with
  | none =>
    -- no line carries a field, so none carries a verdict
    have hnone : ∀ text ∈ lines output, ¬CarriesOn line text := fun text htext =>
      parsed_eq_none_iff.1 (List.findSome?_eq_none_iff.1 hparse text (List.mem_reverse.2 htext))
    have hlast : lastVerdict line output = none := by
      rw [lastVerdict_eq, List.findSome?_eq_none_iff]
      intro text htext
      cases hword : verdictOn line text with
      | none => rfl
      | some word => exact absurd (.of_verdictOn hword) (hnone text (List.mem_reverse.1 htext))
    have hburied : ¬Buried line output := by
      rintro ⟨before, approval, after, word, hlines, hword, -⟩
      exact hnone approval (by rw [hlines]; simp) (.of_verdictOn hword)
    simp [verdictApproves, hlast, hburied]
  | some a =>
    obtain ⟨before, text, after, hlines, hcarries, hverdict, hafter⟩ := parse_eq_some hparse
    cases hword : verdictOn line text with
    | some word =>
      have hlast : lastVerdict line output = some word := by
        rw [lastVerdict_eq]
        refine findSome?_reverse_eq_some_iff.2 ⟨before, text, after, hlines, hword, ?_⟩
        intro later hlater
        cases hlater' : verdictOn line later with
        | none => rfl
        | some other => exact absurd (.of_verdictOn hlater') (hafter later hlater)
      have hburied : ¬Buried line output := by
        intro h
        have := h.verdictOn_eq_none hlines hafter
        rw [hword] at this
        cases this
      have hgate : verdictApproves line output = isApprove word := by
        rw [verdictApproves, hlast]
        rfl
      rw [hword] at hverdict
      simp [hgate, hverdict, hburied]
    | none =>
      have hgate : verdictApproves line output = true ↔ Buried line output := by
        refine ⟨fun happroves => ?_, Buried.approves⟩
        obtain ⟨word, hlast, happrove⟩ := (Option.any_eq_true _ _).1 happroves
        rw [lastVerdict_eq] at hlast
        obtain ⟨before', approval, after', hlines', hword', hsilent⟩ :=
          findSome?_reverse_eq_some_iff.1 hlast
        have hsame : after.reverse ++ text :: before.reverse =
            (after'.reverse ++ [approval]) ++ before'.reverse := by
          have := congrArg List.reverse (hlines.symm.trans hlines')
          simpa using this
        have hmem := mem_of_first hsame (fun y hy => hafter y (List.mem_reverse.1 hy))
          (List.mem_append_right _ (List.mem_singleton_self approval)) (.of_verdictOn hword')
        have hbelow : text ∈ after' := by
          rcases List.mem_append.1 hmem with hmem | hmem
          · exact List.mem_reverse.1 hmem
          · rw [List.mem_singleton.1 hmem, hword'] at hword
            cases hword
        exact ⟨before', approval, after', word, hlines', hword', happrove, hsilent, text, hbelow,
          hcarries⟩
      rw [hword] at hverdict
      simp [hgate, hverdict]

end

/-- What `serde_json` reads of the two lines below. -/
def approvedThenUpheld (text : String) : Option Json :=
  if text = "\x7b\"verdict\":\"approve\"\x7d" then some (.obj [("verdict", .str "approve")])
  else if text = "\x7b\"upheld\":[\"f1\"]\x7d" then some (.obj [("upheld", .arr [.str "f1"])])
  else none

/-- An approval with the ids it upheld on a line of their own: the gate approves, and the parsed
disposition has no verdict. -/
theorem approvals_disagree :
    ¬(verdictApproves approvedThenUpheld
        "\x7b\"verdict\":\"approve\"\x7d\n\x7b\"upheld\":[\"f1\"]\x7d" = true ↔
      ∃ a word, Adjudicated.parse approvedThenUpheld
          "\x7b\"verdict\":\"approve\"\x7d\n\x7b\"upheld\":[\"f1\"]\x7d" = some a ∧
        a.verdict = some word ∧ isApprove word = true) := by
  have hgate : verdictApproves approvedThenUpheld
      "\x7b\"verdict\":\"approve\"\x7d\n\x7b\"upheld\":[\"f1\"]\x7d" = true := by decide
  have hparse : Adjudicated.parse approvedThenUpheld
      "\x7b\"verdict\":\"approve\"\x7d\n\x7b\"upheld\":[\"f1\"]\x7d" =
        some ⟨["f1"], [], none, none, []⟩ := by decide
  intro h
  obtain ⟨a, word, ha, hword, -⟩ := h.1 hgate
  rw [hparse] at ha
  cases ha
  cases hword

end Rigger.Review
