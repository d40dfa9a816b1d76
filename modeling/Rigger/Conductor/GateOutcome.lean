import Mathlib.Data.Prod.Lex
import Rigger.Conductor.Attribution
import Rigger.Conductor.Deferred

/-!
# The recorded gate outcome (`rigger-conductor/src/conductor.rs`)

A gate run writes a verdict for each gate under `{unit}/gate:{gate}#{attempt}~retry{n}`.
`recordedGateOutcome` files a unit's verdicts in a map of maps, by run and then by key, and answers
whether every value of the greatest run's map is a pass.  `Concluded last answer` says what that is
for: the conjunction, over what the greatest run gave a verdict on, of its last one.
-/

namespace Rigger.Conductor.GateOutcome

open Lib Attribution

/-- A name as a unit's id and a gate's are written. -/
def Plain (name : String) : Prop :=
  '/' ∉ name.toList ∧ '#' ∉ name.toList ∧ '~' ∉ name.toList

instance (name : String) : Decidable (Plain name) := inferInstanceAs (Decidable (_ ∧ _ ∧ _))

/-! ## What the outcome is for -/

theorem runCmp_isLE (a b : Nat × Nat) : (runCmp a b).isLE = true ↔ toLex a ≤ toLex b := by
  rw [runCmp_eq, Ordering.isLE_then_iff_or, Nat.compare_eq_lt, Nat.compare_eq_eq,
    Nat.isLE_compare, Prod.Lex.toLex_le_toLex]

/-- `last run label` is the last verdict a run recorded on what the label names.  The answer is
absent where there is none, and else the conjunction of the last ones of the greatest run. -/
structure Concluded (last : Nat × Nat → String → Option Bool) (answer : Option Bool) : Prop where
  absent : answer = none ↔ ∀ run label, last run label = none
  recorded : ∀ pass, answer = some pass → ∃ run, (∃ label, last run label ≠ none) ∧
    (∀ run' label, last run' label ≠ none → toLex run' ≤ toLex run) ∧
    (pass = true ↔ ∀ label, last run label ≠ some false)

/-- The last verdict the log holds under a key. -/
def lastVerdict (events : List Event) (key : String) : Option Bool :=
  (Deferred.cachedVerdict events key).map GateVerdict.pass

/-- The key reads as one of the unit's gate runs. -/
def RunKey (unit : String) (run : Nat × Nat) (key : String) : Prop :=
  unitOfGateKey key = some unit ∧ gateKeyAttempt key = some run.1 ∧ retryOf key = run.2

instance (unit : String) (run : Nat × Nat) (key : String) : Decidable (RunKey unit run key) :=
  inferInstanceAs (Decidable (_ ∧ _ ∧ _))

def keyVerdict (events : List Event) (unit : String) (run : Nat × Nat)
    (key : String) : Option Bool :=
  if RunKey unit run key then lastVerdict events key else none

/-- The last verdict of a gate in one of the unit's runs. -/
def gateVerdict (events : List Event) (unit : String) (run : Nat × Nat) (gate : String) :
    Option Bool :=
  if Plain gate ∧ run.1 < 2 ^ 32 ∧ run.2 < 2 ^ 32 then
    lastVerdict events (gateKey .verdict unit run.1 run.2 gate)
  else none

/-- A key of a verdict of a unit's gate or of a phase's. -/
inductive Minted : String → Prop where
  | unit (kind : GateKey) {unit gate : String} (hunit : Plain unit) (hgate : Plain gate)
      {attempt retry : Nat} (hattempt : attempt < 2 ^ 32) (hretry : retry < 2 ^ 32) :
      Minted (gateKey kind unit attempt retry gate)
  | deferred {gate : String} (hgate : Plain gate) : Minted (deferredGateVerdictKey gate)

/-- Every keyed verdict of the log is under a minted key; an older one has no key. -/
def MintedLog (events : List Event) : Prop :=
  ∀ e ∈ events, ∀ x, gateVerdictOf e = some x → Minted x.1

/-! ## Keys -/

theorem gateKey_split (kind : GateKey) (unit : String) (attempt retry : Nat) (gate : String) :
    (gateKey kind unit attempt retry gate).toList =
      unit.toList ++ '/' :: (kind.marker.toList ++ ':' :: (gate.toList ++ '#' ::
        ((toString attempt).toList ++ (retryMark retry).toList))) := by
  rw [gateKey, withRetry_eq]
  simp

theorem not_mem_marker (kind : GateKey) : ':' ∉ kind.marker.toList := by
  cases kind <;> simp [GateKey.marker]

variable {kind : GateKey} {retry attempt : Nat} {unit gate : String}
  {kind' : GateKey} {retry' attempt' : Nat} {run : Nat × Nat} {key : String} {events : List Event}

theorem marker_inj (h : kind.marker = kind'.marker) : kind = kind' := by
  cases kind <;> cases kind' <;> first | rfl | exact absurd h (by decide)

theorem retryMark_inj (h : retryMark retry = retryMark retry') : retry = retry' := by
  have hmarked : ∀ n : Nat, "~retry" ++ toString n ≠ "" := fun n heq => by
    have hlist := congrArg String.toList heq
    simp at hlist
  unfold retryMark at h
  split at h <;> split at h
  · omega
  · exact absurd h.symm (hmarked _)
  · exact absurd h (hmarked _)
  · exact toString_nat_inj ((String.append_right_inj _).1 h)

theorem tail_inj (h : (toString attempt).toList ++ (retryMark retry).toList =
      (toString attempt').toList ++ (retryMark retry').toList) :
    attempt = attempt' ∧ retry = retry' := by
  have hsame : (toString attempt).toList = (toString attempt').toList := by
    rw [← takeWhile_tail attempt retry, h, takeWhile_tail]
  rw [hsame] at h
  exact ⟨toString_nat_inj (String.toList_inj.1 hsame),
    retryMark_inj (String.toList_inj.1 (List.append_cancel_left h))⟩

/-- Cut at the slash, the colon and the `#`, which no part before them holds. -/
theorem gateKey_inj {unit' gate' : String} (hunit : Plain unit) (hunit' : Plain unit')
    (hgate : Plain gate) (hgate' : Plain gate')
    (h : gateKey kind unit attempt retry gate = gateKey kind' unit' attempt' retry' gate') :
    kind = kind' ∧ unit = unit' ∧ attempt = attempt' ∧ retry = retry' ∧ gate = gate' := by
  have hlist := congrArg String.toList h
  rw [gateKey_split, gateKey_split] at hlist
  obtain ⟨hu, hlist⟩ := append_cons_inj hunit.1 hunit'.1 hlist
  obtain ⟨hk, hlist⟩ := append_cons_inj (not_mem_marker kind) (not_mem_marker kind') hlist
  obtain ⟨hg, hlist⟩ := append_cons_inj hgate.2.1 hgate'.2.1 hlist
  obtain ⟨ha, hr⟩ := tail_inj hlist
  exact ⟨marker_inj (String.toList_inj.1 hk), String.toList_inj.1 hu, ha, hr,
    String.toList_inj.1 hg⟩

theorem Plain.ungated (h : Plain unit) : Ungated unit := fun hin =>
  h.1 (hin.subset (by simp [gateInfix]))

theorem runKey_gateKey (hunit : Plain unit) (gate : String) (hattempt : attempt < 2 ^ 32)
    (hretry : retry < 2 ^ 32) :
    RunKey unit (attempt, retry) (gateKey .verdict unit attempt retry gate) :=
  ⟨gateKey_eq .. ▸ (unitOfGateKey_eq_iff ..).2 hunit.ungated,
    gateKeyAttempt_gateKey hunit.ungated gate hattempt retry,
    retryOf_gateKey unit attempt hretry gate⟩

theorem unitOfGateKey_other (hkind : kind.marker ≠ GateKey.verdict.marker) (hunit : Plain unit)
    (hgate : Plain gate) (attempt retry : Nat) :
    unitOfGateKey (gateKey kind unit attempt retry gate) = none := by
  cases hcut : splitAround gateInfix.toList (gateKey kind unit attempt retry gate).toList with
  | none => rw [unitOfGateKey, hcut, Option.map_none]
  | some p =>
    exfalso
    obtain ⟨a, b⟩ := p
    have heq := (splitAround_eq_some hcut).1
    have htail : '/' ∉ kind.marker.toList ++ ':' :: (gate.toList ++ '#' ::
        ((toString attempt).toList ++ (retryMark retry).toList)) := by
      have hmarker : '/' ∉ kind.marker.toList := by cases kind <;> simp [GateKey.marker]
      have hdigits : '/' ∉ (toString attempt).toList := not_mem_digits (by decide) attempt
      have hmark : '/' ∉ (retryMark retry).toList := not_mem_retryMark (by decide) (by simp) retry
      simp only [List.mem_append, List.mem_cons, not_or]
      exact ⟨hmarker, by decide, hgate.1, by decide, hdigits, hmark⟩
    have hslash : gateInfix.toList = '/' :: (GateKey.verdict.marker.toList ++ [':']) := by
      simp [gateInfix, GateKey.marker]
    rw [gateKey_split, hslash] at heq
    simp only [List.cons_append, List.append_assoc, List.nil_append] at heq
    -- The slash of the infix is the only one.
    have ha : '/' ∉ a := fun hmem => by
      have hcount := congrArg (List.count '/') heq
      have hone := List.one_le_count_iff.2 hmem
      simp only [List.count_append, List.count_cons_self, List.count_eq_zero.2 hunit.1,
        List.count_eq_zero.2 htail] at hcount
      omega
    obtain ⟨-, heq⟩ := append_cons_inj hunit.1 ha heq
    obtain ⟨hmarker, -⟩ := append_cons_inj (not_mem_marker kind) (not_mem_marker .verdict) heq
    exact hkind (String.toList_inj.1 hmarker)

theorem gateKeyAttempt_deferred (hgate : Plain gate) :
    gateKeyAttempt (deferredGateVerdictKey gate) = none := by
  have hhead : deferredGateVerdictKey gate = "deferred" ++ gateInfix ++ gate := by
    have h : "deferred/gate:" = "deferred" ++ gateInfix := rfl
    rw [deferredGateVerdictKey, h]
  have hplain : Ungated "deferred" := fun hin => by
    have hslash : '/' ∈ gateInfix.toList := by simp [gateInfix]
    exact absurd (hin.subset hslash) (by simp)
  rw [hhead, gateKeyAttempt, splitAround_gate hplain, Option.bind_some, if_neg hgate.2.1]

theorem Minted.of_runKey (h : Minted key) (hrun : RunKey unit run key) :
    ∃ gate, Plain gate ∧ run.1 < 2 ^ 32 ∧ run.2 < 2 ^ 32 ∧
      key = gateKey .verdict unit run.1 run.2 gate := by
  obtain ⟨hunitOf, hattemptOf, hretryOf⟩ := hrun
  cases h with
  | @unit kind u gate hunit hgate attempt retry hattempt hretry =>
    by_cases hkind : kind.marker = GateKey.verdict.marker
    · cases marker_inj hkind
      obtain ⟨hu, ha, hr⟩ := runKey_gateKey hunit gate hattempt hretry
      cases hu.symm.trans hunitOf
      cases ha.symm.trans hattemptOf
      cases hr.symm.trans hretryOf
      exact ⟨gate, hgate, hattempt, hretry, rfl⟩
    · rw [unitOfGateKey_other hkind hunit hgate] at hunitOf
      cases hunitOf
  | deferred hgate =>
    rw [gateKeyAttempt_deferred hgate] at hattemptOf
    cases hattemptOf

/-! ## The conjunction -/

section
variable {last last' : Nat × Nat → String → Option Bool} {answer answer' : Option Bool}

/-- The answer is the same where other labels name what the verdicts are on. -/
theorem Concluded.relabel (h : Concluded last answer)
    (hto : ∀ run label pass, last run label = some pass → ∃ label', last' run label' = some pass)
    (hof : ∀ run label pass, last' run label = some pass → ∃ label', last run label' = some pass) :
    Concluded last' answer where
  absent := by
    rw [h.absent]
    constructor
    · intro hnone run label
      refine Option.eq_none_iff_forall_ne_some.2 fun pass hpass => ?_
      obtain ⟨label', hlast⟩ := hof run label pass hpass
      rw [hnone] at hlast
      cases hlast
    · intro hnone run label
      refine Option.eq_none_iff_forall_ne_some.2 fun pass hpass => ?_
      obtain ⟨label', hlast⟩ := hto run label pass hpass
      rw [hnone] at hlast
      cases hlast
  recorded pass hpass := by
    obtain ⟨run, ⟨label, hlabel⟩, hgreatest, hall⟩ := h.recorded pass hpass
    refine ⟨run, ?_, fun run' label' hlabel' => ?_, hall.trans ⟨fun h label hfalse => ?_,
      fun h label hfalse => ?_⟩⟩
    · obtain ⟨b, hb⟩ := Option.ne_none_iff_exists'.1 hlabel
      obtain ⟨label', hlabel'⟩ := hto run label b hb
      exact ⟨label', by simp [hlabel']⟩
    · obtain ⟨b, hb⟩ := Option.ne_none_iff_exists'.1 hlabel'
      obtain ⟨label, hlast⟩ := hof run' label' b hb
      exact hgreatest run' label (by simp [hlast])
    · obtain ⟨label', hlast⟩ := hof run label false hfalse
      exact h label' hlast
    · obtain ⟨label', hlast⟩ := hto run label false hfalse
      exact h label' hlast

end

/-- The last value written under a label of a run. -/
def lastOf (rows : List ((Nat × Nat) × String × Bool)) (run : Nat × Nat) (label : String) :
    Option Bool :=
  latest (fun w => if w.1 = run ∧ w.2.1 = label then some w.2.2 else none) rows

theorem lastOf_eq_none_iff {rows : List ((Nat × Nat) × String × Bool)} {label : String} :
    lastOf rows run label = none ↔ ∀ w ∈ rows, w.1 = run → w.2.1 ≠ label := by
  rw [lastOf, latest_eq_none_iff]
  simp

theorem lastOf_eq_getElem? (rows : List ((Nat × Nat) × String × Bool)) (run : Nat × Nat)
    (label : String) : lastOf rows run label = (collect (ofGroup run rows))[label]? := by
  rw [getElem?_collect, ofGroup, latest_map, latest_filter, lastOf]
  refine latest_congr fun w _ => ?_
  by_cases hrun : w.1 = run
  · simp [hrun]
  · simp [hrun]

theorem concluded_grouped (rows : List ((Nat × Nat) × String × Bool)) :
    Concluded (lastOf rows)
      ((greatest (grouped runCmp rows)).map fun latest => latest.toList.all Prod.snd) where
  absent := by
    rw [Option.map_eq_none_iff, greatest_eq_none_iff, grouped_eq_empty_iff]
    constructor
    · rintro rfl run label
      rfl
    · intro h
      refine List.eq_nil_iff_forall_not_mem.2 fun w hw => ?_
      exact lastOf_eq_none_iff.1 (h w.1 w.2.1) w hw rfl rfl
  recorded pass hpass := by
    obtain ⟨latest, hlatest, hall⟩ := Option.map_eq_some_iff.1 hpass
    obtain ⟨run, hrun, hgreatest⟩ := (greatest_eq_some_iff _ _).1 hlatest
    rw [getElem?_grouped] at hrun
    split at hrun
    · cases hrun
    · next hne =>
      cases hrun
      refine ⟨run, ?_, fun run' label hlabel => ?_, ?_⟩
      · rw [ofGroup_eq_nil_iff] at hne
        push Not at hne
        obtain ⟨w, hw, hgroup⟩ := hne
        exact ⟨w.2.1, fun hnone => lastOf_eq_none_iff.1 hnone w hw hgroup rfl⟩
      · rw [ne_eq, lastOf_eq_none_iff] at hlabel
        push Not at hlabel
        obtain ⟨w, hw, hgroup, -⟩ := hlabel
        exact (runCmp_isLE _ _).1 (hgreatest run' (mem_grouped.2 ⟨w, hw, hgroup⟩))
      · rw [← hall, List.all_eq_true]
        constructor
        · intro h label hfalse
          rw [lastOf_eq_getElem?, ← Std.ExtTreeMap.mem_toList_iff_getElem?_eq_some] at hfalse
          exact absurd (h _ hfalse) Bool.false_ne_true
        · rintro h ⟨label, b⟩ hmem
          rw [Std.ExtTreeMap.mem_toList_iff_getElem?_eq_some, ← lastOf_eq_getElem?] at hmem
          cases b with
          | false => exact absurd hmem (h label)
          | true => rfl

/-! ## The log -/

/-- The verdicts of the unit's gate runs, each under its run. -/
def runVerdicts (events : List Event) (unit : String) : List ((Nat × Nat) × String × Bool) :=
  (unitGateRuns events unit).filterMap fun x =>
    (gateKeyAttempt x.1).map fun attempt => ((attempt, retryOf x.1), x.1, x.2.pass)

theorem byAttempt_eq (events : List Event) (unit : String) :
    byAttempt events unit = grouped runCmp (runVerdicts events unit) := by
  unfold byAttempt grouped runVerdicts
  rw [List.foldl_filterMap]
  refine congrArg (fun f => List.foldl f ∅ (unitGateRuns events unit)) (funext₂ fun m x => ?_)
  cases gateKeyAttempt x.1 <;> rfl

theorem lastVerdict_eq (events : List Event) (key : String) : lastVerdict events key =
    latest (fun e => (gateVerdictOf e).bind fun x => if x.1 = key then some x.2.pass else none)
      events := by
  rw [lastVerdict, Deferred.cachedVerdict, ← latest_map_answer]
  refine latest_congr fun e _ => ?_
  rw [Option.map_bind]
  refine congrArg (Option.bind (gateVerdictOf e)) (funext fun x => ?_)
  by_cases hkey : x.1 = key <;> simp [hkey]

theorem lastOf_runVerdicts (events : List Event) (unit : String) (run : Nat × Nat) (key : String) :
    lastOf (runVerdicts events unit) run key = keyVerdict events unit run key := by
  unfold lastOf runVerdicts unitGateRuns keyVerdict
  rw [lastVerdict_eq, latest_filterMap, latest_filter, latest_filterMap]
  split
  · next h =>
    obtain ⟨hunit, hattempt, hretry⟩ := h
    refine latest_congr fun e _ => congrArg (Option.bind (gateVerdictOf e)) (funext fun x => ?_)
    by_cases hkey : x.1 = key
    · simp [hkey, hunit, hattempt, hretry]
    · cases gateKeyAttempt x.1 <;> simp [hkey]
  · next h =>
    rw [latest_eq_none_iff]
    intro e _
    rw [Option.bind_eq_none_iff]
    intro x _
    by_cases hkey : x.1 = key
    · subst hkey
      by_cases hunit : unitOfGateKey x.1 = some unit
      · cases hattempt : gateKeyAttempt x.1 with
        | none => simp
        | some attempt =>
          have hne : (attempt, retryOf x.1) ≠ run := by
            rintro rfl
            exact h ⟨hunit, hattempt, rfl⟩
          simp [hne]
      · simp [hunit]
    · cases gateKeyAttempt x.1 <;> simp [hkey]

theorem concluded_keys (events : List Event) (unit : String) :
    Concluded (keyVerdict events unit) (recordedGateOutcome events unit) := by
  have hlast : keyVerdict events unit = lastOf (runVerdicts events unit) :=
    funext₂ fun run key => (lastOf_runVerdicts events unit run key).symm
  rw [hlast, recordedGateOutcome, byAttempt_eq]
  exact concluded_grouped _

theorem lastVerdict_key {pass : Bool} (h : lastVerdict events key = some pass) :
    ∃ e ∈ events, ∃ x, gateVerdictOf e = some x ∧ x.1 = key := by
  rw [lastVerdict_eq] at h
  obtain ⟨before, e, after, rfl, he, -⟩ := (latest_eq_some_iff _ _ _).1 h
  obtain ⟨x, hx, hpass⟩ := Option.bind_eq_some_iff.1 he
  refine ⟨e, by simp, x, hx, ?_⟩
  by_contra hkey
  rw [if_neg hkey] at hpass
  cases hpass

theorem concluded_gates (hunit : Plain unit) (hminted : MintedLog events) :
    Concluded (gateVerdict events unit) (recordedGateOutcome events unit) := by
  refine (concluded_keys events unit).relabel (fun run key pass hlast => ?_)
    fun run gate pass hlast => ?_
  · unfold keyVerdict at hlast
    split at hlast
    · next hrun =>
      obtain ⟨e, he, x, hx, rfl⟩ := lastVerdict_key hlast
      obtain ⟨gate, hgate, hattempt, hretry, hkey⟩ := (hminted e he x hx).of_runKey hrun
      exact ⟨gate, by rw [gateVerdict, if_pos ⟨hgate, hattempt, hretry⟩, ← hkey, hlast]⟩
    · cases hlast
  · unfold gateVerdict at hlast
    split at hlast
    · next h =>
      refine ⟨gateKey .verdict unit run.1 run.2 gate, ?_⟩
      rw [keyVerdict, if_pos (runKey_gateKey hunit gate h.2.1 h.2.2), hlast]
    · cases hlast

/-! ## The read model -/

/-- The readers take a run key apart. -/
def ReadersInvert : Prop :=
  ∀ unit gate, Plain unit → Plain gate → ∀ attempt < 2 ^ 32, ∀ retry < 2 ^ 32,
    unitOfGateKey (gateKey .verdict unit attempt retry gate) = some unit ∧
      gateKeyAttempt (gateKey .verdict unit attempt retry gate) = some attempt ∧
      retryOf (gateKey .verdict unit attempt retry gate) = retry

/-- No other key reads as a gate run, but for a phase's as one of `deferred`. -/
def OthersApart : Prop :=
  (∀ unit gate, Plain unit → Plain gate → ∀ attempt retry,
    unitOfGateKey (gateKey .skip unit attempt retry gate) = none ∧
      unitOfGateKey (gateKey .postMergeVerdict unit attempt retry gate) = none) ∧
  ∀ gate, unitOfGateKey (deferredGateVerdictKey gate) = some "deferred"

def KeysDistinct : Prop :=
  ∀ (kind kind' : GateKey) (unit unit' gate gate' : String) (attempt attempt' retry retry' : Nat),
    Plain unit → Plain unit' → Plain gate → Plain gate' →
    gateKey kind unit attempt retry gate = gateKey kind' unit' attempt' retry' gate' →
    kind = kind' ∧ unit = unit' ∧ attempt = attempt' ∧ retry = retry' ∧ gate = gate'

/-- Over any log the outcome is the conjunction by key, and by gate where its keys are minted
ones. -/
theorem recordedGateOutcome_concluded (events : List Event) (unit : String) :
    ReadersInvert ∧ OthersApart ∧ KeysDistinct ∧
      Concluded (keyVerdict events unit) (recordedGateOutcome events unit) ∧
      (Plain unit → MintedLog events →
        Concluded (gateVerdict events unit) (recordedGateOutcome events unit)) := by
  refine ⟨fun unit gate hunit _ attempt hattempt retry hretry => ?_, ⟨?_, fun gate => ?_⟩, ?_,
    concluded_keys events unit, concluded_gates⟩
  · exact runKey_gateKey hunit gate hattempt hretry
  · intro unit gate hunit hgate attempt retry
    exact ⟨unitOfGateKey_other (by decide) hunit hgate attempt retry,
      unitOfGateKey_other (by decide) hunit hgate attempt retry⟩
  · exact unitOfGateKey_of_deferred ⟨gate, rfl⟩
  · intro kind kind' unit unit' gate gate' attempt attempt' retry retry' hunit hunit' hgate hgate' h
    exact gateKey_inj hunit hunit' hgate hgate' h

/-- A first run that failed, and its rerun, whose last gate passed after another failed. -/
def rerunEvents : List Event :=
  [Deferred.verdictEvent ("g0", 0) (gateKey .verdict "u" 0 0 "test") "test" false "",
    Deferred.verdictEvent ("g1", 1) (gateKey .verdict "u" 0 1 "test") "test" false "",
    Deferred.verdictEvent ("g2", 2) (gateKey .verdict "u" 0 1 "style") "style" true ""]

theorem rerunEvents_concluded : recordedGateOutcome rerunEvents "u" = some false ∧
    Concluded (gateVerdict rerunEvents "u") (recordedGateOutcome rerunEvents "u") := by
  have hplain : Plain "u" ∧ Plain "test" ∧ Plain "style" := by decide +kernel
  have hzero : 0 < 2 ^ 32 := by decide
  have hone : 1 < 2 ^ 32 := by decide
  have hminted : MintedLog rerunEvents := by
    intro e he x hx
    simp only [rerunEvents, List.mem_cons, List.not_mem_nil, or_false] at he
    rcases he with rfl | rfl | rfl <;> rw [Deferred.verdictEvent_verdict] at hx <;> cases hx
    · exact .unit .verdict hplain.1 hplain.2.1 hzero hzero
    · exact .unit .verdict hplain.1 hplain.2.1 hzero hone
    · exact .unit .verdict hplain.1 hplain.2.2 hzero hone
  have hall : (byAttempt rerunEvents "u")[((0 : Nat), (1 : Nat))]?.map
      (fun latest => latest.toList.all Prod.snd) = some false := by decide +kernel
  obtain ⟨latest, hlatest, hall⟩ := Option.map_eq_some_iff.1 hall
  have hle : ∀ w ∈ runVerdicts rerunEvents "u", (runCmp w.1 (0, 1)).isLE = true := by
    decide +kernel
  have hgreatest : greatest (byAttempt rerunEvents "u") = some latest := by
    refine (greatest_eq_some_iff _ _).2 ⟨(0, 1), hlatest, fun run hrun => ?_⟩
    rw [byAttempt_eq, mem_grouped] at hrun
    obtain ⟨w, hw, rfl⟩ := hrun
    exact hle w hw
  exact ⟨by rw [recordedGateOutcome, hgreatest, Option.map_some, hall],
    (recordedGateOutcome_concluded rerunEvents "u").2.2.2.2 hplain.1 hminted⟩

end Rigger.Conductor.GateOutcome
