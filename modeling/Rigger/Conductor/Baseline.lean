import Rigger.Conductor.Sanitize
import Rigger.Conductor.SpawnIds

/-!
# The baseline covers the spec (`rigger-domain/src/wave.rs`)

The baseline is one unit for each criterion, under a name its ordinal makes its own and an id its
position makes its own.  Whatever stages the units join, `coverageGap` finds each criterion's own
unit, which carries the template's agent.
-/

namespace Rigger.Conductor

open Lib

/-- `has_llm_verifier`. -/
def hasLlmVerifier (st : Stage) : Bool :=
  !st.agent.isEmpty || !st.agents.isEmpty || !st.adjudicator.isEmpty

/-- The stage carries the criterion's id, or its text. -/
def covers (id criterion : String) (st : Stage) : Bool :=
  st.criterionId == id || (!(trim st.coverage).isEmpty && trim st.coverage == trim criterion)

/-- The criteria no stage with a verifier covers. -/
def coverageGap (stages : Stages) (criteria : List String) : Option String :=
  if criteria.isEmpty then none
  else
    let verifiers := (stages.toList.map Prod.snd).filter hasLlmVerifier
    let gaps := ((criteria.mapIdx fun i c => (i, c)).filter fun (i, c) =>
      !verifiers.any (covers (criterionStableId (i + 1) c) c)).map fun (_, c) => trim c
    if gaps.isEmpty then none
    else some ("coverage gap - no stage with an LLM verifier covers: " ++ "; ".intercalate gaps)

/-! ## Names -/

/-- What a slug is made of. -/
def Slug (l : List Char) : Prop := ∀ c ∈ l, c.isAlphanum = true ∨ c = '-'

variable {l slug : List Char} {producer : Option String} {units : List (String × Stage)}

theorem slug_of_all (h : l.all (fun c => c.isAlphanum || c == '-') = true) : Slug l := by
  intro c hc
  have hall := List.all_eq_true.1 h c hc
  rwa [Bool.or_eq_true, beq_iff_eq] at hall

theorem slug_append {a b : List Char} (ha : Slug a) (hb : Slug b) : Slug (a ++ b) := by
  intro c hc
  rcases List.mem_append.1 hc with hc | hc
  · exact ha c hc
  · exact hb c hc

theorem isAlphanum_toLower {c : Char} (h : c.isAlphanum = true) : c.toLower.isAlphanum = true := by
  have hall : ∀ n < 128, (Char.ofNat n).isAlphanum = true →
      (Char.ofNat n).toLower.isAlphanum = true := by decide
  have hlt : c.toNat < 128 := by
    have hcodes : ((decide (c.val ≥ 'A'.val ∧ c.val ≤ 'Z'.val) ||
        (decide (c.val ≥ 'a'.val) && decide (c.val ≤ 'z'.val))) ||
          (decide (c.val ≥ '0'.val) && decide (c.val ≤ '9'.val))) = true := h
    simp only [Bool.or_eq_true, Bool.and_eq_true, decide_eq_true_eq, ge_iff_le,
      UInt32.le_iff_toNat_le] at hcodes
    have hZ : 'Z'.val.toNat = 90 := rfl
    have hz : 'z'.val.toNat = 122 := rfl
    have h9 : '9'.val.toNat = 57 := rfl
    simp only [Char.toNat]
    omega
  have hlower := hall c.toNat hlt
  rw [Char.ofNat_toNat] at hlower
  exact hlower h

theorem slug_slugStep (h : Slug slug) (c : Char) : Slug (slugStep slug c) := by
  unfold slugStep
  split
  · next hc =>
    refine slug_append h fun d hd => ?_
    rw [List.mem_singleton.1 hd]
    exact .inl (isAlphanum_toLower hc)
  · split
    · exact h
    · refine slug_append h fun d hd => ?_
      exact .inr (List.mem_singleton.1 hd)

theorem slug_slugFrom (h : Slug slug) (cs : List Char) : Slug (slugFrom slug cs) := by
  induction cs generalizing slug with
  | nil => exact h
  | cons c cs ih =>
    unfold slugFrom
    split
    · exact slug_slugStep h c
    · exact ih (slug_slugStep h c)

theorem slug_digits (n : Nat) : Slug (toString n).toList := by
  intro c hc
  have hdigit := List.all_eq_true.1 (all_isDigit_toString n) c hc
  exact .inl (by rw [Char.isAlphanum, hdigit, Bool.or_true])

theorem slug_trimMatches (h : Slug l) (p : Char → Bool) : Slug (trimMatches p l) := by
  intro c hc
  apply h
  unfold trimMatches at hc
  have hc := (List.dropWhile_sublist p).mem (List.mem_reverse.1 hc)
  exact (List.dropWhile_sublist p).mem (List.mem_reverse.1 hc)

theorem slug_unitSlug (n : Nat) (criterion : String) : Slug (unitSlug n criterion).toList := by
  have hunit : Slug "unit-".toList := slug_of_all rfl
  have hhyphen : Slug "-".toList := slug_of_all rfl
  have hnil : Slug [] := by simp [Slug]
  have hslug := slug_trimMatches (slug_slugFrom hnil criterion.toList) (· == '-')
  unfold unitSlug
  revert hslug
  generalize trimMatches (· == '-') (slugFrom [] criterion.toList) = slug
  intro hslug
  cases slug with
  | nil =>
    rw [String.toList_append]
    exact slug_append hunit (slug_digits n)
  | cons c slug =>
    dsimp only
    have hlist : (String.ofList (c :: slug)).toList = c :: slug := String.toList_ofList
    rw [String.toList_append, String.toList_append, String.toList_append, hlist]
    exact slug_append (slug_append (slug_append hunit (slug_digits n)) hhyphen) hslug

theorem separated_unitSlug (n : Nat) (criterion : String) :
    Attribution.Separated (unitSlug n criterion) := by
  have hnot : ∀ c, c.isAlphanum = false → c ≠ '-' → c ∉ (unitSlug n criterion).toList := by
    intro c hc hne hmem
    rcases slug_unitSlug n criterion c hmem with h | h
    · rw [hc] at h
      cases h
    · exact hne h
  exact ⟨hnot '/' (by decide) (by decide), hnot '#' (by decide) (by decide),
    hnot '~' (by decide) (by decide)⟩

theorem unitSlug_inj {m n : Nat} {x y : String} (h : unitSlug m x = unitSlug n y) : m = n :=
  idWords_unitSlug_inj (congrArg idWords h)

/-! ## Ids -/

/-- The position of an id stands before its first hyphen. -/
theorem criterionStableId_inj {m n : Nat} {x y : String}
    (h : criterionStableId m x = criterionStableId n y) : m = n := by
  have hcut : ∀ (k : Nat) (z : String), splitOnce '-' (criterionStableId k z) =
      some ("c" ++ toString k, hex16 (fnv1a64 (normalizeWs z).toUTF8.toList)) := by
    intro k z
    refine (splitOnce_eq_some_iff _ _ _ _).2 ⟨by unfold criterionStableId; rfl, ?_⟩
    rw [String.toList_append, List.mem_append]
    rintro (hc | hc)
    · exact absurd hc (by decide)
    · exact not_mem_digits (by decide) k hc
  have hsome := hcut m x
  rw [h, hcut n y] at hsome
  have hpos := (Prod.mk.inj (Option.some.inj hsome)).1
  exact (toString_nat_inj (String.append_right_inj _ |>.1 hpos)).symm

/-! ## Units -/

variable {criteria : List String} {unit : String × Stage} {template : Stage} {stages : Stages}

theorem mem_baselineUnits (h : unit ∈ baselineUnits template criteria producer) :
    ∃ i, ∃ hi : i < criteria.length, ∃ needs, unit = (unitSlug (i + 1) criteria[i],
      baselineUnit template needs (i + 1) criteria[i]) := by
  obtain ⟨i, hi, rfl⟩ := List.mem_mapIdx.1 h
  exact ⟨i, hi, _, rfl⟩

theorem getElem?_baselineUnits (template : Stage) (producer : Option String) {i : Nat}
    {criterion : String} (hi : criteria[i]? = some criterion) :
    ∃ needs, (baselineUnits template criteria producer)[i]? =
      some (unitSlug (i + 1) criterion, baselineUnit template needs (i + 1) criterion) := by
  unfold baselineUnits
  dsimp only
  rw [List.getElem?_mapIdx, hi]
  exact ⟨_, rfl⟩

theorem nodup_of_position {β : Type} (f : String × Stage → β)
    (hf : ∀ (template template' : Stage) (needs needs' : List String) (m n : Nat) (x y : String),
      f (unitSlug m x, baselineUnit template needs m x) =
        f (unitSlug n y, baselineUnit template' needs' n y) → m = n)
    (template : Stage) (criteria : List String) (producer : Option String) :
    ((baselineUnits template criteria producer).map f).Nodup := by
  unfold baselineUnits
  rw [List.Nodup, List.pairwise_iff_getElem]
  intro i j hi hj hij heq
  simp only [List.getElem_map, List.getElem_mapIdx] at heq
  have := hf _ _ _ _ _ _ _ _ heq
  omega

theorem needs_baselineUnits {producer : String}
    (h : unit ∈ baselineUnits template criteria (some producer)) :
    unit.2.needs.count producer = max 1 (template.needs.count producer) ∧
      ∀ need, need ≠ producer → unit.2.needs.count need = template.needs.count need := by
  obtain ⟨i, hi, rfl⟩ := List.mem_mapIdx.1 h
  show List.count producer (if template.needs.contains producer then _ else _) = _ ∧
    ∀ need, need ≠ producer →
      List.count need (if template.needs.contains producer then _ else _) = _
  split
  · next hcontains =>
    rw [List.contains_iff_mem, ← List.count_pos_iff] at hcontains
    exact ⟨by omega, fun _ _ => rfl⟩
  · next hnot =>
    rw [List.contains_iff_mem, ← List.count_pos_iff] at hnot
    rw [List.count_append, List.count_singleton_self]
    refine ⟨by omega, fun need hne => ?_⟩
    rw [List.count_append, List.count_singleton, if_neg]
    · rfl
    · simpa using hne.symm

/-! ## Coverage -/

theorem coverageGap_eq_none
    (h : ∀ i, ∀ hi : i < criteria.length, ∃ (name : String) (st : Stage), stages[name]? = some st ∧
      hasLlmVerifier st = true ∧
        covers (criterionStableId (i + 1) criteria[i]) criteria[i] st = true) :
    coverageGap stages criteria = none := by
  unfold coverageGap
  split
  · rfl
  · have hgaps : ((criteria.mapIdx fun i c => (i, c)).filter fun (i, c) =>
        !((stages.toList.map Prod.snd).filter hasLlmVerifier).any
          (covers (criterionStableId (i + 1) c) c)) = [] := by
      rw [List.filter_eq_nil_iff]
      intro p hp
      obtain ⟨i, hi, rfl⟩ := List.mem_mapIdx.1 hp
      obtain ⟨name, st, hst, hverifier, hcovers⟩ := h i hi
      have hany : ((stages.toList.map Prod.snd).filter hasLlmVerifier).any
          (covers (criterionStableId (i + 1) criteria[i]) criteria[i]) = true := by
        refine List.any_eq_true.2 ⟨st, List.mem_filter.2 ⟨List.mem_map.2 ⟨(name, st), ?_, rfl⟩,
          hverifier⟩, hcovers⟩
        exact Std.ExtTreeMap.mem_toList_iff_getElem?_eq_some.2 hst
      simp [hany]
    dsimp only
    rw [hgaps]
    rfl

theorem coverageGap_of_units (hagent : template.agent ≠ "")
    (h : ∀ unit ∈ baselineUnits template criteria producer, stages[unit.1]? = some unit.2) :
    coverageGap stages criteria = none := by
  apply coverageGap_eq_none
  intro i hi
  obtain ⟨needs, hunit⟩ := getElem?_baselineUnits template producer (List.getElem?_eq_getElem hi)
  refine ⟨_, _, h _ (List.mem_of_getElem? hunit), ?_, ?_⟩
  · have hempty : template.agent.isEmpty = false := by simpa using hagent
    simp [hasLlmVerifier, baselineUnit, hempty]
  · simp [covers, baselineUnit]

theorem getElem?_foldl_insert (hnodup : (units.map Prod.fst).Nodup) (stages : Stages)
    (h : unit ∈ units) :
    (units.foldl (fun stages unit => stages.insert unit.1 unit.2) stages)[unit.1]? =
      some unit.2 := by
  have hother : ∀ (units : List (String × Stage)) (stages : Stages) (name : String),
      name ∉ units.map Prod.fst →
      (units.foldl (fun stages unit => stages.insert unit.1 unit.2) stages)[name]? =
        stages[name]? := by
    intro units
    induction units with
    | nil => exact fun _ _ _ => rfl
    | cons u units ih =>
      intro stages name hname
      rw [List.map_cons, List.mem_cons, not_or] at hname
      rw [List.foldl_cons, ih _ _ hname.2, Std.ExtTreeMap.getElem?_insert, if_neg]
      rw [compare_eq_iff_eq]
      exact fun heq => hname.1 heq.symm
  induction units generalizing stages with
  | nil => cases h
  | cons u units ih =>
    rw [List.map_cons, List.nodup_cons] at hnodup
    rw [List.foldl_cons]
    rcases List.mem_cons.1 h with rfl | h
    · rw [hother _ _ _ hnodup.1, Std.ExtTreeMap.getElem?_insert_self]
    · exact ih hnodup.2 _ h

theorem foldl_insertIfNew_eq (hnodup : (units.map Prod.fst).Nodup)
    (hnew : ∀ unit ∈ units, stages[unit.1]? = none) :
    units.foldl (fun stages unit => stages.insertIfNew unit.1 unit.2) stages =
      units.foldl (fun stages unit => stages.insert unit.1 unit.2) stages := by
  induction units generalizing stages with
  | nil => rfl
  | cons u units ih =>
    rw [List.map_cons, List.nodup_cons] at hnodup
    have hsame : stages.insertIfNew u.1 u.2 = stages.insert u.1 u.2 := by
      apply Std.ExtTreeMap.ext_getElem?
      intro name
      rw [Std.ExtTreeMap.getElem?_insertIfNew, Std.ExtTreeMap.getElem?_insert]
      have hu : u.1 ∉ stages := by
        rw [Std.ExtTreeMap.mem_iff_isSome_getElem?, hnew u List.mem_cons_self]
        exact Bool.false_ne_true
      simp [hu]
    rw [List.foldl_cons, List.foldl_cons, hsame]
    apply ih hnodup.2
    intro unit hunit
    rw [Std.ExtTreeMap.getElem?_insert, if_neg, hnew unit (List.mem_cons_of_mem u hunit)]
    rw [compare_eq_iff_eq]
    rintro heq
    exact hnodup.1 (heq ▸ List.mem_map_of_mem hunit)

/-! ## The baseline -/

/-- One unit for each criterion, under names and ids of their own, with the template's needs and the
producer; and no coverage gap in any stages they are inserted into, nor where they join stages that
hold none of their names. -/
theorem baseline_covers (template : Stage) (criteria : List String) (producer : Option String)
    (hagent : template.agent ≠ "") :
    let units := baselineUnits template criteria producer
    units.length = criteria.length ∧
      (∀ i criterion, criteria[i]? = some criterion → ∃ unit, units[i]? = some unit ∧
        unit.2.name = unit.1 ∧ unit.2.coverage = criterion ∧
          unit.2.criterionId = criterionStableId (i + 1) criterion) ∧
      (units.map Prod.fst).Nodup ∧ (units.map fun unit => unit.2.criterionId).Nodup ∧
      (∀ unit ∈ units, Attribution.Separated unit.1 ∧ ∀ role, '/' ∉ role.toList →
        ∀ attempt retry,
          Attribution.unitOf (spawnRetryId unit.1 role attempt retry) = some unit.1) ∧
      (∀ p ∈ producer, ∀ unit ∈ units,
        unit.2.needs.count p = max 1 (template.needs.count p)) ∧
      (∀ stages : Stages, coverageGap
        (units.foldl (fun stages unit => stages.insert unit.1 unit.2) stages) criteria = none) ∧
      ∀ stages : Stages, (∀ unit ∈ units, stages[unit.1]? = none) → coverageGap
        (units.foldl (fun stages unit => stages.insertIfNew unit.1 unit.2) stages) criteria =
          none := by
  intro units
  have hnames : (units.map Prod.fst).Nodup := nodup_of_position Prod.fst
    (fun _ _ _ _ _ _ _ _ h => unitSlug_inj h) template criteria producer
  have hinserted : ∀ stages : Stages, coverageGap
      (units.foldl (fun stages unit => stages.insert unit.1 unit.2) stages) criteria = none :=
    fun stages => coverageGap_of_units hagent fun unit hunit =>
      getElem?_foldl_insert hnames stages hunit
  refine ⟨List.length_mapIdx, fun i criterion hi => ?_, hnames, ?_, fun unit hunit => ?_,
    fun p hp unit hunit => ?_, hinserted, fun stages hnew => ?_⟩
  · obtain ⟨needs, hunit⟩ := getElem?_baselineUnits template producer hi
    exact ⟨_, hunit, rfl, rfl, rfl⟩
  · exact nodup_of_position (fun unit => unit.2.criterionId)
      (fun _ _ _ _ _ _ _ _ h => criterionStableId_inj h) template criteria producer
  · obtain ⟨i, hi, needs, rfl⟩ := mem_baselineUnits hunit
    refine ⟨separated_unitSlug _ _, fun role hrole attempt retry => ?_⟩
    exact (Attribution.unitOf_spawnRetryId _ role attempt retry).2 hrole
  · obtain rfl : producer = some p := hp
    exact (needs_baselineUnits hunit).1
  · rw [foldl_insertIfNew_eq hnames hnew]
    exact hinserted stages

/-- A criterion and the blank one twice, beside the stage of the producer they need. -/
theorem baseline_covers_blank :
    let worker : Stage := { Stage.default with agent := "worker" }
    let plan : Stage := { Stage.default with name := "plan", agent := "planner" }
    let units := baselineUnits worker ["total", " ", ""] (some "plan")
    (∀ unit ∈ units, unit.2.needs.count "plan" = 1) ∧
      coverageGap (units.foldl (fun stages unit => stages.insert unit.1 unit.2)
        ((∅ : Stages).insert "plan" plan)) ["total", " ", ""] = none := by
  obtain ⟨-, -, -, -, -, hneeds, hcovered, -⟩ := baseline_covers
    { Stage.default with agent := "worker" } ["total", " ", ""] (some "plan") (by decide)
  exact ⟨fun unit hunit => (hneeds "plan" rfl unit hunit).trans (by decide), hcovered _⟩

/-- A template that names the producer twice keeps both. -/
theorem baseline_needs_repeated :
    ¬∀ (template : Stage) (criteria : List String) (p : String), template.agent ≠ "" →
      ∀ unit ∈ baselineUnits template criteria (some p), unit.2.needs.count p = 1 := by
  intro h
  have := h { Stage.default with agent := "worker", needs := ["plan", "plan"] } ["total"] "plan"
    (by decide) _ List.mem_cons_self
  cases this

end Rigger.Conductor
