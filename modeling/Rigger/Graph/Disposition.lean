import Rigger.Graph.Frame
import Rigger.Graph.Decide
import Rigger.Lib.Latest

/-!
# What becomes of a review finding

A log of findings, adjudications and integrations disposes of a finding: a discard, or the
integration of the unit its latest upholding adjudication judged, ends what its latest raise began
(`Disposed`).  The fold keeps the disposition as two attrs of the finding's node.  `Disposal` is all
of the tables that bears on one finding, and `Follows` says that the tables follow it.
-/

namespace Rigger.Graph

open Lib

/-! ## What a log says of a finding -/

namespace Payload

def raises (finding : String) : Payload → Bool
  | .reviewFinding r => r.id == finding
  | _ => false

/-- The locations a finding is about. -/
def named : Payload → List String
  | .reviewFinding r => locations r.about r.file
  | _ => []

def discards (finding : String) : Payload → Bool
  | .spawnResult v => v.discarded.contains finding
  | _ => false

/-- The unit an adjudication upholds the finding for. -/
def upholds (finding : String) : Payload → Option String
  | .spawnResult v => if finding ∈ v.upheld then some v.unit else none
  | _ => none

/-- What the payload's arm first makes of the id: raised, a finding; a finding's location, an
artifact. -/
def mentions (id : String) (p : Payload) : Option NodeKind :=
  if p.raises id = true then some .finding
  else if id ∈ p.named then some .artifact
  else none

end Payload

/-- `ps` ends in the raise `r` of the finding, with `since` after it. -/
def LatestRaise (finding : String) (ps before : List Payload) (r : ReviewFinding)
    (since : List Payload) : Prop :=
  ps = before ++ .reviewFinding r :: since ∧ r.id = finding ∧
    ∀ p ∈ since, p.raises finding = false

/-- What followed a raise discarded the finding, or integrated the unit the latest adjudication
upholding it judged. -/
def Disposed (finding : String) (since : List Payload) : Prop :=
  (∃ p ∈ since, p.discards finding = true) ∨
    ∃ before p after, since = before ++ p :: after ∧
      ∃ unit, p = .unitIntegrated unit ∧ latest (Payload.upholds finding) before = some unit

def Standing (finding : String) (ps : List Payload) : Prop :=
  ∃ before r since, LatestRaise finding ps before r since ∧ ¬Disposed finding since

variable {before since : List Payload} {r : ReviewFinding}

theorem LatestRaise.unique {finding : String} {ps before' since' : List Payload}
    {r' : ReviewFinding} (h : LatestRaise finding ps before r since)
    (h' : LatestRaise finding ps before' r' since') :
    before = before' ∧ r = r' ∧ since = since' := by
  obtain ⟨hps, hid, hnone⟩ := h
  obtain ⟨hps', hid', hnone'⟩ := h'
  have hraises : (Payload.reviewFinding r).raises finding = true := by simp [Payload.raises, hid]
  have hraises' : (Payload.reviewFinding r').raises finding = true := by
    simp [Payload.raises, hid']
  rw [hps] at hps'
  rcases List.append_eq_append_iff.1 hps' with ⟨gap, hbefore, hrest⟩ | ⟨gap, hbefore, hrest⟩
  · cases gap with
    | nil =>
      rw [List.nil_append, List.cons.injEq, Payload.reviewFinding.injEq] at hrest
      exact ⟨by rw [hbefore, List.append_nil], hrest.1, hrest.2⟩
    | cons p gap =>
      rw [List.cons_append, List.cons.injEq] at hrest
      have := hnone (.reviewFinding r') (by rw [hrest.2]; simp)
      rw [hraises'] at this
      cases this
  · cases gap with
    | nil =>
      rw [List.nil_append, List.cons.injEq, Payload.reviewFinding.injEq] at hrest
      exact ⟨by rw [hbefore, List.append_nil], hrest.1.symm, hrest.2.symm⟩
    | cons p gap =>
      rw [List.cons_append, List.cons.injEq] at hrest
      have := hnone' (.reviewFinding r) (by rw [hrest.2]; simp)
      rw [hraises] at this
      cases this

theorem LatestRaise.standing_iff {finding : String} {ps : List Payload}
    (h : LatestRaise finding ps before r since) :
    Standing finding ps ↔ ¬Disposed finding since := by
  constructor
  · rintro ⟨before', r', since', h', hnot⟩
    obtain ⟨-, -, rfl⟩ := h.unique h'
    exact hnot
  · exact fun hnot => ⟨before, r, since, h, hnot⟩

theorem exists_latestRaise (finding : String) (ps : List Payload) :
    (∀ p ∈ ps, p.raises finding = false) ∨
      ∃ before r since, LatestRaise finding ps before r since := by
  induction ps using List.reverseRecOn with
  | nil => exact .inl (by simp)
  | append_singleton ps p ih =>
    by_cases hp : p.raises finding = true
    · right
      cases p with
      | reviewFinding r => exact ⟨ps, r, [], rfl, by simpa [Payload.raises] using hp, by simp⟩
      | _ => cases hp
    · rw [Bool.not_eq_true] at hp
      rcases ih with hnone | ⟨before, r, since, rfl, hid, hnone⟩
      · left
        intro q hq
        rcases List.mem_append.1 hq with hq | hq
        · exact hnone q hq
        · rwa [List.mem_singleton.1 hq]
      · right
        refine ⟨before, r, since ++ [p], by simp, hid, fun q hq => ?_⟩
        rcases List.mem_append.1 hq with hq | hq
        · exact hnone q hq
        · rwa [List.mem_singleton.1 hq]

/-! ## The finding's part of the tables -/

/-- The kind of the finding's node, its mark, its unit and the locations its live edges reach. -/
structure Disposal where
  kind : Option NodeKind
  upheld : Bool
  unit : Option String
  about : List String

namespace Disposal

def start : Disposal := ⟨none, false, none, []⟩

/-- The finding's record, asserted. -/
def raised (s : Disposal) (finding : String) (r : ReviewFinding) : Disposal :=
  if r.id = finding then { s with kind := some (s.kind.getD .finding), unit := some r.unit } else s

/-- A location of a record, asserted and tied to it. -/
def tied (s : Disposal) (finding record location : String) : Disposal :=
  { s with
    kind := if location = finding then some (s.kind.getD .artifact) else s.kind
    about := if record = finding then s.about ++ [location] else s.about }

def step (finding : String) (s : Disposal) : Payload → Disposal
  | .reviewFinding r =>
    (locations r.about r.file).foldl (fun s location => s.tied finding r.id location)
      (s.raised finding r)
  | .spawnResult v =>
    if s.kind = some .finding then
      { s with
        about := if finding ∈ v.discarded then [] else s.about
        upheld := s.upheld || decide (finding ∈ v.upheld)
        unit := if finding ∈ v.upheld then some v.unit else s.unit }
    else s
  | .unitIntegrated unit =>
    if s.kind = some .finding ∧ s.upheld = true ∧ s.unit = some unit then { s with about := [] }
    else s
  | _ => s

section
variable (s : Disposal) (finding : String)

theorem foldl_tied (record : String) (ls : List String) :
    ls.foldl (fun s location => s.tied finding record location) s =
      { s with
        kind := if finding ∈ ls then some (s.kind.getD .artifact) else s.kind
        about := if record = finding then s.about ++ ls else s.about } := by
  induction ls generalizing s with
  | nil => simp
  | cons l ls ih =>
    rw [List.foldl_cons, ih]
    unfold tied
    have hcomm : finding = l ↔ l = finding := eq_comm
    by_cases hl : l = finding <;> by_cases hr : record = finding <;>
      by_cases hm : finding ∈ ls <;> simp [hcomm, hl, hr, hm]

theorem step_kind (p : Payload) : (s.step finding p).kind = s.kind.or (p.mentions finding) := by
  cases p with
  | reviewFinding r =>
    simp only [step, foldl_tied, raised, Payload.mentions, Payload.raises,
      Payload.named, beq_iff_eq]
    by_cases hid : r.id = finding <;> by_cases hm : finding ∈ locations r.about r.file <;>
      cases hk : s.kind <;> simp [hid, hm, hk]
  | spawnResult v =>
    simp only [step, Payload.mentions, Payload.raises, Payload.named]
    split <;> simp
  | unitIntegrated unit =>
    simp only [step, Payload.mentions, Payload.raises, Payload.named]
    split <;> simp
  | _ => simp [step, Payload.mentions, Payload.raises, Payload.named]

variable {p : Payload}

/-- A payload that does not raise a finding may mark it, and ends its edges by a discard or by the
integration of the unit it is marked with. -/
theorem step_of_finding (hkind : s.kind = some .finding) (hp : p.raises finding = false) :
    (s.step finding p).upheld = (s.upheld || (p.upholds finding).isSome) ∧
      (s.step finding p).unit = (p.upholds finding).or s.unit ∧
      ∀ l, l ∈ (s.step finding p).about ↔ l ∈ s.about ∧
        ¬(p.discards finding = true ∨
          s.upheld = true ∧ ∃ unit, p = .unitIntegrated unit ∧ s.unit = some unit) := by
  cases p with
  | reviewFinding r =>
    have hid : r.id ≠ finding := by simpa [Payload.raises] using hp
    simp [step, foldl_tied, raised, hid, Payload.upholds, Payload.discards]
  | spawnResult v =>
    simp only [step, if_pos hkind, Payload.upholds, Payload.discards]
    refine ⟨?_, ?_, fun l => ?_⟩
    · by_cases hm : finding ∈ v.upheld <;> simp [hm]
    · by_cases hm : finding ∈ v.upheld <;> simp [hm]
    · by_cases hm : finding ∈ v.discarded <;> simp [hm]
  | unitIntegrated unit =>
    simp only [step, Payload.upholds, Payload.discards]
    split
    case isTrue h =>
      refine ⟨by simp, by simp, fun l => ?_⟩
      simp [h.2.1, h.2.2]
    case isFalse h =>
      refine ⟨by simp, by simp, fun l => ?_⟩
      simp only [Payload.unitIntegrated.injEq, exists_eq_left', Bool.false_eq_true, false_or]
      exact (and_iff_left fun hm => h ⟨hkind, hm⟩).symm
  | _ => simp [step, Payload.upholds, Payload.discards]

/-- Of a node that is no finding, nothing but a raise of its id changes the mark, and nothing ends
its edges. -/
theorem step_of_other (hkind : s.kind ≠ some .finding) :
    (s.step finding p).upheld = s.upheld ∧
      ∀ l, l ∈ (s.step finding p).about ↔
        l ∈ s.about ∨ p.raises finding = true ∧ l ∈ p.named := by
  cases p with
  | reviewFinding r =>
    simp only [step, foldl_tied, raised, Payload.raises, Payload.named, beq_iff_eq]
    by_cases hid : r.id = finding <;> simp [hid]
  | spawnResult v => simp [step, hkind, Payload.raises]
  | unitIntegrated unit => simp [step, hkind, Payload.raises]
  | _ => simp [step, Payload.raises]

theorem step_raise (r : ReviewFinding) (hid : r.id = finding) :
    s.step finding (.reviewFinding r) =
      ⟨some (s.kind.getD .finding), s.upheld, some r.unit, s.about ++
        locations r.about r.file⟩ := by
  simp [step, foldl_tied, raised, hid]

end

/-! ## A log's disposal -/

/-- An adjudication upheld the finding once it had been raised. -/
def UpheldOnce (finding : String) (ps : List Payload) : Prop :=
  ∃ before p after, ps = before ++ p :: after ∧
    (first (Payload.mentions finding) before = some .finding ∧ (p.upholds finding).isSome = true)

section
variable (finding : String) (ps : List Payload)

theorem run_kind :
    (run (step finding) start ps).kind = first (Payload.mentions finding) ps := by
  induction ps using List.reverseRecOn with
  | nil => rfl
  | append_singleton ps p ih =>
    rw [run_append, run_cons, run_nil, step_kind, ih, first_concat]

variable {p : Payload} {since : List Payload}

theorem upholds_of_raises (h : p.raises finding = true) : p.upholds finding = none := by
  cases p with
  | reviewFinding r => rfl
  | _ => cases h

theorem run_upheld : (run (step finding) start ps).upheld = true ↔ UpheldOnce finding ps := by
  induction ps using List.reverseRecOn with
  | nil => simp [start, UpheldOnce]
  | append_singleton ps p ih =>
    unfold UpheldOnce
    rw [run_append, run_cons, run_nil, exists_split_concat, ← UpheldOnce, ← ih, ← run_kind]
    generalize run (step finding) start ps = s
    by_cases hkind : s.kind = some .finding
    · by_cases hp : p.raises finding = true
      · have hnone := upholds_of_raises finding hp
        cases p with
        | reviewFinding r =>
          rw [step_raise s finding r (by simpa [Payload.raises] using hp), hnone]
          simp
        | _ => cases hp
      · rw [Bool.not_eq_true] at hp
        rw [(s.step_of_finding finding hkind hp).1, Bool.or_eq_true]
        simp [hkind]
    · rw [(s.step_of_other finding hkind).1]
      simp [hkind]

/-- Where the node is no finding, every location its raises named stays tied. -/
theorem run_about_of_other (h : first (Payload.mentions finding) ps ≠ some .finding) (l : String) :
    l ∈ (run (step finding) start ps).about ↔
      ∃ p ∈ ps, p.raises finding = true ∧ l ∈ p.named := by
  induction ps using List.reverseRecOn with
  | nil => simp [start]
  | append_singleton ps p ih =>
    have hbefore : first (Payload.mentions finding) ps ≠ some .finding := by
      intro heq
      apply h
      rw [first_concat, heq, Option.some_or]
    have hkind := hbefore
    rw [← run_kind] at hkind
    rw [run_append, run_cons, run_nil, (step_of_other _ finding hkind).2 l, ih hbefore]
    simp only [List.mem_append, List.mem_singleton]
    constructor
    · rintro (⟨q, hq, hraise⟩ | hraise)
      · exact ⟨q, .inl hq, hraise⟩
      · exact ⟨p, .inr rfl, hraise⟩
    · rintro ⟨q, hq | rfl, hraise⟩
      · exact .inl ⟨q, hq, hraise⟩
      · exact .inr hraise

/-- What ends the edges of a finding marked `upheld` for `unit` as its latest raise folds. -/
def Lapsed (upheld : Bool) (unit : Option String) (since : List Payload) : Prop :=
  (∃ p ∈ since, p.discards finding = true) ∨
    ∃ before p after, since = before ++ p :: after ∧
      ((upheld = true ∨ (latest (Payload.upholds finding) before).isSome = true) ∧
        ∃ u, p = .unitIntegrated u ∧ (latest (Payload.upholds finding) before).or unit = some u)

theorem run_since (s : Disposal) (hkind : s.kind = some .finding)
    (hnone : ∀ p ∈ since, p.raises finding = false) :
    (run (step finding) s since).kind = some .finding ∧
      ((run (step finding) s since).upheld = true ↔
        s.upheld = true ∨ (latest (Payload.upholds finding) since).isSome = true) ∧
      (run (step finding) s since).unit = (latest (Payload.upholds finding) since).or s.unit ∧
      ∀ l, l ∈ (run (step finding) s since).about ↔
        l ∈ s.about ∧ ¬Lapsed finding s.upheld s.unit since := by
  induction since using List.reverseRecOn with
  | nil => simp [hkind, Lapsed]
  | append_singleton since p ih =>
    obtain ⟨hk, hu, hunit, habout⟩ := ih fun q hq => hnone q (List.mem_append_left _ hq)
    have hp := hnone p (by simp)
    rw [run_append, run_cons, run_nil, latest_concat]
    obtain ⟨hu', hunit', habout'⟩ := step_of_finding _ finding hk hp
    refine ⟨?_, ?_, ?_, fun l => ?_⟩
    · rw [step_kind, hk, Option.some_or]
    · rw [hu', Bool.or_eq_true, hu]
      cases p.upholds finding <;> simp
    · rw [hunit', hunit]
      cases p.upholds finding <;> simp
    · rw [habout' l, habout l, hu, hunit, and_assoc]
      refine and_congr_right fun _ => ?_
      have hdiscards : (∃ q ∈ since ++ [p], q.discards finding = true) ↔
          (∃ q ∈ since, q.discards finding = true) ∨ p.discards finding = true := by
        simp only [List.mem_append, List.mem_singleton, or_and_right, exists_or, exists_eq_left]
      unfold Lapsed
      rw [← not_or, exists_split_concat, hdiscards]
      exact not_congr (or_or_or_comm ..)

/-- A mark older than the raise ends its edges too, where the raise names the integrated unit. -/
theorem lapsed_iff {upheld : Bool} {unit : String} :
    Lapsed finding upheld (some unit) since ↔ Disposed finding since ∨
      upheld = true ∧ ∃ before p after, since = before ++ p :: after ∧
        (p = .unitIntegrated unit ∧ latest (Payload.upholds finding) before = none) := by
  have hsplit : ∀ (before : List Payload) (p : Payload), ((upheld = true ∨
        (latest (Payload.upholds finding) before).isSome = true) ∧
      ∃ u, p = .unitIntegrated u ∧
        (latest (Payload.upholds finding) before).or (some unit) = some u) ↔
      (∃ u, p = .unitIntegrated u ∧ latest (Payload.upholds finding) before = some u) ∨
        upheld = true ∧ p = .unitIntegrated unit ∧
          latest (Payload.upholds finding) before = none := by
    intro before p
    cases latest (Payload.upholds finding) before with
    | some u => simp
    | none => simp
  unfold Lapsed Disposed
  simp only [hsplit, and_or_left, exists_or, or_assoc]
  refine or_congr_right (or_congr_right ⟨?_, ?_⟩)
  · rintro ⟨before, p, after, heq, hu, hp⟩
    exact ⟨hu, before, p, after, heq, hp⟩
  · rintro ⟨hu, before, p, after, heq, hp⟩
    exact ⟨before, p, after, heq, hu, hp⟩

/-! ## What the disposal shows -/

/-- The locations in `live` are the ones the finding's live edges reach: those of its latest raise
while it stands, and none once it does not. -/
def AboutHolds (live : String → Prop) : Prop :=
  (∀ before r since, LatestRaise finding ps before r since →
    ∀ l ∈ locations r.about r.file, (live l ↔ Standing finding ps)) ∧
  ∀ l, live l → Standing finding ps

/-- Another finding named the id as a location before it was raised, and what the log disposed of
since its latest raise had locations. -/
def Misnamed : Prop :=
  first (Payload.mentions finding) ps = some .artifact ∧ ¬Standing finding ps ∧
    ∃ p ∈ ps, p.raises finding = true ∧ p.named ≠ []

/-- The latest raise of a finding some adjudication had upheld by then names a unit that was
integrated before an adjudication upheld the finding again, and nothing disposed of it since. -/
def MarkedStale : Prop :=
  ∃ before r since, LatestRaise finding ps before r since ∧ locations r.about r.file ≠ [] ∧
    UpheldOnce finding before ∧ ¬Disposed finding since ∧
    ∃ early p after, since = early ++ p :: after ∧
      (p = .unitIntegrated r.unit ∧ latest (Payload.upholds finding) early = none)

variable {finding ps}

theorem raises_of_mentions (h : p.mentions finding = some .finding) : p.raises finding = true := by
  unfold Payload.mentions at h
  split at h
  · assumption
  · split at h <;> cases h

theorem mentions_raise {r : ReviewFinding} (h : r.id = finding) :
    (Payload.reviewFinding r).mentions finding = some .finding := by
  simp [Payload.mentions, Payload.raises, h]

theorem first_mentions_cases : first (Payload.mentions finding) ps = none ∨
    first (Payload.mentions finding) ps = some .finding ∨
      first (Payload.mentions finding) ps = some .artifact := by
  cases hfirst : first (Payload.mentions finding) ps with
  | none => exact .inl rfl
  | some kind =>
    right
    obtain ⟨-, p, -, -, hp, -⟩ := (first_eq_some_iff _ _ _).1 hfirst
    unfold Payload.mentions at hp
    split at hp
    · cases hp
      exact .inl rfl
    · split at hp <;> cases hp
      exact .inr rfl

theorem UpheldOnce.first_mentions (h : UpheldOnce finding ps) :
    first (Payload.mentions finding) ps = some .finding := by
  obtain ⟨before, p, after, rfl, hfirst, -⟩ := h
  rw [first_append, hfirst, Option.some_or]

theorem about_of_unraised (h : ∀ p ∈ ps, p.raises finding = false) (l : String) :
    l ∉ (run (step finding) start ps).about := by
  have hraised : ∀ p ∈ ps, ¬p.raises finding = true := by
    intro p hp htrue
    rw [h p hp] at htrue
    cases htrue
  have hkind : first (Payload.mentions finding) ps ≠ some .finding := by
    intro hfirst
    obtain ⟨init, p, post, rfl, hp, -⟩ := (first_eq_some_iff _ _ _).1 hfirst
    exact hraised p (by simp) (raises_of_mentions hp)
  rw [run_about_of_other finding ps hkind]
  rintro ⟨p, hp, htrue, -⟩
  exact hraised p hp htrue

/-- The disposal shows what the log says exactly where it is neither misnamed nor marked stale. -/
theorem aboutHolds_iff : AboutHolds finding ps (· ∈ (run (step finding) start ps).about) ↔
    ¬Misnamed finding ps ∧ ¬MarkedStale finding ps := by
  rcases exists_latestRaise finding ps with hnone | ⟨before, r, since, hlatest⟩
  · have hnever : ∀ before r since, ¬LatestRaise finding ps before r since := by
      rintro before r since ⟨rfl, hid, -⟩
      have := hnone (.reviewFinding r) (by simp)
      simp [Payload.raises, hid] at this
    refine iff_of_true ⟨fun before r since h => absurd h (hnever before r since),
      fun l hl => absurd hl (about_of_unraised hnone l)⟩ ⟨?_, ?_⟩
    · rintro ⟨-, -, p, hp, hraise, -⟩
      rw [hnone p hp] at hraise
      cases hraise
    · rintro ⟨before, r, since, h, -⟩
      exact hnever before r since h
  have hstanding := hlatest.standing_iff
  obtain ⟨hps, hid, hsince⟩ := hlatest
  -- the kind the id had when it was raised, none where it was not mentioned
  have hfirst : first (Payload.mentions finding) ps =
      (first (Payload.mentions finding) before).or (some .finding) := by
    rw [hps, first_append, ← List.singleton_append, first_append]
    simp [first, mentions_raise hid]
  by_cases hart : first (Payload.mentions finding) before = some .artifact
  · rw [hart, Option.some_or] at hfirst
    have habout : ∀ l, l ∈ (run (step finding) start ps).about ↔
        ∃ p ∈ ps, p.raises finding = true ∧ l ∈ p.named :=
      run_about_of_other finding ps (by rw [hfirst]; decide)
    have hstale : ¬MarkedStale finding ps := by
      rintro ⟨before', r', since', h', -, hupheld, -⟩
      obtain ⟨rfl, -, -⟩ := LatestRaise.unique ⟨hps, hid, hsince⟩ h'
      rw [hupheld.first_mentions] at hart
      cases hart
    have hmem : Payload.reviewFinding r ∈ ps := by simp [hps]
    have hraises : (Payload.reviewFinding r).raises finding = true := by
      simp [Payload.raises, hid]
    constructor
    · rintro ⟨-, hshown⟩
      refine ⟨?_, hstale⟩
      rintro ⟨-, hnot, p, hp, hraise, hnamed⟩
      obtain ⟨l, hl⟩ := List.exists_mem_of_ne_nil _ hnamed
      exact hnot (hshown l ((habout l).2 ⟨p, hp, hraise, hl⟩))
    · rintro ⟨hmis, -⟩
      have hshown : ∀ l, l ∈ (run (step finding) start ps).about → Standing finding ps := by
        intro l hl
        by_contra hnot
        obtain ⟨p, hp, hraise, hnamed⟩ := (habout l).1 hl
        exact hmis ⟨hfirst, hnot, p, hp, hraise, List.ne_nil_of_mem hnamed⟩
      refine ⟨fun before' r' since' h' l hl => ⟨hshown l, fun _ => (habout l).2 ?_⟩, hshown⟩
      obtain ⟨-, rfl, -⟩ := LatestRaise.unique ⟨hps, hid, hsince⟩ h'
      exact ⟨_, hmem, hraises, hl⟩
  · have hkind : (run (step finding) start before).kind.getD .finding = .finding := by
      rw [run_kind]
      rcases @first_mentions_cases finding before with hb | hb | hb
      · rw [hb]
        rfl
      · rw [hb]
        rfl
      · exact absurd hb hart
    have hmis : ¬Misnamed finding ps := by
      rintro ⟨hfart, -⟩
      rw [hfirst] at hfart
      cases hb : first (Payload.mentions finding) before with
      | none => rw [hb] at hfart; cases hfart
      | some kind =>
        rw [hb, Option.some_or] at hfart
        exact hart (hb.trans hfart)
    have hrun : run (step finding) start ps = run (step finding)
        ⟨some .finding, (run (step finding) start before).upheld, some r.unit,
          (run (step finding) start before).about ++ locations r.about r.file⟩ since := by
      rw [hps, run_append, run_cons, step_raise _ _ r hid, hkind]
    obtain ⟨-, -, -, habout⟩ := run_since finding
      ⟨some .finding, (run (step finding) start before).upheld, some r.unit,
        (run (step finding) start before).about ++ locations r.about r.file⟩ rfl hsince
    rw [hrun]
    simp only [lapsed_iff, run_upheld] at habout
    constructor
    · rintro ⟨hlocated, -⟩
      refine ⟨hmis, ?_⟩
      rintro ⟨before', r', since', h', hlocations, hupheld, hnot, hearly⟩
      obtain ⟨rfl, rfl, rfl⟩ := LatestRaise.unique ⟨hps, hid, hsince⟩ h'
      obtain ⟨l, hl⟩ := List.exists_mem_of_ne_nil _ hlocations
      have hlive := (hlocated _ _ _ h' l hl).2 (hstanding.2 hnot)
      exact ((habout l).1 hlive).2 (.inr ⟨hupheld, hearly⟩)
    · rintro ⟨-, hstale⟩
      refine ⟨fun before' r' since' h' l hl => ?_, fun l hl => ?_⟩
      · obtain ⟨rfl, rfl, rfl⟩ := LatestRaise.unique ⟨hps, hid, hsince⟩ h'
        rw [hstanding]
        refine (habout l).trans ⟨fun h hd => h.2 (.inl hd), fun hnot =>
          ⟨List.mem_append_right _ hl, ?_⟩⟩
        rintro (hd | ⟨hupheld, hearly⟩)
        · exact hnot hd
        · exact hstale ⟨before, r, since, h', List.ne_nil_of_mem hl, hupheld, hnot, hearly⟩
      · rw [hstanding]
        exact fun hd => ((habout l).1 hl).2 (.inl hd)

end

end Disposal

end Rigger.Graph
