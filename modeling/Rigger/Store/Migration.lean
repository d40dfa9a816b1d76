import Mathlib.Order.Bounds.Basic
import Rigger.Store.Shed

/-!
# What the migration preserves

The log before and after `shed_derived`, read through `projectScopedLatestGenerations`.  The
migration leaves no derived row, and changes nothing but derived rows and the date of one ledger
entry an identity.  An identity's latest generation survives unless a derived row whose bare
replay key is the identity's own name is the newest of its batch (`BareNewest`): the selection
takes such a key for the batch's latest generation and sets aside every keyed row of it, so none
is converted (`shedDerived_preserves_iff`).
-/

namespace Rigger

open Lib

namespace Store

/-! ## Latest recordings -/

section
variable {s : Store} {stream identity : String}

/-- Only perception records, so the read's rows answer for the stream. -/
theorem latest_perception {β : Type} (f : Row → Option β)
    (hf : ∀ r : Row, ¬perceptionTypes.contains r.2.type_ = true → f r = none) :
    latest f (s.perception stream) = latest f (s.streamRows stream) := by
  unfold perception
  rw [latest_filter]
  apply latest_congr
  intro r _
  split
  · rfl
  · rename_i h
    exact (hf r h).symm

variable {r : Row} {generation : String}

theorem recordingBy_of_not_perception (h : ¬perceptionTypes.contains r.2.type_ = true) :
    recordingBy identity r = none := if_neg h

theorem derivedBy_of_not_perception (h : ¬perceptionTypes.contains r.2.type_ = true) :
    derivedBy identity r = none :=
  if_neg fun hd => h (mem_perceptionTypes.2 (Or.inl hd))

theorem entryBy_of_not_perception (h : ¬perceptionTypes.contains r.2.type_ = true) :
    entryBy identity r = none :=
  if_neg fun hl => h (mem_perceptionTypes.2 (Or.inr hl))

theorem getElem?_latestGenerations (s : Store) (stream identity : String) :
    (projectScopedLatestGenerations (s.log stream))[identity]? =
      latest (recordingBy identity) (s.streamRows stream) := by
  rw [getElem?_projectScopedLatestGenerations, log, latest_map]
  rfl

theorem latest_recordingBy_of_kind {rows : List Row} {derived : Bool}
    (h : latest (kindBy identity) rows = some derived) :
    latest (recordingBy identity) rows =
      latest (if derived then derivedBy identity else entryBy identity) rows := by
  obtain ⟨init, x, post, rfl, hx, hpost⟩ := (latest_eq_some_iff _ _ _).1 h
  have hnone : ∀ y ∈ post, derivedBy identity y = none ∧ entryBy identity y = none :=
    fun y hy => (kindBy_eq_none_iff identity).1 (hpost y hy)
  have hrecording : latest (recordingBy identity) post = none := by
    apply (latest_eq_none_iff _ _).2
    intro y hy
    rw [recordingBy_eq, (hnone y hy).1, (hnone y hy).2]
    rfl
  have hkind : latest (if derived then derivedBy identity else entryBy identity) post = none := by
    apply (latest_eq_none_iff _ _).2
    intro y hy
    cases derived
    · exact (hnone y hy).2
    · exact (hnone y hy).1
  rw [latest_append, latest_append, latest_cons, latest_cons, hrecording, hkind, Option.none_or,
    Option.none_or, recordingBy_eq]
  unfold kindBy at hx
  cases hd : derivedBy identity x with
  | some g =>
    rw [hd] at hx
    cases hx
    simp [hd]
  | none =>
    cases he : entryBy identity x with
    | some g =>
      rw [hd, he] at hx
      cases hx
      simp [he]
    | none =>
      rw [hd, he] at hx
      cases hx

/-! ## Batches and identities -/

/-- What a derived row records of the batch named `identity`: the generation of a key of the
identity, or none under the bare key `identity` itself. -/
theorem batchGeneration_eq_some_iff {c : Columns} :
    batchGeneration identity c = some generation ↔ isDerivedIndexType c.type_ = true ∧
      (named c.meta_ = some (identity, generation) ∨
        c.meta_[metaReplayKey]? = some identity ∧ derivedKeyParts identity = none ∧
          generation = "") := by
  unfold batchGeneration named
  by_cases hd : isDerivedIndexType c.type_ = true
  · rw [if_pos hd, and_iff_right hd]
    cases hkey : c.meta_[metaReplayKey]? with
    | none => simp
    | some key =>
      rw [Option.bind_some, Option.bind_some, batchKey]
      cases hparts : derivedKeyParts key with
      | none =>
        by_cases hi : key = identity
        · subst hi
          simp [hparts, eq_comm]
        · simp [hi]
      | some p =>
        by_cases hi : key = identity
        · subst hi
          by_cases hp : p.1 = key
          · simp [hparts, hp, Prod.ext_iff]
          · simp [hparts, hp, Prod.ext_iff]
        · by_cases hp : p.1 = identity
          · simp [hi, hp, Prod.ext_iff]
          · simp [hi, hp, Prod.ext_iff]
  · rw [if_neg hd]
    simp [hd]

theorem generation_ne_empty {meta_ : Meta} (h : named meta_ = some (identity, generation)) :
    generation ≠ "" := by
  obtain ⟨key, -, hparts⟩ := Option.bind_eq_some_iff.1 h
  obtain ⟨k, -, -, rfl⟩ := (derivedKeyParts_eq_some_iff _ _ _).1 hparts
  exact k.generation_ne

/-- The newest derived row of the batch named `identity` carries the bare key `identity`, which is
no replay key. -/
def BareNewest (s : Store) (stream identity : String) : Prop :=
  ∃ init r post, s.streamRows stream = init ++ r :: post ∧ isDerivedIndexType r.2.type_ = true ∧
    r.2.meta_[metaReplayKey]? = some identity ∧ derivedKeyParts identity = none ∧
    ∀ y ∈ post, isDerivedIndexType y.2.type_ = true →
      y.2.meta_[metaReplayKey]? ≠ some identity ∧ ∀ g, named y.2.meta_ ≠ some (identity, g)

theorem bareNewest_iff : s.BareNewest stream identity ↔
    s.latestBatchGeneration stream identity = some "" := by
  unfold BareNewest latestBatchGeneration
  rw [latest_eq_some_iff]
  constructor
  · rintro ⟨init, r, post, hrows, hderived, hkey, hparts, hpost⟩
    refine ⟨init, r, post, hrows,
      batchGeneration_eq_some_iff.2 ⟨hderived, Or.inr ⟨hkey, hparts, rfl⟩⟩, fun y hy => ?_⟩
    cases hy' : batchGeneration identity y.2 with
    | none => rfl
    | some g =>
      obtain ⟨hd, hnamed | ⟨hbare, -, -⟩⟩ := batchGeneration_eq_some_iff.1 hy'
      · exact absurd hnamed ((hpost y hy hd).2 g)
      · exact absurd hbare (hpost y hy hd).1
  · rintro ⟨init, r, post, hrows, hr, hpost⟩
    obtain ⟨hderived, hnamed | ⟨hkey, hparts, -⟩⟩ := batchGeneration_eq_some_iff.1 hr
    · exact absurd rfl (generation_ne_empty hnamed)
    · refine ⟨init, r, post, hrows, hderived, hkey, hparts, fun y hy hd => ⟨fun hbare => ?_,
        fun g hnamed => ?_⟩⟩
      · have := batchGeneration_eq_some_iff.2 ⟨hd, Or.inr ⟨hbare, hparts, rfl⟩⟩
        rw [hpost y hy] at this
        cases this
      · have := batchGeneration_eq_some_iff.2 ⟨hd, Or.inl hnamed⟩
        rw [hpost y hy] at this
        cases this

/-- A batch whose newest row is keyed has that row's generation as its identity's latest. -/
theorem latest_derivedBy_of_batch (h : s.latestBatchGeneration stream identity = some generation)
    (hne : generation ≠ "") :
    latest (derivedBy identity) (s.streamRows stream) = some generation := by
  obtain ⟨init, r, post, hrows, hr, hpost⟩ := (latest_eq_some_iff _ _ _).1 h
  obtain ⟨hderived, hnamed | ⟨-, -, hempty⟩⟩ := batchGeneration_eq_some_iff.1 hr
  · refine (latest_eq_some_iff _ _ _).2
      ⟨init, r, post, hrows, derivedBy_eq_some_iff.2 ⟨hderived, hnamed⟩, fun y hy => ?_⟩
    cases hy' : derivedBy identity y with
    | none => rfl
    | some g =>
      obtain ⟨hd, hn⟩ := derivedBy_eq_some_iff.1 hy'
      have := batchGeneration_eq_some_iff.2 ⟨hd, Or.inl hn⟩
      rw [hpost y hy] at this
      cases this
  · exact absurd hempty hne

/-- The fate of a derived row of an identity: it is not of its batch's latest generation, or a later
one of the generation repeats its exact key. -/
theorem mem_shed_iff (hr : r ∈ s.streamRows stream) (h : derivedBy identity r = some generation) :
    r.1 ∈ s.shedByThePlan stream ↔
      s.latestBatchGeneration stream identity ≠ some generation ∨
        ∃ y ∈ s.streamRows stream, r.1 < y.1 ∧ derivedBy identity y = some generation ∧
          y.2.type_ = r.2.type_ ∧ y.2.meta_[metaReplayKey]? = r.2.meta_[metaReplayKey]? := by
  obtain ⟨hd, hnamed⟩ := derivedBy_eq_some_iff.1 h
  obtain ⟨key, hkey, hparts⟩ := Option.bind_eq_some_iff.1 hnamed
  have hbatch : batchKey key = (identity, generation) := by rw [batchKey, hparts, Option.getD_some]
  rw [mem_shedByThePlan hr hd hkey, hbatch, hkey]
  refine or_congr_right (exists_congr fun y => and_congr_right fun _ => and_congr_right fun _ => ?_)
  constructor
  · rintro ⟨htype, hykey⟩
    refine ⟨derivedBy_eq_some_iff.2 ⟨htype ▸ hd, ?_⟩, htype, hykey⟩
    rw [named, hykey, Option.bind_some, hparts]
  · exact And.right

/-- An identity's last derived row is kept exactly when its generation is its batch's latest. -/
theorem kept_iff (hr : r ∈ s.streamRows stream) (h : derivedBy identity r = some generation)
    (hlast : ∀ y ∈ s.streamRows stream, r.1 < y.1 → derivedBy identity y = none) :
    r.1 ∉ s.shedByThePlan stream ↔
      s.latestBatchGeneration stream identity = some generation := by
  rw [mem_shed_iff hr h, not_or, not_not, and_iff_left]
  rintro ⟨y, hy, hlt, hd, -⟩
  rw [hlast y hy hlt] at hd
  cases hd

theorem batch_of_kept (hr : r ∈ s.streamRows stream) (h : derivedBy identity r = some generation)
    (hkept : r.1 ∉ s.shedByThePlan stream) :
    s.latestBatchGeneration stream identity = some generation := by
  rw [mem_shed_iff hr h, not_or, not_not] at hkept
  exact hkept.1

/-- Where an identity's last derived row is shed, a bare key is the newest of its batch. -/
theorem bareNewest_of_shed (hr : r ∈ s.streamRows stream)
    (h : derivedBy identity r = some generation)
    (hlast : ∀ y ∈ s.streamRows stream, r.1 < y.1 → derivedBy identity y = none)
    (hshed : r.1 ∈ s.shedByThePlan stream) : s.BareNewest stream identity := by
  have hnot : s.latestBatchGeneration stream identity ≠ some generation := fun hbatch =>
    (kept_iff hr h hlast).2 hbatch hshed
  have hsome : (s.latestBatchGeneration stream identity).isSome = true := by
    refine (latest_isSome_iff _ _).2 ⟨r, hr, ?_⟩
    obtain ⟨hd, hnamed⟩ := derivedBy_eq_some_iff.1 h
    rw [batchGeneration_eq_some_iff.2 ⟨hd, Or.inl hnamed⟩]
    rfl
  obtain ⟨newest, hnewest⟩ := Option.isSome_iff_exists.1 hsome
  by_cases hempty : newest = ""
  · rw [bareNewest_iff, hnewest, hempty]
  · -- a keyed newest row would be the identity's last derived row itself
    have hkeyed := latest_derivedBy_of_batch hnewest hempty
    have hself : latest (derivedBy identity) (s.streamRows stream) = some generation := by
      obtain ⟨init, post, hsplit⟩ := List.append_of_mem hr
      have hsorted := sorted_streamRows s stream
      rw [hsplit] at hsorted
      refine (latest_eq_some_iff _ _ _).2 ⟨init, r, post, hsplit, h, fun y hy => ?_⟩
      refine hlast y (by rw [hsplit]; simp [hy]) ?_
      exact (List.pairwise_cons.1 (List.pairwise_append.1 hsorted).2.1).1 y hy
    rw [hself] at hkeyed
    rw [hnewest, ← hkeyed] at hnot
    exact absurd rfl hnot

/-! ## The row an identity's entry is made of -/

/-- The position and generation of the row the migration converts for an identity. -/
def converted (s : Store) (stream identity : String) : Option (Nat × String) :=
  (s.migrationRead stream).identities[identity]?.bind fun d =>
    if d.latestIsDerived then d.kept else none

variable {position : Nat}

/-- The converted row is kept, is the identity's, and no entry of it follows. -/
theorem converted_row (h : s.converted stream identity = some (position, generation)) :
    ∃ init r post, s.perception stream = init ++ r :: post ∧
      derivedBy identity r = some generation ∧ r.1 = position ∧
      r.1 ∉ s.shedByThePlan stream ∧ ∀ y ∈ post, entryBy identity y = none := by
  obtain ⟨d, hd, hkept⟩ := Option.bind_eq_some_iff.1 h
  split at hkept
  · have hfirst := identities_kept identity (s.shedByThePlan stream) (s.perception stream)
    rw [← identities_migrationRead, hd, Option.bind_some, hkept] at hfirst
    obtain ⟨init, r, post, hsince, hr, -⟩ := (first_eq_some_iff _ _ _).1 hfirst.symm
    obtain ⟨before, hbefore⟩ := List.rtakeWhile_suffix
      (fun r => (entryBy identity r).isNone) (s.perception stream)
    have hentries : ∀ y ∈ sinceEntry identity (s.perception stream), entryBy identity y = none :=
      fun y hy => Option.isNone_iff_eq_none.1
        (List.mem_rtakeWhile_imp (p := fun r => (entryBy identity r).isNone) hy)
    rw [hsince] at hentries
    obtain ⟨hshed, hgeneration, hposition⟩ := (keptBy_eq_some_iff _ _).1 hr
    refine ⟨before ++ init, r, post, ?_, hgeneration, hposition, hshed,
      fun y hy => hentries y (by simp [hy])⟩
    rw [← hbefore, List.append_assoc, ← hsince]
    rfl
  · cases hkept

theorem perception_subset (hr : r ∈ s.perception stream) : r ∈ s.streamRows stream :=
  (mem_perception.1 hr).1

theorem sorted_perception (s : Store) (stream : String) :
    (s.perception stream).Pairwise fun a b => a.1 < b.1 :=
  (sorted_streamRows s stream).sublist List.filter_sublist

theorem converted_latest (h : s.converted stream identity = some (position, generation)) :
    latest (recordingBy identity) (s.streamRows stream) = some generation := by
  obtain ⟨init, r, post, hrows, hr, -, hkept, -⟩ := converted_row h
  have hmem : r ∈ s.perception stream := by
    rw [hrows]
    simp
  obtain ⟨d, hd, hsome⟩ := Option.bind_eq_some_iff.1 h
  split at hsome
  · rename_i hlatest
    rw [identities_migrationRead] at hd
    have hkind := identities_latest identity _ _ hd
    rw [hlatest] at hkind
    have hrecording := latest_recordingBy_of_kind hkind
    rw [latest_perception _ fun r => recordingBy_of_not_perception, if_pos rfl,
      latest_perception _ fun r => derivedBy_of_not_perception] at hrecording
    rw [hrecording]
    exact latest_derivedBy_of_batch (batch_of_kept (perception_subset hmem) hr hkept)
      (generation_ne_empty (derivedBy_eq_some_iff.1 hr).2)
  · cases hsome

theorem latest_of_not_derived (h : (s.migrationRead stream).identities[identity]? = none) :
    latest (entryBy identity) (s.streamRows stream) =
      latest (recordingBy identity) (s.streamRows stream) := by
  have hleast := identities_earliest identity (s.shedByThePlan stream) (s.perception stream)
  rw [← identities_migrationRead, h, Option.map_none, eq_comm, least_eq_none_iff] at hleast
  rw [← latest_perception _ fun r => entryBy_of_not_perception,
    ← latest_perception _ fun r => recordingBy_of_not_perception]
  apply latest_congr
  intro r hr
  rw [recordingBy_eq, Option.map_eq_none_iff.1 (hleast r hr), Option.none_or]

/-- A derived row that is the identity's last recording follows its last entry, so the selection
alone can set it aside. -/
theorem shed_of_not_converted {d : DerivedRecordings} {init post : List Row}
    (hd : (s.migrationRead stream).identities[identity]? = some d) (hkept : d.kept = none)
    (hrows : s.perception stream = init ++ r :: post)
    (hr : ∃ generation, derivedBy identity r = some generation)
    (hpost : ∀ y ∈ post, entryBy identity y = none) : r.1 ∈ s.shedByThePlan stream := by
  obtain ⟨generation, hgeneration⟩ := hr
  have hfirst := identities_kept identity (s.shedByThePlan stream) (s.perception stream)
  have hentries : ∀ y ∈ r :: post, entryBy identity y = none :=
    List.forall_mem_cons.2 ⟨entryBy_eq_none_of_derived hgeneration, hpost⟩
  rw [← identities_migrationRead, hd, Option.bind_some, hkept, hrows,
    sinceEntry_append identity hentries, eq_comm, first_eq_none_iff] at hfirst
  refine ((keptBy_eq_none_iff _ _).1 (hfirst r (by simp))).resolve_right fun hnone => ?_
  rw [hgeneration] at hnone
  cases hnone

/-- Where nothing is converted, the identity's entries hold its latest generation, or a bare key
is the newest of its batch. -/
theorem not_converted (h : s.converted stream identity = none) :
    latest (entryBy identity) (s.streamRows stream) =
        latest (recordingBy identity) (s.streamRows stream) ∨ s.BareNewest stream identity := by
  unfold converted at h
  cases hd : (s.migrationRead stream).identities[identity]? with
  | none => exact Or.inl (latest_of_not_derived hd)
  | some d =>
    have hkind := identities_latest identity _ _
      ((identities_migrationRead s stream identity).symm.trans hd)
    rw [hd, Option.bind_some] at h
    cases hlatest : d.latestIsDerived with
    | false =>
      apply Or.inl
      rw [hlatest] at hkind
      have hrecording := latest_recordingBy_of_kind hkind
      rw [latest_perception _ fun r => recordingBy_of_not_perception] at hrecording
      rw [hrecording, ← latest_perception _ fun r => entryBy_of_not_perception]
      rfl
    | true =>
      apply Or.inr
      rw [hlatest, if_pos rfl] at h
      rw [hlatest] at hkind
      obtain ⟨init, r, post, hrows, hr, hpost⟩ := (latest_eq_some_iff _ _ _).1 hkind
      have hnone : ∀ y ∈ post, derivedBy identity y = none ∧ entryBy identity y = none :=
        fun y hy => (kindBy_eq_none_iff identity).1 (hpost y hy)
      obtain ⟨generation, hgeneration⟩ := (kindBy_eq_true_iff identity).1 hr
      have hmem : r ∈ s.perception stream := by
        rw [hrows]
        simp
      refine bareNewest_of_shed (perception_subset hmem) hgeneration (fun y hy hlt => ?_)
        (shed_of_not_converted hd h hrows ⟨generation, hgeneration⟩ fun y hy => (hnone y hy).2)
      by_cases hp : perceptionTypes.contains y.2.type_ = true
      · have hsorted := sorted_perception s stream
        have hyp : y ∈ s.perception stream := mem_perception.2 ⟨hy, hp⟩
        rw [hrows] at hsorted hyp
        rcases List.mem_append.1 hyp with hyp | hyp
        · have := (List.pairwise_append.1 hsorted).2.2 y hyp r List.mem_cons_self
          omega
        · rcases List.mem_cons.1 hyp with rfl | hyp
          · omega
          · exact (hnone y hyp).1
      · exact derivedBy_of_not_perception hp

theorem not_converted_of_bare (h : s.BareNewest stream identity) :
    s.converted stream identity = none := by
  cases hc : s.converted stream identity with
  | none => rfl
  | some c =>
    obtain ⟨position, generation⟩ := c
    obtain ⟨init, r, post, hrows, hr, -, hkept, -⟩ := converted_row hc
    have hmem : r ∈ s.perception stream := by
      rw [hrows]
      simp
    have hbatch := batch_of_kept (perception_subset hmem) hr hkept
    rw [bareNewest_iff.1 h, Option.some.injEq] at hbatch
    exact absurd hbatch.symm (generation_ne_empty (derivedBy_eq_some_iff.1 hr).2)

end

/-! ## The rows after -/

section
variable (entryOf : String → String × Bool) (read : DerivedRead) (identity : String)
  (d : DerivedRecordings) (p : Nat) (c : Columns)

theorem migrateRow_of_not_converted
    (h : ∀ event, conversion entryOf identity d ≠ some (p, event)) :
    ∃ t, migrateRow entryOf read identity d p c = { c with validFrom := t } := by
  have hconvert : convertRow (conversion entryOf identity d) p c = c := by
    cases hc : conversion entryOf identity d with
    | none => rfl
    | some x => exact if_neg fun heq => h x.2 (by rw [hc, heq])
  rw [migrateRow, hconvert, redateRow]
  split
  · exact ⟨_, rfl⟩
  · exact ⟨c.validFrom, rfl⟩

theorem migrateRow_of_converted {event : Event}
    (h : conversion entryOf identity d = some (p, event)) :
    (migrateRow entryOf read identity d p c).type_ = event.type_ ∧
      (migrateRow entryOf read identity d p c).meta_ = event.meta_ := by
  have hconvert : convertRow (conversion entryOf identity d) p c =
      { c with type_ := event.type_, data := event.data, meta_ := event.meta_ } := by
    rw [h]
    exact if_pos rfl
  rw [migrateRow, hconvert, redateRow]
  split <;> exact ⟨rfl, rfl⟩

theorem migrateRow_validFrom : (migrateRow entryOf read identity d p c).validFrom =
    if some p = surviving read.entries[identity]? (conversion entryOf identity d) then
      earliestOf read.entries[identity]? d
    else c.validFrom := by
  have hconvert : (convertRow (conversion entryOf identity d) p c).validFrom = c.validFrom := by
    cases conversion entryOf identity d with
    | none => rfl
    | some x =>
      show (if p = x.1 then _ else c : Columns).validFrom = _
      split <;> rfl
  rw [migrateRow, redateRow]
  split
  · rfl
  · exact hconvert

end

section
variable {s : Store} {stream identity : String} {entryOf : String → String × Bool}

theorem migrated_frame (r : Row) : SameFrame r.2 (s.migrated stream entryOf r) := by
  unfold migrated
  exact List.foldlRecOn _ _ ⟨rfl, rfl, rfl, rfl⟩ fun c hc x _ =>
    hc.trans (migrateRow_frame r.1 c entryOf (s.migrationRead stream) x.1 x.2)

variable {d : DerivedRecordings} {r : Row} {generation : String}

variable (entryOf) in
theorem conversion_eq (hd : (s.migrationRead stream).identities[identity]? = some d) :
    match s.converted stream identity with
    | some (position, generation) =>
      ∃ event, conversion entryOf identity d = some (position, event) ∧
        event.type_ = typeGenerationIngested ∧ named event.meta_ = some (identity, generation) ∧
        event.meta_[metaGroup]? = some identity
    | none => conversion entryOf identity d = none := by
  cases hc : s.converted stream identity with
  | none =>
    unfold converted at hc
    rw [hd, Option.bind_some] at hc
    show conversion entryOf identity d = none
    unfold conversion
    split
    · rename_i hlatest hkept _
      rw [hlatest, hkept] at hc
      cases hc
    · rfl
  | some c =>
    obtain ⟨position, generation⟩ := c
    obtain ⟨init, r, post, -, hr, -⟩ := converted_row hc
    obtain ⟨key, -, hparts⟩ := Option.bind_eq_some_iff.1 (derivedBy_eq_some_iff.1 hr).2
    obtain ⟨pre, file, hid, hnamed⟩ := Named.of_parts hparts
    unfold converted at hc
    rw [hd, Option.bind_some] at hc
    split at hc
    · rename_i hlatest
      have hidentity : pre ++ "/" ++ file = identity :=
        ((identityParts_eq_some_iff _ _ _).1 hid).1.symm
      let entry : GenerationIngested :=
        ⟨pre, file, generation, (entryOf identity).1, (entryOf identity).2⟩
      refine ⟨entry.event ("", 0) (d.keys.filter fun k => k.1 == generation).length, ?_, rfl,
        ?_, ?_⟩
      · unfold conversion
        rw [hlatest, hc, hid]
      · rw [named_event (hnamed _ _)]
        exact congrArg (fun i => some (i, generation)) hidentity
      · rw [GenerationIngested.event_group]
        exact congrArg some hidentity
    · cases hc

/-- The row at the converted position is the identity's kept derived row. -/
theorem derivedBy_of_converted (hr : r ∈ s.rows)
    (h : s.converted stream identity = some (r.1, generation)) :
    r ∈ s.perception stream ∧ derivedBy identity r = some generation := by
  obtain ⟨init, x, post, hrows, hx, hpos, -⟩ := converted_row h
  have hmem : x ∈ s.perception stream := by
    rw [hrows]
    simp
  have hxr : x = r := Table.eq_of_position (mem_streamRows.1 (perception_subset hmem)).1 hr hpos
  subst hxr
  exact ⟨hmem, hx⟩

variable (entryOf) in
/-- A ledger entry changes at most in its date. -/
theorem migrated_entry (hr : r ∈ s.perception stream) (he : entryBy identity r = some generation) :
    ∃ t, s.migrated stream entryOf r = { r.2 with validFrom := t } := by
  have hd : derivedBy identity r = none := derivedBy_eq_none_of_entry he
  have hrec : recordingBy identity r = some generation := by
    rw [recordingBy_eq, hd, he, Option.none_or]
  rw [migrated_of_named hr hrec]
  cases hid : (s.migrationRead stream).identities[identity]? with
  | none => exact ⟨r.2.validFrom, rfl⟩
  | some d =>
    apply migrateRow_of_not_converted _ _ _ _ _ _
    intro event hconv
    obtain ⟨x, hx, g, hg, hpos, -⟩ := conversion_row hid hconv
    have hxr : x = r := Table.eq_of_position (mem_streamRows.1 (perception_subset hx)).1
      (mem_streamRows.1 (perception_subset hr)).1 hpos
    rw [hxr, hd] at hg
    cases hg

variable (entryOf) in
/-- A keyed derived row becomes its identity's entry, or changes at most in its date. -/
theorem migrated_derived (hr : r ∈ s.perception stream)
    (hd : derivedBy identity r = some generation) :
    (s.converted stream identity = some (r.1, generation) ∧
        (s.migrated stream entryOf r).type_ = typeGenerationIngested ∧
        named (s.migrated stream entryOf r).meta_ = some (identity, generation) ∧
        (s.migrated stream entryOf r).meta_[metaGroup]? = some identity) ∨
      (∀ g, s.converted stream identity ≠ some (r.1, g)) ∧
        ∃ t, s.migrated stream entryOf r = { r.2 with validFrom := t } := by
  have hrows := (mem_streamRows.1 (perception_subset hr)).1
  have hrec : recordingBy identity r = some generation := by
    rw [recordingBy_eq, hd, Option.some_or]
  rw [migrated_of_named hr hrec]
  cases hid : (s.migrationRead stream).identities[identity]? with
  | none =>
    refine Or.inr ⟨fun g hc => ?_, r.2.validFrom, rfl⟩
    rw [converted, hid] at hc
    cases hc
  | some d =>
    have hconv := conversion_eq entryOf hid
    cases hc : s.converted stream identity with
    | none =>
      rw [hc] at hconv
      refine Or.inr ⟨(nofun), migrateRow_of_not_converted _ _ _ _ _ _ fun event h => ?_⟩
      rw [show conversion entryOf identity d = none from hconv] at h
      cases h
    | some c =>
      obtain ⟨position, g⟩ := c
      rw [hc] at hconv
      obtain ⟨event, hevent, htype, hnamed, hgroup⟩ := hconv
      by_cases hpos : position = r.1
      · subst hpos
        have hg := (derivedBy_of_converted hrows hc).2
        rw [hd, Option.some.injEq] at hg
        subst hg
        obtain ⟨ht, hm⟩ := migrateRow_of_converted entryOf (s.migrationRead stream) identity d r.1
          r.2 hevent
        refine Or.inl ⟨rfl, ht.trans htype, ?_, ?_⟩
        · show named (migrateRow entryOf _ identity d r.1 r.2).meta_ = _
          rw [hm, hnamed]
        · show (migrateRow entryOf _ identity d r.1 r.2).meta_[metaGroup]? = _
          rw [hm, hgroup]
      · refine Or.inr ⟨fun g' h => ?_, migrateRow_of_not_converted _ _ _ _ _ _ fun ev h => ?_⟩
        · rw [Option.some.injEq, Prod.mk.injEq] at h
          exact hpos h.1
        · rw [hevent, Option.some.injEq, Prod.mk.injEq] at h
          exact hpos h.1

/-- The generation a row of the stream records of `identity` once migrated: an entry's own, and the
converted row's. -/
def survivingBy (s : Store) (stream identity : String) (r : Row) : Option String :=
  (entryBy identity r).or
    ((s.converted stream identity).bind fun c => if c.1 = r.1 then some c.2 else none)

theorem survivingBy_of_not_converted (h : ∀ g, s.converted stream identity ≠ some (r.1, g)) :
    s.survivingBy stream identity r = entryBy identity r := by
  unfold survivingBy
  cases hc : s.converted stream identity with
  | none => rw [Option.bind_none, Option.or_none]
  | some c =>
    have hne : ¬c.1 = r.1 := fun heq => h c.2 (by rw [hc, ← heq])
    rw [Option.bind_some, if_neg hne, Option.or_none]

theorem survivingBy_of_not_derived (hr : r ∈ s.rows) (h : derivedBy identity r = none) :
    s.survivingBy stream identity r = entryBy identity r := by
  apply survivingBy_of_not_converted
  intro g hc
  rw [(derivedBy_of_converted hr hc).2] at h
  cases h

/-- The generation a row records of `identity` after the migration, which sheds derived rows. -/
def recordingAfter (s : Store) (stream : String) (entryOf : String → String × Bool)
    (identity : String) (r : Row) : Option String :=
  if isDerivedIndexType (s.migrated stream entryOf r).type_ then none
  else recordingBy identity (r.1, s.migrated stream entryOf r)

theorem recordingAfter_unchanged {t : Int}
    (h : s.migrated stream entryOf r = { r.2 with validFrom := t }) :
    s.recordingAfter stream entryOf identity r = entryBy identity r := by
  rw [recordingAfter, h]
  show (if isDerivedIndexType r.2.type_ = true then none else recordingBy identity r) = _
  split
  · rename_i hd
    exact (entryBy_of_derived_type hd).symm
  · rename_i hd
    have hnone : derivedBy identity r = none := if_neg hd
    rw [recordingBy_eq, hnone, Option.none_or]

theorem recordingAfter_derived {own : String} (hr : r ∈ s.perception stream)
    (hown : derivedBy own r = some generation) :
    s.recordingAfter stream entryOf identity r = s.survivingBy stream identity r := by
  have hrows := (mem_streamRows.1 (perception_subset hr)).1
  have hnamed := (derivedBy_eq_some_iff.1 hown).2
  have hself : ∀ g, s.converted stream identity = some (r.1, g) → own = identity := by
    intro g hc
    have hd := (derivedBy_eq_some_iff.1 (derivedBy_of_converted hrows hc).2).2
    rw [hnamed, Option.some.injEq, Prod.mk.injEq] at hd
    exact hd.1
  have hentry : entryBy identity r = none :=
    entryBy_of_derived_type (derivedBy_eq_some_iff.1 hown).1
  rcases migrated_derived entryOf hr hown with ⟨hc, htype, hafter, -⟩ | ⟨hc, t, hm⟩
  · have hkept : ¬isDerivedIndexType (s.migrated stream entryOf r).type_ = true := by
      rw [htype]
      decide
    rw [recordingAfter, if_neg hkept]
    by_cases hsame : own = identity
    · subst hsame
      have hrec : recordingBy own (r.1, s.migrated stream entryOf r) = some generation :=
        recordingBy_eq_some_iff.2
          ⟨mem_perceptionTypes.2 (Or.inr (by rw [htype]; decide)), hafter⟩
      rw [hrec, survivingBy, hentry, hc, Option.none_or, Option.bind_some, if_pos rfl]
    · rw [survivingBy_of_not_converted fun g hc' => hsame (hself g hc'), hentry]
      cases hrec : recordingBy identity (r.1, s.migrated stream entryOf r) with
      | none => rfl
      | some g =>
        have hother := (recordingBy_eq_some_iff.1 hrec).2
        rw [show named (s.migrated stream entryOf r).meta_ = some (identity, g) from hother,
          Option.some.injEq, Prod.mk.injEq] at hafter
        exact absurd hafter.1.symm hsame
  · rw [recordingAfter_unchanged hm, survivingBy_of_not_converted]
    intro g hc'
    have hsame := hself g hc'
    subst hsame
    exact hc g hc'

variable (entryOf) in
/-- A migrated row is shed, or records what survives. -/
theorem recordingBy_migrated (hr : r ∈ s.streamRows stream) :
    s.recordingAfter stream entryOf identity r = s.survivingBy stream identity r := by
  have hrows := (mem_streamRows.1 hr).1
  have hunnamed : (r ∈ s.perception stream → named r.2.meta_ = none) →
      s.recordingAfter stream entryOf identity r = entryBy identity r := fun h =>
    recordingAfter_unchanged (t := r.2.validFrom) (migrated_of_unnamed hrows h)
  by_cases hp : r ∈ s.perception stream
  · cases hn : named r.2.meta_ with
    | none =>
      rw [hunnamed fun _ => hn, survivingBy_of_not_derived hrows]
      cases hd : derivedBy identity r with
      | none => rfl
      | some g =>
        rw [(derivedBy_eq_some_iff.1 hd).2] at hn
        cases hn
    | some n =>
      obtain ⟨own, generation⟩ := n
      rcases mem_perceptionTypes.1 (mem_perception.1 hp).2 with hderived | hledger
      · exact recordingAfter_derived hp (derivedBy_eq_some_iff.2 ⟨hderived, hn⟩)
      · obtain ⟨t, hm⟩ := migrated_entry entryOf hp (entryBy_eq_some_iff.2 ⟨hledger, hn⟩)
        rw [recordingAfter_unchanged hm,
          survivingBy_of_not_derived hrows (derivedBy_of_ledger_type hledger)]
  · have hnot : ¬perceptionTypes.contains r.2.type_ = true := fun h =>
      hp (mem_perception.2 ⟨hr, h⟩)
    rw [hunnamed fun h => absurd h hp,
      survivingBy_of_not_derived hrows (derivedBy_of_not_perception hnot)]

variable (s stream entryOf) in
/-- The stream after: every row migrated, the derived ones shed. -/
theorem streamRows_shedDerived : (s.shedDerived stream entryOf).2.streamRows stream =
    (s.streamRows stream).filterMap fun r =>
      if isDerivedIndexType (s.migrated stream entryOf r).type_ then none
      else some (r.1, s.migrated stream entryOf r) := by
  unfold streamRows
  rw [rows_shedDerived, List.filter_filter, List.filter_map, ← List.filterMap_eq_map,
    List.filterMap_filter, List.filterMap_filter]
  apply List.filterMap_congr
  intro r _
  have hstream : (s.migrated stream entryOf r).stream = r.2.stream := (migrated_frame r).1
  simp only [Function.comp, hstream]
  by_cases hr : r.2.stream = stream
  · by_cases hd : (s.migrated stream entryOf r).type_ ∈ derivedIndexTypes <;>
      simp [hr, isDerivedIndexType, hd]
  · simp [hr]

variable (entryOf) in
theorem latest_shedDerived : latest (recordingBy identity)
      ((s.shedDerived stream entryOf).2.streamRows stream) =
    latest (s.survivingBy stream identity) (s.streamRows stream) := by
  rw [streamRows_shedDerived, latest_filterMap]
  apply latest_congr
  intro r hr
  rw [← recordingBy_migrated entryOf hr, recordingAfter]
  split <;> rfl

theorem latest_survivingBy_of_not_converted (h : s.converted stream identity = none) :
    latest (s.survivingBy stream identity) (s.streamRows stream) =
      latest (entryBy identity) (s.streamRows stream) :=
  latest_congr fun r _ => survivingBy_of_not_converted (by rw [h]; exact nofun)

/-- A converted row is the identity's latest recording after, of the generation that was latest. -/
theorem latest_survivingBy_of_converted {position : Nat}
    (h : s.converted stream identity = some (position, generation)) :
    latest (s.survivingBy stream identity) (s.streamRows stream) = some generation := by
  obtain ⟨init, r, post, hrows, hr, rfl, -, hentries⟩ := converted_row h
  have hmem : r ∈ s.perception stream := by
    rw [hrows]
    simp
  obtain ⟨before, after, hsplit⟩ := List.append_of_mem (perception_subset hmem)
  have hsorted := sorted_streamRows s stream
  have hsorted' := sorted_perception s stream
  rw [hsplit] at hsorted
  rw [hrows] at hsorted'
  refine (latest_eq_some_iff _ _ _).2 ⟨before, r, after, hsplit, ?_, fun y hy => ?_⟩
  · rw [survivingBy, entryBy_eq_none_of_derived hr, h, Option.none_or, Option.bind_some, if_pos rfl]
  · have hlt : r.1 < y.1 :=
      (List.pairwise_cons.1 (List.pairwise_append.1 hsorted).2.1).1 y hy
    have hne : ∀ g, s.converted stream identity ≠ some (y.1, g) := by
      intro g hc
      rw [h, Option.some.injEq, Prod.mk.injEq] at hc
      omega
    rw [survivingBy_of_not_converted hne]
    cases he : entryBy identity y with
    | none => rfl
    | some g =>
      have hstream : y ∈ s.streamRows stream := by
        rw [hsplit]
        simp [hy]
      have hp : y ∈ s.perception stream :=
        mem_perception.2 ⟨hstream, mem_perceptionTypes.2 (Or.inr (entryBy_eq_some_iff.1 he).1)⟩
      rw [hrows] at hp
      rcases List.mem_append.1 hp with hp | hp
      · have := (List.pairwise_append.1 hsorted').2.2 y hp r List.mem_cons_self
        omega
      · rcases List.mem_cons.1 hp with rfl | hp
        · omega
        · rw [hentries y hp] at he
          cases he

/-- The generation an identity holds after the migration is the one it held, unless nothing was
converted and its entries held another. -/
theorem latest_shedDerived_eq_iff : latest (recordingBy identity)
      ((s.shedDerived stream entryOf).2.streamRows stream) =
        latest (recordingBy identity) (s.streamRows stream) ↔
    (s.BareNewest stream identity → latest (entryBy identity) (s.streamRows stream) =
      latest (recordingBy identity) (s.streamRows stream)) := by
  rw [latest_shedDerived]
  cases hc : s.converted stream identity with
  | some c =>
    rw [latest_survivingBy_of_converted hc, converted_latest hc]
    apply iff_of_true rfl
    intro hbare
    rw [not_converted_of_bare hbare] at hc
    cases hc
  | none =>
    rw [latest_survivingBy_of_not_converted hc]
    constructor
    · exact fun h _ => h
    · intro h
      rcases not_converted hc with heq | hbare
      · exact heq
      · exact h hbare

/-! ## The earliest entry after -/

/-- The stream's earliest ledger entry of an identity. -/
def FirstEntry (s : Store) (stream identity : String) (r : Row) : Prop :=
  r ∈ s.streamRows stream ∧ (∃ g, entryBy identity r = some g) ∧
    ∀ y ∈ s.streamRows stream, (∃ g, entryBy identity y = some g) → r.1 ≤ y.1

/-- The valid-times of an identity's recordings. -/
def dates (s : Store) (stream identity : String) : Set Int :=
  {t | ∃ r ∈ s.streamRows stream, (∃ g, recordingBy identity r = some g) ∧ r.2.validFrom = t}

theorem survivingBy_isSome_iff : (∃ g, s.survivingBy stream identity r = some g) ↔
    (∃ g, entryBy identity r = some g) ∨ ∃ g, s.converted stream identity = some (r.1, g) := by
  unfold survivingBy
  cases entryBy identity r with
  | some g => simp
  | none =>
    cases s.converted stream identity with
    | none => simp
    | some c =>
      by_cases hc : c.1 = r.1
      · simp [hc, Prod.ext_iff]
      · simp [hc, Prod.ext_iff]

theorem perception_of_entryBy (hr : r ∈ s.streamRows stream)
    (h : entryBy identity r = some generation) : r ∈ s.perception stream :=
  mem_perception.2 ⟨hr, mem_perceptionTypes.2 (Or.inr (entryBy_eq_some_iff.1 h).1)⟩

theorem perception_of_derivedBy (hr : r ∈ s.streamRows stream)
    (h : derivedBy identity r = some generation) : r ∈ s.perception stream :=
  mem_perception.2 ⟨hr, mem_perceptionTypes.2 (Or.inl (derivedBy_eq_some_iff.1 h).1)⟩

theorem entries_eq_none (h : (s.migrationRead stream).entries[identity]? = none)
    (hr : r ∈ s.streamRows stream) : entryBy identity r = none := by
  have hfirst := entries_first identity (s.perception stream)
  rw [← entries_migrationRead, h, Option.map_none, eq_comm, first_eq_none_iff] at hfirst
  cases he : entryBy identity r with
  | none => rfl
  | some g =>
    have := hfirst r (perception_of_entryBy hr he)
    rw [he] at this
    cases this

theorem entries_eq_some {e : EntryRecordings}
    (h : (s.migrationRead stream).entries[identity]? = some e) :
    ∃ r, s.FirstEntry stream identity r ∧ r.1 = e.first := by
  have hfirst := entries_first identity (s.perception stream)
  rw [← entries_migrationRead, h, Option.map_some] at hfirst
  obtain ⟨init, r, post, hrows, hr, hinit⟩ := (first_eq_some_iff _ _ _).1 hfirst.symm
  obtain ⟨g, hg, hpos⟩ := Option.map_eq_some_iff.1 hr
  have hsorted := sorted_perception s stream
  rw [hrows] at hsorted
  refine ⟨r, ⟨perception_subset (by rw [hrows]; simp), ⟨g, hg⟩, ?_⟩, hpos⟩
  rintro y hy ⟨g', hg'⟩
  have hp := perception_of_entryBy hy hg'
  rw [hrows] at hp
  rcases List.mem_append.1 hp with hp | hp
  · have := hinit y hp
    rw [hg'] at this
    cases this
  · rcases List.mem_cons.1 hp with rfl | hp
    · exact Nat.le_refl _
    · exact Nat.le_of_lt ((List.pairwise_cons.1 (List.pairwise_append.1 hsorted).2.1).1 y hp)

variable (entryOf) in
/-- The earliest recording that survives is where the migration writes the identity's date. -/
theorem surviving_eq (hd : (s.migrationRead stream).identities[identity]? = some d)
    (hsome : ∃ x ∈ s.streamRows stream, ∃ g, s.survivingBy stream identity x = some g) :
    ∃ r ∈ s.streamRows stream, (∃ g, s.survivingBy stream identity r = some g) ∧
      (∀ y ∈ s.streamRows stream, (∃ g, s.survivingBy stream identity y = some g) → r.1 ≤ y.1) ∧
      surviving (s.migrationRead stream).entries[identity]? (conversion entryOf identity d) =
        some r.1 := by
  simp only [survivingBy_isSome_iff] at hsome ⊢
  have hconv := conversion_eq entryOf hd
  cases he : (s.migrationRead stream).entries[identity]? with
  | none =>
    -- no entry: the converted row alone
    have hnone : ∀ y ∈ s.streamRows stream, ¬∃ g, entryBy identity y = some g := by
      rintro y hy ⟨g, hg⟩
      rw [entries_eq_none he hy] at hg
      cases hg
    obtain ⟨x, hx, hx' | ⟨g, hc⟩⟩ := hsome
    · exact absurd hx' (hnone x hx)
    · rw [hc] at hconv
      obtain ⟨event, hevent, -⟩ := hconv
      refine ⟨x, hx, Or.inr ⟨g, hc⟩, ?_, by rw [hevent]; rfl⟩
      rintro y hy (hy' | ⟨g', hc'⟩)
      · exact absurd hy' (hnone y hy)
      · rw [hc, Option.some.injEq, Prod.mk.injEq] at hc'
        omega
  | some e =>
    obtain ⟨f, ⟨hf, hfe, hfirst⟩, hpos⟩ := entries_eq_some he
    cases hc : s.converted stream identity with
    | none =>
      rw [hc] at hconv
      refine ⟨f, hf, Or.inl hfe, ?_, by rw [hconv, hpos]; rfl⟩
      rintro y hy (hy' | ⟨g, hg⟩)
      · exact hfirst y hy hy'
      · cases hg
    | some c =>
      obtain ⟨position, g⟩ := c
      rw [hc] at hconv
      obtain ⟨event, hevent, -⟩ := hconv
      obtain ⟨init, x, post, hrows, hx, rfl, -⟩ := converted_row hc
      have hxmem : x ∈ s.streamRows stream := perception_subset (by rw [hrows]; simp)
      rw [hevent]
      show ∃ r ∈ s.streamRows stream, _ ∧ _ ∧ some (min e.first x.1) = some r.1
      by_cases hle : e.first ≤ x.1
      · refine ⟨f, hf, Or.inl hfe, ?_, by rw [hpos, Nat.min_eq_left hle]⟩
        rintro y hy (hy' | ⟨g', hg'⟩)
        · exact hfirst y hy hy'
        · rw [Option.some.injEq, Prod.mk.injEq] at hg'
          omega
      · refine ⟨x, hxmem, Or.inr ⟨g, rfl⟩, ?_, by rw [Nat.min_eq_right (by omega)]⟩
        rintro y hy (hy' | ⟨g', hg'⟩)
        · have := hfirst y hy hy'
          omega
        · rw [Option.some.injEq, Prod.mk.injEq] at hg'
          omega

theorem recordingBy_isSome_iff : (∃ g, recordingBy identity r = some g) ↔
    (∃ g, derivedBy identity r = some g) ∨ ∃ g, entryBy identity r = some g := by
  rw [recordingBy_eq]
  cases derivedBy identity r <;> simp

/-- The date the migration writes is the earliest of the identity's recordings. -/
theorem isLeast_earliestOf (hd : (s.migrationRead stream).identities[identity]? = some d) :
    IsLeast (s.dates stream identity)
      (earliestOf (s.migrationRead stream).entries[identity]? d) := by
  have hderived := identities_earliest identity (s.shedByThePlan stream) (s.perception stream)
  rw [← identities_migrationRead, hd, Option.map_some, eq_comm, least_eq_some_iff] at hderived
  obtain ⟨⟨x, hx, hxt⟩, hmin⟩ := hderived
  obtain ⟨g, hg, hxt⟩ := Option.map_eq_some_iff.1 hxt
  have hx' : d.earliest ∈ s.dates stream identity :=
    ⟨x, perception_subset hx, recordingBy_isSome_iff.2 (Or.inl ⟨g, hg⟩), hxt⟩
  have hderivedMin : ∀ r ∈ s.streamRows stream, (∃ g, derivedBy identity r = some g) →
      d.earliest ≤ r.2.validFrom := by
    rintro r hr ⟨g', hg'⟩
    exact hmin r (perception_of_derivedBy hr hg') _ (by rw [hg']; rfl)
  have hentries := entries_earliest identity (s.perception stream)
  rw [← entries_migrationRead] at hentries
  cases he : (s.migrationRead stream).entries[identity]? with
  | none =>
    refine ⟨hx', ?_⟩
    rintro t ⟨r, hr, hrec, rfl⟩
    rcases recordingBy_isSome_iff.1 hrec with hd' | ⟨g', hg'⟩
    · exact hderivedMin r hr hd'
    · rw [entries_eq_none he hr] at hg'
      cases hg'
  | some e =>
    rw [he, Option.map_some, eq_comm, least_eq_some_iff] at hentries
    obtain ⟨⟨y, hy, hyt⟩, hymin⟩ := hentries
    obtain ⟨g', hg', hyt⟩ := Option.map_eq_some_iff.1 hyt
    have hy' : e.earliest ∈ s.dates stream identity :=
      ⟨y, perception_subset hy, recordingBy_isSome_iff.2 (Or.inr ⟨g', hg'⟩), hyt⟩
    refine ⟨?_, ?_⟩
    · show min e.earliest d.earliest ∈ _
      by_cases hle : e.earliest ≤ d.earliest
      · rw [Int.min_eq_left hle]
        exact hy'
      · rw [Int.min_eq_right (by omega)]
        exact hx'
    · rintro t ⟨r, hr, hrec, rfl⟩
      show min e.earliest d.earliest ≤ r.2.validFrom
      rcases recordingBy_isSome_iff.1 hrec with hd' | ⟨g'', hg''⟩
      · have := hderivedMin r hr hd'
        omega
      · have := hymin r (perception_of_entryBy hr hg'') r.2.validFrom (by rw [hg'']; rfl)
        omega

theorem identities_isSome
    (hheld : ∃ r ∈ s.streamRows stream, ∃ g, derivedBy identity r = some g) :
    ∃ d, (s.migrationRead stream).identities[identity]? = some d := by
  cases hd : (s.migrationRead stream).identities[identity]? with
  | some d => exact ⟨d, rfl⟩
  | none =>
    obtain ⟨r, hr, g, hg⟩ := hheld
    have hleast := identities_earliest identity (s.shedByThePlan stream) (s.perception stream)
    rw [← identities_migrationRead, hd, Option.map_none, eq_comm, least_eq_none_iff] at hleast
    have := hleast r (perception_of_derivedBy hr hg)
    rw [hg] at this
    cases this

theorem derivedBy_of_identities (hd : (s.migrationRead stream).identities[identity]? = some d) :
    ∃ r ∈ s.streamRows stream, ∃ g, derivedBy identity r = some g := by
  have hleast := identities_earliest identity (s.shedByThePlan stream) (s.perception stream)
  rw [← identities_migrationRead, hd, Option.map_some, eq_comm, least_eq_some_iff] at hleast
  obtain ⟨⟨r, hr, hrt⟩, -⟩ := hleast
  obtain ⟨g, hg, -⟩ := Option.map_eq_some_iff.1 hrt
  exact ⟨r, perception_subset hr, g, hg⟩

variable (entryOf) in
theorem entryBy_migrated (hr : r ∈ s.streamRows stream)
    (h : s.survivingBy stream identity r = some generation) :
    isDerivedIndexType (s.migrated stream entryOf r).type_ = false ∧
      entryBy identity (r.1, s.migrated stream entryOf r) = some generation := by
  rw [← recordingBy_migrated entryOf hr, recordingAfter] at h
  split at h
  · cases h
  · rename_i hd
    rw [recordingBy_eq] at h
    have hnone : derivedBy identity (r.1, s.migrated stream entryOf r) = none := if_neg hd
    rw [hnone, Option.none_or] at h
    exact ⟨Bool.eq_false_iff.2 hd, h⟩

variable (entryOf) in
/-- The row the migration dates is its identity's earliest entry after, at the earliest date. -/
theorem firstEntry_of_surviving (hd : (s.migrationRead stream).identities[identity]? = some d)
    (hsome : ∃ x ∈ s.streamRows stream, ∃ g, s.survivingBy stream identity x = some g)
    (hr : r ∈ s.streamRows stream)
    (hpos : surviving (s.migrationRead stream).entries[identity]? (conversion entryOf identity d) =
      some r.1) :
    (s.shedDerived stream entryOf).2.FirstEntry stream identity
        (r.1, s.migrated stream entryOf r) ∧
      IsLeast (s.dates stream identity) (s.migrated stream entryOf r).validFrom := by
  obtain ⟨r', hr', ⟨g, hrec⟩, hfirst, hsurviving⟩ := surviving_eq entryOf hd hsome
  rw [hpos, Option.some.injEq] at hsurviving
  have hrr : r' = r := Table.eq_of_position (mem_streamRows.1 hr').1 (mem_streamRows.1 hr).1
    hsurviving.symm
  subst hrr
  obtain ⟨hkept, hentry⟩ := entryBy_migrated entryOf hr hrec
  refine ⟨⟨?_, ⟨g, hentry⟩, ?_⟩, ?_⟩
  · rw [streamRows_shedDerived]
    refine List.mem_filterMap.2 ⟨r', hr, ?_⟩
    rw [hkept]
    rfl
  · rintro y hy ⟨g', hg'⟩
    rw [streamRows_shedDerived] at hy
    obtain ⟨x, hx, hxy⟩ := List.mem_filterMap.1 hy
    split at hxy
    · cases hxy
    · rename_i hd'
      cases hxy
      refine hfirst x hx ⟨g', ?_⟩
      rw [← recordingBy_migrated entryOf hx, recordingAfter, if_neg hd']
      exact recordingBy_eq_some_iff.2 ⟨mem_perceptionTypes.2 (Or.inr (entryBy_eq_some_iff.1 hg').1),
        (entryBy_eq_some_iff.1 hg').2⟩
  · obtain ⟨g', hg'⟩ : ∃ g, recordingBy identity r' = some g := by
      rcases survivingBy_isSome_iff.1 ⟨g, hrec⟩ with he | ⟨g', hc⟩
      · exact recordingBy_isSome_iff.2 (Or.inr he)
      · exact recordingBy_isSome_iff.2
          (Or.inl ⟨g', (derivedBy_of_converted (mem_streamRows.1 hr).1 hc).2⟩)
    have hp : r' ∈ s.perception stream := mem_perception.2 ⟨hr, (recordingBy_eq_some_iff.1 hg').1⟩
    rw [migrated_of_named hp hg', hd]
    show IsLeast _ (migrateRow entryOf _ identity d r'.1 r'.2).validFrom
    rw [migrateRow_validFrom, if_pos hpos.symm]
    exact isLeast_earliestOf hd

/-! ## The migration -/

theorem mem_rows_shedDerived {x : Row} : x ∈ (s.shedDerived stream entryOf).2.rows ↔
    ∃ r ∈ s.rows, ¬(r.2.stream = stream ∧
        isDerivedIndexType (s.migrated stream entryOf r).type_ = true) ∧
      x = (r.1, s.migrated stream entryOf r) := by
  rw [rows_shedDerived, List.mem_filter, List.mem_map]
  constructor
  · rintro ⟨⟨r, hr, rfl⟩, hkeep⟩
    have hstream : (s.migrated stream entryOf r).stream = r.2.stream := (migrated_frame r).1
    refine ⟨r, hr, ?_, rfl⟩
    rintro ⟨hs, hd⟩
    have hcontains : derivedIndexTypes.contains (s.migrated stream entryOf r).type_ = true := hd
    simp [hstream, hs] at hkeep
    exact hkeep (List.contains_iff_mem.1 hcontains)
  · rintro ⟨r, hr, hnot, rfl⟩
    have hstream : (s.migrated stream entryOf r).stream = r.2.stream := (migrated_frame r).1
    refine ⟨⟨r, hr, rfl⟩, ?_⟩
    rw [Bool.not_eq_true', ← Bool.not_eq_true, Bool.and_eq_true, beq_iff_eq]
    rintro ⟨hs, hd⟩
    exact hnot ⟨hstream.symm.trans hs, hd⟩

variable (stream entryOf) in
/-- A row outside the derived index keeps its type, payload and metadata. -/
theorem migrated_of_kept (hr : r ∈ s.rows) (hkept : isDerivedIndexType r.2.type_ = false) :
    ∃ t, s.migrated stream entryOf r = { r.2 with validFrom := t } := by
  have hsame : s.migrated stream entryOf r = r.2 →
      ∃ t, s.migrated stream entryOf r = { r.2 with validFrom := t } := fun h => ⟨r.2.validFrom, h⟩
  by_cases hp : r ∈ s.perception stream
  · have ht : isLedgerEntry r.2.type_ = true :=
      (mem_perceptionTypes.1 (mem_perception.1 hp).2).resolve_left (by
        rw [hkept]
        exact Bool.false_ne_true)
    cases hn : named r.2.meta_ with
    | none => exact hsame (migrated_of_unnamed hr fun _ => hn)
    | some n => exact migrated_entry entryOf hp (entryBy_eq_some_iff.2 ⟨ht, hn⟩)
  · exact hsame (migrated_of_unnamed hr fun h => absurd h hp)

/-- A row outside the derived index stays as it was, but for the date of an earliest entry. -/
theorem unchanged_shedDerived (hr : r ∈ s.rows)
    (hkept : ¬(r.2.stream = stream ∧ isDerivedIndexType r.2.type_ = true)) :
    r ∈ (s.shedDerived stream entryOf).2.rows ∨
      ∃ identity, (∃ x ∈ s.streamRows stream, ∃ g, derivedBy identity x = some g) ∧
        ∃ t, (s.shedDerived stream entryOf).2.FirstEntry stream identity
          (r.1, { r.2 with validFrom := t }) := by
  -- a row no statement touches is not deleted
  have hsame : s.migrated stream entryOf r = r.2 →
      r ∈ (s.shedDerived stream entryOf).2.rows := by
    intro hm
    refine mem_rows_shedDerived.2 ⟨r, hr, ?_, by rw [hm]⟩
    rw [hm]
    exact hkept
  by_cases hp : r ∈ s.perception stream
  · obtain ⟨hstream, hperception⟩ := mem_perception.1 hp
    have ht : isLedgerEntry r.2.type_ = true :=
      (mem_perceptionTypes.1 hperception).resolve_left fun hd =>
        hkept ⟨(mem_streamRows.1 hstream).2, hd⟩
    cases hn : named r.2.meta_ with
    | none => exact Or.inl (hsame (migrated_of_unnamed hr fun _ => hn))
    | some n =>
      obtain ⟨identity, g⟩ := n
      have he : entryBy identity r = some g := entryBy_eq_some_iff.2 ⟨ht, hn⟩
      have hrec : recordingBy identity r = some g := recordingBy_eq_some_iff.2 ⟨hperception, hn⟩
      obtain ⟨t, hm⟩ := migrated_entry entryOf hp he
      cases hd : (s.migrationRead stream).identities[identity]? with
      | none =>
        refine Or.inl (hsame ?_)
        rw [migrated_of_named hp hrec, hd]
      | some d =>
        by_cases hpos : surviving (s.migrationRead stream).entries[identity]?
            (conversion entryOf identity d) = some r.1
        · refine Or.inr ⟨identity, derivedBy_of_identities hd, t, ?_⟩
          rw [← hm]
          exact (firstEntry_of_surviving entryOf hd
            ⟨r, hstream, g, by rw [survivingBy, he, Option.some_or]⟩ hstream hpos).1
        · refine Or.inl (hsame ?_)
          have hdate : (s.migrated stream entryOf r).validFrom = r.2.validFrom := by
            rw [migrated_of_named hp hrec, hd]
            show (migrateRow entryOf _ identity d r.1 r.2).validFrom = _
            rw [migrateRow_validFrom, if_neg (Ne.symm hpos)]
          rw [hm] at hdate ⊢
          rw [show t = r.2.validFrom from hdate]
  · exact Or.inl (hsame (migrated_of_unnamed hr fun h => absurd h hp))

/-- What a migration of `stream` from `before` to `after` is to preserve. -/
structure Preserved (before after : Store) (stream : String) : Prop where
  shed : ∀ e ∈ after.log stream, isDerivedIndexType e.type_ = false
  generations : ∀ identity : String,
    (projectScopedLatestGenerations (after.log stream))[identity]? =
      (projectScopedLatestGenerations (before.log stream))[identity]?
  entries : ∀ identity : String,
    (∃ r ∈ before.streamRows stream, ∃ g, derivedBy identity r = some g) →
      ∃ e, after.FirstEntry stream identity e ∧
        IsLeast (before.dates stream identity) e.2.validFrom
  unchanged : ∀ r ∈ before.rows,
    ¬(r.2.stream = stream ∧ isDerivedIndexType r.2.type_ = true) → r ∈ after.rows ∨
      ∃ identity : String, (∃ x ∈ before.streamRows stream, ∃ g, derivedBy identity x = some g) ∧
        ∃ t, after.FirstEntry stream identity (r.1, { r.2 with validFrom := t })
  added : ∀ r ∈ after.rows, ∃ c, (r.1, c) ∈ before.rows ∧ SameFrame c r.2

end

/-- The migration preserves a stream's perception exactly when every identity whose batch ends in
its bare name holds, in its latest ledger entry, its latest generation. -/
theorem shedDerived_preserves_iff (s : Store) (stream : String)
    (entryOf : String → String × Bool) :
    Preserved s (s.shedDerived stream entryOf).2 stream ↔
      ∀ identity, s.BareNewest stream identity →
        latest (entryBy identity) (s.streamRows stream) =
          latest (recordingBy identity) (s.streamRows stream) := by
  have hgenerations : ∀ identity : String,
      (projectScopedLatestGenerations ((s.shedDerived stream entryOf).2.log stream))[identity]? =
          (projectScopedLatestGenerations (s.log stream))[identity]? ↔
        (s.BareNewest stream identity → latest (entryBy identity) (s.streamRows stream) =
          latest (recordingBy identity) (s.streamRows stream)) := by
    intro identity
    rw [getElem?_latestGenerations, getElem?_latestGenerations, latest_shedDerived_eq_iff]
  constructor
  · exact fun h identity => (hgenerations identity).1 (h.generations identity)
  · intro h
    refine ⟨?_, fun identity => (hgenerations identity).2 (h identity), ?_,
      fun r hr => unchanged_shedDerived hr, ?_⟩
    · intro e he
      obtain ⟨x, hx, rfl⟩ := List.mem_map.1 he
      rw [streamRows_shedDerived] at hx
      obtain ⟨r, hr, hxr⟩ := List.mem_filterMap.1 hx
      split at hxr
      · cases hxr
      · rename_i hd
        cases hxr
        exact Bool.eq_false_iff.2 hd
    · intro identity hheld
      obtain ⟨d, hd⟩ := identities_isSome hheld
      -- the identity still records its latest generation, so something of it survives
      have hafter : latest (s.survivingBy stream identity) (s.streamRows stream) =
          latest (recordingBy identity) (s.streamRows stream) := by
        rw [← latest_shedDerived entryOf]
        exact latest_shedDerived_eq_iff.2 (h identity)
      have hsome :
          (latest (s.survivingBy stream identity) (s.streamRows stream)).isSome = true := by
        rw [hafter]
        obtain ⟨r, hr, g, hg⟩ := hheld
        refine (latest_isSome_iff _ _).2 ⟨r, hr, ?_⟩
        rw [recordingBy_eq, hg]
        rfl
      obtain ⟨x, hx, hsurvives⟩ := (latest_isSome_iff _ _).1 hsome
      have hsurvives' := Option.isSome_iff_exists.1 hsurvives
      obtain ⟨r, hr, -, -, hpos⟩ := surviving_eq entryOf hd ⟨x, hx, hsurvives'⟩
      exact ⟨_, firstEntry_of_surviving entryOf hd ⟨x, hx, hsurvives'⟩ hr hpos⟩
    · intro x hx
      obtain ⟨r, hr, -, rfl⟩ := mem_rows_shedDerived.1 hx
      exact ⟨r.2, hr, migrated_frame r⟩

/-- One file's derived row, then a derived row under the file's bare identity. -/
def bareKeyStore : Store where
  rows :=
    [(1, ⟨"s", typeCodeEntityExtracted, "e1", .json .null,
        (∅ : Meta).insert metaReplayKey "gc/a.rs@h1#0", 5, 5, 0⟩),
      (2, ⟨"s", typeCodeEntityExtracted, "e2", .json .null,
        (∅ : Meta).insert metaReplayKey "gc/a.rs", 6, 6, 1⟩)]
  seq := 2
  sorted := by decide
  issued := by decide
  unique := by decide

/-- The file's generation is lost, and no entry stands for it. -/
theorem bareKeyStore_not_preserved :
    (projectScopedLatestGenerations (bareKeyStore.log "s"))["gc/a.rs"]? = some "h1" ∧
      ¬Preserved bareKeyStore (bareKeyStore.shedDerived "s" fun _ => ("", false)).2 "s" := by
  refine ⟨by decide, fun h => ?_⟩
  have hgeneration := h.generations "gc/a.rs"
  exact absurd hgeneration (by decide)

end Store

end Rigger
