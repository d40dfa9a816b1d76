import Rigger.Store.Runs

/-!
# The group lookup (`latest_generation`, `rigger-domain/src/ingest.rs`)

`latestGeneration` asks the group index for the newest row of one identity; the reference folds the
keys of the whole log.  On a stream whose writers stamp keyed perception, and nothing else, with
its identity (`Stamped`), both answer the same, and the migration keeps the stamp
(`latestGeneration_eq_log`).
-/

namespace Rigger

open Lib

namespace Store

/-- The latest recorded generation of an identity, type first, then the whole key. -/
def latestGeneration (s : Store) (stream identity : String) : Option String :=
  match s.latestInGroup stream identity with
  | none => none
  | some head =>
    if !perceptionTypes.contains head.type_ then none
    else (named head.meta_).map Prod.snd

/-- A keyed recording carries its identity, one of `identities`, as its group, and nothing else
carries one of them. -/
structure Stamped (identities : Set String) (type_ : String) (meta_ : Meta) : Prop where
  keyed : ∀ identity generation, recorded identity type_ meta_ = some generation →
    meta_[metaGroup]? = some identity ∧ identity ∈ identities
  others : ∀ identity ∈ identities, meta_[metaGroup]? = some identity →
    ∃ generation, recorded identity type_ meta_ = some generation

/-- What a stream holds is stamped. -/
def StampedStream (identities : Set String) (stream : String) (s : Store) : Prop :=
  ∀ r ∈ s.streamRows stream, Stamped identities r.2.type_ r.2.meta_

/-- What a call appends to the stream is stamped. -/
def AppendsStamped (identities : Set String) (stream : String) : Call → Prop
  | .append other _ events _ =>
    other = stream → ∀ e ∈ events, Stamped identities e.type_ e.meta_
  | .shedDerived .. => True

section
variable {identities : Set String} {stream : String} {s : Store}

/-- On a stamped stream the group picks exactly the recordings of the identity. -/
theorem StampedStream.latestGeneration_eq (h : StampedStream identities stream s)
    (identity : String) : s.latestGeneration stream identity =
      (projectScopedLatestGenerations (s.log stream))[identity]? := by
  rw [getElem?_latestGenerations]
  by_cases hin : identity ∈ identities
  · have hpick : ∀ r ∈ s.streamRows stream, (r.2.meta_[metaGroup]? == some identity) = true ↔
        (recordingBy identity r).isSome = true := by
      intro r hr
      rw [beq_iff_eq, Option.isSome_iff_exists]
      constructor
      · exact (h r hr).others identity hin
      · rintro ⟨g, hg⟩
        exact ((h r hr).keyed identity g hg).1
    rw [latest_eq_getLast?_bind hpick, latestGeneration, latestInGroup]
    cases hlast : ((s.streamRows stream).filter
        fun r => r.2.meta_[metaGroup]? == some identity).getLast? with
    | none => rfl
    | some r =>
      obtain ⟨hr, hgroup⟩ := List.mem_filter.1 (List.mem_of_getLast? hlast)
      obtain ⟨g, hg⟩ := (h r hr).others identity hin (beq_iff_eq.1 hgroup)
      obtain ⟨htype, hnamed⟩ := recordingBy_eq_some_iff.1 hg
      show (if !perceptionTypes.contains r.2.type_ then none
        else (named r.2.meta_).map Prod.snd) = recordingBy identity r
      rw [show recordingBy identity r = some g from hg, htype, hnamed]
      rfl
  · -- nothing records the identity, and a row of that group names no generation
    have hnone : ∀ r ∈ s.streamRows stream, recordingBy identity r = none := by
      intro r hr
      cases hg : recordingBy identity r with
      | none => rfl
      | some g => exact absurd ((h r hr).keyed identity g hg).2 hin
    rw [(latest_eq_none_iff _ _).2 hnone, latestGeneration, latestInGroup]
    cases hlast : ((s.streamRows stream).filter
        fun r => r.2.meta_[metaGroup]? == some identity).getLast? with
    | none => rfl
    | some r =>
      obtain ⟨hr, hgroup⟩ := List.mem_filter.1 (List.mem_of_getLast? hlast)
      rw [beq_iff_eq] at hgroup
      show (if !perceptionTypes.contains r.2.type_ then none
        else (named r.2.meta_).map Prod.snd) = none
      cases htype : perceptionTypes.contains r.2.type_ with
      | false => rfl
      | true =>
        cases hnamed : named r.2.meta_ with
        | none => rfl
        | some n =>
          obtain ⟨i, g⟩ := n
          obtain ⟨hi, hmem⟩ := (h r hr).keyed i g (recordingBy_eq_some_iff.2 ⟨htype, hnamed⟩)
          rw [hgroup, Option.some.injEq] at hi
          exact absurd (hi ▸ hmem) hin

/-- The migration keeps the stamp: a converted row carries its identity, as the rows it stands for
did. -/
theorem StampedStream.shedDerived (h : StampedStream identities stream s) (other : String)
    (entryOf : String → String × Bool) :
    StampedStream identities stream (s.shedDerived other entryOf).2 := by
  by_cases heq : other = stream
  · subst heq
    intro x hx
    obtain ⟨hx, hstream⟩ := mem_streamRows.1 hx
    obtain ⟨r, hr, hleft, rfl⟩ := mem_rows_shedDerived.1 hx
    have hstream' : r.2.stream = other := (migrated_frame r).1.symm.trans hstream
    have hmem : r ∈ s.streamRows other := mem_streamRows.2 ⟨hr, hstream'⟩
    have hderived : ¬isDerivedIndexType (s.migrated other entryOf r).type_ = true :=
      fun hd => hleft ⟨hstream', hd⟩
    cases hd : isDerivedIndexType r.2.type_ with
    | false =>
      obtain ⟨t, ht⟩ := migrated_of_kept other entryOf hr hd
      rw [ht]
      exact h r hmem
    | true =>
      cases hn : named r.2.meta_ with
      | none =>
        rw [migrated_of_unnamed hr fun _ => hn] at hderived
        exact absurd hd hderived
      | some n =>
        obtain ⟨i, g⟩ := n
        have hg : derivedBy i r = some g := derivedBy_eq_some_iff.2 ⟨hd, hn⟩
        rcases migrated_derived entryOf (perception_of_derivedBy hmem hg) hg with
          ⟨-, htype, hnamed, hgroup⟩ | ⟨-, t, ht⟩
        · have hentry : ∀ j, recorded j (s.migrated other entryOf r).type_
              (s.migrated other entryOf r).meta_ = some g ↔ i = j := fun j => by
            rw [recordedAs_eq_some_iff, hnamed, htype]
            simp [perceptionTypes]
          have hmember : i ∈ identities :=
            ((h r hmem).keyed i g (by
              rw [recordedAs_eq_some_iff]
              exact ⟨mem_perceptionTypes.2 (Or.inl hd), hn⟩)).2
          refine ⟨fun j g' hj => ?_, fun j _ hj => ⟨g, (hentry j).2 ?_⟩⟩
          · rw [recordedAs_eq_some_iff, hnamed, Option.some.injEq, Prod.mk.injEq] at hj
            obtain ⟨-, rfl, rfl⟩ := hj
            exact ⟨hgroup, hmember⟩
          · rw [hgroup, Option.some.injEq] at hj
            exact hj
        · rw [ht] at hderived
          exact absurd hd hderived
  · unfold StampedStream
    rw [streamRows_shedDerived_of_ne s heq]
    exact h

theorem StampedStream.exec (hs : s.Ordered) (h : StampedStream identities stream s) {call : Call}
    (hcall : AppendsStamped identities stream call) :
    StampedStream identities stream (s.exec call) := by
  cases call with
  | shedDerived other entryOf => exact h.shedDerived other entryOf
  | append other expected events now =>
    cases hok : s.append other expected events now with
    | error e =>
      rw [(exec_error hok).1]
      exact h
    | ok p =>
      obtain ⟨a, s'⟩ := p
      have hrows := (hs.append_ok hok).2.2.2.1
      rw [(exec_ok hok).1]
      by_cases heq : other = stream
      · subst heq
        intro r hr
        rw [streamRows_batch hrows] at hr
        rcases List.mem_append.1 hr with hr | hr
        · exact h r hr
        · obtain ⟨i, e, hi, rfl⟩ := mem_batch.1 hr
          exact hcall rfl e (List.mem_of_getElem? hi)
      · unfold StampedStream
        rw [streamRows_batch_of_ne hrows heq]
        exact h

end

/-- The indexed lookup answers what the fold of the log answers, of every identity and at every
point of every run of appends and migrations whose appends are stamped. -/
theorem latestGeneration_eq_log {identities : Set String} {stream : String} {s : Store}
    {calls : List Call} (hs : s.Ordered) (h : StampedStream identities stream s)
    (hcalls : ∀ call ∈ calls, AppendsStamped identities stream call) {before : List Call}
    (hbefore : before <+: calls) (identity : String) :
    (run exec s before).latestGeneration stream identity =
      (projectScopedLatestGenerations ((run exec s before).log stream))[identity]? := by
  have hstamps : Along exec (fun _ call => AppendsStamped identities stream call) s before :=
    along_of_forall fun call hcall => hcalls call (hbefore.subset hcall)
  have hrun : (run exec s before).Ordered ∧ StampedStream identities stream (run exec s before) :=
    run_invariant_along (I := fun s => s.Ordered ∧ StampedStream identities stream s)
      (fun s call hcall hs => ⟨ordered_exec hs.1 call, hs.2.exec hs.1 hcall⟩) hstamps ⟨hs, h⟩
  exact hrun.2.latestGeneration_eq identity

/-- The metadata of a file's recording of a generation, stamped with its identity. -/
def groupedMeta (generation : String) : Meta :=
  ((∅ : Meta).insert metaReplayKey ("gc/a.rs@" ++ generation ++ "#0")).insert metaGroup "gc/a.rs"

theorem stamped_groupedMeta {type_ generation : String}
    (htype : perceptionTypes.contains type_ = true)
    (h : named (groupedMeta generation) = some ("gc/a.rs", generation)) :
    Stamped {"gc/a.rs"} type_ (groupedMeta generation) := by
  refine ⟨fun i g hg => ?_, fun i hi _ => ⟨generation, recordedAs_eq_some_iff.2 ⟨htype, ?_⟩⟩⟩
  · rw [recordedAs_eq_some_iff, h, Option.some.injEq, Prod.mk.injEq] at hg
    rw [← hg.2.1]
    exact ⟨by simp [groupedMeta], rfl⟩
  · rw [h, Set.mem_singleton_iff.1 hi]

/-- One derived row of the file. -/
def groupedStore : Store where
  rows :=
    [(1, ⟨"s", typeCodeEntityExtracted, "e1", .json .null, groupedMeta "h1", 5, 5, 0⟩)]
  seq := 1
  sorted := by decide
  issued := by decide
  unique := by decide

/-- The entry of the file's next generation, then the migration. -/
def groupedCalls : List Call :=
  [.append "s" .any
      [{ Event.new ("e2", 6) typeGenerationIngested (.json .null) with meta_ := groupedMeta "h2" }]
      6,
    .shedDerived "s" fun _ => ("", false)]

/-- Both lookups of the file's generation, after its migration. -/
theorem latestGeneration_groupedStore :
    (run exec groupedStore groupedCalls).latestGeneration "s" "gc/a.rs" =
        (projectScopedLatestGenerations
        ((run exec groupedStore groupedCalls).log "s"))["gc/a.rs"]? ∧
      (run exec groupedStore groupedCalls).latestGeneration "s" "gc/a.rs" = some "h2" := by
  have hstamped : StampedStream {"gc/a.rs"} "s" groupedStore := by
    intro r hr
    have hrow : r ∈ groupedStore.rows := (mem_streamRows.1 hr).1
    rw [List.mem_singleton.1 hrow]
    exact stamped_groupedMeta (by decide) (by decide)
  refine ⟨latestGeneration_eq_log ⟨by decide, by decide⟩ hstamped ?_ (List.prefix_refl _) "gc/a.rs",
    by decide⟩
  simp only [groupedCalls, List.forall_mem_cons]
  refine ⟨fun _ e he => ?_, True.intro, nofun⟩
  rw [List.mem_singleton.1 he]
  exact stamped_groupedMeta (by decide) (by decide)

end Store

end Rigger
