import Mathlib.Data.List.DropRight
import Rigger.Store.Prune

/-!
# The migration of the derived index (`Store::shed_derived`)

The read of a stream's perception in position order, the rewrites it leads to, and the delete of
every derived row.  Per identity the read keeps two records, one of its derived rows and one of
its ledger entries (`identities_migrationRead`, `entries_migrationRead`); a rewrite touches the two
rows they name and no others (`rows_shedDerived`).
-/

namespace Rigger

open Lib

/-! ## The read -/

/-- What one stream's keyed derived rows record of one identity. -/
structure DerivedRecordings where
  earliest : Int
  latestIsDerived : Bool
  kept : Option (Nat × String)
  keys : List (String × String)
deriving DecidableEq

/-- What one stream's ledger entries record of one identity. -/
structure EntryRecordings where
  first : Nat
  earliest : Int
deriving DecidableEq

structure DerivedRead where
  shed : Nat
  unkeyed : Nat
  identities : Std.ExtTreeMap String DerivedRecordings
  entries : Std.ExtTreeMap String EntryRecordings

structure ShedDerived where
  converted : Nat
  shed : Nat
  unkeyed : Nat
deriving DecidableEq

/-- A ledger entry of the identity, after which nothing recorded before it is kept. -/
def DerivedRecordings.supersede (d : DerivedRecordings) : DerivedRecordings :=
  { d with latestIsDerived := false, kept := none }

/-- A derived row of the identity; `lives` when the selection keeps it. -/
def DerivedRecordings.record (d : DerivedRecordings) (r : Row) (generation : String)
    (lives : Bool) : DerivedRecordings where
  earliest := min d.earliest r.2.validFrom
  latestIsDerived := true
  kept := if lives then d.kept.or (some (r.1, generation)) else d.kept
  keys := d.keys.insert (generation, (r.2.meta_[metaReplayKey]?).getD "")

namespace DerivedRead

def start : DerivedRead := ⟨0, 0, ∅, ∅⟩

/-- One row of perception. -/
def step (shedByThePlan : List Nat) (read : DerivedRead) (r : Row) : DerivedRead :=
  if isLedgerEntry r.2.type_ then
    match named r.2.meta_ with
    | some (identity, _) =>
      let entry := (read.entries[identity]?).getD ⟨r.1, r.2.validFrom⟩
      { read with
        entries := read.entries.insert identity
          { entry with earliest := min entry.earliest r.2.validFrom }
        identities := read.identities.alter identity fun d => d.map DerivedRecordings.supersede }
    | none => read
  else
    match named r.2.meta_ with
    | some (identity, generation) =>
      let recorded := (read.identities[identity]?).getD ⟨r.2.validFrom, true, none, []⟩
      { read with
        shed := read.shed + 1
        identities := read.identities.insert identity
          (recorded.record r generation (!shedByThePlan.contains r.1)) }
    | none => { read with shed := read.shed + 1, unkeyed := read.unkeyed + 1 }

end DerivedRead

namespace Store

/-- The stream's perception, in position order. -/
def perception (s : Store) (stream : String) : List Row :=
  (s.streamRows stream).filter fun r => perceptionTypes.contains r.2.type_

def readDerived (s : Store) (stream : String) (shedByThePlan : List Nat) : DerivedRead :=
  (s.perception stream).foldl (DerivedRead.step shedByThePlan) DerivedRead.start

/-! ## The rewrites -/

/-- `UPDATE … SET type, data, meta WHERE position = ?1`. -/
def rewriteRow (position : Nat) (event : Event) (p : Nat) (c : Columns) : Columns :=
  if p = position then { c with type_ := event.type_, data := event.data, meta_ := event.meta_ }
  else c

/-- `UPDATE … SET valid_from WHERE position = ?1`; no row has a `NULL` position. -/
def redateRow (position : Option Nat) (earliest : Int) (p : Nat) (c : Columns) : Columns :=
  if some p = position then { c with validFrom := earliest } else c

/-- The entry the identity's kept row becomes, with its position.  The id and the clock of the
entry's event are not written. -/
def conversion (entryOf : String → String × Bool) (identity : String)
    (recorded : DerivedRecordings) : Option (Nat × Event) :=
  match recorded.latestIsDerived, recorded.kept, GenerationIngested.identityParts identity with
  | true, some (position, generation), some (pre, file) =>
    let (blob, excluded) := entryOf identity
    some (position, GenerationIngested.event ("", 0) ⟨pre, file, generation, blob, excluded⟩
      (recorded.keys.filter fun k => k.1 == generation).length)
  | _, _, _ => none

/-- The position of the identity's earliest surviving recording. -/
def surviving (entry : Option EntryRecordings) (converted : Option (Nat × Event)) : Option Nat :=
  match entry, converted with
  | some e, some (position, _) => some (min e.first position)
  | some e, none => some e.first
  | none, some (position, _) => some position
  | none, none => none

/-- The earliest valid-time any recording of the identity carries. -/
def earliestOf (entry : Option EntryRecordings) (recorded : DerivedRecordings) : Int :=
  match entry with
  | some e => min e.earliest recorded.earliest
  | none => recorded.earliest

def convertRow (converted : Option (Nat × Event)) (p : Nat) (c : Columns) : Columns :=
  match converted with
  | some (position, event) => rewriteRow position event p c
  | none => c

/-- What one identity's statements do to the row at a position. -/
def migrateRow (entryOf : String → String × Bool) (read : DerivedRead) (identity : String)
    (recorded : DerivedRecordings) (p : Nat) (c : Columns) : Columns :=
  redateRow (surviving read.entries[identity]? (conversion entryOf identity recorded))
    (earliestOf read.entries[identity]? recorded) p
    (convertRow (conversion entryOf identity recorded) p c)

section
variable (p : Nat) (c : Columns)

/-- No statement moves a row's stream, id, revision or recorded-time. -/
def SameFrame (c c' : Columns) : Prop :=
  c'.stream = c.stream ∧ c'.id = c.id ∧ c'.revision = c.revision ∧ c'.recordedAt = c.recordedAt

theorem redateRow_frame (position : Option Nat) (earliest : Int) :
    SameFrame c (redateRow position earliest p c) := by
  unfold redateRow
  split <;> exact ⟨rfl, rfl, rfl, rfl⟩

theorem convertRow_frame (converted : Option (Nat × Event)) :
    SameFrame c (convertRow converted p c) := by
  unfold convertRow rewriteRow
  split
  · split <;> exact ⟨rfl, rfl, rfl, rfl⟩
  · exact ⟨rfl, rfl, rfl, rfl⟩

theorem SameFrame.trans {c c' c'' : Columns} (h : SameFrame c c') (h' : SameFrame c' c'') :
    SameFrame c c'' :=
  ⟨h'.1.trans h.1, h'.2.1.trans h.2.1, h'.2.2.1.trans h.2.2.1, h'.2.2.2.trans h.2.2.2⟩

theorem migrateRow_frame (entryOf : String → String × Bool) (read : DerivedRead)
    (identity : String) (recorded : DerivedRecordings) :
    SameFrame c (migrateRow entryOf read identity recorded p c) :=
  (convertRow_frame p c _).trans (redateRow_frame p _ _ _)

theorem migrateRow_index (entryOf : String → String × Bool) (read : DerivedRead)
    (identity : String) (recorded : DerivedRecordings) :
    (migrateRow entryOf read identity recorded p c).index = c.index := by
  obtain ⟨hstream, -, hrevision, -⟩ := migrateRow_frame p c entryOf read identity recorded
  rw [Columns.index, Columns.index, hstream, hrevision]

end

/-- The migration in its one transaction. -/
def shedDerived (s : Store) (stream : String) (entryOf : String → String × Bool) :
    ShedDerived × Store :=
  let read := s.readDerived stream (s.shedByThePlan stream)
  let rewritten := read.identities.toList.foldl
    (fun s x => s.update (migrateRow entryOf read x.1 x.2)
      fun p c => migrateRow_index p c entryOf read x.1 x.2) s
  let converted := read.identities.toList.filter fun x => (conversion entryOf x.1 x.2).isSome
  (⟨converted.length, read.shed, read.unkeyed⟩,
    rewritten.delete fun r => !(r.2.stream == stream && derivedIndexTypes.contains r.2.type_))

end Store

/-! ## The read, identity by identity -/

/-- The generation a derived row records of `identity`. -/
def derivedBy (identity : String) (r : Row) : Option String :=
  recordedAs isDerivedIndexType identity r.2.type_ r.2.meta_

/-- The generation a ledger entry records of `identity`. -/
def entryBy (identity : String) (r : Row) : Option String :=
  recordedAs isLedgerEntry identity r.2.type_ r.2.meta_

/-- The generation a recording of either kind records of `identity`. -/
def recordingBy (identity : String) (r : Row) : Option String :=
  recorded identity r.2.type_ r.2.meta_

section
variable {identity : String} {r : Row} {generation : String}

theorem derivedBy_eq_some_iff : derivedBy identity r = some generation ↔
    isDerivedIndexType r.2.type_ = true ∧ named r.2.meta_ = some (identity, generation) :=
  recordedAs_eq_some_iff

theorem entryBy_eq_some_iff : entryBy identity r = some generation ↔
    isLedgerEntry r.2.type_ = true ∧ named r.2.meta_ = some (identity, generation) :=
  recordedAs_eq_some_iff

theorem recordingBy_eq_some_iff : recordingBy identity r = some generation ↔
    perceptionTypes.contains r.2.type_ = true ∧ named r.2.meta_ = some (identity, generation) :=
  recordedAs_eq_some_iff

theorem recordingBy_eq :
    recordingBy identity r = (derivedBy identity r).or (entryBy identity r) := by
  unfold recordingBy recorded derivedBy entryBy recordedAs
  by_cases hd : isDerivedIndexType r.2.type_ = true
  · have hl : ¬isLedgerEntry r.2.type_ = true := fun hl => by
      rw [not_derived_of_ledger hl] at hd
      cases hd
    rw [if_pos (mem_perceptionTypes.2 (Or.inl hd)), if_pos hd, if_neg hl, Option.or_none]
  · by_cases hl : isLedgerEntry r.2.type_ = true
    · rw [if_pos (mem_perceptionTypes.2 (Or.inr hl)), if_neg hd, if_pos hl, Option.none_or]
    · have hp : ¬perceptionTypes.contains r.2.type_ = true := by
        rw [mem_perceptionTypes, not_or]
        exact ⟨hd, hl⟩
      rw [if_neg hp, if_neg hd, if_neg hl]
      rfl

/-! A row is of one kind. -/

theorem entryBy_of_derived_type (h : isDerivedIndexType r.2.type_ = true) :
    entryBy identity r = none := by
  apply if_neg
  intro hl
  rw [not_derived_of_ledger hl] at h
  cases h

theorem derivedBy_of_ledger_type (h : isLedgerEntry r.2.type_ = true) :
    derivedBy identity r = none := by
  apply if_neg
  rw [not_derived_of_ledger h]
  exact Bool.false_ne_true

theorem entryBy_eq_none_of_derived (h : derivedBy identity r = some generation) :
    entryBy identity r = none :=
  entryBy_of_derived_type (derivedBy_eq_some_iff.1 h).1

theorem derivedBy_eq_none_of_entry (h : entryBy identity r = some generation) :
    derivedBy identity r = none :=
  derivedBy_of_ledger_type (entryBy_eq_some_iff.1 h).1

end

/-- An identity's entries after one more row. -/
def entryView (identity : String) (held : Option EntryRecordings) (r : Row) :
    Option EntryRecordings :=
  match entryBy identity r with
  | some _ =>
    let entry := held.getD ⟨r.1, r.2.validFrom⟩
    some { entry with earliest := min entry.earliest r.2.validFrom }
  | none => held

/-- An identity's derived rows after one more row. -/
def derivedView (identity : String) (shed : List Nat) (held : Option DerivedRecordings) (r : Row) :
    Option DerivedRecordings :=
  match derivedBy identity r with
  | some generation =>
    some ((held.getD ⟨r.2.validFrom, true, none, []⟩).record r generation (!shed.contains r.1))
  | none =>
    if (entryBy identity r).isSome then held.map DerivedRecordings.supersede else held

namespace DerivedRead

variable (shed : List Nat) (read : DerivedRead) (r : Row) (identity : String)

theorem step_entries : (read.step shed r).entries[identity]? =
    entryView identity read.entries[identity]? r := by
  unfold step entryView entryBy recordedAs
  by_cases hl : isLedgerEntry r.2.type_ = true
  · rw [if_pos hl, if_pos hl]
    cases named r.2.meta_ with
    | none => rfl
    | some n =>
      obtain ⟨i, g⟩ := n
      by_cases hi : i = identity
      · subst hi
        simp
      · simp [Std.ExtTreeMap.getElem?_insert, hi]
  · rw [if_neg hl, if_neg hl]
    cases named r.2.meta_ <;> rfl

theorem step_identities (hr : perceptionTypes.contains r.2.type_ = true) :
    (read.step shed r).identities[identity]? =
      derivedView identity shed read.identities[identity]? r := by
  unfold step derivedView derivedBy entryBy recordedAs
  by_cases hl : isLedgerEntry r.2.type_ = true
  · have hd := not_derived_of_ledger hl
    rw [if_pos hl, if_pos hl, hd]
    cases named r.2.meta_ with
    | none => rfl
    | some n =>
      obtain ⟨i, g⟩ := n
      by_cases hi : i = identity
      · subst hi
        simp
      · simp [Std.ExtTreeMap.getElem?_alter, hi]
  · have hd : isDerivedIndexType r.2.type_ = true := (mem_perceptionTypes.1 hr).resolve_right hl
    rw [if_neg hl, if_neg hl, if_pos hd]
    cases named r.2.meta_ with
    | none => rfl
    | some n =>
      obtain ⟨i, g⟩ := n
      by_cases hi : i = identity
      · subst hi
        simp
      · simp [Std.ExtTreeMap.getElem?_insert, hi]

end DerivedRead

section
variable (identity : String) (shed : List Nat) (rows : List Row)

theorem foldl_step_entries (read : DerivedRead) :
    (rows.foldl (DerivedRead.step shed) read).entries[identity]? =
      rows.foldl (entryView identity) read.entries[identity]? := by
  induction rows generalizing read with
  | nil => rfl
  | cons r rows ih => rw [List.foldl_cons, List.foldl_cons, ih, DerivedRead.step_entries]

theorem foldl_step_identities (read : DerivedRead)
    (hrows : ∀ r ∈ rows, perceptionTypes.contains r.2.type_ = true) :
    (rows.foldl (DerivedRead.step shed) read).identities[identity]? =
      rows.foldl (derivedView identity shed) read.identities[identity]? := by
  induction rows generalizing read with
  | nil => rfl
  | cons r rows ih =>
    obtain ⟨hr, hrows⟩ := List.forall_mem_cons.1 hrows
    rw [List.foldl_cons, List.foldl_cons, ih _ hrows, DerivedRead.step_identities shed read r
      identity hr]

/-- The first entry the read meets is the identity's first. -/
theorem entries_first : (rows.foldl (entryView identity) none).map EntryRecordings.first =
    first (fun r => (entryBy identity r).map fun _ => r.1) rows := by
  induction rows using List.reverseRecOn with
  | nil => rfl
  | append_singleton rows r ih =>
    rw [List.foldl_append, List.foldl_cons, List.foldl_nil, first_concat, ← ih, entryView]
    cases entryBy identity r with
    | none => simp
    | some g => cases rows.foldl (entryView identity) none <;> rfl

theorem entries_earliest : (rows.foldl (entryView identity) none).map EntryRecordings.earliest =
    least (fun r => (entryBy identity r).map fun _ => r.2.validFrom) rows := by
  induction rows using List.reverseRecOn with
  | nil => rfl
  | append_singleton rows r ih =>
    rw [List.foldl_append, List.foldl_cons, List.foldl_nil, least_concat, ← ih, entryView]
    cases entryBy identity r with
    | none => simp
    | some g => cases rows.foldl (entryView identity) none <;> simp

theorem identities_earliest :
    (rows.foldl (derivedView identity shed) none).map DerivedRecordings.earliest =
      least (fun r => (derivedBy identity r).map fun _ => r.2.validFrom) rows := by
  induction rows using List.reverseRecOn with
  | nil => rfl
  | append_singleton rows r ih =>
    rw [List.foldl_append, List.foldl_cons, List.foldl_nil, least_concat, ← ih, derivedView]
    cases derivedBy identity r with
    | none =>
      simp only [Option.map_none]
      split
      · cases rows.foldl (derivedView identity shed) none <;> rfl
      · rfl
    | some g =>
      cases rows.foldl (derivedView identity shed) none <;> simp [DerivedRecordings.record]

/-- Which kind of recording of the identity a row is: `true` for a derived row. -/
def kindBy (r : Row) : Option Bool :=
  match derivedBy identity r, entryBy identity r with
  | some _, _ => some true
  | none, some _ => some false
  | none, none => none

variable {r : Row}

theorem kindBy_eq_true_iff :
    kindBy identity r = some true ↔ ∃ generation, derivedBy identity r = some generation := by
  unfold kindBy
  cases derivedBy identity r with
  | some g => simp
  | none => cases entryBy identity r <;> simp

theorem kindBy_eq_none_iff :
    kindBy identity r = none ↔ derivedBy identity r = none ∧ entryBy identity r = none := by
  unfold kindBy
  cases derivedBy identity r with
  | some g => simp
  | none => cases entryBy identity r <;> simp

theorem identities_latest {d : DerivedRecordings}
    (h : rows.foldl (derivedView identity shed) none = some d) :
    latest (kindBy identity) rows = some d.latestIsDerived := by
  induction rows using List.reverseRecOn generalizing d with
  | nil => cases h
  | append_singleton rows r ih =>
    rw [List.foldl_append, List.foldl_cons, List.foldl_nil, derivedView] at h
    rw [latest_concat, kindBy]
    cases hd : derivedBy identity r with
    | some g =>
      rw [hd] at h
      cases h
      rfl
    | none =>
      rw [hd] at h
      cases he : entryBy identity r with
      | some g =>
        rw [he] at h
        obtain ⟨d', -, rfl⟩ := Option.map_eq_some_iff.1 h
        rfl
      | none =>
        rw [he] at h
        exact ih h

/-- The row the selection keeps for the identity, first since the identity's last entry. -/
def keptBy (r : Row) : Option (Nat × String) :=
  if shed.contains r.1 then none else (derivedBy identity r).map fun generation => (r.1, generation)

theorem keptBy_eq_some_iff {position : Nat} {generation : String} :
    keptBy identity shed r = some (position, generation) ↔
      r.1 ∉ shed ∧ derivedBy identity r = some generation ∧ r.1 = position := by
  unfold keptBy
  by_cases hshed : r.1 ∈ shed
  · rw [if_pos (List.contains_iff_mem.2 hshed)]
    simp [hshed]
  · rw [if_neg (mt List.contains_iff_mem.1 hshed), Option.map_eq_some_iff]
    simp [hshed]

theorem keptBy_eq_none_iff :
    keptBy identity shed r = none ↔ r.1 ∈ shed ∨ derivedBy identity r = none := by
  unfold keptBy
  by_cases hshed : r.1 ∈ shed
  · rw [if_pos (List.contains_iff_mem.2 hshed)]
    simp [hshed]
  · rw [if_neg (mt List.contains_iff_mem.1 hshed), Option.map_eq_none_iff]
    simp [hshed]

/-- The rows since the identity's last entry. -/
def sinceEntry : List Row := rows.rtakeWhile fun r => (entryBy identity r).isNone

theorem sinceEntry_concat (r : Row) : sinceEntry identity (rows ++ [r]) =
    if (entryBy identity r).isNone then sinceEntry identity rows ++ [r] else [] :=
  List.rtakeWhile_concat _ _ _

theorem sinceEntry_append {before after : List Row} (h : ∀ r ∈ after, entryBy identity r = none) :
    sinceEntry identity (before ++ after) = sinceEntry identity before ++ after := by
  induction after using List.reverseRecOn with
  | nil => simp
  | append_singleton after r ih =>
    have hr := h r (by simp)
    rw [← List.append_assoc, sinceEntry_concat, hr, Option.isNone_none, if_pos rfl,
      ih fun x hx => h x (List.mem_append_left _ hx), List.append_assoc]

theorem identities_kept : (rows.foldl (derivedView identity shed) none).bind
    DerivedRecordings.kept = first (keptBy identity shed) (sinceEntry identity rows) := by
  induction rows using List.reverseRecOn with
  | nil => rfl
  | append_singleton rows r ih =>
    rw [List.foldl_append, List.foldl_cons, List.foldl_nil, derivedView, sinceEntry_concat]
    cases hd : derivedBy identity r with
    | some g =>
      rw [entryBy_eq_none_of_derived hd, Option.isNone_none, if_pos rfl, first_concat, ← ih,
        keptBy, hd]
      cases hshed : shed.contains r.1 <;>
        cases rows.foldl (derivedView identity shed) none <;>
        simp [DerivedRecordings.record]
    | none =>
      cases he : entryBy identity r with
      | some g => cases rows.foldl (derivedView identity shed) none <;> rfl
      | none =>
        have hkept : keptBy identity shed r = none :=
          (keptBy_eq_none_iff identity shed).2 (Or.inr hd)
        rw [Option.isNone_none, if_pos rfl, first_concat, ← ih, hkept, Option.or_none]
        rfl

end

/-! ## What the rewrites touch -/

namespace Store

section
variable (s : Store) (stream : String)

/-- The migration's own read of the stream. -/
def migrationRead : DerivedRead := s.readDerived stream (s.shedByThePlan stream)

theorem entries_migrationRead (identity : String) :
    (s.migrationRead stream).entries[identity]? =
      (s.perception stream).foldl (entryView identity) none := by
  unfold migrationRead readDerived
  rw [foldl_step_entries]
  rfl

theorem identities_migrationRead (identity : String) :
    (s.migrationRead stream).identities[identity]? =
      (s.perception stream).foldl (derivedView identity (s.shedByThePlan stream)) none := by
  unfold migrationRead readDerived
  rw [foldl_step_identities]
  · rfl
  · exact fun r hr => (List.mem_filter.1 hr).2

variable (entryOf : String → String × Bool)

/-- The columns a row holds once every identity's statements ran. -/
def migrated (r : Row) : Columns :=
  (s.migrationRead stream).identities.toList.foldl
    (fun c x => migrateRow entryOf (s.migrationRead stream) x.1 x.2 r.1 c) r.2

theorem rows_shedDerived : (s.shedDerived stream entryOf).2.rows =
    (s.rows.map fun r => (r.1, s.migrated stream entryOf r)).filter fun r =>
      !(r.2.stream == stream && derivedIndexTypes.contains r.2.type_) := by
  show List.filter _ (List.foldl _ s _).rows = _
  exact congrArg _ (Table.foldl_update
    (fun (x : String × DerivedRecordings) => migrateRow entryOf (s.migrationRead stream) x.1 x.2)
    (fun x p c => migrateRow_index p c entryOf (s.migrationRead stream) x.1 x.2) _ s).1

theorem seq_shedDerived : (s.shedDerived stream entryOf).2.seq = s.seq :=
  (Table.foldl_update
    (fun (x : String × DerivedRecordings) => migrateRow entryOf (s.migrationRead stream) x.1 x.2)
    (fun x p c => migrateRow_index p c entryOf (s.migrationRead stream) x.1 x.2) _ s).2

end

theorem mem_perception {s : Store} {stream : String} {r : Row} : r ∈ s.perception stream ↔
    r ∈ s.streamRows stream ∧ perceptionTypes.contains r.2.type_ = true := List.mem_filter

section
variable {s : Store} {stream : String} {entryOf : String → String × Bool} {identity : String}
  {d : DerivedRecordings} {r : Row}

/-- The row a conversion rewrites is a derived row of its identity, which the plan keeps. -/
theorem conversion_row {position : Nat} {event : Event}
    (hd : (s.migrationRead stream).identities[identity]? = some d)
    (h : conversion entryOf identity d = some (position, event)) :
    ∃ r ∈ s.perception stream, ∃ generation, derivedBy identity r = some generation ∧
      r.1 = position ∧ d.latestIsDerived = true ∧ d.kept = some (position, generation) := by
  unfold conversion at h
  split at h
  · rename_i pos generation pre file hlatest hkept hparts
    cases h
    have hfirst := identities_kept identity (s.shedByThePlan stream) (s.perception stream)
    rw [← identities_migrationRead, hd, Option.bind_some, hkept] at hfirst
    obtain ⟨init, r, post, hsince, hr, -⟩ := (first_eq_some_iff _ _ _).1 hfirst.symm
    have hmem : r ∈ sinceEntry identity (s.perception stream) := by
      rw [hsince]
      simp
    obtain ⟨-, hgeneration, hposition⟩ := (keptBy_eq_some_iff _ _).1 hr
    exact ⟨r, (List.rtakeWhile_suffix _ _).subset hmem, generation, hgeneration, hposition, hlatest,
      hkept⟩
  · cases h

theorem first_row {e : EntryRecordings}
    (he : (s.migrationRead stream).entries[identity]? = some e) :
    ∃ r ∈ s.perception stream, ∃ generation, entryBy identity r = some generation ∧
      r.1 = e.first := by
  have hfirst := entries_first identity (s.perception stream)
  rw [← entries_migrationRead, he, Option.map_some] at hfirst
  obtain ⟨init, r, post, hrows, hr, -⟩ := (first_eq_some_iff _ _ _).1 hfirst.symm
  obtain ⟨g, hg, hpos⟩ := Option.map_eq_some_iff.1 hr
  exact ⟨r, by rw [hrows]; simp, g, hg, hpos⟩

/-- An identity's statements pass over every row that names another identity or none. -/
theorem migrateRow_of_other (hr : r ∈ s.rows)
    (hd : (s.migrationRead stream).identities[identity]? = some d)
    (hother : r ∈ s.perception stream → recordingBy identity r = none) (c : Columns) :
    migrateRow entryOf (s.migrationRead stream) identity d r.1 c = c := by
  -- a row at a touched position is the row found there, which names the identity
  have hne : ∀ x ∈ s.perception stream, ∀ generation,
      recordingBy identity x = some generation → x.1 ≠ r.1 := by
    intro x hx generation hgen hpos
    have hxr : x = r := Table.eq_of_position (mem_streamRows.1 (mem_perception.1 hx).1).1 hr hpos
    subst hxr
    rw [hother hx] at hgen
    cases hgen
  have hconverted : ∀ position event,
      conversion entryOf identity d = some (position, event) → position ≠ r.1 := by
    intro position event h
    obtain ⟨x, hx, g, hg, rfl, -⟩ := conversion_row hd h
    exact hne x hx g (by rw [recordingBy_eq, hg, Option.some_or])
  have hfirst : ∀ e, (s.migrationRead stream).entries[identity]? = some e → e.first ≠ r.1 := by
    intro e he
    obtain ⟨x, hx, g, hg, hpos⟩ := first_row he
    rw [← hpos]
    refine hne x hx g ?_
    rw [recordingBy_eq]
    cases hdx : derivedBy identity x with
    | none => rw [hg, Option.none_or]
    | some g' =>
      rw [entryBy_eq_none_of_derived hdx] at hg
      cases hg
  unfold migrateRow
  have hsurviving : some r.1 ≠ surviving (s.migrationRead stream).entries[identity]?
      (conversion entryOf identity d) := by
    cases he : (s.migrationRead stream).entries[identity]? with
    | none =>
      cases hc : conversion entryOf identity d with
      | none => exact fun h => by cases h
      | some x => exact fun h => hconverted x.1 x.2 hc (Option.some.inj h).symm
    | some e =>
      cases hc : conversion entryOf identity d with
      | none => exact fun h => hfirst e he (Option.some.inj h).symm
      | some x =>
        intro h
        have hmin : r.1 = min e.first x.1 := Option.some.inj h
        have h1 := hfirst e he
        have h2 := hconverted x.1 x.2 hc
        omega
  rw [redateRow, if_neg hsurviving]
  cases hc : conversion entryOf identity d with
  | none => rfl
  | some x => exact if_neg (Ne.symm (hconverted x.1 x.2 hc))

/-- A row that is no recording of the stream's keeps every column. -/
theorem migrated_of_unnamed (hr : r ∈ s.rows)
    (h : r ∈ s.perception stream → named r.2.meta_ = none) :
    s.migrated stream entryOf r = r.2 := by
  refine foldl_eq_self (fun x hx c => ?_) r.2
  refine migrateRow_of_other hr (Std.ExtTreeMap.mem_toList_iff_getElem?_eq_some.1 hx)
    (fun hp => ?_) c
  cases hrec : recordingBy x.1 r with
  | none => rfl
  | some g =>
    have := (recordingBy_eq_some_iff.1 hrec).2
    rw [h hp] at this
    cases this

/-- A recording is rewritten by its own identity's statements alone. -/
theorem migrated_of_named {generation : String} (hr : r ∈ s.perception stream)
    (hnamed : recordingBy identity r = some generation) : s.migrated stream entryOf r =
      match (s.migrationRead stream).identities[identity]? with
      | some d => migrateRow entryOf (s.migrationRead stream) identity d r.1 r.2
      | none => r.2 := by
  have hrows := (mem_streamRows.1 (mem_perception.1 hr).1).1
  have hother : ∀ x ∈ (s.migrationRead stream).identities.toList, x.1 ≠ identity →
      ∀ c, migrateRow entryOf (s.migrationRead stream) x.1 x.2 r.1 c = c := by
    intro x hx hne c
    refine migrateRow_of_other hrows (Std.ExtTreeMap.mem_toList_iff_getElem?_eq_some.1 hx)
      (fun _ => ?_) c
    cases hrec : recordingBy x.1 r with
    | none => rfl
    | some g =>
      have h1 := (recordingBy_eq_some_iff.1 hrec).2
      have h2 := (recordingBy_eq_some_iff.1 hnamed).2
      rw [h1, Option.some.injEq, Prod.mk.injEq] at h2
      exact absurd h2.1 hne
  unfold migrated
  cases hd : (s.migrationRead stream).identities[identity]? with
  | none =>
    refine foldl_eq_self (fun x hx c => hother x hx (fun heq => ?_) c) r.2
    have := Std.ExtTreeMap.mem_toList_iff_getElem?_eq_some.1 hx
    rw [heq, hd] at this
    cases this
  | some d =>
    have hmem := Std.ExtTreeMap.mem_toList_iff_getElem?_eq_some.2 hd
    refine foldl_eq_single hmem ?_ (fun x hx hne c => hother x hx (fun heq => hne ?_) c) r.2
    · exact (Std.ExtTreeMap.distinct_keys_toList).imp fun hab heq => hab (by
        rw [heq]
        exact Std.ReflCmp.compare_self)
    · have := Std.ExtTreeMap.mem_toList_iff_getElem?_eq_some.1 hx
      rw [heq, hd, Option.some.injEq] at this
      exact Prod.ext heq this.symm

end

end Store

end Rigger
